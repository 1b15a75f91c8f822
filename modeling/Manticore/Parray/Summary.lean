/-
  Manticore.Parray.Summary — lazy operations that keep of a finished piece only its summary in a monoid: reduction,
  where the finished pieces are the values themselves, and filtering, where they are ropes of which only the elements
  count. They do not rebuild an interrupted cursor but put its finished part (`splitCursor`), the result of one half
  of the rest and the result of the other together.

  `SumOpen`: the summaries of the finished pieces and the elements that are left make up the whole, in this order.
-/

import Manticore.Parray.RopeCursor

namespace Manticore.Parray

open Fuel (Returns)

variable {α β N ρ : Type} {M : Int}

/-- Results `β` with their summary `abs`, and the summary `val` of elements that are left. -/
structure Summary (α β N : Type) where
  mul : N → N → N
  one : N
  val : List α → N
  abs : β → N
  ok : β → Prop
  put : β → β → β
  mul_assoc : ∀ x y z, mul (mul x y) z = mul x (mul y z)
  one_mul : ∀ x, mul one x = x
  mul_one : ∀ x, mul x one = x
  val_nil : val [] = one
  val_append : ∀ xs ys, val (xs ++ ys) = mul (val xs) (val ys)
  ok_put : ∀ {b1 b2}, ok b1 → ok b2 → ok (put b1 b2)
  abs_put : ∀ {b1 b2}, ok b1 → ok b2 → abs (put b1 b2) = mul (abs b1) (abs b2)

variable (S : Summary α β N)

namespace Summary

/-- The summary of the finished pieces. -/
def before : GenCtx (Rope α) β → N
  | .top => S.one
  | .left c _ => before c
  | .right l c => S.mul (before c) (S.abs l)

def okCtx : GenCtx (Rope α) β → Prop
  | .top => True
  | .left c _ => okCtx c
  | .right l c => S.ok l ∧ okCtx c

end Summary

/-- A cursor that makes up `t`, with at most `n` elements left. -/
def SumOpen (M : Int) (t : N) (n : Int) (f : Rope α) (c : GenCtx (Rope α) β) : Prop :=
  (WFCursor M f c ∧ S.okCtx c ∧ S.mul (S.before c) (S.val (elements f c)) = t) ∧ remaining f c ≤ n

/-- The same when the focus is finished. -/
def SumClosed (M : Int) (t : N) (n : Int) (b : β) (c : GenCtx (Rope α) β) : Prop :=
  ((∀ x ∈ c.rights, x.WF M) ∧ S.okCtx c ∧ S.ok b ∧
    S.mul (S.before c) (S.mul (S.abs b) (S.val (c.rights.map Rope.toList).flatten)) = t) ∧
  (c.rights.map Rope.length).sum ≤ n

/-- A leaf is finished, or interrupted with two elements left or more. -/
def SumLeaf (M : Int)
    (work : Answers → Unit → List α → GenCtx (Rope α) β → Except Exn (Progress (Rope α × GenCtx (Rope α) β) (Unit × β) × Answers)) :
    Prop :=
  ∀ (t : N) n η xs c, SumOpen S M t n (.leaf xs) c → ∃ res η', work η () xs c = .ok (res, η') ∧
    Swept (fun tb => S.ok tb.2 ∧ S.abs tb.2 = S.val xs) (fun cur => SumOpen S M t n cur.1 cur.2 ∧ 2 ≤ remaining cur.1 cur.2) res

variable {S}

/-! ## A sweep -/

variable {c : GenCtx (Rope α) β} {t : N} {n : Int} {ps us : List α}

theorem leftmostLeaf_okCtx {f : Rope α} (h : S.okCtx c) :
    S.okCtx (leftmostLeaf f c).2 ∧ S.before (leftmostLeaf f c).2 = S.before c := by
  induction f generalizing c with
  | leaf x => exact ⟨h, rfl⟩
  | cat len d l r ihl ihr => exact ihl (c := .left c r) h

theorem leftmostLeaf_sum {f : Rope α} (h : SumOpen S M t n f c) :
    ∃ x c', leftmostLeaf f c = (x, c') ∧ SumOpen S M t n (.leaf x) c' ∧ unvisited c' + 1 = f.leaves.length +
      unvisited c := by
  obtain ⟨⟨hwf, hok, hwhole⟩, hle⟩ := h
  obtain ⟨x, c', hleft, hwf', hun, hrem, helem⟩ := leftmostLeaf_wf hwf
  obtain ⟨hok', hbefore⟩ := leftmostLeaf_okCtx (f := f) hok
  rw [hleft] at hok' hbefore
  refine ⟨x, c', hleft, ⟨⟨hwf', hok', ?_⟩, ?_⟩, hun⟩
  · rw [hbefore, helem]
    exact hwhole
  · rw [hrem]
    exact hle

theorem next_sum {b : β} (h : SumClosed S M t n b c) :
    (∃ b', next leftmostLeaf S.put b c = .done b' ∧ S.ok b' ∧ S.abs b' = t) ∨ ∃ x c', next leftmostLeaf S.put b c =
      .more (x, c') ∧ SumOpen S M t n (.leaf x) c' ∧ unvisited c' < unvisited c := by
  induction c generalizing b with
  | top =>
    obtain ⟨⟨-, -, hok, hwhole⟩, -⟩ := h
    refine .inl ⟨b, rfl, hok, ?_⟩
    have hnil : S.val ((GenCtx.top : GenCtx (Rope α) β).rights.map Rope.toList).flatten = S.one := S.val_nil
    rwa [hnil, S.mul_one, Summary.before, S.one_mul] at hwhole
  | left c r ih =>
    obtain ⟨⟨hrights, hokc, hok, hwhole⟩, hle⟩ := h
    have hopen : SumOpen S M t n r (.right b c) := by
      refine ⟨⟨hrights, ⟨hok, hokc⟩, ?_⟩, hle⟩
      rw [Summary.before, S.mul_assoc]
      exact hwhole
    obtain ⟨x, c', hleft, hopen', hun⟩ := leftmostLeaf_sum hopen
    grind [unvisited, GenCtx.rights, next]
  | right l c ih =>
    obtain ⟨⟨hrights, ⟨hl, hokc⟩, hok, hwhole⟩, hle⟩ := h
    refine ih ⟨⟨hrights, hokc, S.ok_put hl hok, ?_⟩, hle⟩
    rw [S.abs_put hl hok, S.mul_assoc, ← S.mul_assoc]
    exact hwhole

theorem SumOpen.tail (h : SumOpen S M t n (.leaf (ps ++ us)) c) :
    WFCursor M (.leaf us) c ∧ remaining (.leaf us) c ≤ n := by
  obtain ⟨⟨hwf, -, -⟩, hle⟩ := h
  have hlen : (Rope.leaf (ps ++ us)).length = ps.length + us.length := by
    show ((ps ++ us).length : Int) = _
    rw [List.length_append]
    exact Int.natCast_add _ _
  have hM : (Rope.leaf (ps ++ us)).length ≤ M := hwf.focus
  have hus : (Rope.leaf us).WF M := by
    show (us.length : Int) ≤ M
    omega
  refine ⟨wfCursor_cons hus hwf.rights, ?_⟩
  rw [remaining_eq] at hle ⊢
  show (us.length : Int) + (c.rights.map Rope.length).sum ≤ n
  omega

/-- After a part of a leaf. -/
theorem SumOpen.right (h : SumOpen S M t n (.leaf (ps ++ us)) c) {bp : β} (hok : S.ok bp)
    (hbp : S.abs bp = S.val ps) : SumOpen S M t n (.leaf us) (.right bp c) := by
  refine ⟨⟨h.tail.1, ⟨hok, h.1.2.1⟩, ?_⟩, h.tail.2⟩
  rw [Summary.before, hbp, S.mul_assoc, ← S.val_append, ← h.1.2.2]
  show _ = S.mul _ (S.val (ps ++ us ++ _))
  rw [List.append_assoc]
  rfl

/-- A part with nothing in its summary is not kept. -/
theorem SumOpen.skip (h : SumOpen S M t n (.leaf (ps ++ us)) c) (hps : S.val ps = S.one) :
    SumOpen S M t n (.leaf us) c := by
  refine ⟨⟨h.tail.1, h.1.2.1, ?_⟩, h.tail.2⟩
  rw [← h.1.2.2]
  show _ = S.mul _ (S.val (ps ++ us ++ _))
  rw [List.append_assoc, S.val_append ps, hps, S.one_mul]
  rfl

theorem SumOpen.close {xs : List α} (h : SumOpen S M t n (.leaf xs) c) {b : β} (hok : S.ok b)
    (hb : S.abs b = S.val xs) : SumClosed S M t n b c := by
  obtain ⟨⟨hwf, hokc, hwhole⟩, hle⟩ := h
  refine ⟨⟨hwf.rights, hokc, hok, ?_⟩, ?_⟩
  · rw [hb, ← S.val_append]
    exact hwhole
  · rw [remaining_eq] at hle
    have hxs := hwf.focus.length_nonneg
    omega

variable {work : Answers → Unit → List α → GenCtx (Rope α) β → Except Exn (Progress (Rope α × GenCtx (Rope α) β) (Unit × β) × Answers)}

theorem sweep_sum (hleaf : SumLeaf S M work) {t : N} {n : Int} {cur : Rope α × GenCtx (Rope α) β}
    (h : SumOpen S M t n cur.1 cur.2) (η : Answers) :
    ∃ res, Returns (fun n => let (s, c) := leftmostLeaf cur.1 cur.2
      sweepUntil work (next leftmostLeaf S.put) n η () s c) res ∧
      Swept (fun b => S.ok b ∧ S.abs b = t) (fun cur => SumOpen S M t n cur.1 cur.2 ∧ 2 ≤ remaining cur.1 cur.2) res := by
  obtain ⟨x, c, hleft, hopen, -⟩ := leftmostLeaf_sum h
  rw [hleft]
  refine sweepUntil_returns (fun _ xs c => SumOpen S M t n (.leaf xs) c) (fun _ b c => SumClosed S M t n b c) unvisited
    ?_ ?_ hopen η
  · intro η _ xs c hopen
    obtain ⟨res, η', hwork, hres⟩ := hleaf t n η xs c hopen
    refine ⟨res, η', hwork, ?_⟩
    cases res with
    | done tb => exact hopen.close hres.1 hres.2
    | more cur' => exact hres
  · intro _ b c hclosed
    exact next_sum hclosed

/-! ## The split -/

/-- The finished part of a cursor, and the rest as one rope. -/
theorem splitCursor_returns (jR : Nat → Rope α → Rope α → Except Exn (Rope α)) (b0 : β) (hb0 : S.ok b0 ∧ S.abs b0 = S.one)
    (hM : 0 ≤ M) (hjR : ∀ {r u : Rope α}, r.WF M → u.WF M →
      ∃ v, Returns (fun n => jR n r u) v ∧ v.WF M ∧ v.toList = r.toList ++ u.toList)
    {f : Rope α} {c : GenCtx (Rope α) β} (hwf : WFCursor M f c) (hokc : S.okCtx c) :
    ∃ p u, Returns (fun n => splitCursor S.put b0 (jR n) .empty f c) (p, u) ∧ S.ok p ∧ S.abs p = S.before c ∧ u.WF M ∧
      u.toList = elements f c := by
  have hctx : ∃ p u, Returns (fun n => splitCtx S.put b0 (jR n) .empty c) (p, u) ∧ S.ok p ∧ S.abs p = S.before c ∧
      u.WF M ∧ u.toList = (c.rights.map Rope.toList).flatten := by
    have hrights := hwf.rights
    clear hwf
    induction c with
    | top => exact ⟨b0, .empty, .pure _, hb0.1, hb0.2, hM, rfl⟩
    | left c r ih =>
      obtain ⟨hr, hrights'⟩ := List.forall_mem_cons.mp hrights
      obtain ⟨p, u, hret, hp, habs, hu, hto⟩ := ih hokc hrights'
      obtain ⟨v, hretv, hv, htov⟩ := hjR hr hu
      refine ⟨p, v, ?_, hp, habs, hv, ?_⟩
      · simp only [splitCtx]
        exact hret.bind (hretv.bind (.pure _))
      · rw [htov, hto]
        rfl
    | right l c ih =>
      obtain ⟨hl, hokc'⟩ := hokc
      obtain ⟨p, u, hret, hp, habs, hu, hto⟩ := ih hokc' hrights
      refine ⟨S.put p l, u, ?_, S.ok_put hp hl, ?_, hu, hto⟩
      · simp only [splitCtx]
        exact hret.bind (.pure _)
      · rw [S.abs_put hp hl, habs]
        rfl
  obtain ⟨p, u, hret, hp, habs, hu, hto⟩ := hctx
  obtain ⟨v, hretv, hv, htov⟩ := hjR hwf.focus hu
  refine ⟨p, v, ?_, hp, habs, hv, ?_⟩
  · simp only [splitCursor]
    exact hret.bind (hretv.bind (.pure _))
  · rw [htov, hto]
    rfl

/-- A split gives the finished part and two ropes with the elements of the rest, both shorter. -/
def SumSplit (S : Summary α β N) (M : Int) (split : Nat → Rope α × GenCtx (Rope α) β →
    Except Exn ((Rope α × GenCtx (Rope α) β) × (Rope α × GenCtx (Rope α) β) × β)) : Prop :=
  ∀ f c, WFCursor M f c → S.okCtx c → 2 ≤ remaining f c → ∃ u1 u2 p,
    Returns (fun n => split n (f, c)) ((u1, .top), (u2, .top), p) ∧ S.ok p ∧ S.abs p = S.before c ∧ u1.WF M ∧ u2.WF M ∧
    u1.toList ++ u2.toList = elements f c ∧ u1.length < remaining f c ∧ u2.length < remaining f c

theorem sumOpen_top {u : Rope α} (h : u.WF M) : SumOpen S M (S.val u.toList) u.length u (.top : GenCtx (Rope α) β) := by
  refine ⟨⟨wfCursor_cons h nofun, trivial, ?_⟩, ?_⟩
  · rw [Summary.before, S.one_mul, elements]
    exact congrArg S.val (List.append_nil _)
  · rw [remaining_eq]
    exact Int.le_of_eq (Int.add_zero _)

theorem lazySplit_sum (hleaf : SumLeaf S M work) {split : Nat → Rope α × GenCtx (Rope α) β →
    Except Exn ((Rope α × GenCtx (Rope α) β) × (Rope α × GenCtx (Rope α) β) × β)} (hsplit : SumSplit S M split)
    {rp : Rope α} (h : rp.WF M) (η : Schedule) :
    ∃ b, Returns (fun n => lazySplit (fun n η cur => let (s, c) := leftmostLeaf cur.1 cur.2
      sweepUntil work (next leftmostLeaf S.put) n η () s c) split (fun b1 b2 p => .ok (S.put p (S.put b1 b2))) n η (rp, .top)) b ∧
      S.ok b ∧ S.abs b = S.val rp.toList := by
  refine lazySplit_returns (fun _ => True)
    (fun Q cur => ∃ t n, SumOpen S M t n cur.1 cur.2 ∧ ∀ b, S.ok b → S.abs b = t → Q b)
    (fun Q cur => ∃ t n, SumOpen S M t n cur.1 cur.2 ∧ 2 ≤ remaining cur.1 cur.2 ∧ ∀ b, S.ok b → S.abs b = t → Q b)
    (fun cur => (remaining cur.1 cur.2).toNat) ?_ ?_
    ⟨_, _, sumOpen_top h, fun b hok habs => ⟨hok, habs⟩⟩ η fun _ _ => trivial
  · intro Q cur η hopen
    obtain ⟨t, n, hopen, hQ⟩ := hopen
    obtain ⟨res, hret, hres⟩ := sweep_sum hleaf (n := remaining cur.1 cur.2) ⟨hopen.1, Int.le_refl _⟩ η
    refine ⟨res, hret, ?_⟩
    cases res with
    | done b => exact hQ b hres.1 hres.2
    | more cur' =>
      obtain ⟨hopen', h2⟩ := hres
      have hle := hopen'.2
      exact ⟨⟨t, _, hopen', h2, hQ⟩, by omega⟩
  · intro Q cur hJ _
    obtain ⟨t, n, ⟨⟨hwf, hokc, hwhole⟩, -⟩, h2, hQ⟩ := hJ
    obtain ⟨u1, u2, p, hret, hp, habs, h1, h2', happ, hlt1, hlt2⟩ := hsplit cur.1 cur.2 hwf hokc h2
    refine ⟨_, _, p, fun b => S.ok b ∧ S.abs b = S.val u1.toList, fun b => S.ok b ∧ S.abs b = S.val u2.toList, hret,
      ⟨_, _, sumOpen_top h1, fun b hok hb => ⟨hok, hb⟩⟩,
      ⟨_, _, sumOpen_top h2', fun b hok hb => ⟨hok, hb⟩⟩, ?_, ?_, ?_⟩
    · have hrem : remaining u1 (.top : GenCtx (Rope α) β) = u1.length := by
        rw [remaining_eq]
        exact Int.add_zero _
      dsimp only
      omega
    · have hrem : remaining u2 (.top : GenCtx (Rope α) β) = u2.length := by
        rw [remaining_eq]
        exact Int.add_zero _
      dsimp only
      omega
    · intro b1 b2 hb1 hb2
      refine ⟨_, rfl, hQ _ (S.ok_put hp (S.ok_put hb1.1 hb2.1)) ?_⟩
      rw [S.abs_put hp (S.ok_put hb1.1 hb2.1), S.abs_put hb1.1 hb2.1, habs, hb1.2, hb2.2, ← S.val_append, happ]
      exact hwhole

end Manticore.Parray
