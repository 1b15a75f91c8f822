/-
  Manticore.Parray.Foreach — `foreach` under lazy splitting (`foreachUntil` and `foreachLTS` of `basis/parray/rope.pml`,
  `foreachUntil` of `vector-seq.pml`).

  The function is called for its effect, so a run is the list of its calls: index and element. The index given to the
  halves of an interrupted task is that of the task's first element, whatever was done before the interruption.

  - `foreach_iff`: every element is called once and with its own index if every task that is interrupted is so before
    its first element, or before its last one where that is alone in its leaf (`OnTime`).
  - `foreach_twice`: an index called twice.
-/

import Manticore.Parray.CursorRoot

namespace Manticore.Parray

open Fuel (Returns ok_bind of_bind_ok)
open List (cons_append map_cons length_append append_assoc append_nil map_append nodup_append mem_append)

variable {α : Type} (M : Int)

/-- The calls from an index on. -/
def Seq.foreach (i : Int) : List α → List (Int × α)
  | [] => []
  | x :: s => (i, x) :: Seq.foreach (i + 1) s

def Seq.foreachUntil (i : Int) : List α → Answers → List (Int × α) × Progress (List α) Unit × Answers
  | [], σ => ([], .done (), σ)
  | x :: s, σ =>
    if σ 0 then ([], .more (x :: s), σ.rest)
    else
      let (calls, p, σ') := Seq.foreachUntil (i + 1) s σ.rest
      ((i, x) :: calls, p, σ')

/-- A finished piece is an empty rope. -/
abbrev ForeachCtx (α : Type) := GenCtx (Rope α) (Rope α)

def nextForeach (c : ForeachCtx α) : Progress (List α × ForeachCtx α) (Rope α) := next leftmostLeaf nccat2 .empty c

def foreachUntil : Nat → Answers → Int → List α → ForeachCtx α →
    Except Exn (List (Int × α) × Progress (Rope α × ForeachCtx α) Unit)
  | 0, _, _, _, _ => .error .fuel
  | n + 1, σ, i, s, c => do
    let (calls, p, σ') := Seq.foreachUntil i s σ
    match p with
    | .more us =>
      if numUnprocessed Rope.length Rope.length (← leaf M us) c < 2 then
        match nextForeach c with
        | .done _ => return (calls ++ Seq.foreach i us, .done ())
        | .more (s', c') =>
          let (calls', p') ← foreachUntil n σ' (i + us.length) s' c'
          return (calls ++ Seq.foreach i us ++ calls', p')
      else return (calls, .more (← leaf M us, c))
    | .done () =>
      match nextForeach c with
      | .done _ => return (calls, .done ())
      | .more (s', c') =>
        let (calls', p') ← foreachUntil n σ' (i + s.length) s' c'
        return (calls ++ calls', p')

/-- `m` of `foreachLTS`. -/
def foreachTask : Nat → Schedule → Int → Rope α × ForeachCtx α → Except Exn (List (Int × α))
  | 0, _, _, _ => .error .fuel
  | n + 1, σ, i, cur => do
    let (s, c) := leftmostLeaf cur.1 cur.2
    let (calls, p) ← foreachUntil M n σ.here i s c
    match p with
    | .done () => return calls
    | .more cur' =>
      let mid := numUnprocessed Rope.length Rope.length cur'.1 cur'.2 / 2
      let (rp1, rp2, _) ← splitAt .rope Rope.length encodeRope (cursorAtIx M) unzipCursor cur' mid
      let calls1 ← foreachTask n σ.fst i (← start M rp1)
      let calls2 ← foreachTask n σ.snd (i + rp1.length) (← start M rp2)
      return calls ++ calls1 ++ calls2

def foreachLTS (PPT : Int) (n : Nat) (σ : Schedule) (rp : Rope α) : Except Exn (List (Int × α)) :=
  if PPT ≠ 1 then .error (.fail "PPT != 1 currently unsupported")
  else do foreachTask M n σ 0 (← start M rp)

/-- The length of the last leaf that has elements. -/
def lastLen : List (List α) → Nat
  | [] => 0
  | l :: ls => if ls.flatten = [] then l.length else lastLen ls

/-- Of a task on `n` elements, the last `t` of them in one leaf: it is not interrupted, or before its first element, or
    before its last one where that is alone. -/
inductive OnTime : Schedule → Nat → Nat → Prop
  | whole {σ : Schedule} {n t : Nat} : (∀ j < n, σ.here j = false) → OnTime σ n t
  | last {σ : Schedule} {n : Nat} : (∀ j < n, σ.here j = false) → σ.here n = true → OnTime σ (n + 1) 1
  | split {σ : Schedule} {n t : Nat} : 2 ≤ n → σ.here 0 = true → OnTime σ.fst (n / 2) 1 →
      OnTime σ.snd (n - n / 2) (min t (n - n / 2)) → OnTime σ n t

variable {M}

/-! ## The calls -/

theorem foreach_append (i : Int) (xs ys : List α) :
    Seq.foreach i (xs ++ ys) = Seq.foreach i xs ++ Seq.foreach (i + xs.length) ys := by
  induction xs generalizing i with
  | nil => simp [Seq.foreach]
  | cons x xs ih =>
    rw [cons_append, Seq.foreach, ih, Seq.foreach, List.length_cons, cons_append]
    congr 3
    push_cast
    omega

theorem mem_foreach {i j : Int} {xs : List α} : j ∈ (Seq.foreach i xs).map Prod.fst ↔ i ≤ j ∧ j < i + xs.length := by
  induction xs generalizing i with
  | nil => simp [Seq.foreach]
  | cons x xs ih =>
    rw [Seq.foreach, map_cons, List.mem_cons, ih, List.length_cons]
    omega

theorem nodup_foreach (i : Int) (xs : List α) : ((Seq.foreach i xs).map Prod.fst).Nodup := by
  induction xs generalizing i with
  | nil => exact .nil
  | cons x xs ih =>
    refine List.nodup_cons.mpr ⟨fun hmem => ?_, ih _⟩
    have := (mem_foreach.mp hmem).1
    omega

/-- A leaf is done, or stopped before an element. -/
theorem seq_foreachUntil (i : Int) (s : List α) (σ : Answers) :
    ((∀ j < s.length, σ j = false) ∧ Seq.foreachUntil i s σ = (Seq.foreach i s, .done (), fun j => σ (j + s.length))) ∨
    ∃ ps us σ', s = ps ++ us ∧ us ≠ [] ∧ (∀ j < ps.length, σ j = false) ∧ σ ps.length = true ∧
      Seq.foreachUntil i s σ = (Seq.foreach i ps, .more us, σ') := by
  induction s generalizing i σ with
  | nil => exact .inl ⟨nofun, rfl⟩
  | cons x s ih =>
    unfold Seq.foreachUntil
    by_cases hstop : σ 0 = true
    · rw [if_pos hstop]
      exact .inr ⟨[], x :: s, σ.rest, rfl, List.cons_ne_nil _ _, nofun, hstop, rfl⟩
    · rw [if_neg hstop]
      have hfirst : ∀ {k : Nat}, (∀ j < k, σ.rest j = false) → ∀ j < k + 1, σ j = false := by
        intro k hk j hj
        cases j with
        | zero => simpa using hstop
        | succ j => exact hk j (by omega)
      rcases ih (i + 1) σ.rest with ⟨hno, hdone⟩ | ⟨ps, us, σ', rfl, hne, hno, hyes, hmore⟩
      · exact .inl ⟨hfirst hno, by rw [hdone]; rfl⟩
      · exact .inr ⟨x :: ps, us, σ', rfl, hne, hfirst hno, hyes, by rw [hmore]; rfl⟩

/-! ## The last leaf -/

theorem lastLen_append (A : List (List α)) {B : List (List α)} (hB : B.flatten ≠ []) : lastLen (A ++ B) = lastLen B := by
  induction A with
  | nil => rfl
  | cons l A ih => rw [cons_append, lastLen, if_neg (by simp [hB]), ih]

theorem lastLen_le (ls : List (List α)) : lastLen ls ≤ ls.flatten.length := by
  induction ls with
  | nil => exact Nat.le_refl 0
  | cons l ls ih => grind [lastLen]

/-- Where a leaf is cut. -/
theorem lastLen_cut (ps us : List α) (ls : List (List α)) :
    lastLen (us :: ls) = min (lastLen ((ps ++ us) :: ls)) (us :: ls).flatten.length := by
  have := lastLen_le ls
  grind [lastLen]

theorem flatten_leaves (rp : Rope α) : rp.leaves.flatten = rp.toList := Rope.toSeq_eq rp

theorem leaves_ne_nil {rp : Rope α} (h : rp.WF M) (hpos : 0 < rp.length) (A : List (List α)) :
    (rp.leaves ++ A).flatten ≠ [] := by
  have hlen := h.length_eq
  rw [List.flatten_append, flatten_leaves]
  exact List.ne_nil_of_length_pos (by rw [length_append]; omega)

/-- The leaves of pieces. -/
def leavesOf (xs : List (Rope α)) : List (List α) := xs.flatMap Rope.leaves

@[simp] theorem leavesOf_cons (x : Rope α) (xs : List (Rope α)) : leavesOf (x :: xs) = x.leaves ++ leavesOf xs :=
  List.flatMap_cons

@[simp] theorem leavesOf_append (xs ys : List (Rope α)) : leavesOf (xs ++ ys) = leavesOf xs ++ leavesOf ys :=
  List.flatMap_append

theorem flatten_leavesOf (xs : List (Rope α)) : (leavesOf xs).flatten = (xs.map Rope.toList).flatten := by
  induction xs with
  | nil => rfl
  | cons x xs ih => rw [leavesOf_cons, List.flatten_append, ih, flatten_leaves, map_cons, List.flatten_cons]

/-- The element that a rope is split at is a leaf, and so is what is right of it in its leaf. -/
theorem nav_lastLen {f mn : Rope α} {ls rs mls mrs : List (Rope α)} {ds mds : List Dir} {i : Int} (hf : f.WF M) (h0 : 0 ≤ i)
    (hi : i < f.length) (h : nav M f (ls, rs, ds) i = .ok (mn, mls, mrs, mds)) (R : List (List α)) :
    (∃ x, mn = .leaf [x]) ∧ lastLen (leavesOf mrs ++ R) =
      min (lastLen (f.leaves ++ leavesOf rs ++ R)) (leavesOf mrs ++ R).flatten.length := by
  induction f generalizing ls rs ds i with
  | leaf s =>
    have hle := lastLen_le (leavesOf rs ++ R)
    unfold nav at h
    by_cases hone : s.length = 1
    · rw [if_pos hone, leaf_ok hf] at h
      cases h
      obtain ⟨x, rfl⟩ := List.length_eq_one_iff.mp hone
      refine ⟨⟨x, rfl⟩, ?_⟩
      grind [lastLen, Rope.leaves]
    · rw [if_neg hone] at h
      obtain ⟨l, x, r, hsplit, rfl, -⟩ := seqSplitAtIx3_ok h0 hi
      rw [hsplit, ok_bind] at h
      obtain ⟨l', hl', h⟩ := of_bind_ok h
      obtain ⟨r', hr', h⟩ := of_bind_ok h
      obtain ⟨x', hx', h⟩ := of_bind_ok h
      obtain ⟨rfl, -⟩ := leaf_inv hr'
      obtain ⟨rfl, -⟩ := leaf_inv hx'
      cases h
      have hcut := lastLen_cut (l ++ [x]) r (leavesOf rs ++ R)
      rw [append_assoc] at hcut
      exact ⟨⟨x, rfl⟩, hcut⟩
  | cat len d l r ihl ihr =>
    obtain ⟨rfl, -, hl, hr⟩ := hf
    have hi' : i < l.length + r.length := hi
    unfold nav at h
    by_cases hleft : i < l.length
    · rw [if_pos hleft] at h
      have hrec := ihl hl h0 hleft h
      rwa [leavesOf_cons, ← append_assoc] at hrec
    · rw [if_neg hleft] at h
      have hrec := ihr hr (by omega) (by omega) h
      rw [Rope.leaves, append_assoc, append_assoc,
        lastLen_append l.leaves (leaves_ne_nil hr (by omega) _), ← append_assoc]
      exact hrec

theorem encode_leaves {xs : List (Rope α)} {e : Rope α} (h : encode nccat2 xs = .ok e) : e.leaves = leavesOf xs := by
  induction xs generalizing e with
  | nil => cases h
  | cons x xs ih =>
    cases xs with
    | nil =>
      cases h
      simp [leavesOf]
    | cons y ys =>
      obtain ⟨e', he', h⟩ := of_bind_ok h
      cases h
      show x.leaves ++ e'.leaves = _
      rw [ih he', leavesOf_cons x]

theorem splitAt_lastLen {f e1 e2 : Rope α} {c : ForeachCtx α} {n : Int} {reb : Rebuilder (Rope α)} (hwf : WFCursor M f c)
    (h1 : 1 ≤ n) (hn : n < remaining f c)
    (h : splitAt .rope Rope.length encodeRope (cursorAtIx M) unzipCursor (f, c) n = .ok (e1, e2, reb)) :
    lastLen e1.leaves = 1 ∧ lastLen e2.leaves = min (lastLen (leavesOf (f :: c.rights))) e2.toList.length := by
  obtain ⟨rps1, m, k, rps2, hdiv, hpieces, hk1, hk2, -⟩ := divide_ok Rope.length h1 (Int.le_of_lt hn)
  have hm : m.WF M := hwf m (by rw [hpieces]; simp)
  unfold splitAt at h
  simp only [unzipCursor, unzipCtx_rights, hdiv, ok_bind] at h
  obtain ⟨⟨mn, mls, mrs, mds⟩, hnav, h⟩ := of_bind_ok h
  obtain ⟨⟨rp1, l1⟩, he1, h⟩ := of_bind_ok h
  obtain ⟨⟨rp2, l2⟩, he2, h⟩ := of_bind_ok h
  cases h
  have hin : m.inBounds (k - 1) = true := by
    rw [Rope.inBounds, Bool.and_eq_true, decide_eq_true_eq, decide_eq_true_eq]
    omega
  rw [cursorAtIx, if_pos hin] at hnav
  obtain ⟨⟨x, rfl⟩, hlast⟩ := nav_lastLen hm (by omega) (by omega) hnav (leavesOf rps2)
  constructor
  · rw [encode_leaves (encodeRope_inv he1).1, leavesOf_append, lastLen_append _ (by simp [leavesOf, Rope.leaves])]
    rfl
  · rw [← flatten_leaves, encode_leaves (encodeRope_inv he2).1, leavesOf_append, hlast, hpieces, leavesOf_append,
      leavesOf_cons, lastLen_append _ (leaves_ne_nil hm (by omega) _)]
    simp [leavesOf]

/-! ## A sweep -/

/-- What is done of the elements of a task before it ends or is interrupted, the last `t` of them in one leaf. -/
inductive Sweeps (M : Int) (σ : Answers) (i : Int) (xs : List α) (t : Nat) :
    List (Int × α) × Progress (Rope α × ForeachCtx α) Unit → Prop
  | whole : (∀ j < xs.length, σ j = false) → Sweeps M σ i xs t (Seq.foreach i xs, .done ())
  | last {ps : List α} {x : α} : xs = ps ++ [x] → (∀ j < ps.length, σ j = false) → σ ps.length = true → 1 ≤ t →
      Sweeps M σ i xs t (Seq.foreach i ps ++ [(i + (xs.length - t : Int), x)], .done ())
  | more {ps us : List α} {f : Rope α} {c : ForeachCtx α} : xs = ps ++ us → 2 ≤ us.length → (∀ j < ps.length, σ j = false) →
      σ ps.length = true → WFCursor M f c → elements f c = us → lastLen (leavesOf (f :: c.rights)) = min t us.length →
      Sweeps M σ i xs t (Seq.foreach i ps, .more (f, c))

theorem leftmostLeaf_leaves (r : Rope α) (c : ForeachCtx α) :
    (leftmostLeaf r c).1 :: leavesOf (leftmostLeaf r c).2.rights = r.leaves ++ leavesOf c.rights := by
  induction r generalizing c with
  | leaf s => rfl
  | cat len d l r ihl ihr =>
    rw [leftmostLeaf, ihl, Rope.leaves, append_assoc]
    rfl

theorem nextForeach_leaves {f : Rope α} {c : ForeachCtx α} (hwf : ∀ x ∈ c.rights, x.WF M) :
    (leavesOf c.rights = [] ∧ ∃ f', next leftmostLeaf nccat2 f c = .done f') ∨
    ∃ s c', next leftmostLeaf nccat2 f c = .more (s, c') ∧ WFCursor M (.leaf s) c' ∧
      s :: leavesOf c'.rights = leavesOf c.rights := by
  induction c generalizing f with
  | top => exact .inl ⟨rfl, f, rfl⟩
  | left c r ih =>
    have hwf' : WFCursor M r (.right f c : ForeachCtx α) := hwf
    obtain ⟨x, c', hleft, hwf'', -⟩ := leftmostLeaf_wf hwf'
    have hleaves := leftmostLeaf_leaves r (.right f c)
    rw [hleft] at hleaves
    exact .inr ⟨x, c', by rw [next, hleft], hwf'', by rw [hleaves]; exact (leavesOf_cons _ _).symm⟩
  | right l c ih => exact ih hwf

/-- After a leaf that is done. -/
theorem Sweeps.after {σ : Answers} {i : Int} {s ys : List α} {t t' : Nat} {r : List (Int × α) × Progress (Rope α × ForeachCtx α) Unit}
    (hno : ∀ j < s.length, σ j = false) (ht : ys ≠ [] → t = t')
    (h : Sweeps M (fun j => σ (j + s.length)) (i + s.length) ys t' r) :
    Sweeps M σ i (s ++ ys) t (Seq.foreach i s ++ r.1, r.2) := by
  have hboth : ∀ {k : Nat}, (∀ j < k, σ (j + s.length) = false) → ∀ j < s.length + k, σ j = false := by
    intro k hk j hj
    by_cases hjs : j < s.length
    · exact hno j hjs
    · have hj' := hk (j - s.length) (by omega)
      rwa [Nat.sub_add_cancel (by omega)] at hj'
  cases h with
  | whole hys =>
    rw [← foreach_append]
    exact .whole fun j hj => hboth hys j (by rwa [length_append] at hj)
  | last hxs hk hstop h1 =>
    rename_i ps x
    obtain rfl := ht (by rw [hxs]; simp)
    subst hxs
    have hix : i + s.length + (((ps ++ [x]).length : Int) - t) = i + (((s ++ ps ++ [x]).length : Int) - t) := by
      simp only [length_append, List.length_singleton]
      push_cast
      omega
    rw [hix, ← append_assoc, ← append_assoc, ← foreach_append]
    exact .last rfl (fun j hj => hboth hk j (by rwa [length_append] at hj))
      (by rw [length_append, Nat.add_comm]; exact hstop) h1
  | more hxs h2 hk hstop hwf hus hlast =>
    rename_i ps us f c
    obtain rfl := ht (by rw [hxs]; exact List.append_ne_nil_of_right_ne_nil _ (List.ne_nil_of_length_pos (by omega)))
    subst hxs
    rw [← foreach_append, ← append_assoc]
    exact .more rfl h2 (fun j hj => hboth hk j (by rwa [length_append] at hj))
      (by rw [length_append, Nat.add_comm]; exact hstop) hwf hus hlast

theorem Sweeps.nil {σ : Answers} {i : Int} {t : Nat} {r : List (Int × α) × Progress (Rope α × ForeachCtx α) Unit}
    (h : Sweeps M σ i [] t r) : r = ([], .done ()) := by
  cases h with
  | whole => rfl
  | last hxs => simp at hxs
  | more hxs h2 =>
    rw [(List.append_eq_nil_iff.mp hxs.symm).2] at h2
    cases h2

/-- A leaf, and what comes after it. -/
theorem sweep_leaf {s : List α} {c : ForeachCtx α} {ls : List (List α)} (hwf : WFCursor M (.leaf s) c) (i : Int) (σ : Answers)
    (hls : leavesOf c.rights = ls)
    (hrest : ∀ σ' i' calls, ∃ r, Sweeps M σ' i' ls.flatten (lastLen ls) r ∧
      Returns (fun n => match nextForeach c with
        | .done _ => .ok (calls, .done ())
        | .more (s', c') => do
          let (calls', p') ← foreachUntil M n σ' i' s' c'
          return (calls ++ calls', p')) (calls ++ r.1, r.2)) :
    ∃ r, Returns (fun n => foreachUntil M n σ i s c) r ∧ Sweeps M σ i (s ++ ls.flatten) (lastLen (s :: ls)) r := by
  rcases seq_foreachUntil i s σ with ⟨hno, hdone⟩ | ⟨ps, us, σ', rfl, hne, hno, hyes, hstop⟩
  · obtain ⟨r, hsw, hret⟩ := hrest (fun j => σ (j + s.length)) (i + s.length) (Seq.foreach i s)
    refine ⟨_, .succ ?_, hsw.after hno fun hys => lastLen_append [s] hys⟩
    simp only [foreachUntil, hdone]
    exact hret
  · have hs : ((ps ++ us).length : Int) ≤ M := hwf.focus
    rw [length_append] at hs
    have hus : ((us.length : Nat) : Int) ≤ M := by omega
    have hwf' : WFCursor M (.leaf us) c := wfCursor_cons hus hwf.rights
    have helems : elements (.leaf us) c = us ++ ls.flatten := by
      rw [elements, ← flatten_leavesOf, hls]
      rfl
    have hrem : numUnprocessed Rope.length Rope.length (.leaf us) c = (us ++ ls.flatten).length := by
      rw [numUnprocessed_remaining, ← length_elements hwf', helems]
    have hpos := List.length_pos_iff.mpr hne
    by_cases hlast : numUnprocessed Rope.length Rope.length (.leaf us) c < 2
    · have hshort := hrem ▸ hlast
      rw [length_append] at hshort
      have hnil : ls.flatten = [] := List.length_eq_zero_iff.mp (by omega)
      obtain ⟨x, rfl⟩ := List.length_eq_one_iff.mp (show us.length = 1 by omega)
      rw [hnil] at hrest ⊢
      obtain ⟨r, hsw, hret⟩ := hrest σ' (i + 1) (Seq.foreach i ps ++ Seq.foreach i [x])
      rw [hsw.nil, append_nil] at hret
      refine ⟨(Seq.foreach i ps ++ Seq.foreach i [x], .done ()), .succ ?_, ?_⟩
      · simp only [foreachUntil, hstop, leaf_ok hus, ok_bind, if_pos hlast]
        exact hret
      · have hone : lastLen ((ps ++ [x]) :: ls) = (ps ++ [x]).length := if_pos hnil
        have hfirst : Seq.foreach i [x] = [(i + (((ps ++ [x]).length : Int) - lastLen ((ps ++ [x]) :: ls)), x)] := by
          rw [hone, Int.sub_self, Int.add_zero]
          rfl
        rw [hfirst, append_nil]
        exact .last rfl hno hyes (by rw [hone]; simp)
    · refine ⟨_, .succ (.congr (.pure (Seq.foreach i ps, .more (.leaf us, c))) fun n => ?_), ?_⟩
      · simp only [foreachUntil, hstop, leaf_ok hus, ok_bind, if_neg hlast]
        rfl
      · rw [append_assoc]
        refine .more rfl (by omega) hno hyes hwf' helems ?_
        rw [leavesOf_cons, hls]
        exact lastLen_cut ps us ls

theorem foreachUntil_sweeps {s : List α} {c : ForeachCtx α} (hwf : WFCursor M (.leaf s) c) (i : Int) (σ : Answers) :
    ∃ r, Returns (fun n => foreachUntil M n σ i s c) r ∧
      Sweeps M σ i (s ++ (leavesOf c.rights).flatten) (lastLen (s :: leavesOf c.rights)) r := by
  induction hls : leavesOf c.rights generalizing s c i σ with
  | nil =>
    refine sweep_leaf hwf i σ hls fun σ' i' calls => ⟨_, .whole nofun, ?_⟩
    obtain ⟨-, f', hdone⟩ | ⟨s', c', -, -, hleaves⟩ := nextForeach_leaves (f := .empty) hwf.rights
    · simp only [nextForeach, hdone, List.flatten_nil, Seq.foreach, append_nil]
      exact .pure _
    · rw [hls] at hleaves
      cases hleaves
  | cons l ls ih =>
    refine sweep_leaf hwf i σ hls fun σ' i' calls => ?_
    obtain ⟨hnil, -⟩ | ⟨s', c', hmore, hwf', hleaves⟩ := nextForeach_leaves (f := .empty) hwf.rights
    · rw [hls] at hnil
      cases hnil
    · rw [hls] at hleaves
      obtain ⟨rfl, rfl⟩ := List.cons.inj hleaves
      obtain ⟨⟨calls', p'⟩, hret, hsw⟩ := ih hwf' i' σ' rfl
      refine ⟨_, hsw, ?_⟩
      simp only [nextForeach, hmore]
      exact hret.bind (.pure _)

/-! ## Tasks -/

/-- Right if the task is on time; else an index comes twice. -/
structure Outcome (σ : Schedule) (i : Int) (xs : List α) (t : Nat) (log : List (Int × α)) : Prop where
  right : OnTime σ xs.length t → log.Perm (Seq.foreach i xs)
  twice : ¬ OnTime σ xs.length t → ¬ (log.map Prod.fst).Nodup
  first : xs ≠ [] → i ∈ log.map Prod.fst

section
variable {σ : Schedule} {n k t : Nat} (hno : ∀ j < k, σ.here j = false) (hyes : σ.here k = true)
include hno hyes

theorem onTime_last (h1 : 1 ≤ t) : OnTime σ (k + 1) t ↔ t = 1 := by
  refine ⟨fun h => ?_, fun h => h ▸ .last hno hyes⟩
  cases h with
  | whole h =>
    rw [h k (by omega)] at hyes
    cases hyes
  | last => rfl
  | split h2 hzero =>
    rw [hno 0 (by omega)] at hzero
    cases hzero

/-- With two elements left or more the interruption is to come first. -/
theorem onTime_more (h2 : k + 2 ≤ n) : OnTime σ n t ↔
    k = 0 ∧ OnTime σ.fst (n / 2) 1 ∧ OnTime σ.snd (n - n / 2) (min t (n - n / 2)) := by
  refine ⟨fun h => ?_, fun ⟨h0, hfst, hsnd⟩ => .split (by omega) (h0 ▸ hyes) hfst hsnd⟩
  cases h with
  | whole h | last h =>
    rw [h k (by omega)] at hyes
    cases hyes
  | split _ hzero hfst hsnd =>
    refine ⟨?_, hfst, hsnd⟩
    by_contra h0
    rw [hno 0 (by omega)] at hzero
    cases hzero

end

theorem outcome_last {σ : Schedule} {i : Int} {ps : List α} {x : α} {t : Nat} (hno : ∀ j < ps.length, σ.here j = false)
    (hyes : σ.here ps.length = true) (h1 : 1 ≤ t) (ht : t ≤ ps.length + 1) :
    Outcome σ i (ps ++ [x]) t (Seq.foreach i ps ++ [(i + ((ps ++ [x]).length - t : Int), x)]) := by
  have hlen : (ps ++ [x]).length = ps.length + 1 := length_append
  have hiff := onTime_last hno hyes h1
  rw [← hlen] at hiff
  refine ⟨fun h => ?_, fun h hnodup => ?_, fun _ => ?_⟩
  · rw [hiff.mp h, foreach_append, hlen]
    have hix : i + (((ps.length + 1 : Nat) : Int) - (1 : Nat)) = i + ps.length := by omega
    rw [hix]
    exact .refl _
  · rw [map_append, nodup_append] at hnodup
    refine hnodup.2.2 _ (mem_foreach.mpr ?_) _ (List.mem_singleton_self _) rfl
    have hne : t ≠ 1 := fun h1 => h (hiff.mpr h1)
    show i ≤ i + _ ∧ i + (_ : Int) < _
    omega
  · rw [map_append, mem_append, mem_foreach]
    by_cases hps : ps.length = 0
    · refine .inr (List.mem_singleton.mpr ?_)
      show i = i + (_ : Int)
      omega
    · exact .inl (by omega)

/-- The halves of an interrupted task, the first of which is given the task's index. -/
theorem outcome_more {σ : Schedule} {i : Int} {ps xs1 xs2 : List α} {t : Nat} {log1 log2 : List (Int × α)}
    (hno : ∀ j < ps.length, σ.here j = false) (hyes : σ.here ps.length = true)
    (hlen1 : xs1.length = (xs1 ++ xs2).length / 2) (h2 : 2 ≤ (xs1 ++ xs2).length)
    (h1 : Outcome σ.fst i xs1 1 log1) (hlog2 : Outcome σ.snd (i + xs1.length) xs2 (min (min t (xs1 ++ xs2).length) xs2.length) log2) :
    Outcome σ i (ps ++ (xs1 ++ xs2)) t (Seq.foreach i ps ++ log1 ++ log2) := by
  have hlen : (ps ++ (xs1 ++ xs2)).length = ps.length + (xs1 ++ xs2).length := length_append
  have happ : (xs1 ++ xs2).length = xs1.length + xs2.length := length_append
  have hiff := onTime_more (t := t) hno hyes (show ps.length + 2 ≤ (ps ++ (xs1 ++ xs2)).length by omega)
  have hfirst := h1.first (List.ne_nil_of_length_pos (by omega))
  have hhalf : ps.length = 0 → (ps ++ (xs1 ++ xs2)).length / 2 = xs1.length ∧
      (ps ++ (xs1 ++ xs2)).length - xs1.length = xs2.length := by omega
  have hmin : min (min t (xs1 ++ xs2).length) xs2.length = min t xs2.length := by omega
  rw [hmin] at hlog2
  refine ⟨fun h => ?_, fun h hnodup => ?_, fun _ => ?_⟩
  · obtain ⟨h0, hfst, hsnd⟩ := hiff.mp h
    obtain ⟨hh1, hh2⟩ := hhalf h0
    rw [hh1] at hfst
    rw [hh1, hh2] at hsnd
    obtain rfl := List.length_eq_zero_iff.mp h0
    rw [List.nil_append, foreach_append]
    exact (h1.right hfst).append (hlog2.right hsnd)
  · rw [map_append, map_append, nodup_append, nodup_append] at hnodup
    obtain ⟨⟨-, hnodup1, hdisj⟩, hnodup2, -⟩ := hnodup
    by_cases h0 : ps.length = 0
    · obtain ⟨hh1, hh2⟩ := hhalf h0
      rw [hh1, hh2] at hiff
      by_cases hfst : OnTime σ.fst xs1.length 1
      · exact hlog2.twice (fun hsnd => h (hiff.mpr ⟨h0, hfst, hsnd⟩)) hnodup2
      · exact h1.twice hfst hnodup1
    · exact hdisj i (mem_foreach.mpr (by omega)) i hfirst rfl
  · rw [map_append, map_append, mem_append, mem_append]
    exact .inl (.inr hfirst)

theorem start_leaves {rp : Rope α} (h : rp.WF M) : ∃ s, ∃ c : ForeachCtx α, start M rp = .ok (.leaf s, c) ∧
    WFCursor M (.leaf s) c ∧ s :: leavesOf c.rights = rp.leaves := by
  obtain ⟨s, c, hleft, hwf, -⟩ := leftmostLeaf_wf (c := (.top : ForeachCtx α)) (wfCursor_cons h nofun)
  have hleaves := leftmostLeaf_leaves rp (.top : ForeachCtx α)
  rw [hleft] at hleaves
  refine ⟨s, c, ?_, hwf, hleaves.trans (append_nil _)⟩
  have hs : leaf M s = .ok (.leaf s) := leaf_ok hwf.focus
  simp only [start, hleft, hs, ok_bind]
  rfl

theorem foreachTask_outcome {rp : Rope α} (h : rp.WF M) (i : Int) (σ : Schedule) :
    ∃ log, Returns (fun n => do foreachTask M n σ i (← start M rp)) log ∧
      Outcome σ i rp.toList (lastLen rp.leaves) log := by
  induction hk : rp.toList.length using Nat.strong_induction_on generalizing rp i σ with
  | _ k ih =>
    obtain ⟨s, c, hstart, hwf, hleaves⟩ := start_leaves h
    have helems : s ++ (leavesOf c.rights).flatten = rp.toList := by
      rw [← flatten_leaves, ← hleaves]
      rfl
    obtain ⟨⟨calls, p⟩, hret, hsw⟩ := foreachUntil_sweeps hwf i σ.here
    rw [helems, hleaves] at hsw
    simp only [hstart, ok_bind]
    cases hsw with
    | whole hno =>
      refine ⟨Seq.foreach i rp.toList, .succ ?_, fun _ => .refl _, fun hlate => absurd (.whole hno) hlate, fun hne => ?_⟩
      · simp only [foreachTask, leftmostLeaf]
        exact hret.bind (.pure _)
      · exact mem_foreach.mpr ⟨Int.le_refl i, by have := List.length_pos_iff.mpr hne; omega⟩
    | last hxs hno hyes h1 =>
      rename_i ps x
      have ht := lastLen_le rp.leaves
      rw [flatten_leaves, hxs, length_append, List.length_singleton] at ht
      have hout := outcome_last (i := i) (x := x) hno hyes h1 ht
      rw [hxs] at hret ⊢
      refine ⟨_, .succ ?_, hout⟩
      simp only [foreachTask, leftmostLeaf]
      exact hret.bind (.pure _)
    | more hxs h2 hno hyes hwf' hus hlast =>
      rename_i ps us f c'
      have hrem : numUnprocessed Rope.length Rope.length f c' = us.length := by
        rw [numUnprocessed_remaining, ← length_elements hwf', hus]
      obtain ⟨rp1, rp2, reb, hsplit, hwf1, hwf2, hlen1, hlen2, happ, -⟩ := splitAt_root hwf'
        (show 1 ≤ numUnprocessed Rope.length Rope.length f c' / 2 by omega) (by omega)
      obtain ⟨hlast1, hlast2⟩ := splitAt_lastLen hwf' (by omega) (by rw [← numUnprocessed_remaining Rope.length]; omega) hsplit
      rw [hwf1.length_eq] at hlen1
      rw [hus] at happ
      have hlenus : rp1.toList.length + rp2.toList.length = us.length := by rw [← happ, length_append]
      have hlenxs : rp.toList.length = ps.length + us.length := by rw [hxs, length_append]
      obtain ⟨log1, hret1, hout1⟩ := ih _ (by omega) hwf1 i σ.fst rfl
      obtain ⟨log2, hret2, hout2⟩ := ih _ (by omega) hwf2 (i + rp1.length) σ.snd rfl
      rw [hlast1] at hout1
      rw [hlast2, hlast, hwf1.length_eq, ← happ] at hout2
      have hout := outcome_more hno hyes (by rw [happ]; omega) (by rw [happ]; exact h2) hout1 hout2
      rw [happ, ← hxs] at hout
      refine ⟨_, .succ ?_, hout⟩
      simp only [foreachTask, leftmostLeaf]
      refine hret.bind ?_
      obtain ⟨s1, c1, hstart1, -⟩ := start_leaves hwf1
      obtain ⟨s2, c2, hstart2, -⟩ := start_leaves hwf2
      simp only [hstart1, ok_bind] at hret1
      simp only [hstart2, ok_bind] at hret2
      simp only [hsplit, hstart1, hstart2, ok_bind]
      exact hret1.bind (hret2.bind (.pure _))

theorem foreach_iff {rp : Rope α} (h : rp.WF M) (PPT : Int) (σ : Schedule) :
    (∃ log, Returns (fun n => foreachLTS M PPT n σ rp) log ∧ log.Perm (Seq.foreach 0 rp.toList)) ↔
      PPT = 1 ∧ OnTime σ rp.toList.length (lastLen rp.leaves) := by
  obtain ⟨log, hret, hout⟩ := foreachTask_outcome h 0 σ
  constructor
  · rintro ⟨log', hret', hperm⟩
    by_cases hPPT : PPT = 1
    · refine ⟨hPPT, ?_⟩
      by_contra hlate
      simp only [foreachLTS, if_neg (not_not.mpr hPPT)] at hret'
      rw [hret'.unique hret] at hperm
      exact hout.twice hlate ((hperm.map Prod.fst).nodup_iff.mpr (nodup_foreach 0 _))
    · obtain ⟨N, hret'⟩ := hret'
      have hok : foreachLTS M PPT N σ rp = .ok log' := hret' N (Nat.le_refl N)
      rw [foreachLTS, if_pos hPPT] at hok
      cases hok
  · rintro ⟨rfl, hon⟩
    exact ⟨log, hret, hout.right hon⟩

/-- Two leaves, and an interruption before the first element. -/
theorem foreach_iff_pair :
    (∃ log, Returns (fun n => foreachLTS 2 1 n (fun path n => path = [] ∧ n = 0) (nccat2 (.leaf [5, 6]) (.leaf [7]))) log ∧
      log.Perm [(0, 5), (1, 6), (2, 7)]) ↔
    (1 : Int) = 1 ∧ OnTime (fun path n => path = [] ∧ n = 0) 3 1 :=
  @foreach_iff Nat 2 (nccat2 (.leaf [5, 6]) (.leaf [7])) (by simp [nccat2, Rope.WF]) 1 _

/-- The second of two elements in one leaf is given the index of the first. -/
theorem foreach_twice : foreachLTS 2 1 3 (fun _ n => n = 1) (.leaf [5, 6]) = .ok [(0, 5), (0, 6)] := by
  decide

end Manticore.Parray
