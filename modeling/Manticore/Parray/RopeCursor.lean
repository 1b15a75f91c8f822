/-
  Manticore.Parray.RopeCursor — cursors whose unfinished pieces are ropes: what `leftmostLeaf`, `start`, `cursorAtIx`
  and `encodeRope` do to the work that is left, for any work that follows the concatenation of ropes (`RopeWork`).

  `splitRopes` and `joinRopes` are the split and the join of `mapLTS` and of `upsweepLTS`; `lazySplit_ropes` is what
  is left to prove of such an operation, the treatment of a leaf.
-/

import Manticore.Parray.CursorProofs
import Manticore.Parray.LazySplit

namespace Manticore.Parray

open Fuel (Returns ok_bind of_bind_ok)
open Pieces
open List (mem_cons_self mem_cons map_cons sum_cons length_append append_assoc cons_ne_nil)

variable {σ α β : Type} {M : Int} {w : Work σ (Rope α) β} {Q : β → Prop} {s : σ}

/-- At half of the elements that are left. -/
def splitRopes (lib : Lib) (M : Int) (lengthL : β → Int) (cur : Rope α × GenCtx (Rope α) β) :
    Except Exn ((Rope α × GenCtx (Rope α) β) × (Rope α × GenCtx (Rope α) β) × Rebuilder β) := do
  let mid := numUnprocessed lengthL Rope.length cur.1 cur.2 / 2
  let (rp1, rp2, reb) ← splitAt lib Rope.length encodeRope (cursorAtIx M) unzipCursor cur mid
  return (← start M rp1, ← start M rp2, reb)

def joinRopes (lib : Lib) (decode : β → Nat → Except Exn (List β)) (fin : β × GenCtx β β → β) (rp1 rp2 : β)
    (reb : Rebuilder β) : Except Exn β := do
  return fin (← join lib decode fin zipCursor rp1 rp2 reb)

/-- A concatenation is done by doing its parts, and a leaf may be. -/
structure RopeWork (w : Work σ (Rope α) β) : Prop where
  cat : ∀ s len d l r bl br, w.done s l bl → w.done (w.adv s l) r br → w.done s (.cat len d l r) (w.put bl br)
  adv_cat : ∀ s len d l r, w.adv s (.cat len d l r) = w.adv (w.adv s l) r
  leaf : ∀ s xs ys bl br, w.done s (.leaf xs) bl → w.done (w.adv s (.leaf xs)) (.leaf ys) br →
    w.done s (.leaf (xs ++ ys)) (w.put bl br)
  adv_leaf : ∀ s xs ys, w.adv s (.leaf (xs ++ ys)) = w.adv (w.adv s (.leaf xs)) (.leaf ys)

/-- The ropes of a cursor are well-formed. -/
def WFCursor {δ : Type} (M : Int) (f : Rope α) (c : GenCtx (Rope α) δ) : Prop := ∀ x ∈ f :: c.rights, x.WF M

/-- The leaves right of the cursor. -/
def unvisited {δ : Type} (c : GenCtx (Rope α) δ) : Nat := (c.rights.map fun rp => rp.leaves.length).sum

/-- The elements from the cursor on. -/
def remaining {δ : Type} (f : Rope α) (c : GenCtx (Rope α) δ) : Int := ((f :: c.rights).map Rope.length).sum

def elements {δ : Type} (f : Rope α) (c : GenCtx (Rope α) δ) : List α := f.toList ++ (c.rights.map Rope.toList).flatten

section
variable {δ : Type} {f : Rope α} {c : GenCtx (Rope α) δ}

theorem WFCursor.focus (h : WFCursor M f c) : f.WF M := h f mem_cons_self

theorem WFCursor.rights (h : WFCursor M f c) : ∀ x ∈ c.rights, x.WF M := fun x hx => h x (List.mem_cons_of_mem _ hx)

theorem wfCursor_cons (hf : f.WF M) (hc : ∀ x ∈ c.rights, x.WF M) : WFCursor M f c := by
  intro x hx
  rcases mem_cons.mp hx with rfl | hx
  · exact hf
  · exact hc x hx

theorem numUnprocessed_remaining (lengthL : δ → Int) : numUnprocessed lengthL Rope.length f c = remaining f c :=
  numUnprocessed_eq _ _ _ _

theorem remaining_eq (f : Rope α) (c : GenCtx (Rope α) δ) : remaining f c = f.length + (c.rights.map Rope.length).sum := by
  rw [remaining, map_cons, sum_cons]

theorem length_elements (h : WFCursor M f c) : ((elements f c).length : Int) = remaining f c := by
  have hflat : ∀ {xs : List (Rope α)}, (∀ x ∈ xs, x.WF M) →
      ((xs.map Rope.toList).flatten.length : Int) = (xs.map Rope.length).sum := by
    intro xs hxs
    induction xs with
    | nil => rfl
    | cons x xs ih =>
      obtain ⟨hx, hxs'⟩ := List.forall_mem_cons.mp hxs
      rw [map_cons, List.flatten_cons, length_append, map_cons, sum_cons, ← ih hxs', hx.length_eq]
      exact Int.natCast_add _ _
  rw [elements, length_append, Int.natCast_add, hflat h.rights, remaining_eq, h.focus.length_eq]

end

variable {f : Rope α} {c : GenCtx (Rope α) β}

/-- Going down to the leftmost leaf. -/
theorem leftmostLeaf_wf {δ : Type} {c : GenCtx (Rope α) δ} (hwf : WFCursor M f c) :
    ∃ x c', leftmostLeaf f c = (x, c') ∧ WFCursor M (.leaf x) c' ∧ unvisited c' + 1 = f.leaves.length + unvisited c
      ∧ remaining (.leaf x) c' = remaining f c ∧ elements (.leaf x) c' = elements f c := by
  induction f generalizing c with
  | leaf x => exact ⟨x, c, rfl, hwf, Nat.add_comm _ _, rfl, rfl⟩
  | cat len d l r ihl ihr =>
    obtain ⟨hlen, -, hl, hr⟩ := hwf.focus
    have hright : ∀ x ∈ (GenCtx.left c r).rights, x.WF M := by
      intro x hx
      rcases mem_cons.mp hx with rfl | hx
      · exact hr
      · exact hwf.rights x hx
    obtain ⟨x, c', hleft, hwf', hun, hrem, helem⟩ := ihl (c := .left c r) (wfCursor_cons hl hright)
    refine ⟨x, c', hleft, hwf', ?_, ?_, ?_⟩
    · rw [hun, Rope.leaves, length_append, Nat.add_assoc]
      rfl
    · rw [hrem, remaining_eq, remaining_eq, Rope.length, hlen, GenCtx.rights, map_cons, sum_cons]
      exact (Int.add_assoc _ _ _).symm
    · rw [helem, elements, elements, Rope.toList, append_assoc]
      rfl

theorem leftmostLeaf_open (hw : RopeWork w) (h : Good w Q s f c) :
    Good w Q s (.leaf (leftmostLeaf f c).1) (leftmostLeaf f c).2 := by
  induction f generalizing c with
  | leaf x => exact h
  | cat len d l r ihl ihr => exact ihl (h.left (hw.cat s len d l r) (hw.adv_cat s len d l r))

theorem leftmostLeaf_good (hw : RopeWork w) (h : Good w Q s f c) (hwf : WFCursor M f c) :
    ∃ x c', leftmostLeaf f c = (x, c') ∧ Good w Q s (.leaf x) c' ∧ WFCursor M (.leaf x) c' ∧ unvisited c' + 1 =
      f.leaves.length + unvisited c ∧ remaining (.leaf x) c' = remaining f c := by
  obtain ⟨x, c', hleft, hwf', hun, hrem, -⟩ := leftmostLeaf_wf hwf
  have hgood := leftmostLeaf_open hw h
  rw [hleft] at hgood
  exact ⟨x, c', hleft, hgood, hwf', hun, hrem⟩

theorem start_good (hw : RopeWork w) {rp : Rope α} (hwf : rp.WF M) (h : ∀ b, w.done s rp b → Q b) :
    ∃ x c, start M rp = .ok (.leaf x, c) ∧ Good w Q s (.leaf x) c ∧ WFCursor M (.leaf x) c ∧
      remaining (.leaf x) c = rp.length := by
  have hwf0 : WFCursor M rp (GenCtx.top : GenCtx (Rope α) β) := wfCursor_cons hwf nofun
  obtain ⟨x, c, hleft, hgood, hwf', -, hrem⟩ := leftmostLeaf_good hw (good_top h) hwf0
  refine ⟨x, c, ?_, hgood, hwf', ?_⟩
  · have hx : leaf M x = .ok (.leaf x) := leaf_ok hwf'.focus
    simp only [start, hleft, hx, ok_bind]
    rfl
  · rw [hrem, remaining_eq]
    exact Int.add_zero _

/-- On to the next leaf, when a piece is finished. -/
theorem next_leaf (hw : RopeWork w) {b : β} (h : Ready w Q c s b) (hwf : ∀ x ∈ c.rights, x.WF M) :
    (∃ b', next leftmostLeaf w.put b c = .done b' ∧ Q b') ∨ ∃ x c', next leftmostLeaf w.put b c = .more (x, c') ∧
      Good w Q s (.leaf x) c' ∧ WFCursor M (.leaf x) c' ∧ unvisited c' < unvisited c ∧ remaining (.leaf x) c' =
      (c.rights.map Rope.length).sum := by
  rcases next_good leftmostLeaf h with hdone | ⟨r, c', hmore, hgood, hrights⟩
  · exact .inl hdone
  · have hwf' : WFCursor M r c' := by
      intro x hx
      exact hwf x (hrights ▸ hx)
    obtain ⟨x, c'', hleft, hgood', hwf'', hun, hrem⟩ := leftmostLeaf_good hw hgood hwf'
    grind [unvisited, remaining]

/-! ## Navigation -/

theorem seqSplitAtIx3_ok {s : List α} {i : Int} (h0 : 0 ≤ i) (hi : i < s.length) :
    ∃ l m r, seqSplitAtIx3 s i = .ok (l, m, r) ∧ s = l ++ m :: r ∧ (l.length : Int) = i := by
  have hlt : i.toNat < s.length := by omega
  have hnat : (i + 1).toNat = i.toNat + 1 := by omega
  have htake : s.take (i.toNat + 1) = s.take i.toNat ++ [s[i.toNat]] := (List.take_append_getElem hlt).symm
  have hlen : ((s.take i.toNat).length : Int) = i := by
    rw [List.length_take]
    omega
  refine ⟨s.take i.toNat, s[i.toNat], s.drop (i.toNat + 1), ?_, ?_, hlen⟩
  · have hlast := seqLast_concat (s.take i.toNat) s[i.toNat]
    have hinit : Seq.take (s.take i.toNat ++ [s[i.toNat]]) ((s.take i.toNat ++ [s[i.toNat]]).length - 1) = s.take i.toNat := by
      grind [length_append, List.length_singleton, Seq.take, List.take_left]
    simp only [seqSplitAtIx3, seqSplitAtIx2, Seq.take, Seq.drop, hnat, htake, hlast, ok_bind] at hinit ⊢
    rw [hinit]
    rfl
  · rw [List.getElem_cons_drop, List.take_append_drop]

theorem nav_ok (hw : RopeWork w) {m : Rope α} {ls rs : List (Rope α)} {ds : List Dir} {i : Int}
    (hcov : Covers w m f (ls, rs, ds)) (hf : f.WF M) (hls : ∀ x ∈ ls, x.WF M) (hrs : ∀ x ∈ rs, x.WF M) (h0 : 0 ≤ i)
    (hi : i < f.length) :
    ∃ mn mls mrs mds, nav M f (ls, rs, ds) i = .ok (mn, mls, mrs, mds) ∧ Covers w m mn (mls, mrs, mds) ∧
      (∀ x ∈ mls, x.WF M) ∧ mn.WF M ∧ (∀ x ∈ mrs, x.WF M) ∧ (mls.map Rope.length).sum + mn.length =
      (ls.map Rope.length).sum + (i + 1) ∧ (mrs.map Rope.length).sum = f.length - (i + 1) +
        (rs.map Rope.length).sum := by
  induction f generalizing ls rs ds i with
  | leaf s =>
    have hs : (s.length : Int) ≤ M := hf
    have hlen : (Rope.leaf s).length = s.length := rfl
    unfold nav
    by_cases hone : s.length = 1
    · rw [if_pos hone, leaf_ok hs]
      refine ⟨.leaf s, ls, rs, ds, rfl, hcov, hls, hf, hrs, ?_, ?_⟩
      · omega
      · omega
    · rw [if_neg hone]
      obtain ⟨l, x, r, hsplit, rfl, hl⟩ := seqSplitAtIx3_ok h0 hi
      rw [length_append, List.length_cons] at hs hlen
      have hwl : (Rope.leaf l).WF M := by show (l.length : Int) ≤ M; omega
      have hwr : (Rope.leaf r).WF M := by show (r.length : Int) ≤ M; omega
      have hwx : (Rope.leaf [x]).WF M := by show (([x] : List α).length : Int) ≤ M; rw [List.length_singleton]; omega
      have hcov' := (hcov.left (l := .leaf (l ++ [x])) (r := .leaf r)
        (fun s bl br h1 h2 => by
          have h := hw.leaf s (l ++ [x]) r bl br h1 h2
          rwa [append_assoc] at h)
        (fun s => by rw [← hw.adv_leaf, append_assoc]; rfl)).right (l := .leaf l) (r := .leaf [x])
        (fun s => hw.leaf s l [x]) (fun s => hw.adv_leaf s l [x])
      refine ⟨.leaf [x], .leaf l :: ls, .leaf r :: rs, .right :: .left :: ds, ?_, hcov', ?_, hwx, ?_, ?_, ?_⟩
      · simp only [hsplit, ok_bind, leaf_ok hwl, leaf_ok hwr, leaf_ok hwx]
        rfl
      · simp_all
      · simp_all
      · rw [map_cons, sum_cons]
        show (l.length : Int) + _ + 1 = _
        omega
      · rw [map_cons, sum_cons, hlen]
        show (r.length : Int) + _ = _
        omega
  | cat len d l r ihl ihr =>
    obtain ⟨rfl, -, hl, hr⟩ := hf
    have hlen : (Rope.cat (l.length + r.length) d l r).length = l.length + r.length := rfl
    have hput : ∀ s bl br, w.done s l bl → w.done (w.adv s l) r br →
        w.done s (.cat (l.length + r.length) d l r) (w.put bl br) := fun s => hw.cat s _ d l r
    have hadv := fun s => hw.adv_cat s (l.length + r.length) d l r
    unfold nav
    by_cases hleft : i < l.length
    · rw [if_pos hleft]
      obtain ⟨mn, mls, mrs, mds, hnav, hcov', h1, h2, h3, hsum1, hsum2⟩ := ihl (hcov.left hput hadv) hl hls (by
        intro y hy
        rcases mem_cons.mp hy with rfl | hy
        · exact hr
        · exact hrs y hy) h0 hleft
      refine ⟨mn, mls, mrs, mds, hnav, hcov', h1, h2, h3, hsum1, ?_⟩
      rw [map_cons, sum_cons] at hsum2
      omega
    · rw [if_neg hleft]
      obtain ⟨mn, mls, mrs, mds, hnav, hcov', h1, h2, h3, hsum1, hsum2⟩ := ihr (i := i - l.length)
        (hcov.right hput hadv) hr (by
          intro y hy
          rcases mem_cons.mp hy with rfl | hy
          · exact hl
          · exact hls y hy) hrs (by omega) (by omega)
      refine ⟨mn, mls, mrs, mds, hnav, hcov', h1, h2, h3, ?_, by omega⟩
      rw [map_cons, sum_cons] at hsum1
      omega

theorem cursorAtIx_navigates (hw : RopeWork w) : Navigates w Rope.length (Rope.WF M) (cursorAtIx M) := by
  intro m i hm h0 hi
  have hin : m.inBounds i = true := by
    rw [Rope.inBounds, Bool.and_eq_true, decide_eq_true_eq, decide_eq_true_eq]
    exact ⟨hi, h0⟩
  rw [cursorAtIx, if_pos hin]
  obtain ⟨mn, mls, mrs, mds, hnav, hcov, h1, h2, h3, hsum1, hsum2⟩ :=
    nav_ok hw (covers_self m) hm (by rintro _ ⟨⟩) (by rintro _ ⟨⟩) h0 hi
  refine ⟨mn, mls, mrs, mds, hnav, hcov, h1, h2, h3, ?_, ?_⟩
  · rw [hsum1]
    exact Int.zero_add _
  · rw [hsum2]
    exact Int.add_zero _

/-! ## Encoding -/

section
variable {γ : Type} {v : Work σ γ β}

theorem encode_ne_nil (jn : γ → γ → γ) {xs : List γ} (hne : xs ≠ []) : ∃ e, encode jn xs = .ok e := by
  induction xs with
  | nil => exact absurd rfl hne
  | cons x xs ih =>
    cases xs with
    | nil => exact ⟨x, rfl⟩
    | cons y ys =>
      obtain ⟨e, he⟩ := ih (cons_ne_nil _ _)
      simp [encode, he]

/-- The results of the pieces of an encoded list, decoded. -/
theorem decode_encode {jn : γ → γ → γ} {decode : β → Nat → Except Exn (List β)}
    (hjn : ∀ s a a' b, v.done s (jn a a') b → ∃ b1 b2, b = v.put b1 b2 ∧ v.done s a b1 ∧ v.done (v.adv s a) a' b2)
    (hone : ∀ b, decode b 1 = .ok [b])
    (hput : ∀ b1 b2 n, decode (v.put b1 b2) (n + 2) = (do return b1 :: (← decode b2 (n + 1))))
    {xs : List γ} {e : γ} (he : encode jn xs = .ok e) {b : β} (hb : v.done s e b) :
    ∃ bs, decode b xs.length = .ok bs ∧ v.DoneAll s xs bs := by
  induction xs generalizing s e b with
  | nil => cases he
  | cons x xs ih =>
    cases xs with
    | nil =>
      cases he
      exact ⟨[b], hone b, hb, trivial⟩
    | cons y ys =>
      obtain ⟨e', he'⟩ := encode_ne_nil jn (cons_ne_nil y ys)
      have hunfold : encode jn (x :: y :: ys) = (do return jn x (← encode jn (y :: ys))) := rfl
      rw [hunfold, he'] at he
      cases he
      obtain ⟨b1, b2, rfl, h1, h2⟩ := hjn s x e' b hb
      obtain ⟨bs, hdec, hbs⟩ := ih he' h2
      refine ⟨b1 :: bs, ?_, h1, hbs⟩
      show decode (v.put b1 b2) (ys.length + 2) = _
      rw [hput]
      rw [List.length_cons] at hdec
      rw [hdec]
      rfl

end

variable {xs : List (Rope α)} {e : Rope α}

theorem encode_wf (he : encode nccat2 xs = .ok e) (h : ∀ x ∈ xs, x.WF M) :
    e.WF M ∧ e.length = (xs.map Rope.length).sum := by
  induction xs generalizing e with
  | nil => cases he
  | cons x xs ih =>
    cases xs with
    | nil =>
      cases he
      exact ⟨h x mem_cons_self, (Int.add_zero _).symm⟩
    | cons y ys =>
      obtain ⟨e', he'⟩ := encode_ne_nil nccat2 (cons_ne_nil y ys)
      have hunfold : encode nccat2 (x :: y :: ys) = (do return nccat2 x (← encode nccat2 (y :: ys))) := rfl
      rw [hunfold, he'] at he
      cases he
      obtain ⟨hwf, hlen⟩ := ih he' fun z hz => h z (List.mem_cons_of_mem _ hz)
      refine ⟨wf_nccat2 (h x mem_cons_self) hwf, ?_⟩
      show x.length + e'.length = x.length + ((y :: ys).map Rope.length).sum
      rw [hlen]

/-- The state after the pieces is that after the rope they are encoded as. -/
theorem encode_adv (hw : RopeWork w) (he : encode nccat2 xs = .ok e) : w.advAll s xs = w.adv s e := by
  induction xs generalizing s e with
  | nil => cases he
  | cons x xs ih =>
    cases xs with
    | nil =>
      cases he
      rfl
    | cons y ys =>
      obtain ⟨e', he', he⟩ := of_bind_ok (f := fun e' => .ok (nccat2 x e')) he
      cases he
      rw [Work.advAll_cons, ih he']
      exact (hw.adv_cat s _ _ x e').symm

theorem encodeRope_ok (hne : xs ≠ []) : ∃ e, encodeRope xs = .ok (e, xs.length) := by
  obtain ⟨e, he⟩ := encode_ne_nil nccat2 hne
  exact ⟨e, by rw [encodeRope, he]; rfl⟩

theorem encodeRope_inv {n : Nat} (h : encodeRope xs = .ok (e, n)) : encode nccat2 xs = .ok e ∧ n = xs.length := by
  unfold encodeRope at h
  cases he : encode nccat2 xs with
  | error err =>
    rw [he] at h
    cases h
  | ok e' =>
    rw [he] at h
    cases h
    exact ⟨rfl, rfl⟩

theorem decodeRope_nccat2 (b1 b2 : Rope α) (n : Nat) :
    decodeRope (nccat2 b1 b2) (n + 2) = (do return b1 :: (← decodeRope b2 (n + 1))) := rfl

theorem decodeRope_one (b : Rope α) : decodeRope b 1 = .ok [b] := by
  cases b <;> rfl

theorem zips_zipCursor {fin : β × GenCtx β β → β} (hfin : ∀ cur, fin cur = finish w.put cur.1 cur.2) :
    Zips w zipCursor fin := by
  intro b ls rs ds c hc
  refine ⟨(b, c), ?_, hfin _⟩
  simp only [zipCursor, hc, ok_bind]
  rfl

/-- A rope cursor split in two, and the results joined. -/
theorem splitAt_ropes (lib : Lib) {decode : β → Nat → Except Exn (List β)} (fin : β × GenCtx β β → β) (hw : RopeWork w)
    (hinv : ∀ s len d l r b, w.done s (.cat len d l r) b →
      ∃ bl br, b = w.put bl br ∧ w.done s l bl ∧ w.done (w.adv s l) r br)
    (hfin : ∀ cur, fin cur = finish w.put cur.1 cur.2) (hone : ∀ b, decode b 1 = .ok [b])
    (hput : ∀ b1 b2 n, decode (w.put b1 b2) (n + 2) = (do return b1 :: (← decode b2 (n + 1))))
    {f : Rope α} {c : GenCtx (Rope α) β} (hgood : Good w Q s f c) (hwf : WFCursor M f c) {n : Int} (h1 : 1 ≤ n)
    (hn : n < remaining f c)
    (hord : lib = .rope ∨ Exchanges w Rope.length (Rope.WF M) (cursorAtIx M) (f :: c.rights) n) :
    ∃ e1 e2 reb, splitAt lib Rope.length encodeRope (cursorAtIx M) unzipCursor (f, c) n = .ok (e1, e2, reb) ∧
      e1.WF M ∧ e2.WF M ∧ e1.length = n ∧ e2.length = remaining f c - n ∧
      (lib = .rope → w.adv (w.adv s e1) e2 = w.advAll s (f :: c.rights)) ∧
      ∀ b1 b2, w.done s e1 b1 → w.done (w.adv s e1) e2 b2 → ∃ b, joinRopes lib decode fin b1 b2 reb = .ok b ∧ Q b := by
  obtain ⟨xs1, xs2, e1, e2, reb, hsplit, he1, he2, hxs1, hxs2, -, -, hsum1, hsum2, hstate, hjoin⟩ :=
    splitAt_join lib decode unzipCursor (cursorAtIx_navigates hw) (fun xs hne => encodeRope_ok hne)
      (zips_zipCursor hfin) (f, c) (f := f) (c := c) rfl hgood hwf h1 hn hord
  obtain ⟨henc1, hl1⟩ := encodeRope_inv he1
  obtain ⟨henc2, hl2⟩ := encodeRope_inv he2
  obtain ⟨hwf1, hlen1⟩ := encode_wf henc1 hxs1
  obtain ⟨hwf2, hlen2⟩ := encode_wf henc2 hxs2
  rw [Work.advAll_append, encode_adv hw henc1, encode_adv hw henc2] at hstate
  refine ⟨e1, e2, reb, hsplit, hwf1, hwf2, hlen1.trans hsum1, hlen2.trans hsum2, hstate, ?_⟩
  intro b1 b2 hb1 hb2
  have hjn : ∀ s (a a' : Rope α) b, w.done s (nccat2 a a') b →
      ∃ b1 b2, b = w.put b1 b2 ∧ w.done s a b1 ∧ w.done (w.adv s a) a' b2 := fun s a a' b => hinv s _ _ a a' b
  obtain ⟨bs1, hdec1, hall1⟩ := decode_encode hjn hone hput henc1 hb1
  obtain ⟨bs2, hdec2, hall2⟩ := decode_encode hjn hone hput henc2 hb2
  rw [← hl1] at hdec1
  rw [← hl2] at hdec2
  rw [← encode_adv hw henc1] at hall2
  obtain ⟨z, hz, hQ⟩ := hjoin b1 b2 bs1 bs2 hdec1 hdec2 hall1 hall2
  refine ⟨fin z, ?_, hQ⟩
  simp only [joinRopes, hz, ok_bind]
  rfl

/-! ## A lazy operation over ropes -/

section
variable {w : Work Unit (Rope α) β} {Q : β → Prop}

/-- A well-formed cursor that makes up a whole with `Q`. -/
def RopeOpen (w : Work Unit (Rope α) β) (M : Int) (Q : β → Prop) (cur : Rope α × GenCtx (Rope α) β) : Prop :=
  Good w Q () cur.1 cur.2 ∧ WFCursor M cur.1 cur.2

/-- An interrupted one, with at most `n` elements left. -/
def RopeStopped (w : Work Unit (Rope α) β) (M : Int) (Q : β → Prop) (n : Int) (cur : Rope α × GenCtx (Rope α) β) : Prop :=
  RopeOpen w M Q cur ∧ 2 ≤ remaining cur.1 cur.2 ∧ remaining cur.1 cur.2 ≤ n

/-- A leaf is finished, or interrupted with two elements left or more. -/
def TreatsLeaf (w : Work Unit (Rope α) β) (M : Int)
    (work : Answers → Unit → List α → GenCtx (Rope α) β → Except Exn (Progress (Rope α × GenCtx (Rope α) β) (Unit × β) × Answers)) :
    Prop :=
  ∀ (Q : β → Prop) η xs c, Good w Q () (.leaf xs) c → WFCursor M (.leaf xs) c → ∃ res η', work η () xs c = .ok (res, η') ∧
    Swept (fun tb => w.done () (.leaf xs) tb.2) (RopeStopped w M Q (remaining (.leaf xs) c)) res

/-- After a part of a leaf, which is kept unless it is empty. -/
theorem more_good (hw : RopeWork w) {ps us : List α} {c : GenCtx (Rope α) β} (h : Good w Q () (.leaf (ps ++ us)) c) {bp : β}
    (hbp : w.done () (.leaf ps) bp) {len : Int} (hlen : len = 0 ↔ ps = []) :
    Good w Q () (.leaf us) (if len = 0 then c else .right bp c) := by
  by_cases hnil : ps = []
  · rw [if_pos (hlen.mpr hnil)]
    rwa [hnil] at h
  · rw [if_neg fun h0 => hnil (hlen.mp h0)]
    exact h.right (fun br hbr => hw.leaf () ps us bp br hbp hbr) (hw.adv_leaf () ps us)

theorem more_stopped (hw : RopeWork w) {ps us : List α} {c : GenCtx (Rope α) β} (h : Good w Q () (.leaf (ps ++ us)) c)
    (hwf : WFCursor M (.leaf (ps ++ us)) c) {bp : β} (hbp : w.done () (.leaf ps) bp) {len : Int} (hlen : len = 0 ↔ ps = [])
    (h2 : ¬ remaining (.leaf us) c < 2) :
    RopeStopped w M Q (remaining (.leaf (ps ++ us)) c) (.leaf us, if len = 0 then c else .right bp c) := by
  have hrights : (if len = 0 then c else .right bp c).rights = c.rights := by
    split <;> rfl
  have hrem : remaining (.leaf us) (if len = 0 then c else .right bp c) = remaining (.leaf us) c := by
    rw [remaining, hrights, remaining]
  have happ : ((ps ++ us).length : Int) = ps.length + us.length := by
    rw [length_append]
    exact Int.natCast_add _ _
  have hM : ((ps ++ us).length : Int) ≤ M := hwf.focus
  have hus : (Rope.leaf us).WF M := by
    show (us.length : Int) ≤ M
    omega
  refine ⟨⟨more_good hw h hbp hlen, wfCursor_cons hus ?_⟩, ?_, ?_⟩
  · rw [hrights]
    exact hwf.rights
  · rw [hrem]
    exact Int.not_lt.mp h2
  · rw [hrem, remaining_eq, remaining_eq]
    show (us.length : Int) + _ ≤ ((ps ++ us).length : Int) + _
    omega

variable {work : Answers → Unit → List α → GenCtx (Rope α) β → Except Exn (Progress (Rope α × GenCtx (Rope α) β) (Unit × β) × Answers)}

theorem sweep_ropes (hw : RopeWork w) (hleaf : TreatsLeaf w M work) {cur : Rope α × GenCtx (Rope α) β}
    (h : RopeOpen w M Q cur) (η : Answers) :
    ∃ res, Returns (fun n => let (s, c) := leftmostLeaf cur.1 cur.2
      sweepUntil work (next leftmostLeaf w.put) n η () s c) res ∧ Swept Q (RopeStopped w M Q (remaining cur.1 cur.2)) res := by
  obtain ⟨x, c, hleft, hgood, hwf, -, hrem⟩ := leftmostLeaf_good hw h.1 h.2
  rw [hleft]
  refine sweepUntil_returns
    (fun _ s c => (Good w Q () (.leaf s) c ∧ WFCursor M (.leaf s) c) ∧ remaining (.leaf s) c ≤ remaining cur.1 cur.2)
    (fun _ b c => (Ready w Q c () b ∧ ∀ x ∈ c.rights, x.WF M) ∧ (c.rights.map Rope.length).sum ≤ remaining cur.1 cur.2)
    unvisited ?_ ?_ ⟨⟨hgood, hwf⟩, Int.le_of_eq hrem⟩ η
  · intro η t xs c hopen
    obtain ⟨⟨hgood, hwf⟩, hle⟩ := hopen
    obtain ⟨res, η', hwork, hres⟩ := hleaf Q η xs c hgood hwf
    refine ⟨res, η', hwork, ?_⟩
    cases res with
    | done tb =>
      refine ⟨⟨hgood _ hres, hwf.rights⟩, ?_⟩
      rw [remaining_eq] at hle
      have hxs := hwf.focus.length_nonneg
      omega
    | more cur' => exact ⟨hres.1, hres.2.1, Int.le_trans hres.2.2 hle⟩
  · intro _ b c hclosed
    obtain ⟨⟨hready, hrights⟩, hle⟩ := hclosed
    rcases next_leaf hw hready hrights with hdone | ⟨x, c', hmore, hgood', hwf', hlt, hrem'⟩
    · exact .inl hdone
    · exact .inr ⟨x, c', hmore, ⟨⟨hgood', hwf'⟩, hrem' ▸ hle⟩, hlt⟩

/-- An operation over ropes that treats its leaves right ends, under every schedule, with a result that has `Q`. -/
theorem lazySplit_ropes (lib : Lib) (lengthL : β → Int) (decode : β → Nat → Except Exn (List β))
    (fin : β × GenCtx β β → β) (hw : RopeWork w) (hleaf : TreatsLeaf w M work)
    (hinv : ∀ s len d l r b, w.done s (.cat len d l r) b →
      ∃ bl br, b = w.put bl br ∧ w.done s l bl ∧ w.done (w.adv s l) r br)
    (hfin : ∀ cur, fin cur = finish w.put cur.1 cur.2) (hone : ∀ b, decode b 1 = .ok [b])
    (hput : ∀ b1 b2 n, decode (w.put b1 b2) (n + 2) = (do return b1 :: (← decode b2 (n + 1))))
    (cur : Rope α × GenCtx (Rope α) β) (h : RopeOpen w M Q cur) (η : Schedule) :
    ∃ b, Returns (fun n => lazySplit (fun n η cur => let (s, c) := leftmostLeaf cur.1 cur.2
      sweepUntil work (next leftmostLeaf w.put) n η () s c) (fun _ => splitRopes lib M lengthL)
      (joinRopes lib decode fin) n η cur) b ∧ Q b := by
  refine lazySplit_returns (fun _ => True) (RopeOpen w M) (fun Q cur => RopeOpen w M Q cur ∧ 2 ≤ remaining cur.1 cur.2)
    (fun cur => (remaining cur.1 cur.2).toNat) ?_ ?_ h η fun _ _ => trivial
  · intro Q cur η hopen
    obtain ⟨res, hret, hres⟩ := sweep_ropes hw hleaf hopen η
    refine ⟨res, hret, ?_⟩
    cases res with
    | done b => exact hres
    | more cur' =>
      obtain ⟨hopen', h2, hle⟩ := hres
      exact ⟨⟨hopen', h2⟩, by omega⟩
  · intro Q cur hopen _
    obtain ⟨f, c⟩ := cur
    obtain ⟨⟨hgood, hwf⟩, h2⟩ := hopen
    dsimp only at hgood hwf h2 ⊢
    have hmid : numUnprocessed lengthL Rope.length f c = remaining f c := numUnprocessed_remaining _
    obtain ⟨e1, e2, reb, hsplit, hwf1, hwf2, hlen1, hlen2, -, hjoin⟩ := splitAt_ropes lib fin hw hinv hfin hone hput hgood
      hwf (n := remaining f c / 2) (by omega) (by omega) (.inr (exchanges_of_still fun _ _ => rfl))
    obtain ⟨x1, c1, hstart1, hgood1, hwfc1, hrem1⟩ := start_good hw (Q := w.done () e1) (s := ()) hwf1 fun _ hb => hb
    obtain ⟨x2, c2, hstart2, hgood2, hwfc2, hrem2⟩ := start_good hw (Q := w.done () e2) (s := ()) hwf2 fun _ hb => hb
    refine ⟨(.leaf x1, c1), (.leaf x2, c2), reb, w.done () e1, w.done () e2, ?_, ⟨hgood1, hwfc1⟩, ⟨hgood2, hwfc2⟩, ?_, ?_, ?_⟩
    · refine ⟨0, fun _ _ => ?_⟩
      simp only [splitRopes, hmid, hsplit, ok_bind, hstart1, hstart2]
      rfl
    · show (remaining (.leaf x1) c1).toNat < (remaining f c).toNat
      omega
    · show (remaining (.leaf x2) c2).toNat < (remaining f c).toNat
      omega
    · exact hjoin

end

end Manticore.Parray
