/-
  Manticore.Parray.McRope — ropes that keep at every node the combination of their elements, for the two sweeps of
  `Rope.scan` (`basis/parray/rope.pml`, `int-rope.pml`), and cursors into them.

  A labelled rope whose labels are right is determined by the rope below them (`label`), and every operation on it is
  that on the rope: `nav_label`, `encode_label`, `splitAt_label`, …. So the work that a cursor into a labelled rope
  leaves is that of a cursor into a rope.
-/

import Manticore.Parray.Reduce

namespace Manticore.Parray

open Fuel (ok_bind of_bind_ok)

variable {α β : Type}

inductive MCRope (α : Type) where
  | leaf (val : α) (s : List α)
  | cat (val : α) (len depth : Int) (l r : MCRope α)
  deriving DecidableEq, Repr

def mcval : MCRope α → α
  | .leaf c _ => c
  | .cat c _ _ _ _ => c

def mclength : MCRope α → Int
  | .leaf _ s => s.length
  | .cat _ len _ _ _ => len

def mcdepth : MCRope α → Int
  | .leaf _ _ => 0
  | .cat _ _ d _ _ => d

section
variable (M : Int)

def mcleaf' (b : α) (s : List α) : Except Exn (MCRope α) :=
  if s.length > M then .error (.fail "bogus leaf size") else .ok (.leaf b s)

def mcleaf (f : α → α → α) (b : α) (s : List α) : Except Exn (MCRope α) := mcleaf' M (Seq.reduce f b s) s

def mcnccat2 (f : α → α → α) (mcrp1 mcrp2 : MCRope α) : MCRope α :=
  .cat (f (mcval mcrp1) (mcval mcrp2)) (mclength mcrp1 + mclength mcrp2) (max (mcdepth mcrp1) (mcdepth mcrp2) + 1) mcrp1 mcrp2

def mcleaves : MCRope α → List (List α)
  | .leaf _ s => [s]
  | .cat _ _ _ rp1 rp2 => mcleaves rp1 ++ mcleaves rp2

def mcToSeq (rp : MCRope α) : List α := (mcleaves rp).flatten

def mcccat2 (f : α → α → α) (mcrp1 mcrp2 : MCRope α) : Except Exn (MCRope α) :=
  if mclength mcrp1 + mclength mcrp2 ≤ M then
    mcleaf' M (f (mcval mcrp1) (mcval mcrp2)) (mcToSeq (mcnccat2 f mcrp1 mcrp2))
  else .ok (mcnccat2 f mcrp1 mcrp2)

def mcsplit2 (f : α → α → α) (b : α) : MCRope α → Except Exn (MCRope α × MCRope α)
  | .leaf _ s => do
    let (s1, s2) := Seq.split2 s
    return (← mcleaf M f b s1, ← mcleaf M f b s2)
  | .cat _ _ _ l r => .ok (l, r)

def mcInBounds (r : MCRope α) (i : Int) : Bool := i < mclength r && i ≥ 0

def leftmostMCLeaf : MCRope α → GenCtx (MCRope α) β → α × List α × GenCtx (MCRope α) β
  | .leaf cv s, c => (cv, s, c)
  | .cat _ _ _ l r, c => leftmostMCLeaf l (.left c r)

def startMC (rp : MCRope α) : Except Exn (MCRope α × GenCtx (MCRope α) β) := do
  let (cv, s, c) := leftmostMCLeaf rp .top
  return (← mcleaf' M cv s, c)

/-- The local function of `cursorAtIxMC`. -/
def navMC (f : α → α → α) (b : α) :
    MCRope α → UnzippedCtx (MCRope α) (MCRope α) → Int → Except Exn (MCRope α × UnzippedCtx (MCRope α) (MCRope α))
  | .leaf cv s, (ls, rs, ds), i =>
    if s.length = 1 then do return (← mcleaf' M cv s, (ls, rs, ds))
    else do
      let (l, m, r) ← seqSplitAtIx3 s i
      let c' := ((← mcleaf M f b l) :: ls, (← mcleaf M f b r) :: rs, .right :: .left :: ds)
      return (← mcleaf M f b [m], c')
  | .cat _ _ _ l r, (ls, rs, ds), i =>
    if i < mclength l then navMC f b l (ls, r :: rs, .left :: ds) i
    else navMC f b r (l :: ls, rs, .right :: ds) (i - mclength l)

def cursorAtIxMC (f : α → α → α) (b : α) (rp : MCRope α) (i : Int) :
    Except Exn (MCRope α × UnzippedCtx (MCRope α) (MCRope α)) :=
  if mcInBounds rp i then navMC M f b rp ([], [], []) i else .error (.fail "subscript")

def decodeMCRope : MCRope α → Nat → Except Exn (List (MCRope α))
  | rp, n =>
    if n = 1 then .ok [rp]
    else
      match rp with
      | .cat _ _ _ rp1 rp2 => do return rp1 :: (← decodeMCRope rp2 (n - 1))
      | .leaf _ _ => .error (.fail "decodeRope")

def encodeMCRope (f : α → α → α) (rps : List (MCRope α)) : Except Exn (MCRope α × Nat) := do
  return (← encode (mcnccat2 f) rps, rps.length)

end

/-! ## The rope below the labels -/

section
variable {M : Int} {f : α → α → α} {b : α}

/-- Every node labelled with the combination of its elements. -/
def label (f : α → α → α) (b : α) : Rope α → MCRope α
  | .leaf s => .leaf (s.foldl f b) s
  | .cat len d l r => .cat (f (mcval (label f b l)) (mcval (label f b r))) len d (label f b l) (label f b r)

theorem label_cat (len d : Int) (l r : Rope α) :
    label f b (.cat len d l r) = .cat (f (mcval (label f b l)) (mcval (label f b r))) len d (label f b l) (label f b r) := rfl

@[simp] theorem mclength_label (rp : Rope α) : mclength (label f b rp) = rp.length := by
  cases rp <;> rfl

@[simp] theorem mcdepth_label (rp : Rope α) : mcdepth (label f b rp) = rp.depth := by
  cases rp <;> rfl

theorem mcnccat2_label (l r : Rope α) : mcnccat2 f (label f b l) (label f b r) = label f b (nccat2 l r) := by
  rw [mcnccat2, mclength_label, mclength_label, mcdepth_label, mcdepth_label]
  rfl

theorem mcleaves_label (rp : Rope α) : mcleaves (label f b rp) = rp.leaves := by
  induction rp with
  | leaf s => rfl
  | cat len d l r ihl ihr => rw [label, mcleaves, ihl, ihr, Rope.leaves]

theorem mcToSeq_label (rp : Rope α) : mcToSeq (label f b rp) = rp.toList := by
  rw [mcToSeq, mcleaves_label]
  exact Rope.toSeq_eq rp

theorem mcval_label (hassoc : ∀ x y z, f (f x y) z = f x (f y z)) (hleft : ∀ x, f b x = x) (hright : ∀ x, f x b = x)
    (rp : Rope α) : mcval (label f b rp) = rp.toList.foldl f b := by
  induction rp with
  | leaf s => rfl
  | cat len d l r ihl ihr =>
    show f (mcval (label f b l)) (mcval (label f b r)) = (l.toList ++ r.toList).foldl f b
    rw [ihl, ihr, foldl_append_assoc hassoc hleft hright]

theorem mcleaf'_ok {s : List α} (h : (s.length : Int) ≤ M) (v : α) : mcleaf' M v s = .ok (.leaf v s) :=
  if_neg (Int.not_lt.mpr h)

/-- A new leaf combines its elements in the other order. -/
theorem mcleaf_ok (hcomm : ∀ x y, f x y = f y x) {s : List α} (h : (s.length : Int) ≤ M) :
    mcleaf M f b s = .ok (label f b (.leaf s)) := by
  have hstep : (fun a x => f x a) = f := funext fun a => funext fun x => hcomm x a
  rw [mcleaf, mcleaf'_ok h, Seq.reduce, hstep]
  rfl

/-! ## Cursors -/

/-- The unfinished pieces of a context, labelled. -/
def labelCtx {δ : Type} (f : α → α → α) (b : α) : GenCtx (Rope α) δ → GenCtx (MCRope α) δ
  | .top => .top
  | .left c r => .left (labelCtx f b c) (label f b r)
  | .right l c => .right l (labelCtx f b c)

variable {δ : Type} {rp : Rope α} {xs : List (Rope α)}

theorem rights_label (c : GenCtx (Rope α) δ) : (labelCtx f b c).rights = c.rights.map (label f b) := by
  induction c with
  | top => rfl
  | left c r ih => exact congrArg (label f b r :: ·) ih
  | right l c ih => exact ih

theorem numUnprocessed_label (lengthL : δ → Int) (rp : Rope α) (c : GenCtx (Rope α) δ) :
    numUnprocessed lengthL mclength (label f b rp) (labelCtx f b c) = numUnprocessed lengthL Rope.length rp c := by
  have hlen : mclength ∘ label f b = Rope.length := funext fun rp => mclength_label rp
  rw [numUnprocessed_eq, numUnprocessed_eq, rights_label, ← List.map_cons, List.map_map, hlen]

theorem leftmostMCLeaf_label (rp : Rope α) (c : GenCtx (Rope α) δ) :
    leftmostMCLeaf (label f b rp) (labelCtx f b c) =
      ((leftmostLeaf rp c).1.foldl f b, (leftmostLeaf rp c).1, labelCtx f b (leftmostLeaf rp c).2) := by
  induction rp generalizing c with
  | leaf s => rfl
  | cat len d l r ihl ihr => exact ihl (.left c r)

theorem startMC_label {x : Rope α} {c : GenCtx (Rope α) δ} (h : start M rp = .ok (x, c)) :
    startMC M (label f b rp) = .ok (label f b x, labelCtx f b c) := by
  have hleft : leftmostMCLeaf (label f b rp) (.top : GenCtx (MCRope α) δ) = _ := leftmostMCLeaf_label rp .top
  obtain ⟨x', hleaf, h⟩ := of_bind_ok h
  obtain ⟨rfl, hlen⟩ := leaf_inv hleaf
  cases h
  rw [startMC, hleft]
  simp only [mcleaf'_ok hlen, ok_bind]
  rfl

/-- Moving on from a finished piece. -/
theorem next_label (j : β → β → β) (p : β) (c : GenCtx (Rope α) β) :
    next leftmostMCLeaf j p (labelCtx f b c) =
      match next leftmostLeaf j p c with
      | .done p' => .done p'
      | .more (s, c') => .more (s.foldl f b, s, labelCtx f b c') := by
  induction c generalizing p with
  | top => rfl
  | left c r ih =>
    show Progress.more (leftmostMCLeaf (label f b r) (labelCtx f b (.right p c))) = _
    rw [leftmostMCLeaf_label]
    rfl
  | right l c ih => exact ih (j l p)

/-- An unzipped context of labelled ropes. -/
def labelU (f : α → α → α) (b : α) (u : UnzippedCtx (Rope α) (Rope α)) : UnzippedCtx (MCRope α) (MCRope α) :=
  (u.1.map (label f b), u.2.1.map (label f b), u.2.2)

theorem nav_label (hcomm : ∀ x y, f x y = f y x) {ls rs : List (Rope α)} {ds : List Dir} {i : Int} {mn : Rope α}
    {u : UnzippedCtx (Rope α) (Rope α)} (h : nav M rp (ls, rs, ds) i = .ok (mn, u)) :
    navMC M f b (label f b rp) (ls.map (label f b), rs.map (label f b), ds) i = .ok (label f b mn, labelU f b u) :=
      by
  induction rp generalizing ls rs ds i with
  | leaf s =>
    unfold nav at h
    rw [label, navMC]
    by_cases hone : s.length = 1
    · rw [if_pos hone] at h ⊢
      obtain ⟨s', hleaf, h⟩ := of_bind_ok h
      obtain ⟨rfl, hlen⟩ := leaf_inv hleaf
      cases h
      rw [mcleaf'_ok hlen]
      rfl
    · rw [if_neg hone] at h ⊢
      obtain ⟨⟨l, m, r⟩, hsplit, h⟩ := of_bind_ok h
      obtain ⟨l', hl, h⟩ := of_bind_ok h
      obtain ⟨r', hr, h⟩ := of_bind_ok h
      obtain ⟨m', hm, h⟩ := of_bind_ok h
      obtain ⟨rfl, hl'⟩ := leaf_inv hl
      obtain ⟨rfl, hr'⟩ := leaf_inv hr
      obtain ⟨rfl, hm'⟩ := leaf_inv hm
      cases h
      simp only [hsplit, ok_bind, mcleaf_ok hcomm hl', mcleaf_ok hcomm hr', mcleaf_ok hcomm hm']
      rfl
  | cat len d l r ihl ihr =>
    unfold nav at h
    rw [label_cat, navMC, mclength_label]
    by_cases hleft : i < l.length
    · rw [if_pos hleft] at h ⊢
      exact ihl h
    · rw [if_neg hleft] at h ⊢
      exact ihr h

theorem cursorAtIxMC_label (hcomm : ∀ x y, f x y = f y x) {i : Int} {mn : Rope α}
    {u : UnzippedCtx (Rope α) (Rope α)} (h : cursorAtIx M rp i = .ok (mn, u)) :
    cursorAtIxMC M f b (label f b rp) i = .ok (label f b mn, labelU f b u) := by
  unfold cursorAtIx at h
  have hin : mcInBounds (label f b rp) i = rp.inBounds i := by
    rw [mcInBounds, mclength_label]
    rfl
  rw [cursorAtIxMC, hin]
  by_cases hb : rp.inBounds i = true
  · rw [if_pos hb] at h ⊢
    exact nav_label hcomm h
  · rw [if_neg hb] at h
    cases h

theorem divide_label {k : Int} {rps1 : List (Rope α)} {m : Rope α} {k' : Int} {rps2 : List (Rope α)}
    (h : divide Rope.length xs k = .ok (rps1, m, k', rps2)) :
    divide mclength (xs.map (label f b)) k = .ok (rps1.map (label f b), label f b m, k', rps2.map (label f b)) := by
  induction xs generalizing k rps1 with
  | nil => cases h
  | cons x xs ih =>
    unfold divide at h
    rw [List.map_cons]
    unfold divide
    rw [mclength_label]
    by_cases hx : k ≤ x.length
    · rw [if_pos hx] at h ⊢
      cases h
      rfl
    · rw [if_neg hx] at h ⊢
      obtain ⟨⟨rps1', m', k'', rps2'⟩, hdiv, h⟩ := of_bind_ok h
      cases h
      rw [ih hdiv]
      rfl

theorem encode_label {e : Rope α} (h : encode nccat2 xs = .ok e) :
    encode (mcnccat2 f) (xs.map (label f b)) = .ok (label f b e) := by
  induction xs generalizing e with
  | nil => cases h
  | cons x xs ih =>
    cases xs with
    | nil =>
      cases h
      rfl
    | cons y ys =>
      obtain ⟨e', he', h⟩ := of_bind_ok (f := fun e' => .ok (nccat2 x e')) h
      cases h
      have hunfold : encode (mcnccat2 f) ((x :: y :: ys).map (label f b)) =
          (do return mcnccat2 f (label f b x) (← encode (mcnccat2 f) ((y :: ys).map (label f b)))) := rfl
      rw [hunfold, ih he', ← mcnccat2_label]
      rfl

theorem encodeMCRope_label {e : Rope α} {n : Nat} (h : encodeRope xs = .ok (e, n)) :
    encodeMCRope f (xs.map (label f b)) = .ok (label f b e, n) := by
  obtain ⟨he, rfl⟩ := encodeRope_inv h
  rw [encodeMCRope, encode_label he, List.length_map]
  rfl

theorem unzipCtx_label (c : GenCtx (Rope α) δ) :
    unzipCtx (labelCtx f b c) = ((unzipCtx c).1, (unzipCtx c).2.1.map (label f b), (unzipCtx c).2.2) := by
  induction c with
  | top => rfl
  | left _ _ ih | right _ _ ih =>
    rw [labelCtx, unzipCtx, ih]
    rfl

/-- A split of the labelled pieces is that of the pieces. -/
theorem splitAt_label (hcomm : ∀ x y, f x y = f y x) (lib : Lib) {c : GenCtx (Rope α) δ} {n : Int} {e1 e2 : Rope α}
    {reb : Rebuilder δ}
    (h : splitAt lib Rope.length encodeRope (cursorAtIx M) unzipCursor (rp, c) n = .ok (e1, e2, reb)) :
    splitAt lib mclength (encodeMCRope f) (cursorAtIxMC M f b) unzipCursor (label f b rp, labelCtx f b c) n = .ok
      (label f b e1, label f b e2, reb) := by
  obtain ⟨⟨rps1, m, k, rps2⟩, hdiv, h⟩ := of_bind_ok h
  obtain ⟨⟨mn, mls, mrs, mds⟩, hat, h⟩ := of_bind_ok h
  obtain ⟨⟨e1', l1⟩, he1, h⟩ := of_bind_ok h
  obtain ⟨⟨e2', l2⟩, he2, h⟩ := of_bind_ok h
  cases h
  have horder : ∀ xs : List (Rope α), (lib.order xs).map (label f b) = lib.order (xs.map (label f b)) := by
    intro xs
    cases lib with
    | rope => exact List.map_reverse
    | intRope => rfl
  have hdiv' : divide mclength (label f b rp :: (unzipCtx c).2.1.map (label f b)) n =
      .ok (rps1.map (label f b), label f b m, k, rps2.map (label f b)) := divide_label hdiv
  have hat' : cursorAtIxMC M f b (label f b m) (k - 1) =
      .ok (label f b mn, mls.map (label f b), mrs.map (label f b), mds) := cursorAtIxMC_label hcomm hat
  have he1' : encodeMCRope f (rps1.map (label f b) ++ lib.order (mls.map (label f b)) ++ [label f b mn]) =
      .ok (label f b e1, l1) := by
    rw [← horder, ← List.map_append, ← List.map_singleton, ← List.map_append]
    exact encodeMCRope_label he1
  have he2' : encodeMCRope f (mrs.map (label f b) ++ rps2.map (label f b)) = .ok (label f b e2, l2) := by
    rw [← List.map_append]
    exact encodeMCRope_label he2
  simp only [splitAt, unzipCursor, unzipCtx_label, hdiv', ok_bind, hat', he1', he2', List.length_map]
  rfl

end

end Manticore.Parray
