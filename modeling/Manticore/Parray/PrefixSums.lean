/-
  Manticore.Parray.PrefixSums — `prePlusScan2`, `plusScan2` and their variants without a seed (`basis/parray/scan.pml`).

  `upsweep` adds the seed to the sum of every leaf, and `plusScan2` makes the inclusive sums by adding the first element
  to the seed. The numbers are any commutative group, so the results hold of ints that wrap around.

  - `scans_iff`: `prePlusScan2` is right where the seed, taken as often as there are leaves before, is zero at every
    element; so it is for seed 0. `plusScan2` is right where every element is the first one plus such a sum.
  - `scans_twice`: two leaves, and two elements.
-/

import Manticore.Parray.FromSeq

namespace Manticore.Parray.Scan

open Rope (leaves toList toSeq_eq)

variable {α : Type}

/-- A rope with a datum at every node. -/
inductive ScanRope (α : Type) where
  | cat (datum : α) (depth length : Int) (l r : ScanRope α)
  | leaf (datum : α) (length : Int) (s : List α)

def datumOf : ScanRope α → α
  | .cat d _ _ _ _ => d
  | .leaf d _ _ => d

section
variable [Add α]

/-- The sums before each element, and the total. -/
def seqscan (seed : α) (s : List α) : List α × α :=
  let r := s.foldl (fun (res, last) x => (last :: res, last + x)) ([], seed)
  (r.1.reverse, r.2)

def seqsum (seed : α) (s : List α) : α := s.foldl (fun b a => a + b) seed

def upsweep (seed : α) : Rope α → ScanRope α
  | .leaf s => .leaf (seqsum seed s) s.length s
  | .cat d len rL rR =>
    let uL := upsweep seed rL
    let uR := upsweep seed rR
    .cat (datumOf uL + datumOf uR) d len uL uR

def downsweep : α → ScanRope α → Rope α
  | c, .cat _ d len cL cR => .cat d len (downsweep c cL) (downsweep (c + datumOf cL) cR)
  | c, .leaf _ _ s => .leaf (seqscan c s).1

def plusScan2 (seed : α) (r : Rope α) : Except Exn (Rope α) :=
  if r.length = 0 then .ok r
  else do
    let elt0 ← sub r 0
    return downsweep (elt0 + seed) (upsweep (elt0 + seed) r)

def prePlusScan2 (seed : α) (r : Rope α) : Rope α := downsweep seed (upsweep seed r)

/-- The sums of the elements before each element. -/
def exclusive : α → List α → List α
  | _, [] => []
  | b, x :: xs => b :: exclusive (b + x) xs

/-- The sums up to each element. -/
def inclusive : α → List α → List α
  | _, [] => []
  | b, x :: xs => (b + x) :: inclusive (b + x) xs

end

def plusScan [Add α] [Zero α] (r : Rope α) : Except Exn (Rope α) := plusScan2 0 r

def prePlusScan [Add α] [Zero α] (r : Rope α) : Rope α := downsweep 0 (upsweep 0 r)

/-- Every element with the number of leaves before its own. -/
def tagged : Nat → List (List α) → List (Nat × α)
  | _, [] => []
  | k, s :: ss => s.map (k, ·) ++ tagged (k + 1) ss

/-! ## What the sweeps compute -/

variable {M : Int}

theorem tagged_append (k : Nat) (ss ts : List (List α)) :
    tagged k (ss ++ ts) = tagged k ss ++ tagged (k + ss.length) ts := by
  induction ss generalizing k with
  | nil => rfl
  | cons s ss ih => simp [tagged, ih, Nat.add_assoc, Nat.add_comm 1]

theorem tagged_snd (k : Nat) (ss : List (List α)) : (tagged k ss).map Prod.snd = ss.flatten := by
  induction ss generalizing k with
  | nil => rfl
  | cons s ss ih => simp [tagged, ih, Function.comp_def]

theorem sub_zero_eq {r : Rope α} (h : r.WF M) {x0 : α} {xs : List α} (hlist : r.toList = x0 :: xs) :
    sub r 0 = .ok x0 := by
  rw [sub_eq h, hlist]
  rfl

variable [AddCommGroup α]

theorem seqscan_eq (c : α) (s : List α) : (seqscan c s).1 = exclusive c s := by
  have hfold : ∀ (s : List α) (res : List α) (c : α),
      (s.foldl (fun (res, last) x => (last :: res, last + x)) (res, c)).1.reverse = res.reverse ++ exclusive c s := by
    intro s
    induction s with
    | nil => simp [exclusive]
    | cons x s ih => intro res c; simp [exclusive, ih]
  exact hfold s [] c

theorem seqsum_eq (seed : α) (s : List α) : seqsum seed s = seed + s.sum := by
  unfold seqsum
  induction s generalizing seed with
  | nil => simp
  | cons x s ih => rw [List.foldl_cons, ih, List.sum_cons, add_comm x seed, add_assoc]

/-- The seed is in the datum once for each leaf. -/
theorem datumOf_upsweep (seed : α) (r : Rope α) :
    datumOf (upsweep seed r) = r.leaves.length • seed + r.toList.sum := by
  induction r with
  | leaf s => simp [upsweep, datumOf, seqsum_eq, leaves, toList, one_nsmul]
  | cat d len l r ihl ihr =>
    show datumOf (upsweep seed l) + datumOf (upsweep seed r) = _
    simp only [ihl, ihr, leaves, toList, List.length_append, List.sum_append, add_nsmul]
    abel

/-- The sums the sweeps compute: `k` copies of the seed are too many at an element with `k` leaves before its own. -/
def swept (seed : α) : α → List (Nat × α) → List α
  | _, [] => []
  | b, (k, x) :: ps => (b + k • seed) :: swept seed (b + x) ps

theorem swept_append (seed b : α) (ps qs : List (Nat × α)) :
    swept seed b (ps ++ qs) = swept seed b ps ++ swept seed (b + (ps.map Prod.snd).sum) qs := by
  induction ps generalizing b with
  | nil => simp [swept]
  | cons p ps ih => simp [swept, ih, add_assoc]

theorem swept_leaf (seed b : α) (k : Nat) (s : List α) :
    swept seed b (s.map (k, ·)) = exclusive (b + k • seed) s := by
  induction s generalizing b with
  | nil => rfl
  | cons x s ih => simp only [List.map_cons, swept, exclusive, ih, add_right_comm]

theorem toList_downsweep (seed b : α) (k : Nat) (r : Rope α) :
    (downsweep (b + k • seed) (upsweep seed r)).toList = swept seed b (tagged k r.leaves) := by
  induction r generalizing b k with
  | leaf s => simp [upsweep, downsweep, toList, seqscan_eq, leaves, tagged, swept_leaf]
  | cat d len l r ihl ihr =>
    have hseed : b + k • seed + datumOf (upsweep seed l) = b + l.toList.sum + (k + l.leaves.length) • seed := by
      rw [datumOf_upsweep, add_nsmul]
      abel
    have hlist : l.leaves.flatten = l.toList := toSeq_eq l
    simp only [upsweep, downsweep, toList, ihl, hseed, ihr, leaves, tagged_append, swept_append, tagged_snd,
      hlist]

theorem swept_exclusive (seed b : α) (ps : List (Nat × α)) :
    swept seed b ps = exclusive b (ps.map Prod.snd) ↔ ∀ p ∈ ps, p.1 • seed = 0 := by
  induction ps generalizing b with
  | nil => simp [swept, exclusive]
  | cons p ps ih => simp [swept, exclusive, ih]

theorem swept_inclusive (seed b x0 : α) (ps : List (Nat × α)) :
    swept seed (x0 + b) ps = inclusive b (ps.map Prod.snd) ↔ ∀ p ∈ ps, p.2 = x0 + p.1 • seed := by
  induction ps generalizing b with
  | nil => simp [swept, inclusive]
  | cons p ps ih =>
    have hhead : x0 + b + p.1 • seed = b + p.2 ↔ p.2 = x0 + p.1 • seed := by
      rw [add_comm x0 b, add_assoc, add_right_inj, eq_comm]
    have htail := ih (b + p.2)
    rw [← add_assoc] at htail
    simp [swept, inclusive, hhead, htail]

theorem scans_iff {r : Rope α} (h : r.WF M) (seed : α) :
    ((prePlusScan2 seed r).toList = exclusive seed r.toList ↔ ∀ p ∈ tagged 0 r.leaves, p.1 • seed = 0) ∧
    (prePlusScan r).toList = exclusive 0 r.toList ∧
    ((∃ r', plusScan2 seed r = .ok r' ∧ r'.toList = inclusive seed r.toList) ↔
      ∀ x0, r.toList.head? = some x0 → ∀ p ∈ tagged 0 r.leaves, p.2 = x0 + p.1 • (x0 + seed)) ∧
    ((∃ r', plusScan r = .ok r' ∧ r'.toList = inclusive 0 r.toList) ↔
      ∀ x0, r.toList.head? = some x0 → ∀ p ∈ tagged 0 r.leaves, p.2 = x0 + p.1 • x0) := by
  have hlist : (tagged 0 r.leaves).map Prod.snd = r.toList := (tagged_snd 0 _).trans (toSeq_eq r)
  have hpre : ∀ seed b : α, (downsweep b (upsweep seed r)).toList = swept seed b (tagged 0 r.leaves) := by
    intro seed b
    rw [← toList_downsweep, zero_nsmul, add_zero]
  have hplus : ∀ seed : α, (∃ r', plusScan2 seed r = .ok r' ∧ r'.toList = inclusive seed r.toList) ↔
      ∀ x0, r.toList.head? = some x0 → ∀ p ∈ tagged 0 r.leaves, p.2 = x0 + p.1 • (x0 + seed) := by
    intro seed
    have hlen := h.length_eq
    unfold plusScan2
    cases hr : r.toList with
    | nil =>
      rw [hr, List.length_nil] at hlen
      rw [if_pos (show r.length = 0 from hlen)]
      simp [inclusive, hr]
    | cons x0 xs =>
      rw [hr, List.length_cons] at hlen
      rw [if_neg (by omega), sub_zero_eq h hr]
      have hiff := swept_inclusive (x0 + seed) seed x0 (tagged 0 r.leaves)
      rw [← hpre, hlist, hr] at hiff
      simpa using hiff
  refine ⟨?_, ?_, hplus seed, ?_⟩
  · rw [prePlusScan2, hpre, ← hlist]
    exact swept_exclusive seed seed _
  · rw [prePlusScan, hpre, ← hlist, swept_exclusive]
    simp
  · have hzero := hplus 0
    simpa [plusScan] using hzero

/-- Two leaves. -/
def oneTwo : Rope Int := nccat2 (.leaf [1]) (.leaf [2])

theorem scans_iff_oneTwo :
    ((prePlusScan2 7 oneTwo).toList = exclusive 7 oneTwo.toList ↔ ∀ p ∈ tagged 0 oneTwo.leaves, p.1 • (7 : Int) = 0) ∧
      (prePlusScan oneTwo).toList = exclusive 0 oneTwo.toList := by
  have h := scans_iff (M := 1) (r := oneTwo) (by simp [oneTwo, nccat2, Rope.WF]) 7
  exact ⟨h.1, h.2.1⟩

/-- The seed is counted again at the second leaf, and the elements after the first count as the first. -/
theorem scans_twice : (prePlusScan2 7 oneTwo).toList = [7, 15] ∧ exclusive 7 oneTwo.toList = [7, 8] ∧
    (plusScan (.leaf [1, 2] : Rope Int)).map toList = .ok [1, 2] ∧ inclusive (0 : Int) [1, 2] = [1, 3] := by
  decide

end Manticore.Parray.Scan
