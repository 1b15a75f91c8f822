/-
  Manticore.Parray.RopePair — a function over the elements of two ropes in pairs (`basis/parray/rope-pair.pml`). The
  shape is the shorter rope's, and each of its leaves takes the elements at its indices of the longer one
  (`partialSeq` of `rope.pml`).

  `partialSeq` of an empty range goes to the leaf that ends there, if one does, and that leaf fails.

  - `ropePair_map_iff`: the map is right if no empty leaf of the shorter rope stands where a leaf of the longer one ends.
  - `ropePair_map_empty`: two empty ropes.
-/

import Manticore.Parray.FromSeq

namespace Manticore.Parray

open Fuel (ok_bind)
open List (zipWith length_append)

variable {α β γ : Type} (M : Int)

/-- Up to the length of the shorter sequence. -/
def Seq.map2 (f : α → β → γ) (s1 : List α) (s2 : List β) : List γ := zipWith f s1 s2

namespace RopePair

def map' (f : α → β → γ) (ropeL : Rope β) : Int → Rope α → Except Exn (Rope γ)
  | n, .leaf sS => do
    let sL ← partialSeq ropeL n (n + sS.length)
    leaf M (Seq.map2 f sS sL)
  | n, .cat d len rL rR => do
    let rL' ← map' f ropeL n rL
    let rR' ← map' f ropeL (n + rL.length) rR
    return .cat d len rL' rR'

def map (f : α → β → γ) (rope1 : Rope α) (rope2 : Rope β) : Except Exn (Rope γ) :=
  if rope1.length > rope2.length then map' M (fun b a => f a b) rope1 0 rope2 else map' M f rope2 0 rope1

end RopePair

/-- Some leaf ends at the index. -/
def Rope.EndsAt : Rope α → Nat → Prop
  | leaf s, i => i = s.length
  | cat _ _ l r, i => l.EndsAt i ∨ l.toList.length ≤ i ∧ r.EndsAt (i - l.toList.length)

/-- Some leaf is empty, and stands at the index. -/
def Rope.EmptyAt : Rope α → Nat → Prop
  | leaf s, i => s = [] ∧ i = 0
  | cat _ _ l r, i => l.EmptyAt i ∨ l.toList.length ≤ i ∧ r.EmptyAt (i - l.toList.length)

variable {M} {rp : Rope α}

/-! ## The elements of a range -/

theorem Rope.EndsAt.le {i : Nat} (h : rp.EndsAt i) : i ≤ rp.toList.length := by
  induction rp generalizing i with
  | leaf s => exact Nat.le_of_eq h
  | cat len d l r ihl ihr =>
    rw [toList, length_append]
    rcases h with h | ⟨hle, h⟩
    · have := ihl h
      omega
    · have := ihr h
      omega

/-- The last leaf ends where the rope does. -/
theorem Rope.endsAt_length (rp : Rope α) : rp.EndsAt rp.toList.length := by
  induction rp with
  | leaf s => rfl
  | cat len d l r ihl ihr =>
    rw [EndsAt, toList, length_append, Nat.add_sub_cancel_left]
    exact .inr ⟨Nat.le_add_right _ _, ihr⟩

theorem Rope.endsAt_left {len d : Int} {l r : Rope α} {i : Nat} (h : i ≤ l.toList.length) :
    (Rope.cat len d l r).EndsAt i ↔ l.EndsAt i := by
  refine ⟨fun hends => hends.elim id fun hr => ?_, .inl⟩
  obtain rfl : i = l.toList.length := Nat.le_antisymm h hr.1
  exact l.endsAt_length

theorem Rope.endsAt_right {len d : Int} {l r : Rope α} {i : Nat} (h : l.toList.length < i) :
    (Rope.cat len d l r).EndsAt i ↔ r.EndsAt (i - l.toList.length) := by
  refine ⟨fun hends => hends.elim (fun hl => ?_) And.right, fun hr => .inr ⟨Nat.le_of_lt h, hr⟩⟩
  exact absurd hl.le (Nat.not_le.mpr h)

/-- The range is not an empty one at the end of a leaf. -/
theorem partialSeq_ok (h : rp.WF M) {lo hi : Nat} (hle : lo ≤ hi) (hhi : hi ≤ rp.toList.length)
    (hends : lo = hi → ¬ rp.EndsAt lo) : partialSeq rp lo hi = .ok ((rp.toList.take hi).drop lo) := by
  induction rp generalizing lo hi with
  | leaf s =>
    have hlt : lo < s.length := by
      by_contra hge
      have hlo : lo = s.length := by
        rw [Rope.toList] at hhi
        omega
      exact hends (by rw [Rope.toList] at hhi; omega) hlo
    have hsub : ((hi : Int) - lo).toNat = hi - lo := by omega
    have hhi' : hi ≤ s.length := hhi
    rw [partialSeq, if_neg (by omega), Seq.take, Seq.drop, hsub, Int.toNat_natCast, Rope.toList, List.drop_take]
  | cat len d l r ihl ihr =>
    obtain ⟨-, -, hl, hr⟩ := h
    have hlen := hl.length_eq
    rw [Rope.toList, length_append] at hhi
    rw [Rope.toList, partialSeq]
    by_cases hleft : hi ≤ l.toList.length
    · rw [if_pos (by omega), ihl hl hle hleft fun heq => by rw [← Rope.endsAt_left (by omega)]; exact hends heq,
        List.take_append_of_le_length hleft]
    · by_cases hright : l.toList.length ≤ lo
      · have hlo : (lo : Int) - l.length = (lo - l.toList.length : Nat) := by omega
        have hhi' : (hi : Int) - l.length = (hi - l.toList.length : Nat) := by omega
        rw [if_neg (by omega), if_pos (by omega), hlo, hhi', ihr hr (by omega) (by omega) fun heq => ?_]
        · simp [List.take_append, List.drop_append, Nat.le_of_not_le hleft, hright]
        · rw [← Rope.endsAt_right (by omega)]
          exact hends (by omega)
      · have hhi' : (hi : Int) - l.length = (hi - l.toList.length : Nat) := by omega
        have hzero : (0 : Int) = (0 : Nat) := rfl
        rw [if_neg (by omega), if_neg (by omega), hhi', hlen, hzero, ihl hl (by omega) le_rfl (by omega),
          ihr hr (by omega) (by omega) (by omega)]
        simp [List.take_append, List.drop_append, Nat.le_of_not_le hright, ok_bind,
          List.take_of_length_le (Nat.le_of_not_le hleft)]

theorem partialSeq_fails (h : rp.WF M) {i : Nat} (hends : rp.EndsAt i) : partialSeq rp i i = .error (.fail "err") := by
  induction rp generalizing i with
  | leaf s =>
    obtain rfl : i = s.length := hends
    exact if_pos (.inl (Int.le_refl _))
  | cat len d l r ihl ihr =>
    obtain ⟨-, -, hl, hr⟩ := h
    have hlen := hl.length_eq
    rw [partialSeq]
    by_cases hleft : i ≤ l.toList.length
    · rw [if_pos (by omega), ihl hl ((Rope.endsAt_left hleft).mp hends)]
    · have hi : (i : Int) - l.length = (i - l.toList.length : Nat) := by omega
      rw [if_neg (by omega), if_pos (by omega), hi, ihr hr ((Rope.endsAt_right (by omega)).mp hends)]

/-! ## The map -/

theorem map'_ok (f : α → β → γ) {ropeL : Rope β} (hL : ropeL.WF M) (h : rp.WF M) {n : Nat}
    (hn : n + rp.toList.length ≤ ropeL.toList.length) (hends : ∀ i, rp.EmptyAt i → ¬ ropeL.EndsAt (n + i)) :
    ∃ rp', RopePair.map' M f ropeL n rp = .ok rp' ∧
      rp'.toList = zipWith f rp.toList ((ropeL.toList.drop n).take rp.toList.length) := by
  induction rp generalizing n with
  | leaf s =>
    have hsL := partialSeq_ok hL (Nat.le_add_right n s.length) hn fun heq => hends 0 ⟨List.length_eq_zero_iff.mp (by omega), rfl⟩
    have hs : (s.length : Int) ≤ M := h
    refine ⟨.leaf (zipWith f s ((ropeL.toList.drop n).take s.length)), ?_, rfl⟩
    rw [RopePair.map', ← Int.natCast_add, hsL, ok_bind, Seq.map2, List.drop_take, Nat.add_sub_cancel_left]
    exact leaf_ok (by rw [List.length_zipWith]; omega)
  | cat len d l r ihl ihr =>
    obtain ⟨-, -, hl, hr⟩ := h
    rw [Rope.toList, length_append] at hn
    obtain ⟨l', hokl, hlistl⟩ := ihl hl (by omega) fun i hi => hends i (.inl hi)
    have hendsr : ∀ i, r.EmptyAt i → ¬ ropeL.EndsAt (n + l.toList.length + i) := fun i hi => by
      rw [Nat.add_assoc]
      exact hends _ (.inr ⟨Nat.le_add_right _ _, by rwa [Nat.add_sub_cancel_left]⟩)
    obtain ⟨r', hokr, hlistr⟩ := ihr hr (by omega) hendsr
    refine ⟨.cat len d l' r', ?_, ?_⟩
    · rw [RopePair.map', hokl, ok_bind, hl.length_eq, ← Int.natCast_add, hokr]
      rfl
    · rw [Rope.toList, Rope.toList, hlistl, hlistr, length_append, List.take_add, List.zipWith_append, List.drop_drop]
      rw [List.length_take, List.length_drop]
      omega

theorem map'_fails (f : α → β → γ) {ropeL : Rope β} (hL : ropeL.WF M) (h : rp.WF M) {n i : Nat} (hi : rp.EmptyAt i)
    (hends : ropeL.EndsAt (n + i)) : ¬ ∃ rp', RopePair.map' M f ropeL n rp = .ok rp' := by
  induction rp generalizing n i with
  | leaf s =>
    obtain ⟨rfl, rfl⟩ := hi
    rintro ⟨rp', hok⟩
    have hfail : partialSeq ropeL n n = .error (.fail "err") := partialSeq_fails hL hends
    simp [RopePair.map', hfail] at hok
    cases hok
  | cat len d l r ihl ihr =>
    obtain ⟨-, -, hl, hr⟩ := h
    rintro ⟨rp', hok⟩
    obtain ⟨l', hokl, hok⟩ := Fuel.of_bind_ok hok
    obtain ⟨r', hokr, -⟩ := Fuel.of_bind_ok hok
    rcases hi with hi | ⟨hle, hi⟩
    · exact ihl hl hi hends ⟨l', hokl⟩
    · rw [hl.length_eq, ← Int.natCast_add] at hokr
      refine ihr hr hi ?_ ⟨r', hokr⟩
      rwa [Nat.add_assoc, Nat.add_sub_cancel' hle]

/-- No empty leaf of the shorter rope stands where a leaf of the longer one ends. -/
def Apart (rope1 : Rope α) (rope2 : Rope β) : Prop :=
  if rope1.length > rope2.length then ∀ i, rope2.EmptyAt i → ¬ rope1.EndsAt i
  else ∀ i, rope1.EmptyAt i → ¬ rope2.EndsAt i

theorem map'_iff (f : α → β → γ) {ropeL : Rope β} (hL : ropeL.WF M) (h : rp.WF M)
    (hle : rp.toList.length ≤ ropeL.toList.length) :
    (∃ rp', RopePair.map' M f ropeL 0 rp = .ok rp' ∧ rp'.toList = zipWith f rp.toList ropeL.toList) ↔
      ∀ i, rp.EmptyAt i → ¬ ropeL.EndsAt i := by
  refine ⟨fun ⟨rp', hok, _⟩ i hi hends => ?_, fun hapart => ?_⟩
  · exact map'_fails (n := 0) f hL h hi (by rwa [Nat.zero_add]) ⟨rp', hok⟩
  · obtain ⟨rp', hok, hlist⟩ := map'_ok (n := 0) f hL h (by omega) (by simpa using hapart)
    refine ⟨rp', hok, hlist.trans ?_⟩
    have htake := List.take_of_length_le (l := zipWith f rp.toList ropeL.toList) (i := rp.toList.length)
      (by rw [List.length_zipWith]; exact Nat.min_le_left _ _)
    rw [List.take_zipWith, List.take_length] at htake
    rw [List.drop_zero, htake]

theorem ropePair_map_iff (f : α → β → γ) {rope1 : Rope α} {rope2 : Rope β} (h1 : rope1.WF M) (h2 : rope2.WF M) :
    ((∃ rp, RopePair.map M f rope1 rope2 = .ok rp ∧ rp.toList = zipWith f rope1.toList rope2.toList) ↔
      Apart rope1 rope2) ∧
    ∀ lo hi : Nat, lo ≤ hi → hi ≤ rope2.toList.length →
      (partialSeq rope2 lo hi = .ok ((rope2.toList.take hi).drop lo) ↔ (lo = hi → ¬ rope2.EndsAt lo)) := by
  have hlen1 := h1.length_eq
  have hlen2 := h2.length_eq
  refine ⟨?_, fun lo hi hle hhi => ⟨fun hok heq hends => ?_, partialSeq_ok h2 hle hhi⟩⟩
  · unfold RopePair.map Apart
    by_cases hlt : rope1.length > rope2.length
    · rw [if_pos hlt, if_pos hlt, ← map'_iff _ h1 h2 (by omega), List.zipWith_comm]
    · rw [if_neg hlt, if_neg hlt]
      exact map'_iff f h2 h1 (by omega)
  · subst heq
    rw [partialSeq_fails h2 hends] at hok
    cases hok

theorem ropePair_map_three :
    (∃ rp, RopePair.map 2 (· + ·) (nccat2 (.leaf [1, 2]) (.leaf [3])) (nccat2 (.leaf [10]) (.leaf [20, 30])) = .ok rp ∧
      rp.toList = [11, 22, 33]) ↔ Apart (nccat2 (.leaf [1, 2]) (.leaf [3])) (nccat2 (.leaf [10]) (.leaf [20, 30])) :=
  (ropePair_map_iff (· + ·) (by simp [nccat2, Rope.WF]) (by simp [nccat2, Rope.WF])).1

/-- Nothing to map, and the empty range is not found. -/
theorem ropePair_map_empty : RopePair.map 2 (fun a b : Int => a + b) .empty .empty = .error (.fail "err") := by
  decide

end Manticore.Parray
