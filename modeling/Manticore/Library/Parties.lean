/-
  Manticore.Library.Parties — sums over the parties of a system, of which one changes at a time.

  Counts of the parties in some state, and the multisets of what the parties hold, are such sums.
-/

import Mathlib

namespace Parties

open Finset (add_sum_erase mem_univ univ sum_congr)

variable {ι α : Type} [Fintype ι] [DecidableEq ι]

/-- What one party has changes. -/
theorem sum_except {M : Type} [AddCommMonoid M] (g g' : ι → M) (i : ι) (h : ∀ j, j ≠ i → g' j = g j) :
    (∑ j, g' j) + g i = (∑ j, g j) + g' i := by
  rw [← add_sum_erase _ g' (mem_univ i), ← add_sum_erase _ g (mem_univ i)]
  have hrest : (∑ j ∈ univ.erase i, g' j) = ∑ j ∈ univ.erase i, g j :=
    sum_congr rfl fun j hj => h j (Finset.ne_of_mem_erase hj)
  rw [hrest, add_right_comm, add_right_comm (g i), add_comm (g' i)]

/-- One party changes, and what is summed may depend on the party. -/
theorem sum_update_at {M : Type} [AddCommMonoid M] (f : ι → α) (g : ι → α → M) (i : ι) (a : α) :
    (∑ j, g j (Function.update f i a j)) + g i (f i) = (∑ j, g j (f j)) + g i a := by
  rw [sum_except _ _ i fun j hj => congrArg (g j) (Function.update_of_ne hj a f), Function.update_self]

/-- One party changes. -/
theorem sum_update {M : Type} [AddCommMonoid M] (f : ι → α) (g : α → M) (i : ι) (a : α) :
    (∑ j, g (Function.update f i a j)) + g (f i) = (∑ j, g (f j)) + g a :=
  sum_update_at f (fun _ => g) i a

omit [DecidableEq ι] in
theorem le_sum (g : ι → Nat) (i : ι) : g i ≤ ∑ j, g j :=
  Finset.single_le_sum (fun _ _ => Nat.zero_le _) (mem_univ i)

theorem add_le_sum (g : ι → Nat) {i j : ι} (h : i ≠ j) : g i + g j ≤ ∑ k, g k := by
  rw [← add_sum_erase _ g (mem_univ i)]
  exact Nat.add_le_add_left
    (Finset.single_le_sum (fun _ _ => Nat.zero_le _) (Finset.mem_erase.mpr ⟨h.symm, mem_univ j⟩)) _

omit [DecidableEq ι] in
/-- A party that is not counted. -/
theorem count_lt_card (g : ι → Bool) {i : ι} (hi : g i = false) : (∑ k, (g k).toNat) < Fintype.card ι := by
  have hlt : (∑ k, (g k).toNat) < ∑ _k : ι, 1 :=
    Finset.sum_lt_sum (fun k _ => Bool.toNat_le (g k)) ⟨i, mem_univ i, by rw [hi]; exact Nat.one_pos⟩
  simpa using hlt

/-- When all parties but one are counted, that is every other one. -/
theorem all_but_one (g : ι → Bool) {i j : ι} (hi : g i = false) (h : (∑ k, (g k).toNat) + 1 = Fintype.card ι)
    (hj : j ≠ i) : g j = true := by
  by_contra hn
  have hnj : g j = false := by simpa using hn
  have hcount : (∑ k, (g k).toNat) + ∑ k, (!g k).toNat = Fintype.card ι := by
    rw [← Finset.sum_add_distrib, sum_congr rfl fun k _ =>
      show (g k).toNat + (!g k).toNat = 1 by cases g k <;> rfl]
    simp
  have htwo := add_le_sum (fun k => (!g k).toNat) hj
  simp only [hi, hnj, Bool.not_false, Bool.toNat_true] at htwo
  omega

/-- When one count is short of another by one, and a party makes the difference, the others count the same. -/
theorem same_but_one (f g : ι → Nat) (hle : ∀ k, f k ≤ g k) {i j : ι} (hi : f i < g i) (h : (∑ k, f k) + 1 = ∑ k, g k)
    (hj : j ≠ i) : f j = g j := by
  have hsum : (∑ k, f k) + ∑ k, (g k - f k) = ∑ k, g k := by
    rw [← Finset.sum_add_distrib]
    exact sum_congr rfl fun k _ => Nat.add_sub_cancel' (hle k)
  have htwo := add_le_sum (fun k => g k - f k) hj
  have hlej := hle j
  omega

end Parties
