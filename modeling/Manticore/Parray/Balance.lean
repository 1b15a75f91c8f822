/-
  Manticore.Parray.Balance — what balancing promises, and `take` and `drop`, which split a rope after an index and
  balance the part they keep (`basis/parray/rope.pml`).

  - `balance_sound`: the same elements, leaves of at most `M`, and `isBalanced` of the result.
  - `take_drop_iff`: the first elements and the others, for every number but 0, whose index is outside the rope
    (`take_zero`).
-/

import Manticore.Parray.Rope

namespace Manticore.Parray

open Fuel (Returns ok_bind)

variable {α : Type} {M : Int}

theorem balance_sound (policy : ChunkingPolicy) {rp : Rope α} (h : rp.WF M) :
    ∃ rp', Returns (fun n => balance M policy n rp) rp' ∧ rp'.toList = rp.toList ∧ rp'.ropeOK = true ∧
      (∀ s ∈ rp'.leaves, (s.length : Int) ≤ M) ∧ isBalanced rp' = true := by
  obtain ⟨rp', hret, ⟨hwf, hlist⟩, hbal⟩ := balance_balances policy h
  obtain ⟨hok, hleaves⟩ := (Rope.wf_iff_ropeOK rp').mp hwf
  exact ⟨rp', hret, hlist, hok, hleaves, hbal⟩

/-- A chain of four leaves, one of them empty. -/
def leftChain : Rope Int := nccat2 (nccat2 (nccat2 (.leaf [1]) (.leaf [])) (.leaf [2, 3])) (.leaf [4])

theorem leftChain_wf : leftChain.WF 2 := by
  simp [leftChain, nccat2, Rope.WF]

theorem balance_sound_leftChain :
    ∃ rp', Returns (fun n => balance 2 .sequential n leftChain) rp' ∧ rp'.toList = [1, 2, 3, 4] ∧ rp'.ropeOK = true ∧
      (∀ s ∈ rp'.leaves, (s.length : Int) ≤ 2) ∧ isBalanced rp' = true := balance_sound .sequential leftChain_wf

/-! ## Taking and dropping -/

def take (M : Int) (policy : ChunkingPolicy) (fuel : Nat) (rp : Rope α) (n : Int) : Except Exn (Rope α) := do
  let (l, _) ← splitAtIx2 M rp (n - 1)
  balance M policy fuel l

def drop (M : Int) (policy : ChunkingPolicy) (fuel : Nat) (rp : Rope α) (n : Int) : Except Exn (Rope α) := do
  let (_, r) ← splitAtIx2 M rp (n - 1)
  balance M policy fuel r

/-- The leaf that `splitAtIx2'` takes apart, and the index in it. -/
def splitLeaf : Rope α → Int → Option (List α × Int)
  | .leaf s, i => some (s, i)
  | .cat _ _ l r, i =>
    if i = l.length - 1 then none
    else if i < l.length then splitLeaf l i
    else splitLeaf r (i - l.length)

theorem splitLeaf_inside {rp : Rope α} (h : rp.WF M) {i : Int} (h0 : 0 ≤ i) (hi : i < rp.length) {s : List α} {j : Int}
    (hleaf : splitLeaf rp i = some (s, j)) : 0 ≤ j ∧ j < s.length := by
  induction rp generalizing i with
  | leaf s' =>
    cases hleaf
    exact ⟨h0, hi⟩
  | cat len d l r ihl ihr =>
    obtain ⟨rfl, -, hl, hr⟩ := h
    have hi' : i < l.length + r.length := hi
    unfold splitLeaf at hleaf
    split at hleaf
    · cases hleaf
    · split at hleaf
      · next hlt => exact ihl hl h0 hlt hleaf
      · exact ihr hr (by omega) (by omega) hleaf

/-- The two parts, as the first `i + 1` elements and the others. -/
theorem splitAtIx2_take {rp : Rope α} (h : rp.WF M) {i : Nat} (hi : i < rp.toList.length) :
    ∃ l r, splitAtIx2 M rp i = .ok (l, r) ∧ l.WF M ∧ r.WF M ∧ l.toList = rp.toList.take (i + 1) ∧
      r.toList = rp.toList.drop (i + 1) := by
  have hlen := h.length_eq
  obtain ⟨l, r, hsplit, hl, hr, happ, hlen1⟩ := splitAtIx2_returns h (Int.natCast_nonneg i) (by omega)
  have hl1 : l.toList.length = i + 1 := by
    have := hl.length_eq
    omega
  refine ⟨l, r, hsplit, hl, hr, ?_, ?_⟩
  · rw [← happ, ← hl1, List.take_left]
  · rw [← happ, ← hl1, List.drop_left]

/-- A well-formed rope of the elements. -/
def Yields (M : Int) (f : Nat → Except Exn (Rope α)) (xs : List α) : Prop :=
  ∃ rp, Returns f rp ∧ rp.WF M ∧ rp.toList = xs

theorem balance_yields (policy : ChunkingPolicy) {rp : Rope α} (h : rp.WF M) :
    Yields M (fun fuel => balance M policy fuel rp) rp.toList := by
  obtain ⟨rp', hret, hwf, hlist⟩ := balance_returns policy h
  exact ⟨rp', hret, hwf, hlist⟩

/-- The index before the first element is outside. -/
theorem take_zero (policy : ChunkingPolicy) (fuel : Nat) (rp : Rope α) :
    take M policy fuel rp 0 = .error (.fail "subscript") := by
  rw [take, splitAtIx2_neg rp (by decide)]
  rfl

theorem take_drop_iff (policy : ChunkingPolicy) {rp : Rope α} (h : rp.WF M) :
    (∀ n : Nat, n ≤ rp.toList.length → (Yields M (fun fuel => take M policy fuel rp n) (rp.toList.take n) ∧
      Yields M (fun fuel => drop M policy fuel rp n) (rp.toList.drop n) ↔ 1 ≤ n)) ∧
    ∀ i : Nat, i < rp.toList.length → (∃ l r, splitAtIx2 M rp i = .ok (l, r) ∧ l.WF M ∧ r.WF M ∧
      l.toList = rp.toList.take (i + 1) ∧ r.toList = rp.toList.drop (i + 1)) ∧
      ∀ s j, splitLeaf rp i = some (s, j) → 0 ≤ j ∧ j < s.length := by
  have hlen := h.length_eq
  refine ⟨fun n hn => ⟨fun hyields => ?_, fun hpos => ?_⟩, fun i hi => ⟨splitAtIx2_take h hi, fun s j => ?_⟩⟩
  · obtain ⟨⟨rp', ⟨N, hret⟩, -⟩, -⟩ := hyields
    by_contra hzero
    obtain rfl : n = 0 := by omega
    have hok : take M policy N rp 0 = .ok rp' := hret N (Nat.le_refl N)
    rw [take_zero] at hok
    cases hok
  · obtain ⟨i, rfl⟩ : ∃ i, n = i + 1 := ⟨n - 1, by omega⟩
    obtain ⟨l, r, hsplit, hl, hr, hlist, hrist⟩ := splitAtIx2_take h (i := i) (by omega)
    have hix : ((i + 1 : Nat) : Int) - 1 = i := by omega
    rw [← hlist, ← hrist]
    simp only [take, drop, hix, hsplit, ok_bind]
    exact ⟨balance_yields policy hl, balance_yields policy hr⟩
  · exact splitLeaf_inside h (Int.natCast_nonneg i) (by omega)

theorem take_drop_leftChain :
    Yields 2 (fun fuel => take 2 .sequential fuel leftChain 3) [1, 2, 3] ∧
      Yields 2 (fun fuel => drop 2 .sequential fuel leftChain 3) [4] :=
  ((take_drop_iff .sequential leftChain_wf).1 3 (by decide)).mpr (by decide)

/-- Nothing can be taken of the rope, although that is the empty list. -/
theorem take_none : ¬ ∃ fuel rp, take 2 .sequential fuel leftChain 0 = .ok rp ∧ rp.toList = leftChain.toList.take 0 := by
  rintro ⟨fuel, rp, hok, -⟩
  rw [take_zero] at hok
  cases hok

end Manticore.Parray
