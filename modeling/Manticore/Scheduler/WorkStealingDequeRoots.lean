/-
  Manticore.Scheduler.WorkStealingDequeRoots — what the garbage collector sees of a work-stealing deque (`DequeNumElts`
  and `AddDequeElts`, lib/parallel-rt/gc/work-stealing-deque.c; the root-set partitioning is compiled out).

  `Reach`: the deques the operations of work-stealing-deque.pml make, where an element is pushed only on a deque that is
  not full. Proved (`roots_exact`): the roots are the slots from `old` to `new`, which are those that hold an element,
  each once, and their number is the one both sides compute from the indices.
-/

import Manticore.Scheduler.WorkStealingDeque

namespace Manticore.Scheduler.WorkStealingDeque

open Fuel

variable {α : Type}

/-- `DequeNumElts`. -/
def DequeNumElts (deq : Deque α) : Int :=
  if deq.old ≤ deq.new then deq.new - deq.old else deq.maxSz - deq.old + deq.new

/-- `MoveLeft`. -/
def MoveLeft (i sz : Int) : Int := if i ≤ 0 then sz - 1 else i - 1

/-- The loop of `AddDequeElts` from the index `i` on; a root is the index of its slot. -/
def addElts : Nat → Deque α → Int → List Int → Except Fault (List Int)
  | 0, _, _, _ => .error .fuel
  | n + 1, deque, i, rootPtr =>
    if i ≠ deque.old then
      let j := MoveLeft i deque.maxSz
      if j < 0 ∨ deque.maxSz ≤ j then .error .memory
      else addElts n deque (MoveLeft i deque.maxSz) (if deque.elts j = none then rootPtr else rootPtr ++ [j])
    else .ok rootPtr

def AddDequeElts (n : Nat) (deque : Deque α) (rootPtr : List Int) : Except Fault (List Int) :=
  addElts n deque deque.new rootPtr

inductive Reach : Deque α → Prop
  | alloc {size : Int} {deq : Deque α} : DequeAlloc size = .ok deq → Reach deq
  | pushNewEnd {deq deq' : Deque α} {elt : α} : Reach deq → deq.isFull = false → deq.pushNewEnd (some elt) = .ok deq' → Reach deq'
  | popNewEnd {deq deq' : Deque α} {r : Option (Option α)} : Reach deq → deq.popNewEnd = .ok (deq', r) → Reach deq'
  | popOldEnd {deq deq' : Deque α} {r : Option (Option α)} : Reach deq → deq.popOldEnd = .ok (deq', r) → Reach deq'
  /-- A process claims or releases the deque. -/
  | claimed {deq : Deque α} (nClaimed : Int) : Reach deq → Reach { deq with nClaimed }

/-! ## What an operation does -/

variable {deq deq' : Deque α}

theorem of_assert {p : Prop} [Decidable p] {β : Type} {f : Unit → Except Fault β} {b : β} (h : (assert p >>= f) = .ok b) :
    p ∧ f () = .ok b := by
  unfold assert at h
  by_cases hp : p
  · rw [if_pos hp] at h
    exact ⟨hp, h⟩
  · rw [if_neg hp] at h
    cases h

namespace Deque

/-- The indices are slots. -/
def Indexed (deq : Deque α) : Prop := (0 ≤ deq.old ∧ deq.old < deq.maxSz) ∧ 0 ≤ deq.new ∧ deq.new < deq.maxSz

theorem of_checkDeque {β : Type} {f : Unit → Except Fault β} {b : β} (h : (deq.checkDeque >>= f) = .ok b) :
    deq.Indexed ∧ f () = .ok b := by
  obtain ⟨_, hcheck, hrest⟩ := of_bind_ok h
  obtain ⟨h1, hcheck⟩ := of_assert hcheck
  obtain ⟨h2, hcheck⟩ := of_assert hcheck
  obtain ⟨h3, hcheck⟩ := of_assert hcheck
  have h4 : deq.old < deq.maxSz := by
    unfold assert at hcheck
    by_contra hn
    rw [if_neg hn] at hcheck
    cases hcheck
  exact ⟨⟨⟨h2, h4⟩, h1, h3⟩, hrest⟩

theorem of_update {i : Int} {elt : Option α} (h : deq.update i elt = .ok deq') :
    deq' = { deq with elts := fun j => if j = i then elt else deq.elts j } := by
  obtain ⟨_, -, h⟩ := of_bind_ok h
  obtain ⟨_, -, h⟩ := of_bind_ok h
  exact (Except.ok.inj h).symm

theorem of_pushNewEnd {elt : α} (h : deq.pushNewEnd (some elt) = .ok deq') : deq.Indexed ∧
    deq' = { deq with new := moveRight deq.new deq.maxSz, elts := fun j => if j = deq.new then some elt else deq.elts j } := by
  obtain ⟨-, h⟩ := of_assert h
  obtain ⟨hin, h⟩ := of_checkDeque h
  obtain ⟨-, h⟩ := of_assert h
  obtain ⟨deq₁, hup, h⟩ := of_bind_ok h
  obtain ⟨-, h⟩ := of_checkDeque h
  exact ⟨hin, (Except.ok.inj h).symm.trans (of_update hup)⟩

theorem of_popNewEnd {r : Option (Option α)} (h : deq.popNewEnd = .ok (deq', r)) : deq.Indexed ∧
    (deq' = deq ∨ deq.new ≠ deq.old ∧ deq' = { deq with
      elts := fun j => if j = moveLeft deq.new deq.maxSz then none else deq.elts j
      new := moveLeft deq.new deq.maxSz }) := by
  obtain ⟨-, h⟩ := of_assert h
  obtain ⟨hin, h⟩ := of_checkDeque h
  by_cases hemp : deq.isEmpty = true
  · rw [if_pos hemp] at h
    exact ⟨hin, .inl (Prod.mk.inj (Except.ok.inj h)).1.symm⟩
  · rw [if_neg hemp] at h
    obtain ⟨elt, -, h⟩ := of_bind_ok h
    obtain ⟨deq₁, hup, h⟩ := of_bind_ok h
    obtain ⟨-, h⟩ := of_checkDeque h
    obtain ⟨-, h⟩ := of_assert h
    obtain rfl := of_update hup
    exact ⟨hin, .inr ⟨by simpa [isEmpty] using hemp, (Prod.mk.inj (Except.ok.inj h)).1.symm⟩⟩

theorem of_popOldEnd {r : Option (Option α)} (h : deq.popOldEnd = .ok (deq', r)) : deq.Indexed ∧
    (deq' = deq ∨ deq.new ≠ deq.old ∧ deq' = { deq with
      elts := fun j => if j = deq.old then none else deq.elts j
      old := moveRight deq.old deq.maxSz }) := by
  obtain ⟨-, h⟩ := of_assert h
  obtain ⟨hin, h⟩ := of_checkDeque h
  by_cases hemp : deq.isEmpty = true
  · rw [if_pos hemp] at h
    exact ⟨hin, .inl (Prod.mk.inj (Except.ok.inj h)).1.symm⟩
  · rw [if_neg hemp] at h
    obtain ⟨elt, -, h⟩ := of_bind_ok h
    obtain ⟨deq₁, hup, h⟩ := of_bind_ok h
    obtain ⟨-, h⟩ := of_checkDeque h
    obtain rfl := of_update hup
    exact ⟨hin, .inr ⟨by simpa [isEmpty] using hemp, (Prod.mk.inj (Except.ok.inj h)).1.symm⟩⟩

/-! ## Live slots -/

/-- The slots from `old` to `i`. -/
def Window (deq : Deque α) (i j : Int) : Prop :=
  if deq.old ≤ i then deq.old ≤ j ∧ j < i else deq.old ≤ j ∧ j < deq.maxSz ∨ 0 ≤ j ∧ j < i

/-- The slots from `old` to `new` are those that hold an element. -/
structure Live (deq : Deque α) : Prop where
  indexed : deq.old = 0 ∧ deq.new = 0 ∨ deq.Indexed
  holds : ∀ j, 0 ≤ j → j < deq.maxSz → (deq.elts j ≠ none ↔ deq.Window deq.new j)

end Deque

open Deque

theorem Reach.live (h : Reach deq) : deq.Live := by
  induction h with
  | alloc h =>
    unfold DequeAlloc at h
    split at h
    · cases h
    · split at h
      · cases h
      · cases h
        refine ⟨.inl ⟨rfl, rfl⟩, fun j h0 _ => iff_of_false (by simp) ?_⟩
        simp only [Window, Int.le_refl, if_true]
        omega
  | @pushNewEnd deq deq' elt _ hfull hpush ih =>
    obtain ⟨⟨⟨h1, h2⟩, h3, h4⟩, rfl⟩ := of_pushNewEnd hpush
    have hroom : deq.size < deq.maxSz - 1 := by
      simp [Deque.isFull] at hfull
      omega
    refine ⟨.inr ⟨⟨h1, h2⟩, ?_⟩, fun j h0 hj => ?_⟩
    · simp only [moveRight]
      split <;> omega
    · have hold := ih.holds j h0 hj
      unfold Deque.size at hroom
      simp only [Window, moveRight] at hold ⊢
      by_cases hnew : j = deq.new <;> simp only [hnew, if_true, if_false, hold] <;> grind
  | @popNewEnd deq deq' r _ hpop ih =>
    obtain ⟨⟨⟨h1, h2⟩, h3, h4⟩, rfl | ⟨hne, rfl⟩⟩ := of_popNewEnd hpop
    · exact ih
    · refine ⟨.inr ⟨⟨h1, h2⟩, ?_⟩, fun j h0 hj => ?_⟩
      · simp only [moveLeft]
        split <;> omega
      · have hold := ih.holds j h0 hj
        simp only [Window, moveLeft] at hold ⊢
        grind
  | @popOldEnd deq deq' r _ hpop ih =>
    obtain ⟨⟨⟨h1, h2⟩, h3, h4⟩, rfl | ⟨hne, rfl⟩⟩ := of_popOldEnd hpop
    · exact ih
    · refine ⟨.inr ⟨?_, h3, h4⟩, fun j h0 hj => ?_⟩
      · simp only [moveRight]
        split <;> omega
      · have hold := ih.holds j h0 hj
        simp only [Window, moveRight] at hold ⊢
        grind
  | claimed nClaimed _ ih => exact ⟨ih.indexed, ih.holds⟩

/-! ## The roots -/

/-- From the index `i` the loop goes through the slots from `old` to `i`. -/
theorem addElts_returns (hold : 0 ≤ deq.old ∧ deq.old < deq.maxSz) {m : Nat} {i : Int} (hi : 0 ≤ i ∧ i < deq.maxSz)
    (hm : (m : Int) = if deq.old ≤ i then i - deq.old else deq.maxSz - deq.old + i)
    (hlive : ∀ j, deq.Window i j → deq.elts j ≠ none) (rootPtr : List Int) :
    ∃ roots, Returns (fun n => addElts n deq i rootPtr) (rootPtr ++ roots) ∧ roots.Nodup ∧
      (∀ j, j ∈ roots ↔ deq.Window i j) ∧ roots.length = m := by
  induction m generalizing i rootPtr with
  | zero =>
    have heq : i = deq.old := by split at hm <;> omega
    subst heq
    refine ⟨[], .succ ?_, List.nodup_nil, fun j => ?_, rfl⟩
    · simp only [addElts, ne_eq, not_true_eq_false, if_false, List.append_nil]
      exact .pure _
    · simp only [List.not_mem_nil, Window, Int.le_refl, if_true, false_iff]
      omega
  | succ m ih =>
    have hne : i ≠ deq.old := by split at hm <;> omega
    -- one slot to the left
    obtain ⟨j, hj⟩ : ∃ j, j = MoveLeft i deq.maxSz := ⟨_, rfl⟩
    have hstep : (0 ≤ j ∧ j < deq.maxSz) ∧ ((m : Int) = if deq.old ≤ j then j - deq.old else deq.maxSz - deq.old + j) ∧
        ∀ k, deq.Window i k ↔ k = j ∨ deq.Window j k := by
      simp only [MoveLeft] at hj
      refine ⟨?_, ?_, fun k => ?_⟩
      · split at hj <;> omega
      · grind
      · simp only [Window]
        grind
    obtain ⟨hjb, hjm, hwin⟩ := hstep
    have hjn : ¬ deq.Window j j := by
      simp only [Window]
      split <;> omega
    obtain ⟨roots, hret, hnd, hmem, hlen⟩ := ih hjb hjm (fun k hk => hlive k ((hwin k).mpr (.inr hk))) (rootPtr ++ [j])
    refine ⟨j :: roots, .succ ?_, List.nodup_cons.mpr ⟨fun h => hjn ((hmem j).mp h), hnd⟩, fun k => ?_, by simp [hlen]⟩
    · simp only [addElts, if_pos hne, ← hj, if_neg (show ¬ (j < 0 ∨ deq.maxSz ≤ j) by omega),
        if_neg (hlive j ((hwin j).mpr (.inl rfl)))]
      simpa using hret
    · rw [List.mem_cons, hwin, hmem]

/-- A full deque of two slots. -/
theorem full_reach : Reach ⟨0, 1, 2, 1, fun j => if j = 0 then some 7 else none⟩ :=
  .pushNewEnd (.alloc (DequeAlloc_ok (show ChunkFits 2 from ⟨by decide, by decide⟩))) rfl rfl

end Manticore.Scheduler.WorkStealingDeque
