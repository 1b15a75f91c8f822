/-
  Manticore.Library.LinkedList — lists linked by a `next` field.

  `Linked next o l`: following `next` from `o` visits the elements of `l` and ends. A change of the field of an
  element outside the list keeps it; `Linked.push` and `Linked.snoc` add an element at either end.
-/

import Mathlib

namespace LinkedList

variable {α : Type} {next next' : α → Option α}

def Linked (next : α → Option α) : Option α → List α → Prop
  | o, [] => o = none
  | o, a :: l => o = some a ∧ Linked next (next a) l

variable {o : Option α} {a : α} {l : List α}

@[simp] theorem linked_nil : Linked next o [] ↔ o = none := Iff.rfl

@[simp] theorem linked_cons : Linked next o (a :: l) ↔ o = some a ∧ Linked next (next a) l := Iff.rfl

theorem linked_none : Linked next none l ↔ l = [] := by
  cases l <;> simp

theorem Linked.head (h : Linked next o l) : o = l.head? := by
  cases l with
  | nil => exact h
  | cons a l => exact h.1

/-- Only the fields of the elements matter. -/
theorem Linked.congr (h : Linked next o l) (hn : ∀ a ∈ l, next' a = next a) : Linked next' o l := by
  induction l generalizing o with
  | nil => exact h
  | cons a l ih =>
    simp_all

theorem Linked.push (h : Linked next o l) (ha : next' a = o) (hn : ∀ b ∈ l, next' b = next b) :
    Linked next' (some a) (a :: l) := by
  refine ⟨rfl, ?_⟩
  rw [ha]
  exact h.congr hn

/-- A new last element. -/
theorem Linked.snoc {c : α} (h : Linked next o (l ++ [a])) (hn : ∀ b ∈ l, next' b = next b) (ha : next' a = some c)
    (hc : next' c = none) : Linked next' o (l ++ [a, c]) := by
  induction l generalizing o with
  | nil => exact ⟨h.1, ha, hc⟩
  | cons b l ih =>
    simp_all

/-- An element other than the first is taken out: the one before it gets its field. -/
theorem Linked.remove {b : α} {r : List α} (h : Linked next o (l ++ b :: a :: r))
    (hn : ∀ c, c ∈ l ∨ c ∈ r → next' c = next c) (hb : next' b = next a) : Linked next' o (l ++ b :: r) := by
  induction l generalizing o with
  | nil =>
    refine ⟨h.1, ?_⟩
    rw [hb]
    exact h.2.2.congr fun c hc => hn c (.inr hc)
  | cons c l ih =>
    refine ⟨h.1, ?_⟩
    rw [hn c (.inl List.mem_cons_self)]
    exact ih h.2 fun e he => hn e (he.imp (List.mem_cons_of_mem _) id)

/-- What a part of the list is linked from. -/
theorem Linked.right {r : List α} (h : Linked next o (l ++ a :: r)) : next a = r.head? := by
  induction l generalizing o with
  | nil => exact Linked.head h.2
  | cons b l ih => exact ih h.2

/-- The last element links to nothing. -/
theorem Linked.last (h : Linked next o (l ++ [a])) : next a = none := by
  induction l generalizing o with
  | nil => exact h.2
  | cons b l ih => exact ih h.2

end LinkedList
