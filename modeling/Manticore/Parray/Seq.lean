/-
  Manticore.Parray.Seq — the sequences at the leaves of ropes, with loops that can be interrupted
  (`basis/parray/vector-seq.pml`, `basis/sequential/vector.pml`; `int-seq.pml` is the same over an array of ints).

  A sequence is the list of its elements, and a loop over the indices is a recursion on the elements still to come.
  The test of an interruptible loop is `hungryProcs`: `Answers` are what it answers in one task, and the loop hands
  on the answers it has not asked for.
-/

import Mathlib

namespace Manticore.Parray

/-- What the code raises; `bounds` is an index outside a vector, `fuel` a run that has not ended. -/
inductive Exn where
  | fail (s : String)
  | bounds
  | fuel
  deriving DecidableEq, Repr

inductive Progress (α β : Type) where
  | more (a : α)
  | done (b : β)
  deriving DecidableEq, Repr

abbrev Answers := Nat → Bool

def Answers.rest (σ : Answers) : Answers := fun n => σ (n + 1)

namespace Seq

variable {α β γ : Type}

def sub (s : List α) (i : Int) : Except Exn α :=
  if 0 ≤ i then
    match s[i.toNat]? with
    | some x => .ok x
    | none => .error .bounds
  else .error .bounds

def take (s : List α) (n : Int) : List α := s.take n.toNat

def drop (s : List α) (n : Int) : List α := s.drop n.toNat

def split2 (s : List α) : List α × List α := (take s (s.length / 2 : Nat), drop s (s.length / 2 : Nat))

def tabulate (n : Int) (f : Int → α) : List α := (List.range n.toNat).map fun i : Nat => f i

/-- The loop of every function below: `lp (i, acc)` asks at each element whether to go on. -/
def loopUntil (step : γ → α → γ) : List α → γ → Answers → Progress (γ × List α) γ × Answers
  | [], acc, σ => (.done acc, σ)
  | x :: us, acc, σ => if σ 0 then (.more (acc, x :: us), σ.rest) else loopUntil step us (step acc x) σ.rest

/-- Over the indices from `lo` to `hi - 1`. -/
def tabulateUntil (σ : Answers) (intv : Int × Int) (f : Int → α) : Progress (List α) (List α) × Answers :=
  match loopUntil (fun xs i => f i :: xs) (tabulate (intv.2 - intv.1) (intv.1 + ·)) [] σ with
  | (.done xs, σ) => (.done xs.reverse, σ)
  | (.more (xs, _), σ) => (.more xs.reverse, σ)

def mapUntil (σ : Answers) (f : α → β) (s : List α) : Progress (List α × List β) (List β) × Answers :=
  match loopUntil (fun acc x => f x :: acc) s [] σ with
  | (.done acc, σ) => (.done acc.reverse, σ)
  | (.more (acc, us), σ) => (.more (us, acc.reverse), σ)

/-- `Vector.foldl`: the element is the first argument. -/
def reduce (f : α → α → α) (b : α) (s : List α) : α := s.foldl (fun a x => f x a) b

/-- Here the element is the second one. -/
def reduceUntil (σ : Answers) (f : α → α → α) (b : α) (s : List α) : Progress (α × List α) α × Answers :=
  loopUntil (fun acc x => f acc x) s b σ

def scan (f : α → α → α) (b : α) (s : List α) : List α :=
  (s.foldl (fun (acc, ss) x => (f x acc, acc :: ss)) (b, [])).2.reverse

def scanUntil (σ : Answers) (f : α → α → α) (b : α) (s : List α) :
    (α × Progress (List α × List α) (List α)) × Answers :=
  match loopUntil (fun (acc, xs) x => (f x acc, acc :: xs)) s (b, []) σ with
  | (.done (acc, xs), σ) => ((acc, .done xs.reverse), σ)
  | (.more ((acc, xs), us), σ) => ((acc, .more (us, xs.reverse)), σ)

def filterUntil (σ : Answers) (f : α → Bool) (s : List α) : Progress (List α × List α) (List α) × Answers :=
  match loopUntil (fun acc x => if f x then x :: acc else acc) s [] σ with
  | (.done acc, σ) => (.done acc.reverse, σ)
  | (.more (acc, us), σ) => (.more (us, acc.reverse), σ)

/-! ## The loops -/

/-- A loop ends, or stops before an element, with the elements before it folded. -/
theorem loopUntil_cases (step : γ → α → γ) (s : List α) (acc : γ) (σ : Answers) :
    (∃ σ', loopUntil step s acc σ = (.done (s.foldl step acc), σ')) ∨
    ∃ ps us σ', s = ps ++ us ∧ us ≠ [] ∧ loopUntil step s acc σ = (.more (ps.foldl step acc, us), σ') := by
  induction s generalizing acc σ with
  | nil => exact .inl ⟨σ, rfl⟩
  | cons x us ih =>
    unfold loopUntil
    by_cases hstop : σ 0 = true
    · rw [if_pos hstop]
      exact .inr ⟨[], x :: us, σ.rest, rfl, List.cons_ne_nil _ _, rfl⟩
    · rw [if_neg hstop]
      rcases ih (step acc x) σ.rest with hdone | ⟨ps, us', σ', hs, hne, hmore⟩
      · exact .inl hdone
      · exact .inr ⟨x :: ps, us', σ', by rw [hs]; rfl, hne, hmore⟩

/-- Without an interruption. -/
theorem loopUntil_never (step : γ → α → γ) (s : List α) (acc : γ) :
    loopUntil step s acc (fun _ => false) = (.done (s.foldl step acc), fun _ => false) := by
  induction s generalizing acc with
  | nil => rfl
  | cons x us ih => exact ih (step acc x)

theorem foldl_map_reverse (f : α → β) (s : List α) (acc : List β) :
    (s.foldl (fun acc x => f x :: acc) acc).reverse = acc.reverse ++ s.map f := by
  simp

theorem foldl_filter_reverse (f : α → Bool) (s : List α) (acc : List α) :
    (s.foldl (fun acc x => if f x then x :: acc else acc) acc).reverse = acc.reverse ++ s.filter f := by
  induction s generalizing acc with
  | nil => exact (List.append_nil _).symm
  | cons x s ih =>
    rw [List.foldl_cons, ih, List.filter_cons]
    split
    · rw [List.reverse_cons, List.append_assoc]
      rfl
    · rfl

theorem mapUntil_cases (σ : Answers) (f : α → β) (s : List α) :
    (∃ σ', mapUntil σ f s = (.done (s.map f), σ')) ∨
    ∃ ps us σ', s = ps ++ us ∧ us ≠ [] ∧ mapUntil σ f s = (.more (us, ps.map f), σ') := by
  unfold mapUntil
  rcases loopUntil_cases (fun acc x => f x :: acc) s [] σ with ⟨σ', hdone⟩ | ⟨ps, us, σ', hs, hne, hmore⟩
  · simp_all
  simp_all

theorem filterUntil_cases (σ : Answers) (f : α → Bool) (s : List α) :
    (∃ σ', filterUntil σ f s = (.done (s.filter f), σ')) ∨
    ∃ ps us σ', s = ps ++ us ∧ us ≠ [] ∧ filterUntil σ f s = (.more (us, ps.filter f), σ') := by
  unfold filterUntil
  rcases loopUntil_cases (fun acc x => if f x then x :: acc else acc) s [] σ with
    ⟨σ', hdone⟩ | ⟨ps, us, σ', hs, hne, hmore⟩
  · exact .inl ⟨σ', by rw [hdone]; exact congrArg (fun xs => (Progress.done xs, σ')) (foldl_filter_reverse f s [])⟩
  · refine .inr ⟨ps, us, σ', hs, hne, ?_⟩
    rw [hmore]
    exact congrArg (fun xs => (Progress.more (us, xs), σ')) (foldl_filter_reverse f ps [])

theorem length_tabulate (n : Int) (f : Int → α) : (tabulate n f).length = n.toNat := by
  rw [tabulate, List.length_map, List.length_range]

end Seq

end Manticore.Parray
