/-
  Manticore.Library.Pieces — work on the pieces of a sequence, from left to right.

  `Work` says which results finish a piece from a state, what state the piece leads to, and how results of neighbours
  are put together. `DoneAll` is the work on a list of pieces, each from the state the ones before it lead to; it
  splits along an append, and is indifferent to the order of pieces that may be exchanged (`Swap`).
-/

import Mathlib

namespace Pieces

/-- Work on pieces of type `α` with results of type `β`. -/
structure Work (σ α β : Type) where
  done : σ → α → β → Prop
  adv : σ → α → σ
  put : β → β → β

variable {σ α β : Type} (w : Work σ α β)

namespace Work

/-- The state after a list of pieces. -/
def advAll (s : σ) (as : List α) : σ := as.foldl w.adv s

def DoneAll : σ → List α → List β → Prop
  | _, [], [] => True
  | s, a :: as, b :: bs => w.done s a b ∧ DoneAll (w.adv s a) as bs
  | _, _, _ => False

variable {w} {s : σ} {as as' : List α} {bs bs' : List β} {a : α} {b : β}

theorem advAll_append : w.advAll s (as ++ as') = w.advAll (w.advAll s as) as' := List.foldl_append

theorem advAll_cons : w.advAll s (a :: as) = w.advAll (w.adv s a) as := rfl

theorem doneAll_singleton : w.DoneAll s [a] [b] ↔ w.done s a b := and_iff_left trivial

theorem DoneAll.length_eq (h : w.DoneAll s as bs) : bs.length = as.length := by
  induction as generalizing s bs with
  | nil =>
    cases bs with
    | nil => rfl
    | cons b bs => exact h.elim
  | cons a as ih =>
    cases bs with
    | nil => exact h.elim
    | cons b bs => exact congrArg (· + 1) (ih h.2)

theorem DoneAll.append (h : w.DoneAll s as bs) (h' : w.DoneAll (w.advAll s as) as' bs') :
    w.DoneAll s (as ++ as') (bs ++ bs') := by
  induction as generalizing s bs with
  | nil =>
    cases bs with
    | nil => exact h'
    | cons b bs => exact h.elim
  | cons a as ih =>
    cases bs with
    | nil => exact h.elim
    | cons b bs => exact ⟨h.1, ih h.2 h'⟩

/-- The results of an append are those of its parts. -/
theorem DoneAll.of_append {cs : List β} (h : w.DoneAll s (as ++ as') cs) :
    ∃ bs bs', cs = bs ++ bs' ∧ w.DoneAll s as bs ∧ w.DoneAll (w.advAll s as) as' bs' := by
  induction as generalizing s cs with
  | nil => exact ⟨[], cs, rfl, trivial, h⟩
  | cons a as ih =>
    cases cs with
    | nil => exact h.elim
    | cons b cs =>
      obtain ⟨bs, bs', rfl, hbs, hbs'⟩ := ih h.2
      exact ⟨b :: bs, bs', rfl, ⟨h.1, hbs⟩, hbs'⟩

theorem DoneAll.of_cons {cs : List β} (h : w.DoneAll s (a :: as) cs) :
    ∃ b bs, cs = b :: bs ∧ w.done s a b ∧ w.DoneAll (w.adv s a) as bs := by
  cases cs with
  | nil => exact h.elim
  | cons b bs => exact ⟨b, bs, rfl, h.1, h.2⟩

/-! ## In another order -/

/-- Neighbours that may be exchanged. -/
def Swap (w : Work σ α β) (a a' : α) : Prop :=
  ∀ s, w.adv (w.adv s a) a' = w.adv (w.adv s a') a ∧
    ∀ b b', w.done s a b → w.done (w.adv s a) a' b' → w.done s a' b' ∧ w.done (w.adv s a') a b

theorem swap_of_still (hstill : ∀ s a, w.adv s a = s) (a a' : α) : w.Swap a a' := by
  intro s
  rw [hstill, hstill, hstill, hstill]
  exact ⟨rfl, fun b b' hb hb' => ⟨hb', hb⟩⟩

/-- The first piece moved behind the others. -/
theorem DoneAll.rotate (hswap : ∀ a' ∈ as, w.Swap a a') (hb : w.done s a b) (h : w.DoneAll (w.adv s a) as bs) :
    w.DoneAll s (as ++ [a]) (bs ++ [b]) ∧ w.advAll s (as ++ [a]) = w.advAll (w.adv s a) as := by
  induction as generalizing s bs with
  | nil =>
    obtain rfl : bs = [] := List.eq_nil_of_length_eq_zero h.length_eq
    exact ⟨doneAll_singleton.mpr hb, rfl⟩
  | cons a' as ih =>
    obtain ⟨b', bs, rfl, hb', hbs⟩ := h.of_cons
    obtain ⟨hadv, hdone⟩ := hswap a' List.mem_cons_self s
    obtain ⟨hfirst, hlast⟩ := hdone b b' hb hb'
    rw [hadv] at hbs
    obtain ⟨hall, hstate⟩ := ih (fun x hx => hswap x (List.mem_cons_of_mem _ hx)) hlast hbs
    refine ⟨⟨hfirst, hall⟩, ?_⟩
    rw [List.cons_append, advAll_cons, advAll_cons, hadv]
    exact hstate

theorem DoneAll.reverse (hswap : as.Pairwise w.Swap) (h : w.DoneAll s as bs) :
    w.DoneAll s as.reverse bs.reverse ∧ w.advAll s as.reverse = w.advAll s as := by
  induction as generalizing s bs with
  | nil =>
    obtain rfl : bs = [] := List.eq_nil_of_length_eq_zero h.length_eq
    exact ⟨trivial, rfl⟩
  | cons a as ih =>
    obtain ⟨b, bs, rfl, hb, hbs⟩ := h.of_cons
    obtain ⟨hfirst, hrest⟩ := List.pairwise_cons.mp hswap
    obtain ⟨hall, hstate⟩ := ih hrest hbs
    obtain ⟨hall', hstate'⟩ := DoneAll.rotate (fun x hx => hfirst x (List.mem_reverse.mp hx)) hb hall
    rw [List.reverse_cons, List.reverse_cons]
    exact ⟨hall', hstate'.trans hstate⟩

end Work

end Pieces
