/-
  Manticore.Synch.Cilk5Deque — the concurrent deque of lib/basis/synch/cilk-5-deque.pml,
  one atomic step at a time, and the double-ended list it implements.

  Parties. The owner pushes and pops at the tail; any number of thieves steal at the head.
  A step is one read, one write, one fetch-and-add or one lock operation. A spin lock that
  is taken is tried again, so acquiring is one step that waits until it is free. `none` in
  the array is enum(0), what a taken element is overwritten with. `log` lists what the
  operations have returned; a push returns with its last store, of the tail.

  The owner's `let t` inside the branch for contention shadows the outer one, which is the
  index the frame is taken from; both are kept (`againHd t t'`).

  `freeSpace` runs when the tail has reached DEQUE_SZ. `copyDeque` stores the element of
  index `i` at `H - i`, and the new tail is `t - T`, where `T` is still `t`.

  Over it, `Spec` is the deque as a list: each operation is called, takes effect at one step
  between and returns what it took. `Spec.books` accounts for every element there.
-/

import Mathlib

namespace Manticore.Synch.Cilk5Deque

open Function (update)

def DEQUE_SZ : Int := 2048

/-- Who has set the spin lock. -/
inductive Party (ι : Type) where
  | owner
  | thief (i : ι)
  deriving DecidableEq, Repr

/-- Where the owner is; `t` is the tail it has read or computed. -/
inductive OwnerPc (α : Type) where
  | idle
  /-- `@push-tl-from-atomic`, about to read the tail. -/
  | push (elt : α)
  | full (elt : α) (t : Int)
  | copyStart (elt : α) (t : Int)
  | copy (elt : α) (t i : Int)
  | copyHd (elt : α) (t i : Int) (x : Option α)
  | copyStore (elt : α) (t i : Int) (x : Option α) (h : Int)
  | subTail (elt : α) (t : Int)
  | storeHd (elt : α) (t : Int)
  | storeTl (elt : α) (t : Int)
  | unlockPush (elt : α) (t : Int)
  | store (elt : α) (t : Int)
  | bump (elt : α) (t : Int)
  /-- `@pop-tl-from-atomic`, about to decrement the tail. -/
  | pop
  | popHd (t : Int)
  | back (t : Int)
  | lockPop (t : Int)
  | again (t : Int)
  | againHd (t t' : Int)
  | empty
  | unlockNone
  | unlockPop (t : Int)
  | take (t : Int)
  | erase (t : Int) (frame : Option α)
  deriving DecidableEq, Repr

/-- Where a thief is in `@pop-hd-from-atomic`; `h` is the head it has incremented to. -/
inductive ThiefPc (α : Type) where
  | idle
  | spin
  | hd
  | tl (h : Int)
  | back
  | take (h : Int)
  | erase (h : Int) (frame : Option α)
  | unlock (r : Option (Option α))
  deriving DecidableEq, Repr

/-- An operation returns. -/
inductive Event (α ι : Type) where
  | pushed (elt : α)
  | popped (r : Option (Option α))
  | stole (i : ι) (r : Option (Option α))
  deriving DecidableEq, Repr

structure St (α ι : Type) where
  T : Int
  H : Int
  arr : Int → Option α
  lock : Option (Party ι)
  owner : OwnerPc α
  thief : ι → ThiefPc α
  log : List (Event α ι)

variable {α ι : Type}

/-- `@new`. -/
def St.new : St α ι :=
  { T := 0, H := 0, arr := fun _ => none, lock := none, owner := .idle, thief := fun _ => .idle, log := [] }

/-- A step of the owner. -/
inductive OwnerStep : St α ι → St α ι → Prop
  | callPush {s : St α ι} (elt : α) : s.owner = .idle → OwnerStep s { s with owner := .push elt }
  | readTl {s : St α ι} {elt : α} : s.owner = .push elt →
      OwnerStep s { s with owner := if s.T < DEQUE_SZ then .store elt s.T else .full elt s.T }
  | lockFull {s : St α ι} {elt : α} {t : Int} : s.owner = .full elt t → s.lock = none →
      OwnerStep s { s with lock := some .owner, owner := .copyStart elt t }
  | copyStart {s : St α ι} {elt : α} {t : Int} : s.owner = .copyStart elt t →
      OwnerStep s { s with owner := .copy elt t s.H }
  | copySub {s : St α ι} {elt : α} {t i : Int} : s.owner = .copy elt t i → i < DEQUE_SZ →
      OwnerStep s { s with owner := .copyHd elt t i (s.arr i) }
  | copyHd {s : St α ι} {elt : α} {t i : Int} {x : Option α} : s.owner = .copyHd elt t i x →
      OwnerStep s { s with owner := .copyStore elt t i x s.H }
  | copyStore {s : St α ι} {elt : α} {t i h : Int} {x : Option α} : s.owner = .copyStore elt t i x h →
      OwnerStep s { s with arr := update s.arr (h - i) x, owner := .copy elt t (i + 1) }
  | copyDone {s : St α ι} {elt : α} {t i : Int} : s.owner = .copy elt t i → ¬ i < DEQUE_SZ →
      OwnerStep s { s with owner := .subTail elt t }
  | subTail {s : St α ι} {elt : α} {t : Int} : s.owner = .subTail elt t →
      OwnerStep s { s with owner := .storeHd elt (t - s.T) }
  | storeHd {s : St α ι} {elt : α} {t : Int} : s.owner = .storeHd elt t →
      OwnerStep s { s with H := 0, owner := .storeTl elt t }
  | storeTl {s : St α ι} {elt : α} {t : Int} : s.owner = .storeTl elt t →
      OwnerStep s { s with T := t, owner := .unlockPush elt t }
  | unlockPush {s : St α ι} {elt : α} {t : Int} : s.owner = .unlockPush elt t →
      OwnerStep s { s with lock := none, owner := .store elt t }
  | store {s : St α ι} {elt : α} {t : Int} : s.owner = .store elt t →
      OwnerStep s { s with arr := update s.arr t (some elt), owner := .bump elt t }
  | bump {s : St α ι} {elt : α} {t : Int} : s.owner = .bump elt t →
      OwnerStep s { s with T := t + 1, owner := .idle, log := s.log ++ [.pushed elt] }
  | callPop {s : St α ι} : s.owner = .idle → OwnerStep s { s with owner := .pop }
  | popTl {s : St α ι} : s.owner = .pop → OwnerStep s { s with T := s.T - 1, owner := .popHd (s.T - 1) }
  | popHd {s : St α ι} {t : Int} : s.owner = .popHd t →
      OwnerStep s { s with owner := if s.H > t then .back t else .take t }
  | back {s : St α ι} {t : Int} : s.owner = .back t → OwnerStep s { s with T := s.T + 1, owner := .lockPop t }
  | lockPop {s : St α ι} {t : Int} : s.owner = .lockPop t → s.lock = none →
      OwnerStep s { s with lock := some .owner, owner := .again t }
  | again {s : St α ι} {t : Int} : s.owner = .again t →
      OwnerStep s { s with T := s.T - 1, owner := .againHd t (s.T - 1) }
  | againHd {s : St α ι} {t t' : Int} : s.owner = .againHd t t' →
      OwnerStep s { s with owner := if s.H > t' then .empty else .unlockPop t }
  | empty {s : St α ι} : s.owner = .empty → OwnerStep s { s with T := s.T + 1, owner := .unlockNone }
  | unlockNone {s : St α ι} : s.owner = .unlockNone →
      OwnerStep s { s with lock := none, owner := .idle, log := s.log ++ [.popped none] }
  | unlockPop {s : St α ι} {t : Int} : s.owner = .unlockPop t → OwnerStep s { s with lock := none, owner := .take t }
  | take {s : St α ι} {t : Int} : s.owner = .take t → OwnerStep s { s with owner := .erase t (s.arr t) }
  | erase {s : St α ι} {t : Int} {frame : Option α} : s.owner = .erase t frame →
      OwnerStep s { s with arr := update s.arr t none, owner := .idle, log := s.log ++ [.popped (some frame)] }

variable [DecidableEq ι]

/-- A step of the thief `i`. -/
inductive ThiefStep (i : ι) : St α ι → St α ι → Prop
  | callSteal {s : St α ι} : s.thief i = .idle → ThiefStep i s { s with thief := update s.thief i .spin }
  | lock {s : St α ι} : s.thief i = .spin → s.lock = none →
      ThiefStep i s { s with lock := some (.thief i), thief := update s.thief i .hd }
  | hd {s : St α ι} : s.thief i = .hd → ThiefStep i s { s with H := s.H + 1, thief := update s.thief i (.tl (s.H + 1)) }
  | tl {s : St α ι} {h : Int} : s.thief i = .tl h →
      ThiefStep i s { s with thief := update s.thief i (if h > s.T then .back else .take h) }
  | back {s : St α ι} : s.thief i = .back → ThiefStep i s { s with H := s.H - 1, thief := update s.thief i (.unlock none) }
  | take {s : St α ι} {h : Int} : s.thief i = .take h →
      ThiefStep i s { s with thief := update s.thief i (.erase h (s.arr (h - 1))) }
  | erase {s : St α ι} {h : Int} {frame : Option α} : s.thief i = .erase h frame →
      ThiefStep i s { s with arr := update s.arr (h - 1) none, thief := update s.thief i (.unlock (some frame)) }
  | unlock {s : St α ι} {r : Option (Option α)} : s.thief i = .unlock r →
      ThiefStep i s { s with lock := none, thief := update s.thief i .idle, log := s.log ++ [.stole i r] }

/-- Any party takes a step. -/
inductive Step : St α ι → St α ι → Prop
  | owner {s s' : St α ι} : OwnerStep s s' → Step s s'
  | thief {s s' : St α ι} (i : ι) : ThiefStep i s s' → Step s s'

/-! ## The deque as a list -/

/-- Where the owner's operation is: it has not taken effect yet, or holds what it returns. -/
inductive OwnerOp (α : Type) where
  | idle
  | push (elt : α)
  | pop
  | done (r : Option α)

inductive ThiefOp (α : Type) where
  | idle
  | steal
  | done (r : Option α)

/-- `q` from the head to the tail; `taken` lists who has taken which element. -/
structure Spec (α ι : Type) where
  q : List α
  owner : OwnerOp α
  thief : ι → ThiefOp α
  taken : List (Party ι × α)
  log : List (Event α ι)

omit [DecidableEq ι] in
def Spec.new : Spec α ι := { q := [], owner := .idle, thief := fun _ => .idle, taken := [], log := [] }

namespace Spec

inductive Step : Spec α ι → Spec α ι → Prop
  | callPush {a : Spec α ι} (elt : α) : a.owner = .idle → Step a { a with owner := .push elt }
  | push {a : Spec α ι} {elt : α} : a.owner = .push elt →
      Step a { a with q := a.q ++ [elt], owner := .idle, log := a.log ++ [.pushed elt] }
  | callPop {a : Spec α ι} : a.owner = .idle → Step a { a with owner := .pop }
  | pop {a : Spec α ι} {q : List α} {elt : α} : a.owner = .pop → a.q = q ++ [elt] →
      Step a { a with q := q, owner := .done (some elt), taken := a.taken ++ [(.owner, elt)] }
  | popNone {a : Spec α ι} : a.owner = .pop → a.q = [] → Step a { a with owner := .done none }
  | popped {a : Spec α ι} {r : Option α} : a.owner = .done r →
      Step a { a with owner := .idle, log := a.log ++ [.popped (r.map some)] }
  | callSteal {a : Spec α ι} (i : ι) : a.thief i = .idle → Step a { a with thief := update a.thief i .steal }
  | steal {a : Spec α ι} {q : List α} {elt : α} (i : ι) : a.thief i = .steal → a.q = elt :: q →
      Step a { a with q := q, thief := update a.thief i (.done (some elt)), taken := a.taken ++ [(.thief i, elt)] }
  /-- A thief backs off from an empty deque, or when the owner is popping. -/
  | miss {a : Spec α ι} (i : ι) : a.thief i = .steal → a.q = [] ∨ a.owner = .pop →
      Step a { a with thief := update a.thief i (.done none) }
  | stole {a : Spec α ι} {r : Option α} (i : ι) : a.thief i = .done r →
      Step a { a with thief := update a.thief i .idle, log := a.log ++ [.stole i (r.map some)] }

inductive Reach : Spec α ι → Prop
  | new : Reach Spec.new
  | step {a a' : Spec α ι} : Reach a → Step a a' → Reach a'

end Spec

/-- The elements pushed so far, in order. -/
def pushes : List (Event α ι) → List α
  | [] => []
  | .pushed elt :: log => elt :: pushes log
  | _ :: log => pushes log

/-- What the party has been handed, in order. -/
def returned (p : Party ι) : List (Event α ι) → List (Option α)
  | [] => []
  | .popped (some x) :: log => if p = .owner then x :: returned p log else returned p log
  | .stole i (some x) :: log => if p = .thief i then x :: returned p log else returned p log
  | _ :: log => returned p log

/-- What the party has taken and not handed out yet. -/
def Spec.hand (a : Spec α ι) : Party ι → List α
  | .owner => match a.owner with
    | .done r => r.toList
    | _ => []
  | .thief i => match a.thief i with
    | .done r => r.toList
    | _ => []

/-- The elements the party has taken, in order. -/
def takenBy (p : Party ι) (taken : List (Party ι × α)) : List α := (taken.filter fun e => e.1 = p).map (·.2)

omit [DecidableEq ι] in
theorem pushes_append (l m : List (Event α ι)) : pushes (l ++ m) = pushes l ++ pushes m := by
  induction l with
  | nil => rfl
  | cons e l ih => cases e <;> simp [pushes, ih]

theorem returned_append (p : Party ι) (l m : List (Event α ι)) : returned p (l ++ m) = returned p l ++ returned p m := by
  induction l with
  | nil => rfl
  | cons e l ih =>
    rcases e with elt | ⟨_ | x⟩ | ⟨i, _ | x⟩
    · exact ih
    · exact ih
    · simp only [List.cons_append, returned, ih]
      split <;> rfl
    · exact ih
    · simp only [List.cons_append, returned, ih]
      split <;> rfl

/-- Every element pushed has been taken by one party or is in the deque, and a party hands out
what it takes, in that order. -/
structure Spec.Books (a : Spec α ι) : Prop where
  once : (pushes a.log).Perm (a.taken.map (·.2) ++ a.q)
  handed : ∀ p, (takenBy p a.taken).map some = returned p a.log ++ (a.hand p).map some

namespace Spec

variable {a a' : Spec α ι}

theorem takenBy_snoc (l : List (Party ι × α)) (p p' : Party ι) (elt : α) :
    takenBy p (l ++ [(p', elt)]) = takenBy p l ++ if p' = p then [elt] else [] := by
  unfold takenBy
  rw [List.filter_append, List.map_append]
  by_cases h : p' = p <;> simp [h]

theorem Books.step (h : a.Books) (hs : Step a a') : a'.Books := by
  obtain ⟨honce, hhand⟩ := h
  cases hs with
  | callPush _ ho | callPop ho | popNone ho _ =>
    refine ⟨honce, fun p => ?_⟩
    simp [hand, ho, hhand]
  | push ho =>
    refine ⟨?_, fun p => ?_⟩
    · rw [pushes_append, ← List.append_assoc]
      exact honce.append_right _
    simp [returned_append, hand, ho, returned, hhand]
  | @pop q elt ho hq =>
    refine ⟨?_, fun p => ?_⟩
    · rw [hq] at honce
      simp only [List.map_append, List.map_cons, List.map_nil, List.append_assoc]
      exact honce.trans ((List.perm_append_comm).append_left _)
    · rw [takenBy_snoc, List.map_append, hhand p]
      cases p with
      | owner => simp [hand, ho]
      | thief i => simp [hand]
  | @popped r ho =>
    refine ⟨by simpa [pushes_append, pushes] using honce, fun p => ?_⟩
    rw [returned_append]
    cases p with
    | owner =>
      have := hhand .owner
      cases r <;> simpa [hand, ho, returned] using this
    | thief i =>
      have := hhand (.thief i)
      cases r <;> simpa [hand, returned] using this
  | callSteal i hi | miss i hi _ =>
    refine ⟨honce, fun p => ?_⟩
    cases p with
    | owner => exact hhand .owner
    | thief j =>
      by_cases hji : j = i
      · subst hji
        simpa [hand, hi] using hhand (.thief j)
      · simpa [hand, hji] using hhand (.thief j)
  | @steal q elt i hi hq =>
    refine ⟨?_, fun p => ?_⟩
    · rw [hq] at honce
      simpa using honce
    · rw [takenBy_snoc, List.map_append, hhand p]
      cases p with
      | owner => simp [hand]
      | thief j =>
        by_cases hji : j = i
        · subst hji
          simp [hand, hi]
        · simp [hand, hji, Ne.symm hji]
  | @stole r i hi =>
    refine ⟨by simpa [pushes_append, pushes] using honce, fun p => ?_⟩
    rw [returned_append]
    cases p with
    | owner =>
      have := hhand .owner
      cases r <;> simpa [hand, returned] using this
    | thief j =>
      have := hhand (.thief j)
      by_cases hji : j = i
      · subst hji
        cases r <;> simpa [hand, hi, returned] using this
      · cases r <;> simpa [hand, hji, returned] using this

/-- Each element is taken once at most, and handed to the one who takes it. -/
theorem books (h : Reach a) : a.Books := by
  induction h with
  | new => exact ⟨.refl _, fun p => by cases p <;> rfl⟩
  | step _ hs ih => exact ih.step hs

end Spec

end Manticore.Synch.Cilk5Deque
