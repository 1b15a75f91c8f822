/-
  Manticore.Synch.Cilk5DequeProofs — the concurrent deque refines the list, as long as the
  tail reaches the end of the array only over an empty deque (see `Manticore.Synch.Cilk5Deque`).

  The elements lie between `St.head` and `tail`: a thief that has incremented the head and
  not yet compared it, and an owner that has decremented the tail and not yet compared it,
  have not taken anything. A pop takes effect when the owner reads a head that is not above
  the tail, a steal when the thief reads a tail that is not below the head. At most one of
  the two can take the last element: whichever reads second sees the other's update.

  Proved: in every run in which `copyDeque` finds the deque empty each time it is called,
  every state agrees with a run of the list (`cilk5_refines_list`). With one element left in the full array, re-basing
  loses it (`rebase_loses`).
-/

import Manticore.Synch.Cilk5Deque

namespace Manticore.Synch.Cilk5Deque

open Function (update update_of_ne update_self update_eq_self)
open List (length_append length_singleton replicate)

variable {α ι : Type} {arr : Int → Option α}

/-! ## Where the elements are -/

/-- The owner holds the lock. -/
def OwnerPc.crit : OwnerPc α → Bool
  | .copyStart .. | .copy .. | .copyHd .. | .copyStore .. | .subTail .. | .storeHd .. | .storeTl .. | .unlockPush .. => true
  | .again .. | .againHd .. | .empty | .unlockNone | .unlockPop .. => true
  | _ => false

/-- The thief holds the lock. -/
def ThiefPc.crit : ThiefPc α → Bool
  | .idle | .spin => false
  | _ => true

/-- The thief has incremented the head without having taken an element. -/
def ThiefPc.lead : ThiefPc α → Int
  | .tl _ | .back => 1
  | _ => 0

/-- The index of the element at the head. -/
def St.head (s : St α ι) : Int :=
  s.H - match s.lock with
    | some (.thief i) => (s.thief i).lead
    | _ => 0

/-- The index after the element at the tail. -/
def tail (T : Int) : OwnerPc α → Int
  | .popHd _ | .back _ | .againHd .. | .empty => T + 1
  | .storeTl .. => 0
  | _ => T

/-- What the owner has read agrees with the memory and with the operation it performs. -/
def OwnerRel (T : Int) (arr : Int → Option α) (q : List α) : OwnerPc α → OwnerOp α → Prop
  | .idle, op => op = .idle
  | .push elt, op => op = .push elt
  | .full elt t, op | .copyStart elt t, op => op = .push elt ∧ t = T ∧ T = DEQUE_SZ
  | .copy elt t i, op => op = .push elt ∧ t = T ∧ T = DEQUE_SZ ∧ q = [] ∧ i = DEQUE_SZ
  | .copyHd .., _ | .copyStore .., _ => False
  | .subTail elt t, op => op = .push elt ∧ t = T ∧ T = DEQUE_SZ ∧ q = []
  | .storeHd elt t, op | .storeTl elt t, op => op = .push elt ∧ t = 0 ∧ q = []
  | .unlockPush elt t, op => op = .push elt ∧ t = T ∧ T = 0
  | .store elt t, op => op = .push elt ∧ t = T ∧ T < DEQUE_SZ
  | .bump elt t, op => op = .push elt ∧ t = T ∧ T < DEQUE_SZ ∧ arr t = some elt
  | .pop, op => op = .pop
  | .popHd t, op | .back t, op => op = .pop ∧ t = T
  | .lockPop t, op | .again t, op => op = .pop ∧ t = T - 1
  | .againHd t t', op => op = .pop ∧ t = T ∧ t' = T
  | .empty, op | .unlockNone, op => op = .done none
  | .unlockPop t, op | .take t, op => ∃ x, op = .done (some x) ∧ t = T ∧ arr t = some x ∧ t < DEQUE_SZ
  | .erase t frame, op => ∃ x, op = .done (some x) ∧ t = T ∧ frame = some x

def ThiefRel (H : Int) (arr : Int → Option α) : ThiefPc α → ThiefOp α → Prop
  | .idle, op => op = .idle
  | .spin, op | .hd, op => op = .steal
  | .tl h, op => op = .steal ∧ h = H
  | .back, op => op = .done none
  | .take h, op => ∃ x, op = .done (some x) ∧ h = H ∧ arr (h - 1) = some x
  | .erase h frame, op => ∃ x, op = .done (some x) ∧ h = H ∧ frame = some x
  | .unlock r, op => ∃ r', op = .done r' ∧ r = r'.map some

/-- The deque holds the list, and every party is where its operation is. -/
structure Sim (s : St α ι) (a : Spec α ι) : Prop where
  log : a.log = s.log
  low : 0 ≤ s.head
  len : s.head + a.q.length = tail s.T s.owner
  high : tail s.T s.owner ≤ DEQUE_SZ
  cells : ∀ k : Nat, k < a.q.length → s.arr (s.head + k) = a.q[k]?
  owner : OwnerRel s.T s.arr a.q s.owner a.owner
  thief : ∀ i, ThiefRel s.H s.arr (s.thief i) (a.thief i)
  ownerLock : s.owner.crit = true ↔ s.lock = some .owner
  thiefLock : ∀ i, (s.thief i).crit = true ↔ s.lock = some (.thief i)

variable {s s' : St α ι} {a : Spec α ι}

theorem sim_new : Sim (St.new : St α ι) Spec.new where
  log := rfl
  low := Int.le_refl 0
  len := rfl
  high := by simp [tail, St.new, DEQUE_SZ]
  cells := fun _ hk => absurd hk (Nat.not_lt_zero _)
  owner := rfl
  thief := fun _ => rfl
  ownerLock := by simp [St.new, OwnerPc.crit]
  thiefLock := by simp [St.new, ThiefPc.crit]

/-! ## Frames -/

/-- A thief without the lock has read nothing. -/
theorem ThiefRel.outside {H H' : Int} {arr' : Int → Option α} {pc : ThiefPc α} {op : ThiefOp α} (hpc : ¬ pc.crit = true)
    (h : ThiefRel H arr pc op) : ThiefRel H' arr' pc op := by
  cases pc with
  | idle | spin => exact h
  | hd | tl | back | take | erase | unlock => exact absurd rfl hpc

variable {t : Int} {pc : OwnerPc α} {op : OwnerOp α}

/-- Only the element a thief is about to read matters to it. -/
theorem ThiefRel.write {H : Int} {pc : ThiefPc α} {op : ThiefOp α} {x : Option α}
    (hne : ∀ h, pc = .take h → h - 1 ≠ t) (h : ThiefRel H arr pc op) : ThiefRel H (update arr t x) pc op := by
  cases pc with
  | take h' =>
    obtain ⟨y, hop, hh, hy⟩ := h
    exact ⟨y, hop, hh, by rwa [update_of_ne (hne h' rfl)]⟩
  | idle | spin | hd | tl | back | erase | unlock => exact h

theorem Sim.head_le (h : Sim s a) : s.head ≤ tail s.T s.owner := by
  have := h.len
  omega

theorem St.head_of_thief (s : St α ι) {i : ι} (hl : s.lock = some (.thief i)) : s.head = s.H - (s.thief i).lead := by
  simp only [St.head, hl]

theorem St.head_of_not_thief (hl : ∀ i, s.lock ≠ some (.thief i)) : s.head = s.H := by
  unfold St.head
  split
  · next i hi => exact absurd hi (hl i)
  · omega

theorem St.head_le_H (s : St α ι) : s.head ≤ s.H := by
  unfold St.head
  split
  · next i _ => cases s.thief i <;> simp only [ThiefPc.lead] <;> omega
  · omega

/-- A thief that reads its element reads below the elements that are left. -/
theorem Sim.take_below (h : Sim s a) {i : ι} {h' : Int} (hi : s.thief i = .take h') : h' = s.head := by
  have hl := (h.thiefLock i).1 (by rw [hi]; rfl)
  have hr := h.thief i
  rw [hi] at hr
  obtain ⟨_, _, hh, _⟩ := hr
  rw [St.head_of_thief _ hl, hi, hh]
  simp [ThiefPc.lead]

/-! ## Steps of the owner -/

/-- An operation returns. -/
theorem Sim.record (h : Sim s a) (e : Event α ι) : Sim { s with log := s.log ++ [e] } { a with log := a.log ++ [e] } :=
  { h with log := congrArg (· ++ [e]) h.log }

/-- The owner moves on, and at most the tail changes, so that the elements stay. -/
theorem Sim.move (h : Sim s a) {T : Int} (htail : tail T pc = tail s.T s.owner) (hcrit : pc.crit = s.owner.crit)
    (hrel : OwnerRel T s.arr a.q pc op) : Sim { s with T := T, owner := pc } { a with owner := op } where
  log := h.log
  low := h.low
  len := h.len.trans htail.symm
  high := by rw [htail]; exact h.high
  cells := h.cells
  owner := hrel
  thief := h.thief
  ownerLock := by rw [hcrit]; exact h.ownerLock
  thiefLock := h.thiefLock

/-- The owner takes the lock. -/
theorem Sim.acquire (h : Sim s a) (hl : s.lock = none) (htail : tail s.T pc = tail s.T s.owner)
    (hcrit : pc.crit = true) (hrel : OwnerRel s.T s.arr a.q pc a.owner) :
    Sim { s with lock := some .owner, owner := pc } a := by
  have hhead : St.head { s with lock := some .owner, owner := pc } = s.head := by
    rw [St.head_of_not_thief (by simp), St.head_of_not_thief (by simp [hl])]
  exact
    { log := h.log
      low := by rw [hhead]; exact h.low
      len := by rw [hhead]; exact h.len.trans htail.symm
      high := by rw [htail]; exact h.high
      cells := by rw [hhead]; exact h.cells
      owner := hrel
      thief := h.thief
      ownerLock := ⟨fun _ => rfl, fun _ => hcrit⟩
      thiefLock := fun i => by
        have := h.thiefLock i
        rw [hl] at this
        simpa using this }

/-- The owner frees the lock. -/
theorem Sim.release (h : Sim s a) (hl : s.owner.crit = true) (htail : tail s.T pc = tail s.T s.owner)
    (hcrit : pc.crit = false) (hrel : OwnerRel s.T s.arr a.q pc op) :
    Sim { s with lock := none, owner := pc } { a with owner := op } := by
  have hown := h.ownerLock.1 hl
  have hhead : St.head { s with lock := none, owner := pc } = s.head := by
    rw [St.head_of_not_thief (by simp), St.head_of_not_thief (by simp [hown])]
  exact
    { log := h.log
      low := by rw [hhead]; exact h.low
      len := by rw [hhead]; exact h.len.trans htail.symm
      high := by rw [htail]; exact h.high
      cells := by rw [hhead]; exact h.cells
      owner := hrel
      thief := h.thief
      ownerLock := by simp [hcrit]
      thiefLock := fun i => by
        have := h.thiefLock i
        rw [hown] at this
        simpa using this }

/-- The owner writes at the tail, where no element is. -/
theorem Sim.write (h : Sim s a) {x : Option α} (ht : t = tail s.T s.owner) (htail : tail s.T pc = tail s.T s.owner)
    (hcrit : pc.crit = s.owner.crit) (hrel : OwnerRel s.T (update s.arr t x) a.q pc op) :
    Sim { s with arr := update s.arr t x, owner := pc } { a with owner := op } where
  log := h.log
  low := h.low
  len := h.len.trans htail.symm
  high := by rw [htail]; exact h.high
  cells := fun k hk => by
    have hlen := h.len
    have hne : s.head + k ≠ t := by
      have : k < a.q.length := hk
      omega
    exact (update_of_ne hne _ _).trans (h.cells k hk)
  owner := hrel
  thief := fun i => (h.thief i).write fun h' hi => by
    have := h.take_below hi
    have := h.head_le
    omega
  ownerLock := by rw [hcrit]; exact h.ownerLock
  thiefLock := h.thiefLock

/-- The last of the elements leaves with the tail. -/
theorem Sim.last (h : Sim s a) (ht : tail s.T s.owner = t + 1) (hhead : s.head ≤ t) :
    ∃ q x, a.q = q ++ [x] ∧ s.arr t = some x ∧ (q.length : Int) = t - s.head := by
  have hlen := h.len
  have hne : a.q ≠ [] := by
    intro hnil
    rw [hnil, List.length_nil] at hlen
    omega
  obtain ⟨q, x, hq⟩ : ∃ q x, a.q = q ++ [x] := ⟨_, _, (List.dropLast_append_getLast hne).symm⟩
  rw [hq, length_append, length_singleton] at hlen
  refine ⟨q, x, hq, ?_, by omega⟩
  have hcell := h.cells q.length (by rw [hq, length_append, length_singleton]; omega)
  rw [hq, List.getElem?_concat_length] at hcell
  rw [← hcell]
  congr 1
  omega

/-- The owner has taken the element at the tail. -/
theorem Sim.pop (h : Sim s a) {q : List α} {x : α} (ht : tail s.T s.owner = t + 1) (hq : a.q = q ++ [x])
    (hlen : (q.length : Int) = t - s.head) (htail : tail s.T pc = t) (hcrit : pc.crit = s.owner.crit)
    (hrel : OwnerRel s.T s.arr q pc (.done (some x))) :
    Sim { s with owner := pc } { a with q := q, owner := .done (some x), taken := a.taken ++ [(.owner, x)] } where
  log := h.log
  low := h.low
  len := by
    rw [htail]
    show s.head + q.length = t
    omega
  high := by
    have := h.high
    rw [htail]
    omega
  cells := fun k hk => by
    have hk' : k < q.length := hk
    refine (h.cells k (by rw [hq, length_append]; omega)).trans ?_
    rw [hq, List.getElem?_append_left hk']
  owner := hrel
  thief := h.thief
  ownerLock := by rw [hcrit]; exact h.ownerLock
  thiefLock := h.thiefLock

/-- The re-based deque is empty as well. -/
theorem Sim.storeHd (h : Sim s a) {elt : α} (hpc : s.owner = .storeHd elt t)
    (ho : OwnerRel s.T s.arr a.q (.storeHd elt t) a.owner) : Sim { s with H := 0, owner := .storeTl elt t } a := by
  have hown := h.ownerLock.1 (by rw [hpc]; rfl)
  have hhead : St.head { s with H := 0, owner := .storeTl elt t } = 0 := St.head_of_not_thief (by simp [hown])
  exact
    { log := h.log
      low := Int.le_of_eq hhead.symm
      len := by rw [hhead, ho.2.2]; rfl
      high := by simp [tail, DEQUE_SZ]
      cells := fun k hk => by
        rw [ho.2.2] at hk
        exact absurd hk (Nat.not_lt_zero _)
      owner := ho
      thief := fun i => (h.thief i).outside (by rw [h.thiefLock i, hown]; simp)
      ownerLock := ⟨fun _ => hown, fun _ => rfl⟩
      thiefLock := h.thiefLock }

/-- The new tail makes the stored element part of the deque. -/
theorem Sim.bump (h : Sim s a) {elt : α} (hpc : s.owner = .bump elt t)
    (ho : OwnerRel s.T s.arr a.q (.bump elt t) a.owner) :
    Sim { s with T := t + 1, owner := .idle, log := s.log ++ [.pushed elt] }
      { a with q := a.q ++ [elt], owner := .idle, log := a.log ++ [.pushed elt] } := by
  obtain ⟨-, ht, hT, helt⟩ := ho
  have hlen := h.len
  rw [hpc] at hlen
  simp only [tail] at hlen
  exact
    { log := congrArg (· ++ _) h.log
      low := h.low
      len := by
        show s.head + (a.q ++ [elt]).length = t + 1
        rw [length_append, length_singleton]
        omega
      high := by
        show t + 1 ≤ DEQUE_SZ
        omega
      cells := fun k hk => by
        have hk' : k < (a.q ++ [elt]).length := hk
        rw [length_append, length_singleton] at hk'
        show s.arr (s.head + k) = (a.q ++ [elt])[k]?
        by_cases hlast : k = a.q.length
        · rw [hlast, List.getElem?_concat_length, hlen, ← ht, helt]
        · rw [h.cells k (by omega), List.getElem?_append_left (by omega)]
      owner := rfl
      thief := h.thief
      ownerLock := by simpa [hpc, OwnerPc.crit] using h.ownerLock
      thiefLock := h.thiefLock }

/-- `copyDeque` finds the deque empty. -/
def Ready (s : St α ι) : Prop := ∀ elt t, s.owner = .copyStart elt t → s.H = DEQUE_SZ

/-- A step of the owner is at most one step of the list. -/
theorem Sim.ownerStep [DecidableEq ι] (h : Sim s a) (hready : Ready s) (hs : OwnerStep s s') : ∃ a', (a' = a ∨ Spec.Step a a') ∧ Sim s' a' := by
  have ho := h.owner
  have hlen := h.len
  have hhigh := h.high
  have hlow := h.low
  cases hs with
  | callPush elt hpc =>
    rw [hpc] at ho
    exact ⟨_, .inr (.callPush elt ho), h.move (by rw [hpc]; rfl) (by rw [hpc]; rfl) rfl⟩
  | @readTl elt hpc =>
    rw [hpc] at ho hlen hhigh
    refine ⟨a, .inl rfl, ?_⟩
    split
    · next hlt => exact h.move (by rw [hpc]; rfl) (by rw [hpc]; rfl) ⟨ho, rfl, hlt⟩
    · next hge =>
      have hhigh' : s.T ≤ DEQUE_SZ := hhigh
      exact h.move (by rw [hpc]; rfl) (by rw [hpc]; rfl) ⟨ho, rfl, by omega⟩
  | lockFull hpc hl | lockPop hpc hl =>
    rw [hpc] at ho
    exact ⟨a, .inl rfl, h.acquire hl (by rw [hpc]; rfl) rfl ho⟩
  | copyStart hpc =>
    have hH := hready _ _ hpc
    have hown := h.ownerLock.1 (by rw [hpc]; rfl)
    have hhead : s.head = s.H := St.head_of_not_thief (by simp [hown])
    rw [hpc] at ho hlen
    obtain ⟨hop, ht, hT⟩ := ho
    have hq : a.q = [] := by
      refine List.eq_nil_of_length_eq_zero ?_
      simp only [tail] at hlen
      omega
    exact ⟨a, .inl rfl, h.move (by rw [hpc]; rfl) (by rw [hpc]; rfl) ⟨hop, ht, hT, hq, hH⟩⟩
  | copySub hpc hi =>
    rw [hpc] at ho
    obtain ⟨_, _, _, _, hi'⟩ := ho
    omega
  | copyHd hpc | copyStore hpc =>
    rw [hpc] at ho
    exact ho.elim
  | copyDone hpc hi =>
    rw [hpc] at ho
    obtain ⟨hop, ht, hT, hq, _⟩ := ho
    exact ⟨a, .inl rfl, h.move (by rw [hpc]; rfl) (by rw [hpc]; rfl) ⟨hop, ht, hT, hq⟩⟩
  | subTail hpc =>
    rw [hpc] at ho
    obtain ⟨hop, ht, _, hq⟩ := ho
    exact ⟨a, .inl rfl, h.move (by rw [hpc]; rfl) (by rw [hpc]; rfl) ⟨hop, by omega, hq⟩⟩
  | storeHd hpc =>
    rw [hpc] at ho
    exact ⟨a, .inl rfl, h.storeHd hpc ho⟩
  | storeTl hpc =>
    rw [hpc] at ho
    obtain ⟨hop, ht, _⟩ := ho
    exact ⟨a, .inl rfl, h.move (by rw [hpc]; exact ht) (by rw [hpc]; rfl) ⟨hop, rfl, ht⟩⟩
  | unlockPush hpc =>
    rw [hpc] at ho
    obtain ⟨hop, ht, hT⟩ := ho
    have hsz : s.T < DEQUE_SZ := by
      rw [hT]
      decide
    exact ⟨a, .inl rfl, h.release (by rw [hpc]; rfl) (by rw [hpc]; rfl) rfl ⟨hop, ht, hsz⟩⟩
  | store hpc =>
    rw [hpc] at ho
    obtain ⟨hop, ht, hT⟩ := ho
    exact ⟨a, .inl rfl, h.write (by rw [hpc]; exact ht) (by rw [hpc]; rfl) (by rw [hpc]; rfl)
      ⟨hop, ht, hT, update_self ..⟩⟩
  | bump hpc =>
    rw [hpc] at ho
    exact ⟨_, .inr (.push ho.1), h.bump hpc ho⟩
  | callPop hpc =>
    rw [hpc] at ho
    exact ⟨_, .inr (.callPop ho), h.move (by rw [hpc]; rfl) (by rw [hpc]; rfl) rfl⟩
  | popTl hpc =>
    rw [hpc] at ho
    refine ⟨a, .inl rfl, h.move (by rw [hpc]; simp [tail]) (by rw [hpc]; rfl) ⟨ho, rfl⟩⟩
  | @popHd t hpc =>
    rw [hpc] at ho
    obtain ⟨hop, ht⟩ := ho
    by_cases hcmp : s.H > t
    · rw [if_pos hcmp]
      exact ⟨a, .inl rfl, h.move (by rw [hpc]; rfl) (by rw [hpc]; rfl) ⟨hop, ht⟩⟩
    · rw [if_neg hcmp]
      have htail : tail s.T s.owner = t + 1 := by
        rw [hpc, ht]
        rfl
      obtain ⟨q, x, hq, hx, hl⟩ := h.last htail (by have := s.head_le_H; omega)
      exact ⟨_, .inr (.pop hop hq), h.pop htail hq hl ht.symm (by rw [hpc]; rfl) ⟨x, rfl, ht, hx, by omega⟩⟩
  | back hpc =>
    rw [hpc] at ho
    obtain ⟨hop, ht⟩ := ho
    exact ⟨a, .inl rfl, h.move (by rw [hpc]; rfl) (by rw [hpc]; rfl) ⟨hop, by omega⟩⟩
  | again hpc =>
    rw [hpc] at ho
    obtain ⟨hop, ht⟩ := ho
    exact ⟨a, .inl rfl, h.move (by rw [hpc]; simp [tail]) (by rw [hpc]; rfl) ⟨hop, ht, rfl⟩⟩
  | @againHd t t' hpc =>
    have hown := h.ownerLock.1 (by rw [hpc]; rfl)
    have hhead : s.head = s.H := St.head_of_not_thief (by simp [hown])
    rw [hpc] at ho
    obtain ⟨hop, ht, ht'⟩ := ho
    have htail : tail s.T s.owner = t + 1 := by
      rw [hpc, ht]
      rfl
    by_cases hcmp : s.H > t'
    · rw [if_pos hcmp]
      have hq : a.q = [] := by
        refine List.eq_nil_of_length_eq_zero ?_
        omega
      exact ⟨_, .inr (.popNone hop hq), h.move (by rw [hpc]; rfl) (by rw [hpc]; rfl) rfl⟩
    · rw [if_neg hcmp]
      obtain ⟨q, x, hq, hx, hl⟩ := h.last htail (by omega)
      exact ⟨_, .inr (.pop hop hq), h.pop htail hq hl ht.symm (by rw [hpc]; rfl) ⟨x, rfl, ht, hx, by omega⟩⟩
  | empty hpc =>
    rw [hpc] at ho
    exact ⟨a, .inl rfl, h.move (by rw [hpc]; rfl) (by rw [hpc]; rfl) ho⟩
  | unlockNone hpc =>
    rw [hpc] at ho
    have hfree : Sim { s with lock := none, owner := .idle } { a with owner := .idle } :=
      h.release (by rw [hpc]; rfl) (by rw [hpc]; rfl) rfl rfl
    exact ⟨_, .inr (.popped ho), hfree.record _⟩
  | unlockPop hpc =>
    rw [hpc] at ho
    obtain ⟨x, hop, ht, hx⟩ := ho
    exact ⟨a, .inl rfl, h.release (by rw [hpc]; rfl) (by rw [hpc]; rfl) rfl ⟨x, hop, ht, hx⟩⟩
  | take hpc =>
    rw [hpc] at ho
    obtain ⟨x, hop, ht, hx, _⟩ := ho
    exact ⟨a, .inl rfl, h.move (by rw [hpc]; rfl) (by rw [hpc]; rfl) ⟨x, hop, ht, hx⟩⟩
  | @erase t _ hpc =>
    rw [hpc] at ho
    obtain ⟨x, hop, ht, hx⟩ := ho
    have herased : Sim { s with arr := update s.arr t none, owner := .idle } { a with owner := .idle } :=
      h.write (by rw [hpc]; exact ht) (by rw [hpc]; rfl) (by rw [hpc]; rfl) rfl
    refine ⟨_, .inr (.popped hop), ?_⟩
    rw [hx]
    exact herased.record _

/-! ## Steps of a thief -/

variable {i : ι}

/-- What a thief with the lock does leaves the other thieves as they are. -/
theorem Sim.others (h : Sim s a) (hl : s.lock = some (.thief i)) {H : Int} {j : ι} (hj : j ≠ i) :
    ThiefRel H arr (s.thief j) (a.thief j) :=
  (h.thief j).outside (by rw [h.thiefLock j, hl]; simpa using Ne.symm hj)

/-- A write below the tail is not to what the owner has stored or is about to read. -/
theorem OwnerRel.write {T t : Int} {q : List α} {pc : OwnerPc α} {op : OwnerOp α} {x : Option α}
    (ht : t < tail T pc) (h : OwnerRel T arr q pc op) : OwnerRel T (update arr t x) q pc op := by
  cases pc with
  | bump elt t' =>
    obtain ⟨hop, ht', hT, helt⟩ := h
    have hne : t' ≠ t := Int.ne_of_gt (by rw [ht']; exact ht)
    exact ⟨hop, ht', hT, by rwa [update_of_ne hne]⟩
  | unlockPop t' | take t' =>
    obtain ⟨y, hop, ht', hy, hsz⟩ := h
    have hne : t' ≠ t := Int.ne_of_gt (by rw [ht']; exact ht)
    exact ⟨y, hop, ht', by rwa [update_of_ne hne], hsz⟩
  | _ => exact h

/-- A thief that has read a tail below the head finds the deque empty, or the owner about to take the last element. -/
theorem Sim.miss (h : Sim s a) {h' : Int} (hi : s.thief i = .tl h') (hcmp : h' > s.T) : a.q = [] ∨ a.owner = .pop := by
  have hl := (h.thiefLock i).1 (by rw [hi]; rfl)
  have hr := h.thief i
  rw [hi] at hr
  have hH : h' = s.H := hr.2
  have hhead : s.head = s.H - 1 := by rw [St.head_of_thief _ hl, hi]; rfl
  have hnocrit : ¬ s.owner.crit = true := by
    rw [h.ownerLock, hl]
    simp
  have hlen := h.len
  have ho := h.owner
  have hempty : tail s.T s.owner = s.T → a.q = [] := fun htail => List.eq_nil_of_length_eq_zero (by omega)
  cases hpc : s.owner with
  | popHd | back => rw [hpc] at ho; exact .inr ho.1
  | againHd | empty | storeTl => rw [hpc] at hnocrit; exact absurd rfl hnocrit
  | _ => exact .inl (hempty (by rw [hpc]; rfl))

variable [DecidableEq ι]

/-- The thief with the lock moves on; the elements of the list stay where they are. -/
theorem Sim.thiefMove (h : Sim s a) (hl : s.lock = some (.thief i)) {H : Int} {pc : ThiefPc α}
    {op : ThiefOp α} (hhead : H - pc.lead = s.head) (hcells : ∀ k : Nat, k < a.q.length → arr (s.head + k) = s.arr (s.head + k))
    (hown : OwnerRel s.T arr a.q s.owner a.owner) (hcrit : pc.crit = true) (hrel : ThiefRel H arr pc op) :
    Sim { s with H := H, arr := arr, thief := update s.thief i pc } { a with thief := update a.thief i op } := by
  have hhead' : St.head { s with H := H, arr := arr, thief := update s.thief i pc } = s.head := by
    rw [St.head_of_thief { s with H := H, arr := arr, thief := update s.thief i pc } hl, ← hhead]
    simp
  exact
    { log := h.log
      low := by rw [hhead']; exact h.low
      len := by rw [hhead']; exact h.len
      high := h.high
      cells := fun k hk => by
        rw [hhead']
        exact (hcells k hk).trans (h.cells k hk)
      owner := hown
      thief := fun j => by
        by_cases hj : j = i
        · subst hj
          simpa using hrel
        · simp only [update_of_ne hj]
          exact h.others hl hj
      ownerLock := h.ownerLock
      thiefLock := fun j => by
        by_cases hj : j = i
        · subst hj
          simpa [hcrit] using hl
        · simp only [update_of_ne hj]
          exact h.thiefLock j }

/-- The same, where the thief's operation does not change. -/
theorem Sim.thiefStay (h : Sim s a) (hl : s.lock = some (.thief i)) {H : Int} {pc : ThiefPc α}
    (hhead : H - pc.lead = s.head) (hcells : ∀ k : Nat, k < a.q.length → arr (s.head + k) = s.arr (s.head + k))
    (hown : OwnerRel s.T arr a.q s.owner a.owner) (hcrit : pc.crit = true) (hrel : ThiefRel H arr pc (a.thief i)) :
    Sim { s with H := H, arr := arr, thief := update s.thief i pc } a := by
  have hmove := h.thiefMove hl hhead hcells hown hcrit hrel
  rwa [update_eq_self] at hmove

/-- A thief without the lock starts, takes the lock or frees it: the head stays. -/
theorem Sim.thiefLocks (h : Sim s a) {lock : Option (Party ι)} {pc : ThiefPc α} {op : ThiefOp α}
    (hhead : St.head { s with lock := lock, thief := update s.thief i pc } = s.head)
    (hown : lock = some .owner ↔ s.lock = some .owner) (hi : pc.crit = true ↔ lock = some (.thief i))
    (hothers : ∀ j, j ≠ i → (lock = some (.thief j) ↔ s.lock = some (.thief j))) (hrel : ThiefRel s.H s.arr pc op) :
    Sim { s with lock := lock, thief := update s.thief i pc } { a with thief := update a.thief i op } where
  log := h.log
  low := by rw [hhead]; exact h.low
  len := by rw [hhead]; exact h.len
  high := h.high
  cells := by rw [hhead]; exact h.cells
  owner := h.owner
  thief := fun j => by
    by_cases hj : j = i
    · subst hj
      simpa using hrel
    · simp only [update_of_ne hj]
      exact h.thief j
  ownerLock := h.ownerLock.trans hown.symm
  thiefLock := fun j => by
    by_cases hj : j = i
    · subst hj
      simpa using hi
    · simp only [update_of_ne hj]
      exact (h.thiefLock j).trans (hothers j hj).symm

/-- A thief that has read a tail not below the head it has incremented to takes the element. -/
theorem Sim.steal (h : Sim s a) {h' : Int} (hi : s.thief i = .tl h') (hcmp : h' ≤ s.T) :
    ∃ q x, a.q = x :: q ∧ Sim { s with thief := update s.thief i (.take h') }
      { a with q := q, thief := update a.thief i (.done (some x)), taken := a.taken ++ [(.thief i, x)] } := by
  have hl := (h.thiefLock i).1 (by rw [hi]; rfl)
  have hr := h.thief i
  rw [hi] at hr
  have hH : h' = s.H := hr.2
  have hhead : s.head = s.H - 1 := by rw [St.head_of_thief _ hl, hi]; rfl
  have hnocrit : ¬ s.owner.crit = true := by
    rw [h.ownerLock, hl]
    simp
  have htail : s.T ≤ tail s.T s.owner := by
    cases hpc : s.owner with
    | storeTl => rw [hpc] at hnocrit; exact absurd rfl hnocrit
    | _ => simp only [tail]; omega
  have hlen := h.len
  cases hq : a.q with
  | nil =>
    rw [hq, List.length_nil] at hlen
    omega
  | cons x q =>
    rw [hq, List.length_cons] at hlen
    have hcell := h.cells 0 (by rw [hq]; exact Nat.succ_pos _)
    have hhead' : St.head { s with thief := update s.thief i (.take h') } = s.head + 1 := by
      rw [St.head_of_thief { s with thief := update s.thief i (.take h') } hl]
      simp only [update_self, ThiefPc.lead]
      omega
    have hfirst : s.arr (h' - 1) = some x := by
      rw [hq] at hcell
      rw [hH, ← hhead]
      simpa using hcell
    refine ⟨q, x, rfl, ?_⟩
    exact
      { log := h.log
        low := by rw [hhead']; have := h.low; omega
        len := by rw [hhead']; show s.head + 1 + q.length = tail s.T s.owner; omega
        high := h.high
        cells := fun k hk => by
          rw [hhead', show s.head + 1 + (k : Int) = s.head + (k + 1 : Nat) by omega]
          refine (h.cells (k + 1) (by rw [hq]; exact Nat.succ_lt_succ hk)).trans ?_
          rw [hq]
          rfl
        owner := by
          have ho := h.owner
          show OwnerRel s.T s.arr q s.owner a.owner
          cases hpc : s.owner with
          | copy | subTail | storeHd | storeTl => rw [hpc] at hnocrit; exact absurd rfl hnocrit
          | _ => rw [hpc] at ho; exact ho
        thief := fun j => by
          by_cases hj : j = i
          · subst hj
            simpa using ⟨x, rfl, hH, hfirst⟩
          · simp only [update_of_ne hj]
            exact h.others hl hj
        ownerLock := h.ownerLock
        thiefLock := fun j => by
          by_cases hj : j = i
          · subst hj
            simpa [ThiefPc.crit] using hl
          · simp only [update_of_ne hj]
            exact h.thiefLock j }

/-- A step of a thief is at most one step of the list. -/
theorem Sim.thiefStep (h : Sim s a) (hs : ThiefStep i s s') : ∃ a', (a' = a ∨ Spec.Step a a') ∧ Sim s' a' := by
  have hr := h.thief i
  cases hs with
  | callSteal hi =>
    rw [hi] at hr
    have hl : ¬ s.lock = some (.thief i) := by
      rw [← h.thiefLock i, hi]
      simp [ThiefPc.crit]
    refine ⟨_, .inr (.callSteal i hr), h.thiefLocks ?_ .rfl (by simp [ThiefPc.crit, hl]) (fun _ _ => .rfl) rfl⟩
    grind [St.head]
  | lock hi hl =>
    rw [hi] at hr
    have hhead : St.head { s with lock := some (.thief i), thief := update s.thief i .hd } = s.head := by
      rw [St.head_of_not_thief (s := s) (by simp [hl]), St.head_of_thief { s with lock := _, thief := _ } rfl]
      simp [ThiefPc.lead]
    have hlocks := h.thiefLocks hhead (by simp [hl]) (by simp [ThiefPc.crit]) (fun j hj => by simp [hl, Ne.symm hj]) hr
    rw [update_eq_self] at hlocks
    exact ⟨a, .inl rfl, hlocks⟩
  | hd hi =>
    rw [hi] at hr
    have hl := (h.thiefLock i).1 (by rw [hi]; rfl)
    have hhead : s.head = s.H := by rw [St.head_of_thief _ hl, hi]; simp [ThiefPc.lead]
    exact ⟨a, .inl rfl, h.thiefStay hl (by rw [hhead]; simp [ThiefPc.lead]) (fun _ _ => rfl) h.owner rfl ⟨hr, rfl⟩⟩
  | @tl h' hi =>
    by_cases hcmp : h' > s.T
    · have hmiss := h.miss hi hcmp
      have hl := (h.thiefLock i).1 (by rw [hi]; rfl)
      rw [hi] at hr
      rw [if_pos hcmp]
      refine ⟨_, .inr (.miss i hr.1 hmiss), h.thiefMove hl ?_ (fun _ _ => rfl) h.owner rfl rfl⟩
      rw [St.head_of_thief _ hl, hi]
      rfl
    · obtain ⟨q, x, hq, hsim⟩ := h.steal hi (by omega)
      rw [hi] at hr
      rw [if_neg hcmp]
      exact ⟨_, .inr (.steal i hr.1 hq), hsim⟩
  | back hi =>
    have hl := (h.thiefLock i).1 (by rw [hi]; rfl)
    rw [hi] at hr
    have hhead : s.head = s.H - 1 := by rw [St.head_of_thief _ hl, hi]; rfl
    exact ⟨a, .inl rfl, h.thiefStay hl (by rw [hhead]; simp [ThiefPc.lead]) (fun _ _ => rfl) h.owner rfl ⟨none, hr, rfl⟩⟩
  | @take h' hi =>
    have hl := (h.thiefLock i).1 (by rw [hi]; rfl)
    have hhead := h.take_below hi
    rw [hi] at hr
    obtain ⟨x, hop, hH, hx⟩ := hr
    exact ⟨a, .inl rfl, h.thiefStay hl (by rw [← hhead, hH]; simp [ThiefPc.lead]) (fun _ _ => rfl) h.owner rfl
      ⟨x, hop, hH, hx⟩⟩
  | @erase h' frame hi =>
    have hl := (h.thiefLock i).1 (by rw [hi]; rfl)
    have hlead : s.head = s.H := by rw [St.head_of_thief _ hl, hi]; simp [ThiefPc.lead]
    have hle := h.head_le
    rw [hi] at hr
    obtain ⟨x, hop, hH, hx⟩ := hr
    exact ⟨a, .inl rfl, h.thiefStay hl (by rw [hlead]; simp [ThiefPc.lead])
      (fun k _ => update_of_ne (by omega) _ _) (h.owner.write (by omega)) rfl ⟨some x, hop, by rw [hx]; rfl⟩⟩
  | unlock hi =>
    have hl := (h.thiefLock i).1 (by rw [hi]; rfl)
    have hlead : s.head = s.H := by rw [St.head_of_thief _ hl, hi]; simp [ThiefPc.lead]
    rw [hi] at hr
    obtain ⟨r, hop, hr⟩ := hr
    have hfree : Sim { s with lock := none, thief := update s.thief i .idle } { a with thief := update a.thief i .idle } := by
      refine h.thiefLocks ?_ (by simp [hl]) (by simp [ThiefPc.crit]) (fun j hj => by simp [hl, Ne.symm hj]) rfl
      rw [St.head_of_not_thief (by simp), hlead]
    refine ⟨_, .inr (.stole i hop), ?_⟩
    rw [hr]
    exact hfree.record _

/-! ## Runs -/

/-- The states the parties can reach. -/
inductive Reach : St α ι → Prop
  | new : Reach St.new
  | step {s s' : St α ι} : Reach s → Step s s' → Reach s'

/-- The states they can reach when `copyDeque` finds the deque empty each time. -/
inductive Run : St α ι → Prop
  | new : Run St.new
  | step {s s' : St α ι} : Run s → Ready s → Step s s' → Run s'

theorem Run.sim (h : Run s) : ∃ a, Spec.Reach a ∧ Sim s a := by
  induction h with
  | new => exact ⟨_, .new, sim_new⟩
  | @step s s' _ hready hs ih =>
    obtain ⟨a, hreach, hsim⟩ := ih
    obtain ⟨a', hstep, hsim'⟩ : ∃ a', (a' = a ∨ Spec.Step a a') ∧ Sim s' a' := by
      cases hs with
      | owner hs => exact hsim.ownerStep hready hs
      | thief i hs => exact hsim.thiefStep hs
    rcases hstep with rfl | hstep
    · exact ⟨a', hreach, hsim'⟩
    · exact ⟨a', hreach.step hstep, hsim'⟩

/-- What lies between the head and the tail. -/
def St.contents (s : St α ι) : List (Option α) := (List.range (s.T - s.H).toNat).map fun k : Nat => s.arr (s.H + k)

/-- The state agrees with a state of the list: the operations have returned the same, every
element pushed is accounted for, and when no operation is in progress the array holds the list. -/
structure Refines (s : St α ι) (a : Spec α ι) : Prop where
  reach : Spec.Reach a
  log : a.log = s.log
  books : a.Books
  rest : s.owner = .idle → (∀ i, s.thief i = .idle) →
    a.owner = .idle ∧ (∀ i, a.thief i = .idle) ∧ s.contents = a.q.map some

omit [DecidableEq ι] in
theorem Sim.contents (h : Sim s a) (ho : s.owner = .idle) (ht : ∀ i, s.thief i = .idle) : s.contents = a.q.map some := by
  have hhead : s.head = s.H := by
    refine St.head_of_not_thief fun i hi => ?_
    rw [← h.thiefLock i, ht i] at hi
    cases hi
  have hlen := h.len
  rw [ho, hhead] at hlen
  simp only [tail] at hlen
  have hn : (s.T - s.H).toNat = a.q.length := by omega
  refine List.ext_getElem? fun k => ?_
  simp only [St.contents, hn, List.getElem?_map]
  by_cases hk : k < a.q.length
  · have hcell := h.cells k hk
    rw [hhead] at hcell
    rw [List.getElem?_range hk, Option.map_some, hcell, List.getElem?_eq_getElem hk, Option.map_some]
  simp_all

/-- As long as re-basing finds the deque empty, the concurrent deque refines the list: each
element pushed is returned by one pop or steal at most, at its end of the deque, or is still there. -/
theorem cilk5_refines_list (h : Run s) : ∃ a, Refines s a := by
  obtain ⟨a, hreach, hsim⟩ := h.sim
  refine ⟨a, hreach, hsim.log, Spec.books hreach, fun ho ht => ⟨?_, fun i => ?_, hsim.contents ho ht⟩⟩
  · have := hsim.owner
    rwa [ho] at this
  · have := hsim.thief i
    rwa [ht i] at this

/-- Two pushes and a pop, with the element pushed last in the owner's hands. -/
theorem cilk5_refines_list_pop : ∃ s a, Refines (α := Nat) (ι := Nat) s a ∧ s.log = [.pushed 7, .pushed 8, .popped (some (some 8))] := by
  have h0 : Run (St.new : St Nat Nat) := .new
  have h1 := h0.step nofun (.owner (.callPush 7 rfl))
  have h2 := h1.step nofun (.owner (.readTl rfl))
  have h3 := h2.step nofun (.owner (.store rfl))
  have h4 := h3.step nofun (.owner (.bump rfl))
  have h5 := h4.step nofun (.owner (.callPush 8 rfl))
  have h6 := h5.step nofun (.owner (.readTl rfl))
  have h7 := h6.step nofun (.owner (.store rfl))
  have h8 := h7.step nofun (.owner (.bump rfl))
  have h9 := h8.step nofun (.owner (.callPop rfl))
  have h10 := h9.step nofun (.owner (.popTl rfl))
  have h11 := h10.step nofun (.owner (.popHd rfl))
  have h12 := h11.step nofun (.owner (.take rfl))
  have h13 := h12.step nofun (.owner (.erase rfl))
  obtain ⟨a, ha⟩ := cilk5_refines_list h13
  exact ⟨_, a, ha, rfl⟩

/-! ## Re-basing over elements -/

theorem readTl_store {elt : α} (h : s.owner = .push elt) (hlt : s.T < DEQUE_SZ) :
    Step s { s with owner := .store elt s.T } := by
  have := OwnerStep.readTl h
  rw [if_pos hlt] at this
  exact .owner this

theorem readTl_full {elt : α} (h : s.owner = .push elt) (hge : ¬ s.T < DEQUE_SZ) :
    Step s { s with owner := .full elt s.T } := by
  have := OwnerStep.readTl h
  rw [if_neg hge] at this
  exact .owner this

/-- `n` pushes onto a fresh deque. -/
def loaded (arr : Int → Option Nat) (n : Nat) : St Nat Nat :=
  { T := n, H := 0, arr := arr, lock := none, owner := .idle, thief := fun _ => .idle, log := replicate n (.pushed 0) }

theorem loaded_reach {n : Nat} (hn : (n : Int) ≤ DEQUE_SZ) : ∃ arr, Reach (loaded arr n) := by
  induction n with
  | zero => exact ⟨_, .new⟩
  | succ n ih =>
    obtain ⟨arr, h⟩ := ih (by omega)
    have h1 := h.step (.owner (.callPush 0 rfl))
    have h2 := h1.step (readTl_store rfl (show (n : Int) < DEQUE_SZ by omega))
    have h3 := h2.step (.owner (.store rfl))
    have h4 := h3.step (.owner (.bump rfl))
    refine ⟨update arr n (some 0), ?_⟩
    rw [loaded, List.replicate_succ']
    exact h4

/-- The owner re-bases a full deque, of which no element has been taken. -/
def copying (arr : Int → Option Nat) (i : Nat) : St Nat Nat :=
  { T := DEQUE_SZ, H := 0, arr := arr, lock := some .owner, owner := .copy 0 DEQUE_SZ i, thief := fun _ => .idle,
    log := replicate 2048 (.pushed 0) }

theorem copying_reach {arr : Int → Option Nat} (h : Reach (copying arr 0)) {n : Nat} (hn : (n : Int) ≤ DEQUE_SZ) :
    ∃ arr', Reach (copying arr' n) := by
  induction n with
  | zero => exact ⟨arr, h⟩
  | succ n ih =>
    obtain ⟨arr₁, h0⟩ := ih (by omega)
    have h1 := h0.step (.owner (.copySub rfl (show (n : Int) < DEQUE_SZ by omega)))
    have h2 := h1.step (.owner (.copyHd rfl))
    have h3 := h2.step (.owner (.copyStore rfl))
    exact ⟨_, h3⟩

/-- Who has taken nothing holds nothing. -/
theorem taken_nil {taken : List (Party ι × α)} (h : ∀ p, takenBy p taken = []) : taken = [] := by
  cases taken with
  | nil => rfl
  | cons e taken =>
    have := h e.1
    simp [takenBy] at this

/-- The push after 2048 pushes re-bases the array and leaves one element of 2049. -/
theorem rebase_loses : ∃ s : St Nat Nat, Reach s ∧ s.log = replicate 2049 (.pushed 0) ∧ s.contents.length = 1 ∧
    ¬ ∃ a, Refines s a := by
  obtain ⟨arr, h⟩ := loaded_reach (n := 2048) (by decide)
  have h1 := h.step (.owner (.callPush 0 rfl))
  have h2 := h1.step (readTl_full rfl (show ¬ ((2048 : Nat) : Int) < DEQUE_SZ by decide))
  have h3 := h2.step (.owner (.lockFull rfl rfl))
  have h4 : Reach (copying arr 0) := h3.step (.owner (.copyStart rfl))
  obtain ⟨arr', h5⟩ := copying_reach h4 (n := 2048) (by decide)
  have h6 := h5.step (.owner (.copyDone rfl (by decide)))
  have h7 := h6.step (.owner (.subTail rfl))
  have h8 := h7.step (.owner (.storeHd rfl))
  have h9 := h8.step (.owner (.storeTl rfl))
  have h10 := h9.step (.owner (.unlockPush rfl))
  have h11 := h10.step (.owner (.store rfl))
  have h12 := h11.step (.owner (.bump rfl))
  have hlog : replicate 2048 (.pushed 0) ++ [.pushed 0] = (replicate 2049 (.pushed 0) : List (Event Nat Nat)) :=
    List.replicate_succ'.symm
  refine ⟨_, h12, hlog, rfl, ?_⟩
  rintro ⟨a, -, hloga, hbooks, hrest⟩
  obtain ⟨hown, hthief, hcontents⟩ := hrest rfl fun _ => rfl
  have hpushes : ∀ n, (pushes (replicate n (.pushed 0 : Event Nat Nat))).length = n ∧
      ∀ p, returned p (replicate n (.pushed 0 : Event Nat Nat)) = [] := by
    intro n
    induction n with
    | zero => exact ⟨rfl, fun _ => rfl⟩
    | succ n ih => exact ⟨by rw [List.replicate_succ, pushes, List.length_cons, ih.1], ih.2⟩
  have hlen := hbooks.once.length_eq
  have hloga' : a.log = replicate 2049 (.pushed 0) := hloga.trans hlog
  have htaken : a.taken = [] := by
    refine taken_nil fun p => ?_
    have hhand : a.hand p = [] := by
      cases p with
      | owner => simp only [Spec.hand, hown]
      | thief i => simp only [Spec.hand, hthief i]
    have hp := hbooks.handed p
    rw [hloga', hhand, (hpushes 2049).2 p] at hp
    simpa using hp
  rw [htaken, hloga', (hpushes 2049).1] at hlen
  have hone : a.q.length = 1 := by
    have := congrArg List.length hcontents
    rw [List.length_map] at this
    exact this.symm
  simp only [List.map_nil, List.nil_append] at hlen
  omega

end Manticore.Synch.Cilk5Deque
