/-
  Manticore.ImplicitThread.IVar — write-once cells for implicit threads: `@get` and `@put`
  (`implicit-thread/implicit-thread-ivar.pml`).

  Any number of threads get and put; a step is one access to the cell, or one thread handed to `@resume-thread`.
  `EMPTY_VAL` is no value of the language, so the value is an `Option`. The blocked list only grows, so a
  compare-and-swap compares lists. After its last decrement a get that blocks only stops, and its continuation may
  already run. The count of gets never exceeds that of the vprocs and is not bounded here; a spin that does not end is
  left out.

  - `Reachable.drain`: a put reads the blocked list when no get is about to block, and none will.
  - `Reachable.resumed`: a thread that waits is on the blocked list, or to be resumed by the put, once.
  - `ivar_sound`: every get that returns has the value of the first put, and no get that begins after it blocks.
-/

import Manticore.Library.Parties

namespace Manticore.ImplicitThread.IVar

open Parties
open Function (update update_self update_of_ne)

/-- Where a thread is: before the access that the name tells. -/
inductive Pc (n : Nat) (α : Type) where
  | idle
  | getLock
  | getValue
  | getUnlock (value : α)
  /-- The value was empty: before the blocked list is read. -/
  | blockRead
  | blockCas (blocks : List (Fin n))
  | blockUnlock
  | blocked
  | putCas (x : α)
  /-- The put has stored its value. -/
  | putSpin
  | putBlocked
  | putResume (blocked : List (Fin n))

structure State (n : Nat) (α : Type) where
  blocked : List (Fin n)
  value : Option α
  lock : Int
  pcs : Fin n → Pc n α
  /-- The threads that `@resume-thread` has been given. -/
  ready : Multiset (Fin n)
  /-- A put has read the blocked list. -/
  drained : Bool
  /-- The values of the puts, in the order of their compare-and-swaps. -/
  puts : List α
  /-- What each get has returned. -/
  returned : Multiset (Fin n × Option α)

variable {n : Nat} {α : Type}

namespace State

variable (s : State n α) (i : Fin n)

def goto (pc : Pc n α) : State n α := { s with pcs := update s.pcs i pc }

def fetchAndAdd (k : Int) : State n α := { s with lock := s.lock + k }

def returns (value : Option α) : State n α := { s with returned := (i, value) ::ₘ s.returned }

end State

/-- `@ivar` and, without a value, `@empty-ivar`: with a value there will be nobody to resume. -/
def ivar (n : Nat) (v : Option α) : State n α := ⟨[], v, 0, fun _ => .idle, 0, v.isSome, [], 0⟩

inductive Act (s : State n α) (i : Fin n) : State n α → Prop
  | callGet : s.pcs i = .idle → Act s i (s.goto i .getLock)
  | getLock : s.pcs i = .getLock → Act s i ((s.fetchAndAdd 1).goto i .getValue)
  | getSome {value : α} : s.pcs i = .getValue → s.value = some value → Act s i (s.goto i (.getUnlock value))
  | getUnlock {value : α} : s.pcs i = .getUnlock value →
      Act s i (((s.fetchAndAdd (-1)).returns i (some value)).goto i .idle)
  | getEmpty : s.pcs i = .getValue → s.value = none → Act s i (s.goto i .blockRead)
  | blockRead : s.pcs i = .blockRead → Act s i (s.goto i (.blockCas s.blocked))
  | blockCas {blocks : List (Fin n)} : s.pcs i = .blockCas blocks → s.blocked = blocks →
      Act s i ({ s with blocked := i :: blocks }.goto i .blockUnlock)
  | blockRetry {blocks : List (Fin n)} : s.pcs i = .blockCas blocks → s.blocked ≠ blocks →
      Act s i (s.goto i .blockRead)
  | blockUnlock : s.pcs i = .blockUnlock → Act s i ((s.fetchAndAdd (-1)).goto i .blocked)
  /-- The continuation reads the value again. -/
  | resumed {r : Multiset (Fin n)} : s.pcs i = .blocked → s.ready = i ::ₘ r →
      Act s i (({ s with ready := r }.returns i s.value).goto i .idle)
  | callPut {x : α} : s.pcs i = .idle → Act s i (s.goto i (.putCas x))
  | putWin {x : α} : s.pcs i = .putCas x → s.value = none →
      Act s i ({ s with value := some x, puts := s.puts ++ [x] }.goto i .putSpin)
  | putLose {x : α} : s.pcs i = .putCas x → s.value ≠ none →
      Act s i ({ s with puts := s.puts ++ [x] }.goto i (.putResume []))
  | putSpin : s.pcs i = .putSpin → s.lock = 0 → Act s i (s.goto i .putBlocked)
  | putBlocked : s.pcs i = .putBlocked → Act s i ({ s with drained := true }.goto i (.putResume s.blocked))
  | putResume {thd : Fin n} {l : List (Fin n)} : s.pcs i = .putResume (thd :: l) →
      Act s i ({ s with ready := thd ::ₘ s.ready }.goto i (.putResume l))
  | putDone : s.pcs i = .putResume [] → Act s i (s.goto i .idle)

def Step (s s' : State n α) : Prop := ∃ i, Act s i s'

def Reachable (v : Option α) (s : State n α) : Prop := Relation.ReflTransGen Step (ivar n v) s

variable {s s' : State n α} {i j : Fin n} {v : Option α}

/-! ## One put stores its value and drains the list -/

/-- The put has stored its value and not read the blocked list. -/
def Pc.winning : Pc n α → Bool
  | .putSpin | .putBlocked => true
  | _ => false

/-- Where the cell has a value, one put is to read the blocked list or has read it. -/
def Winner (s : State n α) : Prop := (∑ i, (s.pcs i).winning.toNat) + s.drained.toNat = s.value.isSome.toNat

variable {pc : Pc n α}

theorem Winner.goto (h : Winner s) (hpcs : s'.pcs = update s.pcs i pc)
    (hflow : pc.winning.toNat + s'.drained.toNat + s.value.isSome.toNat = (s.pcs i).winning.toNat + s.drained.toNat + s'.value.isSome.toNat)
    : Winner s' := by
  have hsum := sum_update s.pcs (fun pc => pc.winning.toNat) i pc
  rw [← hpcs] at hsum
  unfold Winner at h ⊢
  omega

theorem Winner.value (h : Winner s) (hw : s.drained = true ∨ ∃ i, (s.pcs i).winning = true) : s.value.isSome = true := by
  cases hv : s.value.isSome with
  | true => rfl
  | false =>
    unfold Winner at h
    rw [hv, Bool.toNat_false] at h
    simp_all

theorem Winner.first (h : Winner s) (hw : (s.pcs i).winning = true) : s.drained = false := by
  have hle := le_sum (fun i => (s.pcs i).winning.toNat) i
  have hv := h.value (.inr ⟨i, hw⟩)
  grind [Winner]

theorem Act.winner (h : Winner s) (ha : Act s i s') : Winner s' := by
  cases ha with
  | callGet hpc | getLock hpc | getSome hpc _ | getUnlock hpc | getEmpty hpc _ | blockRead hpc | blockCas hpc _
  | blockRetry hpc _ | blockUnlock hpc | resumed hpc _ | callPut hpc | putLose hpc _ | putSpin hpc _ | putResume hpc
  | putDone hpc => exact h.goto rfl (by rw [hpc]; rfl)
  | putWin hpc hv =>
    refine h.goto rfl ?_
    rw [hpc, hv]
    show 1 + s.drained.toNat + 0 = 0 + s.drained.toNat + 1
    omega
  | putBlocked hpc =>
    have hd := h.first (i := i) (by rw [hpc]; rfl)
    refine h.goto rfl ?_
    rw [hpc, hd]
    show 0 + 1 + s.value.isSome.toNat = 1 + 0 + s.value.isSome.toNat
    rfl

theorem Reachable.winner (h : Reachable v s) : Winner s := by
  induction h with
  | refl =>
    show (∑ _ : Fin n, 0) + v.isSome.toNat = v.isSome.toNat
    rw [Finset.sum_const_zero, Nat.zero_add]
  | tail _ hstep ih =>
    obtain ⟨i, ha⟩ := hstep
    exact ha.winner ih

/-! ## The value -/

/-- The value of the first put, unless the cell was made with one. -/
def State.first (s : State n α) (v : Option α) : Option α := v <|> s.puts.head?

/-- The value is that of the first put, every get has got it, and threads are resumed once it is there. -/
structure First (v : Option α) (s : State n α) : Prop where
  value : s.value = s.first v
  read : ∀ i value, s.pcs i = .getUnlock value → s.value = some value
  returned : ∀ r ∈ s.returned, r.2 = s.value ∧ s.value.isSome = true
  resume : ∀ i thd l, s.pcs i = .putResume (thd :: l) → s.drained = true
  ready : s.ready ≠ 0 → s.drained = true

/-- A step that leaves the value and the puts as they are. -/
theorem First.goto (h : First v s) (hpcs : s'.pcs = update s.pcs i pc) (hvalue : s'.value = s.value)
    (hputs : s'.puts = s.puts) (hread : ∀ value, pc = .getUnlock value → s.value = some value)
    (hreturned : ∀ r ∈ s'.returned, r ∈ s.returned ∨ r.2 = s.value ∧ s.value.isSome = true)
    (hkeep : s.drained = true → s'.drained = true)
    (hresume : ∀ thd l, pc = .putResume (thd :: l) → s'.drained = true) (hready : s'.ready ≠ 0 → s'.drained = true)
    : First v s' := by
  refine ⟨?_, fun j value hj => ?_, fun r hr => ?_, fun j thd l hj => ?_, hready⟩
  · rw [hvalue, h.value]
    unfold State.first
    rw [hputs]
  · rw [hvalue]
    rw [hpcs] at hj
    by_cases hji : j = i
    · subst hji
      rw [update_self] at hj
      exact hread value hj
    · rw [update_of_ne hji] at hj
      exact h.read j value hj
  · rw [hvalue]
    rcases hreturned r hr with hr | hr
    · exact h.returned r hr
    · exact hr
  · rw [hpcs] at hj
    by_cases hji : j = i
    · subst hji
      rw [update_self] at hj
      exact hresume thd l hj
    · rw [update_of_ne hji] at hj
      exact hkeep (h.resume j thd l hj)

/-- A compare-and-swap on the value: it stays, or becomes that of this put. -/
theorem First.put (h : First v s) {x : α} (hpcs : s'.pcs = update s.pcs i pc)
    (hvalue : s'.value = (s.value <|> some x)) (hputs : s'.puts = s.puts ++ [x])
    (hpc : pc = .putSpin ∨ pc = .putResume []) (hreturned : s'.returned = s.returned)
    (hdrained : s'.drained = s.drained) (hready : s'.ready = s.ready) : First v s' := by
  have hsome : ∀ y, s.value = some y → s'.value = some y := fun y hy => by rw [hvalue, hy]; rfl
  have hself : ∀ j, s'.pcs j = pc ∨ s'.pcs j = s.pcs j := fun j => by
    rw [hpcs]
    by_cases hji : j = i
    · rw [hji, update_self]
      exact .inl rfl
    · rw [update_of_ne hji]
      exact .inr rfl
  refine ⟨?_, fun j value hj => ?_, fun r hr => ?_, fun j thd l hj => ?_, ?_⟩
  · rw [hvalue, h.value]
    simp [State.first, hputs]
  · rcases hself j with hpc' | hpc'
    · rw [hj] at hpc'
      rcases hpc with rfl | rfl <;> cases hpc'
    · exact hsome value (h.read j value (hpc'.symm.trans hj))
  · rw [hreturned] at hr
    obtain ⟨hr, hv⟩ := h.returned r hr
    grind [Option.isSome_iff_exists]
  · rw [hdrained]
    rcases hself j with hpc' | hpc'
    · rw [hj] at hpc'
      rcases hpc with rfl | rfl <;> cases hpc'
    · exact h.resume j thd l (hpc'.symm.trans hj)
  · rw [hready, hdrained]
    exact h.ready

theorem Act.first (hw : Winner s) (h : First v s) (ha : Act s i s') : First v s' := by
  cases ha with
  | callGet _ | getLock _ | getEmpty _ _ | blockRead _ | blockCas _ _ | blockRetry _ _ | blockUnlock _ | callPut _
  | putSpin _ _ | putDone _ => exact h.goto rfl rfl rfl nofun (fun _ => .inl) id nofun h.ready
  | getSome _ hv =>
    refine h.goto rfl rfl rfl (fun value he => ?_) (fun _ => .inl) id nofun h.ready
    cases he
    exact hv
  | getUnlock hpc =>
    have hv := h.read i _ hpc
    refine h.goto rfl rfl rfl nofun (fun r hr => ?_) id nofun h.ready
    rcases Multiset.mem_cons.mp hr with rfl | hr
    · exact .inr ⟨hv.symm, by rw [hv]; rfl⟩
    · exact .inl hr
  | resumed _ hr =>
    have hd := h.ready (by rw [hr]; exact Multiset.cons_ne_zero)
    refine h.goto rfl rfl rfl nofun (fun r hr => ?_) id nofun fun _ => hd
    rcases Multiset.mem_cons.mp hr with rfl | hr
    · exact .inr ⟨rfl, hw.value (.inl hd)⟩
    · exact .inl hr
  | putWin _ hv => exact h.put rfl (by rw [hv]; rfl) rfl (.inl rfl) rfl rfl rfl
  | putLose _ hv =>
    refine h.put rfl ?_ rfl (.inr rfl) rfl rfl rfl
    obtain ⟨y, hy⟩ := Option.ne_none_iff_exists'.mp hv
    show s.value = (s.value <|> some _)
    rw [hy]
    rfl
  | putBlocked _ => exact h.goto rfl rfl rfl nofun (fun _ => .inl) (fun _ => rfl) (fun _ _ _ => rfl) fun _ => rfl
  | putResume hpc =>
    have hd := h.resume i _ _ hpc
    exact h.goto rfl rfl rfl nofun (fun _ => .inl) id (fun _ _ _ => hd) fun _ => hd

theorem Reachable.first (h : Reachable v s) : First v s := by
  induction h with
  | refl => exact ⟨by cases v <;> rfl, nofun, nofun, nofun, fun hr => absurd rfl hr⟩
  | tail hr hstep ih =>
    obtain ⟨i, ha⟩ := hstep
    exact ha.first (Reachable.winner hr) ih

/-! ## The blocked list is read when it is complete -/

/-- The get is counted in the lock. -/
def Pc.inside : Pc n α → Bool
  | .getValue | .getUnlock _ | .blockRead | .blockCas _ | .blockUnlock => true
  | _ => false

/-- The get has found the value empty. -/
def Pc.blocking : Pc n α → Bool
  | .blockRead | .blockCas _ | .blockUnlock => true
  | _ => false

/-- The spin of the put has ended. -/
def State.Over (s : State n α) : Prop := s.drained = true ∨ ∃ i, s.pcs i = .putBlocked

/-- The lock counts the gets inside, and where the spin has ended none is about to block. -/
structure Drain (s : State n α) : Prop where
  lock : s.lock = (∑ i, (s.pcs i).inside.toNat : Nat)
  waits : s.Over → ∀ j, (s.pcs j).blocking = false

theorem Winner.over (h : Winner s) (ho : s.Over) : s.value.isSome = true :=
  h.value (ho.imp id fun ⟨i, hi⟩ => ⟨i, by rw [hi]; rfl⟩)

theorem Pc.inside_of_blocking (h : pc.blocking = true) : pc.inside = true := by
  cases pc with
  | blockRead | blockCas _ | blockUnlock => rfl
  | _ => cases h

/-- A get that blocks has found the value empty, so the spin is not over. -/
theorem Drain.goto (h : Drain s) (hpcs : s'.pcs = update s.pcs i pc)
    (hlock : s'.lock + (s.pcs i).inside.toNat = s.lock + pc.inside.toNat)
    (hover : s'.drained = true ∨ pc = .putBlocked → s.Over ∨ pc.blocking = false ∧ ∀ j, (s.pcs j).blocking = false)
    (hblock : pc.blocking = true → (s.pcs i).blocking = true ∨ ¬ s.Over) : Drain s' := by
  have hsum := sum_update s.pcs (fun pc => pc.inside.toNat) i pc
  rw [← hpcs] at hsum
  refine ⟨?_, fun ho j => ?_⟩
  · have hl := h.lock
    omega
  · have hs : s.Over ∨ pc.blocking = false ∧ ∀ j, (s.pcs j).blocking = false := by
      rcases ho with hd | ⟨k, hk⟩
      · exact hover (.inl hd)
      · rw [hpcs] at hk
        by_cases hki : k = i
        · rw [hki, update_self] at hk
          exact hover (.inr hk)
        · rw [update_of_ne hki] at hk
          exact .inl (.inr ⟨k, hk⟩)
    have hnone : pc.blocking = false ∧ ∀ j, (s.pcs j).blocking = false := by
      rcases hs with hs | hs
      · refine ⟨?_, h.waits hs⟩
        cases hb : pc.blocking with
        | false => rfl
        | true =>
          rcases hblock hb with hi | hn
          · exact hi.symm.trans (h.waits hs i)
          · exact absurd hs hn
      · exact hs
    rw [hpcs]
    by_cases hji : j = i
    · rw [hji, update_self]
      exact hnone.1
    · rw [update_of_ne hji]
      exact hnone.2 j

/-- A step that does not end the spin. -/
theorem Drain.same (h : Drain s) (hpcs : s'.pcs = update s.pcs i pc)
    (hlock : s'.lock + (s.pcs i).inside.toNat = s.lock + pc.inside.toNat) (hdrained : s'.drained = s.drained)
    (hpc : pc ≠ .putBlocked) (hblock : pc.blocking = true → (s.pcs i).blocking = true ∨ ¬ s.Over) : Drain s' :=
  h.goto hpcs hlock (fun ho => .inl (.inl (hdrained ▸ ho.resolve_right hpc))) hblock

theorem Act.drain (hw : Winner s) (h : Drain s) (ha : Act s i s') : Drain s' := by
  cases ha with
  | callGet hpc | getSome hpc _ | callPut hpc | putWin hpc _ | putLose hpc _ | putResume hpc | putDone hpc
  | resumed hpc _ => exact h.same rfl (by rw [hpc]; rfl) rfl nofun nofun
  | getLock hpc =>
    refine h.same rfl ?_ rfl nofun nofun
    rw [hpc]
    show s.lock + 1 + 0 = s.lock + 1
    omega
  | getUnlock hpc | blockUnlock hpc =>
    refine h.same rfl ?_ rfl nofun nofun
    rw [hpc]
    show s.lock + -1 + 1 = s.lock + 0
    omega
  | getEmpty hpc hv =>
    refine h.same rfl (by rw [hpc]; rfl) rfl nofun fun _ => .inr fun ho => ?_
    have hs := hw.over ho
    rw [hv] at hs
    cases hs
  | blockRead hpc | blockCas hpc _ | blockRetry hpc _ =>
    exact h.same rfl (by rw [hpc]; rfl) rfl nofun fun _ => .inl (by rw [hpc]; rfl)
  | putSpin hpc hl =>
    -- the count is zero, so no get is inside
    have hnone : ∀ j, (s.pcs j).blocking = false := by
      intro j
      have hle := le_sum (fun j => (s.pcs j).inside.toNat) j
      have hlock := h.lock
      grind [Pc.inside_of_blocking]
    exact h.goto rfl (by rw [hpc]; rfl) (fun _ => .inr ⟨rfl, hnone⟩) nofun
  | putBlocked hpc => exact h.goto rfl (by rw [hpc]; rfl) (fun _ => .inl (.inr ⟨i, hpc⟩)) nofun

theorem Reachable.drain (h : Reachable v s) : Drain s := by
  induction h with
  | refl =>
    refine ⟨?_, fun _ _ => rfl⟩
    show (0 : Int) = ((∑ _ : Fin n, 0 : Nat) : Int)
    rw [Finset.sum_const_zero]
    rfl
  | tail hr hstep ih =>
    obtain ⟨i, ha⟩ := hstep
    exact ha.drain (Reachable.winner hr) ih

/-! ## Who waits is resumed once -/

/-- The thread is on the blocked list, or taken off it and not resumed. -/
def Pc.waits : Pc n α → Bool
  | .blockUnlock | .blocked => true
  | _ => false

/-- The put is to resume the thread `j`. -/
def Pc.resumes (j : Fin n) : Pc n α → Nat
  | .putResume l => l.count j
  | _ => 0

/-- How often the thread `j` is to be resumed. -/
def State.resumptions (s : State n α) (j : Fin n) : Nat :=
  (bif s.drained then 0 else s.blocked.count j) + (∑ i, (s.pcs i).resumes j) + s.ready.count j

def Resumed (s : State n α) : Prop := ∀ j, s.resumptions j = (s.pcs j).waits.toNat

/-- A step of a thread that begins or ends to wait as the lists tell. -/
theorem Resumed.goto (h : Resumed s) (hpcs : s'.pcs = update s.pcs i pc)
    (hflow : ∀ j, (bif s'.drained then 0 else s'.blocked.count j) + pc.resumes j + s'.ready.count j + (if i = j then (s.pcs i).waits.toNat else 0) = (bif s.drained then 0 else s.blocked.count j) + (s.pcs i).resumes j + s.ready.count j + (if i = j then pc.waits.toNat else 0))
    : Resumed s' := by
  intro j
  have hsum := sum_update s.pcs (Pc.resumes j) i pc
  have hj := h j
  have hflow := hflow j
  unfold State.resumptions at hj ⊢
  rw [hpcs]
  by_cases hij : i = j
  · grind
  grind

theorem Resumed.same (h : Resumed s) (hpcs : s'.pcs = update s.pcs i pc)
    (hdrained : s'.drained = s.drained) (hblocked : s'.blocked = s.blocked) (hready : s'.ready = s.ready)
    (hresumes : ∀ j, pc.resumes j = (s.pcs i).resumes j) (hwaits : pc.waits = (s.pcs i).waits) : Resumed s' :=
  h.goto hpcs fun j => by rw [hdrained, hblocked, hready, hresumes, hwaits]

theorem Act.resumed_once (hw : Winner s) (hd : Drain s) (h : Resumed s) (ha : Act s i s') : Resumed s' := by
  cases ha with
  | callGet hpc | getLock hpc | getSome hpc _ | getUnlock hpc | getEmpty hpc _ | blockRead hpc | blockRetry hpc _
  | blockUnlock hpc | callPut hpc | putWin hpc _ | putLose hpc _ | putSpin hpc _ | putDone hpc =>
    exact h.same rfl rfl rfl rfl (fun j => by rw [hpc]; rfl) (by rw [hpc]; rfl)
  | @blockCas blocks hpc hb =>
    -- the list is not yet read, since this get is about to block
    have hnot : s.drained = false := by
      by_contra hn
      have hno := hd.waits (.inl (by simpa using hn)) i
      rw [hpc] at hno
      cases hno
    refine h.goto rfl fun j => ?_
    rw [hpc, hnot, hb]
    show (i :: blocks).count j + 0 + s.ready.count j + (if i = j then 0 else 0) =
      blocks.count j + 0 + s.ready.count j + (if i = j then 1 else 0)
    rw [List.count_cons]
    simp only [beq_iff_eq]
    split <;> omega
  | @resumed r hpc hr =>
    refine h.goto rfl fun j => ?_
    rw [hpc, hr, Multiset.count_cons]
    show (bif s.drained then 0 else s.blocked.count j) + 0 + r.count j + (if i = j then 1 else 0) =
      (bif s.drained then 0 else s.blocked.count j) + 0 + (r.count j + if j = i then 1 else 0) + (if i = j then 0 else 0)
    simp only [eq_comm]
    split <;> omega
  | putBlocked hpc =>
    have hnot := hw.first (i := i) (by rw [hpc]; rfl)
    refine h.goto rfl fun j => ?_
    rw [hpc, hnot]
    show 0 + s.blocked.count j + s.ready.count j + (if i = j then 0 else 0) =
      s.blocked.count j + 0 + s.ready.count j + (if i = j then 0 else 0)
    omega
  | @putResume thd l hpc =>
    refine h.goto rfl fun j => ?_
    rw [hpc]
    show (bif s.drained then 0 else s.blocked.count j) + l.count j + (thd ::ₘ s.ready).count j + (if i = j then 0 else 0) =
      (bif s.drained then 0 else s.blocked.count j) + (thd :: l).count j + s.ready.count j + (if i = j then 0 else 0)
    rw [List.count_cons, Multiset.count_cons]
    simp only [beq_iff_eq, eq_comm (a := j)]
    omega

theorem Reachable.resumed (h : Reachable v s) : Resumed s := by
  induction h with
  | refl =>
    intro j
    show (bif v.isSome then 0 else 0) + (∑ _ : Fin n, 0) + 0 = 0
    rw [Finset.sum_const_zero]
    cases v <;> rfl
  | tail hr hstep ih =>
    obtain ⟨i, ha⟩ := hstep
    exact ha.resumed_once (Reachable.winner hr) (Reachable.drain hr) ih

/-! ## After the put -/

/-- The get is not on its way to block. -/
def Pc.free (pc : Pc n α) : Bool := !pc.blocking && !pc.waits

/-- A value that is there stays, and a get that has not found the cell empty does not block. -/
theorem Act.after (hv : s.value.isSome = true) (ha : Act s i s') : s'.value.isSome = true ∧
    ∀ j, (s.pcs j).free = true → (s'.pcs j).free = true := by
  have hmove : ∀ pc : Pc n α, ((s.pcs i).free = true → pc.free = true) → ∀ j, (s.pcs j).free = true →
      (update s.pcs i pc j).free = true := by
    grind
  cases ha with
  | callGet _ | getLock _ | getSome _ _ | getUnlock _ | resumed _ _ | callPut _ | putLose _ _ | putSpin _ _ | putBlocked _
  | putResume _ | putDone _ => exact ⟨hv, hmove _ fun _ => rfl⟩
  | getEmpty _ he =>
    rw [he] at hv
    cases hv
  | blockRead hpc | blockCas hpc _ | blockRetry hpc _ | blockUnlock hpc => exact ⟨hv, hmove _ (by rw [hpc]; nofun)⟩
  | putWin _ _ => exact ⟨rfl, hmove _ fun _ => rfl⟩

theorem free_of_run (hv : s.value.isSome = true) (hi : (s.pcs i).free = true) (hrun : Relation.ReflTransGen Step s s') :
    (s'.pcs i).free = true := by
  suffices h : s'.value.isSome = true ∧ (s'.pcs i).free = true from h.2
  induction hrun with
  | refl => exact ⟨hv, hi⟩
  | tail _ hstep ih =>
    obtain ⟨j, ha⟩ := hstep
    obtain ⟨hv', hfree⟩ := ha.after ih.1
    exact ⟨hv', hfree i ih.2⟩

/-- What a write-once cell, made with the value `v` or with none, promises. -/
structure Sound (v : Option α) (s : State n α) : Prop where
  /-- What a get returns is the value of the first put. -/
  returned : ∀ r ∈ s.returned, ∃ x, r.2 = some x ∧ s.first v = some x
  /-- A thread that waits is to be resumed, once. -/
  resumed : ∀ i, s.resumptions i = (s.pcs i).waits.toNat
  /-- When the put has read the blocked list no get is about to block. -/
  drained : s.drained = true → ∀ i, (s.pcs i).blocking = false
  /-- A get that has not found the cell empty before the put never blocks. -/
  late : s.value.isSome = true → ∀ i, (s.pcs i).free = true → ∀ s', Relation.ReflTransGen Step s s' →
    (s'.pcs i).free = true

theorem ivar_sound (h : Reachable v s) : Sound v s where
  returned := by
    intro r hr
    obtain ⟨he, hv⟩ := h.first.returned r hr
    obtain ⟨x, hx⟩ := Option.isSome_iff_exists.mp hv
    exact ⟨x, he.trans hx, h.first.value.symm.trans hx⟩
  resumed := h.resumed
  drained := fun hd => h.drain.waits (.inl hd)
  late := fun hv _ hi _ hrun => free_of_run hv hi hrun

/-- A get blocks, the put of another thread resumes it, and it returns the value. -/
theorem ivar_sound_resumed : ∃ s : State 2 Nat, (0, some 7) ∈ s.returned ∧ Sound none s := by
  have h₀ : Reachable none (ivar 2 (none : Option Nat)) := .refl
  have h₁ := h₀.tail ⟨0, .callGet rfl⟩
  have h₂ := h₁.tail ⟨0, .getLock rfl⟩
  have h₃ := h₂.tail ⟨0, .getEmpty rfl rfl⟩
  have h₄ := h₃.tail ⟨1, .callPut (x := 7) rfl⟩
  have h₅ := h₄.tail ⟨1, .putWin rfl rfl⟩
  have h₆ := h₅.tail ⟨0, .blockRead rfl⟩
  have h₇ := h₆.tail ⟨0, .blockCas rfl rfl⟩
  have h₈ := h₇.tail ⟨0, .blockUnlock rfl⟩
  have h₉ := h₈.tail ⟨1, .putSpin rfl rfl⟩
  have h₁₀ := h₉.tail ⟨1, .putBlocked rfl⟩
  have h₁₁ := h₁₀.tail ⟨1, .putResume (l := []) rfl⟩
  have h₁₂ := h₁₁.tail ⟨0, .resumed (r := 0) rfl rfl⟩
  exact ⟨_, Multiset.mem_cons_self (0, some 7) 0, ivar_sound h₁₂⟩

end Manticore.ImplicitThread.IVar
