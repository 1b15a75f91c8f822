/-
  Manticore.Cml.MVar — M-variables: `put` and `take` (`cml/mvar.pml`).

  Any number of threads put and take; a step is one access to the M-variable, or one operation of the scheduler. The
  spin lock is the thread that holds it, and a spin that finds it taken is left out, since it changes nothing. A waiter
  is its thread; the `takeK` that a put enqueues runs once the thread has stopped.

  - `Reachable.guarded`: what the thread in the critical section has read still holds, and nobody waits when the
    M-variable is full.
  - `Reachable.account`: every value put is in the M-variable, on its way to one take, or obtained by one.
  - `Reachable.waiters`: a thread that waits is to be resumed, once.
  - `mvar_sound`: these, and that a put that finds the M-variable full changes nothing and raises.
-/

import Manticore.Library.Parties

namespace Manticore.Cml.MVar

open Parties
open Function (update update_self update_of_ne)
open Multiset (count singleton_add map_cons count_cons)

/-- A value, and the put that brought it: its thread, and how many puts that one has begun before. The value that
    `@mNew` is given comes from none. -/
structure Item (n : Nat) (α : Type) where
  call : Option (Fin n × Nat)
  mval : α

/-- Where a thread is: before the access that the name tells. -/
inductive Pc (n : Nat) (α : Type) where
  | idle
  | putLock (x : Item n α)
  | putTest (x : Item n α)
  /-- The state was true. -/
  | putFull (x : Item n α)
  | putRaise (x : Item n α)
  /-- The state was false: before `MV_WAITING` is read. -/
  | putWaiting (x : Item n α)
  | putState (x : Item n α)
  | putValue (x : Item n α)
  | putUnlock
  | handWaiting (x : Item n α) (hd : Fin n) (tl : List (Fin n))
  | handUnlock (x : Item n α) (hd : Fin n)
  | handEnqueue (x : Item n α) (hd : Fin n)
  | takeLock
  | takeTest
  /-- The state was true: before `MV_VALUE` is read. -/
  | takeValue
  | takeState (mval : Item n α)
  | takeUnlock (mval : Item n α)
  | takeReturn (mval : Item n α)
  /-- The state was false: before `MV_WAITING` is read. -/
  | waitWaiting
  | waitPush (l : List (Fin n))
  | waitUnlock
  | waitStop
  | blocked

structure State (n : Nat) (α : Type) where
  lock : Option (Fin n)
  state : Bool
  value : Item n α
  waiting : List (Fin n)
  pcs : Fin n → Pc n α
  /-- The `takeK` enqueued on the vprocs. -/
  ready : Multiset (Fin n × Item n α)
  /-- How many puts each thread has begun. -/
  calls : Fin n → Nat
  /-- The values of the puts that found the M-variable empty, and of those that raised. -/
  put : Multiset (Item n α)
  raised : Multiset (Item n α)
  /-- What each take has returned. -/
  taken : Multiset (Fin n × Item n α)

variable {n : Nat} {α : Type}

namespace State

variable (s : State n α) (i : Fin n)

def goto (pc : Pc n α) : State n α := { s with pcs := update s.pcs i pc }

def acquire : State n α := { s with lock := some i }

def unlock : State n α := { s with lock := none }

/-- A new put. -/
def callPut (a : α) : State n α :=
  { s with calls := update s.calls i (s.calls i + 1) }.goto i (.putLock ⟨some (i, s.calls i), a⟩)

end State

/-- `@mNew`: the M-variable is full. -/
def mNew (n : Nat) (item : α) : State n α :=
  ⟨none, true, ⟨none, item⟩, [], fun _ => .idle, 0, fun _ => 0, {⟨none, item⟩}, 0, 0⟩

inductive Act (s : State n α) (i : Fin n) : State n α → Prop
  | callPut {a : α} : s.pcs i = .idle → Act s i (s.callPut i a)
  | putLock {x : Item n α} : s.pcs i = .putLock x → s.lock = none → Act s i ((s.acquire i).goto i (.putTest x))
  | putFull {x : Item n α} : s.pcs i = .putTest x → s.state = true → Act s i (s.goto i (.putFull x))
  | fullUnlock {x : Item n α} : s.pcs i = .putFull x → Act s i (s.unlock.goto i (.putRaise x))
  | putRaise {x : Item n α} : s.pcs i = .putRaise x → Act s i ({ s with raised := x ::ₘ s.raised }.goto i .idle)
  | putEmpty {x : Item n α} : s.pcs i = .putTest x → s.state = false →
      Act s i ({ s with put := x ::ₘ s.put }.goto i (.putWaiting x))
  | putNil {x : Item n α} : s.pcs i = .putWaiting x → s.waiting = [] → Act s i (s.goto i (.putState x))
  | putState {x : Item n α} : s.pcs i = .putState x → Act s i ({ s with state := true }.goto i (.putValue x))
  | putValue {x : Item n α} : s.pcs i = .putValue x → Act s i ({ s with value := x }.goto i .putUnlock)
  | putUnlock : s.pcs i = .putUnlock → Act s i (s.unlock.goto i .idle)
  | putCons {x : Item n α} {hd : Fin n} {tl : List (Fin n)} : s.pcs i = .putWaiting x → s.waiting = hd :: tl →
      Act s i (s.goto i (.handWaiting x hd tl))
  | handWaiting {x : Item n α} {hd : Fin n} {tl : List (Fin n)} : s.pcs i = .handWaiting x hd tl →
      Act s i ({ s with waiting := tl }.goto i (.handUnlock x hd))
  | handUnlock {x : Item n α} {hd : Fin n} : s.pcs i = .handUnlock x hd →
      Act s i (s.unlock.goto i (.handEnqueue x hd))
  | handEnqueue {x : Item n α} {hd : Fin n} : s.pcs i = .handEnqueue x hd →
      Act s i ({ s with ready := (hd, x) ::ₘ s.ready }.goto i .idle)
  | callTake : s.pcs i = .idle → Act s i (s.goto i .takeLock)
  | takeLock : s.pcs i = .takeLock → s.lock = none → Act s i ((s.acquire i).goto i .takeTest)
  | takeFull : s.pcs i = .takeTest → s.state = true → Act s i (s.goto i .takeValue)
  | takeValue : s.pcs i = .takeValue → Act s i (s.goto i (.takeState s.value))
  | takeState {x : Item n α} : s.pcs i = .takeState x → Act s i ({ s with state := false }.goto i (.takeUnlock x))
  | takeUnlock {x : Item n α} : s.pcs i = .takeUnlock x → Act s i (s.unlock.goto i (.takeReturn x))
  | takeReturn {x : Item n α} : s.pcs i = .takeReturn x →
      Act s i ({ s with taken := (i, x) ::ₘ s.taken }.goto i .idle)
  | takeEmpty : s.pcs i = .takeTest → s.state = false → Act s i (s.goto i .waitWaiting)
  | waitWaiting : s.pcs i = .waitWaiting → Act s i (s.goto i (.waitPush s.waiting))
  | waitPush {l : List (Fin n)} : s.pcs i = .waitPush l →
      Act s i ({ s with waiting := i :: l }.goto i .waitUnlock)
  | waitUnlock : s.pcs i = .waitUnlock → Act s i (s.unlock.goto i .waitStop)
  | waitStop : s.pcs i = .waitStop → Act s i (s.goto i .blocked)
  | takeK {x : Item n α} {ready : Multiset (Fin n × Item n α)} : s.pcs i = .blocked → s.ready = (i, x) ::ₘ ready →
      Act s i ({ s with ready, taken := (i, x) ::ₘ s.taken }.goto i .idle)

def Step (s s' : State n α) : Prop := ∃ i, Act s i s'

def Reachable (item : α) (s : State n α) : Prop := Relation.ReflTransGen Step (mNew n item) s

variable {s s' : State n α} {i j : Fin n} {item : α}

theorem goto_self (s : State n α) (i : Fin n) (pc : Pc n α) : (s.goto i pc).pcs i = pc := update_self _ _ _

theorem goto_of_ne (pc : Pc n α) (h : j ≠ i) : (s.goto i pc).pcs j = s.pcs j := update_of_ne h _ _

/-! ## The critical section -/

/-- The thread holds the lock. -/
def Pc.critical : Pc n α → Bool
  | .putTest _ | .putFull _ | .putWaiting _ | .putState _ | .putValue _ | .putUnlock | .handWaiting _ _ _
  | .handUnlock _ _ | .takeTest | .takeValue | .takeState _ | .takeUnlock _ | .waitWaiting | .waitPush _
  | .waitUnlock => true
  | _ => false

/-- What a thread in the critical section has read of the M-variable. -/
def Pc.Read (s : State n α) : Pc n α → Prop
  | .putFull _ | .takeValue | .putValue _ => s.state = true
  | .putWaiting _ | .waitWaiting => s.state = false
  | .putState _ => s.state = false ∧ s.waiting = []
  | .handWaiting _ hd tl => s.state = false ∧ s.waiting = hd :: tl
  | .takeState mval => s.state = true ∧ mval = s.value
  | .waitPush l => s.state = false ∧ l = s.waiting
  | _ => True

/-- The fields that the lock guards are the same. -/
def SameFields (s s' : State n α) : Prop := s'.state = s.state ∧ s'.value = s.value ∧ s'.waiting = s.waiting

variable {pc : Pc n α}

theorem Pc.Read.congr (h : pc.Read s) (hs : SameFields s s') : pc.Read s' := by
  obtain ⟨hstate, hvalue, hwaiting⟩ := hs
  unfold Pc.Read at h ⊢
  rw [hstate, hvalue, hwaiting]
  exact h

structure Guarded (s : State n α) : Prop where
  lock : ∀ i, (s.pcs i).critical = true ↔ s.lock = some i
  read : ∀ i, (s.pcs i).Read s
  full : s.state = true → s.waiting = []

/-- The thread `i` takes the lock, keeps it, releases it or goes on without; only with it does it change the fields. -/
theorem Guarded.goto (h : Guarded s) (hpcs : s'.pcs = update s.pcs i pc)
    (hlock : s'.lock = if pc.critical then some i else if (s.pcs i).critical then none else s.lock)
    (hfree : pc.critical = true → (s.pcs i).critical = true ∨ s.lock = none)
    (hsame : (s.pcs i).critical = true ∨ SameFields s s') (hread : pc.Read s')
    (hfull : s'.state = true → s'.waiting = []) : Guarded s' := by
  have hother : ∀ j, j ≠ i → s'.pcs j = s.pcs j := fun j hj => by rw [hpcs, update_of_ne hj]
  have hself : s'.pcs i = pc := by rw [hpcs, update_self]
  -- where `i` holds the lock no other thread does
  have hexcl : ∀ j, j ≠ i → (s.pcs j).critical = true → (s.pcs i).critical = false ∧ s.lock ≠ none := by
    intro j hj hcrit
    have hl := (h.lock j).mp hcrit
    refine ⟨?_, by rw [hl]; nofun⟩
    by_contra hi
    have hli := (h.lock i).mp (by simpa using hi)
    rw [hl] at hli
    exact hj (Option.some.inj hli)
  refine ⟨fun j => ?_, fun j => ?_, hfull⟩
  · by_cases hj : j = i
    · subst hj
      rw [hself, hlock]
      cases hc : pc.critical with
      | true => simp
      | false =>
        cases hi : (s.pcs j).critical with
        | true => simp
        | false =>
          have hne : s.lock ≠ some j := fun hl => by
            have hcrit := (h.lock j).mpr hl
            rw [hi] at hcrit
            cases hcrit
          simpa using hne
    · rw [hother j hj, h.lock j, hlock]
      cases hc : pc.critical with
      | true =>
        have hnot : s.lock ≠ some j := fun hl => by
          obtain ⟨hi, hne⟩ := hexcl j hj ((h.lock j).mpr hl)
          simp_all
        simpa [hnot] using fun hij => hj hij.symm
      | false =>
        cases hi : (s.pcs i).critical with
        | true =>
          have hli := (h.lock i).mp hi
          simpa [hli] using fun hij => hj hij.symm
        | false => simp
  · by_cases hj : j = i
    · subst hj
      rw [hself]
      exact hread
    · rw [hother j hj]
      cases hcrit : (s.pcs j).critical with
      | true =>
        rcases hsame with hi | hs
        · rw [(hexcl j hj hcrit).1] at hi
          cases hi
        · exact (h.read j).congr hs
      | false =>
        cases hpc : s.pcs j <;> rw [hpc] at hcrit <;> trivial

theorem SameFields.rfl (s : State n α) : SameFields s s := ⟨Eq.refl _, Eq.refl _, Eq.refl _⟩

/-- A step inside the critical section. -/
theorem Guarded.inside (h : Guarded s) (hcrit : (s.pcs i).critical = true) (hcrit' : pc.critical = true)
    (hpcs : s'.pcs = update s.pcs i pc) (hlock : s'.lock = s.lock) (hread : pc.Read s')
    (hfull : s'.state = true → s'.waiting = []) : Guarded s' := by
  refine h.goto hpcs ?_ (fun _ => .inl hcrit) (.inl hcrit) hread hfull
  rw [if_pos hcrit', hlock]
  exact (h.lock i).mp hcrit

theorem Act.guarded (h : Guarded s) (ha : Act s i s') : Guarded s' := by
  have hread := h.read i
  cases ha with
  | callPut hpc | putRaise hpc | callTake hpc | takeReturn hpc | waitStop hpc | takeK hpc _ | handEnqueue hpc
  | fullUnlock hpc | putUnlock hpc | handUnlock hpc | takeUnlock hpc | waitUnlock hpc =>
    exact h.goto rfl (by rw [hpc]; rfl) nofun (.inr (.rfl _)) trivial h.full
  | putLock hpc hl | takeLock hpc hl => exact h.goto rfl rfl (fun _ => .inr hl) (.inr (.rfl _)) trivial h.full
  | putFull hpc hs | putEmpty hpc hs | takeFull hpc hs | takeEmpty hpc hs =>
    exact h.inside (by rw [hpc]; rfl) rfl rfl rfl hs h.full
  | putNil hpc hw | putCons hpc hw =>
    rw [hpc] at hread
    exact h.inside (by rw [hpc]; rfl) rfl rfl rfl ⟨hread, hw⟩ h.full
  | putState hpc =>
    rw [hpc] at hread
    exact h.inside (by rw [hpc]; rfl) rfl rfl rfl rfl fun _ => hread.2
  | putValue hpc => exact h.inside (by rw [hpc]; rfl) rfl rfl rfl trivial h.full
  | handWaiting hpc | waitPush hpc =>
    rw [hpc] at hread
    refine h.inside (by rw [hpc]; rfl) rfl rfl rfl trivial fun hs => ?_
    exact Bool.noConfusion (hs.symm.trans hread.1)
  | takeValue hpc | waitWaiting hpc =>
    rw [hpc] at hread
    exact h.inside (by rw [hpc]; rfl) rfl rfl rfl ⟨hread, rfl⟩ h.full
  | takeState hpc => exact h.inside (by rw [hpc]; rfl) rfl rfl rfl trivial nofun

theorem Reachable.guarded (h : Reachable item s) : Guarded s := by
  induction h with
  | refl => exact ⟨fun _ => ⟨nofun, nofun⟩, fun _ => trivial, fun _ => rfl⟩
  | tail _ hstep ih =>
    obtain ⟨i, ha⟩ := hstep
    exact ha.guarded ih

/-! ## Every value put is obtained once -/

/-- What the M-variable holds once the thread has made the write it is before. -/
def Pc.content (value : Item n α) : Pc n α → Item n α
  | .putValue x => x
  | _ => value

/-- The value of the M-variable: while one is being put, that one. -/
def State.content (s : State n α) : Item n α := match s.lock with
  | none => s.value
  | some i => (s.pcs i).content s.value

/-- What is in the M-variable. -/
def State.cell (s : State n α) : Multiset (Item n α) := if s.state then {s.content} else 0

/-- What a put takes to the M-variable or to a waiter, and what a take has got out of it. -/
def Pc.held : Pc n α → Multiset (Item n α)
  | .putWaiting x | .putState x | .handWaiting x _ _ | .handUnlock x _ | .handEnqueue x _ | .takeUnlock x
  | .takeReturn x => {x}
  | _ => 0

/-- What the threads hold and the vprocs are to hand over. -/
def State.moving (s : State n α) : Multiset (Item n α) := (∑ i, (s.pcs i).held) + s.ready.map Prod.snd

/-- Every value put is in the M-variable, moving or obtained. -/
def Balanced (s : State n α) : Prop := s.cell + s.moving + s.taken.map Prod.snd = s.put

theorem content_holder (hl : s.lock = some i) : s.content = (s.pcs i).content s.value := by
  unfold State.content
  rw [hl]

theorem content_free (hl : s.lock = none) : s.content = s.value := by
  unfold State.content
  rw [hl]

/-- The lock and the value are left as they are. -/
theorem content_goto (hpcs : s'.pcs = update s.pcs i pc) (hl : s'.lock = s.lock) (hv : s'.value = s.value)
    (hpc : pc.content s.value = (s.pcs i).content s.value) : s'.content = s.content := by
  cases hlock : s.lock with
  | none => rw [content_free (hl.trans hlock), content_free hlock, hv]
  | some j =>
    rw [content_holder (hl.trans hlock), content_holder hlock, hv, hpcs]
    by_cases hj : j = i
    · rw [hj, update_self, hpc]
    · rw [update_of_ne hj]

/-- After a step of the holder. -/
theorem content_self (hl : s.lock = some i) : (s.goto i pc).content = pc.content s.value :=
  (content_holder (s := s.goto i pc) hl).trans (by rw [goto_self]; rfl)

theorem cell_congr (hs : s'.state = s.state) (hc : s'.content = s.content) : s'.cell = s.cell := by
  unfold State.cell
  rw [hs, hc]

/-- What a step takes from one place it brings to another. -/
theorem Balanced.goto (h : Balanced s) (hpcs : s'.pcs = update s.pcs i pc)
    (hflow : s'.cell + pc.held + s'.ready.map Prod.snd + s'.taken.map Prod.snd + s.put = s.cell + (s.pcs i).held + s.ready.map Prod.snd + s.taken.map Prod.snd + s'.put)
    : Balanced s' := by
  classical
  have hsum := sum_update s.pcs Pc.held i pc
  rw [← hpcs] at hsum
  unfold Balanced State.moving at h ⊢
  refine Multiset.ext.mpr fun x => ?_
  have h := congrArg (count x) h
  have hflow := congrArg (count x) hflow
  have hsum := congrArg (count x) hsum
  simp only [Multiset.count_add] at h hflow hsum ⊢
  omega

/-- A step that leaves the M-variable as it is. -/
theorem Balanced.outside (h : Balanced s) (hpcs : s'.pcs = update s.pcs i pc) (hstate : s'.state = s.state)
    (hcontent : s'.content = s.content)
    (hflow : pc.held + s'.ready.map Prod.snd + s'.taken.map Prod.snd + s.put = (s.pcs i).held + s.ready.map Prod.snd + s.taken.map Prod.snd + s'.put)
    : Balanced s' := by
  refine h.goto hpcs ?_
  rw [cell_congr hstate hcontent]
  simp only [add_assoc] at hflow ⊢
  rw [hflow]

/-- A step that moves nothing. -/
theorem Balanced.still (h : Balanced s) (hpcs : s'.pcs = update s.pcs i pc)
    (hheld : pc.held = (s.pcs i).held) (hstate : s'.state = s.state) (hcontent : s'.content = s.content)
    (hready : s'.ready = s.ready) (htaken : s'.taken = s.taken) (hput : s'.put = s.put) : Balanced s' :=
  h.outside hpcs hstate hcontent (by rw [hheld, hready, htaken, hput])

theorem Act.balanced (hg : Guarded s) (h : Balanced s) (ha : Act s i s') : Balanced s' := by
  have hlock : (s.pcs i).critical = true → s.lock = some i := (hg.lock i).mp
  have hread := hg.read i
  cases ha with
  | callPut hpc | callTake hpc | waitStop hpc | putRaise hpc | putFull hpc _ | putNil hpc _ | putCons hpc _
  | takeFull hpc _ | takeValue hpc | takeEmpty hpc _ | waitWaiting hpc | handWaiting hpc | waitPush hpc =>
    exact h.still rfl (by rw [hpc]; rfl) rfl (content_goto rfl rfl rfl (by rw [hpc]; rfl)) rfl rfl rfl
  | putLock hpc hl | takeLock hpc hl =>
    refine h.still rfl (by rw [hpc]; rfl) rfl ?_ rfl rfl rfl
    rw [content_self (by rfl), content_free hl]
    rfl
  | fullUnlock hpc | putUnlock hpc | handUnlock hpc | takeUnlock hpc | waitUnlock hpc =>
    refine h.still rfl (by rw [hpc]; rfl) rfl ?_ rfl rfl rfl
    rw [content_free rfl, content_holder (hlock (by rw [hpc]; rfl)), hpc]
    rfl
  | @putEmpty x hpc hs =>
    refine h.outside rfl rfl (content_goto rfl rfl rfl (by rw [hpc]; rfl)) ?_
    rw [hpc]
    show {x} + s.ready.map Prod.snd + s.taken.map Prod.snd + s.put =
      0 + s.ready.map Prod.snd + s.taken.map Prod.snd + (x ::ₘ s.put)
    rw [← singleton_add]
    abel
  | @putState x hpc =>
    have hl := hlock (by rw [hpc]; rfl)
    rw [hpc] at hread
    have hcell : s.cell = 0 := if_neg (by rw [hread.1]; exact Bool.false_ne_true)
    refine h.goto rfl ?_
    rw [hcell, hpc, State.cell, content_self (by exact hl)]
    show {x} + 0 + s.ready.map Prod.snd + s.taken.map Prod.snd + s.put =
      0 + {x} + s.ready.map Prod.snd + s.taken.map Prod.snd + s.put
    abel
  | @putValue x hpc =>
    have hl := hlock (by rw [hpc]; rfl)
    refine h.still rfl (by rw [hpc]; rfl) rfl ?_ rfl rfl rfl
    rw [content_self (by exact hl), content_holder hl, hpc]
    rfl
  | @handEnqueue x hd hpc =>
    refine h.outside rfl rfl (content_goto rfl rfl rfl (by rw [hpc]; rfl)) ?_
    rw [hpc]
    show 0 + ((hd, x) ::ₘ s.ready).map Prod.snd + s.taken.map Prod.snd + s.put =
      {x} + s.ready.map Prod.snd + s.taken.map Prod.snd + s.put
    rw [map_cons, ← singleton_add]
    abel
  | @takeState x hpc =>
    refine h.goto rfl ?_
    rw [hpc] at hread
    have hl := hlock (by rw [hpc]; rfl)
    have hcell : s.cell = {x} := by
      rw [State.cell, if_pos hread.1, content_holder hl, hpc, hread.2]
      rfl
    rw [hcell, hpc]
    show 0 + {x} + s.ready.map Prod.snd + s.taken.map Prod.snd + s.put =
      {x} + 0 + s.ready.map Prod.snd + s.taken.map Prod.snd + s.put
    abel
  | @takeReturn x hpc =>
    refine h.outside rfl rfl (content_goto rfl rfl rfl (by rw [hpc]; rfl)) ?_
    rw [hpc]
    show 0 + s.ready.map Prod.snd + ((i, x) ::ₘ s.taken).map Prod.snd + s.put =
      {x} + s.ready.map Prod.snd + s.taken.map Prod.snd + s.put
    rw [map_cons, ← singleton_add]
    abel
  | @takeK x ready hpc hr =>
    refine h.outside rfl rfl (content_goto rfl rfl rfl (by rw [hpc]; rfl)) ?_
    rw [hpc, hr]
    show 0 + ready.map Prod.snd + ((i, x) ::ₘ s.taken).map Prod.snd + s.put =
      0 + ((i, x) ::ₘ ready).map Prod.snd + s.taken.map Prod.snd + s.put
    rw [map_cons, map_cons, ← singleton_add, ← singleton_add]
    abel

theorem Reachable.balanced (h : Reachable item s) : Balanced s := by
  induction h with
  | refl =>
    show {(⟨none, item⟩ : Item n α)} + ((∑ _ : Fin n, 0) + 0) + 0 = {(⟨none, item⟩ : Item n α)}
    rw [Finset.sum_const_zero]
    rfl
  | tail hr hstep ih =>
    obtain ⟨i, ha⟩ := hstep
    exact ha.balanced (Reachable.guarded hr) ih

/-- The value of a put that has not tested the state, or has found it true. -/
def Pc.pending : Pc n α → Option (Item n α)
  | .putLock x | .putTest x | .putFull x | .putRaise x => some x
  | _ => none

/-- The puts that are over, or sure not to raise. -/
def State.settled (s : State n α) : Multiset (Item n α) := s.put + s.raised

/-- The puts are told apart by their calls, and one that is pending is not settled. -/
structure Calls (s : State n α) : Prop where
  nodup : (s.settled.map Item.call).Nodup
  begun : ∀ x ∈ s.settled, ∀ j k, x.call = some (j, k) → k < s.calls j
  pending : ∀ i x, (s.pcs i).pending = some x → ∃ k, x.call = some (i, k) ∧ k < s.calls i ∧
    some (i, k) ∉ s.settled.map Item.call

/-- A put goes on, or a take. -/
theorem Calls.goto (h : Calls s) (hpcs : s'.pcs = update s.pcs i pc)
    (hpc : ∀ x, pc.pending = some x → (s.pcs i).pending = some x) (hcalls : s'.calls = s.calls)
    (hset : s'.settled = s.settled) : Calls s' := by
  refine ⟨by rw [hset]; exact h.nodup, by rw [hset, hcalls]; exact h.begun, fun j x hx => ?_⟩
  rw [hset, hcalls]
  rw [hpcs] at hx
  by_cases hj : j = i
  · subst hj
    rw [update_self] at hx
    exact h.pending j x (hpc x hx)
  · rw [update_of_ne hj] at hx
    exact h.pending j x hx

/-- A pending put is settled. -/
theorem Calls.settle (h : Calls s) {x : Item n α} (hpcs : s'.pcs = update s.pcs i pc)
    (hx : (s.pcs i).pending = some x) (hpc : pc.pending = none) (hcalls : s'.calls = s.calls)
    (hset : s'.settled = x ::ₘ s.settled) : Calls s' := by
  obtain ⟨k, hcall, hlt, hnew⟩ := h.pending i x hx
  refine ⟨?_, fun y hy j m hm => ?_, fun j y hy => ?_⟩
  · rw [hset, map_cons, hcall]
    exact Multiset.nodup_cons.mpr ⟨hnew, h.nodup⟩
  · rw [hset] at hy
    rw [hcalls]
    rcases Multiset.mem_cons.mp hy with rfl | hy
    · rw [hcall] at hm
      cases hm
      exact hlt
    · exact h.begun y hy j m hm
  · rw [hpcs] at hy
    by_cases hj : j = i
    · subst hj
      rw [update_self, hpc] at hy
      cases hy
    · rw [update_of_ne hj] at hy
      obtain ⟨m, hym, hmlt, hmnew⟩ := h.pending j y hy
      grind [map_cons]

theorem Calls.callPut (h : Calls s) (i : Fin n) (a : α) : Calls (s.callPut i a) := by
  have hle : ∀ j, s.calls j ≤ (s.callPut i a).calls j := fun j => by
    show s.calls j ≤ update s.calls i (s.calls i + 1) j
    by_cases hj : j = i
    · rw [hj, update_self]
      exact Nat.le_succ _
    · rw [update_of_ne hj]
  refine ⟨h.nodup, fun y hy j m hm => Nat.lt_of_lt_of_le (h.begun y hy j m hm) (hle j), fun j y hy => ?_⟩
  by_cases hj : j = i
  · subst hj
    rw [State.callPut, goto_self] at hy
    cases hy
    refine ⟨s.calls j, rfl, ?_, fun hmem => ?_⟩
    · show s.calls j < update s.calls j (s.calls j + 1) j
      rw [update_self]
      exact Nat.lt_succ_self _
    · obtain ⟨y, hy, hcall⟩ := Multiset.mem_map.mp hmem
      exact Nat.lt_irrefl _ (h.begun y hy j _ hcall)
  · rw [State.callPut, goto_of_ne _ hj] at hy
    obtain ⟨m, hym, hmlt, hmnew⟩ := h.pending j y hy
    exact ⟨m, hym, Nat.lt_of_lt_of_le hmlt (hle j), hmnew⟩

theorem Act.calls (h : Calls s) (ha : Act s i s') : Calls s' := by
  cases ha with
  | callPut _ => exact h.callPut _ _
  | putLock hpc _ | putFull hpc _ | fullUnlock hpc => exact h.goto rfl (fun x hx => by rw [hpc]; exact hx) rfl rfl
  | putRaise hpc => exact h.settle rfl (by rw [hpc]; rfl) rfl rfl (Multiset.add_cons _ _ _)
  | putEmpty hpc _ => exact h.settle rfl (by rw [hpc]; rfl) rfl rfl (Multiset.cons_add _ _ _)
  | putNil _ _ | putState _ | putValue _ | putUnlock _ | putCons _ _ | handWaiting _ | handUnlock _ | handEnqueue _
  | callTake _ | takeLock _ _ | takeFull _ _ | takeValue _ | takeState _ | takeUnlock _ | takeReturn _ | takeEmpty _ _
  | waitWaiting _ | waitPush _ | waitUnlock _ | waitStop _ | takeK _ _ => exact h.goto rfl nofun rfl rfl

theorem Reachable.calls (h : Reachable item s) : Calls s := by
  induction h with
  | refl =>
    refine ⟨Multiset.nodup_singleton _, fun x hx j k hk => ?_, nofun⟩
    obtain rfl := Multiset.mem_singleton.mp hx
    cases hk
  | tail _ hstep ih =>
    obtain ⟨i, ha⟩ := hstep
    exact ha.calls ih

/-! ## Who waits is resumed once -/

/-- The continuation of the take is in the waiting list, with a put or on a vproc. -/
def Pc.waits : Pc n α → Bool
  | .waitUnlock | .waitStop | .blocked => true
  | _ => false

/-- The put is to resume the thread `j`. -/
def Pc.hands (j : Fin n) : Pc n α → Nat
  | .handUnlock _ hd | .handEnqueue _ hd => if hd = j then 1 else 0
  | _ => 0

/-- How often the thread `j` is to be resumed. -/
def State.resumptions (s : State n α) (j : Fin n) : Nat :=
  s.waiting.count j + (∑ i, (s.pcs i).hands j) + (s.ready.map Prod.fst).count j

def Waiters (s : State n α) : Prop := ∀ j, s.resumptions j = (s.pcs j).waits.toNat

/-- A step of a thread that begins or ends to wait as the lists tell. -/
theorem Waiters.goto (h : Waiters s) (hpcs : s'.pcs = update s.pcs i pc)
    (hflow : ∀ j, s'.waiting.count j + pc.hands j + (s'.ready.map Prod.fst).count j + (if i = j then (s.pcs i).waits.toNat else 0) = s.waiting.count j + (s.pcs i).hands j + (s.ready.map Prod.fst).count j + (if i = j then pc.waits.toNat else 0))
    : Waiters s' := by
  intro j
  have hsum := sum_update s.pcs (Pc.hands j) i pc
  have hj := h j
  have hflow := hflow j
  unfold State.resumptions at hj ⊢
  rw [hpcs]
  by_cases hij : i = j
  · grind
  grind

/-- A step of a thread that waits for nobody and hands nothing over. -/
theorem Waiters.same (h : Waiters s) (hpcs : s'.pcs = update s.pcs i pc)
    (hwaiting : s'.waiting = s.waiting) (hready : s'.ready = s.ready) (hhands : pc.hands = (s.pcs i).hands)
    (hwaits : pc.waits = (s.pcs i).waits) : Waiters s' :=
  h.goto hpcs fun j => by rw [hwaiting, hready, hwaits, congrFun hhands j]

theorem Act.waiters (hg : Guarded s) (h : Waiters s) (ha : Act s i s') : Waiters s' := by
  have hread := hg.read i
  cases ha with
  | callPut hpc | putLock hpc _ | putFull hpc _ | fullUnlock hpc | putRaise hpc | putEmpty hpc _ | putNil hpc _
  | putState hpc | putValue hpc | putUnlock hpc | putCons hpc _ | handUnlock hpc | callTake hpc | takeLock hpc _
  | takeFull hpc _ | takeValue hpc | takeState hpc | takeUnlock hpc | takeReturn hpc | takeEmpty hpc _
  | waitWaiting hpc | waitUnlock hpc | waitStop hpc =>
    exact h.same rfl rfl rfl (by rw [hpc]; rfl) (by rw [hpc]; rfl)
  | @handWaiting x hd tl hpc =>
    rw [hpc] at hread
    refine h.goto rfl fun j => ?_
    rw [hpc, hread.2, List.count_cons]
    show tl.count j + (if hd = j then 1 else 0) + (s.ready.map Prod.fst).count j + (if i = j then 0 else 0) =
      tl.count j + (if hd == j then 1 else 0) + 0 + (s.ready.map Prod.fst).count j + (if i = j then 0 else 0)
    simp only [beq_iff_eq]
    omega
  | @handEnqueue x hd hpc =>
    refine h.goto rfl fun j => ?_
    rw [hpc]
    show s.waiting.count j + 0 + (((hd, x) ::ₘ s.ready).map Prod.fst).count j + (if i = j then 0 else 0) =
      s.waiting.count j + (if hd = j then 1 else 0) + (s.ready.map Prod.fst).count j + (if i = j then 0 else 0)
    rw [map_cons, count_cons]
    simp only [eq_comm]
    omega
  | @waitPush l hpc =>
    rw [hpc] at hread
    refine h.goto rfl fun j => ?_
    rw [hpc]
    show (i :: l).count j + 0 + (s.ready.map Prod.fst).count j + (if i = j then 0 else 0) =
      s.waiting.count j + 0 + (s.ready.map Prod.fst).count j + (if i = j then 1 else 0)
    rw [← hread.2, List.count_cons]
    simp only [beq_iff_eq]
    split <;> omega
  | @takeK x ready hpc hr =>
    refine h.goto rfl fun j => ?_
    rw [hpc, hr]
    show s.waiting.count j + 0 + (ready.map Prod.fst).count j + (if i = j then 1 else 0) =
      s.waiting.count j + 0 + (((i, x) ::ₘ ready).map Prod.fst).count j + (if i = j then 0 else 0)
    rw [map_cons, count_cons]
    simp only [eq_comm]
    split <;> omega

theorem Reachable.waiters (h : Reachable item s) : Waiters s := by
  induction h with
  | refl =>
    intro j
    show 0 + (∑ _ : Fin n, 0) + 0 = 0
    rw [Finset.sum_const_zero]
    rfl
  | tail hr hstep ih =>
    obtain ⟨i, ha⟩ := hstep
    exact ha.waiters (Reachable.guarded hr) ih

/-! ## A put on a full M-variable -/

/-- The other threads stay where they are, and only the holder of the lock changes the fields. -/
theorem Act.frame (ha : Act s i s') : (∀ j, j ≠ i → s'.pcs j = s.pcs j) ∧
    ((s.pcs i).critical = false → SameFields s s') ∧ ∀ x ∈ s.raised, x ∈ s'.raised := by
  refine ⟨fun j hj => ?_, fun hcrit => ?_, fun x hx => ?_⟩
  · cases ha <;> exact goto_of_ne _ hj
  · cases ha with
    | putState hpc | putValue hpc | handWaiting hpc | takeState hpc | waitPush hpc =>
      rw [hpc] at hcrit
      cases hcrit
    | _ => exact .rfl s
  · cases ha with
    | putRaise _ => exact Multiset.mem_cons_of_mem hx
    | _ => exact hx

/-- A put that has the lock of a full M-variable keeps the fields as they are until it releases it, then it raises. -/
theorem put_full {x : Item n α} (h : Reachable item s) (hpc : s.pcs i = .putLock x) (hl : s.lock = none)
    (hs : s.state = true) (hrun : Relation.ReflTransGen Step ((s.acquire i).goto i (.putTest x)) s') :
    (s'.pcs i = .putTest x ∨ s'.pcs i = .putFull x) ∧ SameFields s s' ∨ s'.pcs i = .putRaise x ∨ x ∈ s'.raised := by
  have h₁ : Reachable item ((s.acquire i).goto i (.putTest x)) := h.tail ⟨i, .putLock hpc hl⟩
  induction hrun with
  | refl => exact .inl ⟨.inl (goto_self _ _ _), .rfl s⟩
  | @tail t t' hr hstep ih =>
    obtain ⟨j, ha⟩ := hstep
    obtain ⟨hothers, hfields, hraised⟩ := ha.frame
    have hg : Guarded t := Reachable.guarded (h₁.trans hr)
    rcases ih with ⟨hti, hsame⟩ | hti | hti
    · have hcrit : (t.pcs i).critical = true := by rcases hti with hti | hti <;> rw [hti] <;> rfl
      by_cases hj : j = i
      · subst hj
        have hstate : t.state = true := hsame.1.trans hs
        rcases hti with hti | hti
        · cases ha with
          | putFull hpc _ =>
            rw [hti] at hpc
            cases hpc
            exact .inl ⟨.inr (goto_self _ _ _), hsame⟩
          | putEmpty _ hf => exact Bool.noConfusion (hf.symm.trans hstate)
          | _ => simp_all
        · cases ha with
          | fullUnlock hpc =>
            rw [hti] at hpc
            cases hpc
            exact .inr (.inl (goto_self _ _ _))
          | _ => simp_all
      · refine .inl ⟨by rw [hothers i (Ne.symm hj)]; exact hti, ?_⟩
        have hnot : (t.pcs j).critical = false := by
          by_contra hc
          have hlj := (hg.lock j).mp (by simpa using hc)
          rw [(hg.lock i).mp hcrit] at hlj
          exact hj (Option.some.inj hlj).symm
        obtain ⟨h1, h2, h3⟩ := hfields hnot
        exact ⟨h1.trans hsame.1, h2.trans hsame.2.1, h3.trans hsame.2.2⟩
    · by_cases hj : j = i
      · subst hj
        cases ha with
        | putRaise hpc =>
          rw [hti] at hpc
          cases hpc
          exact .inr (.inr (Multiset.mem_cons_self _ _))
        | _ => simp_all
      · exact .inr (.inl ((hothers i (Ne.symm hj)).trans hti))
    · exact .inr (.inr (hraised x hti))

/-- What an M-variable promises. -/
structure Sound (s : State n α) : Prop where
  /-- It is never full while a taker waits, and a taker that waits is resumed once. -/
  full : s.state = true → s.waiting = []
  waiters : ∀ i, s.resumptions i = (s.pcs i).waits.toNat
  /-- The values put are in it, on their way to a take or obtained by one, and they are told apart by their calls. -/
  once : s.cell + s.moving + s.taken.map Prod.snd = s.put
  calls : (s.settled.map Item.call).Nodup
  /-- A put that finds it full changes nothing, and raises. -/
  raises : ∀ i x, s.pcs i = .putLock x → s.lock = none → s.state = true →
    ∀ s', Relation.ReflTransGen Step ((s.acquire i).goto i (.putTest x)) s' →
      (s'.pcs i = .putTest x ∨ s'.pcs i = .putFull x) ∧ SameFields s s' ∨ s'.pcs i = .putRaise x ∨ x ∈ s'.raised

theorem mvar_sound (h : Reachable item s) : Sound s where
  full := h.guarded.full
  waiters := h.waiters
  once := h.balanced
  calls := h.calls.nodup
  raises := fun _ _ hpc hl hs _ hrun => put_full h hpc hl hs hrun

/-- A thread is about to put on the full M-variable. -/
theorem mvar_sound_put : ∃ s : State 2 Nat, s.pcs 0 = .putLock ⟨some (0, 0), 7⟩ ∧ s.lock = none ∧ s.state = true ∧
    Sound s :=
  have h₀ : Reachable 5 (mNew 2 5) := .refl
  ⟨_, goto_self _ _ _, rfl, rfl, mvar_sound (h₀.tail ⟨0, .callPut (a := 7) rfl⟩)⟩

end Manticore.Cml.MVar
