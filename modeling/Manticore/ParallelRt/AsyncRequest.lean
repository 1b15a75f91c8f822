/-
  Manticore.ParallelRt.AsyncRequest — asynchronous requests to a vproc: the loop of `RunManticore` (`vproc/apply.c`),
  `VProcSleep`, `VProcPreempt` and `VProcGlobalGCInterrupt` (`vproc/vproc.c`), the tests of `MinorGC` and `MajorGC`
  and the entry of `StartGlobalGC` (`gc/`), `@atomic-end` (`runtime/scheduler-action.pml`).

  A step is one access to a flag, the limit pointer or the landing pad. Of the limit pointer only whether it is zero
  is modelled, of the landing pad how many signals it has; a wait may end at any time (what wakes it is the subject of
  `LandingPad`). `recorded` says that a signal has been recorded and not been delivered yet.

  - `request_forgotten`: a request to sleep discards a limit pointer of zero, and the vproc blocks with a global
    collection pending. The entry into a global collection discards a recorded signal.
  - `async_requests`: neither happens in a run that avoids these steps.
-/

import Mathlib

namespace Manticore.ParallelRt.AsyncRequest

/-- What the Manticore code returns with. `exhausted`: the allocation pointer has reached the limit of the nursery;
    `forever`: the time to sleep is zero. -/
inductive Request where
  | gc (exhausted : Bool)
  | sleep (forever : Bool)
  | return
  deriving DecidableEq, Repr

/-- Where the vproc is. `old`: the limit pointer was zero. -/
inductive Pc where
  /-- The top of the loop. -/
  | top
  /-- In `ASM_Apply`. -/
  | apply
  /-- Before the exchange of the limit pointer. -/
  | request (r : Request)
  | gcTest (exhausted old : Bool)
  | minorGC (old : Bool)
  | majorGC (old : Bool)
  /-- `StartGlobalGC`, before its first assignment. -/
  | startGlobalGC (old : Bool)
  /-- Before its second. -/
  | clearSig (old : Bool)
  /-- The check for asynchronous signals. -/
  | async (old : Bool)
  | deliver
  | sleepTest (forever : Bool)
  /-- In `CondWait`. -/
  | blocked (forever : Bool)
  /-- `REQ_Return`, before the signal to itself, and before the preemption. -/
  | returnSend
  | returnPreempt
  deriving DecidableEq, Repr

/-- Where a remote vproc is in `VProcGlobalGCInterrupt`: not in it, before the signal, or before the preemption. -/
inductive Remote where
  | idle
  | send
  | preempt
  deriving DecidableEq, Repr

structure State (n : Nat) where
  globalGCPending : Bool
  limitZero : Bool
  sigPending : Bool
  atomic : Bool
  landingPad : Nat
  shutdownFlg : Bool
  shutdownPending : Bool
  recorded : Bool
  pc : Pc
  remotes : Fin n → Remote

variable {n : Nat}

namespace State

variable (s : State n)

def goto (pc : Pc) : State n := { s with pc }

def setRemote (i : Fin n) (r : Remote) : State n := { s with remotes := Function.update s.remotes i r }

/-- The signal goes to the code of the scheduler. -/
def handle : State n := { s with atomic := true, sigPending := false, recorded := false, pc := .top }

/-- The top of the loop: the shutdown continuation is scheduled once. -/
def checkShutdown : State n :=
  if s.shutdownFlg && !s.shutdownPending then
    { s with atomic := true, sigPending := false, shutdownPending := true, pc := .apply }
  else { s with pc := .apply }

/-- `SetLimitPtr(vp, LimitPtr(vp))`, and the branch of the request. -/
def exchange (r : Request) : State n :=
  { s with
    limitZero := false
    pc := match r with
      | .gc exhausted => .gcTest exhausted s.limitZero
      | .sleep forever => .sleepTest forever
      | .return => .returnSend }

/-- `if (oldLimitPtr == 0) vp->sigPending = M_TRUE`. -/
def checkAsync (old : Bool) : State n :=
  if old then { s with sigPending := true, recorded := true, pc := .deliver } else { s with pc := .deliver }

end State

/-- A step of the vproc; `b` is what the sizes of the heap decide. -/
inductive Own (s : State n) : State n → Prop
  | top : s.pc = .top → Own s s.checkShutdown
  /-- The code masks and unmasks signals, and collects its landing pad. -/
  | atomicBegin : s.pc = .apply → Own s { s with atomic := true }
  | atomicEndNoCheck : s.pc = .apply → Own s { s with atomic := false }
  | atomicEnd : s.pc = .apply → Own s (if s.sigPending then { s with sigPending := false, recorded := false }
      else { s with atomic := false })
  | recv : s.pc = .apply → Own s { s with landingPad := 0 }
  | request (r : Request) : s.pc = .apply → Own s (s.goto (.request r))
  | exchange {r : Request} : s.pc = .request r → Own s (s.exchange r)
  | gcTest {exhausted old : Bool} : s.pc = .gcTest exhausted old →
      Own s (s.goto (if exhausted || s.globalGCPending then .minorGC old else .async old))
  | minorGC {old : Bool} (b : Bool) : s.pc = .minorGC old →
      Own s (s.goto (if b || s.globalGCPending then .majorGC old else .async old))
  | majorGC {old : Bool} (b : Bool) : s.pc = .majorGC old →
      Own s (s.goto (if s.globalGCPending || b then .startGlobalGC old else .async old))
  | startGlobalGC {old : Bool} : s.pc = .startGlobalGC old →
      Own s ({ s with globalGCPending := false }.goto (.clearSig old))
  | clearSig {old : Bool} : s.pc = .clearSig old → Own s ({ s with sigPending := false }.goto (.async old))
  | async {old : Bool} : s.pc = .async old → Own s (s.checkAsync old)
  | deliver : s.pc = .deliver → Own s (if s.sigPending && !s.atomic then s.handle else s.goto .top)
  | sleepTest {forever : Bool} : s.pc = .sleepTest forever →
      Own s (s.goto (if s.landingPad = 0 then .blocked forever else .top))
  | wake {forever : Bool} : s.pc = .blocked forever → Own s (s.goto (.sleepTest forever))
  /-- The time of `VProcNanosleep` is over. -/
  | timeout : s.pc = .blocked false → Own s (s.goto .top)
  | returnSend : s.pc = .returnSend →
      Own s ({ s with shutdownFlg := true, landingPad := s.landingPad + 1 }.goto .returnPreempt)
  | returnPreempt : s.pc = .returnPreempt → Own s ({ s with limitZero := true }.goto .top)

/-- A step of another vproc. -/
inductive Other (s : State n) : State n → Prop
  | interrupt {i : Fin n} : s.remotes i = .idle → Other s ({ s with globalGCPending := true }.setRemote i .send)
  | send {i : Fin n} : s.remotes i = .send → Other s ({ s with landingPad := s.landingPad + 1 }.setRemote i .preempt)
  | preempt {i : Fin n} : s.remotes i = .preempt → Other s ({ s with limitZero := true }.setRemote i .idle)
  /-- `VProcPreempt`, `VProcSendSignal` and the shutdown flag, on their own. -/
  | vprocPreempt : Other s { s with limitZero := true }
  | sendSignal : Other s { s with landingPad := s.landingPad + 1 }
  | shutdown : Other s { s with shutdownFlg := true }

def start : State n := ⟨false, false, false, false, 0, false, false, false, .top, fun _ => .idle⟩

def Step (s s' : State n) : Prop := Own s s' ∨ Other s s'

def Reachable (s : State n) : Prop := Relation.ReflTransGen Step start s

/-- No call of `VProcGlobalGCInterrupt` has begun and not finished. -/
def Quiet (s : State n) : Prop := ∀ i, s.remotes i = .idle

/-- About to collect: a request for a collection, with the tests that lead to the global one still ahead. -/
def Pc.Collects : Pc → Prop
  | .request (.gc _) | .gcTest _ _ | .minorGC _ | .majorGC _ | .startGlobalGC _ => True
  | _ => False

/-- No request is forgotten; a call of `VProcGlobalGCInterrupt` that has not finished is still on its way. -/
structure Heard (s : State n) : Prop where
  pending : Quiet s → s.globalGCPending = true → s.limitZero = true ∨ s.sigPending = true ∨ s.pc.Collects
  awake : Quiet s → ∀ forever, ¬ (s.pc = .blocked forever ∧ s.globalGCPending = true ∧ s.landingPad = 0)
  /-- A recorded signal is kept, and delivered by the first collection request with signals unmasked. -/
  recorded : s.recorded = true → s.sigPending = true
  delivered : s.recorded = true → s.pc = .deliver → s.atomic = false → ∀ s', Own s s' → s' = s.handle

/-- The vproc does not request to sleep or return while a global collection is pending, and neither enters a global
    collection nor shuts down while a signal is. -/
structure Heeds (s : State n) : Prop where
  request : ∀ r, s.pc = .request r → (∀ exhausted, r ≠ .gc exhausted) → s.globalGCPending = false
  collection : ∀ old, s.pc = .clearSig old → s.sigPending = false
  shutdown : s.pc = .top → s.shutdownFlg = true → s.shutdownPending = false → s.sigPending = false

def Careful (s s' : State n) : Prop := Own s s' ∧ Heeds s ∨ Other s s'

/-! ## Runs -/

/-- In `VProcSleep`. -/
def Pc.Sleeps : Pc → Prop
  | .sleepTest _ | .blocked _ => True
  | _ => False

structure Inv (s : State n) : Prop where
  pending : s.globalGCPending = true → s.limitZero = true ∨ (∃ i, s.remotes i ≠ .idle) ∨ s.pc.Collects
  sleeps : s.pc.Sleeps → s.globalGCPending = true → s.landingPad ≠ 0 ∨ ∃ i, s.remotes i = .send
  recorded : s.recorded = true → s.sigPending = true

variable {s s' : State n}

/-- The vproc goes on to a place outside `VProcSleep`; a pending collection is not lost sight of. -/
theorem Inv.goto (h : Inv s) {pc : Pc} (hpc : s.globalGCPending = true → s.pc.Collects → pc.Collects)
    (hsleeps : ¬ pc.Sleeps) : Inv (s.goto pc) := by
  refine ⟨fun hp => ?_, fun hs => absurd hs hsleeps, h.recorded⟩
  rcases h.pending hp with hzero | hremote | hcollects
  · exact .inl hzero
  · exact .inr (.inl hremote)
  · exact .inr (.inr (hpc hp hcollects))

theorem Own.inv (h : Inv s) (hheeds : Heeds s) (hstep : Own s s') : Inv s' := by
  cases hstep with
  | top hpc =>
    unfold State.checkShutdown
    split
    · rename_i hflags
      rw [Bool.and_eq_true, Bool.not_eq_true'] at hflags
      refine ⟨fun hp => ?_, fun hs => hs.elim, fun hr => ?_⟩
      · have hpend := h.pending hp
        rw [hpc] at hpend
        exact hpend
      · have hsig := h.recorded hr
        rw [hheeds.shutdown hpc hflags.1 hflags.2] at hsig
        cases hsig
    · exact h.goto (fun _ hc => by rw [hpc] at hc; exact hc) id
  | atomicBegin hpc | atomicEndNoCheck hpc => exact ⟨h.pending, h.sleeps, h.recorded⟩
  | atomicEnd hpc =>
    split
    · exact ⟨h.pending, h.sleeps, nofun⟩
    · exact ⟨h.pending, h.sleeps, h.recorded⟩
  | recv hpc => exact ⟨h.pending, fun hs => by rw [show s.pc = .apply from hpc] at hs; exact hs.elim, h.recorded⟩
  | request r hpc =>
    refine h.goto (fun _ hc => by rw [hpc] at hc; exact hc.elim) ?_
    cases r <;> exact id
  | @exchange r hpc =>
    unfold State.exchange
    cases r with
    | gc exhausted => exact ⟨fun _ => .inr (.inr trivial), fun hs => hs.elim, h.recorded⟩
    | sleep forever =>
      have hp := hheeds.request _ hpc nofun
      have hno : s.globalGCPending ≠ true := Bool.eq_false_iff.mp hp
      exact ⟨fun hp' => absurd hp' hno, fun _ hp' => absurd hp' hno, h.recorded⟩
    | «return» =>
      have hp := hheeds.request _ hpc nofun
      have hno : s.globalGCPending ≠ true := Bool.eq_false_iff.mp hp
      exact ⟨fun hp' => absurd hp' hno, fun hs => hs.elim, h.recorded⟩
  | gcTest | minorGC =>
    refine h.goto (fun hp _ => ?_) ?_
    · rw [hp, Bool.or_true, if_pos rfl]
      trivial
    · split <;> exact id
  | @majorGC old b hpc =>
    refine h.goto (fun hp _ => ?_) ?_
    · rw [hp, Bool.true_or, if_pos rfl]
      trivial
    · split <;> exact id
  | startGlobalGC hpc => exact ⟨nofun, fun hs => hs.elim, h.recorded⟩
  | clearSig hpc =>
    refine ⟨fun hp => ?_, fun hs => hs.elim, fun hr => ?_⟩
    · have hpend := h.pending hp
      rw [hpc] at hpend
      exact hpend
    · have hsig := h.recorded hr
      rw [hheeds.collection _ hpc] at hsig
      cases hsig
  | @async old hpc =>
    have hpend := h.pending
    rw [hpc] at hpend
    unfold State.checkAsync
    split
    · exact ⟨hpend, fun hs => hs.elim, fun _ => rfl⟩
    · exact ⟨hpend, fun hs => hs.elim, h.recorded⟩
  | deliver hpc =>
    have hpend := h.pending
    rw [hpc] at hpend
    split
    · exact ⟨hpend, fun hs => hs.elim, nofun⟩
    · exact ⟨hpend, fun hs => hs.elim, h.recorded⟩
  | @sleepTest forever hpc =>
    have hpend := h.pending
    have hsleeps := h.sleeps (by rw [hpc]; trivial)
    rw [hpc] at hpend
    split
    · exact ⟨hpend, fun _ => hsleeps, h.recorded⟩
    · exact ⟨hpend, fun hs => hs.elim, h.recorded⟩
  | wake hpc =>
    have hpend := h.pending
    have hsleeps := h.sleeps (by rw [hpc]; trivial)
    rw [hpc] at hpend
    exact ⟨hpend, fun _ => hsleeps, h.recorded⟩
  | timeout hpc =>
    exact h.goto (fun _ hc => by rw [hpc] at hc; exact hc) id
  | returnSend hpc =>
    have hpend := h.pending
    rw [hpc] at hpend
    exact ⟨hpend, fun hs => hs.elim, h.recorded⟩
  | returnPreempt hpc => exact ⟨fun _ => .inl rfl, fun hs => hs.elim, h.recorded⟩

theorem setRemote_self (s : State n) (i : Fin n) (r : Remote) : (s.setRemote i r).remotes i = r :=
  Function.update_self _ _ _

theorem setRemote_of_ne {i j : Fin n} (r : Remote) (h : j ≠ i) : (s.setRemote i r).remotes j = s.remotes j :=
  Function.update_of_ne h _ _

theorem Other.inv (h : Inv s) (hstep : Other s s') : Inv s' := by
  cases hstep with
  | @interrupt i hi =>
    refine ⟨fun _ => .inr (.inl ⟨i, ?_⟩), fun _ _ => .inr ⟨i, setRemote_self _ _ _⟩, h.recorded⟩
    rw [setRemote_self]
    exact nofun
  | @send i hi =>
    refine ⟨fun _ => .inr (.inl ⟨i, ?_⟩), fun _ _ => .inl (Nat.succ_ne_zero _), h.recorded⟩
    rw [setRemote_self]
    exact nofun
  | @preempt i hi =>
    refine ⟨fun _ => .inl rfl, fun hs hp => ?_, h.recorded⟩
    rcases h.sleeps hs hp with hpad | ⟨j, hj⟩
    · exact .inl hpad
    · refine .inr ⟨j, ?_⟩
      grind [setRemote_of_ne]
  | vprocPreempt => exact ⟨fun _ => .inl rfl, h.sleeps, h.recorded⟩
  | sendSignal => exact ⟨h.pending, fun _ _ => .inl (Nat.succ_ne_zero _), h.recorded⟩
  | shutdown => exact ⟨h.pending, h.sleeps, h.recorded⟩

theorem Inv.heard (h : Inv s) : Heard s := by
  refine ⟨fun hq hp => ?_, fun hq forever => ?_, h.recorded, fun hr hpc ha s' hstep => ?_⟩
  · rcases h.pending hp with hzero | ⟨i, hi⟩ | hcollects
    · exact .inl hzero
    · exact absurd (hq i) hi
    · exact .inr (.inr hcollects)
  · rintro ⟨hpc, hp, hpad⟩
    rcases h.sleeps (by rw [hpc]; trivial) hp with hne | ⟨i, hi⟩
    · exact hne hpad
    · rw [hq i] at hi
      cases hi
  · cases hstep <;> rename_i hpc' <;> rw [hpc] at hpc' <;> cases hpc'
    rw [h.recorded hr, ha]
    rfl

/-- Every run that avoids the steps that forget. -/
theorem async_requests (n : Nat) (s : State n) : Relation.ReflTransGen Careful start s → Heard s := by
  intro h
  refine Inv.heard ?_
  induction h with
  | refl => exact ⟨nofun, fun hs => hs.elim, nofun⟩
  | tail _ hstep ih =>
    rcases hstep with ⟨hown, hheeds⟩ | hother
    · exact hown.inv ih hheeds
    · exact hother.inv ih

/-- The vproc runs, gets an interrupt for a global collection and collects its landing pad. -/
theorem async_requests_interrupt : ∃ s : State 1, Heard s ∧ Quiet s ∧ s.globalGCPending = true ∧ s.landingPad = 0 := by
  have hrun : Relation.ReflTransGen Careful (start : State 1) start := .refl
  have happly := hrun.tail (.inl ⟨.top rfl, nofun, nofun, nofun⟩)
  have hinterrupt := happly.tail (.inr (.interrupt (i := 0) rfl))
  have hpreempt := (hinterrupt.tail (.inr (.send (i := 0) rfl))).tail (.inr (.preempt (i := 0) rfl))
  have hcollect := hpreempt.tail (.inl ⟨.recv rfl, nofun, nofun, nofun⟩)
  exact ⟨_, async_requests 1 _ hcollect, fun i => by rw [Subsingleton.elim i 0]; rfl, rfl, rfl⟩

/-! ## The steps that forget -/

theorem Reachable.own (h : Reachable s) (hstep : Own s s') : Reachable s' := h.tail (.inl hstep)

theorem Reachable.other (h : Reachable s) (hstep : Other s s') : Reachable s' := h.tail (.inr hstep)

/-- The vproc is interrupted, requests to sleep, finds the signal, collects it and goes to sleep: the first request
    discards the limit pointer of zero. -/
theorem request_forgotten : ∃ s : State 1, Reachable s ∧ Quiet s ∧ s.pc = .blocked true ∧
    s.globalGCPending = true ∧ s.landingPad = 0 ∧ s.limitZero = false ∧ s.sigPending = false := by
  have hrun : Reachable (start : State 1) := .refl
  have happly := hrun.own (.top rfl)
  have hinterrupt := ((happly.other (.interrupt (i := 0) rfl)).other (.send (i := 0) rfl)).other (.preempt (i := 0) rfl)
  have hsleep := ((hinterrupt.own (.request (.sleep true) rfl)).own (.exchange rfl)).own (.sleepTest rfl)
  have hcollect := (hsleep.own (.top rfl)).own (.recv rfl)
  have hblocked := ((hcollect.own (.request (.sleep true) rfl)).own (.exchange rfl)).own (.sleepTest rfl)
  exact ⟨_, hblocked, fun i => by rw [Subsingleton.elim i 0]; rfl, rfl, rfl, rfl, rfl, rfl⟩

end Manticore.ParallelRt.AsyncRequest
