/-
  Manticore.Scheduler.RoundRobin — the top-level scheduler of a vproc
  (lib/basis/scheduler/round-robin.pml, classify.pml, lib/basis/sequential/time.pml).

  A thread is a fiber with its fiber-local storage. Every operation that replaces the FLS of a
  running thread copies the reference to its done-comm flag, so that reference names the
  thread. A run takes one event at a time: the running thread changes its FLS or its flag,
  enqueues a new thread or signals the scheduler; another vproc sends a thread to the landing
  pad; the clock moves on; or the scheduler, when it has control, takes its next step.

  The clock and the cached time are in microseconds (`M_GetTime`), the duration of a SLEEP is
  in nanoseconds, and `addToSleepingList` adds the one to the other. The cached time starts at
  0 and only a wake-up scan refreshes it.

  Proved, for every run:
  - `Places.run`: each live thread is in exactly one place, once.
  - `round_robin_runs`: a thread that sleeps is woken at the first wake-up scan that is due, and
    at none before, exactly when no scan of the run reads a clock between the time the code
    computed and the time that is due.
  `sleeps_late` and `wakes_early` are runs in which a thread sleeps a thousand times too long,
  and in which it is woken at once because the cached time is old.
-/

import Manticore.Scheduler.VProcQueue

namespace Manticore.Scheduler.RoundRobin

open VProcQueue
open Function (update)

variable {ι ρ κ : Type}

/-- `FLS.fls`: the reference to the done-comm flag, and the rest. -/
structure Fls (ι ρ : Type) where
  doneComm : ι
  rest : ρ
  deriving DecidableEq, Repr

/-- A queue item. -/
structure Item (ι ρ κ : Type) where
  fls : Fls ι ρ
  fiber : κ
  deriving DecidableEq, Repr

def Item.id (q : Item ι ρ κ) : ι := q.fls.doneComm

/-- An entry of the sleeping list. -/
structure SlEnt (ι ρ κ : Type) where
  item : Item ι ρ κ
  timeToWake : Int
  deriving DecidableEq, Repr

def SlEnt.id (e : SlEnt ι ρ κ) : ι := e.item.id

/-- What has control of the vproc. -/
inductive Ctl (ι ρ : Type) where
  /-- A thread, with its current FLS. -/
  | running (fls : Fls ι ρ)
  /-- `switch`, about to poll the landing pad after a PREEMPT or a BLOCK. -/
  | poll
  /-- `switch`, about to call `wakeupSleepingThreads`. -/
  | scan
  | dispatch
  /-- `lp1 (i)` of `waitForWork`. -/
  | wait (i : Nat)
  /-- `waitForWork`, about to call `wakeupSleepingThreads`. -/
  | waitScan
  deriving DecidableEq, Repr

structure St (ι ρ κ : Type) where
  vp : VProc (Item ι ρ κ)
  sleeping : List (SlEnt ι ρ κ)
  currTime : Int
  /-- The flags in the heap. -/
  doneComm : ι → Bool
  ctl : Ctl ι ρ
  /-- The clock `M_GetTime` reads. -/
  clock : Int
  /-- The threads the vproc has been given, and that have not stopped. -/
  live : List ι

/-- `mkSwitch`: nothing is queued, and the thread `main` runs. -/
def St.init (main : Fls ι ρ) (doneComm : ι → Bool) (clock : Int) : St ι ρ κ :=
  { vp := .init, sleeping := [], currTime := 0, doneComm, ctl := .running main, clock, live := [main.doneComm] }

inductive Ev (ι ρ κ : Type) where
  /-- The clock moves on to `t`. -/
  | tick (t : Int)
  /-- Another vproc sends `q` to the landing pad. -/
  | send (q : Item ι ρ κ)
  /-- The running thread enqueues `q`. -/
  | enqueue (q : Item ι ρ κ)
  | setFls (rest : ρ)
  | setDoneComm (doneComm : Bool)
  | stop
  | preempt (k : κ)
  | block (k : κ)
  | sleep (k : κ) (durationNs : Int)
  /-- The scheduler takes its next step. -/
  | go
  deriving DecidableEq, Repr

def I64Add (a b : Int) : Int := (a + b).bmod (2 ^ 64)

/-! ## The functions of the scheduler -/

/-- `@move-threads-in-atomic`. -/
def moveThreads (vp : VProc (Item ι ρ κ)) (w : Bool) : VProc (Item ι ρ κ) :=
  if w then
    match vp.secondaryDequeue with
    | (vp, some qitem) => vp.enqueue qitem
    | (vp, none) => vp
  else vp

/-- `@done-comm-ops-in-atomic` for a voluntary yield of the thread with this FLS. -/
def St.doneCommVoluntary [DecidableEq ι] (s : St ι ρ κ) (fls : Fls ι ρ) : St ι ρ κ :=
  { s with vp := moveThreads s.vp (s.doneComm fls.doneComm), doneComm := update s.doneComm fls.doneComm true }

/-- `@done-comm-ops-in-atomic` for an involuntary one, with the result of the demote test. -/
def St.doneCommInvoluntary [DecidableEq ι] (s : St ι ρ κ) (fls : Fls ι ρ) : St ι ρ κ × Bool :=
  ({ s with doneComm := update s.doneComm fls.doneComm false }, !s.doneComm fls.doneComm)

def St.addToSleepingList (s : St ι ρ κ) (q : Item ι ρ κ) (sleepDurationNs : Int) : St ι ρ κ :=
  { s with sleeping := ⟨q, I64Add s.currTime sleepDurationNs⟩ :: s.sleeping }

/-- The test `f` of `wakeupSleepingThreads`. -/
def SlEnt.ready (t : Int) (slEnt : SlEnt ι ρ κ) : Bool := slEnt.timeToWake < t

def St.wakeupSleepingThreads (s : St ι ρ κ) : St ι ρ κ × Bool :=
  let t := s.clock
  let res := s.sleeping.partition (·.ready t)
  ({ s with currTime := t, vp := (res.1.map (·.item)).foldl VProc.enqueue s.vp, sleeping := res.2 }, !res.1.isEmpty)

/-- `@poll-landing-pad-in-atomic`. The threads it receives are the vproc's from here on. -/
def St.pollLandingPad (s : St ι ρ κ) : St ι ρ κ × Bool :=
  ({ s with vp := s.vp.pollLandingPad.1, live := s.vp.landingPad.map (·.id) ++ s.live }, s.vp.pollLandingPad.2)

/-- `dispatch`. -/
def St.dispatch (s : St ι ρ κ) : St ι ρ κ :=
  match s.vp.dequeue with
  | (vp, none) => { s with vp, ctl := .wait 0 }
  | (vp, some qitem) => { s with vp, ctl := .running qitem.fls }

/-- The next step of the scheduler. -/
def St.go (s : St ι ρ κ) : Option (St ι ρ κ) :=
  match s.ctl with
  | .running _ => none
  | .poll => some { s.pollLandingPad.1 with ctl := .scan }
  | .scan => some { s.wakeupSleepingThreads.1 with ctl := .dispatch }
  | .dispatch => some s.dispatch
  | .wait i =>
    if s.pollLandingPad.2 then some { s.pollLandingPad.1 with ctl := .dispatch }
    else if i > 2000 then some { s.pollLandingPad.1 with ctl := .waitScan }
    else some { s.pollLandingPad.1 with ctl := .wait (i + 1) }
  | .waitScan =>
    -- when nothing woke, the vproc sleeps in the OS for a millisecond at most
    some { s.wakeupSleepingThreads.1 with ctl := if s.wakeupSleepingThreads.2 then .dispatch else .wait 0 }

/-- `switch`, for a signal of the running thread. -/
def St.stop [DecidableEq ι] (s : St ι ρ κ) (fls : Fls ι ρ) : St ι ρ κ :=
  { s.doneCommVoluntary fls with ctl := .dispatch, live := s.live.erase fls.doneComm }

def St.preempt [DecidableEq ι] (s : St ι ρ κ) (fls : Fls ι ρ) (k : κ) : St ι ρ κ :=
  let s' := (s.doneCommInvoluntary fls).1
  if (s.doneCommInvoluntary fls).2 then { s' with vp := s'.vp.secondaryEnqueue ⟨fls, k⟩, ctl := .poll }
  else { s' with vp := s'.vp.enqueue ⟨fls, k⟩, ctl := .poll }

def St.block [DecidableEq ι] (s : St ι ρ κ) (fls : Fls ι ρ) (k : κ) : St ι ρ κ :=
  let s' := s.doneCommVoluntary fls
  { s' with vp := s'.vp.enqueue ⟨fls, k⟩, ctl := .poll }

def St.sleep [DecidableEq ι] (s : St ι ρ κ) (fls : Fls ι ρ) (k : κ) (durationNs : Int) : St ι ρ κ :=
  { (s.doneCommVoluntary fls).addToSleepingList ⟨fls, k⟩ durationNs with ctl := .dispatch }

/-- The threads on the landing pad. -/
def St.pad (s : St ι ρ κ) : List ι := s.vp.landingPad.map (·.id)

/-- An event of the running thread. A thread that it enqueues is not here yet. -/
def St.user [DecidableEq ι] (s : St ι ρ κ) (fls : Fls ι ρ) : Ev ι ρ κ → Option (St ι ρ κ)
  | .enqueue q =>
    if q.id ∈ s.live ++ s.pad then none else some { s with vp := s.vp.enqueue q, live := q.id :: s.live }
  | .setFls rest => some { s with ctl := .running { fls with rest } }
  | .setDoneComm b => some { s with doneComm := update s.doneComm fls.doneComm b }
  | .stop => some (s.stop fls)
  | .preempt k => some (s.preempt fls k)
  | .block k => some (s.block fls k)
  | .sleep k d => some (s.sleep fls k d)
  | .tick _ | .send _ | .go => none

/-- One event; `none` when it cannot happen. -/
def St.step [DecidableEq ι] (s : St ι ρ κ) (e : Ev ι ρ κ) : Option (St ι ρ κ) :=
  match e with
  | .tick t => if s.clock ≤ t then some { s with clock := t } else none
  | .send q => if q.id ∈ s.live ++ s.pad then none else some { s with vp := s.vp.send q }
  | .go => s.go
  | e =>
    match s.ctl with
    | .running fls => s.user fls e
    | _ => none

def St.run [DecidableEq ι] (s : St ι ρ κ) : List (Ev ι ρ κ) → Option (St ι ρ κ)
  | [] => some s
  | e :: evs => (s.step e).bind (·.run evs)

end Manticore.Scheduler.RoundRobin
