/-
  Manticore.Scheduler.WorkStealing — the work-stealing scheduler
  (lib/basis/scheduler/work-stealing.pml), in the build without assertions.

  Each vproc has one worker, a primary deque and any number of resume deques. The code runs
  with signals masked but for three places: a task runs, a worker has yielded, or a worker is
  in the second half of its idle loop (`Pc.unmasked`). Only there can another fiber take the
  vproc: a thief, or the thread that starts the group. What happens between two such places,
  or between two accesses to what vprocs share, is one step.

  The thief that the worker of `w` sends to a victim is the state `wait n victim none` of that
  worker until it has run there. The thread that starts the group pushes the first task and
  calls `work-group-started`; so may the first task itself.

  A deque is the list of its elements from the oldest to the newest: the push on a full buffer
  moves `new` onto `old`, which leaves an empty one.
-/

import Manticore.Library.Parties

namespace Manticore.Scheduler.WorkStealing

open Function (update)

/-! ## Deques -/

variable {τ : Type}

def DEFAULT_DEQUE_SZ : Nat := 64000

def isFull (deq : List τ) : Bool := deq.length ≥ DEFAULT_DEQUE_SZ - 1

/-- `@push-new-end-in-atomic`. -/
def pushNewEnd (deq : List τ) (elt : τ) : List τ := if isFull deq then [] else deq ++ [elt]

/-- `@pop-new-end-in-atomic`. -/
def popNewEnd (deq : List τ) : List τ × Option τ := (deq.dropLast, deq.getLast?)

/-- `@pop-old-end-in-atomic`. -/
def popOldEnd (deq : List τ) : List τ × Option τ := (deq.tail, deq.head?)

/-- `@add-list-in-atomic`. -/
def addList (deq : List τ) (thds : List τ) : List τ := thds.foldl pushNewEnd deq

structure ResumeDeque (τ : Type) where
  elems : List τ
  nClaimed : Nat
  deriving DecidableEq, Repr

def ResumeDeque.nonempty (d : ResumeDeque τ) : Bool := !d.elems.isEmpty

/-- `M_ResumeDeques`: the nonempty deques are claimed. The list of them is built from the
front, so the last one comes first. -/
def M_ResumeDeques (ds : List (ResumeDeque τ)) : List (ResumeDeque τ) × List Nat :=
  (ds.map fun d => if d.nonempty then { d with nClaimed := d.nClaimed + 1 } else d,
    (ds.findIdxs ResumeDeque.nonempty).reverse)

/-- `PruneDequeList`: what is empty and not claimed is freed, and the list is turned round. -/
def PruneDequeList (ds : List (ResumeDeque τ)) : List (ResumeDeque τ) :=
  (ds.filter fun d => d.nonempty || d.nClaimed != 0).reverse

/-- Pops from the first of the resume deques that are handed out. -/
def popResume (pop : List τ → List τ × Option τ) (ds : List (ResumeDeque τ)) : List (ResumeDeque τ) × Option τ :=
  match M_ResumeDeques ds with
  | (ds, []) => (ds, none)
  | (ds, i :: _) =>
    match ds[i]? with
    | none => (ds, none)
    | some d => (ds.set i { d with elems := (pop d.elems).1 }, (pop d.elems).2)

/-! ## The state -/

variable {ι : Type}

/-- Where a worker is. -/
inductive Pc (ι τ : Type) where
  /-- `init` has not begun. -/
  | init
  | executeNextTask
  /-- The task `t` runs. -/
  | run (t : τ)
  /-- `schedLp` has yielded after a PREEMPT or a BLOCK. -/
  | preempted
  /-- `@idle-loop-in-atomic` returns `ts`. -/
  | foundWork (ts : List τ)
  | lp (nTries : Nat)
  /-- `lp` has yielded. -/
  | yielded (nTries : Nat)
  /-- `wait ()` of `@thief-in-atomic`; `ch` is the reply of the thief. -/
  | wait (nTries : Nat) (victim : ι) (ch : Option (List τ))
  /-- About to apply `setActive (false)`. -/
  | setIdle
  /-- `setActive (false)`, about to set `terminated`. -/
  | setTerminated
  | setIdleFlag
  | waitFn
  | sleep
  /-- About to apply `isTerminated ()`. -/
  | isTerminated
  | clearIdleFlag
  /-- About to apply `setActive (true)`. -/
  | setActive
  | stopped
  deriving DecidableEq, Repr

/-- The second half of the idle loop, with signals unmasked. -/
def Pc.unmasked : Pc ι τ → Bool
  | .setIdle | .setTerminated | .setIdleFlag | .waitFn | .sleep | .isTerminated | .clearIdleFlag | .setActive | .stopped => true
  | _ => false

/-- The vproc has its primary deque. -/
def Pc.begun : Pc ι τ → Bool
  | .init => false
  | _ => true

/-- Another fiber can take the vproc. -/
def Pc.yields : Pc ι τ → Bool
  | .init | .preempted | .yielded _ | .wait _ _ _ => true
  | pc => pc.unmasked

/-- The worker runs a task. -/
def Pc.running : Pc ι τ → Bool
  | .run _ => true
  | _ => false

/-- What one vproc has of the group. -/
structure Worker (ι τ : Type) where
  pc : Pc ι τ
  primary : List τ
  resume : List (ResumeDeque τ)
  /-- The counter of the worker's `waitFn`. -/
  spinCyclesLg : Nat
  deriving DecidableEq, Repr

structure St (ι τ : Type) where
  worker : ι → Worker ι τ
  nIdle : Int
  terminated : Bool
  idleFlags : ι → Bool
  /-- The first task has been spawned. -/
  spawned : Bool
  /-- `work-group-started` has been called. -/
  started : Bool
  /-- The tasks pushed so far; a task that moves from one deque to another is not pushed again. -/
  pushed : Multiset τ
  /-- Which worker has executed what. -/
  executed : Multiset (ι × τ)
  /-- What `@remove-task` has handed to the task that runs. -/
  removed : Multiset τ

/-- `@work-group`: the workers have been sent to their vprocs. -/
def St.init : St ι τ where
  worker _ := { pc := .init, primary := [], resume := [], spinCyclesLg := 1 }
  nIdle := -1
  terminated := false
  idleFlags _ := false
  spawned := false
  started := false
  pushed := 0
  executed := 0
  removed := 0

/-! ## The functions of the scheduler -/

/-- `@try-pop-remote-in-atomic`. A vproc without a primary deque yet has an empty list here. -/
def Worker.tryPopRemote (w : Worker ι τ) : Worker ι τ × List τ :=
  match popResume popOldEnd w.resume with
  | (resume, some t) => ({ w with resume }, [t])
  | (resume, none) =>
    if w.primary.length > 1 then
      match popOldEnd w.primary with
      | (primary, some t) => ({ w with resume, primary }, [t])
      | (primary, none) => ({ w with resume, primary }, [])
    else ({ w with resume }, [])

/-- `@try-pop-local-in-atomic`. -/
def Worker.tryPopLocal (w : Worker ι τ) : Worker ι τ × List τ :=
  match popResume popNewEnd w.resume with
  | (resume, some t) => ({ w with resume }, [t])
  | (resume, none) =>
    match popNewEnd w.primary with
    | (primary, some t) => ({ w with resume, primary }, [t])
    | (primary, none) => ({ w with resume, primary }, [])

/-- `waitFn ()` of `SpinWait.@mk-spin-wait-fun (20)`. -/
def waitFn (spinCyclesLg : Nat) : Nat × Bool := if spinCyclesLg ≤ 20 then (spinCyclesLg + 1, false) else (1, true)

section
variable [DecidableEq ι]

def St.put (s : St ι τ) (v : ι) (w : Worker ι τ) : St ι τ := { s with worker := update s.worker v w }

/-- `executeNextTask ()` of the worker of `v`. -/
def St.executeNextTask (s : St ι τ) (v : ι) : St ι τ :=
  let w := s.worker v
  match popNewEnd w.primary with
  | (primary, some t) => { s.put v { w with primary, pc := .run t } with executed := (v, t) ::ₘ s.executed }
  | (primary, none) =>
    match { w with primary }.tryPopLocal with
    | (w, []) => s.put v { w with pc := .lp 0, spinCyclesLg := 1 }
    | (w, ts) => s.put v { w with primary := addList w.primary ts }

/-- The next step of the worker of `v`, which picks `victim` when it tries to steal. -/
def St.go [Fintype ι] (s : St ι τ) (v victim : ι) : Option (St ι τ) :=
  let w := s.worker v
  let nVProcs := Fintype.card ι
  match w.pc with
  | .init => some (s.put v { w with primary := [], pc := .executeNextTask })
  | .executeNextTask => some (s.executeNextTask v)
  | .run _ => none
  | .preempted => some (s.put v { w with pc := .executeNextTask })
  | .foundWork ts => some (s.put v { w with primary := addList w.primary ts, pc := .executeNextTask })
  | .lp nTries =>
    if nTries > nVProcs then
      match popNewEnd w.primary with
      | (primary, some t) => some (s.put v { w with primary, pc := .foundWork [t] })
      | (primary, none) => some (s.put v { w with primary, pc := .setIdle })
    else some (s.put v { w with pc := .yielded nTries })
  | .yielded nTries =>
    if victim = v then
      match w.tryPopLocal with
      | (w, []) => some (s.put v { w with pc := .lp (nTries + 1) })
      | (w, ts) => some (s.put v { w with pc := .foundWork ts })
    -- an idle victim is skipped
    else if s.idleFlags victim then some (s.put v { w with pc := .lp (nTries + 1) })
    else some (s.put v { w with pc := .wait nTries victim none })
  | .wait _ _ none => none
  | .wait nTries _ (some []) => some (s.put v { w with pc := .lp (nTries + 1) })
  | .wait _ _ (some ts) => some (s.put v { w with pc := .foundWork ts })
  | .setIdle =>
    let nAlreadyIdle := s.nIdle
    let s := { s with nIdle := s.nIdle + 1 }
    if nAlreadyIdle = nVProcs - 1 then some (s.put v { w with pc := .setTerminated })
    else some (s.put v { w with pc := .setIdleFlag })
  | .setTerminated => some { s.put v { w with pc := .setIdleFlag } with terminated := true }
  | .setIdleFlag => some { s.put v { w with pc := .waitFn } with idleFlags := update s.idleFlags v true }
  | .waitFn =>
    let (spinCyclesLg, reset) := waitFn w.spinCyclesLg
    some (s.put v { w with spinCyclesLg, pc := if reset then .sleep else .isTerminated })
  | .sleep => some (s.put v { w with pc := .isTerminated })
  | .isTerminated => some (s.put v { w with pc := if s.terminated then .stopped else .clearIdleFlag })
  | .clearIdleFlag => some { s.put v { w with pc := .setActive } with idleFlags := update s.idleFlags v false }
  | .setActive => some { s.put v { w with pc := .lp 0 } with nIdle := s.nIdle - 1 }
  | .stopped => none

/-- The thief that the worker of `v` has sent runs on its victim. -/
def St.thief (s : St ι τ) (v : ι) : Option (St ι τ) :=
  match (s.worker v).pc with
  | .wait nTries victim none =>
    if victim ≠ v ∧ (s.worker victim).pc.yields then
      let (w, ts) := (s.worker victim).tryPopRemote
      some ((s.put victim w).put v { s.worker v with pc := .wait nTries victim (some ts) })
    else none
  | _ => none

/-- `@spawn-task`; on a full deque it raises Fail and pushes nothing. -/
def St.spawnTask (s : St ι τ) (v : ι) (t : τ) : St ι τ :=
  let w := s.worker v
  if isFull w.primary then s
  else { s.put v { w with primary := pushNewEnd w.primary t } with pushed := t ::ₘ s.pushed }

/-- `@resume-task-on-new-deque`. -/
def St.resumeTaskOnNewDeque (s : St ι τ) (v : ι) (t : τ) : St ι τ :=
  let w := s.worker v
  { s.put v { w with resume := { elems := pushNewEnd [] t, nClaimed := 0 } :: w.resume } with pushed := t ::ₘ s.pushed }

/-- `@remove-task`. -/
def St.removeTask (s : St ι τ) (v : ι) : St ι τ :=
  let w := s.worker v
  match popNewEnd w.primary with
  | (primary, some t) => { s.put v { w with primary } with removed := t ::ₘ s.removed }
  | (primary, none) => s.put v { w with primary }

/-- `schedLp` on a PREEMPT or a BLOCK, up to its yield. -/
def St.suspend (s : St ι τ) (v : ι) (t : τ) : St ι τ :=
  let w := s.worker v
  { s.put v { w with primary := pushNewEnd w.primary t, pc := .preempted } with pushed := t ::ₘ s.pushed }

/-! ## Runs -/

inductive Ev (ι τ : Type) where
  /-- The worker of `v` takes its next step. -/
  | go (v victim : ι)
  /-- The thief of the worker of `v` runs. -/
  | thief (v : ι)
  | spawn (v : ι) (t : τ)
  | resume (v : ι) (t : τ)
  | remove (v : ι)
  | stop (v : ι)
  /-- A PREEMPT or a BLOCK with the continuation `k`. -/
  | suspend (v : ι) (k : τ)
  /-- The first task is spawned on `v`. -/
  | first (v : ι) (t : τ)
  /-- `work-group-started`. -/
  | started
  /-- A garbage collection on `v` prunes its resume deques. -/
  | gc (v : ι)
  deriving DecidableEq, Repr

def St.running (s : St ι τ) (v : ι) : Bool := (s.worker v).pc.running

def St.step [Fintype ι] (s : St ι τ) : Ev ι τ → Option (St ι τ)
  | .go v victim => s.go v victim
  | .thief v => s.thief v
  | .spawn v t => if s.running v then some (s.spawnTask v t) else none
  | .resume v t => if s.running v then some (s.resumeTaskOnNewDeque v t) else none
  | .remove v => if s.running v then some (s.removeTask v) else none
  | .stop v => if s.running v then some (s.put v { s.worker v with pc := .executeNextTask }) else none
  | .suspend v k => if s.running v then some (s.suspend v k) else none
  | .first v t =>
    -- the vproc has its deque, and its worker has let the thread run
    if s.spawned = false ∧ (s.worker v).pc.begun ∧ (s.worker v).pc.yields then some { s.spawnTask v t with spawned := true }
    else none
  | .started => if s.spawned ∧ s.started = false then some { s with started := true, nIdle := s.nIdle + 1 } else none
  | .gc v => some (s.put v { s.worker v with resume := PruneDequeList (s.worker v).resume })

def St.run [Fintype ι] (s : St ι τ) : List (Ev ι τ) → Option (St ι τ)
  | [] => some s
  | e :: es => (s.step e).bind (·.run es)

end

/-! ## What is claimed of a state -/

/-- The tasks in a thief's reply, or in the hands of the worker. -/
def Pc.tasks : Pc ι τ → List τ
  | .foundWork ts => ts
  | .wait _ _ (some ts) => ts
  | _ => []

/-- The tasks in the resume deques. -/
def resumed (ds : List (ResumeDeque τ)) : List τ := ds.flatMap ResumeDeque.elems

def Worker.ready (w : Worker ι τ) : Multiset τ := (w.primary : Multiset τ) + (resumed w.resume : Multiset τ) + (w.pc.tasks : Multiset τ)

/-- The ready tasks of the group. -/
def St.ready [Fintype ι] (s : St ι τ) : Multiset τ := ∑ v, (s.worker v).ready

/-- Every task pushed is ready, or has been executed or removed, as often as it was pushed; when
the tasks pushed are different, none is executed twice, by one worker or by two; and a group
that is terminated has no ready task and runs none. -/
structure Sound [Fintype ι] (s : St ι τ) : Prop where
  kept : s.pushed = s.ready + s.executed.map Prod.snd + s.removed
  once : s.pushed.Nodup → (s.executed.map Prod.snd).Nodup
  quiet : s.terminated = true → s.ready = 0 ∧ ∀ v, s.running v = false

/-! ## What is asked of a step -/

/-- No task is suspended onto a full primary deque; and when the group is started, no vproc
whose worker is in the second half of its idle loop has a task in its primary deque. -/
def Meets (s : St ι τ) : Ev ι τ → Prop
  | .suspend v _ => isFull (s.worker v).primary = false
  | .started => ∀ v, (s.worker v).pc.unmasked = true → (s.worker v).primary = []
  | _ => True

instance [Fintype ι] [DecidableEq τ] (s : St ι τ) : (e : Ev ι τ) → Decidable (Meets s e)
  | .suspend _ _ => inferInstanceAs (Decidable (_ = _))
  | .started => inferInstanceAs (Decidable (∀ _, _))
  | .go .. | .thief .. | .spawn .. | .resume .. | .remove .. | .stop .. | .first .. | .gc .. => inferInstanceAs (Decidable True)

/-- Every step of the run meets the condition. -/
def St.Meets [DecidableEq ι] [Fintype ι] (s : St ι τ) : List (Ev ι τ) → Prop
  | [] => True
  | e :: es => WorkStealing.Meets s e ∧ ∀ s' ∈ s.step e, s'.Meets es

instance decidableMeets [DecidableEq ι] [Fintype ι] [DecidableEq τ] (s : St ι τ) : (es : List (Ev ι τ)) → Decidable (s.Meets es)
  | [] => inferInstanceAs (Decidable True)
  | e :: es =>
    have : DecidablePred fun s' : St ι τ => s'.Meets es := fun s' => decidableMeets s' es
    inferInstanceAs (Decidable (WorkStealing.Meets s e ∧ ∀ s' ∈ s.step e, s'.Meets es))

end Manticore.Scheduler.WorkStealing
