/-
  Manticore.Cml.Event — channels, condition variables and `sync` (`cml/alt-prim-chan.pml`, `cml/cvar.pml`,
  `cml/prim-event.pml`).

  Any number of threads send, receive, wait, signal and synchronise on choices; a step is one access to a lock, a flag,
  a queue, the state of a condition variable or the list of its waiters, or one operation of the scheduler. A queue of a
  channel and the waiters of a condition variable are reached by the holder of the lock only, but for the heads that
  `pollFn` reads, so each of their operations is one step (`Cml.ChanQueue` has their links). A flag is named by the call
  that allocates it; a spin lock is the thread that holds it, and a spin that finds it taken, or a flag claimed, changes
  nothing and is left out.

  The block functions are as they are in the source: a roll back writes the partner's flag, the message of a send that
  `recvEvt` matches there is replaced by its vproc, `sendEvt` keeps the lock after a match, and `waitEvt` allocates a
  flag of its own, stops instead of returning, and leaves the flag of the choice alone when it need not wait.
-/

import Mathlib

namespace Manticore.Cml.Event

open Function (update)

/-- `PrimEvent.event_status`. -/
inductive Status where
  | waiting
  | claimed
  | synched
  deriving DecidableEq

/-- A thread, and how many calls it has finished before. -/
abbrev Call (n : Nat) := Fin n × Nat

/-- An event-instance status flag. The block function of `waitEvt` allocates another one than `sync`. -/
structure Flag (n : Nat) where
  call : Call n
  fresh : Bool
  deriving DecidableEq

inductive Side where
  | recv
  | send
  deriving DecidableEq

def Side.other : Side → Side
  | .recv => .send
  | .send => .recv

/-- An operation on a channel. -/
inductive ChanOp (C α : Type) where
  | recv (ch : C)
  | send (ch : C) (msg : α)

namespace ChanOp

variable {C α : Type}

def ch : ChanOp C α → C
  | .recv ch | .send ch _ => ch

def side : ChanOp C α → Side
  | .recv _ => .recv
  | .send _ _ => .send

end ChanOp

/-- A base event; the plain operations are taken for events of their own. -/
inductive Base (C V α : Type) where
  | chan (op : ChanOp C α)
  | wait (cv : V)

/-- `PrimEvent.pevent`. -/
inductive Pevent (C V α : Type) where
  | choose (ev1 ev2 : Pevent C V α)
  | bevt (b : Base C V α)

/-- A base event and its place in the choice. -/
abbrev Branch (C V α : Type) := Base C V α × Nat

/-- The base events, in the order in which `poll` and `block` visit them. -/
def Pevent.bases {C V α : Type} : Pevent C V α → List (Base C V α)
  | .choose ev1 ev2 => ev1.bases ++ ev2.bases
  | .bevt b => [b]

def Pevent.branches {C V α : Type} (ev : Pevent C V α) : List (Branch C V α) := ev.bases.zipIdx

/-- A `sendq_item`, a `recvq_item` or a `waiter`. -/
structure Item (n : Nat) (C V α : Type) where
  flag : Flag n
  branch : Branch C V α

/-- A send: its call and branch tell its message. -/
abbrev Source (n : Nat) (C V α : Type) := Call n × Branch C V α

/-- What a continuation is thrown. -/
inductive Result (n : Nat) (C V α : Type) where
  | unit
  | msg (src : Source n C V α)
  /-- The vproc of the sender, in place of its message. -/
  | wrapped

/-- Which of its functions tries to match the operation: `send` and `recv` themselves, `doFn` with the enabled events
    that are left, `blkFn` with the events that come before and after in the choice. -/
inductive Mode (n : Nat) (C V α : Type) where
  | plain
  | poll (enabled evt : List (Branch C V α))
  | block (flg : Flag n) (done todo : List (Branch C V α))

/-- Whether a thread is to wait in an operation of its own or in a block function. -/
inductive WaitMode (n : Nat) (C V α : Type) where
  | plain
  | block (flg : Flag n) (done todo : List (Branch C V α))

def WaitMode.mode {n : Nat} {C V α : Type} : WaitMode n C V α → Mode n C V α
  | .plain => .plain
  | .block flg done todo => .block flg done todo

/-- The branches of the synchronisation. -/
def Mode.evt {n : Nat} {C V α : Type} (m : Mode n C V α) (br : Branch C V α) : List (Branch C V α) := match m with
  | .plain => [br]
  | .poll _ evt => evt
  | .block _ done todo => done ++ br :: todo

/-- Where a thread is: before the access that the name tells. -/
inductive Pc (n : Nat) (C V α : Type) where
  | idle
  | poll (todo enabled evt : List (Branch C V α))
  | doEvt (enabled evt : List (Branch C V α))
  | block (flg : Flag n) (done todo : List (Branch C V α))
  | stop (flg : Flag n) (evt : List (Branch C V α))
  | blocked (flg : Flag n) (evt : List (Branch C V α))
  | lock (m : Mode n C V α) (op : ChanOp C α) (b : Nat)
  | tryLp (m : Mode n C V α) (op : ChanOp C α) (b : Nat)
  /-- Before the flag of the item is read. -/
  | deref (m : Mode n C V α) (op : ChanOp C α) (b : Nat) (item : Item n C V α)
  | matchLp (m : Mode n C V α) (op : ChanOp C α) (b : Nat) (item : Item n C V α)
  /-- In `blkFn`, which has claimed its own flag. -/
  | claimed (flg : Flag n) (done todo : List (Branch C V α)) (op : ChanOp C α) (b : Nat) (item : Item n C V α)
  /-- In `blkFn`, before the flag of the item is written. -/
  | rollBack (flg : Flag n) (done todo : List (Branch C V α)) (op : ChanOp C α) (b : Nat) (item : Item n C V α)
      (again : Bool)
  | push (flg : Flag n) (evt : List (Branch C V α)) (op : ChanOp C α) (item : Item n C V α)
  | pushUnlock (flg : Flag n) (evt : List (Branch C V α)) (op : ChanOp C α)
  | matchUnlock (m : Mode n C V α) (op : ChanOp C α) (b : Nat) (item : Item n C V α)
  | handOver (m : Mode n C V α) (op : ChanOp C α) (b : Nat) (item : Item n C V α)
  /-- No item is left, in `send`, `recv` and `blkFn`. -/
  | enqueue (m : WaitMode n C V α) (op : ChanOp C α) (b : Nat)
  | enqueueUnlock (m : WaitMode n C V α) (op : ChanOp C α) (b : Nat)
  /-- No item is left, in `doFn`. -/
  | noneUnlock (enabled evt : List (Branch C V α)) (op : ChanOp C α)
  | ret (evt : List (Branch C V α)) (br : Branch C V α) (r : Result n C V α)
  /-- In `@cvar-wait`, before the first look at the state. -/
  | waitState (cv : V)
  | waitLock (m : WaitMode n C V α) (cv : V) (b : Nat)
  | waitCase (m : WaitMode n C V α) (cv : V) (b : Nat)
  | waitTrue (m : WaitMode n C V α) (cv : V) (b : Nat)
  | waitPush (m : WaitMode n C V α) (cv : V) (b : Nat)
  | waitUnlock (flg : Flag n) (evt : List (Branch C V α)) (cv : V)
  | signalLock (cv : V)
  | signalState (cv : V)
  | signalWaiting (cv : V)
  | signalUnlock (cv : V) (waiting : List (Item n C V α))
  | signalLp (l : List (Item n C V α))
  | signalReady (hd : Item n C V α) (tl : List (Item n C V α))

structure State (n : Nat) (C V α : Type) where
  flags : Flag n → Status
  lock : C ⊕ V → Option (Fin n)
  queue : C → Side → List (Item n C V α)
  state : V → Bool
  waiting : V → List (Item n C V α)
  pcs : Fin n → Pc n C V α
  /-- The continuations enqueued on the vprocs: whose flag, which branch, with what. -/
  ready : Multiset (Flag n × Branch C V α × Result n C V α)
  /-- How many calls each thread has finished. -/
  calls : Fin n → Nat
  /-- The branches with which each call has begun. -/
  begun : Multiset (Source n C V α)
  /-- The branches to which a synchronisation has been committed. -/
  commits : Multiset (Source n C V α)
  /-- The results of the calls that have returned, each with the branches that its call had. -/
  returned : Multiset (Call n × List (Branch C V α) × Branch C V α × Result n C V α)
  /-- The items in the order in which they were enqueued, and those that were matched. -/
  enqueued : C → Side → List (Item n C V α)
  matched : C → Side → List (Item n C V α)

variable {n : Nat} {C V α : Type}

/-- Where nobody has done anything yet. -/
def init (n : Nat) (C V α : Type) : State n C V α where
  flags _ := .waiting
  lock _ := none
  queue _ _ := []
  state _ := false
  waiting _ := []
  pcs _ := .idle
  ready := 0
  calls _ := 0
  begun := 0
  commits := 0
  returned := 0
  enqueued _ _ := []
  matched _ _ := []

/-! ## Queues -/

/-- `@chan-dequeue-send`, `@chan-dequeue-recv`. -/
def dequeue : List (Item n C V α) → Option (Item n C V α × List (Item n C V α))
  | [] => none
  | item :: l => some (item, l)

/-- `@chan-dequeue-send-match`, `@chan-dequeue-recv-match`: the first item with another flag. -/
def dequeueMatch (flg : Flag n) : List (Item n C V α) → Option (Item n C V α × List (Item n C V α))
  | [] => none
  | item :: l =>
    if flg ≠ item.flag then some (item, l) else (dequeueMatch flg l).map fun r => (r.1, item :: r.2)

/-- How the mode takes an item from the queue. -/
def Mode.dequeue (m : Mode n C V α) : List (Item n C V α) → Option (Item n C V α × List (Item n C V α)) :=
  match m with
  | .plain | .poll _ _ => Event.dequeue
  | .block flg _ _ => dequeueMatch flg

/-- The flag with which a channel operation is enqueued. -/
def WaitMode.flag (m : WaitMode n C V α) (call : Call n) : Flag n := match m with
  | .plain => ⟨call, false⟩
  | .block flg _ _ => flg

/-- The flag with which `wait` and `waitEvt` register. -/
def WaitMode.waitFlag (m : WaitMode n C V α) (call : Call n) : Flag n := match m with
  | .plain => ⟨call, false⟩
  | .block _ _ _ => ⟨call, true⟩

/-- What the thread that has matched the item goes on with. -/
def Mode.result (m : Mode n C V α) (op : ChanOp C α) (item : Item n C V α) : Result n C V α := match op, m with
  | .send _ _, _ => .unit
  | .recv _, .block _ _ _ => .wrapped
  | .recv _, _ => .msg (item.flag.call, item.branch)

/-- What the thread of the item is thrown. -/
def handed (src : Source n C V α) (op : ChanOp C α) : Result n C V α := match op with
  | .send _ _ => .msg src
  | .recv _ => .unit

/-- `blkFn` of `sendEvt` does not unlock. -/
def Mode.keepsLock (m : Mode n C V α) (op : ChanOp C α) : Bool := match m, op with
  | .block _ _ _, .send _ _ => true
  | _, _ => false

/-- Where the thread goes once it has enqueued itself. -/
def WaitMode.next (m : WaitMode n C V α) (call : Call n) (br : Branch C V α) : Pc n C V α := match m with
  | .plain => .stop ⟨call, false⟩ [br]
  | .block flg done todo => .block flg (done ++ [br]) todo

namespace State

variable (s : State n C V α) (i : Fin n)

def goto (pc : Pc n C V α) : State n C V α := { s with pcs := update s.pcs i pc }

/-- The running call of the thread, or its next one. -/
def call : Call n := (i, s.calls i)

/-- A new call. -/
def begin (brs : List (Branch C V α)) : State n C V α :=
  { s with begun := (brs.map fun br => (s.call i, br) : List (Source n C V α)) + s.begun }

def pollFn : Base C V α → Bool
  | .chan op => !(s.queue op.ch op.side.other).isEmpty
  | .wait cv => s.state cv

def setFlag (flg : Flag n) (sts : Status) : State n C V α := { s with flags := update s.flags flg sts }

def commit (call : Call n) (br : Branch C V α) : State n C V α := { s with commits := (call, br) ::ₘ s.commits }

def enqueueReady (item : Item n C V α) (r : Result n C V α) : State n C V α :=
  { s with ready := (item.flag, item.branch, r) ::ₘ s.ready }

section

variable [DecidableEq C] [DecidableEq V]

def acquire (k : C ⊕ V) : State n C V α := { s with lock := update s.lock k (some i) }

def unlock (k : C ⊕ V) : State n C V α := { s with lock := update s.lock k none }

/-- The lock is released after a match. -/
def matchUnlock (m : Mode n C V α) (op : ChanOp C α) : State n C V α :=
  { s with lock := if m.keepsLock op then s.lock else update s.lock (.inl op.ch) none }

def setQueue (ch : C) (d : Side) (l : List (Item n C V α)) : State n C V α :=
  { s with queue := update s.queue ch (update (s.queue ch) d l) }

/-- `@chan-enqueue-send`, `@chan-enqueue-recv`. -/
def enqueue (ch : C) (d : Side) (item : Item n C V α) : State n C V α :=
  { s.setQueue ch d (s.queue ch d ++ [item]) with
    enqueued := update s.enqueued ch (update (s.enqueued ch) d (s.enqueued ch d ++ [item])) }

/-- The compare-and-swap on the item's flag has succeeded: the item of the side `d` and the call are committed. -/
def commitMatch (op : ChanOp C α) (b : Nat) (item : Item n C V α) : State n C V α :=
  { ((s.setFlag item.flag .synched).commit (s.call i) (.chan op, b)).commit item.flag.call item.branch with
    matched := update s.matched op.ch (update (s.matched op.ch) op.side.other
      (s.matched op.ch op.side.other ++ [item])) }

def setWaiting (cv : V) (l : List (Item n C V α)) : State n C V α :=
  { s with waiting := update s.waiting cv l }

end

end State

variable [DecidableEq C] [DecidableEq V]

inductive Act (s : State n C V α) (i : Fin n) : State n C V α → Prop
  /- `@chan-send`, `@chan-recv` -/
  | call (op : ChanOp C α) : s.pcs i = .idle →
      Act s i ((s.begin i [(.chan op, 0)]).goto i (.lock .plain op 0))
  /- `@sync` -/
  | sync (ev : Pevent C V α) : s.pcs i = .idle →
      Act s i ((s.begin i ev.branches).goto i (.poll ev.branches [] ev.branches))
  | pollFn {br : Branch C V α} {todo enabled evt : List (Branch C V α)} : s.pcs i = .poll (br :: todo) enabled evt →
      Act s i (s.goto i (.poll todo (if s.pollFn br.1 then br :: enabled else enabled) evt))
  | polled {enabled evt : List (Branch C V α)} : s.pcs i = .poll [] enabled evt →
      Act s i (s.goto i (.doEvt enabled evt))
  | doChan {op : ChanOp C α} {b : Nat} {enabled evt : List (Branch C V α)} :
      s.pcs i = .doEvt ((.chan op, b) :: enabled) evt → Act s i (s.goto i (.lock (.poll enabled evt) op b))
  | doWait {cv : V} {b : Nat} {enabled evt : List (Branch C V α)} : s.pcs i = .doEvt ((.wait cv, b) :: enabled) evt →
      Act s i ((s.commit (s.call i) (.wait cv, b)).goto i (.ret evt (.wait cv, b) .unit))
  | blockThd {evt : List (Branch C V α)} : s.pcs i = .doEvt [] evt →
      Act s i (s.goto i (.block ⟨s.call i, false⟩ [] evt))
  | blockChan {flg : Flag n} {op : ChanOp C α} {b : Nat} {done todo : List (Branch C V α)} :
      s.pcs i = .block flg done ((.chan op, b) :: todo) → Act s i (s.goto i (.lock (.block flg done todo) op b))
  | blockWait {flg : Flag n} {cv : V} {b : Nat} {done todo : List (Branch C V α)} :
      s.pcs i = .block flg done ((.wait cv, b) :: todo) → Act s i (s.goto i (.waitLock (.block flg done todo) cv b))
  | blockDone {flg : Flag n} {done : List (Branch C V α)} : s.pcs i = .block flg done [] →
      Act s i (s.goto i (.stop flg done))
  | stop {flg : Flag n} {evt : List (Branch C V α)} : s.pcs i = .stop flg evt → Act s i (s.goto i (.blocked flg evt))
  | resume {flg flg' : Flag n} {evt : List (Branch C V α)} {br : Branch C V α} {r : Result n C V α}
      {ready : Multiset (Flag n × Branch C V α × Result n C V α)} : s.pcs i = .blocked flg evt →
      s.ready = (flg', br, r) ::ₘ ready → flg'.call.1 = i → Act s i ({ s with ready }.goto i (.ret evt br r))
  | ret {evt : List (Branch C V α)} {br : Branch C V α} {r : Result n C V α} : s.pcs i = .ret evt br r →
      Act s i ({ s with returned := (s.call i, evt, br, r) ::ₘ s.returned,
                        calls := update s.calls i (s.calls i + 1) }.goto i .idle)
  /- `tryLp` and `matchLp` -/
  | lock {m : Mode n C V α} {op : ChanOp C α} {b : Nat} : s.pcs i = .lock m op b → s.lock (.inl op.ch) = none →
      Act s i ((s.acquire i (.inl op.ch)).goto i (.tryLp m op b))
  | dequeue {m : Mode n C V α} {op : ChanOp C α} {b : Nat} {item : Item n C V α} {l : List (Item n C V α)} :
      s.pcs i = .tryLp m op b → m.dequeue (s.queue op.ch op.side.other) = some (item, l) →
      Act s i ((s.setQueue op.ch op.side.other l).goto i (.deref m op b item))
  | derefSynched {m : Mode n C V α} {op : ChanOp C α} {b : Nat} {item : Item n C V α} :
      s.pcs i = .deref m op b item → s.flags item.flag = .synched → Act s i (s.goto i (.tryLp m op b))
  | deref {m : Mode n C V α} {op : ChanOp C α} {b : Nat} {item : Item n C V α} :
      s.pcs i = .deref m op b item → s.flags item.flag ≠ .synched → Act s i (s.goto i (.matchLp m op b item))
  | casWaiting {m : Mode n C V α} {op : ChanOp C α} {b : Nat} {item : Item n C V α} :
      s.pcs i = .matchLp m op b item → (∀ flg done todo, m ≠ .block flg done todo) →
      s.flags item.flag = .waiting → Act s i ((s.commitMatch i op b item).goto i (.matchUnlock m op b item))
  | casSynched {m : Mode n C V α} {op : ChanOp C α} {b : Nat} {item : Item n C V α} :
      s.pcs i = .matchLp m op b item → (∀ flg done todo, m ≠ .block flg done todo) →
      s.flags item.flag = .synched → Act s i (s.goto i (.tryLp m op b))
  | claim {flg : Flag n} {done todo : List (Branch C V α)} {op : ChanOp C α} {b : Nat} {item : Item n C V α} :
      s.pcs i = .matchLp (.block flg done todo) op b item → s.flags flg = .waiting →
      Act s i ((s.setFlag flg .claimed).goto i (.claimed flg done todo op b item))
  | claimFail {flg : Flag n} {done todo : List (Branch C V α)} {op : ChanOp C α} {b : Nat} {item : Item n C V α} :
      s.pcs i = .matchLp (.block flg done todo) op b item → s.flags flg ≠ .waiting →
      Act s i (s.goto i (.push flg (done ++ (.chan op, b) :: todo) op item))
  | claimedWaiting {flg : Flag n} {done todo : List (Branch C V α)} {op : ChanOp C α} {b : Nat}
      {item : Item n C V α} : s.pcs i = .claimed flg done todo op b item → s.flags item.flag = .waiting →
      Act s i ((s.commitMatch i op b item).goto i (.matchUnlock (.block flg done todo) op b item))
  | claimedFail {flg : Flag n} {done todo : List (Branch C V α)} {op : ChanOp C α} {b : Nat} {item : Item n C V α} :
      s.pcs i = .claimed flg done todo op b item → s.flags item.flag ≠ .waiting →
      Act s i (s.goto i (.rollBack flg done todo op b item (s.flags item.flag == .claimed)))
  | rollBack {flg : Flag n} {done todo : List (Branch C V α)} {op : ChanOp C α} {b : Nat} {item : Item n C V α}
      {again : Bool} : s.pcs i = .rollBack flg done todo op b item again →
      Act s i ((s.setFlag item.flag .waiting).goto i
        (if again then .matchLp (.block flg done todo) op b item else .tryLp (.block flg done todo) op b))
  | push {flg : Flag n} {evt : List (Branch C V α)} {op : ChanOp C α} {item : Item n C V α} :
      s.pcs i = .push flg evt op item →
      Act s i ((s.setQueue op.ch op.side.other (item :: s.queue op.ch op.side.other)).goto i (.pushUnlock flg evt op))
  | pushUnlock {flg : Flag n} {evt : List (Branch C V α)} {op : ChanOp C α} : s.pcs i = .pushUnlock flg evt op →
      Act s i ((s.unlock (.inl op.ch)).goto i (.stop flg evt))
  | matchUnlock {m : Mode n C V α} {op : ChanOp C α} {b : Nat} {item : Item n C V α} :
      s.pcs i = .matchUnlock m op b item →
      Act s i ((s.matchUnlock m op).goto i (.handOver m op b item))
  | handOver {m : Mode n C V α} {op : ChanOp C α} {b : Nat} {item : Item n C V α} :
      s.pcs i = .handOver m op b item →
      Act s i ((s.enqueueReady item (handed (s.call i, (.chan op, b)) op)).goto i
        (.ret (m.evt (.chan op, b)) (.chan op, b) (m.result op item)))
  | dequeueNone {m : WaitMode n C V α} {op : ChanOp C α} {b : Nat} : s.pcs i = .tryLp m.mode op b →
      m.mode.dequeue (s.queue op.ch op.side.other) = none → Act s i (s.goto i (.enqueue m op b))
  | enqueue {m : WaitMode n C V α} {op : ChanOp C α} {b : Nat} : s.pcs i = .enqueue m op b →
      Act s i ((s.enqueue op.ch op.side ⟨m.flag (s.call i), (.chan op, b)⟩).goto i (.enqueueUnlock m op b))
  | enqueueUnlock {m : WaitMode n C V α} {op : ChanOp C α} {b : Nat} : s.pcs i = .enqueueUnlock m op b →
      Act s i ((s.unlock (.inl op.ch)).goto i (m.next (s.call i) (.chan op, b)))
  | doNone {enabled evt : List (Branch C V α)} {op : ChanOp C α} {b : Nat} :
      s.pcs i = .tryLp (.poll enabled evt) op b → Event.dequeue (s.queue op.ch op.side.other) = none →
      Act s i (s.goto i (.noneUnlock enabled evt op))
  | noneUnlock {enabled evt : List (Branch C V α)} {op : ChanOp C α} : s.pcs i = .noneUnlock enabled evt op →
      Act s i ((s.unlock (.inl op.ch)).goto i (.doEvt enabled evt))
  /- `@cvar-wait` and the block function of `waitEvt` -/
  | wait (cv : V) : s.pcs i = .idle → Act s i ((s.begin i [(.wait cv, 0)]).goto i (.waitState cv))
  | waitDone {cv : V} : s.pcs i = .waitState cv → s.state cv = true →
      Act s i ((s.commit (s.call i) (.wait cv, 0)).goto i (.ret [(.wait cv, 0)] (.wait cv, 0) .unit))
  | waitState {cv : V} : s.pcs i = .waitState cv → s.state cv = false → Act s i (s.goto i (.waitLock .plain cv 0))
  | waitLock {m : WaitMode n C V α} {cv : V} {b : Nat} : s.pcs i = .waitLock m cv b → s.lock (.inr cv) = none →
      Act s i ((s.acquire i (.inr cv)).goto i (.waitCase m cv b))
  | caseTrue {m : WaitMode n C V α} {cv : V} {b : Nat} : s.pcs i = .waitCase m cv b → s.state cv = true →
      Act s i (s.goto i (.waitTrue m cv b))
  | waitTrue {m : WaitMode n C V α} {cv : V} {b : Nat} : s.pcs i = .waitTrue m cv b →
      Act s i (((s.unlock (.inr cv)).commit (s.call i) (.wait cv, b)).goto i
        (.ret (m.mode.evt (.wait cv, b)) (.wait cv, b) .unit))
  | caseFalse {m : WaitMode n C V α} {cv : V} {b : Nat} : s.pcs i = .waitCase m cv b → s.state cv = false →
      Act s i (s.goto i (.waitPush m cv b))
  | waitPush {m : WaitMode n C V α} {cv : V} {b : Nat} : s.pcs i = .waitPush m cv b →
      Act s i ((s.setWaiting cv (⟨m.waitFlag (s.call i), (.wait cv, b)⟩ :: s.waiting cv)).goto i
        (.waitUnlock (m.waitFlag (s.call i)) (m.mode.evt (.wait cv, b)) cv))
  | waitUnlock {flg : Flag n} {evt : List (Branch C V α)} {cv : V} : s.pcs i = .waitUnlock flg evt cv →
      Act s i ((s.unlock (.inr cv)).goto i (.stop flg evt))
  /- `@cvar-signal` -/
  | signal (cv : V) : s.pcs i = .idle → Act s i (s.goto i (.signalLock cv))
  | signalLock {cv : V} : s.pcs i = .signalLock cv → s.lock (.inr cv) = none →
      Act s i ((s.acquire i (.inr cv)).goto i (.signalState cv))
  | signalState {cv : V} : s.pcs i = .signalState cv →
      Act s i ({ s with state := update s.state cv true }.goto i (.signalWaiting cv))
  | signalWaiting {cv : V} : s.pcs i = .signalWaiting cv →
      Act s i ((s.setWaiting cv []).goto i (.signalUnlock cv (s.waiting cv)))
  | signalUnlock {cv : V} {waiting : List (Item n C V α)} : s.pcs i = .signalUnlock cv waiting →
      Act s i ((s.unlock (.inr cv)).goto i (.signalLp waiting))
  | signalWake {hd : Item n C V α} {tl : List (Item n C V α)} : s.pcs i = .signalLp (hd :: tl) →
      s.flags hd.flag = .waiting →
      Act s i (((s.setFlag hd.flag .synched).commit hd.flag.call hd.branch).goto i (.signalReady hd tl))
  | signalSkip {hd : Item n C V α} {tl : List (Item n C V α)} : s.pcs i = .signalLp (hd :: tl) →
      s.flags hd.flag ≠ .waiting → Act s i (s.goto i (.signalLp tl))
  | signalReady {hd : Item n C V α} {tl : List (Item n C V α)} : s.pcs i = .signalReady hd tl →
      Act s i ((s.enqueueReady hd .unit).goto i (.signalLp tl))
  | signalNil : s.pcs i = .signalLp [] → Act s i (s.goto i .idle)

/-- The steps of the threads that meet the condition, which is about the state before the step. -/
def Step (P : State n C V α → Fin n → Prop) (s s' : State n C V α) : Prop := ∃ i, P s i ∧ Act s i s'

def Run (P : State n C V α → Fin n → Prop) (s : State n C V α) : Prop :=
  Relation.ReflTransGen (Step P) (init n C V α) s

end Manticore.Cml.Event
