/-
  Manticore.Scheduler.VProcQueue — the thread queues of a vproc
  (lib/basis/runtime/vproc-queue.pml, `@send-in-atomic` and `@recv-in-atomic` of vproc.pml).

  A vproc has a primary and a secondary queue, each two linked lists: items go in at the tail
  list and come out of the head list, which is filled from the reversed tail list when it runs
  out. Other vprocs push on the landing pad; polling moves the whole pad in front of the
  primary queue's head list.

  Proved: a queue is the sequence `toList` with items leaving at its front and entering at its
  end (`toList_enqueue`, `dequeue_eq`), and a poll puts the landing pad in front of the
  primary queue (`poll_rdyq`, `poll_landingPad`).
-/

import Mathlib

namespace Manticore.Scheduler.VProcQueue

variable {α : Type}

/-- The head and the tail list of a queue: `VP_RDYQ_HD` and `VP_RDYQ_TL`, or `VP_SNDQ_HD` and `VP_SNDQ_TL`. -/
structure Queue (α : Type) where
  hd : List α
  tl : List α
  deriving DecidableEq, Repr

structure VProc (α : Type) where
  rdyq : Queue α
  sndq : Queue α
  landingPad : List α
  deriving DecidableEq, Repr

def Queue.empty : Queue α := ⟨[], []⟩

def VProc.init : VProc α := ⟨.empty, .empty, []⟩

/-- `@queue-reverse`: the first item of the reversed list, and its link. -/
def revQueue : α → List α → List α → α × List α
  | x, [], acc => (x, acc)
  | x, y :: rest, acc => revQueue y rest (x :: acc)

def queueReverse (x : α) (rest : List α) : α × List α := revQueue x rest []

def queueAppend : List α → List α → List α
  | [], queue2 => queue2
  | x :: rest, queue2 => x :: queueAppend rest queue2

def Queue.enqueue (q : Queue α) (x : α) : Queue α := { q with tl := x :: q.tl }

def Queue.dequeue (q : Queue α) : Queue α × Option α :=
  match q.hd with
  | x :: link => ({ q with hd := link }, some x)
  | [] =>
    match q.tl with
    | x :: rest => (⟨(queueReverse x rest).2, []⟩, some (queueReverse x rest).1)
    | [] => (q, none)

namespace VProc

/-- `@enqueue-in-atomic`. -/
def enqueue (vp : VProc α) (x : α) : VProc α := { vp with rdyq := vp.rdyq.enqueue x }

/-- `@secondary-enqueue-in-atomic`. -/
def secondaryEnqueue (vp : VProc α) (x : α) : VProc α := { vp with sndq := vp.sndq.enqueue x }

/-- `@primary-dequeue-in-atomic`. -/
def primaryDequeue (vp : VProc α) : VProc α × Option α :=
  ({ vp with rdyq := vp.rdyq.dequeue.1 }, vp.rdyq.dequeue.2)

/-- `@secondary-dequeue-in-atomic`. -/
def secondaryDequeue (vp : VProc α) : VProc α × Option α :=
  ({ vp with sndq := vp.sndq.dequeue.1 }, vp.sndq.dequeue.2)

/-- `@dequeue-in-atomic`. -/
def dequeue (vp : VProc α) : VProc α × Option α :=
  match vp.primaryDequeue with
  | (vp, some q) => (vp, some q)
  | (vp, none) => vp.secondaryDequeue

/-- `@send-in-atomic` of another vproc, at its compare-and-swap. -/
def send (vp : VProc α) (x : α) : VProc α := { vp with landingPad := x :: vp.landingPad }

/-- `@poll-landing-pad-in-atomic`. -/
def pollLandingPad (vp : VProc α) : VProc α × Bool :=
  match vp.landingPad with
  | [] => (vp, false)
  | x :: rest =>
    ({ vp with rdyq := { vp.rdyq with hd := queueAppend (x :: rest) vp.rdyq.hd }, landingPad := [] }, true)

end VProc

/-! ## A queue as the sequence of its items -/

theorem revQueue_eq (x : α) (rest acc : List α) :
    (revQueue x rest acc).1 :: (revQueue x rest acc).2 = (x :: rest).reverse ++ acc := by
  induction rest generalizing x acc with
  | nil => simp [revQueue]
  | cons y rest ih => rw [revQueue, ih]; simp

@[simp] theorem queueAppend_eq (queue1 queue2 : List α) : queueAppend queue1 queue2 = queue1 ++ queue2 := by
  induction queue1 with
  | nil => rfl
  | cons x rest ih => rw [queueAppend, ih, List.cons_append]

namespace Queue

/-- The items in the order in which they leave. -/
def toList (q : Queue α) : List α := q.hd ++ q.tl.reverse

@[simp] theorem toList_empty : (empty : Queue α).toList = [] := rfl

@[simp] theorem toList_enqueue (q : Queue α) (x : α) : (q.enqueue x).toList = q.toList ++ [x] := by
  simp [toList, enqueue]

theorem dequeue_eq (q : Queue α) : q.dequeue.2 = q.toList.head? ∧ q.dequeue.1.toList = q.toList.tail := by
  unfold dequeue toList
  match hhd : q.hd, htl : q.tl with
  | x :: link, _ => simp
  | [], [] => simp [hhd, htl]
  | [], x :: rest =>
    have hrev := revQueue_eq x rest []
    rw [List.append_nil] at hrev
    simp [queueReverse, ← hrev]

theorem dequeue_none {q q' : Queue α} (h : q.dequeue = (q', none)) : q.toList = [] ∧ q'.toList = [] := by
  have hd := q.dequeue_eq
  rw [h] at hd
  have hnil : q.toList = [] := by simpa using hd.1.symm
  exact ⟨hnil, by rw [hd.2, hnil]; rfl⟩

theorem dequeue_some {q q' : Queue α} {x : α} (h : q.dequeue = (q', some x)) : q.toList = x :: q'.toList := by
  have hd := q.dequeue_eq
  rw [h] at hd
  obtain ⟨l, hl⟩ := List.head?_eq_some_iff.mp hd.1.symm
  rw [hd.2, hl, List.tail_cons]

end Queue

namespace VProc

@[simp] theorem poll_landingPad (vp : VProc α) : vp.pollLandingPad.1.landingPad = [] := by
  unfold pollLandingPad
  split <;> simp_all

@[simp] theorem poll_sndq (vp : VProc α) : vp.pollLandingPad.1.sndq = vp.sndq := by
  unfold pollLandingPad
  split <;> rfl

@[simp] theorem poll_rdyq (vp : VProc α) : vp.pollLandingPad.1.rdyq.toList = vp.landingPad ++ vp.rdyq.toList := by
  unfold pollLandingPad
  split <;> simp_all [Queue.toList]

/-- What a dequeue takes: the front of the primary queue, else of the secondary queue. -/
theorem dequeue_some {vp vp' : VProc α} {x : α} (h : vp.dequeue = (vp', some x)) :
    vp'.landingPad = vp.landingPad ∧
      (vp.rdyq.toList = x :: vp'.rdyq.toList ∧ vp'.sndq = vp.sndq ∨
        vp.rdyq.toList = [] ∧ vp'.rdyq.toList = [] ∧ vp.sndq.toList = x :: vp'.sndq.toList) := by
  unfold dequeue primaryDequeue at h
  rcases hq : vp.rdyq.dequeue with ⟨q, _ | y⟩ <;> rw [hq] at h
  · grind [secondaryDequeue, Queue.dequeue_none, Queue.dequeue_some]
  · cases h
    exact ⟨rfl, .inl ⟨Queue.dequeue_some hq, rfl⟩⟩

theorem dequeue_none {vp vp' : VProc α} (h : vp.dequeue = (vp', none)) :
    vp'.landingPad = vp.landingPad ∧ vp'.rdyq.toList = vp.rdyq.toList ∧ vp'.sndq.toList = vp.sndq.toList := by
  unfold dequeue primaryDequeue at h
  rcases hq : vp.rdyq.dequeue with ⟨q, _ | y⟩ <;> rw [hq] at h
  · simp only [secondaryDequeue, Prod.mk.injEq] at h
    obtain ⟨rfl, hx⟩ := h
    have hr := Queue.dequeue_none hq
    have hs := Queue.dequeue_none (Prod.ext (Eq.refl vp.sndq.dequeue.1) hx)
    exact ⟨rfl, hr.2.trans hr.1.symm, hs.2.trans hs.1.symm⟩
  · cases h

/-- A dequeue finds nothing only where there is nothing. -/
theorem dequeue_nil {vp vp' : VProc α} (h : vp.dequeue = (vp', none)) : vp.rdyq.toList = [] ∧ vp.sndq.toList = [] := by
  unfold dequeue primaryDequeue at h
  rcases hq : vp.rdyq.dequeue with ⟨q, _ | y⟩ <;> rw [hq] at h
  · have hx : vp.sndq.dequeue.2 = none := congrArg Prod.snd h
    exact ⟨(Queue.dequeue_none hq).1, (Queue.dequeue_none (Prod.ext (Eq.refl vp.sndq.dequeue.1) hx)).1⟩
  · cases h

end VProc

end Manticore.Scheduler.VProcQueue
