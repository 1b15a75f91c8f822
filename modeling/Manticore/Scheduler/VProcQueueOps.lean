/-
  Manticore.Scheduler.VProcQueueOps — the other operations on a vproc's queues (lib/basis/runtime/vproc-queue.pml):
  the predicates, `@dequeue-with-pred-in-atomic`, and sequences of operations.

  (1) Order (`queue_runs`). Each of the two queues is first in, first out, the secondary one is served when the primary
  one is empty, and a poll puts the landing pad, last sent first, in front of the primary one. Nothing is lost or
  duplicated. A thread from the landing pad overtakes, and `@more-than-one-in-atomic` holds of two empty queues
  (`sent_overtakes`).

  (2) Search (`dequeueWithPred_iff`). The search rotates the queue until it is back at an item with the first one's
  fiber-local storage, so it keeps the order, and finds what is there, exactly if it ends at the first or at the last
  item of a queue. A search that finds nothing moves the first item to the end (`search_rotates`).
-/

import Manticore.Library.Fuel
import Manticore.Scheduler.VProcQueue

namespace Manticore.Scheduler.VProcQueue

open Fuel (Returns)
open List (nil_append append_assoc Perm mem_cons mem_append)
open VProc (dequeue_nil dequeue_some)

variable {α : Type}

/-! ## Predicates -/

/-- `@primary-is-local-queue-empty-in-atomic`, and the one of the secondary queue. -/
def Queue.isEmpty (q : Queue α) : Bool := q.tl.isEmpty && q.hd.isEmpty

/-- The length of a linked list, as far as two. -/
def upToTwo : List α → Int
  | [] => 0
  | [_] => 1
  | _ => 2

/-- `@primary-more-than-one-in-atomic`, and the one of the secondary queue. -/
def Queue.moreThanOne (q : Queue α) : Bool := upToTwo q.tl + upToTwo q.hd > 1

/-- `@more-than-one-in-atomic`. -/
def VProc.moreThanOne (vp : VProc α) : Bool :=
  if vp.rdyq.moreThanOne then true
  else if vp.sndq.moreThanOne then true
  else if vp.rdyq.isEmpty then vp.sndq.isEmpty else false

theorem upToTwo_eq (l : List α) : upToTwo l = min (l.length : Int) 2 := by
  match l with
  | [] | [_] => rfl
  | _ :: _ :: l =>
    simp only [upToTwo, List.length_cons]
    omega

theorem Queue.moreThanOne_iff (q : Queue α) : q.moreThanOne = true ↔ 2 ≤ q.toList.length := by
  simp only [moreThanOne, upToTwo_eq, toList, decide_eq_true_eq, List.length_append, List.length_reverse]
  omega

/-! ## Runs -/

inductive Op (α : Type) where
  | enqueue (x : α)
  | secondaryEnqueue (x : α)
  | dequeue
  /-- `@send-in-atomic` of another vproc. -/
  | send (x : α)
  | pollLandingPad

def VProc.exec (vp : VProc α) : Op α → VProc α × Option α
  | .enqueue x => (vp.enqueue x, none)
  | .secondaryEnqueue x => (vp.secondaryEnqueue x, none)
  | .dequeue => vp.dequeue
  | .send x => (vp.send x, none)
  | .pollLandingPad => (vp.pollLandingPad.1, none)

/-- The vproc after a sequence of operations, and what was dequeued. -/
def VProc.run (vp : VProc α) : List (Op α) → VProc α × List α
  | [] => (vp, [])
  | op :: ops => (((vp.exec op).1.run ops).1, (vp.exec op).2.toList ++ ((vp.exec op).1.run ops).2)

/-- The threads that arrive. -/
def Op.arrived : Op α → List α
  | .enqueue x | .secondaryEnqueue x | .send x => [x]
  | _ => []

/-- The two queues in the order in which they are left, and the landing pad. -/
structure Lists (α : Type) where
  primary : List α
  secondary : List α
  pad : List α

def Lists.exec (l : Lists α) : Op α → Lists α × Option α
  | .enqueue x => ({ l with primary := l.primary ++ [x] }, none)
  | .secondaryEnqueue x => ({ l with secondary := l.secondary ++ [x] }, none)
  | .dequeue =>
    match l.primary, l.secondary with
    | x :: primary, _ => ({ l with primary }, some x)
    | [], x :: secondary => ({ l with secondary }, some x)
    | [], [] => (l, none)
  | .send x => ({ l with pad := x :: l.pad }, none)
  | .pollLandingPad => ({ l with primary := l.pad ++ l.primary, pad := [] }, none)

def Lists.run (l : Lists α) : List (Op α) → Lists α × List α
  | [] => (l, [])
  | op :: ops => (((l.exec op).1.run ops).1, (l.exec op).2.toList ++ ((l.exec op).1.run ops).2)

def VProc.lists (vp : VProc α) : Lists α := ⟨vp.rdyq.toList, vp.sndq.toList, vp.landingPad⟩

/-- All threads that are there. -/
def Lists.all (l : Lists α) : List α := l.primary ++ l.secondary ++ l.pad

theorem exec_lists (vp : VProc α) (op : Op α) :
    (vp.exec op).1.lists = (vp.lists.exec op).1 ∧ (vp.exec op).2 = (vp.lists.exec op).2 := by
  cases op with
  | enqueue x => exact ⟨by simp [VProc.exec, VProc.enqueue, VProc.lists, Lists.exec], rfl⟩
  | secondaryEnqueue x => exact ⟨by simp [VProc.exec, VProc.secondaryEnqueue, VProc.lists, Lists.exec], rfl⟩
  | send x => exact ⟨rfl, rfl⟩
  | pollLandingPad => exact ⟨by simp [VProc.exec, VProc.lists, Lists.exec], rfl⟩
  | dequeue =>
    simp only [VProc.exec, VProc.lists, Lists.exec]
    rcases hd : vp.dequeue with ⟨vp', _ | x⟩
    · obtain ⟨hpad, hr, hs⟩ := VProc.dequeue_none hd
      have hnil := dequeue_nil hd
      simp [hpad, hr, hs, hnil]
    · obtain ⟨hpad, ⟨hr, hs⟩ | ⟨hr, hr', hs⟩⟩ := dequeue_some hd
      · simp [hpad, hr, hs]
      · simp [hpad, hr, hr', hs]

theorem run_lists (vp : VProc α) (ops : List (Op α)) :
    (vp.run ops).1.lists = (vp.lists.run ops).1 ∧ (vp.run ops).2 = (vp.lists.run ops).2 := by
  induction ops generalizing vp with
  | nil => exact ⟨rfl, rfl⟩
  | cons op ops ih =>
    obtain ⟨hl, hout⟩ := exec_lists vp op
    obtain ⟨ihl, ihout⟩ := ih (vp.exec op).1
    rw [hl] at ihl ihout
    exact ⟨ihl, by rw [VProc.run, Lists.run, hout, ihout]⟩

theorem Lists.exec_perm (l : Lists α) (op : Op α) : ((l.exec op).2.toList ++ (l.exec op).1.all).Perm (l.all ++ op.arrived) := by
  cases op with
  | enqueue x =>
    simp only [exec, all, Op.arrived, Option.toList_none, nil_append, append_assoc]
    exact Perm.append_left _ (List.perm_append_comm.trans (by simp))
  | secondaryEnqueue x =>
    simp only [exec, all, Op.arrived, Option.toList_none, nil_append, append_assoc]
    exact Perm.append_left _ (Perm.append_left _ List.perm_append_comm)
  | send x =>
    simp only [exec, all, Op.arrived, Option.toList_none, nil_append, append_assoc]
    exact Perm.append_left _ (Perm.append_left _ (List.perm_append_singleton x l.pad).symm)
  | pollLandingPad =>
    simp only [exec, all, Op.arrived, Option.toList_none, nil_append, List.append_nil, append_assoc]
    exact List.perm_append_comm.trans (by simp)
  | dequeue =>
    obtain ⟨_ | ⟨x, primary⟩, _ | ⟨y, secondary⟩, pad⟩ := l <;> simp [exec, all, Op.arrived]

theorem Lists.run_perm (l : Lists α) (ops : List (Op α)) :
    ((l.run ops).2 ++ (l.run ops).1.all).Perm (l.all ++ ops.flatMap Op.arrived) := by
  induction ops generalizing l with
  | nil => simp [run]
  | cons op ops ih =>
    simp only [run, List.flatMap_cons, append_assoc]
    refine ((ih (l.exec op).1).append_left _).trans ?_
    rw [← append_assoc, ← append_assoc]
    exact (l.exec_perm op).append_right _

/-- From empty queues the operations do what they do to the lists; every thread that arrived has been dequeued once or is
there once; and each queue knows whether it has more than one thread. -/
theorem queue_runs (ops : List (Op α)) :
    (VProc.init.run ops).1.lists = (Lists.run ⟨[], [], []⟩ ops).1 ∧
    (VProc.init.run ops).2 = (Lists.run ⟨[], [], []⟩ ops).2 ∧
    ((VProc.init.run ops).2 ++ (VProc.init.run ops).1.lists.all).Perm (ops.flatMap Op.arrived) ∧
    ((VProc.init.run ops).1.rdyq.moreThanOne = true ↔ 2 ≤ (VProc.init.run ops).1.lists.primary.length) ∧
    ((VProc.init.run ops).1.sndq.moreThanOne = true ↔ 2 ≤ (VProc.init.run ops).1.lists.secondary.length) := by
  obtain ⟨hl, hout⟩ := run_lists VProc.init ops
  refine ⟨hl, hout, ?_, Queue.moreThanOne_iff _, Queue.moreThanOne_iff _⟩
  rw [hl, hout]
  exact Lists.run_perm ⟨[], [], []⟩ ops

/-- The thread that arrives second is dequeued first, and none is more than one. -/
theorem sent_overtakes :
    (VProc.init.run [.enqueue 1, .send 2, .pollLandingPad, .dequeue]).2 = [2] ∧ (VProc.init : VProc Nat).moreThanOne = true := by
  decide

/-! ## Search -/

section Search

variable {Fls : Type} [DecidableEq Fls] (fls : α → Fls) (f : Fls → Bool)

/-- The loop `lp` of `@primary-dequeue-with-pred-in-atomic` and of the one of the secondary queue. -/
def lp (deq : VProc α → VProc α × Option α) (enq : VProc α → α → VProc α) (origItem : α) :
    Nat → VProc α → Except Unit (VProc α × Option α)
  | 0, _ => .error ()
  | n + 1, self =>
    match deq self with
    | (self, none) => .ok (self, none)
    | (self, some item) =>
      if f (fls item) then .ok (self, some item)
      else if fls item = fls origItem then .ok (enq self item, none)
      else lp deq enq origItem n (enq self item)

def withPred (deq : VProc α → VProc α × Option α) (enq : VProc α → α → VProc α) (n : Nat) (self : VProc α) :
    Except Unit (VProc α × Option α) :=
  match deq self with
  | (self, none) => .ok (self, none)
  | (self, some origItem) =>
    if f (fls origItem) then .ok (self, some origItem) else lp fls f deq enq origItem n (enq self origItem)

/-- `@primary-dequeue-with-pred-in-atomic`: it dequeues from both queues. -/
def VProc.primaryDequeueWithPred := withPred fls f VProc.dequeue VProc.enqueue

/-- `@secondary-dequeue-with-pred-in-atomic`. -/
def VProc.secondaryDequeueWithPred := withPred fls f VProc.secondaryDequeue VProc.secondaryEnqueue

/-- `@dequeue-with-pred-in-atomic`. -/
def VProc.dequeueWithPred (n : Nat) (self : VProc α) : Except Unit (VProc α × Option α) := do
  let (self, t) ← self.primaryDequeueWithPred fls f n
  match t with
  | some q => .ok (self, some q)
  | none => self.secondaryDequeueWithPred fls f n

/-- What the loop finds when `pre` has been put back behind `o` and `r` is still in front of it, and what it leaves. -/
def scan (o : α) : List α → List α → Option α × List α
  | pre, [] => (none, pre ++ [o])
  | pre, x :: r =>
    if f (fls x) then (some x, r ++ o :: pre)
    else if fls x = fls o then (none, r ++ o :: (pre ++ [x]))
    else scan o (pre ++ [x]) r

/-- The search of a queue, on the list of its items. -/
def search : List α → Option α × List α
  | [] => (none, [])
  | o :: r => if f (fls o) then (some o, r) else scan fls f o [] r

/-- How a queue is seen: what a dequeue and an enqueue do to the list of its items, and what they leave alone. -/
structure View {ρ : Type} (deq : VProc α → VProc α × Option α) (enq : VProc α → α → VProc α) (items : VProc α → List α)
    (rest : VProc α → ρ) : Prop where
  deq : ∀ {vp x l}, items vp = x :: l → ∃ vp', deq vp = (vp', some x) ∧ items vp' = l ∧ rest vp' = rest vp
  enq : ∀ vp x, items (enq vp x) = items vp ++ [x] ∧ rest (enq vp x) = rest vp

theorem primary_view : View VProc.dequeue VProc.enqueue (fun vp : VProc α => vp.rdyq.toList)
    (fun vp => (vp.sndq.toList, vp.landingPad)) where
  deq {vp x l} h := by
    rcases hd : vp.dequeue with ⟨vp', _ | y⟩
    · rw [(dequeue_nil hd).1] at h
      cases h
    · obtain ⟨hpad, ⟨hr, hs⟩ | ⟨hr, -, -⟩⟩ := dequeue_some hd
      · rw [hr] at h
        cases h
        exact ⟨vp', rfl, rfl, by rw [hs, hpad]⟩
      · rw [hr] at h
        cases h
  enq vp x := ⟨Queue.toList_enqueue _ _, rfl⟩

theorem secondary_view : View VProc.secondaryDequeue VProc.secondaryEnqueue (fun vp : VProc α => vp.sndq.toList)
    (fun vp => (vp.rdyq.toList, vp.landingPad)) where
  deq {vp x l} h := by
    obtain ⟨hx, hl⟩ := vp.sndq.dequeue_eq
    rw [h] at hx hl
    exact ⟨_, Prod.ext rfl hx, hl, rfl⟩
  enq vp x := ⟨Queue.toList_enqueue _ _, rfl⟩

variable {fls f} {ρ : Type} {deq : VProc α → VProc α × Option α} {enq : VProc α → α → VProc α} {items : VProc α → List α}
  {rest : VProc α → ρ}

theorem View.lp (hv : View deq enq items rest) {o : α} (ho : ¬ f (fls o)) {r pre : List α} {vp : VProc α}
    (h : items vp = r ++ o :: pre) : ∃ vp', Returns (fun n => lp fls f deq enq o n vp) (vp', (scan fls f o pre r).1) ∧
      items vp' = (scan fls f o pre r).2 ∧ rest vp' = rest vp := by
  induction r generalizing pre vp with
  | nil =>
    obtain ⟨vp₁, hd, hi, hrest⟩ := hv.deq h
    obtain ⟨hie, hre⟩ := hv.enq vp₁ o
    refine ⟨enq vp₁ o, .succ ?_, by rw [hie, hi, scan], hre.trans hrest⟩
    simp only [VProcQueue.lp, hd, if_neg ho, if_true, scan]
    exact .pure _
  | cons x r ih =>
    obtain ⟨vp₁, hd, hi, hrest⟩ := hv.deq h
    obtain ⟨hie, hre⟩ := hv.enq vp₁ x
    by_cases hx : f (fls x)
    · refine ⟨vp₁, .succ ?_, by rw [scan, if_pos hx, hi]; rfl, hrest⟩
      simp only [VProcQueue.lp, hd, scan, if_pos hx]
      exact .pure _
    · have hi' : items (enq vp₁ x) = r ++ o :: (pre ++ [x]) := by rw [hie, hi]; simp
      by_cases hs : fls x = fls o
      · refine ⟨enq vp₁ x, .succ ?_, by rw [scan, if_neg hx, if_pos hs, hi'], hre.trans hrest⟩
        simp only [VProcQueue.lp, hd, scan, if_neg hx, if_pos hs]
        exact .pure _
      · obtain ⟨vp', hret, hit, hr⟩ := ih hi'
        refine ⟨vp', .succ ?_, by rw [scan, if_neg hx, if_neg hs, hit], hr.trans (hre.trans hrest)⟩
        simp only [VProcQueue.lp, hd, scan, if_neg hx, if_neg hs]
        exact hret

theorem View.withPred (hv : View deq enq items rest) {vp : VProc α} (h : items vp ≠ []) :
    ∃ vp', Returns (fun n => withPred fls f deq enq n vp) (vp', (search fls f (items vp)).1) ∧
      items vp' = (search fls f (items vp)).2 ∧ rest vp' = rest vp := by
  obtain ⟨o, r, hor⟩ := List.exists_cons_of_ne_nil h
  obtain ⟨vp₁, hd, hi, hrest⟩ := hv.deq hor
  obtain ⟨hie, hre⟩ := hv.enq vp₁ o
  simp only [VProcQueue.withPred, hd, hor, search]
  by_cases ho : f (fls o)
  · simp only [if_pos ho]
    exact ⟨vp₁, .pure _, hi, hrest⟩
  · simp only [if_neg ho]
    obtain ⟨vp', hret, hit, hr⟩ := hv.lp ho (hie.trans (by rw [hi]))
    exact ⟨vp', hret, hit, hr.trans (hre.trans hrest)⟩

/-! ## What a search finds and leaves -/

variable (fls f)

/-- The search of the list ends at its first item or at its last. -/
def EndsAt : List α → Prop
  | [] => True
  | o :: r => f (fls o) ∨ r = [] ∨
    ∃ a x, r = a ++ [x] ∧ (f (fls x) ∨ fls x = fls o) ∧ ∀ y ∈ a, ¬ f (fls y) ∧ fls y ≠ fls o

/-- One item that satisfies the predicate is taken if there is one, and the others stay in their order. -/
def Takes [DecidableEq α] (q : List α) : Option α × List α → Prop
  | (some x, q') => f (fls x) ∧ x ∈ q ∧ q' = q.erase x
  | (none, q') => (∀ x ∈ q, ¬ f (fls x)) ∧ q' = q

variable {fls f}

/-- Where the loop ends: at an item that satisfies the predicate, at one with the storage of the first, or at the first. -/
theorem scan_ends {o : α} (ho : ¬ f (fls o)) (r pre : List α) :
    (∃ a x b, r = a ++ x :: b ∧ (f (fls x) ∨ fls x = fls o) ∧ (∀ y ∈ a, ¬ f (fls y) ∧ fls y ≠ fls o) ∧
      scan fls f o pre r = if f (fls x) then (some x, b ++ o :: (pre ++ a)) else (none, b ++ o :: (pre ++ a ++ [x]))) ∨
    (∀ y ∈ r, ¬ f (fls y) ∧ fls y ≠ fls o) ∧ scan fls f o pre r = (none, pre ++ r ++ [o]) := by
  induction r generalizing pre with
  | nil => exact .inr ⟨by simp, by simp [scan]⟩
  | cons x r ih =>
    by_cases hx : f (fls x)
    · exact .inl ⟨[], x, r, rfl, .inl hx, by simp, by simp [scan, hx]⟩
    · by_cases hs : fls x = fls o
      · exact .inl ⟨[], x, r, rfl, .inr hs, by simp, by simp [scan, hs, ho]⟩
      · rcases ih (pre ++ [x]) with ⟨a, y, b, rfl, hy, ha, heq⟩ | ⟨hr, heq⟩
        · exact .inl ⟨x :: a, y, b, rfl, hy, List.forall_mem_cons.mpr ⟨⟨hx, hs⟩, ha⟩, by simp [scan, hx, hs, heq]⟩
        · exact .inr ⟨List.forall_mem_cons.mpr ⟨⟨hx, hs⟩, hr⟩, by simp [scan, hx, hs, heq]⟩

/-- A rotation is none at all only if nothing is behind the place. -/
theorem rotate_eq {o : α} {a b : List α} (hn : (o :: (a ++ b)).Nodup) : b ++ o :: a = o :: (a ++ b) ↔ b = [] := by
  constructor
  · intro h
    cases b with
    | nil => rfl
    | cons y b =>
      obtain ⟨rfl, -⟩ := List.cons.inj h
      simp at hn
  · rintro rfl
    simp

section

variable [DecidableEq α]

theorem search_iff {l : List α} (hn : l.Nodup) : Takes fls f l (search fls f l) ↔ EndsAt fls f l := by
  cases l with
  | nil => simp [search, Takes, EndsAt]
  | cons o r =>
    by_cases ho : f (fls o)
    · simp [search, Takes, EndsAt, ho]
    rw [search, if_neg ho, EndsAt, or_iff_right ho]
    rcases scan_ends ho r [] with ⟨a, x, b, rfl, hx, ha, heq⟩ | ⟨hr, heq⟩
    · have hxo : x ≠ o := by
        rintro rfl
        simp at hn
      have hxa : x ∉ a := fun h => by simp_all [List.nodup_append]
      have hn' : (o :: (a ++ b)).Nodup := hn.sublist (by simp)
      have hend : (a ++ x :: b = [] ∨ ∃ a' x', a ++ x :: b = a' ++ [x'] ∧ (f (fls x') ∨ fls x' = fls o) ∧
          ∀ y ∈ a', ¬ f (fls y) ∧ fls y ≠ fls o) ↔ b = [] := by
        constructor
        · rintro (hnil | ⟨a', x', h, -, ha'⟩)
          · simp at hnil
          · by_contra hb
            have hlast : a ++ x :: b = (a ++ x :: b.dropLast) ++ [b.getLast hb] := by
              simp [List.dropLast_append_getLast]
            rw [hlast] at h
            obtain ⟨rfl, -⟩ := List.append_inj' h rfl
            have hclean := ha' x (by simp)
            exact hx.elim hclean.1 hclean.2
        · rintro rfl
          exact .inr ⟨a, x, rfl, hx, ha⟩
      rw [hend, heq]
      by_cases hfx : f (fls x)
      · have herase : (o :: (a ++ x :: b)).erase x = o :: (a ++ b) := by
          rw [List.erase_cons_tail (by simpa using hxo.symm), List.erase_append_right _ hxa, List.erase_cons_head]
        rw [if_pos hfx, Takes, herase, nil_append, rotate_eq hn']
        exact ⟨fun h => h.2.2, fun h => ⟨hfx, by simp, h⟩⟩
      · have hn'' : (o :: (a ++ [x] ++ b)).Nodup := by simpa using hn
        rw [if_neg hfx, Takes, nil_append, show o :: (a ++ x :: b) = o :: (a ++ [x] ++ b) by simp, rotate_eq hn'']
        constructor
        · exact And.right
        · rintro rfl
          refine ⟨fun y hy => ?_, rfl⟩
          simp only [List.append_nil, mem_cons, mem_append, List.not_mem_nil, or_false] at hy
          rcases hy with rfl | hy | rfl
          · exact ho
          · exact (ha y hy).1
          · exact hfx
    · rw [heq, Takes, nil_append]
      constructor
      · rintro ⟨-, h⟩
        exact .inl ((rotate_eq (a := []) (by simpa using hn)).mp (by simpa using h))
      · rintro (rfl | ⟨a, x, rfl, hx, -⟩)
        · simp [ho]
        · have hclean := hr x (by simp)
          exact absurd hx (not_or.mpr hclean)

end

/-! ## The two queues -/

variable (fls f)

/-- The search of the two queues: where the primary one is empty, the first item of the other comes into it. -/
def searchQueues (primary secondary : List α) : Option α × List α × List α :=
  match primary, secondary with
  | [], c :: s => if f (fls c) then (some c, [], s) else ((search fls f s).1, [c], (search fls f s).2)
  | p, s => match search fls f p with
    | (some x, p') => (some x, p', s)
    | (none, p') => ((search fls f s).1, p', (search fls f s).2)

/-- Each search of a queue ends at its first item or at its last. -/
def EndsAtEach : List α → List α → Prop
  | [], [] => True
  | [], c :: s => f (fls c) ∨ EndsAt fls f s
  | o :: p, s => EndsAt fls f (o :: p) ∧ ((∀ x ∈ o :: p, ¬ f (fls x)) → EndsAt fls f s)

variable {fls f}

theorem secondary_search (vp : VProc α) : ∃ vp', Returns (fun n => vp.secondaryDequeueWithPred fls f n)
    (vp', (search fls f vp.sndq.toList).1) ∧ vp'.sndq.toList = (search fls f vp.sndq.toList).2 ∧
    (vp'.rdyq.toList, vp'.landingPad) = (vp.rdyq.toList, vp.landingPad) := by
  by_cases h : vp.sndq.toList = []
  · obtain ⟨hx, hl⟩ := vp.sndq.dequeue_eq
    rw [h] at hx hl
    rw [h]
    refine ⟨vp.secondaryDequeue.1, .congr (.pure _) fun n => ?_, hl, rfl⟩
    have hd : vp.secondaryDequeue = (vp.secondaryDequeue.1, none) := Prod.ext rfl hx
    rw [VProc.secondaryDequeueWithPred, withPred, hd]
    rfl
  · exact secondary_view.withPred h

theorem dequeueWithPred_returns (vp : VProc α) : ∃ vp',
    Returns (fun n => vp.dequeueWithPred fls f n) (vp', (searchQueues fls f vp.rdyq.toList vp.sndq.toList).1) ∧
    vp'.lists = ⟨(searchQueues fls f vp.rdyq.toList vp.sndq.toList).2.1,
      (searchQueues fls f vp.rdyq.toList vp.sndq.toList).2.2, vp.landingPad⟩ := by
  -- what is left to do when the search of the primary queue has found nothing
  have hsnd : ∀ vp₁ : VProc α, Returns (fun n => vp.primaryDequeueWithPred fls f n) (vp₁, none) → ∃ vp',
      Returns (fun n => vp.dequeueWithPred fls f n) (vp', (search fls f vp₁.sndq.toList).1) ∧
      vp'.lists = ⟨vp₁.rdyq.toList, (search fls f vp₁.sndq.toList).2, vp₁.landingPad⟩ := by
    intro vp₁ hret
    obtain ⟨vp', hret', hs, hrest⟩ := @secondary_search α Fls _ fls f vp₁
    obtain ⟨hr, hpad⟩ := Prod.mk.inj hrest
    exact ⟨vp', hret.bind hret', by rw [VProc.lists, hs, hr, hpad]⟩
  by_cases hp : vp.rdyq.toList = []
  · cases hs : vp.sndq.toList with
    | nil =>
      rcases hd : vp.dequeue with ⟨vp₁, _ | y⟩
      · obtain ⟨hpad, hr, hs'⟩ := VProc.dequeue_none hd
        obtain ⟨vp', hret, hl⟩ := hsnd vp₁ (.congr (.pure _) fun n => by
          rw [VProc.primaryDequeueWithPred, withPred, hd])
        rw [hs', hs] at hret hl
        rw [hr, hp, hpad] at hl
        rw [hp]
        exact ⟨vp', hret, hl⟩
      · obtain ⟨-, ⟨hr, -⟩ | ⟨-, -, hr⟩⟩ := dequeue_some hd <;> simp [hr] at hp hs
    | cons c s =>
      rcases hd : vp.dequeue with ⟨vp₁, _ | y⟩
      · rw [(dequeue_nil hd).2] at hs
        cases hs
      · obtain ⟨hpad, ⟨hr, -⟩ | ⟨-, hr', hs'⟩⟩ := dequeue_some hd
        · rw [hp] at hr
          cases hr
        · rw [hs] at hs'
          cases hs'
          rw [hp, searchQueues]
          by_cases hc : f (fls c)
          · rw [if_pos hc]
            refine ⟨vp₁, .bind (a := (vp₁, some c)) (.congr (.pure _) fun n => ?_) (.pure _), by rw [VProc.lists, hr', hpad]⟩
            simp only [VProc.primaryDequeueWithPred, withPred, hd, if_pos hc]
          · rw [if_neg hc]
            obtain ⟨hie, hre⟩ := primary_view.enq vp₁ c
            have hi₁ : (vp₁.enqueue c).rdyq.toList = [] ++ c :: [] := by simpa [hr'] using hie
            obtain ⟨vp₂, hret, hi, hrest⟩ := primary_view.lp (f := f) hc hi₁
            obtain ⟨hs₂, hpad₂⟩ := Prod.mk.inj (hrest.trans hre)
            obtain ⟨vp', hret', hl⟩ := hsnd vp₂ (hret.congr fun n => by
              simp only [VProc.primaryDequeueWithPred, withPred, hd, if_neg hc])
            rw [hs₂] at hret' hl
            rw [hpad₂, hpad, show vp₂.rdyq.toList = [c] from hi] at hl
            exact ⟨vp', hret', hl⟩
  · obtain ⟨vp₁, hret, hi, hrest⟩ := @View.withPred α Fls _ fls f _ _ _ _ _ primary_view vp hp
    obtain ⟨hs, hpad⟩ := Prod.mk.inj hrest
    have heq : ∀ r p', search fls f vp.rdyq.toList = (r, p') → searchQueues fls f vp.rdyq.toList vp.sndq.toList =
        match r with
        | some x => (some x, p', vp.sndq.toList)
        | none => ((search fls f vp.sndq.toList).1, p', (search fls f vp.sndq.toList).2) := by
      intro r p' h
      obtain ⟨o, l, hol⟩ := List.exists_cons_of_ne_nil hp
      rw [hol] at h ⊢
      cases r <;> simp [searchQueues, h]
    rcases hsearch : search fls f vp.rdyq.toList with ⟨_ | x, p'⟩
    · rw [heq _ _ hsearch]
      rw [hsearch] at hret hi
      obtain ⟨vp', hret', hl⟩ := hsnd _ hret
      rw [hs] at hret' hl
      rw [hpad, show vp₁.rdyq.toList = p' from hi] at hl
      exact ⟨vp', hret', hl⟩
    · rw [heq _ _ hsearch]
      rw [hsearch] at hret hi
      exact ⟨vp₁, hret.bind (.pure _), by rw [VProc.lists, hs, hpad, show vp₁.rdyq.toList = p' from hi]⟩

/-- What has been found is in the list; if nothing has, the list is as long as before, and as it was only if nothing is
in it to be found. -/
theorem search_result {l q : List α} {r : Option α} (h : search fls f l = (r, q)) (hn : l.Nodup) :
    match r with
    | some x => x ∈ l ∧ f (fls x)
    | none => q.length = l.length ∧ (q = l → ∀ x ∈ l, ¬ f (fls x)) := by
  cases l with
  | nil =>
    cases h
    simp
  | cons o r' =>
    by_cases ho : f (fls o)
    · rw [search, if_pos ho] at h
      cases h
      exact ⟨by simp, ho⟩
    rw [search, if_neg ho] at h
    rcases scan_ends ho r' [] with ⟨a, x, b, rfl, hx, ha, heq⟩ | ⟨hr, heq⟩
    · rw [heq] at h
      split at h
      · next hfx =>
        cases h
        exact ⟨by simp, hfx⟩
      · next hfx =>
        cases h
        refine ⟨by simp; omega, fun hq => ?_⟩
        have hn' : (o :: ([] ++ a ++ [x] ++ b)).Nodup := by simpa using hn
        obtain rfl := (rotate_eq hn').mp (by simpa using hq)
        intro y hy
        simp only [mem_cons, mem_append, List.not_mem_nil, or_false] at hy
        rcases hy with rfl | hy | rfl
        · exact ho
        · exact (ha y hy).1
        · exact hfx
    · rw [heq] at h
      cases h
      exact ⟨by simp, fun _ => List.forall_mem_cons.mpr ⟨ho, fun y hy => (hr y hy).1⟩⟩

variable [DecidableEq α]

omit [DecidableEq Fls] in
theorem takes_append_left {p s s' : List α} {r : Option α} (hp : ∀ x ∈ p, ¬ f (fls x)) :
    Takes fls f (p ++ s) (r, p ++ s') ↔ Takes fls f s (r, s') := by
  cases r with
  | none =>
    simp only [Takes, List.append_cancel_left_eq, mem_append]
    exact and_congr_left fun _ => ⟨fun h x hx => h x (.inr hx), fun h x hx => hx.elim (hp x) (h x)⟩
  | some x =>
    simp only [Takes]
    refine and_congr_right fun hx => ?_
    have hxp : x ∉ p := fun h => hp x h hx
    rw [List.erase_append_right _ hxp, List.append_cancel_left_eq, mem_append, or_iff_right hxp]

theorem takes_queues {p s : List α} (hn : (p ++ s).Nodup) :
    Takes fls f (p ++ s) ((searchQueues fls f p s).1, (searchQueues fls f p s).2.1 ++ (searchQueues fls f p s).2.2) ↔
      EndsAtEach fls f p s := by
  obtain ⟨hnp, hns, hdisj⟩ := List.nodup_append.mp hn
  cases p with
  | nil =>
    cases s with
    | nil => simp [searchQueues, EndsAtEach, search, Takes]
    | cons c s =>
      by_cases hc : f (fls c)
      · simp [searchQueues, EndsAtEach, Takes, hc]
      · rw [searchQueues, if_neg hc, EndsAtEach, or_iff_right hc, ← search_iff hns.of_cons]
        exact takes_append_left (p := [c]) (by simpa using hc)
  | cons o l =>
    rw [EndsAtEach, ← search_iff hnp, ← search_iff hns]
    rcases hp : search fls f (o :: l) with ⟨_ | x, p'⟩
    · obtain ⟨hlen, hsame⟩ := search_result hp hnp
      simp only [searchQueues, hp]
      by_cases hpp : p' = o :: l
      · have hno := hsame hpp
        subst hpp
        rw [takes_append_left hno]
        exact ⟨fun h => ⟨⟨hno, rfl⟩, fun _ => h⟩, fun h => h.2 hno⟩
      · refine iff_of_false (fun h => hpp ?_) fun h => hpp h.1.2
        rcases hs : search fls f s with ⟨_ | y, s'⟩ <;> rw [hs] at h
        · exact (List.append_inj h.2 hlen).1
        · have hy := (search_result hs hns).1
          rw [Takes, List.erase_append_right _ fun hyp => hdisj y hyp y hy rfl] at h
          exact (List.append_inj h.2.2 hlen).1
    · obtain ⟨hx, hfx⟩ := search_result hp hnp
      simp only [searchQueues, hp, Takes]
      rw [List.erase_append_left _ hx, List.append_cancel_right_eq]
      exact ⟨fun h => ⟨⟨hfx, hx, h.2.2⟩, fun hno => absurd hfx (hno x hx)⟩, fun h => ⟨hfx, List.mem_append_left _ hx, h.1.2.2⟩⟩

/-- A search returns. It takes one thread that satisfies the predicate if there is one, and leaves the others in their
order, exactly if the search of each queue ends at its first or at its last item. -/
theorem dequeueWithPred_iff (vp : VProc α) (hn : (vp.rdyq.toList ++ vp.sndq.toList).Nodup) :
    ∃ vp' r, Returns (fun n => vp.dequeueWithPred fls f n) (vp', r) ∧ vp'.landingPad = vp.landingPad ∧
      (Takes fls f (vp.rdyq.toList ++ vp.sndq.toList) (r, vp'.rdyq.toList ++ vp'.sndq.toList) ↔
        EndsAtEach fls f vp.rdyq.toList vp.sndq.toList) := by
  obtain ⟨vp', hret, hl⟩ := @dequeueWithPred_returns α Fls _ fls f vp
  obtain ⟨hr, hs, hpad⟩ := Lists.mk.inj hl
  exact ⟨vp', _, hret, hpad, by rw [hr, hs]; exact takes_queues hn⟩

end Search

/-- The one thread that satisfies the predicate is the last of its queue. -/
theorem dequeueWithPred_last : ∃ vp' r,
    Returns (fun n => VProc.dequeueWithPred id (· == 3) n ⟨⟨[1, 2], [3]⟩, ⟨[4], []⟩, []⟩) (vp', r) ∧ vp'.landingPad = [] ∧
      (Takes id (· == 3) [1, 2, 3, 4] (r, vp'.rdyq.toList ++ vp'.sndq.toList) ↔ EndsAtEach id (· == 3) [1, 2, 3] [4]) :=
  dequeueWithPred_iff ⟨⟨[1, 2], [3]⟩, ⟨[4], []⟩, []⟩ (by decide)

/-- Nothing is found, and the first thread is the last one now; a thread behind one that shares the first one's storage is
not looked at. -/
theorem search_rotates :
    (VProc.dequeueWithPred id (fun _ => false) 4 (⟨⟨[1, 2], []⟩, ⟨[], []⟩, []⟩ : VProc Nat)).map
      (fun r => (r.1.rdyq.toList, r.2)) = .ok ([2, 1], none) ∧
    (VProc.dequeueWithPred Prod.fst (· == 2) 4 (⟨⟨[(1, 1), (1, 2), (2, 3)], []⟩, ⟨[], []⟩, []⟩ : VProc (Nat × Nat))).map
      Prod.snd = .ok none := by
  decide

end Manticore.Scheduler.VProcQueue
