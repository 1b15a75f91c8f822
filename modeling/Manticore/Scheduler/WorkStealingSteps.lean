/-
  Manticore.Scheduler.WorkStealingSteps — what the deque operations and the scheduler's
  functions do to the tasks of one worker.
-/

import Manticore.Scheduler.WorkStealing

namespace Manticore.Scheduler.WorkStealing

open Multiset (coe_add coe_eq_coe coe_nil coe_eq_zero)
open Option (toList_some toList_none)
open ResumeDeque (nonempty)

variable {τ ι : Type}

/-! ## Deques as multisets of tasks -/

variable {deq ts : List τ} {ds : List (ResumeDeque τ)} {w : Worker ι τ} {pc : Pc ι τ} {w' : Worker ι τ}

theorem pushNewEnd_room (h : isFull deq = false) (t : τ) : pushNewEnd deq t = deq ++ [t] := by
  simp [pushNewEnd, h]

theorem isFull_short (h : deq.length ≤ 1) : isFull deq = false := by
  have hsz : DEFAULT_DEQUE_SZ = 64000 := rfl
  simp only [isFull, decide_eq_false_iff_not]
  omega

/-- One task or none goes to a deque of at most one. -/
theorem addList_short (h : deq.length ≤ 1) (hts : ts.length ≤ 1) : addList deq ts = deq ++ ts := by
  match ts, hts with
  | [], _ => simp [addList]
  | [t], _ => simp [addList, pushNewEnd_room (isFull_short h)]

/-- What a pop leaves and hands out is what was there; it hands out nothing only when nothing is there. -/
structure PopOk (pop : List τ → List τ × Option τ) : Prop where
  tasks : ∀ deq : List τ, (deq : Multiset τ) = (pop deq).1 + ((pop deq).2.toList : Multiset τ)
  none : ∀ deq, (pop deq).2 = none → deq = []

theorem popNewEnd_ok : PopOk (popNewEnd (τ := τ)) where
  tasks deq := by
    by_cases hnil : deq = []
    · simp [popNewEnd, hnil]
    · have hsplit := List.dropLast_append_getLast hnil
      simp only [popNewEnd, List.getLast?_eq_some_getLast hnil, toList_some, coe_add]
      rw [hsplit]
  none deq h := List.getLast?_eq_none_iff.1 h

theorem popOldEnd_ok : PopOk (popOldEnd (τ := τ)) where
  tasks deq := by
    cases deq with
    | nil => simp [popOldEnd]
    | cons t deq =>
      simp only [popOldEnd, List.tail_cons, List.head?_cons, toList_some, coe_add]
      exact coe_eq_coe.2 (List.perm_append_singleton t deq).symm
  none deq h := List.head?_eq_none_iff.1 h

theorem popNewEnd_none (h : (popNewEnd deq).2 = none) : deq = [] ∧ (popNewEnd deq).1 = [] := by
  have hnil := popNewEnd_ok.none deq h
  exact ⟨hnil, by rw [hnil]; rfl⟩

@[simp] theorem resumed_nil : resumed ([] : List (ResumeDeque τ)) = [] := rfl

@[simp] theorem resumed_cons (d : ResumeDeque τ) (ds : List (ResumeDeque τ)) : resumed (d :: ds) = d.elems ++ resumed ds := rfl

theorem resumed_claimed (ds : List (ResumeDeque τ)) : resumed (M_ResumeDeques ds).1 = resumed ds := by
  show resumed (ds.map _) = _
  induction ds with
  | nil => rfl
  | cons d ds ih =>
    rw [List.map_cons, resumed_cons, resumed_cons, ih]
    cases d.nonempty <;> rfl

theorem resumed_eq_nil : resumed ds = [] ↔ ∀ d ∈ ds, d.nonempty = false := by
  simp [resumed, nonempty]

/-- No deque is handed out only when all are empty. -/
theorem resumed_of_none (h : (M_ResumeDeques ds).2 = []) : resumed ds = [] := by
  refine resumed_eq_nil.2 fun d hd => ?_
  have hnil : ds.findIdxs nonempty = [] := List.reverse_eq_nil_iff.1 h
  exact List.findIdxs_eq_nil_iff.1 hnil d hd

/-- The first deque that is handed out is one of the vproc's, and it is not empty. -/
theorem handed_out {i : Nat} {is : List Nat} (h : (M_ResumeDeques ds).2 = i :: is) :
    ∃ d, (M_ResumeDeques ds).1[i]? = some d ∧ d.elems ≠ [] := by
  have hmem : i ∈ ds.findIdxs nonempty := by
    rw [← List.mem_reverse]
    show i ∈ (M_ResumeDeques ds).2
    rw [h]
    exact List.mem_cons_self
  obtain ⟨hi, hne⟩ := List.mem_findIdxs_iff_exists_getElem_pos.1 hmem
  grind [nonempty, M_ResumeDeques]

theorem resumed_set (ds : List (ResumeDeque τ)) {i : Nat} {d : ResumeDeque τ} (h : ds[i]? = some d) (d' : ResumeDeque τ) :
    (resumed (ds.set i d') : Multiset τ) + d.elems = resumed ds + (d'.elems : Multiset τ) := by
  induction ds generalizing i with
  | nil => cases h
  | cons e ds ih =>
    cases i with
    | zero =>
      cases h
      simp only [List.set_cons_zero, resumed_cons, ← coe_add]
      abel
    | succ i =>
      simp only [List.set_cons_succ, resumed_cons, ← coe_add]
      rw [add_assoc, ih h, add_assoc]

theorem resumed_prune (ds : List (ResumeDeque τ)) : (resumed (PruneDequeList ds) : Multiset τ) = resumed ds := by
  have hrev : (resumed (PruneDequeList ds)).Perm (resumed (ds.filter fun d => d.nonempty || d.nClaimed != 0)) :=
    (List.reverse_perm _).flatMap_right _
  rw [coe_eq_coe.2 hrev]
  induction ds with
  | nil => rfl
  | cons d ds ih =>
    rw [List.filter_cons]
    split
    · simp only [resumed_cons, ← coe_add, ih (List.reverse_perm _ |>.flatMap_right _)]
    · next h =>
      have hnil : d.elems = [] := by
        simp only [nonempty, Bool.or_eq_true, not_or] at h
        simpa using h.1
      rw [ih (List.reverse_perm _ |>.flatMap_right _), resumed_cons, hnil, List.nil_append]

/-- What `popResume` leaves and hands out is what was there; it hands out nothing only when nothing is there. -/
theorem popResume_ok {pop : List τ → List τ × Option τ} (hpop : PopOk pop) (ds : List (ResumeDeque τ)) :
    (resumed ds : Multiset τ) = resumed (popResume pop ds).1 + ((popResume pop ds).2.toList : Multiset τ) ∧
      ((popResume pop ds).2 = none → resumed ds = []) := by
  have hclaimed := resumed_claimed ds
  unfold popResume
  cases hm : M_ResumeDeques ds with
  | mk ds' is =>
    rw [hm] at hclaimed
    cases is with
    | nil => exact ⟨by simp [hclaimed], fun _ => resumed_of_none (by rw [hm])⟩
    | cons i is =>
      have his : (M_ResumeDeques ds).2 = i :: is := by rw [hm]
      obtain ⟨d, hd, hne⟩ := handed_out his
      rw [hm] at hd
      have hset := resumed_set ds' hd { d with elems := (pop d.elems).1 }
      rw [hclaimed, hpop.tasks d.elems] at hset
      simp only [hd]
      refine ⟨?_, fun hnone => absurd (hpop.none _ hnone) hne⟩
      refine add_right_cancel (b := ((pop d.elems).1 : Multiset τ)) ?_
      rw [← hset]
      abel

/-! ## A worker -/

/-- `w'` is `w` without the tasks `ts`, which have been popped from its deques. -/
structure Pops (w w' : Worker ι τ) (ts : List τ) : Prop where
  pc : w'.pc = w.pc
  primary : (w'.primary : Multiset τ) ≤ w.primary
  resume : (resumed w'.resume : Multiset τ) ≤ resumed w.resume
  tasks : (w.primary : Multiset τ) + (resumed w.resume : Multiset τ) = w'.primary + (resumed w'.resume : Multiset τ) + (ts : Multiset τ)
  one : ts.length ≤ 1

theorem tryPopLocal_pops (w : Worker ι τ) : Pops w w.tryPopLocal.1 w.tryPopLocal.2 := by
  obtain ⟨hres, -⟩ := popResume_ok popNewEnd_ok w.resume
  have hprim := popNewEnd_ok.tasks w.primary
  unfold Worker.tryPopLocal
  rcases hr : popResume popNewEnd w.resume with ⟨resume, _ | t⟩
  · rw [hr] at hres
    rcases hp : popNewEnd w.primary with ⟨primary, _ | t⟩
    · rw [hp] at hprim
      simp only [toList_none, coe_nil, add_zero] at hres hprim
      exact ⟨rfl, hprim.ge, hres.ge, by simp [hres, hprim], Nat.zero_le 1⟩
    · rw [hp] at hprim
      simp only [toList_none, coe_nil, add_zero] at hres
      refine ⟨rfl, hprim ▸ Multiset.le_add_right _ _, hres.ge, ?_, Nat.le_refl 1⟩
      simp only [toList_some] at hprim
      rw [hprim, hres]
      abel
  · rw [hr] at hres
    refine ⟨rfl, le_rfl, hres ▸ Multiset.le_add_right _ _, ?_, Nat.le_refl 1⟩
    simp only [toList_some] at hres
    rw [hres, add_assoc]

/-- The host finds nothing only when all its deques are empty. -/
theorem tryPopLocal_nil (h : w.tryPopLocal.2 = []) : w.primary = [] ∧ resumed w.resume = [] := by
  obtain ⟨-, hres⟩ := popResume_ok popNewEnd_ok w.resume
  unfold Worker.tryPopLocal at h
  rcases hr : popResume popNewEnd w.resume with ⟨resume, _ | t⟩
  · rw [hr] at h hres
    rcases hp : popNewEnd w.primary with ⟨primary, _ | t⟩
    · exact ⟨popNewEnd_ok.none _ (by rw [hp]), hres rfl⟩
    · rw [hp] at h
      cases h
  · rw [hr] at h
    cases h

theorem tryPopRemote_pops (w : Worker ι τ) : Pops w w.tryPopRemote.1 w.tryPopRemote.2 := by
  obtain ⟨hres, -⟩ := popResume_ok popOldEnd_ok w.resume
  have hprim := popOldEnd_ok.tasks w.primary
  unfold Worker.tryPopRemote
  rcases hr : popResume popOldEnd w.resume with ⟨resume, _ | t⟩
  · rw [hr] at hres
    simp only [toList_none, coe_nil, add_zero] at hres
    simp only
    split
    · rcases hp : popOldEnd w.primary with ⟨primary, _ | t⟩
      · rw [hp] at hprim
        simp only [toList_none, coe_nil, add_zero] at hprim
        exact ⟨rfl, hprim.ge, hres.ge, by simp [hres, hprim], Nat.zero_le 1⟩
      · rw [hp] at hprim
        refine ⟨rfl, hprim ▸ Multiset.le_add_right _ _, hres.ge, ?_, Nat.le_refl 1⟩
        simp only [toList_some] at hprim
        rw [hprim, hres]
        abel
    · exact ⟨rfl, le_rfl, hres.ge, by simp [hres], Nat.zero_le 1⟩
  · rw [hr] at hres
    refine ⟨rfl, le_rfl, hres ▸ Multiset.le_add_right _ _, ?_, Nat.le_refl 1⟩
    simp only [toList_some] at hres
    rw [hres, add_assoc]

/-- The worker is in its idle loop. -/
def Pc.idling : Pc ι τ → Bool
  | .foundWork _ | .lp _ | .yielded _ | .wait _ _ _ => true
  | pc => pc.unmasked

/-- The worker is counted in `nIdle`. -/
def Pc.counted : Pc ι τ → Bool
  | .setIdle => false
  | pc => pc.unmasked

/-- What holds of one worker. -/
structure Worker.Ok (started : Bool) (w : Worker ι τ) : Prop where
  init : w.pc.begun = false → w.primary = []
  resume : w.pc.idling = true → resumed w.resume = []
  /-- Only the first task is pushed while the worker idles. -/
  short : w.pc.idling = true → w.primary.length ≤ 1
  hand : w.pc.tasks.length ≤ 1
  primary : started = true → w.pc.unmasked = true → w.primary = []

/-- The worker has no task. -/
structure Worker.Empty (w : Worker ι τ) : Prop where
  ready : w.ready = 0
  running : w.pc.running = false

theorem Worker.ready_def (w : Worker ι τ) :
    w.ready = (w.primary : Multiset τ) + (resumed w.resume : Multiset τ) + (w.pc.tasks : Multiset τ) := rfl

theorem Worker.Empty.primary {w : Worker ι τ} (h : w.Empty) : w.primary = [] := by
  have := h.ready
  simp only [Worker.ready_def, add_eq_zero, coe_eq_zero] at this
  exact this.1.1

@[simp] theorem Pc.unmasked_idling (h : pc.unmasked = true) : pc.idling = true := by
  cases pc <;> first | rfl | cases h

theorem Pc.unmasked_tasks (h : pc.unmasked = true) : pc.tasks = [] := by
  cases pc <;> first | rfl | cases h

theorem Pc.unmasked_running (h : pc.unmasked = true) : pc.running = false := by
  cases pc <;> first | rfl | cases h

theorem Pc.counted_unmasked (h : pc.counted = true) : pc.unmasked = true := by
  cases pc <;> first | rfl | cases h

/-- Once the group is started, a worker in the second half of its idle loop has no task. -/
theorem Worker.Ok.unmasked_empty  (h : w.Ok true) (hpc : w.pc.unmasked = true) : w.Empty where
  ready := by
    rw [Worker.ready_def, h.primary rfl hpc, h.resume (Pc.unmasked_idling hpc), Pc.unmasked_tasks hpc]
    rfl
  running := Pc.unmasked_running hpc

/-- The worker whose deques have been popped from. -/
theorem Pops.ok {started : Bool} (hp : Pops w w' ts) (h : w.Ok started) : w'.Ok started := by
  have hnil : ∀ {l : List τ}, (l : Multiset τ) ≤ ([] : List τ) → l = [] := fun hl =>
    (coe_eq_zero _).1 (Multiset.le_zero.1 hl)
  have hprim := hp.primary
  have hres := hp.resume
  refine ⟨fun hpc => ?_, fun hpc => ?_, fun hpc => ?_, ?_, fun hst hpc => ?_⟩
  · rw [hp.pc] at hpc
    rw [h.init hpc] at hprim
    exact hnil hprim
  · rw [hp.pc] at hpc
    rw [h.resume hpc] at hres
    exact hnil hres
  · rw [hp.pc] at hpc
    exact (Multiset.card_le_card hprim).trans (h.short hpc)
  · rw [hp.pc]
    exact h.hand
  · rw [hp.pc] at hpc
    rw [h.primary hst hpc] at hprim
    exact hnil hprim

theorem Pops.ready (hp : Pops w w' ts) : w.ready = w'.ready + (ts : Multiset τ) := by
  rw [Worker.ready_def, Worker.ready_def, hp.tasks, hp.pc]
  abel

theorem Pops.nil (hp : Pops w w' ts) (h : w.Empty) : ts = [] ∧ w'.Empty := by
  have heq := hp.ready
  rw [h.ready] at heq
  obtain ⟨hready, hts⟩ := add_eq_zero.1 heq.symm
  exact ⟨(coe_eq_zero _).1 hts, hready, hp.pc ▸ h.running⟩

end Manticore.Scheduler.WorkStealing
