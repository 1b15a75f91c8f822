/-
  Manticore.Scheduler.RoundRobinProofs — what holds of every run of `RoundRobin`.

  `Places` counts every thread over the places it can be in. `OnTime` is what is expected of one
  SLEEP: the thread stays in the sleeping list as long as no scan is due, and the first scan
  that is due moves it to the primary queue. The proof of `onTime_iff` is by induction on the
  events after the SLEEP, with the entry of the sleeping list as what is carried along.
-/

import Manticore.Scheduler.RoundRobin

namespace Manticore.Scheduler.RoundRobin

open VProcQueue
open List (map_nil count_nil map_append count_append map_cons count_cons count_pos_iff)

variable {ι ρ κ : Type} {s : St ι ρ κ}

/-! ## Where the threads are -/

inductive Place where
  | running | primary | secondary | sleeping
  deriving DecidableEq, Repr

/-- The threads at a place. -/
def St.ids (s : St ι ρ κ) : Place → List ι
  | .running => match s.ctl with
    | .running fls => [fls.doneComm]
    | _ => []
  | .primary => s.vp.rdyq.toList.map (·.id)
  | .secondary => s.vp.sndq.toList.map (·.id)
  | .sleeping => s.sleeping.map (·.id)

/-! ## What the functions of the scheduler do to the queues -/

theorem moveThreads_landingPad (vp : VProc (Item ι ρ κ)) (w : Bool) :
    (moveThreads vp w).landingPad = vp.landingPad := by
  unfold moveThreads VProc.secondaryDequeue
  split
  · rcases vp.sndq.dequeue with ⟨q, _ | x⟩ <;> rfl
  · rfl

theorem enqueue_all (vp : VProc (Item ι ρ κ)) (l : List (Item ι ρ κ)) :
    (l.foldl VProc.enqueue vp).rdyq.toList = vp.rdyq.toList ++ l ∧
      (l.foldl VProc.enqueue vp).sndq = vp.sndq ∧ (l.foldl VProc.enqueue vp).landingPad = vp.landingPad := by
  induction l generalizing vp with
  | nil => simp
  | cons x l ih =>
    have h := ih (vp.enqueue x)
    simp only [VProc.enqueue, Queue.toList_enqueue, List.append_assoc, List.singleton_append] at h
    exact h

/-- A wake-up scan moves the entries that are ready to the end of the primary queue. -/
theorem wakeup_primary (s : St ι ρ κ) :
    s.wakeupSleepingThreads.1.vp.rdyq.toList =
      s.vp.rdyq.toList ++ (s.sleeping.filter (·.ready s.clock)).map (·.item) := by
  rw [St.wakeupSleepingThreads, List.partition_eq_filter_filter]
  exact (enqueue_all _ _).1

theorem wakeup_sleeping (s : St ι ρ κ) :
    s.wakeupSleepingThreads.1.sleeping = s.sleeping.filter (fun e => !e.ready s.clock) := by
  rw [St.wakeupSleepingThreads, List.partition_eq_filter_filter]
  rfl

theorem wakeup_pad (s : St ι ρ κ) : s.wakeupSleepingThreads.1.pad = s.pad := by
  have h : s.wakeupSleepingThreads.1.vp.landingPad = s.vp.landingPad := (enqueue_all _ _).2.2
  simp only [St.pad, h]

/-! ## Wake-up scans -/

/-- More than `d` nanoseconds lie between the clock readings `start` and `t`. -/
def Due (start d t : Int) : Prop := d < 1000 * (t - start)

theorem due_iff (start d t : Int) : Due start d t ↔ start + d / 1000 < t := by
  unfold Due
  omega

instance (start d t : Int) : Decidable (Due start d t) := inferInstanceAs (Decidable (_ < _))

/-- `t` is past one of the two times and not past the other. -/
def Between (x y t : Int) : Prop := min x y < t ∧ t ≤ max x y

instance (x y t : Int) : Decidable (Between x y t) := inferInstanceAs (Decidable (_ ∧ _))

/-- The clock reading of an event that is a wake-up scan. -/
def St.scanTime (s : St ι ρ κ) : Ev ι ρ κ → Option Int
  | .go => match s.ctl with
    | .scan | .waitScan => some s.clock
    | _ => none
  | _ => none

theorem mem_ids_sleeping {ent : SlEnt ι ρ κ} (h : ent ∈ s.sleeping) : ent.id ∈ s.ids .sleeping :=
  List.mem_map_of_mem h

/-- What a scan does to an entry. -/
theorem scan_entry {ent : SlEnt ι ρ κ} (hent : ent ∈ s.sleeping) :
    (ent.timeToWake < s.clock → ent.id ∈ s.wakeupSleepingThreads.1.ids .primary) ∧
      (s.clock ≤ ent.timeToWake → ent ∈ s.wakeupSleepingThreads.1.sleeping) := by
  refine ⟨?_, ?_⟩
  · intro hlt
    have hready : ent ∈ s.sleeping.filter (·.ready s.clock) :=
      List.mem_filter.mpr ⟨hent, by simpa [SlEnt.ready] using hlt⟩
    have hitem : ent.item ∈ s.wakeupSleepingThreads.1.vp.rdyq.toList := by
      rw [wakeup_primary]
      exact List.mem_append_right _ (List.mem_map_of_mem hready)
    exact List.mem_map_of_mem hitem
  simp [wakeup_sleeping, hent, SlEnt.ready]

theorem go_sleeping {s' : St ι ρ κ} (h : s.go = some s') (hscan : s.scanTime .go = none) :
    s'.clock = s.clock ∧ s'.sleeping = s.sleeping := by
  unfold St.go at h
  unfold St.scanTime at hscan
  split at h
  · cases h
  · cases h; exact ⟨rfl, rfl⟩
  · rename_i hctl; simp [hctl] at hscan
  · cases h
    unfold St.dispatch
    split <;> exact ⟨rfl, rfl⟩
  · split at h
    · cases h; exact ⟨rfl, rfl⟩
    · split at h <;> cases h <;> exact ⟨rfl, rfl⟩
  · rename_i hctl; simp [hctl] at hscan

variable [DecidableEq ι]

/-- How often a thread is in one of the places. -/
def St.total (s : St ι ρ κ) (i : ι) : Nat :=
  (s.ids .running).count i + (s.ids .primary).count i + (s.ids .secondary).count i + (s.ids .sleeping).count i

/-- A live thread is in one place, and a thread on the landing pad is not live yet. -/
structure Places (s : St ι ρ κ) : Prop where
  total : ∀ i, s.total i = s.live.count i
  once : ∀ i, s.live.count i + s.pad.count i ≤ 1

theorem Places.init (main : Fls ι ρ) (doneComm : ι → Bool) (clock : Int) :
    Places (St.init main doneComm clock : St ι ρ κ) where
  total := by intro i; simp [St.total, St.ids, St.init, VProc.init]
  once := by
    intro i
    simp only [St.init, St.pad, VProc.init, map_nil, count_nil, List.count_singleton]
    split <;> omega

/-- The queues and the sleeping list, without the running thread. -/
def St.waiting (s : St ι ρ κ) (i : ι) : Nat :=
  (s.ids .primary).count i + (s.ids .secondary).count i + (s.ids .sleeping).count i

theorem St.total_eq (s : St ι ρ κ) (i : ι) : s.total i = (s.ids .running).count i + s.waiting i := by
  simp only [St.total, St.waiting]; omega

/-- `move-threads` takes a thread from one queue to the other. -/
theorem moveThreads_count (vp : VProc (Item ι ρ κ)) (w : Bool) (i : ι) :
    ((moveThreads vp w).rdyq.toList.map (·.id)).count i + ((moveThreads vp w).sndq.toList.map (·.id)).count i =
      (vp.rdyq.toList.map (·.id)).count i + (vp.sndq.toList.map (·.id)).count i := by
  unfold moveThreads VProc.secondaryDequeue
  split
  · rcases hq : vp.sndq.dequeue with ⟨q, _ | x⟩
    · have h := Queue.dequeue_none hq
      simp only [h.1, h.2]
    · have h := Queue.dequeue_some hq
      simp only [VProc.enqueue, Queue.toList_enqueue, h, map_append, count_append, map_cons,
        map_nil, count_cons, count_nil]
      omega
  · rfl

theorem doneCommVoluntary_waiting (s : St ι ρ κ) (fls : Fls ι ρ) (i : ι) :
    (s.doneCommVoluntary fls).waiting i = s.waiting i := by
  have h := moveThreads_count s.vp (s.doneComm fls.doneComm) i
  simp only [St.waiting, St.ids, St.doneCommVoluntary]
  omega

theorem doneCommVoluntary_pad (s : St ι ρ κ) (fls : Fls ι ρ) : (s.doneCommVoluntary fls).pad = s.pad := by
  simp only [St.pad, St.doneCommVoluntary, moveThreads_landingPad]

theorem wakeup_waiting (s : St ι ρ κ) (i : ι) : s.wakeupSleepingThreads.1.waiting i = s.waiting i := by
  have hperm := (List.filter_append_perm (·.ready s.clock) s.sleeping).map SlEnt.id
  have hcount := hperm.count_eq i
  have hsndq : s.wakeupSleepingThreads.1.vp.sndq = s.vp.sndq := (enqueue_all _ _).2.1
  have hitem : ((s.sleeping.filter (·.ready s.clock)).map (·.item)).map (·.id) =
      (s.sleeping.filter (·.ready s.clock)).map SlEnt.id := List.map_map
  grind [St.waiting, St.ids, wakeup_primary, wakeup_sleeping]

theorem poll_waiting (s : St ι ρ κ) (i : ι) :
    s.pollLandingPad.1.waiting i = s.pad.count i + s.waiting i := by
  simp only [St.waiting, St.ids, St.pollLandingPad, St.pad, VProc.poll_rdyq, VProc.poll_sndq, map_append,
    count_append]
  omega

/-! ## The step -/

variable {s s' : St ι ρ κ} {fls : Fls ι ρ} {e : Ev ι ρ κ} {i : ι}

/-- A step that adds and removes the same threads among the live ones and at the places. -/
theorem Places.balance  (hp : Places s)
    (htot : ∀ i, (s'.ids .running).count i + s'.waiting i + s.live.count i =
      (s.ids .running).count i + s.waiting i + s'.live.count i)
    (honce : ∀ i, s'.live.count i + s'.pad.count i ≤ 1) : Places s' where
  total := by
    intro i
    have h := hp.total i
    have h' := htot i
    rw [St.total_eq] at h ⊢
    omega
  once := honce

theorem Places.keeps (hp : Places s)
    (htot : ∀ i, (s'.ids .running).count i + s'.waiting i = (s.ids .running).count i + s.waiting i)
    (hlive : s'.live = s.live) (hpad : s'.pad = s.pad) : Places s' :=
  hp.balance (by intro i; rw [htot, hlive]) (by rw [hlive, hpad]; exact hp.once)

theorem Places.poll (hp : Places s) {ctl : Ctl ι ρ} (hrun : s.ids .running = [])
    (hctl : ({ s with ctl } : St ι ρ κ).ids .running = []) : Places { s.pollLandingPad.1 with ctl } := by
  refine hp.balance ?_ ?_
  · intro i
    have h := poll_waiting s i
    have hlive : s.pollLandingPad.1.live.count i = s.pad.count i + s.live.count i := count_append
    have hrun' : ({ s.pollLandingPad.1 with ctl } : St ι ρ κ).ids .running = [] := hctl
    change _ + s.pollLandingPad.1.waiting i + _ = _ + _ + s.pollLandingPad.1.live.count i
    rw [hrun, hrun', h, hlive]
    omega
  · intro i
    have h := hp.once i
    have hlive : s.pollLandingPad.1.live.count i = s.pad.count i + s.live.count i := count_append
    have hpad : s.pollLandingPad.1.pad = [] := by simp [St.pad, St.pollLandingPad]
    change s.pollLandingPad.1.live.count i + s.pollLandingPad.1.pad.count i ≤ 1
    rw [hlive, hpad, count_nil]
    omega

theorem Places.wakeup (hp : Places s) {ctl : Ctl ι ρ} (hrun : s.ids .running = [])
    (hctl : ({ s with ctl } : St ι ρ κ).ids .running = []) : Places { s.wakeupSleepingThreads.1 with ctl } := by
  refine hp.keeps ?_ rfl (wakeup_pad s)
  intro i
  have hrun' : ({ s.wakeupSleepingThreads.1 with ctl } : St ι ρ κ).ids .running = [] := hctl
  change _ + s.wakeupSleepingThreads.1.waiting i = _
  rw [hrun, hrun', wakeup_waiting]

theorem Places.dispatch (hp : Places s) (hrun : s.ids .running = []) : Places s.dispatch := by
  unfold St.dispatch
  rcases hq : s.vp.dequeue with ⟨vp, _ | q⟩
  · obtain ⟨hpad, hrdy, hsnd⟩ := VProc.dequeue_none hq
    refine hp.keeps ?_ rfl ?_
    · intro i; rw [hrun]; simp only [St.waiting, St.ids, hrdy, hsnd]
    · simp only [St.pad, hpad]
  · obtain ⟨hpad, hfront⟩ := VProc.dequeue_some hq
    refine hp.keeps ?_ rfl ?_
    · grind [St.waiting, St.ids, Item.id]
    · simp only [St.pad, hpad]

theorem Places.go (hp : Places s) (h : s.go = some s') : Places s' := by
  unfold St.go at h
  split at h
  · cases h
  · rename_i hctl
    cases h
    exact hp.poll (by simp [St.ids, hctl]) (by simp [St.ids])
  · rename_i hctl
    cases h
    exact hp.wakeup (by simp [St.ids, hctl]) (by simp [St.ids])
  · rename_i hctl
    cases h
    exact hp.dispatch (by simp [St.ids, hctl])
  · rename_i i hctl
    have hrun : s.ids .running = [] := by simp [St.ids, hctl]
    split at h
    · cases h; exact hp.poll hrun (by simp [St.ids])
    · split at h
      · cases h; exact hp.poll hrun (by simp [St.ids])
      · cases h; exact hp.poll hrun (by simp [St.ids])
  · rename_i hctl
    cases h
    refine hp.wakeup (by simp [St.ids, hctl]) ?_
    cases s.wakeupSleepingThreads.2 <;> simp [St.ids]

/-! ### The signals -/

/-- The thread is where it was, and now waits there. -/
theorem Places.queued (hp : Places s) (hrun : s.ids .running = [fls.doneComm]) (hrun' : s'.ids .running = [])
    (hwait : ∀ i, s'.waiting i = s.waiting i + [fls.doneComm].count i) (hlive : s'.live = s.live)
    (hpad : s'.pad = s.pad) : Places s' := by
  refine hp.keeps ?_ hlive hpad
  intro i
  rw [hrun, hrun', hwait, count_nil]
  omega

theorem enqueue_waiting (s : St ι ρ κ) (q : Item ι ρ κ) (i : ι) :
    ({ s with vp := s.vp.enqueue q } : St ι ρ κ).waiting i = s.waiting i + [q.id].count i := by
  simp only [St.waiting, St.ids, VProc.enqueue, Queue.toList_enqueue, map_append, count_append,
    map_cons, map_nil]
  omega

theorem secondaryEnqueue_waiting (s : St ι ρ κ) (q : Item ι ρ κ) (i : ι) :
    ({ s with vp := s.vp.secondaryEnqueue q } : St ι ρ κ).waiting i = s.waiting i + [q.id].count i := by
  simp only [St.waiting, St.ids, VProc.secondaryEnqueue, Queue.toList_enqueue, map_append, count_append,
    map_cons, map_nil]
  omega

theorem addToSleepingList_waiting (s : St ι ρ κ) (q : Item ι ρ κ) (d : Int) (i : ι) :
    (s.addToSleepingList q d).waiting i = s.waiting i + [q.id].count i := by
  simp only [St.waiting, St.ids, St.addToSleepingList, map_cons, SlEnt.id, count_cons, count_nil]
  omega

theorem Places.stop (hp : Places s) (hctl : s.ctl = .running fls) : Places (s.stop fls) := by
  have hrun : s.ids .running = [fls.doneComm] := by simp [St.ids, hctl]
  have hlive : (s.stop fls).live = s.live.erase fls.doneComm := rfl
  have hpad : (s.stop fls).pad = s.pad := doneCommVoluntary_pad s fls
  refine hp.balance ?_ ?_
  · intro i
    have hrun' : (s.stop fls).ids .running = [] := rfl
    have hwait : (s.stop fls).waiting i = s.waiting i := doneCommVoluntary_waiting s fls i
    have htot := hp.total i
    rw [St.total_eq, hrun] at htot
    rw [hrun, hrun', hwait, hlive, count_nil, List.count_erase, ← htot]
    simp only [List.count_singleton]
    split <;> omega
  · intro i
    have h := hp.once i
    have hle : (s.live.erase fls.doneComm).count i ≤ s.live.count i := List.erase_sublist.count_le i
    rw [hlive, hpad]
    omega

theorem Places.preempt {fls : Fls ι ρ} (hp : Places s) (hctl : s.ctl = .running fls) (k : κ) :
    Places (s.preempt fls k) := by
  have hrun : s.ids .running = [fls.doneComm] := by simp [St.ids, hctl]
  unfold St.preempt
  dsimp only
  split
  · exact hp.queued hrun rfl (secondaryEnqueue_waiting (s.doneCommInvoluntary fls).1 ⟨fls, k⟩) rfl rfl
  · exact hp.queued hrun rfl (enqueue_waiting (s.doneCommInvoluntary fls).1 ⟨fls, k⟩) rfl rfl

theorem Places.block (hp : Places s) (hctl : s.ctl = .running fls) (k : κ) : Places (s.block fls k) := by
  have hrun : s.ids .running = [fls.doneComm] := by simp [St.ids, hctl]
  refine hp.queued hrun rfl ?_ rfl (doneCommVoluntary_pad s fls)
  intro i
  rw [← doneCommVoluntary_waiting s fls]
  exact enqueue_waiting (s.doneCommVoluntary fls) ⟨fls, k⟩ i

theorem Places.sleep (hp : Places s) (hctl : s.ctl = .running fls) (k : κ) (d : Int) :
    Places (s.sleep fls k d) := by
  have hrun : s.ids .running = [fls.doneComm] := by simp [St.ids, hctl]
  refine hp.queued hrun rfl ?_ rfl (doneCommVoluntary_pad s fls)
  intro i
  rw [← doneCommVoluntary_waiting s fls]
  exact addToSleepingList_waiting (s.doneCommVoluntary fls) ⟨fls, k⟩ d i

theorem count_eq_zero_of_new {q : Item ι ρ κ} (hnew : q.id ∉ s.live ++ s.pad) :
    s.live.count q.id = 0 ∧ s.pad.count q.id = 0 := by
  grind

theorem Places.send {q : Item ι ρ κ} (hp : Places s) (hnew : q.id ∉ s.live ++ s.pad) :
    Places { s with vp := s.vp.send q } := by
  refine ⟨hp.total, ?_⟩
  intro i
  have h := hp.once i
  have hz := count_eq_zero_of_new hnew
  have hpad : ({ s with vp := s.vp.send q } : St ι ρ κ).pad = q.id :: s.pad := rfl
  rw [hpad, count_cons]
  by_cases hi : q.id = i
  · subst hi
    simp only [hz.1, hz.2, beq_self_eq_true, if_true]
    omega
  · simpa [hi] using h

theorem Places.enqueue {q : Item ι ρ κ} (hp : Places s) (hnew : q.id ∉ s.live ++ s.pad) :
    Places { s with vp := s.vp.enqueue q, live := q.id :: s.live } := by
  refine hp.balance ?_ ?_
  · intro i
    have hwait := enqueue_waiting s q i
    change _ + ({ s with vp := s.vp.enqueue q } : St ι ρ κ).waiting i + _ = _ + _ + (q.id :: s.live).count i
    have hrun : ({ s with vp := s.vp.enqueue q, live := q.id :: s.live } : St ι ρ κ).ids .running = s.ids .running := rfl
    simp only [hwait, hrun, count_cons, count_nil]
    omega
  · intro i
    have h := hp.once i
    have hz := count_eq_zero_of_new hnew
    change (q.id :: s.live).count i + s.pad.count i ≤ 1
    rw [count_cons]
    by_cases hi : q.id = i
    · subst hi
      simp only [hz.1, hz.2, beq_self_eq_true, if_true]
      omega
    · simpa [hi] using h

theorem Places.user (hp : Places s) (hctl : s.ctl = .running fls) (h : s.user fls e = some s') : Places s' := by
  cases e with
  | tick t => cases h
  | send q => cases h
  | go => cases h
  | enqueue q =>
    simp only [St.user] at h
    split at h
    · cases h
    · rename_i hnew; cases h; exact hp.enqueue hnew
  | setFls rest =>
    cases h
    have hrun : s.ids .running = [fls.doneComm] := by simp [St.ids, hctl]
    exact hp.keeps (by intro i; rw [hrun]; rfl) rfl rfl
  | setDoneComm b => cases h; exact ⟨hp.total, hp.once⟩
  | stop => cases h; exact hp.stop hctl
  | preempt k => cases h; exact hp.preempt hctl k
  | block k => cases h; exact hp.block hctl k
  | sleep k d => cases h; exact hp.sleep hctl k d

/-- Who takes a step: the clock, another vproc, the scheduler or the running thread. -/
theorem step_cases   (h : s.step e = some s') :
    (∃ t, e = .tick t ∧ s.clock ≤ t ∧ s' = { s with clock := t }) ∨
      (∃ q, e = .send q ∧ q.id ∉ s.live ++ s.pad ∧ s' = { s with vp := s.vp.send q }) ∨
      (e = .go ∧ s.go = some s') ∨
      ∃ fls, s.ctl = .running fls ∧ s.user fls e = some s' := by
  unfold St.step at h
  split at h
  · simp_all
  · simp_all
  · exact .inr (.inr (.inl ⟨rfl, h⟩))
  grind

theorem Places.step {s' : St ι ρ κ} {e : Ev ι ρ κ} (hp : Places s) (h : s.step e = some s') : Places s' := by
  obtain ⟨t, -, -, rfl⟩ | ⟨q, -, hnew, rfl⟩ | ⟨-, hgo⟩ | ⟨fls, hctl, huser⟩ := step_cases h
  · exact ⟨hp.total, hp.once⟩
  · exact hp.send hnew
  · exact hp.go hgo
  · exact hp.user hctl huser

theorem Places.run {evs : List (Ev ι ρ κ)} (hp : Places s) (h : s.run evs = some s') : Places s' := by
  induction evs generalizing s with
  | nil => cases h; exact hp
  | cons e evs ih =>
    obtain ⟨c, hc, h⟩ := Option.bind_eq_some_iff.mp h
    exact ih (hp.step hc) h

/-! ## The scans of a run -/

/-- The clock readings of the wake-up scans of a run. -/
def St.scans (s : St ι ρ κ) : List (Ev ι ρ κ) → List Int
  | [] => []
  | e :: evs => (s.scanTime e).toList ++ match s.step e with
    | some s' => s'.scans evs
    | none => []

/-- The thread `i` starts to sleep for `d` nanoseconds at the clock reading `start`. It sleeps as
long as no scan is due, and the first scan that is due moves it to the primary queue. -/
def OnTime (s : St ι ρ κ) (i : ι) (start d : Int) (post : List (Ev ι ρ κ)) : Prop :=
  ∀ mid rest b, post = mid ++ rest → s.run mid = some b → (∀ t ∈ s.scans mid, ¬ Due start d t) →
    i ∈ b.ids .sleeping ∧
      ∀ e rest' t c, rest = e :: rest' → b.scanTime e = some t → Due start d t → b.step e = some c →
        i ∈ c.ids .primary

theorem run_cons (s : St ι ρ κ) (e : Ev ι ρ κ) (evs : List (Ev ι ρ κ)) :
    s.run (e :: evs) = (s.step e).bind (·.run evs) := rfl

theorem scans_cons (h : s.step e = some s') (evs : List (Ev ι ρ κ)) :
    s.scans (e :: evs) = (s.scanTime e).toList ++ s'.scans evs := by
  rw [St.scans, h]

/-- A scan, and what it does. -/
theorem scan_step {t : Int} (h : s.scanTime e = some t) :
    t = s.clock ∧ ∃ ctl, s.step e = some { s.wakeupSleepingThreads.1 with ctl } := by
  unfold St.scanTime at h
  split at h
  · split at h
    · rename_i hctl
      cases h
      exact ⟨rfl, .dispatch, by simp only [St.step, St.go, hctl]⟩
    · rename_i hctl
      cases h
      exact ⟨rfl, _, by simp only [St.step, St.go, hctl]; rfl⟩
    · cases h
  · cases h

theorem user_sleeping (h : s.user fls e = some s') :
    s'.clock = s.clock ∧ ∀ ent ∈ s.sleeping, ent ∈ s'.sleeping := by
  cases e with
  | tick t => cases h
  | send q => cases h
  | go => cases h
  | enqueue q =>
    grind [St.user]
  | setFls | setDoneComm | stop | block => cases h; exact ⟨rfl, fun _ hent => hent⟩
  | preempt k =>
    cases h
    unfold St.preempt
    dsimp only
    split
    · exact ⟨rfl, fun _ hent => hent⟩
    · exact ⟨rfl, fun _ hent => hent⟩
  | sleep k d => cases h; exact ⟨rfl, fun _ hent => List.mem_cons_of_mem _ hent⟩

/-- Only a scan takes an entry out of the sleeping list. -/
theorem sleeping_step (h : s.step e = some s') (hscan : s.scanTime e = none) :
    s.clock ≤ s'.clock ∧ ∀ ent ∈ s.sleeping, ent ∈ s'.sleeping := by
  obtain ⟨t, -, ht, rfl⟩ | ⟨q, -, -, rfl⟩ | ⟨rfl, hgo⟩ | ⟨fls, -, huser⟩ := step_cases h
  · exact ⟨ht, fun _ hent => hent⟩
  · exact ⟨Int.le_refl _, fun _ hent => hent⟩
  · have hkeep := go_sleeping hgo hscan
    exact ⟨Int.le_of_eq hkeep.1.symm, fun _ hent => hkeep.2 ▸ hent⟩
  · have hkeep := user_sleeping huser
    exact ⟨Int.le_of_eq hkeep.1.symm, hkeep.2⟩

theorem clock_step (h : s.step e = some s') : s.clock ≤ s'.clock := by
  cases hscan : s.scanTime e with
  | none => exact (sleeping_step h hscan).1
  | some t =>
    obtain ⟨-, ctl, hstep⟩ := scan_step hscan
    rw [hstep] at h
    cases h
    exact Int.le_refl _

/-- The clock does not go back. -/
theorem clock_le_scans (evs : List (Ev ι ρ κ)) : ∀ t ∈ s.scans evs, s.clock ≤ t := by
  induction evs generalizing s with
  | nil => simp [St.scans]
  | cons e evs ih =>
    intro t ht
    rw [St.scans, List.mem_append, Option.mem_toList] at ht
    cases ht with
    | inl hscan => exact Int.le_of_eq (scan_step hscan).1.symm
    | inr ht =>
      split at ht
      · rename_i s' hs'
        exact Int.le_trans (clock_step hs') (ih t ht)
      · cases ht

/-! ## A SLEEP is on time -/

/-- A live thread is once in one place. -/
theorem Places.one_place (hp : Places s) (hi : i ∈ s.live) :
    ∃ p, (s.ids p).count i = 1 ∧ ∀ p', p' ≠ p → i ∉ s.ids p' := by
  have htot := hp.total i
  have honce := hp.once i
  have hpos : 0 < s.live.count i := count_pos_iff.mpr hi
  have hsome : ∃ p, 0 < (s.ids p).count i := by
    by_contra hnone
    simp only [not_exists, Nat.not_lt] at hnone
    have h₁ := hnone .running
    have h₂ := hnone .primary
    have h₃ := hnone .secondary
    have h₄ := hnone .sleeping
    unfold St.total at htot
    omega
  obtain ⟨p, hposp⟩ := hsome
  unfold St.total at htot
  refine ⟨p, ?_, ?_⟩
  · cases p <;> omega
  · intro p' hne hmem
    have hposp' : 0 < (s.ids p').count i := count_pos_iff.mpr hmem
    cases p <;> cases p' <;> first | exact hne rfl | omega

theorem Places.pad_apart (hp : Places s) (hi : i ∈ s.pad) : s.pad.count i = 1 ∧ i ∉ s.live ∧ ∀ p, i ∉ s.ids p := by
  have htot := hp.total i
  have honce := hp.once i
  have hpos : 0 < s.pad.count i := count_pos_iff.mpr hi
  have hlive : s.live.count i = 0 := by omega
  unfold St.total at htot
  refine ⟨by omega, List.count_eq_zero.mp hlive, ?_⟩
  intro p hmem
  have hposp : 0 < (s.ids p).count i := count_pos_iff.mpr hmem
  cases p <;> omega

/-- A thread in the primary queue does not sleep. -/
theorem Places.not_both (hp : Places s) (hprim : i ∈ s.ids .primary) (hsleep : i ∈ s.ids .sleeping) : False := by
  have htot := hp.total i
  have honce := hp.once i
  have h₁ : 0 < (s.ids .primary).count i := count_pos_iff.mpr hprim
  have h₂ : 0 < (s.ids .sleeping).count i := count_pos_iff.mpr hsleep
  unfold St.total at htot
  omega

/-- `OnTime` one event on. -/
theorem onTime_cons (s : St ι ρ κ) (i : ι) (start d : Int) (e : Ev ι ρ κ) (post : List (Ev ι ρ κ)) :
    OnTime s i start d (e :: post) ↔
      i ∈ s.ids .sleeping ∧
        (∀ t c, s.scanTime e = some t → Due start d t → s.step e = some c → i ∈ c.ids .primary) ∧
        ∀ c, s.step e = some c → (∀ t, s.scanTime e = some t → ¬ Due start d t) → OnTime c i start d post := by
  constructor
  · intro h
    have h₀ := h [] (e :: post) s rfl rfl (by simp [St.scans])
    refine ⟨h₀.1, fun t c => h₀.2 e post t c rfl, ?_⟩
    intro c hc hnot mid rest b hpost hrun hscans
    refine h (e :: mid) rest b (by rw [hpost, List.cons_append]) (by rw [run_cons, hc]; exact hrun) ?_
    grind [scans_cons]
  · rintro ⟨hsleep, hfirst, hrest⟩ mid rest b hpost hrun hscans
    cases mid with
    | nil =>
      cases hrun
      grind
    | cons e' mid =>
      obtain ⟨rfl, hpost'⟩ := List.cons_eq_cons.mp hpost
      obtain ⟨c, hc, hrun⟩ := Option.bind_eq_some_iff.mp hrun
      rw [scans_cons hc] at hscans
      refine hrest c hc (fun t ht => hscans t ?_) mid rest b hpost' hrun (fun t ht => hscans t ?_)
      · exact List.mem_append_left _ (Option.mem_toList.mpr ht)
      · exact List.mem_append_right _ ht

/-- The entry of a thread that sleeps is woken on time exactly when no scan reads a clock that
lies between its time to wake and the time that is due. -/
theorem onTime_iff {ent : SlEnt ι ρ κ} (hp : Places s) (hent : ent ∈ s.sleeping) (start d : Int)
    (post : List (Ev ι ρ κ)) :
    OnTime s ent.id start d post ↔ ∀ t ∈ s.scans post, ¬ Between ent.timeToWake (start + d / 1000) t := by
  induction post generalizing s with
  | nil =>
    refine iff_of_true ?_ (by simp [St.scans])
    intro mid rest b hpost hrun _
    obtain ⟨rfl, rfl⟩ := List.append_eq_nil_iff.mp hpost.symm
    cases hrun
    exact ⟨mem_ids_sleeping hent, by intro e rest' t c h; cases h⟩
  | cons e post ih =>
    rw [onTime_cons]
    cases hscan : s.scanTime e with
    | none =>
      -- the entry stays, and no scan is added
      cases hstep : s.step e with
      | none => simp [St.scans, hscan, hstep, mem_ids_sleeping hent]
      | some c =>
        have hih := ih (hp.step hstep) ((sleeping_step hstep hscan).2 ent hent)
        simp only [scans_cons hstep, hscan, Option.toList_none, List.nil_append, ← hih]
        simp [mem_ids_sleeping hent]
    | some t =>
      obtain ⟨rfl, ctl, hstep⟩ := scan_step hscan
      generalize hc : ({ s.wakeupSleepingThreads.1 with ctl } : St ι ρ κ) = c at hstep
      have hpc := hp.step hstep
      have hlater : ∀ t ∈ c.scans post, s.clock ≤ t := by
        have h := clock_le_scans (s := c) post
        rwa [← hc] at h ⊢
      have hwoken : ent.timeToWake < s.clock → ent.id ∈ c.ids .primary := hc ▸ (scan_entry hent).1
      have hkept : s.clock ≤ ent.timeToWake → ent ∈ c.sleeping := hc ▸ (scan_entry hent).2
      simp only [scans_cons hstep, hscan, Option.toList_some, List.singleton_append, List.forall_mem_cons, hstep,
        Option.some.injEq, forall_eq', due_iff, mem_ids_sleeping hent, true_and]
      by_cases hready : ent.timeToWake < s.clock
      · have hprim := hwoken hready
        by_cases hdue : start + d / 1000 < s.clock
        · -- the thread is due and wakes; later scans are past both times
          refine iff_of_true ⟨fun _ _ ht _ hcc => hcc ▸ hprim, fun h => absurd hdue h⟩ ⟨?_, ?_⟩
          · unfold Between; omega
          grind [Between]
        · -- it wakes early
          refine iff_of_false ?_ ?_
          · intro h
            have hsleep := (h.2 hdue [] post c rfl rfl (by simp [St.scans])).1
            exact hpc.not_both hprim hsleep
          · unfold Between; omega
      · have hsleep := hkept (by omega)
        by_cases hdue : start + d / 1000 < s.clock
        · -- it does not wake although it is due
          refine iff_of_false ?_ ?_
          · intro h
            exact hpc.not_both (h.1 s.clock c rfl hdue rfl) (mem_ids_sleeping hsleep)
          · unfold Between; omega
        grind [Between]

/-! ## Runs of the scheduler -/

/-- In any run every live thread is, once, in one of the four places, and a thread that another
vproc has sent and that has not been received is in none. A thread that signals SLEEP is woken at
the first scan more than `d` nanoseconds later, and at none before, if and only if no later scan
of the run reads a clock between the cached time plus `d`, as the code adds them, and the clock
of the SLEEP plus `d` in microseconds. -/
theorem round_robin_runs (main : Fls ι ρ) (doneComm : ι → Bool) (clock : Int) (evs : List (Ev ι ρ κ))
    (s : St ι ρ κ) (hrun : (St.init main doneComm clock).run evs = some s) :
    (∀ i ∈ s.live, ∃ p, (s.ids p).count i = 1 ∧ ∀ p', p' ≠ p → i ∉ s.ids p') ∧
      (∀ i ∈ s.pad, s.pad.count i = 1 ∧ i ∉ s.live ∧ ∀ p, i ∉ s.ids p) ∧
      ∀ pre k d post a fls, evs = pre ++ .sleep k d :: post → (St.init main doneComm clock).run pre = some a →
        a.ctl = .running fls →
        (OnTime (a.sleep fls k d) fls.doneComm a.clock d post ↔
          ∀ t ∈ (a.sleep fls k d).scans post, ¬ Between (I64Add a.currTime d) (a.clock + d / 1000) t) := by
  have hp : Places s := (Places.init main doneComm clock).run hrun
  refine ⟨?_, ?_, ?_⟩
  · intro i hi
    exact hp.one_place hi
  · intro i hi
    exact hp.pad_apart hi
  · intro pre k d post a fls _ hpre hctl
    have hpa : Places a := (Places.init main doneComm clock).run hpre
    have hent : (⟨⟨fls, k⟩, I64Add a.currTime d⟩ : SlEnt ι ρ κ) ∈ (a.sleep fls k d).sleeping := List.mem_cons_self
    exact onTime_iff (hpa.sleep hctl k d) hent a.clock d post

/-- The lead thread 0, and the thread 1 that it starts. -/
def lead : Fls Nat Unit := ⟨0, ()⟩

def child : Item Nat Unit Unit := ⟨⟨1, ()⟩, ()⟩

def start (clock : Int) : St Nat Unit Unit := .init lead (fun _ => true) clock

/-- A scan has just cached the time, and the child runs. -/
def cached : List (Ev Nat Unit Unit) := [.enqueue child, .block (), .go, .go, .go]

/-- The lead thread runs, and scans when the clock reads 2000. -/
def later : List (Ev Nat Unit Unit) := [.go, .tick 2000, .block (), .go, .go]

/-- A SLEEP of no time right after a scan is on time. -/
theorem round_robin_runs_child : ∃ s a, (start 1000).run (cached ++ .sleep () 0 :: later) = some s ∧
    (start 1000).run cached = some a ∧ OnTime (a.sleep child.fls () 0) 1 a.clock 0 later := by
  refine ⟨_, _, rfl, rfl, ?_⟩
  refine ((round_robin_runs lead (fun _ => true) 1000 _ _ rfl).2.2 cached () 0 later _ child.fls rfl rfl rfl).mpr ?_
  decide

/-- The child asks for two microseconds. A millisecond later it still sleeps. -/
theorem sleeps_late : ∃ s a, (start 1000).run (cached ++ .sleep () 2000 :: later) = some s ∧
    (start 1000).run cached = some a ∧ a.ctl = .running child.fls ∧
    ¬ OnTime (a.sleep child.fls () 2000) 1 a.clock 2000 later := by
  refine ⟨_, _, rfl, rfl, rfl, ?_⟩
  intro h
  have hscans := h [.go, .tick 2000, .block (), .go] [.go] _ rfl rfl (by decide)
  have hprim := hscans.2 .go [] 2000 _ rfl rfl (by decide) rfl
  revert hprim
  decide

/-- The lead thread asks for five microseconds when the time has never been cached. It is woken at once. -/
theorem wakes_early : ∃ a, (start 1000000).run [.enqueue child] = some a ∧ a.ctl = .running lead ∧
    ¬ OnTime (a.sleep lead () 5000) 0 a.clock 5000 [.go, .block (), .go, .go] := by
  refine ⟨_, rfl, rfl, ?_⟩
  intro h
  have hsleep := (h [.go, .block (), .go, .go] [] _ rfl rfl (by decide)).1
  revert hsleep
  decide

end Manticore.Scheduler.RoundRobin
