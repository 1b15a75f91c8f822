/-
  Manticore.Scheduler.WorkStealingLocal — the steps of the group that change one worker: what
  each does to the worker, to the tasks and to the count of idle workers.
-/

import Manticore.Scheduler.WorkStealingSteps

namespace Manticore.Scheduler.WorkStealing

open Function (update)
open Multiset (coe_add coe_nil singleton_add coe_singleton coe_eq_zero le_zero)
open Worker (ready ready_def)

variable {τ ι : Type} {started : Bool} {w : Worker ι τ}

/-! ## Workers that move -/

/-- The worker only moves on. -/
theorem Worker.Ok.move {pc : Pc ι τ} (h : w.Ok started) (hbegun : pc.begun = true) (hidle : pc.idling = true → w.pc.idling = true)
    (hhand : pc.tasks.length ≤ 1) (hun : pc.unmasked = true → w.pc.unmasked = true) : Worker.Ok started { w with pc } where
  init hpc := by simp [hbegun] at hpc
  resume hpc := h.resume (hidle hpc)
  short hpc := h.short (hidle hpc)
  hand := hhand
  primary hst hpc := h.primary hst (hun hpc)

/-- Outside the idle loop nothing is asked of the deques. -/
theorem Worker.Ok.busy (hbegun : w.pc.begun = true) (hidle : w.pc.idling = false) (hhand : w.pc.tasks.length ≤ 1) : w.Ok started where
  init hpc := by simp [hbegun] at hpc
  resume hpc := by simp [hidle] at hpc
  short hpc := by simp [hidle] at hpc
  hand := hhand
  primary _ hpc := by simp [Pc.unmasked_idling hpc] at hidle

/-- The worker enters the idle loop, or moves on in it, with empty resume deques. -/
theorem Worker.Ok.idle (hbegun : w.pc.begun = true) (hres : resumed w.resume = []) (hprim : w.primary.length ≤ 1)
    (hhand : w.pc.tasks.length ≤ 1) (hun : w.pc.unmasked = true → w.primary = []) : w.Ok started where
  init hpc := by simp [hbegun] at hpc
  resume _ := hres
  short _ := hprim
  hand := hhand
  primary _ hpc := hun hpc

/-- The tasks that were in hand are in the primary deque. -/
theorem Worker.ready_addList {ts : List τ} {pc : Pc ι τ} (hprim : w.primary.length ≤ 1) (hts : ts.length ≤ 1) (hpc : pc.tasks = []) :
    ready { w with primary := addList w.primary ts, pc } = w.primary + (resumed w.resume : Multiset τ) + (ts : Multiset τ) := by
  simp only [ready_def, addList_short hprim hts, hpc, ← coe_add, coe_nil, add_zero]
  abel

theorem Pc.counted_of_busy {pc : Pc ι τ} (h : pc.idling = false) : pc.counted = false := by
  grind [Pc.unmasked_idling, Pc.counted_unmasked]

theorem Pc.busy_of_running {pc : Pc ι τ} (h : pc.running = true) : pc.begun = true ∧ pc.idling = false ∧ pc.tasks = [] := by
  cases pc <;> first | exact ⟨rfl, rfl, rfl⟩ | cases h

/-! ## One worker changes -/

variable [DecidableEq ι] {s s' : St ι τ} {v : ι} {w' : Worker ι τ}

theorem executeNextTask_some {primary : List τ} {t : τ} (hp : popNewEnd (s.worker v).primary = (primary, some t)) :
    s.executeNextTask v =
      { s.put v { s.worker v with primary, pc := .run t } with executed := (v, t) ::ₘ s.executed } := by
  simp only [St.executeNextTask, hp]

/-- With an empty primary deque, the worker looks at all its deques. -/
theorem executeNextTask_none (hp : (s.worker v).primary = []) : s.executeNextTask v =
    match (s.worker v).tryPopLocal with
    | (w, []) => s.put v { w with pc := .lp 0, spinCyclesLg := 1 }
    | (w, ts) => s.put v { w with primary := addList w.primary ts } := by
  have hpop : popNewEnd (s.worker v).primary = ((s.worker v).primary, none) := by rw [hp]; rfl
  simp only [St.executeNextTask, hpop] <;> rfl

theorem spawnTask_room {t : τ} (h : isFull (s.worker v).primary = false) : s.spawnTask v t =
    { s.put v { s.worker v with primary := (s.worker v).primary ++ [t] } with pushed := t ::ₘ s.pushed } := by
  simp only [St.spawnTask, h, pushNewEnd_room h, Bool.false_eq_true, if_false]

theorem spawnTask_full {t : τ} (h : isFull (s.worker v).primary = true) : s.spawnTask v t = s := by
  simp only [St.spawnTask, h, if_true]

theorem removeTask_some {primary : List τ} {t : τ} (hp : popNewEnd (s.worker v).primary = (primary, some t)) :
    s.removeTask v = { s.put v { s.worker v with primary } with removed := t ::ₘ s.removed } := by
  simp only [St.removeTask, hp]

theorem removeTask_none {primary : List τ} (hp : popNewEnd (s.worker v).primary = (primary, none)) :
    s.removeTask v = s.put v { s.worker v with primary } := by
  simp only [St.removeTask, hp]

variable [Fintype ι]

/-- `s'` is `s` after a step that changes the worker of `v` to `w'`. -/
structure Local (s s' : St ι τ) (v : ι) (w' : Worker ι τ) : Prop where
  worker : s'.worker = update s.worker v w'
  tasks : s'.pushed + ((s.worker v).ready + s.executed.map Prod.snd + s.removed) =
    s.pushed + (w'.ready + s'.executed.map Prod.snd + s'.removed)
  ok : w'.Ok s.started
  count : s'.nIdle + (s.worker v).pc.counted.toNat = s.nIdle + w'.pc.counted.toNat
  started : s'.started = s.started
  spawned : s'.spawned = s.spawned
  empty : (s.worker v).Empty → w'.Empty
  alarm : s'.terminated = true ∨ w'.pc = .setTerminated →
    s.terminated = true ∨ (s.worker v).pc = .setTerminated ∨ (s.worker v).pc = .setIdle ∧ s.nIdle = Fintype.card ι - 1

/-- The worker's tasks move between its deques and its hands. -/
theorem Local.put (hready : w'.ready = (s.worker v).ready) (hok : w'.Ok s.started)
    (hcount : w'.pc.counted = (s.worker v).pc.counted) (hrun : w'.pc.running = false) (halarm : w'.pc ≠ .setTerminated) :
    Local s (s.put v w') v w' where
  worker := rfl
  tasks := by rw [hready]; rfl
  ok := hok
  count := by rw [hcount]; rfl
  started := rfl
  spawned := rfl
  empty h := ⟨hready.trans h.ready, hrun⟩
  alarm h := .inl (h.resolve_right halarm)

/-- The worker executes a task of its primary deque. -/
theorem execute_local {primary : List τ} {t : τ} (hpc : (s.worker v).pc = .executeNextTask)
    (hp : popNewEnd (s.worker v).primary = (primary, some t)) : ∃ w', Local s (s.executeNextTask v) v w' := by
  have hprim := popNewEnd_ok.tasks (s.worker v).primary
  rw [hp] at hprim
  simp only [Option.toList_some] at hprim
  rw [executeNextTask_some hp]
  refine ⟨{ s.worker v with primary, pc := .run t }, ?_⟩
  refine { worker := rfl, tasks := ?_, ok := Worker.Ok.busy rfl rfl (by simp [Pc.tasks]), count := by rw [hpc]; rfl,
           started := rfl, spawned := rfl, empty := fun h => ?_, alarm := fun h => .inl (h.resolve_right nofun) }
  · simp only [St.put, ready_def, hpc, hprim, Pc.tasks, ← singleton_add, Multiset.map_add,
      Multiset.map_singleton, coe_nil, coe_singleton]
    abel
  · rw [h.primary] at hp
    cases hp

/-- The worker looks at all its deques, and begins to idle when it finds nothing. -/
theorem search_local (hpc : (s.worker v).pc = .executeNextTask) (hp : (s.worker v).primary = []) :
    ∃ w', Local s (s.executeNextTask v) v w' := by
  have hpops := tryPopLocal_pops (s.worker v)
  have hnone := tryPopLocal_nil (w := s.worker v)
  rw [executeNextTask_none hp]
  generalize (s.worker v).tryPopLocal = r at hpops hnone
  obtain ⟨w₁, ts⟩ := r
  have hpc₁ : w₁.pc = .executeNextTask := hpops.pc.trans hpc
  have hshort : w₁.primary = [] := by
    have hle : (w₁.primary : Multiset τ) ≤ (s.worker v).primary := hpops.primary
    rw [hp] at hle
    exact (coe_eq_zero _).1 (le_zero.1 hle)
  have hready : (s.worker v).ready = (resumed w₁.resume : Multiset τ) + (ts : Multiset τ) := by
    rw [hpops.ready, ready_def, hshort, hpc₁]
    simp [Pc.tasks]
  cases ts with
  | nil =>
    have hres : resumed w₁.resume = [] := by
      have hle : (resumed w₁.resume : Multiset τ) ≤ resumed (s.worker v).resume := hpops.resume
      rw [(hnone rfl).2] at hle
      exact (coe_eq_zero _).1 (le_zero.1 hle)
    refine ⟨_, Local.put ?_ ?_ (by rw [hpc]; rfl) rfl nofun⟩
    · simp [hready, ready_def, hshort, Pc.tasks]
    · exact Worker.Ok.idle rfl hres (by simp [hshort]) (by simp [Pc.tasks]) nofun
  | cons t ts =>
    have htasks : w₁.pc.tasks = [] := by rw [hpc₁]; rfl
    have hone : (t :: ts).length ≤ 1 := hpops.one
    refine ⟨_, Local.put ?_ ?_ (by simp [hpc₁, hpc]) (by simp [hpc₁, Pc.running]) (by simp [hpc₁])⟩
    · rw [hready, Worker.ready_addList (by simp [hshort]) hone htasks, hshort]
      simp
    · exact Worker.Ok.busy (by simp [hpc₁, Pc.begun]) (by simp [hpc₁, Pc.idling, Pc.unmasked]) (by simp [htasks])

/-- The worker only moves on, with what it has in hand. -/
theorem Local.move {pc : Pc ι τ} (hok : (s.worker v).Ok s.started) (hbegun : pc.begun = true)
    (hidle : pc.idling = true → (s.worker v).pc.idling = true) (htasks : pc.tasks = (s.worker v).pc.tasks)
    (hun : pc.unmasked = true → (s.worker v).pc.unmasked = true) (hcount : pc.counted = (s.worker v).pc.counted)
    (hrun : pc.running = false) (halarm : pc ≠ .setTerminated) : ∃ w', Local s (s.put v { s.worker v with pc }) v w' := by
  refine ⟨_, Local.put ?_ (hok.move hbegun hidle ?_ hun) hcount hrun halarm⟩
  · rw [ready_def, ready_def, htasks]
  · rw [htasks]
    exact hok.hand

/-- The worker of `v` puts what it has found into its primary deque. -/
theorem foundWork_local {ts : List τ} (hpc : (s.worker v).pc = .foundWork ts) (hok : (s.worker v).Ok s.started) :
    ∃ w', Local s (s.put v { s.worker v with primary := addList (s.worker v).primary ts, pc := .executeNextTask }) v w' := by
  have hidle : (s.worker v).pc.idling = true := by rw [hpc]; rfl
  have hts : ts.length ≤ 1 := by simpa [hpc, Pc.tasks] using hok.hand
  refine ⟨_, Local.put ?_ (Worker.Ok.busy rfl rfl (by simp [Pc.tasks])) (by rw [hpc]; rfl) rfl nofun⟩
  rw [Worker.ready_addList (hok.short hidle) hts rfl, ready_def, hpc]
  rfl

/-- After its last try the worker looks at its primary deque once more. -/
theorem lastLook_local {nTries : Nat} (hpc : (s.worker v).pc = .lp nTries) (hok : (s.worker v).Ok s.started) :
    ∃ w', Local s (match popNewEnd (s.worker v).primary with
      | (primary, some t) => s.put v { s.worker v with primary, pc := .foundWork [t] }
      | (primary, none) => s.put v { s.worker v with primary, pc := .setIdle }) v w' := by
  have hidle : (s.worker v).pc.idling = true := by rw [hpc]; rfl
  have hprim := popNewEnd_ok.tasks (s.worker v).primary
  have hnone : (popNewEnd (s.worker v).primary).2 = none → _ ∧ _ := popNewEnd_none
  generalize popNewEnd (s.worker v).primary = r at hprim hnone
  obtain ⟨primary, _ | t⟩ := r
  · obtain ⟨hnil, hnil'⟩ := hnone rfl
    have hnil' : primary = [] := hnil'
    refine ⟨_, Local.put ?_ ?_ (by rw [hpc]; rfl) rfl nofun⟩
    · simp [ready_def, hpc, hnil, hnil', Pc.tasks]
    · exact Worker.Ok.idle rfl (hok.resume hidle) (by simp [hnil']) (by simp [Pc.tasks]) fun _ => hnil'
  · have hprim : ((s.worker v).primary : Multiset τ) = primary + ([t] : List τ) := hprim
    have hlen : primary.length ≤ 1 := by
      have hle : (primary : Multiset τ) ≤ (s.worker v).primary := hprim ▸ Multiset.le_add_right _ _
      exact (Multiset.card_le_card hle).trans (hok.short hidle)
    refine ⟨_, Local.put ?_ ?_ (by rw [hpc]; rfl) rfl nofun⟩
    · simp only [ready_def, hpc, hprim, Pc.tasks, coe_nil, add_zero]
      abel
    · exact Worker.Ok.idle rfl (hok.resume hidle) hlen (by simp [Pc.tasks]) nofun

/-- The worker of `v` picks itself as its victim. -/
theorem selfSteal_local {nTries : Nat} (hpc : (s.worker v).pc = .yielded nTries) (hok : (s.worker v).Ok s.started) :
    ∃ w', Local s (match (s.worker v).tryPopLocal with
      | (w, []) => s.put v { w with pc := .lp (nTries + 1) }
      | (w, ts) => s.put v { w with pc := .foundWork ts }) v w' := by
  have hpops := tryPopLocal_pops (s.worker v)
  generalize (s.worker v).tryPopLocal = r at hpops
  obtain ⟨w₁, ts⟩ := r
  have hpc₁ : w₁.pc = .yielded nTries := hpops.pc.trans hpc
  have hok₁ : w₁.Ok s.started := hpops.ok hok
  have hready : (s.worker v).ready = (w₁.primary : Multiset τ) + (resumed w₁.resume : Multiset τ) + (ts : Multiset τ) := by
    rw [hpops.ready, ready_def, hpc₁]
    simp [Pc.tasks]
  have hidle : w₁.pc.idling = true := by rw [hpc₁]; rfl
  cases ts with
  | nil =>
    refine ⟨_, Local.put ?_ (hok₁.move rfl (fun _ => hidle) (by simp [Pc.tasks]) nofun) (by rw [hpc]; rfl) rfl nofun⟩
    rw [hready]
    rfl
  | cons t ts =>
    refine ⟨_, Local.put ?_ (hok₁.move rfl (fun _ => hidle) hpops.one nofun) (by rw [hpc]; rfl) rfl nofun⟩
    rw [hready]
    rfl

/-- `setActive (false)`. -/
theorem setIdle_local {pc : Pc ι τ} (hpc : (s.worker v).pc = .setIdle) (hok : (s.worker v).Ok s.started)
    (hnext : pc = .setTerminated ∧ s.nIdle = Fintype.card ι - 1 ∨ pc = .setIdleFlag) :
    ∃ w', Local s (St.put { s with nIdle := s.nIdle + 1 } v { s.worker v with pc }) v w' := by
  have hpc' : pc.unmasked = true ∧ pc.tasks = [] ∧ pc.counted = true ∧ pc.running = false ∧ pc.begun = true := by
    rcases hnext with ⟨rfl, -⟩ | rfl <;> exact ⟨rfl, rfl, rfl, rfl, rfl⟩
  obtain ⟨hun, htasks, hcount, hrun, hbegun⟩ := hpc'
  have hidle : (s.worker v).pc.idling = true := by rw [hpc]; rfl
  have hready : ready { s.worker v with pc } = (s.worker v).ready := by
    rw [ready_def, ready_def, htasks, hpc]
    rfl
  refine ⟨{ s.worker v with pc }, rfl, ?_, ?_, ?_, rfl, rfl, fun h => ⟨hready.trans h.ready, hrun⟩, fun h => ?_⟩
  · rw [hready]
    rfl
  · exact hok.move hbegun (fun _ => hidle) (by simp [htasks]) (fun _ => by rw [hpc]; rfl)
  · rw [hpc, hcount]
    show s.nIdle + 1 + 0 = s.nIdle + 1
    rw [add_zero]
  · rcases h with h | h
    · exact .inl h
    · exact .inr (.inr ⟨hpc, (hnext.resolve_right (by rintro rfl; cases h)).2⟩)

/-- The worker moves on in the second half of its idle loop, where it is counted as idle. -/
theorem Local.unmasked {pc : Pc ι τ} (spinCyclesLg : Nat) (idleFlags : ι → Bool) (terminated : Bool) (hok : (s.worker v).Ok s.started)
    (hcounted : (s.worker v).pc.counted = true) (hcounted' : pc.counted = true) (halarm : pc ≠ .setTerminated)
    (hterm : terminated = true → s.terminated = true ∨ (s.worker v).pc = .setTerminated) :
    ∃ w', Local s { s.put v { s.worker v with pc, spinCyclesLg } with idleFlags, terminated } v w' := by
  have hun := Pc.counted_unmasked hcounted
  have hun' := Pc.counted_unmasked hcounted'
  have htasks := (Pc.unmasked_tasks hun').trans (Pc.unmasked_tasks hun).symm
  have hbegun : pc.begun = true := by cases pc <;> first | rfl | cases hun'
  have hmove : Worker.Ok s.started { s.worker v with pc } :=
    hok.move hbegun (fun _ => Pc.unmasked_idling hun) (by simp [Pc.unmasked_tasks hun']) (fun _ => hun)
  have hready : ready { s.worker v with pc, spinCyclesLg } = (s.worker v).ready := by
    rw [ready_def, ready_def, htasks]
  refine ⟨{ s.worker v with pc, spinCyclesLg }, rfl, by rw [hready]; rfl,
    ⟨hmove.init, hmove.resume, hmove.short, hmove.hand, hmove.primary⟩, by rw [hcounted, hcounted']; rfl, rfl, rfl,
    fun h => ⟨hready.trans h.ready, Pc.unmasked_running hun'⟩, fun h => ?_⟩
  grind

/-- `setActive (true)`. -/
theorem setActive_local (hpc : (s.worker v).pc = .setActive) (hok : (s.worker v).Ok s.started) :
    ∃ w', Local s { s.put v { s.worker v with pc := .lp 0 } with nIdle := s.nIdle - 1 } v w' := by
  have hidle : (s.worker v).pc.idling = true := by rw [hpc]; rfl
  have hready : ready { s.worker v with pc := (.lp 0 : Pc ι τ) } = (s.worker v).ready := by
    rw [ready_def, ready_def, hpc]
    rfl
  refine ⟨{ s.worker v with pc := .lp 0 }, rfl, by rw [hready]; rfl,
    hok.move rfl (fun _ => hidle) (by simp [Pc.tasks]) nofun, ?_, rfl, rfl,
    fun h => ⟨hready.trans h.ready, rfl⟩, fun h => .inl (h.resolve_right nofun)⟩
  rw [hpc]
  show s.nIdle - 1 + 1 = s.nIdle + 0
  rw [sub_add_cancel, add_zero]

/-- The next step of a worker. -/
theorem go_local {victim : ι} (hok : (s.worker v).Ok s.started) (h : s.go v victim = some s') : ∃ w', Local s s' v w' := by
  unfold St.go at h
  cases hpc : (s.worker v).pc with
  | init =>
    simp only [hpc, Option.some.injEq] at h
    have hnil := hok.init (by rw [hpc]; rfl)
    subst h
    refine ⟨_, Local.put ?_ (Worker.Ok.busy rfl rfl (by simp [Pc.tasks])) (by rw [hpc]; rfl) rfl nofun⟩
    rw [ready_def, ready_def, hnil, hpc]
    rfl
  | executeNextTask =>
    simp only [hpc, Option.some.injEq] at h
    subst h
    rcases hp : popNewEnd (s.worker v).primary with ⟨primary, _ | t⟩
    · exact search_local hpc (popNewEnd_none (by rw [hp])).1
    · exact execute_local hpc hp
  | run t => simp [hpc] at h
  | preempted =>
    simp only [hpc, Option.some.injEq] at h
    subst h
    exact Local.move hok rfl nofun (by rw [hpc]; rfl) nofun (by rw [hpc]; rfl) rfl nofun
  | foundWork ts =>
    simp only [hpc, Option.some.injEq] at h
    subst h
    exact foundWork_local hpc hok
  | lp nTries =>
    simp only [hpc] at h
    split at h
    · obtain ⟨w', hw'⟩ := lastLook_local hpc hok
      split at h <;> next hp =>
        rw [hp] at hw'
        cases h
        exact ⟨w', hw'⟩
    · cases h
      exact Local.move hok rfl (fun _ => by rw [hpc]; rfl) (by rw [hpc]; rfl) nofun (by rw [hpc]; rfl) rfl nofun
  | yielded nTries =>
    simp only [hpc] at h
    have hidle : (s.worker v).pc.idling = true := by rw [hpc]; rfl
    split at h
    · obtain ⟨w', hw'⟩ := selfSteal_local hpc hok
      rcases hl : (s.worker v).tryPopLocal with ⟨w₁, _ | ⟨t, ts⟩⟩ <;>
      · simp only [hl, Option.some.injEq] at h hw'
        rw [← h]
        exact ⟨w', hw'⟩
    · split at h <;>
      · cases h
        exact Local.move hok rfl (fun _ => hidle) (by rw [hpc]; rfl) nofun (by rw [hpc]; rfl) rfl nofun
  | wait nTries victim ch =>
    have hidle : (s.worker v).pc.idling = true := by rw [hpc]; rfl
    match ch with
    | none => simp [hpc] at h
    | some [] =>
      simp only [hpc, Option.some.injEq] at h
      subst h
      exact Local.move hok rfl (fun _ => hidle) (by rw [hpc]; rfl) nofun (by rw [hpc]; rfl) rfl nofun
    | some (t :: ts) =>
      simp only [hpc, Option.some.injEq] at h
      subst h
      exact Local.move hok rfl (fun _ => hidle) (by rw [hpc]; rfl) nofun (by rw [hpc]; rfl) rfl nofun
  | setIdle =>
    simp only [hpc] at h
    split at h
    · next hlast =>
      cases h
      exact setIdle_local hpc hok (.inl ⟨rfl, hlast⟩)
    · cases h
      exact setIdle_local hpc hok (.inr rfl)
  | setTerminated =>
    simp only [hpc, Option.some.injEq] at h
    subst h
    exact Local.unmasked _ _ true hok (by rw [hpc]; rfl) rfl nofun fun _ => .inr hpc
  | setIdleFlag | sleep | clearIdleFlag =>
    simp only [hpc, Option.some.injEq] at h
    subst h
    exact Local.unmasked _ _ _ hok (by rw [hpc]; rfl) rfl nofun .inl
  | waitFn | isTerminated =>
    simp only [hpc, Option.some.injEq] at h
    subst h
    refine Local.unmasked _ _ _ hok (by rw [hpc]; rfl) ?_ ?_ .inl
    · split <;> rfl
    · split <;> nofun
  | setActive =>
    simp only [hpc, Option.some.injEq] at h
    subst h
    exact setActive_local hpc hok
  | stopped => simp [hpc] at h

/-! ## What a running task does -/

/-- A step of the task that the worker of `v` runs, or of its scheduler when the task gives way. -/
theorem Local.task (hrun : s.running v = true) (hworker : s'.worker = update s.worker v w')
    (htasks : s'.pushed + ((s.worker v).ready + s.executed.map Prod.snd + s.removed) =
      s.pushed + (w'.ready + s'.executed.map Prod.snd + s'.removed))
    (hpc : w'.pc = (s.worker v).pc ∨ w'.pc = .executeNextTask ∨ w'.pc = .preempted)
    (hsame : s'.nIdle = s.nIdle ∧ s'.started = s.started ∧ s'.spawned = s.spawned ∧ s'.terminated = s.terminated) :
    Local s s' v w' := by
  obtain ⟨hbegun, hidle, hhand⟩ := Pc.busy_of_running hrun
  have hpc' : w'.pc.begun = true ∧ w'.pc.idling = false ∧ w'.pc.tasks = [] := by
    rcases hpc with h | h | h <;> rw [h]
    · exact ⟨hbegun, hidle, hhand⟩
    · exact ⟨rfl, rfl, rfl⟩
    · exact ⟨rfl, rfl, rfl⟩
  obtain ⟨hbegun', hidle', hhand'⟩ := hpc'
  obtain ⟨hn, hst, hsp, hterm⟩ := hsame
  refine ⟨hworker, htasks, Worker.Ok.busy hbegun' hidle' (by simp [hhand']), ?_, hst, hsp, fun h => ?_, fun h => ?_⟩
  · rw [Pc.counted_of_busy hidle, Pc.counted_of_busy hidle', hn]
  · have hnot : (s.worker v).pc.running = false := h.running
    rw [show (s.worker v).pc.running = true from hrun] at hnot
    cases hnot
  grind

theorem spawnTask_local (t : τ) (hrun : s.running v = true) : ∃ w', Local s (s.spawnTask v t) v w' := by
  cases hfull : isFull (s.worker v).primary with
  | true =>
    rw [spawnTask_full hfull]
    exact ⟨s.worker v, Local.task hrun (Function.update_eq_self v s.worker).symm rfl (.inl rfl) ⟨rfl, rfl, rfl, rfl⟩⟩
  | false =>
    rw [spawnTask_room hfull]
    refine ⟨_, Local.task hrun rfl ?_ (.inl rfl) ⟨rfl, rfl, rfl, rfl⟩⟩
    simp only [St.put, ready_def, ← coe_add, ← singleton_add, coe_singleton]
    abel

theorem resume_local (t : τ) (hrun : s.running v = true) : ∃ w', Local s (s.resumeTaskOnNewDeque v t) v w' := by
  refine ⟨_, Local.task hrun rfl ?_ (.inl rfl) ⟨rfl, rfl, rfl, rfl⟩⟩
  have hempty : pushNewEnd [] t = [t] := pushNewEnd_room rfl t
  simp only [St.resumeTaskOnNewDeque, St.put, ready_def, hempty, resumed_cons, ← coe_add,
    ← singleton_add, coe_singleton]
  abel

theorem removeTask_local (hrun : s.running v = true) : ∃ w', Local s (s.removeTask v) v w' := by
  have hprim := popNewEnd_ok.tasks (s.worker v).primary
  rcases hp : popNewEnd (s.worker v).primary with ⟨primary, _ | t⟩
  · rw [hp] at hprim
    simp only [Option.toList_none, coe_nil, add_zero] at hprim
    rw [removeTask_none hp]
    refine ⟨_, Local.task hrun rfl ?_ (.inl rfl) ⟨rfl, rfl, rfl, rfl⟩⟩
    simp only [St.put, ready_def, hprim]
  · rw [hp] at hprim
    simp only [Option.toList_some] at hprim
    rw [removeTask_some hp]
    refine ⟨_, Local.task hrun rfl ?_ (.inl rfl) ⟨rfl, rfl, rfl, rfl⟩⟩
    simp only [St.put, ready_def, hprim, ← singleton_add, coe_singleton]
    abel

theorem stop_local (hrun : s.running v = true) : ∃ w', Local s (s.put v { s.worker v with pc := .executeNextTask }) v w' := by
  refine ⟨_, Local.task hrun rfl ?_ (.inr (.inl rfl)) ⟨rfl, rfl, rfl, rfl⟩⟩
  rw [ready_def, ready_def, (Pc.busy_of_running hrun).2.2]
  rfl

/-- The continuation of a suspended task goes to the primary deque, which has room for it. -/
theorem suspend_local (k : τ) (hrun : s.running v = true) (hroom : isFull (s.worker v).primary = false) :
    ∃ w', Local s (s.suspend v k) v w' := by
  refine ⟨_, Local.task hrun rfl ?_ (.inr (.inr rfl)) ⟨rfl, rfl, rfl, rfl⟩⟩
  have hnil : (Pc.preempted : Pc ι τ).tasks = [] := rfl
  simp only [St.suspend, St.put, ready_def, pushNewEnd_room hroom, (Pc.busy_of_running hrun).2.2, hnil,
    ← coe_add, ← singleton_add, coe_singleton]
  abel

/-- A garbage collection moves no task. -/
theorem gc_local (hok : (s.worker v).Ok s.started) :
    ∃ w', Local s (s.put v { s.worker v with resume := PruneDequeList (s.worker v).resume }) v w' := by
  have hres := resumed_prune (s.worker v).resume
  have hready : ready { s.worker v with resume := PruneDequeList (s.worker v).resume } = (s.worker v).ready := by
    rw [ready_def, ready_def, hres]
  refine ⟨_, rfl, by rw [hready]; rfl, ⟨hok.init, fun hpc => ?_, hok.short, hok.hand, hok.primary⟩, rfl, rfl, rfl,
    fun h => ⟨hready.trans h.ready, h.running⟩, fun h => h.imp_right .inl⟩
  rw [hok.resume hpc] at hres
  exact (coe_eq_zero _).1 hres

end Manticore.Scheduler.WorkStealing
