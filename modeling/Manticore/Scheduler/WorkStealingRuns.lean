/-
  Manticore.Scheduler.WorkStealingRuns — runs of a work-stealing group.

  The invariant (`St.Inv`) counts the idle workers, accounts for every task, and says where no
  task can be. A worker that adds the last one to `nIdle` is the last of all workers in the
  second half of the idle loop, where no worker has a task (`Inv.last`).

  Proved, for any number of vprocs:
  - `work_stealing_runs`: in a run that suspends no task onto a full primary deque, and that
    does not start the group while a worker in the second half of its idle loop has the first
    task, no task is lost or executed twice, and `terminated` means that none is left.
  `suspend_drops` is a run that loses 64000 tasks when one is preempted, and
  `terminates_early` one that terminates with the first task still in a deque.
-/

import Manticore.Scheduler.WorkStealingLocal

namespace Manticore.Scheduler.WorkStealing

open Function (update update_self update_of_ne)
open Worker (ready_def)

variable {τ ι : Type} [DecidableEq ι] [Fintype ι] {s s' : St ι τ} {v : ι}

/-! ## The invariant -/

/-- The group is terminated, or is about to be. -/
def St.Alarm (s : St ι τ) : Prop := s.terminated = true ∨ ∃ v, (s.worker v).pc = .setTerminated

structure St.Inv (s : St ι τ) : Prop where
  ok : ∀ v, (s.worker v).Ok s.started
  count : s.nIdle + 1 = s.started.toNat + (∑ v, (s.worker v).pc.counted.toNat : Nat)
  kept : s.pushed = s.ready + s.executed.map Prod.snd + s.removed
  begun : s.started = true → s.spawned = true
  alarmed : s.Alarm → s.started = true
  quiet : s.spawned = false ∨ s.Alarm → ∀ v, (s.worker v).Empty

omit [DecidableEq ι] in
theorem init_inv : (St.init : St ι τ).Inv where
  ok v := ⟨fun _ => rfl, nofun, nofun, Nat.zero_le 1, nofun⟩
  count := by simp [St.init, Pc.counted, Pc.unmasked]
  kept := by simp [St.init, St.ready, ready_def, Pc.tasks]
  begun := nofun
  alarmed h := by
    rcases h with h | ⟨v, h⟩
    · cases h
    · cases h
  quiet _ v := ⟨by simp [St.init, ready_def, Pc.tasks], rfl⟩

/-- The worker that makes the count full is the last one: no worker has a task. -/
theorem St.Inv.last (h : s.Inv) (hpc : (s.worker v).pc = .setIdle) (hn : s.nIdle = Fintype.card ι - 1) :
    s.started = true ∧ ∀ u, (s.worker u).Empty := by
  have hcount := h.count
  have hnot : (s.worker v).pc.counted = false := by rw [hpc]; rfl
  have hlt := Parties.count_lt_card (fun u => (s.worker u).pc.counted) hnot
  have hst : s.started = true := by
    grind
  rw [hst] at hcount
  simp only [Bool.toNat_true, Nat.cast_one] at hcount
  refine ⟨hst, fun u => ?_⟩
  have hok : (s.worker u).Ok true := hst ▸ h.ok u
  by_cases huv : u = v
  · exact hok.unmasked_empty (by rw [huv, hpc]; rfl)
  · have hall := Parties.all_but_one (fun u => (s.worker u).pc.counted) hnot (by omega) huv
    exact hok.unmasked_empty (Pc.counted_unmasked hall)

theorem St.ready_update {w' : Worker ι τ} (h : s'.worker = update s.worker v w') :
    s'.ready + (s.worker v).ready = s.ready + w'.ready := by
  unfold St.ready
  rw [h]
  exact Parties.sum_update s.worker Worker.ready v w'

/-- A step of one worker. -/
theorem St.Inv.local {w' : Worker ι τ} (h : s.Inv) (hl : Local s s' v w') : s'.Inv := by
  have hself : s'.worker v = w' := by rw [hl.worker, update_self]
  have hother : ∀ u, u ≠ v → s'.worker u = s.worker u := fun u hu => by rw [hl.worker, update_of_ne hu]
  have halarm : s'.Alarm → s.started = true ∧ ∀ u, (s.worker u).Empty := by
    intro ha
    have hcases : s.Alarm ∨ (s'.terminated = true ∨ w'.pc = .setTerminated) := by
      rcases ha with ha | ⟨u, hu⟩
      · exact .inr (.inl ha)
      · by_cases huv : u = v
        · subst huv
          exact .inr (.inr (by rw [← hself]; exact hu))
        · exact .inl (.inr ⟨u, by rw [← hother u huv]; exact hu⟩)
    rcases hcases with ha | ha
    · exact ⟨h.alarmed ha, h.quiet (.inr ha)⟩
    · rcases hl.alarm ha with ht | hpc | ⟨hpc, hn⟩
      · exact ⟨h.alarmed (.inl ht), h.quiet (.inr (.inl ht))⟩
      · exact ⟨h.alarmed (.inr ⟨v, hpc⟩), h.quiet (.inr (.inr ⟨v, hpc⟩))⟩
      · exact h.last hpc hn
  refine ⟨fun u => ?_, ?_, ?_, ?_, fun ha => ?_, fun hq u => ?_⟩
  · by_cases huv : u = v
    · rw [huv, hself, hl.started]
      exact hl.ok
    · rw [hother u huv, hl.started]
      exact h.ok u
  · have hsum := Parties.sum_update s.worker (fun w => w.pc.counted.toNat) v w'
    rw [← hl.worker] at hsum
    have hcount := h.count
    have hstep := hl.count
    rw [hl.started]
    omega
  · have hready := St.ready_update hl.worker
    have htasks := hl.tasks
    rw [h.kept] at htasks
    refine add_right_cancel (b := (s.worker v).ready + s.executed.map Prod.snd + s.removed) (htasks.trans ?_)
    grind
  · rw [hl.started, hl.spawned]
    exact h.begun
  · rw [hl.started]
    exact (halarm ha).1
  · have hall : ∀ u, (s.worker u).Empty := by
      rcases hq with hq | ha
      · rw [hl.spawned] at hq
        exact h.quiet (.inl hq)
      · exact (halarm ha).2
    by_cases huv : u = v
    · rw [huv, hself]
      exact hl.empty (hall v)
    · rw [hother u huv]
      exact hall u

/-! ## Thieves -/

omit [Fintype ι] in
/-- What a thief changes: its victim, and the reply of the worker that waits. -/
theorem thief_spec (h : s.thief v = some s') : ∃ nTries victim w ts, (s.worker v).pc = .wait nTries victim none ∧
    victim ≠ v ∧ Pops (s.worker victim) w ts ∧
      s' = (s.put victim w).put v { s.worker v with pc := .wait nTries victim (some ts) } := by
  grind [St.thief, tryPopRemote_pops]

theorem St.Inv.thief (h : s.Inv) (hs : s.thief v = some s') : s'.Inv := by
  obtain ⟨nTries, victim, w, ts, hpc, hne, hpops, rfl⟩ := thief_spec hs
  have hv : (s.put victim w).worker v = s.worker v := update_of_ne (Ne.symm hne) _ _
  have hidle : (s.worker v).pc.idling = true := by rw [hpc]; rfl
  have hokv : Worker.Ok s.started { s.worker v with pc := .wait nTries victim (some ts) } :=
    (h.ok v).move rfl (fun _ => hidle) hpops.one nofun
  have hready : Worker.ready { s.worker v with pc := .wait nTries victim (some ts) } = (s.worker v).ready + (ts : Multiset τ) := by
    rw [ready_def, ready_def, hpc]
    simp [Pc.tasks]
  generalize hw' : ({ s.worker v with pc := .wait nTries victim (some ts) } : Worker ι τ) = w' at hokv hready
  have hself : ((s.put victim w).put v w').worker v = w' := update_self _ _ _
  have hvictim : ((s.put victim w).put v w').worker victim = w := by
    show update (update s.worker victim w) v w' victim = w
    rw [update_of_ne hne, update_self]
  have hother : ∀ u, u ≠ v → u ≠ victim → ((s.put victim w).put v w').worker u = s.worker u := fun u hu hu' => by
    show update (update s.worker victim w) v w' u = s.worker u
    rw [update_of_ne hu, update_of_ne hu']
  have hpc' : ∀ u, (((s.put victim w).put v w').worker u).pc = if u = v then w'.pc else (s.worker u).pc := by
    intro u
    split
    · next hu => rw [hu, hself]
    · next hu =>
      by_cases hu' : u = victim
      · rw [hu', hvictim, hpops.pc]
      · rw [hother u hu hu']
  have halarm : ((s.put victim w).put v w').Alarm → s.Alarm := by
    rintro (ha | ⟨u, hu⟩)
    · exact .inl ha
    · rw [hpc'] at hu
      split at hu
      · rw [← hw'] at hu
        cases hu
      · exact .inr ⟨u, hu⟩
  refine ⟨fun u => ?_, ?_, ?_, h.begun, fun ha => h.alarmed (halarm ha), fun hq => ?_⟩
  · by_cases hu : u = v
    · rw [hu, hself]
      exact hokv
    · by_cases hu' : u = victim
      · rw [hu', hvictim]
        exact hpops.ok (h.ok victim)
      · rw [hother u hu hu']
        exact h.ok u
  · have hsame : ∀ u, (((s.put victim w).put v w').worker u).pc.counted = (s.worker u).pc.counted := by
      intro u
      rw [hpc']
      split
      · next hu => rw [hu, ← hw', hpc]; rfl
      · rfl
    rw [Finset.sum_congr rfl fun u _ => by rw [hsame u]]
    exact h.count
  · have hfirst : (s.put victim w).ready + (s.worker victim).ready = s.ready + w.ready := St.ready_update rfl
    have hsecond : ((s.put victim w).put v w').ready + ((s.put victim w).worker v).ready = (s.put victim w).ready + w'.ready :=
      St.ready_update rfl
    rw [hv, hready] at hsecond
    rw [hpops.ready] at hfirst
    have heq : ((s.put victim w).put v w').ready = s.ready := by
      refine add_right_cancel (b := (s.worker v).ready + w.ready + (ts : Multiset τ)) ?_
      grind
    rw [heq]
    exact h.kept
  · have hall := h.quiet (hq.imp_right halarm)
    obtain ⟨hnil, hw⟩ := hpops.nil (hall victim)
    intro u
    by_cases hu : u = v
    · rw [hu, hself]
      refine ⟨by rw [hready, (hall v).ready, hnil]; rfl, by rw [← hw']; rfl⟩
    · by_cases hu' : u = victim
      · rw [hu', hvictim]
        exact hw
      · rw [hother u hu hu']
        exact hall u

/-! ## The first task -/

/-- The first task is pushed onto an empty deque. -/
theorem St.Inv.first {t : τ} (h : s.Inv) (hsp : s.spawned = false) (hbegun : (s.worker v).pc.begun = true) :
    St.Inv { s.spawnTask v t with spawned := true } := by
  have hall := h.quiet (.inl hsp)
  have hst : s.started = false := by
    cases hst : s.started with
    | false => rfl
    | true => rw [h.begun hst] at hsp; cases hsp
  have hnil : (s.worker v).primary = [] := (hall v).primary
  rw [spawnTask_room (by rw [hnil]; rfl), hnil]
  generalize hw : ({ s.worker v with primary := [] ++ [t] } : Worker ι τ) = w
  have hpc : w.pc = (s.worker v).pc := by rw [← hw]
  have hready : w.ready = (s.worker v).ready + ([t] : List τ) := by
    rw [← hw, ready_def, ready_def, hnil, List.nil_append, Multiset.coe_nil]
    abel
  have hself : (s.put v w).worker v = w := update_self _ _ _
  have hother : ∀ u, u ≠ v → (s.put v w).worker u = s.worker u := fun u hu => update_of_ne hu _ _
  have hpc' : ∀ u, ((s.put v w).worker u).pc = (s.worker u).pc := by
    intro u
    by_cases hu : u = v
    · rw [hu, hself, hpc]
    · rw [hother u hu]
  have halarm : (s.put v w).Alarm → s.Alarm := fun ha => ha.imp_right fun ⟨u, hu⟩ => ⟨u, by rw [← hpc' u]; exact hu⟩
  have hcalm : ¬ s.Alarm := fun ha => by
    have := h.alarmed ha
    rw [hst] at this
    cases this
  refine ⟨fun u => ?_, ?_, ?_, fun _ => rfl, fun ha => absurd (halarm ha) hcalm, fun hq => ?_⟩
  · by_cases hu : u = v
    · have hold := h.ok v
      have hok : w.Ok s.started := by
        rw [← hw]
        refine ⟨fun hinit => ?_, hold.resume, fun _ => Nat.le_refl 1, hold.hand, fun hs => ?_⟩
        · rw [show ({ s.worker v with primary := [] ++ [t] } : Worker ι τ).pc = (s.worker v).pc from rfl, hbegun] at hinit
          cases hinit
        · rw [hst] at hs
          cases hs
      show ((s.put v w).worker u).Ok s.started
      rw [hu, hself]
      exact hok
    · show ((s.put v w).worker u).Ok s.started
      rw [hother u hu]
      exact h.ok u
  · show s.nIdle + 1 = s.started.toNat + (∑ u, ((s.put v w).worker u).pc.counted.toNat : Nat)
    rw [Finset.sum_congr rfl fun u _ => by rw [hpc' u]]
    exact h.count
  · have hput : (s.put v w).ready + (s.worker v).ready = s.ready + w.ready := St.ready_update rfl
    rw [hready, (hall v).ready, add_zero, zero_add] at hput
    show t ::ₘ s.pushed = (s.put v w).ready + s.executed.map Prod.snd + s.removed
    rw [hput, h.kept, Multiset.coe_singleton, ← Multiset.singleton_add]
    abel
  · rcases hq with hq | ha
    · cases hq
    · exact absurd (halarm ha) hcalm

omit [DecidableEq ι] in
/-- The group is started while no worker in the second half of its idle loop has a task. -/
theorem St.Inv.started (h : s.Inv) (hsp : s.spawned = true) (hst : s.started = false)
    (hmeets : ∀ v, (s.worker v).pc.unmasked = true → (s.worker v).primary = []) :
    St.Inv { s with started := true, nIdle := s.nIdle + 1 } where
  ok v := { init := (h.ok v).init, resume := (h.ok v).resume, short := (h.ok v).short, hand := (h.ok v).hand,
            primary := fun _ => hmeets v }
  count := by
    have hcount := h.count
    rw [hst] at hcount
    grind
  kept := h.kept
  begun _ := hsp
  alarmed _ := rfl
  quiet hq := by
    rcases hq with hq | ha
    · rw [show ({ s with started := true, nIdle := s.nIdle + 1 } : St ι τ).spawned = s.spawned from rfl, hsp] at hq
      cases hq
    · have : s.started = true := h.alarmed ha
      rw [hst] at this
      cases this

/-! ## Runs -/

theorem step_inv {e : Ev ι τ} (h : s.Inv) (hs : s.step e = some s') (hmeets : Meets s e) : s'.Inv := by
  cases e with
  | go v victim =>
    obtain ⟨w', hl⟩ := go_local (h.ok v) hs
    exact h.local hl
  | thief v => exact h.thief hs
  | spawn v t =>
    obtain ⟨hrun, rfl⟩ : s.running v = true ∧ s.spawnTask v t = s' := by simpa [St.step] using hs
    obtain ⟨w', hl⟩ := spawnTask_local t hrun
    exact h.local hl
  | resume v t =>
    obtain ⟨hrun, rfl⟩ : s.running v = true ∧ s.resumeTaskOnNewDeque v t = s' := by simpa [St.step] using hs
    obtain ⟨w', hl⟩ := resume_local t hrun
    exact h.local hl
  | remove v =>
    obtain ⟨hrun, rfl⟩ : s.running v = true ∧ s.removeTask v = s' := by simpa [St.step] using hs
    obtain ⟨w', hl⟩ := removeTask_local hrun
    exact h.local hl
  | stop v =>
    obtain ⟨hrun, rfl⟩ : s.running v = true ∧ s.put v { s.worker v with pc := .executeNextTask } = s' := by
      simpa [St.step] using hs
    obtain ⟨w', hl⟩ := stop_local hrun
    exact h.local hl
  | suspend v k =>
    obtain ⟨hrun, rfl⟩ : s.running v = true ∧ s.suspend v k = s' := by simpa [St.step] using hs
    obtain ⟨w', hl⟩ := suspend_local k hrun hmeets
    exact h.local hl
  | first v t =>
    simp only [St.step] at hs
    split at hs
    · next hcond =>
      cases hs
      exact h.first hcond.1 hcond.2.1
    · cases hs
  | started =>
    simp only [St.step] at hs
    split at hs
    · next hcond =>
      cases hs
      exact h.started hcond.1 hcond.2 hmeets
    · cases hs
  | gc v =>
    obtain rfl := Option.some.inj hs
    obtain ⟨w', hl⟩ := gc_local (h.ok v)
    exact h.local hl

theorem run_inv {es : List (Ev ι τ)} (h : s.Inv) (hs : s.run es = some s') (hmeets : s.Meets es) : s'.Inv := by
  induction es generalizing s with
  | nil =>
    cases hs
    exact h
  | cons e es ih =>
    obtain ⟨s₁, hstep, hrest⟩ := Option.bind_eq_some_iff.1 hs
    exact ih (step_inv h hstep hmeets.1) hrest (hmeets.2 s₁ hstep)

omit [DecidableEq ι] in
theorem St.Inv.sound (h : s.Inv) : Sound s where
  kept := h.kept
  once hnodup := by
    rw [h.kept] at hnodup
    exact Multiset.nodup_of_le ((Multiset.le_add_left _ _).trans (Multiset.le_add_right _ _)) hnodup
  quiet hterm := by
    have hall := h.quiet (.inr (.inl hterm))
    exact ⟨Finset.sum_eq_zero fun v _ => (hall v).ready, fun v => (hall v).running⟩

/-- A run whose steps meet the condition loses no task, executes none twice and terminates with none left. -/
theorem work_stealing_runs (es : List (Ev ι τ)) (s : St ι τ) (hrun : St.init.run es = some s) (hmeets : St.init.Meets es) :
    Sound s :=
  (run_inv init_inv hrun hmeets).sound

/-- Two workers: a task is stolen, one is suspended, one is removed, and the group terminates. -/
def stealing : List (Ev (Fin 2) Nat) :=
  [.go 0 0, .go 0 0, .go 0 0, .first 0 7, .go 0 0, .go 0 0, .go 0 0, .started, .spawn 0 8, .spawn 0 9, .resume 0 11,
    .go 1 1, .go 1 1, .go 1 1, .go 1 0, .suspend 0 10, .thief 1, .go 1 1, .go 1 1, .go 1 1, .stop 1,
    .go 0 0, .go 0 0, .remove 0, .stop 0, .gc 0, .go 0 0, .stop 0] ++
  List.replicate 9 (.go 0 0) ++ List.replicate 10 (.go 1 1)

theorem work_stealing_runs_stealing : ∃ s, St.init.run stealing = some s ∧ s.terminated = true ∧ Sound s := by
  have hrun : (St.init.run stealing).isSome = true := by decide
  have hterm : (St.init.run stealing).map St.terminated = some true := by decide
  obtain ⟨s, hs⟩ := Option.isSome_iff_exists.1 hrun
  rw [hs] at hterm
  refine ⟨s, hs, Option.some.inj hterm, work_stealing_runs stealing s hs ?_⟩
  decide

/-! ## What goes wrong -/

omit [Fintype ι] in
/-- A task that is suspended onto a full primary deque is lost with all tasks of the deque. -/
theorem suspend_full {k : τ} (h : isFull (s.worker v).primary = true) :
    (s.suspend v k).worker v = { s.worker v with primary := [], pc := .preempted } := by
  simp [pushNewEnd, h, St.suspend, St.put]

theorem run_append (es fs : List (Ev ι τ)) : s.run (es ++ fs) = (s.run es).bind (·.run fs) := by
  induction es generalizing s with
  | nil => rfl
  | cons e es ih =>
    show (s.step e).bind (·.run (es ++ fs)) = ((s.step e).bind (·.run es)).bind (·.run fs)
    rw [Option.bind_assoc]
    congr 1
    funext s₁
    exact ih

/-- A running task spawns the tasks `ts`. -/
theorem run_spawn (ts : List τ) (hrun : s.running v = true) (hroom : (s.worker v).primary.length + ts.length < DEFAULT_DEQUE_SZ) :
    ∃ s', s.run (ts.map (.spawn v)) = some s' ∧ s'.worker v = { s.worker v with primary := (s.worker v).primary ++ ts } ∧
      s'.pushed.card = s.pushed.card + ts.length ∧ s'.executed = s.executed ∧ s'.removed = s.removed := by
  induction ts generalizing s with
  | nil => exact ⟨s, rfl, by rw [List.append_nil], rfl, rfl, rfl⟩
  | cons t ts ih =>
    rw [List.length_cons] at hroom
    have hnot : isFull (s.worker v).primary = false := by
      simp only [isFull, decide_eq_false_iff_not]
      omega
    have hstep : s.step (.spawn v t) =
        some { s.put v { s.worker v with primary := (s.worker v).primary ++ [t] } with pushed := t ::ₘ s.pushed } := by
      rw [← spawnTask_room hnot]
      exact if_pos hrun
    generalize hs₁ : ({ s.put v { s.worker v with primary := (s.worker v).primary ++ [t] } with pushed := t ::ₘ s.pushed } : St ι τ) =
      s₁ at hstep
    have hw : s₁.worker v = { s.worker v with primary := (s.worker v).primary ++ [t] } := by
      rw [← hs₁]
      exact update_self _ _ _
    have hrun₁ : s₁.running v = true := by
      rw [St.running, hw]
      exact hrun
    obtain ⟨s', hs', hw', hpushed, hex, hrem⟩ := ih hrun₁ (by rw [hw, List.length_append, List.length_singleton]; omega)
    refine ⟨s', ?_, ?_, ?_, ?_, ?_⟩
    · show (s.step (.spawn v t)).bind (·.run (ts.map (.spawn v))) = some s'
      rw [hstep]
      exact hs'
    · rw [hw', hw]
      simp
    · rw [hpushed, ← hs₁, Multiset.card_cons, List.length_cons]
      omega
    · rw [hex, ← hs₁]
      rfl
    · rw [hrem, ← hs₁]
      rfl

/-- One worker runs the first task, and the group is started. -/
def running : List (Ev (Fin 1) Nat) := [.go 0 0, .go 0 0, .go 0 0, .first 0 0, .go 0 0, .go 0 0, .go 0 0, .started]

/-- The first task spawns as many tasks as its deque can hold, and is preempted. -/
def full : List (Ev (Fin 1) Nat) :=
  running ++ (List.range (DEFAULT_DEQUE_SZ - 1)).map (.spawn 0) ++ [.suspend 0 0]

/-- The 63999 tasks that are ready and the one that is preempted are lost. -/
theorem suspend_drops : ∃ s, St.init.run full = some s ∧ s.pushed.card = DEFAULT_DEQUE_SZ + 1 ∧ s.executed.card = 1 ∧
    s.removed = 0 ∧ s.ready = 0 ∧ ¬ Sound s := by
  have hprefix : (St.init.run running).map (fun s => (s.worker 0, s.pushed.card, s.executed.card, s.removed)) =
      some ({ pc := .run 0, primary := [], resume := [], spinCyclesLg := 1 }, 1, 1, 0) := by decide
  obtain ⟨s₁, hs₁, hfacts⟩ := Option.map_eq_some_iff.1 hprefix
  obtain ⟨hw₁, hpushed₁, hex₁, hrem₁⟩ : s₁.worker 0 = { pc := .run 0, primary := [], resume := [], spinCyclesLg := 1 } ∧
      s₁.pushed.card = 1 ∧ s₁.executed.card = 1 ∧ s₁.removed = 0 := by simpa using hfacts
  have hsz : DEFAULT_DEQUE_SZ = 64000 := rfl
  obtain ⟨s₂, hs₂, hw₂, hpushed₂, hex₂, hrem₂⟩ := run_spawn (s := s₁) (v := 0) (List.range (DEFAULT_DEQUE_SZ - 1))
    (by rw [St.running, hw₁]; rfl) (by rw [hw₁, List.length_range]; simp [hsz])
  rw [hw₁, List.nil_append] at hw₂
  have hfull : isFull (s₂.worker 0).primary = true := by
    rw [hw₂]
    simp [isFull]
  have hstep : s₂.step (.suspend 0 0) = some (s₂.suspend 0 0) := if_pos (by rw [St.running, hw₂]; rfl)
  have hw : (s₂.suspend 0 0).worker 0 = { pc := .preempted, primary := [], resume := [], spinCyclesLg := 1 } := by
    rw [suspend_full hfull, hw₂]
  have hready : (s₂.suspend 0 0).ready = 0 := by
    simp [St.ready, ready_def, hw, Pc.tasks]
  have hpushed : (s₂.suspend 0 0).pushed.card = DEFAULT_DEQUE_SZ + 1 := by
    show (0 ::ₘ s₂.pushed).card = _
    rw [Multiset.card_cons, hpushed₂, hpushed₁, List.length_range]
    omega
  have hex : (s₂.suspend 0 0).executed.card = 1 := by
    show s₂.executed.card = 1
    rw [hex₂, hex₁]
  have hrem : (s₂.suspend 0 0).removed = 0 := by
    show s₂.removed = 0
    rw [hrem₂, hrem₁]
  refine ⟨s₂.suspend 0 0, ?_, hpushed, hex, hrem, hready, fun h => ?_⟩
  · rw [full, List.append_assoc, run_append, hs₁, Option.bind_some, run_append, hs₂, Option.bind_some]
    show (s₂.step (.suspend 0 0)).bind _ = _
    rw [hstep]
    rfl
  · have hcard := congrArg Multiset.card h.kept
    rw [hready, hrem, zero_add, add_zero, Multiset.card_map, hpushed, hex] at hcard
    omega

/-- The group is started while the first task is in the deque of a worker that counts as idle:
the other worker looks for it in vain and terminates the group. -/
theorem terminates_early : ∃ es : List (Ev (Fin 2) Nat), ∃ s, St.init.run es = some s ∧ s.terminated = true ∧
    (s.worker 0).primary = [7] ∧ ¬ Sound s := by
  have hrun : (St.init.run (List.replicate 11 (.go 0 0) ++ [.first 0 7, .started] ++ List.replicate 11 (.go 1 1))).map
      (fun s => (s.terminated, (s.worker (0 : Fin 2)).primary)) = some (true, [7]) := by decide
  obtain ⟨s, hs, hfacts⟩ := Option.map_eq_some_iff.1 hrun
  obtain ⟨hterm, hprim⟩ : s.terminated = true ∧ (s.worker 0).primary = [7] := by simpa using hfacts
  refine ⟨_, s, hs, hterm, hprim, fun h => ?_⟩
  have hzero := Finset.sum_eq_zero_iff.1 (h.quiet hterm).1 0 (Finset.mem_univ 0)
  simp [ready_def, hprim] at hzero

end Manticore.Scheduler.WorkStealing
