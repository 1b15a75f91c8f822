/-
  Manticore.ParallelRt.GlobalGCHeap — what the lists of chunks hold in each part of a global collection.

  A collection is at rest or being entered (`Idle`), converts the to-space chunks of the vprocs (`Setup`), copies
  (`Copying`) or has its leader give the from-space chunks back (`Reclaiming`). The to-space chunks at the start are
  from-space chunks until they are freed, and the account of a collection that is over is settled (`Settled`).

  - `stage_act`: a step leads from a part of the collection to itself or to the next one.
  - `heap_act`: a step keeps the invariant of the heap.
-/

import Manticore.ParallelRt.GlobalGCLists

namespace Manticore.ParallelRt.GlobalGC

open Parties
open Function (update update_self update_of_ne update_eq_self)

variable {n m : Nat} (mc : Machine n m)

/-- All that the collection started with is freed, once, and nothing that it filled. -/
structure Settled (s : State n m) (r : Nat) : Prop where
  freed : ∀ c, (s.freed r).count c = (s.start r c).toNat
  filled : ∀ c ∈ s.filled r, s.start r c = false

structure Unused (s : State n m) (r : Nat) : Prop where
  start : ∀ c, s.start r c = false
  filled : s.filled r = []
  freed : s.freed r = []

/-- Between two collections, while a collection is entered, or when only its last barrier is left. -/
structure Idle (s : State n m) : Prop where
  rest : s.allReadyForGC = false ∨ s.globalGCInProgress = false
  late : s.globalGCInProgress = false → ∀ j, 6 ≤ (s.vps j).pc.level
  nodes : ∀ nd, (s.nodes nd).scannedTo = [] ∧ (s.nodes nd).fromSpace = []
  unused : s.globalGCInProgress = true → Unused s s.numGlobalGCs
  settled : s.globalGCInProgress = false → Settled s s.numGlobalGCs

/-- Phase 1. -/
structure Setup (s : State n m) : Prop where
  ready : s.allReadyForGC = true
  progress : s.globalGCInProgress = true
  low : ∀ j, (s.vps j).pc.level ≤ 3
  scanned : ∀ nd, (s.nodes nd).scannedTo = []
  records : s.filled s.numGlobalGCs = [] ∧ s.freed s.numGlobalGCs = []
  start : ∀ c, s.start s.numGlobalGCs c = true ↔ s.sts c = .toSpace ∨ s.sts c = .fromSpace
  converted : ∀ j, 2 ≤ (s.vps j).pc.level → (s.vps j).toSpace = [] ∧ (s.nodes (mc.node j)).unscannedTo = [] ∧
    (s.nodes (mc.node j)).completed = false

/-- From the first barrier to the leader's reclaiming. -/
structure Copying (s : State n m) : Prop where
  ready : s.allReadyForGC = true
  progress : s.globalGCInProgress = true
  levels : ∀ j, 3 ≤ (s.vps j).pc.level ∧ (s.vps j).pc.level ≠ 7
  freed : s.freed s.numGlobalGCs = []
  start : ∀ c, s.start s.numGlobalGCs c = true ↔ s.sts c = .fromSpace
  filled : ∀ c ∈ s.filled s.numGlobalGCs, s.start s.numGlobalGCs c = false
  done : ∀ j, 5 ≤ (s.vps j).pc.level → (s.nodes (mc.node j)).completed = true
  completed : ∀ j, (s.nodes (mc.node j)).completed = true → (s.nodes (mc.node j)).unscannedTo = [] ∧
    ((s.vps j).pc = .asleep ∨ 5 ≤ (s.vps j).pc.level)

/-- The leader is before the node `k`. -/
structure Reclaiming (s : State n m) (l : Fin n) (k : Nat) : Prop where
  ready : s.allReadyForGC = true
  progress : s.globalGCInProgress = true
  leader : (s.vps l).pc = .reclaim k
  late : ∀ j, 6 ≤ (s.vps j).pc.level
  before : ∀ nd, nd.val < k → (s.nodes nd).fromSpace = [] ∧ (s.nodes nd).scannedTo = []
  after : ∀ nd, k ≤ nd.val → (s.nodes nd).unscannedTo = []
  account : ∀ c, (s.freed s.numGlobalGCs).count c + (decide (s.sts c = .fromSpace)).toNat =
    (s.start s.numGlobalGCs c).toNat
  filled : ∀ c ∈ s.filled s.numGlobalGCs, s.start s.numGlobalGCs c = false

inductive Stage (s : State n m) : Prop
  | idle : Idle s → Stage s
  | setup : Setup mc s → Stage s
  | copying : Copying mc s → Stage s
  | reclaiming {l : Fin n} {k : Nat} : Reclaiming s l k → Stage s

/-- A node without a vproc has no to-space chunks. -/
def Empty (s : State n m) : Prop :=
  ∀ nd, (∀ i, mc.node i ≠ nd) → (s.nodes nd).unscannedTo = [] ∧ (s.nodes nd).scannedTo = []

/-- The records of the collections that are over, and of those to come. -/
structure Rounds (s : State n m) : Prop where
  past : ∀ r, r < s.numGlobalGCs → Settled s r
  future : ∀ r, s.numGlobalGCs < r → Unused s r

structure Heap (s : State n m) : Prop where
  lists : Lists s
  waiting : Waiting mc s
  empty : Empty mc s
  rounds : Rounds s
  stage : Stage mc s

variable {mc}

variable {s : State n m} {i : Fin n} {k : Nat} {v : VProc} {s' : State n m} {hd : NodeHeap} {pc : Pc} {b : Fin 3}

theorem heap_start (h : Start s) : Heap mc s := by
  have hunused : ∀ r, Unused s r := fun r => ⟨(h.records r).2.2.2, (h.records r).2.1, (h.records r).2.2.1⟩
  refine ⟨lists_start h, waiting_start h, ?_, ⟨?_, fun r _ => hunused r⟩, .idle ⟨.inl h.allReadyForGC, ?_, ?_, ?_, ?_⟩⟩
  · intro nd _
    exact ⟨(h.nodes nd).1, (h.nodes nd).2.1⟩
  · intro r hr
    rw [h.numGlobalGCs] at hr
    exact absurd hr (Nat.not_lt_zero r)
  · intro _ j
    rw [(h.vps j).1]
    decide
  · intro nd
    exact ⟨(h.nodes nd).2.1, (h.nodes nd).2.2.1⟩
  · intro hp
    rw [h.globalGCInProgress] at hp
    cases hp
  · intro _
    refine ⟨fun c => ?_, fun c hc => ?_⟩
    · rw [(hunused _).freed, (hunused _).start]
      rfl
    · rw [(hunused _).filled] at hc
      cases hc

/-! ## Which part of the collection it is -/

theorem Stage.idle_of_out (h : Stage mc s) (hc : Control s) (hlevel : (s.vps i).pc.level = 10) : Idle s := by
  cases h with
  | idle h => exact h
  | setup h =>
    have hlow := h.low i
    omega
  | copying h | reclaiming h =>
    have hle := hc.inside h.ready h.progress i
    omega

theorem Stage.idle_of_leads (h : Stage mc s) (hc : Control s) (hleads : (s.vps i).pc.Leads)
    (hlevel : (s.vps i).pc.level = 0) : Idle s := by
  have hready := hc.gathers i hleads hlevel
  have hno : s.allReadyForGC ≠ true := by
    rw [hready]
    nofun
  cases h with
  | idle h => exact h
  | setup h | copying h | reclaiming h => exact absurd h.ready hno

theorem Stage.setup_of_low (h : Stage mc s) (hready : s.allReadyForGC = true) (hlevel : (s.vps i).pc.level ≤ 2) :
    Setup mc s := by
  cases h with
  | idle h =>
    rcases h.rest with hno | hno
    · rw [hready] at hno
      cases hno
    · have hlate := h.late hno i
      omega
  | setup h => exact h
  | copying h =>
    have hle := h.levels i
    omega
  | reclaiming h =>
    have hle := h.late i
    omega

theorem Stage.copying_of (h : Stage mc s) (hc : Control s)
    (hlevel : (s.vps i).pc.level = 4 ∨ (s.vps i).pc.level = 5) : Copying mc s := by
  have hready := hc.ready (i := i) (by omega) (by omega)
  cases h with
  | idle h =>
    rcases h.rest with hno | hno
    · rw [hready] at hno
      cases hno
    · have hlate := h.late hno i
      omega
  | setup h =>
    have hlow := h.low i
    omega
  | copying h => exact h
  | reclaiming h =>
    have hle := h.late i
    omega

theorem Stage.reclaiming_of (h : Stage mc s) (hc : Control s) (hpc : (s.vps i).pc = .reclaim k) :
    Reclaiming s i k := by
  have hlevel : (s.vps i).pc.level = 7 := by rw [hpc]; rfl
  have hready := hc.ready (i := i) (by omega) (by omega)
  obtain ⟨hl, hr, hp⟩ := hc.leads i (by rw [hpc]; trivial)
  cases h with
  | idle h =>
    rcases h.rest with hno | hno
    · rw [hready] at hno
      cases hno
    · rw [hp] at hno
      cases hno
  | setup h =>
    have hlow := h.low i
    omega
  | copying h => exact absurd hlevel (h.levels i).2
  | @reclaiming l k' h =>
    obtain ⟨hl', hr', -⟩ := hc.leads l (by rw [h.leader]; trivial)
    obtain ⟨l₀, -, -, -, huniq⟩ := hc.leader hp
    obtain rfl : i = l := (huniq i hl hr).trans (huniq l hl' hr').symm
    have hk := h.leader
    rw [hpc] at hk
    obtain rfl : k = k' := Pc.reclaim.inj hk
    exact h

/-! ## Steps that leave the heap alone -/

theorem update_forall (s s' : State n m) {P : Fin n → VProc → Prop} (hvps : s'.vps = update s.vps i v)
    (hself : P i v) (hother : ∀ j, j ≠ i → P j (s.vps j)) (j : Fin n) : P j (s'.vps j) := by
  rw [hvps]
  by_cases hj : j = i
  · subst hj
    rw [update_self]
    exact hself
  · rw [update_of_ne hj]
    exact hother j hj

structure SameHeap (s s' : State n m) : Prop where
  nodes : s'.nodes = s.nodes
  sts : s'.sts = s.sts
  allReadyForGC : s'.allReadyForGC = s.allReadyForGC
  globalGCInProgress : s'.globalGCInProgress = s.globalGCInProgress
  numGlobalGCs : s'.numGlobalGCs = s.numGlobalGCs
  start : s'.start = s.start
  filled : s'.filled = s.filled
  freed : s'.freed = s.freed

theorem Settled.same {r : Nat} (h : Settled s r) (hstart : s'.start r = s.start r)
    (hfilled : s'.filled r = s.filled r) (hfreed : s'.freed r = s.freed r) : Settled s' r := by
  refine ⟨?_, ?_⟩
  · rw [hfreed, hstart]
    exact h.freed
  · rw [hfilled, hstart]
    exact h.filled

theorem Unused.same {r : Nat} (h : Unused s r) (hstart : s'.start r = s.start r)
    (hfilled : s'.filled r = s.filled r) (hfreed : s'.freed r = s.freed r) : Unused s' r :=
  ⟨by rw [hstart]; exact h.start, hfilled.trans h.filled, hfreed.trans h.freed⟩

/-- The nodes may change where an idle collection does not look. -/
theorem Idle.same (h : Idle s)
    (hflags : s'.allReadyForGC = s.allReadyForGC ∧ s'.globalGCInProgress = s.globalGCInProgress ∧ s'.numGlobalGCs = s.numGlobalGCs)
    (hrecords : s'.start = s.start ∧ s'.filled = s.filled ∧ s'.freed = s.freed)
    (hnodes : ∀ nd, (s'.nodes nd).scannedTo = (s.nodes nd).scannedTo ∧ (s'.nodes nd).fromSpace = (s.nodes nd).fromSpace)
    (hlate : s.globalGCInProgress = false → ∀ j, 6 ≤ (s'.vps j).pc.level) : Idle s' := by
  obtain ⟨hall, hprog, hg⟩ := hflags
  obtain ⟨hstart, hfilled, hfreed⟩ := hrecords
  refine ⟨?_, ?_, ?_, ?_, ?_⟩
  · rw [hall, hprog]
    exact h.rest
  · rw [hprog]
    exact hlate
  · intro nd
    rw [(hnodes nd).1, (hnodes nd).2]
    exact h.nodes nd
  · rw [hprog, hg]
    intro hp
    exact (h.unused hp).same (by rw [hstart]) (by rw [hfilled]) (by rw [hfreed])
  · rw [hprog, hg]
    intro hp
    exact (h.settled hp).same (by rw [hstart]) (by rw [hfilled]) (by rw [hfreed])

theorem Setup.same (h : Setup mc s) (hs : SameHeap s s') (hvps : s'.vps = update s.vps i v)
    (hto : v.toSpace = (s.vps i).toSpace) (hlow : v.pc.level ≤ 3) (hconv : 2 ≤ v.pc.level → 2 ≤ (s.vps i).pc.level)
    : Setup mc s' := by
  refine ⟨hs.allReadyForGC.trans h.ready, hs.globalGCInProgress.trans h.progress, ?_, ?_, ?_, ?_, ?_⟩
  · exact update_forall s s' (P := fun _ v => v.pc.level ≤ 3) hvps hlow fun j _ => h.low j
  · rw [hs.nodes]
    exact h.scanned
  · rw [hs.filled, hs.freed, hs.numGlobalGCs]
    exact h.records
  · rw [hs.start, hs.numGlobalGCs, hs.sts]
    exact h.start
  · rw [hs.nodes]
    refine update_forall s s' (P := fun j v => 2 ≤ v.pc.level → v.toSpace = [] ∧ (s.nodes (mc.node j)).unscannedTo = [] ∧
      (s.nodes (mc.node j)).completed = false) hvps (fun h2 => ?_) fun j _ => h.converted j
    rw [hto]
    exact h.converted i (hconv h2)

/-- A vproc and its node change in phase 2. -/
theorem Copying.change (h : Copying mc s) (hvps : s'.vps = update s.vps i v)
    (hnodes : s'.nodes = update s.nodes (mc.node i) hd)
    (hflags : s'.allReadyForGC = s.allReadyForGC ∧ s'.globalGCInProgress = s.globalGCInProgress ∧ s'.numGlobalGCs = s.numGlobalGCs)
    (hrecords : s'.start = s.start ∧ s'.freed = s.freed) (hsts : ∀ c, s'.sts c = .fromSpace ↔ s.sts c = .fromSpace)
    (hfilled : ∀ c ∈ s'.filled s.numGlobalGCs, c ∈ s.filled s.numGlobalGCs ∨ s.sts c ≠ .fromSpace)
    (hlevel : 3 ≤ v.pc.level ∧ v.pc.level ≠ 7)
    (hkeep : (s.nodes (mc.node i)).completed = true → hd.completed = true)
    (hdone : 5 ≤ v.pc.level → hd.completed = true)
    (hcompleted : hd.completed = true → hd.unscannedTo = [] ∧ (v.pc = .asleep ∨ 5 ≤ v.pc.level) ∧ ∀ j, j ≠ i → mc.node j = mc.node i → (s.vps j).pc = .asleep ∨ 5 ≤ (s.vps j).pc.level)
    : Copying mc s' := by
  obtain ⟨hall, hprog, hg⟩ := hflags
  obtain ⟨hstart, hfreed⟩ := hrecords
  have hother : ∀ j, mc.node j ≠ mc.node i → s'.nodes (mc.node j) = s.nodes (mc.node j) := fun j hj => by
    rw [hnodes, update_of_ne hj]
  have hsame : ∀ j, mc.node j = mc.node i → s'.nodes (mc.node j) = hd := fun j hj => by
    rw [hnodes, hj, update_self]
  refine ⟨hall.trans h.ready, hprog.trans h.progress, ?_, ?_, ?_, ?_, ?_, ?_⟩
  · exact update_forall s s' (P := fun _ v => 3 ≤ v.pc.level ∧ v.pc.level ≠ 7) hvps hlevel fun j _ => h.levels j
  · rw [hfreed, hg]
    exact h.freed
  · intro c
    rw [hstart, hg, hsts]
    exact h.start c
  · intro c hc
    rw [hg] at hc
    rw [hstart, hg]
    rcases hfilled c hc with hold | hne
    · exact h.filled c hold
    · exact Bool.eq_false_of_not_eq_true fun htrue => hne ((h.start c).mp htrue)
  · refine update_forall s s' (P := fun j v => 5 ≤ v.pc.level → (s'.nodes (mc.node j)).completed = true) hvps (fun h5 => ?_)
      fun j _ h5 => ?_
    · rw [hsame i rfl]
      exact hdone h5
    · by_cases hj : mc.node j = mc.node i
      · rw [hsame j hj]
        exact hkeep (hj ▸ h.done j h5)
      · rw [hother j hj]
        exact h.done j h5
  · refine update_forall s s' (P := fun j v => (s'.nodes (mc.node j)).completed = true →
      (s'.nodes (mc.node j)).unscannedTo = [] ∧ (v.pc = .asleep ∨ 5 ≤ v.pc.level)) hvps (fun hcomp => ?_) fun j hji hcomp => ?_
    · rw [hsame i rfl] at hcomp ⊢
      exact ⟨(hcompleted hcomp).1, (hcompleted hcomp).2.1⟩
    · by_cases hj : mc.node j = mc.node i
      · rw [hsame j hj] at hcomp ⊢
        exact ⟨(hcompleted hcomp).1, (hcompleted hcomp).2.2 j hji hj⟩
      · rw [hother j hj] at hcomp ⊢
        exact h.completed j hcomp

/-- A step of a vproc that works. -/
theorem Copying.work (h : Copying mc s) (hpc : (s.vps i).pc = pc) (hlevel : pc.level = 4) (hawake : pc ≠ .asleep)
    (hlevel' : v.pc.level = 4) (hvps : s'.vps = update s.vps i v)
    (hnodes : s'.nodes = update s.nodes (mc.node i) hd)
    (hflags : s'.allReadyForGC = s.allReadyForGC ∧ s'.globalGCInProgress = s.globalGCInProgress ∧ s'.numGlobalGCs = s.numGlobalGCs)
    (hrecords : s'.start = s.start ∧ s'.freed = s.freed) (hsts : ∀ c, s'.sts c = .fromSpace ↔ s.sts c = .fromSpace)
    (hfilled : ∀ c ∈ s'.filled s.numGlobalGCs, c ∈ s.filled s.numGlobalGCs ∨ s.sts c ≠ .fromSpace)
    (hsame : hd.completed = (s.nodes (mc.node i)).completed) : Copying mc s' := by
  have hnot : hd.completed ≠ true := by
    rw [hsame]
    intro hcomp
    rcases (h.completed i hcomp).2 with hasleep | h5
    · exact hawake (hpc.symm.trans hasleep)
    · rw [hpc] at h5
      omega
  refine h.change hvps hnodes hflags hrecords hsts hfilled (by omega) ?_ ?_ fun hcomp => absurd hcomp hnot
  · rw [hsame]
    exact id
  · omega

theorem Reclaiming.same {l : Fin n} (h : Reclaiming s l k) (hs : SameHeap s s')
    (hvps : s'.vps = update s.vps i v) (hil : l ≠ i) (hlate : 6 ≤ v.pc.level) : Reclaiming s' l k := by
  refine ⟨hs.allReadyForGC.trans h.ready, hs.globalGCInProgress.trans h.progress, ?_, ?_, ?_, ?_, ?_, ?_⟩
  · rw [hvps, update_of_ne hil]
    exact h.leader
  · exact update_forall s s' (P := fun _ v => 6 ≤ v.pc.level) hvps hlate fun j _ => h.late j
  · rw [hs.nodes]
    exact h.before
  · rw [hs.nodes]
    exact h.after
  · rw [hs.freed, hs.numGlobalGCs, hs.sts, hs.start]
    exact h.account
  · rw [hs.filled, hs.numGlobalGCs, hs.start]
    exact h.filled

/-! ## From one part to the next -/

theorem Pc.held_of_level (h : pc.level ≠ 4) : pc.held = [] := by
  cases pc with
  | scanChunk c => exact absurd rfl h
  | _ => rfl

/-- Nothing is in from-space while a collection is idle. -/
theorem Idle.no_fromSpace (h : Idle s) (hl : Lists s) (c : Nat) : s.sts c ≠ .fromSpace := by
  intro hst
  have hcount := hl.fromSpace c
  rw [hst, State.inFromSpace, Finset.sum_eq_zero fun nd _ => by rw [(h.nodes nd).2]; rfl] at hcount
  cases hcount

/-- When all have converted their chunks, none is a to-space chunk. -/
theorem Setup.no_toSpace (h : Setup mc s) (hl : Lists s) (he : Empty mc s) (hall : ∀ j, 2 ≤ (s.vps j).pc.level)
    (c : Nat) : s.sts c ≠ .toSpace := by
  intro hst
  have hvps : ∀ j, (s.vps j).chunks.count c = 0 := by
    intro j
    have hlow := h.low j
    rw [VProc.chunks, (h.converted j (hall j)).1, Pc.held_of_level (by omega)]
    rfl
  have hnodes : ∀ nd, (s.nodes nd).toSpace.count c = 0 := by
    intro nd
    have hun : (s.nodes nd).unscannedTo = [] := by
      by_cases hv : ∃ j, mc.node j = nd
      · obtain ⟨j, rfl⟩ := hv
        exact (h.converted j (hall j)).2.1
      · exact (he nd fun j hj => hv ⟨j, hj⟩).1
    rw [NodeHeap.toSpace, hun, h.scanned nd]
    rfl
  have hcount := hl.toSpace c
  rw [hst, State.inToSpace, Finset.sum_eq_zero fun j _ => hvps j, Finset.sum_eq_zero fun nd _ => hnodes nd] at hcount
  cases hcount

/-- Through the first barrier. -/
theorem Setup.copying (h : Setup mc s) (hl : Lists s) (he : Empty mc s) (hs : SameHeap s s')
    (hvps : s'.vps = update s.vps i v) (hi : 2 ≤ (s.vps i).pc.level) (hlevel : v.pc.level = 4)
    (hall : ∀ j, j ≠ i → 3 ≤ (s.vps j).pc.level) : Copying mc s' := by
  have hall2 : ∀ j, 2 ≤ (s.vps j).pc.level := by
    grind
  have hno := h.no_toSpace hl he hall2
  have hnot : ∀ j, (s.nodes (mc.node j)).completed ≠ true := by
    intro j
    rw [(h.converted j (hall2 j)).2.2]
    nofun
  refine ⟨hs.allReadyForGC.trans h.ready, hs.globalGCInProgress.trans h.progress, ?_, ?_, ?_, ?_, ?_, ?_⟩
  · refine update_forall s s' (P := fun _ v => 3 ≤ v.pc.level ∧ v.pc.level ≠ 7) hvps (by omega) fun j hj => ?_
    have h3 := hall j hj
    have hlow := h.low j
    omega
  · rw [hs.freed, hs.numGlobalGCs]
    exact h.records.2
  · intro c
    rw [hs.start, hs.numGlobalGCs, hs.sts, h.start c]
    exact ⟨fun hor => hor.resolve_left (hno c), .inr⟩
  · intro c hc
    rw [hs.filled, hs.numGlobalGCs, h.records.1] at hc
    cases hc
  · rw [hs.nodes]
    refine update_forall s s' (P := fun j v => 5 ≤ v.pc.level → (s.nodes (mc.node j)).completed = true) hvps (by omega) fun j hj h5 => ?_
    have hlow := h.low j
    omega
  · rw [hs.nodes]
    exact fun j hcomp => absurd hcomp (hnot j)

/-- The leader goes through the second barrier. -/
theorem Copying.reclaiming (h : Copying mc s) (he : Empty mc s) (hs : SameHeap s s')
    (hvps : s'.vps = update s.vps i v) (hi : 5 ≤ (s.vps i).pc.level) (hpc : v.pc = .reclaim 0)
    (hall : ∀ j, j ≠ i → 6 ≤ (s.vps j).pc.level) : Reclaiming s' i 0 := by
  refine ⟨hs.allReadyForGC.trans h.ready, hs.globalGCInProgress.trans h.progress, ?_, ?_, ?_, ?_, ?_, ?_⟩
  · rw [hvps, update_self, hpc]
  · refine update_forall s s' (P := fun _ v => 6 ≤ v.pc.level) hvps ?_ hall
    rw [hpc]
    decide
  · intro nd hnd
    exact absurd hnd (Nat.not_lt_zero _)
  · intro nd _
    rw [hs.nodes]
    by_cases hv : ∃ j, mc.node j = nd
    · obtain ⟨j, rfl⟩ := hv
      have h5 : 5 ≤ (s.vps j).pc.level := by
        by_cases hj : j = i
        · rw [hj]
          exact hi
        · have h6 := hall j hj
          omega
      exact (h.completed j (h.done j h5)).1
    · exact (he nd fun j hj => hv ⟨j, hj⟩).1
  · intro c
    rw [hs.freed, hs.numGlobalGCs, hs.sts, hs.start, h.freed]
    have hc := h.start c
    by_cases hst : s.sts c = .fromSpace
    · rw [hc.mpr hst, hst]
      rfl
    simp_all
  · rw [hs.filled, hs.numGlobalGCs, hs.start]
    exact h.filled

/-! ## Barriers -/

/-- Into a barrier or through it. -/
theorem stage_barrier (pc : Pc) (h : Stage mc s) (hl : Lists s) (he : Empty mc s)
    (hlow : 3 * b.val + 2 ≤ (s.vps i).pc.level) (hhigh : (s.vps i).pc.level ≤ 3 * b.val + 3)
    (hawake : (s.vps i).pc ≠ .asleep) (hleads : ¬ (s.vps i).pc.Leads)
    (hpc : pc = .inBarrier b ∨ pc = State.afterBarrier (s.vps i).leaderVProc b ∧ ∀ j, j ≠ i → (s.vps j).arrived b = true)
    (hvps : s'.vps = update s.vps i { s.vps i with pc }) (hs : SameHeap s s') : Stage mc s' := by
  obtain ⟨hafter, hafter', -⟩ := afterBarrier_level (s.vps i).leaderVProc b
  have hmono : (s.vps i).pc.level ≤ pc.level := by
    rcases hpc with rfl | ⟨rfl, -⟩
    · exact hhigh
    · omega
  cases h with
  | idle h =>
    refine .idle (h.same ⟨hs.allReadyForGC, hs.globalGCInProgress, hs.numGlobalGCs⟩ ⟨hs.start, hs.filled, hs.freed⟩ ?_ ?_)
    · rw [hs.nodes]
      exact fun _ => ⟨rfl, rfl⟩
    · intro hp
      exact update_forall s s' (P := fun _ v => 6 ≤ v.pc.level) hvps (Nat.le_trans (h.late hp i) hmono) fun j _ => h.late hp j
  | setup h =>
    have hlowi := h.low i
    have hb : b = 0 := Fin.ext (show b.val = 0 by omega)
    subst hb
    rcases hpc with rfl | ⟨rfl, hall⟩
    · exact .setup (h.same hs hvps rfl (Nat.le_refl 3) fun _ => hlow)
    · exact .copying (h.copying hl he hs hvps hlow rfl fun j hj => arrived_iff.mp (hall j hj))
  | copying h =>
    have hlevel := h.levels i
    by_cases h7 : pc.level = 7
    · rcases hpc with rfl | ⟨rfl, hall⟩
      · have hin : (Pc.inBarrier b).level = 3 * b.val + 3 := rfl
        omega
      · have hb : b = 1 := Fin.ext (show b.val = 1 by omega)
        subst hb
        have hreclaim : State.afterBarrier (s.vps i).leaderVProc 1 = .reclaim 0 := by
          cases hlead : (s.vps i).leaderVProc with
          | true => rfl
          | false =>
            rw [hlead] at h7
            cases h7
        exact .reclaiming (h.reclaiming he hs hvps hlow hreclaim fun j hj => arrived_iff.mp (hall j hj))
    · have hkeep : (s.nodes (mc.node i)).completed = true → 5 ≤ (s.vps i).pc.level := fun hcomp =>
        (h.completed i hcomp).2.resolve_left hawake
      refine .copying (h.change hvps (hs.nodes.trans (update_eq_self ..).symm)
        ⟨hs.allReadyForGC, hs.globalGCInProgress, hs.numGlobalGCs⟩ ⟨hs.start, hs.freed⟩ ?_ ?_ ⟨?_, h7⟩ id ?_ ?_)
      · rw [hs.sts]
        exact fun _ => Iff.rfl
      · rw [hs.filled]
        exact fun _ hc => .inl hc
      · exact Nat.le_trans hlevel.1 hmono
      · -- from the first barrier a vproc only gets to phase 2
        intro h5
        refine h.done i ?_
        by_contra hno
        have hb : b = 0 := Fin.ext (show b.val = 0 by omega)
        subst hb
        have h5' : 5 ≤ pc.level := h5
        rcases hpc with rfl | ⟨rfl, -⟩
        · exact absurd h5' (by decide)
        · exact absurd h5' (show ¬ 5 ≤ 4 by decide)
      · intro hcomp
        exact ⟨(h.completed i hcomp).1, .inr (Nat.le_trans (hkeep hcomp) hmono), fun j _ hj =>
          (h.completed j (by rw [hj]; exact hcomp)).2⟩
  | @reclaiming l k h =>
    refine .reclaiming (h.same hs hvps ?_ (Nat.le_trans (h.late i) hmono))
    rintro rfl
    exact hleads (by rw [h.leader]; trivial)

theorem stage_arrive (hc : Control s) (h : Stage mc s) (hl : Lists s) (he : Empty mc s)
    (hpc : (s.vps i).pc = .barrier b) : Stage mc (s.arrive i b) := by
  have hlevel : (s.vps i).pc.level = 3 * b.val + 2 := by rw [hpc]; rfl
  have hrun := hc.running (hc.ready (i := i) (by omega) (by omega))
  have hnot : (s.vps i).arrived b = false := decide_eq_false (by omega)
  refine stage_barrier (i := i) (b := b) (if s.nWaiting b + 1 = n then State.afterBarrier (s.vps i).leaderVProc b else .inBarrier b)
    h hl he (by omega) (by omega) (by rw [hpc]; nofun) (by rw [hpc]; exact id) ?_ rfl ⟨rfl, rfl, rfl, rfl, rfl, rfl, rfl, rfl⟩
  by_cases hn : s.nWaiting b + 1 = n
  · rw [if_pos hn]
    refine .inr ⟨rfl, fun j hj => ?_⟩
    refine all_but_one (fun k => (s.vps k).arrived b) hnot ?_ hj
    rw [← hrun.count b, hn, Fintype.card_fin]
  · rw [if_neg hn]
    exact .inl rfl

theorem stage_depart (hc : Control s) (h : Stage mc s) (hl : Lists s) (he : Empty mc s)
    (hpc : (s.vps i).pc = .inBarrier b) (hn : n ≤ s.nWaiting b) :
    Stage mc (s.setPc i (State.afterBarrier (s.vps i).leaderVProc b)) := by
  have hlevel : (s.vps i).pc.level = 3 * b.val + 3 := by rw [hpc]; rfl
  cases hready : s.allReadyForGC with
  | true =>
    have hrun := hc.running hready
    exact stage_barrier (i := i) (b := b) _ h hl he (by omega) (by omega) (by rw [hpc]; nofun) (by rw [hpc]; exact id)
      (.inr ⟨rfl, fun j _ => hrun.all_arrived hn j⟩) rfl ⟨rfl, rfl, rfl, rfl, rfl, rfl, rfl, rfl⟩
  | false =>
    -- only the last barrier is left while the next collection is entered
    have hafter := (afterBarrier_level (s.vps i).leaderVProc b).1
    have hb : b.val = 2 := by
      by_contra hne
      have hyes := hc.ready (i := i) (by omega) (by omega)
      rw [hready] at hyes
      cases hyes
    have hsix : 6 ≤ (State.afterBarrier (s.vps i).leaderVProc b).level := by omega
    cases h with
    | idle h =>
      refine .idle (h.same ⟨rfl, rfl, rfl⟩ ⟨rfl, rfl, rfl⟩ (fun _ => ⟨rfl, rfl⟩) fun hp => ?_)
      exact update_forall s _ (P := fun _ v => 6 ≤ v.pc.level) rfl hsix fun j _ => h.late hp j
    | setup h | copying h | reclaiming h => exact absurd (hready.symm.trans h.ready) nofun

/-! ## The phases -/

theorem stage_go (hc : Control s) (h : Stage mc s) (hl : Lists s) (hpc : (s.vps i).pc = .leaderCheck)
    (hn : n ≤ s.nReadyForGC) : Stage mc (s.go i) := by
  have hleads : (s.vps i).pc.Leads := by rw [hpc]; trivial
  obtain ⟨-, hround, hp⟩ := hc.leads i hleads
  have hidle := h.idle_of_leads hc hleads (by rw [hpc]; rfl)
  have hunused := hidle.unused hp
  have hall := hc.gathered hpc hn
  have hlow : ∀ j, ((s.go i).vps j).pc.level ≤ 1 :=
    update_forall s (s.go i) (P := fun _ v => v.pc.level ≤ 1) rfl (Nat.le_refl 1) fun j _ => by
      rw [(hall j).2]
      exact Nat.zero_le 1
  refine .setup ⟨rfl, hp, fun j => Nat.le_trans (hlow j) (by decide), fun nd => (hidle.nodes nd).1,
    ⟨hunused.filled, hunused.freed⟩, ?_, ?_⟩
  · intro c
    show update s.start (s.vps i).round _ s.numGlobalGCs c = true ↔ _
    rw [hround, update_self, decide_eq_true_iff]
    exact ⟨.inl, fun hor => hor.resolve_right (hidle.no_fromSpace hl c)⟩
  · intro j h2
    have h1 := hlow j
    omega

theorem stage_convert (h : Setup mc s) (hl : Lists s) (hpc : (s.vps i).pc = .setup) :
    Stage mc (s.convert mc i) := by
  have hsts : ∀ c, (s.convert mc i).sts c = if c ∈ (s.nodes (mc.node i)).unscannedTo then .fromSpace else
      if c ∈ (s.vps i).toSpace then .fromSpace else s.sts c := fun _ => rfl
  have hheld : (s.vps i).chunks = (s.vps i).toSpace := by
    rw [VProc.chunks, hpc]
    exact List.append_nil _
  -- what is converted is in to-space
  have hto : ∀ c, c ∈ (s.nodes (mc.node i)).unscannedTo ∨ c ∈ (s.vps i).toSpace → s.sts c = .toSpace := by
    intro c hmem
    have hle := hl.toSpace_le i (mc.node i) c
    rw [hheld, NodeHeap.toSpace, List.count_append] at hle
    grind
  refine .setup ⟨h.ready, h.progress, ?_, ?_, h.records, ?_, ?_⟩
  · exact update_forall s (s.convert mc i) (P := fun _ v => v.pc.level ≤ 3) rfl (show 2 ≤ 3 by decide) fun j _ => h.low j
  · intro nd
    rw [convert_nodes]
    by_cases hnd : nd = mc.node i
    · rw [hnd, update_self]
      exact h.scanned _
    · rw [update_of_ne hnd]
      exact h.scanned nd
  · intro c
    show s.start s.numGlobalGCs c = true ↔ _
    rw [h.start c, hsts]
    by_cases hu : c ∈ (s.nodes (mc.node i)).unscannedTo
    · rw [if_pos hu, hto c (.inl hu)]
      exact ⟨fun _ => .inr rfl, fun _ => .inl rfl⟩
    grind
  · rw [convert_nodes]
    refine update_forall s (s.convert mc i) (P := fun j v => 2 ≤ v.pc.level → v.toSpace = [] ∧
      (update s.nodes (mc.node i) _ (mc.node j)).unscannedTo = [] ∧
      (update s.nodes (mc.node i) _ (mc.node j)).completed = false) rfl ?_ fun j _ h2 => ?_
    · intro _
      rw [update_self]
      exact ⟨rfl, rfl, rfl⟩
    · obtain ⟨hempty, hun, hcomp⟩ := h.converted j h2
      grind

/-- A new chunk in phase 2. -/
theorem stage_fill (hc : Control s) (h : Stage mc s) (hl : Lists s) (hpc : (s.vps i).pc = pc)
    (hlevel : pc.level = 4) (hawake : pc ≠ .asleep) (hlevel' : v.pc.level = 4)
    (hvps : s'.vps = update s.vps i v) (hs : SameHeap (s.fill mc i) s') : Stage mc s' := by
  have hround : (s.vps i).round = s.numGlobalGCs :=
    (hc.running (hc.ready (i := i) (by rw [hpc]; omega) (by rw [hpc]; omega))).round i
  have hfree := hl.nextChunk_free mc i
  refine .copying ((h.copying_of hc (i := i) (by rw [hpc]; exact .inl hlevel)).work hpc hlevel hawake hlevel' hvps
    (hs.nodes.trans rfl) ⟨hs.allReadyForGC, hs.globalGCInProgress, hs.numGlobalGCs⟩ ⟨hs.start, hs.freed⟩ ?_ ?_ rfl)
  · intro c
    rw [hs.sts]
    show update s.sts (s.nextChunk mc i) .toSpace c = _ ↔ _
    by_cases hnext : c = s.nextChunk mc i
    · rw [hnext, update_self, hfree]
      exact iff_of_false nofun nofun
    · rw [update_of_ne hnext]
  · intro c hmem
    rw [hs.filled] at hmem
    have hmem' : c ∈ update s.filled (s.vps i).round _ s.numGlobalGCs := hmem
    rw [hround, update_self, List.mem_append, List.mem_singleton] at hmem'
    grind

theorem stage_reclaim (hk : k < m) (hc : Control s) (h : Stage mc s) (hl : Lists s)
    (hpc : (s.vps i).pc = .reclaim k) : Stage mc ((s.reclaim i ⟨k, hk⟩).setPc i (.reclaim (k + 1))) := by
  have hrec := h.reclaiming_of hc hpc
  have hround : (s.vps i).round = s.numGlobalGCs := (hc.leads i (by rw [hpc]; trivial)).2.1
  refine .reclaiming (l := i) (k := k + 1) ⟨hrec.ready, hrec.progress, ?_, ?_, ?_, ?_, ?_, hrec.filled⟩
  · show (update s.vps i _ i).pc = _
    rw [update_self]
  · refine update_forall s _ (P := fun _ v => 6 ≤ v.pc.level) (setPc_vps (update_eq_self ..).symm _) ?_ fun j _ => hrec.late j
    exact (show 6 ≤ 7 by decide)
  · intro nd hnd
    show (update s.nodes _ _ nd).fromSpace = [] ∧ (update s.nodes _ _ nd).scannedTo = []
    by_cases hlt : nd.val < k
    · rw [update_of_ne fun he => by rw [he] at hlt; exact Nat.lt_irrefl _ hlt]
      exact hrec.before nd hlt
    grind
  · intro nd hnd
    show (update s.nodes _ _ nd).unscannedTo = []
    rw [update_of_ne fun he => by rw [he] at hnd; exact Nat.not_succ_le_self k hnd]
    exact hrec.after nd (by omega)
  · intro c
    have hold := hrec.account c
    have hle := hl.fromSpace_le ⟨k, hk⟩ c
    show (update s.freed (s.vps i).round _ s.numGlobalGCs).count c +
      (decide ((if c ∈ (s.nodes ⟨k, hk⟩).fromSpace then Status.free else s.sts c) = .fromSpace)).toNat = _
    rw [hround, update_self, List.count_append]
    by_cases hmem : c ∈ (s.nodes ⟨k, hk⟩).fromSpace
    · obtain ⟨hst, hone⟩ := pos_of_le_toNat hle (List.count_pos_iff.mpr hmem)
      rw [hst] at hold
      rw [if_pos hmem, hone]
      exact hold
    · rw [if_neg hmem, List.count_eq_zero_of_not_mem hmem]
      exact hold

theorem stage_finish (hk : m ≤ k) (hc : Control s) (h : Stage mc s) (hl : Lists s) (hpc : (s.vps i).pc = .reclaim k)
    : Stage mc (s.finish mc i) := by
  have hrec := h.reclaiming_of hc hpc
  have hno : ∀ c, s.sts c ≠ .fromSpace := by
    intro c hst
    have hcount := hl.fromSpace c
    rw [hst, State.inFromSpace, Finset.sum_eq_zero fun nd _ => by
      rw [(hrec.before nd (Nat.lt_of_lt_of_le nd.isLt hk)).1]
      rfl] at hcount
    cases hcount
  refine .idle ⟨.inr rfl, ?_, ?_, (by rintro ⟨⟩), ?_⟩
  · intro _
    exact update_forall s (s.finish mc i) (P := fun _ v => 6 ≤ v.pc.level) rfl (show 6 ≤ 8 by decide) fun j _ => hrec.late j
  · intro nd
    exact (hrec.before nd (Nat.lt_of_lt_of_le nd.isLt hk)).symm
  · intro _
    refine ⟨fun c => ?_, hrec.filled⟩
    have hacc := hrec.account c
    rw [decide_eq_false (hno c)] at hacc
    exact hacc

theorem stage_act (hc : Control s) (hl : Lists s) (hw : Waiting mc s) (he : Empty mc s) (hr : Rounds s)
    (h : Stage mc s) (hact : Act mc s i s') : Stage mc s' := by
  have hsame : ∀ nd, (s.nodes nd).scannedTo = (s.nodes nd).scannedTo ∧ (s.nodes nd).fromSpace = (s.nodes nd).fromSpace :=
    fun _ => ⟨rfl, rfl⟩
  have hnode {v : NodeHeap} (h1 : v.scannedTo = (s.nodes (mc.node i)).scannedTo)
      (h2 : v.fromSpace = (s.nodes (mc.node i)).fromSpace) (nd) : (update s.nodes (mc.node i) v nd).scannedTo =
        (s.nodes nd).scannedTo ∧ (update s.nodes (mc.node i) v nd).fromSpace = (s.nodes nd).fromSpace := by
    by_cases hnd : nd = mc.node i
    · rw [hnd, update_self]
      exact ⟨h1, h2⟩
    · rw [update_of_ne hnd]
      exact ⟨rfl, rfl⟩
  have hleader (hleads : (s.vps i).pc.Leads) (h0 : (s.vps i).pc.level = 0) :
      Idle s ∧ s.globalGCInProgress ≠ false := by
    refine ⟨h.idle_of_leads hc hleads h0, ?_⟩
    rw [(hc.leads i hleads).2.2]
    nofun
  cases hact with
  | alloc hpc =>
    have hidle := h.idle_of_out hc (i := i) (by rw [hpc]; rfl)
    refine .idle (hidle.same ⟨rfl, rfl, rfl⟩ ⟨rfl, rfl, rfl⟩ (fun nd => ?_) fun hp => ?_)
    · show (update s.nodes _ _ nd).scannedTo = _ ∧ (update s.nodes _ _ nd).fromSpace = _
      exact hnode (by rfl) (by rfl) nd
    · exact update_forall s (s.allocToSpaceChunk mc i) (P := fun _ v => 6 ≤ v.pc.level) rfl (hidle.late hp i) fun j _ => hidle.late hp j
  | pushMutator hpc =>
    have hidle := h.idle_of_out hc (i := i) (by rw [hpc]; rfl)
    refine .idle (hidle.same ⟨rfl, rfl, rfl⟩ ⟨rfl, rfl, rfl⟩ (fun nd => ?_) fun hp => ?_)
    · show (update s.nodes _ _ nd).scannedTo = _ ∧ (update s.nodes _ _ nd).fromSpace = _
      exact hnode (by rfl) (by rfl) nd
    · exact update_forall s (s.pushToSpaceChunks mc i) (P := fun _ v => 6 ≤ v.pc.level) rfl (hidle.late hp i) fun j _ => hidle.late hp j
  | enter hpc =>
    have hidle := h.idle_of_out hc (i := i) (by rw [hpc]; rfl)
    refine .idle (hidle.same ⟨rfl, rfl, rfl⟩ ⟨rfl, rfl, rfl⟩ hsame fun hp => ?_)
    exact update_forall s _ (P := fun _ v => 6 ≤ v.pc.level) rfl (show 6 ≤ 10 by decide) fun j _ => hidle.late hp j
  | lead hpc hlock hprogress =>
    have hidle := h.idle_of_out hc (i := i) (by rw [hpc]; rfl)
    exact .idle ⟨.inl rfl, nofun, hidle.nodes, fun _ => (hr.future _ (Nat.lt_succ_self _)).same rfl rfl rfl, nofun⟩
  | follow hpc hlock hprogress =>
    have hidle := h.idle_of_out hc (i := i) (by rw [hpc]; rfl)
    refine .idle (hidle.same ⟨rfl, rfl, rfl⟩ ⟨rfl, rfl, rfl⟩ hsame fun hp => ?_)
    rw [hprogress] at hp
    cases hp
  | @interrupt k hk hpc =>
    obtain ⟨hidle, hlate⟩ := hleader (by rw [hpc]; trivial) (by rw [hpc]; rfl)
    have hint : s.interrupt i ⟨k, hk⟩ = s ∨ s.interrupt i ⟨k, hk⟩ =
        s.setVp ⟨k, hk⟩ { s.vps ⟨k, hk⟩ with globalGCPending := true } := ite_eq_or_eq ..
    refine .idle ?_
    rcases hint with heq | heq
    · rw [heq]
      exact hidle.same ⟨rfl, rfl, rfl⟩ ⟨rfl, rfl, rfl⟩ hsame fun hno => absurd hno hlate
    · rw [heq]
      exact hidle.same ⟨rfl, rfl, rfl⟩ ⟨rfl, rfl, rfl⟩ hsame fun hno => absurd hno hlate
  | interrupted hpc | leaderWait hpc | leaderWake hpc =>
    obtain ⟨hidle, hlate⟩ := hleader (by rw [hpc]; trivial) (by rw [hpc]; rfl)
    exact .idle (hidle.same ⟨rfl, rfl, rfl⟩ ⟨rfl, rfl, rfl⟩ hsame fun hno => absurd hno hlate)
  | go hpc hn => exact stage_go hc h hl hpc hn
  | followerWake hpc _ hready =>
    have hsetup := h.setup_of_low (i := i) hready (by rw [hpc]; exact Nat.zero_le 2)
    exact .setup (hsetup.same ⟨rfl, rfl, rfl, rfl, rfl, rfl, rfl, rfl⟩ rfl rfl (show 1 ≤ 3 by decide)
      fun h2 => absurd h2 (show ¬ 2 ≤ 1 by decide))
  | convert hpc =>
    have hready := hc.ready (i := i) (by rw [hpc]; decide) (by rw [hpc]; decide)
    exact stage_convert (h.setup_of_low (i := i) hready (by rw [hpc]; decide)) hl hpc
  | arrive hpc => exact stage_arrive hc h hl he hpc
  | depart hpc hn => exact stage_depart hc h hl he hpc hn
  | first hpc =>
    exact stage_fill hc h hl hpc rfl nofun rfl (setPc_vps (fill_vps mc s i) .roots) ⟨rfl, rfl, rfl, rfl, rfl, rfl, rfl, rfl⟩
  | copy hpc =>
    have hlevel : (s.vps i).pc.level = 4 := by
      cases hcases : (s.vps i).pc with
      | roots | scanAlloc | scanChunk => rfl
      | _ =>
        rw [hcases] at hpc
        exact hpc.elim
    refine stage_fill hc h hl rfl hlevel hpc.ne_asleep ?_ (fill_vps mc s i) ⟨rfl, rfl, rfl, rfl, rfl, rfl, rfl, rfl⟩
    exact hlevel
  | roots hpc | getAlloc hpc | endAlloc hpc =>
    exact .copying ((h.copying_of hc (i := i) (by rw [hpc]; exact .inl rfl)).work hpc rfl nofun rfl rfl
      (update_eq_self ..).symm ⟨rfl, rfl, rfl⟩ ⟨rfl, rfl⟩ (fun _ => Iff.rfl) (fun _ => .inl) rfl)
  | push hpc =>
    exact .copying ((h.copying_of hc (i := i) (by rw [hpc]; exact .inl rfl)).work hpc rfl nofun rfl
      (setPc_vps (pushToSpaceChunks_vps mc s i) .getNext) rfl ⟨rfl, rfl, rfl⟩ ⟨rfl, rfl⟩ (fun _ => Iff.rfl) (fun _ => .inl) rfl)
  | getChunk hpc | getWait hpc | endSwitched hpc | endChunk hpc =>
    exact .copying ((h.copying_of hc (i := i) (by rw [hpc]; exact .inl rfl)).work hpc rfl nofun rfl rfl rfl ⟨rfl, rfl, rfl⟩
      ⟨rfl, rfl⟩ (fun _ => Iff.rfl) (fun _ => .inl) rfl)
  | getLast hpc hnone hlast =>
    refine .copying ((h.copying_of hc (i := i) (by rw [hpc]; exact .inl rfl)).change rfl rfl ⟨rfl, rfl, rfl⟩ ⟨rfl, rfl⟩
      (fun _ => Iff.rfl) (fun _ => .inl) ⟨show 3 ≤ 5 by decide, show 5 ≠ 7 by decide⟩ (fun _ => rfl) (fun _ => rfl) fun _ => ?_)
    refine ⟨hnone, .inr (Nat.le_refl 5), fun j hj hnode => .inl ?_⟩
    exact hw.others (by rw [hpc]; nofun) hlast hj hnode
  | getCompleted hpc _ hcomp =>
    have hcopying := h.copying_of hc (i := i) (by rw [hpc]; exact .inl rfl)
    rcases (hcopying.completed i hcomp).2 with hasleep | h5
    · rw [hpc] at hasleep
      cases hasleep
    · rw [hpc] at h5
      exact absurd h5 (by decide)
  | wake hpc =>
    have hcopying := h.copying_of hc (i := i) (by rw [hpc]; exact .inl rfl)
    cases hcomp : (s.nodes (mc.node i)).completed with
    | true =>
      refine .copying (hcopying.change rfl rfl ⟨rfl, rfl, rfl⟩ ⟨rfl, rfl⟩ (fun _ => Iff.rfl) (fun _ => .inl)
        ⟨show 3 ≤ 5 by decide, show 5 ≠ 7 by decide⟩ id (fun _ => hcomp) fun _ => ?_)
      exact ⟨(hcopying.completed i hcomp).1, .inr (Nat.le_refl 5), fun j _ hnode =>
        (hcopying.completed j (by rw [hnode]; exact hcomp)).2⟩
    | false =>
      refine .copying (hcopying.change rfl rfl ⟨rfl, rfl, rfl⟩ ⟨rfl, rfl⟩ (fun _ => Iff.rfl) (fun _ => .inl)
        ⟨show 3 ≤ 4 by decide, show 4 ≠ 7 by decide⟩ id (fun h5 => absurd h5 (show ¬ 5 ≤ 4 by decide)) fun hyes => ?_)
      exact absurd (hcomp.symm.trans hyes) nofun
  | @reclaim k hk hpc => exact stage_reclaim hk hc h hl hpc
  | finish hpc hk => exact stage_finish hk hc h hl hpc

/-! ## The records and the nodes without a vproc -/

theorem Rounds.same (h : Rounds s) (hg : s'.numGlobalGCs = s.numGlobalGCs)
    (hrecords : ∀ r, r ≠ s.numGlobalGCs → s'.start r = s.start r ∧ s'.filled r = s.filled r ∧ s'.freed r = s.freed r)
    : Rounds s' := by
  refine ⟨?_, ?_⟩
  · intro r hr
    rw [hg] at hr
    obtain ⟨hstart, hfilled, hfreed⟩ := hrecords r (Nat.ne_of_lt hr)
    exact (h.past r hr).same hstart hfilled hfreed
  · intro r hr
    rw [hg] at hr
    obtain ⟨hstart, hfilled, hfreed⟩ := hrecords r (Nat.ne_of_gt hr)
    exact (h.future r hr).same hstart hfilled hfreed

/-- Whoever works in a collection has entered the last one. -/
theorem Control.round_of (hc : Control s) (h0 : (s.vps i).pc.level ≠ 0) (h9 : (s.vps i).pc.level < 9) :
    (s.vps i).round = s.numGlobalGCs :=
  (hc.running (hc.ready h0 h9)).round i

theorem rounds_act (hc : Control s) (h : Stage mc s) (hr : Rounds s) (hact : Act mc s i s') : Rounds s' := by
  have hnone : ∀ r, r ≠ s.numGlobalGCs → s.start r = s.start r ∧ s.filled r = s.filled r ∧ s.freed r = s.freed r :=
    fun _ _ => ⟨rfl, rfl, rfl⟩
  have hfill : (s.vps i).pc.level = 4 → ∀ r, r ≠ s.numGlobalGCs →
      s.start r = s.start r ∧ (s.fill mc i).filled r = s.filled r ∧ s.freed r = s.freed r := by
    intro hlevel r hne
    refine ⟨rfl, ?_, rfl⟩
    show update s.filled (s.vps i).round _ r = _
    rw [hc.round_of (by omega) (by omega), update_of_ne hne]
  cases hact with
  | lead hpc hlock hprogress =>
    have hidle := h.idle_of_out hc (i := i) (by rw [hpc]; rfl)
    refine ⟨fun r hlt => ?_, fun r hlt => ?_⟩
    · have hle : r ≤ s.numGlobalGCs := Nat.le_of_lt_succ hlt
      rcases Nat.lt_or_eq_of_le hle with hlt' | rfl
      · exact (hr.past r hlt').same rfl rfl rfl
      · exact (hidle.settled hprogress).same rfl rfl rfl
    · exact (hr.future r (Nat.lt_of_succ_lt hlt)).same rfl rfl rfl
  | go hpc hn =>
    refine hr.same rfl fun r hne => ⟨?_, rfl, rfl⟩
    show update s.start (s.vps i).round _ r = _
    rw [(hc.leads i (by rw [hpc]; trivial)).2.1, update_of_ne hne]
  | first hpc => exact hr.same rfl (hfill (by rw [hpc]; rfl))
  | copy hpc =>
    refine hr.same rfl (hfill ?_)
    cases hcases : (s.vps i).pc with
    | roots => rfl
    | scanAlloc => rfl
    | scanChunk c => rfl
    | _ =>
      rw [hcases] at hpc
      exact hpc.elim
  | reclaim hpc =>
    refine hr.same rfl fun r hne => ⟨rfl, rfl, ?_⟩
    show update s.freed (s.vps i).round _ r = _
    rw [(hc.leads i (by rw [hpc]; trivial)).2.1, update_of_ne hne]
  | @interrupt k hk hpc =>
    have hint : s.interrupt i ⟨k, hk⟩ = s ∨ s.interrupt i ⟨k, hk⟩ =
        s.setVp ⟨k, hk⟩ { s.vps ⟨k, hk⟩ with globalGCPending := true } := ite_eq_or_eq ..
    rcases hint with heq | heq
    · rw [heq]
      exact hr.same rfl hnone
    · rw [heq]
      exact hr.same rfl hnone
  | _ => exact hr.same rfl hnone

theorem Empty.change (h : Empty mc s) (hnodes : s'.nodes = update s.nodes (mc.node i) hd) :
    Empty mc s' := by
  intro nd hnd
  rw [hnodes, update_of_ne (fun he => hnd i he.symm)]
  exact h nd hnd

theorem Empty.same (h : Empty mc s) (hnodes : s'.nodes = s.nodes) : Empty mc s' := by
  unfold Empty
  rw [hnodes]
  exact h

theorem empty_act (h : Empty mc s) (hact : Act mc s i s') : Empty mc s' := by
  cases hact with
  | alloc | pushMutator | first | getChunk | getLast | endSwitched | endChunk | copy | push | getWait | wake => exact h.change (i := i) rfl
  | convert _ => exact h.change (convert_nodes mc s i)
  | @reclaim k hk _ =>
    intro nd hnd
    show (update s.nodes _ _ nd).unscannedTo = [] ∧ (update s.nodes _ _ nd).scannedTo = []
    by_cases hk' : nd = ⟨k, hk⟩
    · rw [hk', update_self]
      exact ⟨(h _ (hk' ▸ hnd)).2, rfl⟩
    · rw [update_of_ne hk']
      exact h nd hnd
  | @interrupt k hk _ =>
    refine h.same ?_
    show (s.interrupt i ⟨k, hk⟩).nodes = _
    unfold State.interrupt
    split
    · rfl
    · rfl
  | _ => exact h.same rfl

theorem heap_act (hc : Control s) (h : Heap mc s) (hact : Act mc s i s') : Heap mc s' := by
  have hnone : ∀ k (hk : k < m), (s.vps i).pc = .reclaim k → (s.nodes ⟨k, hk⟩).unscannedTo = [] := fun k _ hpc =>
    (h.stage.reclaiming_of hc hpc).after _ (Nat.le_refl k)
  exact ⟨lists_act h.lists hnone hact, waiting_act h.waiting hact, empty_act h.empty hact,
    rounds_act hc h.stage h.rounds hact, stage_act hc h.lists h.waiting h.empty h.rounds h.stage hact⟩

end Manticore.ParallelRt.GlobalGC
