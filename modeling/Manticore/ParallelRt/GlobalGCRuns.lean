/-
  Manticore.ParallelRt.GlobalGCRuns — what holds of the global collections in every run.

  - `startGlobalGC_safe`: whatever the vprocs do and in whatever order, a collection has one leader, the vprocs go through
    its phases together, chunks are converted and freed only when nobody can be scanning, and a collection that is over
    has freed each chunk that it started with once, and none that it filled.
  - `startGlobalGC_safe_one`: a whole collection by a single vproc.
  - `chunks_listed_once`: a chunk is in one list at any time.
-/

import Manticore.ParallelRt.GlobalGCHeap

namespace Manticore.ParallelRt.GlobalGC

variable {n m : Nat} {mc : Machine n m}

/-- Past the leader's "go", and not yet through the last barrier. -/
def Pc.InPhases : Pc → Prop
  | .setup => True
  | .barrier _ => True
  | .inBarrier _ => True
  | .first => True
  | .roots => True
  | .push => True
  | .getNext => True
  | .scanAlloc => True
  | .scanChunk _ => True
  | .asleep => True
  | .reclaim _ => True
  | _ => False

/-- In `GlobalGC`, which scans the roots and the chunks. -/
def Pc.Scans : Pc → Prop
  | .roots => True
  | .push => True
  | .getNext => True
  | .scanAlloc => True
  | .scanChunk _ => True
  | .asleep => True
  | _ => False

/-- Has the leader ended phase 4 of the collection `r`? -/
def State.Over (s : State n m) (r : Nat) : Prop := r < s.numGlobalGCs ∨ r = s.numGlobalGCs ∧ s.globalGCInProgress = false

theorem Pc.InPhases.level {pc : Pc} (h : pc.InPhases) : 1 ≤ pc.level ∧ pc.level ≤ 9 := by
  cases pc with
  | barrier b =>
    show 1 ≤ 3 * b.val + 2 ∧ 3 * b.val + 2 ≤ 9
    omega
  | inBarrier b =>
    show 1 ≤ 3 * b.val + 3 ∧ 3 * b.val + 3 ≤ 9
    omega
  | mutator | lockGC | leaderWait | followerWait | interrupt | leaderCheck => exact h.elim
  | scanChunk c => exact ⟨show 1 ≤ 4 by decide, show 4 ≤ 9 by decide⟩
  | reclaim k => exact ⟨show 1 ≤ 7 by decide, show 7 ≤ 9 by decide⟩
  | _ => exact ⟨by decide, by decide⟩

theorem Pc.Scans.level {pc : Pc} (h : pc.Scans) : pc.level = 4 := by
  cases pc with
  | roots | push | getNext | scanAlloc | scanChunk | asleep => rfl
  | _ => exact h.elim

/-! ## Every run -/

variable {s : State n m} {i : Fin n} {s' : State n m}

theorem reachable_inv (h : Reachable mc s) : Control s ∧ Heap mc s := by
  obtain ⟨s₀, hstart, hrun⟩ := h
  induction hrun with
  | refl => exact ⟨control_start hstart, heap_start hstart⟩
  | tail _ hstep ih =>
    obtain ⟨i, hact⟩ := hstep
    exact ⟨control_act ih.1 hact, heap_act ih.1 ih.2 hact⟩

/-- Nobody is behind a vproc that is in the phases of a collection. -/
theorem Control.all_entered (hc : Control s) (hphase : (s.vps i).pc.InPhases) (j : Fin n) :
    (s.vps i).round ≤ (s.vps j).round := by
  obtain ⟨h1, h9⟩ := hphase.level
  cases hready : s.allReadyForGC with
  | true =>
    have hrun := hc.running hready
    rw [hrun.round i, hrun.round j]
  | false =>
    cases hprogress : s.globalGCInProgress with
    | false =>
      have hinit := hc.initial hready hprogress i
      omega
    | true =>
      -- the vproc is in the last barrier of the collection before the one that is entered
      have hgather := (hc.gathering hready hprogress).1
      grind

/-- The account of any collection, over or not. -/
theorem Heap.account (h : Heap mc s) (r c : Nat) :
    (s.freed r).count c ≤ (s.start r c).toNat ∧ (c ∈ s.filled r → s.start r c = false) := by
  have hsettled : Settled s r → (s.freed r).count c ≤ (s.start r c).toNat ∧ (c ∈ s.filled r → s.start r c = false) :=
    fun hs => ⟨Nat.le_of_eq (hs.freed c), hs.filled c⟩
  have hunused : Unused s r → (s.freed r).count c ≤ (s.start r c).toNat ∧ (c ∈ s.filled r → s.start r c = false) :=
    fun hu => ⟨by rw [hu.freed]; exact Nat.zero_le _, fun _ => hu.start c⟩
  rcases Nat.lt_trichotomy r s.numGlobalGCs with hlt | rfl | hgt
  · exact hsettled (h.rounds.past r hlt)
  · cases h.stage with
    | idle hi =>
      cases hp : s.globalGCInProgress with
      | true => exact hunused (hi.unused hp)
      | false => exact hsettled (hi.settled hp)
    | setup hs =>
      rw [hs.records.1, hs.records.2]
      exact ⟨Nat.zero_le _, nofun⟩
    | copying hcopy =>
      rw [hcopy.freed]
      exact ⟨Nat.zero_le _, hcopy.filled c⟩
    | reclaiming hrec =>
      have hacc := hrec.account c
      exact ⟨by omega, hrec.filled c⟩
  · exact hunused (h.rounds.future r hgt)

theorem Heap.settled (h : Heap mc s) {r : Nat} (hover : s.Over r) : Settled s r := by
  rcases hover with hlt | ⟨rfl, hp⟩
  · exact h.rounds.past r hlt
  · have hno : s.globalGCInProgress ≠ true := by
      rw [hp]
      nofun
    cases h.stage with
    | idle hi => exact hi.settled hp
    | setup hs | copying hs | reclaiming hs => exact absurd hs.progress hno

/-- Only the leader's reclaiming makes a chunk free. -/
theorem frees {c : Nat} (hact : Act mc s i s') (hbefore : s.sts c ≠ .free) (hafter : s'.sts c = .free) :
    ∃ k, (s.vps i).pc = .reclaim k := by
  have halloc : (Function.update s.sts (s.nextChunk mc i) .toSpace) c ≠ .free := by
    rw [Function.update_apply]
    split
    · nofun
    · exact hbefore
  cases hact with
  | alloc | first | copy => exact absurd hafter halloc
  | convert _ =>
    have hconv : (if c ∈ (s.nodes (mc.node i)).unscannedTo then Status.fromSpace else
        if c ∈ (s.vps i).toSpace then Status.fromSpace else s.sts c) = .free := hafter
    grind
  | @interrupt k hk _ =>
    have hint : (s.interrupt i ⟨k, hk⟩).sts = s.sts := by
      unfold State.interrupt
      split
      · rfl
      · rfl
    exact absurd (hint ▸ hafter) hbefore
  | reclaim hpc => exact ⟨_, hpc⟩
  | _ => exact absurd hafter hbefore

/-- Only phase 1 makes a chunk a from-space chunk. -/
theorem converts {c : Nat} (hact : Act mc s i s') (hbefore : s.sts c ≠ .fromSpace) (hafter : s'.sts c = .fromSpace)
    : (s.vps i).pc = .setup := by
  have halloc : (Function.update s.sts (s.nextChunk mc i) .toSpace) c ≠ .fromSpace := by
    rw [Function.update_apply]
    split
    · nofun
    · exact hbefore
  cases hact with
  | alloc | first | copy => exact absurd hafter halloc
  | convert hpc => exact hpc
  | @interrupt k hk _ =>
    have hint : (s.interrupt i ⟨k, hk⟩).sts = s.sts := by
      unfold State.interrupt
      split
      · rfl
      · rfl
    exact absurd (hint ▸ hafter) hbefore
  | @reclaim k hk _ =>
    have hrec : (if c ∈ (s.nodes ⟨k, hk⟩).fromSpace then Status.free else s.sts c) = .fromSpace := hafter
    split at hrec
    · cases hrec
    · exact absurd hrec hbefore
  | _ => exact absurd hafter hbefore

/-! ## The collections -/

structure Safe (mc : Machine n m) (s : State n m) : Prop where
  leader : ∀ r, 1 ≤ r → r ≤ s.numGlobalGCs → ∃ l, s.leaders r = [l]
  /-- No other collection has been entered. -/
  entered : ∀ i, (s.vps i).round ≤ s.numGlobalGCs
  all_entered : ∀ i j, (s.vps i).pc.InPhases → (s.vps i).round ≤ (s.vps j).round
  /-- Chunks are converted and scanned only when all have entered. -/
  converts : ∀ i s' c, Act mc s i s' → s.sts c ≠ .fromSpace → s'.sts c = .fromSpace →
    ∀ j, (s.vps j).round = (s.vps i).round
  scans : ∀ i, (s.vps i).pc.Scans → ∀ j, (s.vps j).round = (s.vps i).round
  frees : ∀ i s' c, Act mc s i s' → s.sts c ≠ .free → s'.sts c = .free → ∀ j, ¬ (s.vps j).pc.Scans
  once : ∀ r c, s.Over r → s.start r c = true → (s.freed r).count c = 1
  /-- Nothing else is freed, and nothing twice, also while the collection is under way. -/
  account : ∀ r c, (s.freed r).count c ≤ (s.start r c).toNat
  filled : ∀ r c, c ∈ s.filled r → c ∉ s.freed r
  one_at_a_time : ∀ i j, (s.vps i).pc.InPhases → (s.vps j).pc.InPhases → (s.vps i).round = (s.vps j).round

theorem startGlobalGC_safe {s : State n m} (h : Reachable mc s) : Safe mc s := by
  obtain ⟨hc, hheap⟩ := reachable_inv h
  refine ⟨fun r => (hc.leaders r).1, ?_, fun i j hi => hc.all_entered hi j, ?_, ?_, ?_, ?_, fun r c => (hheap.account r c).1,
    ?_, ?_⟩
  · intro i
    cases hready : s.allReadyForGC with
    | true => exact Nat.le_of_eq ((hc.running hready).round i)
    | false =>
      cases hprogress : s.globalGCInProgress with
      | false => exact Nat.le_of_eq (hc.initial hready hprogress i).2
      | true =>
        rcases (hc.gathering hready hprogress).1 i with ⟨hr, -⟩ | ⟨hr, -⟩
        · omega
        · omega
  · intro i s' c hact hbefore hafter
    have hpc := converts hact hbefore hafter
    exact hc.together (by rw [hpc]; decide) (by rw [hpc]; decide)
  · intro i hscan
    have hlevel := hscan.level
    exact hc.together (by omega) (by omega)
  · intro i s' c hact hbefore hafter j hscan
    obtain ⟨k, hpc⟩ := frees hact hbefore hafter
    have hlate := (hheap.stage.reclaiming_of hc hpc).late j
    have hlevel := hscan.level
    omega
  · intro r c hover hstart
    rw [(hheap.settled hover).freed c, hstart]
    rfl
  · intro r c hfilled hfreed
    obtain ⟨hle, hnot⟩ := hheap.account r c
    rw [hnot hfilled] at hle
    exact absurd (List.count_pos_iff.mpr hfreed) (Nat.not_lt.mpr hle)
  · intro i j hi hj
    exact Nat.le_antisymm (hc.all_entered hi j) (hc.all_entered hj i)

theorem Reachable.step (h : Reachable mc s) (hact : Act mc s i s') : Reachable mc s' := by
  obtain ⟨s₀, hstart, hrun⟩ := h
  exact ⟨s₀, hstart, hrun.tail ⟨i, hact⟩⟩

/-- A single vproc, which is over its limit at once. -/
def oneVProc : Machine 1 1 := ⟨id, 4, 5, 4, 1⟩

def oneStart : State 1 1 where
  vps := fun _ => ⟨.mutator, false, false, [0], 0⟩
  nodes := fun _ => ⟨[], [], [], [], 0, false⟩
  sts := fun c => if c < 1 then .toSpace else .free
  nChunks := 1
  gcLock := none
  nReadyForGC := 0
  allReadyForGC := false
  globalGCInProgress := false
  numGlobalGCs := 0
  nWaiting := fun _ => 0
  toSpaceSz := 4
  toSpaceLimit := 1
  leaders := fun _ => []
  start := fun _ _ => false
  filled := fun _ => []
  freed := fun _ => []

theorem oneStart_start : Start oneStart :=
  ⟨fun i => ⟨rfl, by rw [Subsingleton.elim i 0]; rfl, rfl⟩, fun _ => ⟨rfl, rfl, rfl, rfl, rfl⟩, rfl, fun _ => rfl, rfl, rfl, rfl, rfl,
    fun _ => ⟨rfl, rfl, rfl, fun _ => rfl⟩⟩

theorem startGlobalGC_safe_one : ∃ s : State 1 1, Reachable oneVProc s ∧ s.Over 1 ∧ s.start 1 0 = true ∧
    s.leaders 1 = [0] ∧ (s.vps 0).toSpace = [1] ∧ (s.freed 1).count 0 = 1 := by
  have h0 : Reachable oneVProc oneStart := ⟨_, oneStart_start, .refl⟩
  have hin := (h0.step (i := 0) (.enter rfl (Nat.le_refl 1) (.inr (show 1 ≤ 4 by decide)))).step (i := 0) (.lead rfl rfl rfl)
  have hall := (hin.step (@Act.interrupt 1 1 oneVProc _ 0 0 Nat.one_pos rfl)).step (i := 0) (.interrupted rfl (Nat.le_refl 1))
  have hgo := hall.step (i := 0) (.go rfl (Nat.le_refl 1))
  have hcopy := ((hgo.step (i := 0) (.convert rfl)).step (i := 0) (.arrive rfl)).step (i := 0) (.first rfl)
  have hscan := (hcopy.step (i := 0) (.roots rfl)).step (i := 0) (.push rfl)
  have hlast := (hscan.step (i := 0) (.getLast rfl rfl rfl)).step (i := 0) (.arrive rfl)
  have hdone := (hlast.step (@Act.reclaim 1 1 oneVProc _ 0 0 Nat.one_pos rfl)).step (i := 0) (.finish rfl (Nat.le_refl 1))
  exact ⟨_, hdone, .inr ⟨rfl, rfl⟩, rfl, rfl, rfl, (startGlobalGC_safe hdone).once 1 0 (.inr ⟨rfl, rfl⟩) rfl⟩

/-- Each chunk that exists is in one list, and once, and outside the phases of a collection in no from-space list. -/
theorem chunks_listed_once (h : Reachable mc s) (c : Nat) :
    s.inToSpace c + s.inFromSpace c + s.inFree c = (decide (c < s.nChunks)).toNat ∧
      (s.allReadyForGC = false ∨ s.globalGCInProgress = false → s.inFromSpace c = 0) := by
  obtain ⟨-, hheap⟩ := reachable_inv h
  refine ⟨?_, fun hrest => ?_⟩
  · have hfresh := hheap.lists.fresh c
    rw [hheap.lists.toSpace, hheap.lists.fromSpace, hheap.lists.free]
    cases hs : s.sts c with
    | free => simp
    | toSpace | fromSpace =>
      have hlt : c < s.nChunks := by grind
      simp [hlt]
  · cases hheap.stage with
    | idle hi => exact Finset.sum_eq_zero fun nd _ => by rw [(hi.nodes nd).2, List.count_nil]
    | setup hp | copying hp | reclaiming hp => simp [hp.ready, hp.progress] at hrest

theorem chunks_listed_once_start : oneStart.inToSpace 0 + oneStart.inFromSpace 0 + oneStart.inFree 0 = 1 :=
  (@chunks_listed_once 1 1 oneVProc _ ⟨_, oneStart_start, .refl⟩ 0).1

end Manticore.ParallelRt.GlobalGC
