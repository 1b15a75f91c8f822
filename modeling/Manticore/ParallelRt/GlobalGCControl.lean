/-
  Manticore.ParallelRt.GlobalGCControl — who is where in a global collection.

  `Pc.level` is how far a vproc has got. `Control` says how the levels of the vprocs, their rounds, the flags and the
  barriers belong together: while the vprocs gather, each one has entered and waits, or is still about to leave the
  collection before; from then on all are in the same one, and whoever is past a barrier, everyone has arrived at it.

  - `control_move`: a move that no barrier sees keeps `Control`.
  - `control_lead`, `control_follow`, `control_leaderWait`, `control_go`: so do the steps up to the leader's "go".
-/

import Manticore.ParallelRt.GlobalGC

namespace Manticore.ParallelRt.GlobalGC

open Parties
open Function (update update_self update_of_ne)

/-- How far a collection has got: `3 * b + 3` in the barrier `b`, and more past it. -/
def Pc.level : Pc → Nat
  | .interrupt _ => 0
  | .leaderCheck => 0
  | .leaderWait => 0
  | .followerWait => 0
  | .setup => 1
  | .barrier b => 3 * b.val + 2
  | .inBarrier b => 3 * b.val + 3
  | .first => 4
  | .roots => 4
  | .push => 4
  | .getNext => 4
  | .scanAlloc => 4
  | .scanChunk _ => 4
  | .asleep => 4
  | .reclaim _ => 7
  | .mutator => 10
  | .lockGC => 10

/-- With `GCLock`. -/
def Pc.HoldsLock : Pc → Prop
  | .interrupt _ => True
  | .leaderCheck => True
  | _ => False

/-- Where only the leader gets. -/
def Pc.Leads : Pc → Prop
  | .interrupt _ => True
  | .leaderCheck => True
  | .leaderWait => True
  | .reclaim _ => True
  | _ => False

/-- Has the vproc arrived at the barrier? -/
def VProc.arrived (b : Fin 3) (v : VProc) : Bool := decide (3 * b.val + 3 ≤ v.pc.level)

variable {n m : Nat}

/-- All have entered the collection `g`, and nobody is past a barrier that not all have arrived at. -/
structure Running (s : State n m) : Prop where
  round : ∀ i, (s.vps i).round = s.numGlobalGCs
  order : ∀ (b : Fin 3) i j, 3 * b.val + 4 ≤ (s.vps i).pc.level → (s.vps j).arrived b = true
  count : ∀ b, s.nWaiting b = ∑ i, ((s.vps i).arrived b).toNat

structure Control (s : State n m) : Prop where
  /-- Before the first collection. -/
  initial : s.allReadyForGC = false → s.globalGCInProgress = false → ∀ i, (s.vps i).pc.level = 10 ∧
    (s.vps i).round = s.numGlobalGCs
  /-- Those that have entered wait; the others are at the end of the collection before. -/
  gathering : s.allReadyForGC = false → s.globalGCInProgress = true →
    (∀ i, ((s.vps i).round = s.numGlobalGCs ∧ (s.vps i).pc.level = 0) ∨
      ((s.vps i).round + 1 = s.numGlobalGCs ∧ 9 ≤ (s.vps i).pc.level)) ∧
    s.nReadyForGC = ∑ i, (decide ((s.vps i).round = s.numGlobalGCs)).toNat
  running : s.allReadyForGC = true → Running s
  leads : ∀ i, (s.vps i).pc.Leads → (s.vps i).leaderVProc = true ∧ (s.vps i).round = s.numGlobalGCs ∧
    s.globalGCInProgress = true
  gathers : ∀ i, (s.vps i).pc.Leads → (s.vps i).pc.level = 0 → s.allReadyForGC = false
  leader : s.globalGCInProgress = true → ∃ l, (s.vps l).leaderVProc = true ∧ (s.vps l).round = s.numGlobalGCs ∧
    (s.vps l).pc.level ≤ 7 ∧ ∀ j, (s.vps j).leaderVProc = true → (s.vps j).round = s.numGlobalGCs → j = l
  idle : s.globalGCInProgress = false → ∀ i, (s.vps i).leaderVProc = true → 8 ≤ (s.vps i).pc.level
  lock : ∀ i, s.gcLock = some i ↔ (s.vps i).pc.HoldsLock
  leaders : ∀ r, (1 ≤ r → r ≤ s.numGlobalGCs → ∃ l, s.leaders r = [l]) ∧ (s.numGlobalGCs < r → s.leaders r = [])

variable {s s' : State n m} {v : VProc} {i : Fin n}

theorem control_start (h : Start s) : Control s := by
  have hpc : ∀ i, (s.vps i).pc = .mutator := fun i => (h.vps i).1
  refine ⟨?_, ?_, ?_, ?_, ?_, ?_, ?_, ?_, ?_⟩
  · intro _ _ i
    rw [hpc, (h.vps i).2.2, h.numGlobalGCs]
    exact ⟨rfl, rfl⟩
  · intro _ hprogress
    rw [h.globalGCInProgress] at hprogress
    cases hprogress
  · intro hready
    rw [h.allReadyForGC] at hready
    cases hready
  · intro i hleads
    rw [hpc] at hleads
    exact hleads.elim
  · intro i hleads
    rw [hpc] at hleads
    exact hleads.elim
  · intro hprogress
    rw [h.globalGCInProgress] at hprogress
    cases hprogress
  · intro _ i _
    rw [hpc]
    decide
  · intro i
    rw [hpc, h.gcLock]
    exact ⟨nofun, False.elim⟩
  · intro r
    rw [h.numGlobalGCs]
    exact ⟨fun h1 h0 => absurd h1 (by omega), fun _ => (h.records r).1⟩

/-! ## Steps that change little -/

/-- The same to `Control`. -/
structure Pc.Alike (pc pc' : Pc) : Prop where
  level : pc'.level = pc.level
  holdsLock : pc'.HoldsLock ↔ pc.HoldsLock
  leads : pc'.Leads ↔ pc.Leads

theorem Pc.Alike.refl (pc : Pc) : Pc.Alike pc pc := ⟨rfl, Iff.rfl, Iff.rfl⟩

structure SameControl (s s' : State n m) : Prop where
  gcLock : s'.gcLock = s.gcLock
  nReadyForGC : s'.nReadyForGC = s.nReadyForGC
  allReadyForGC : s'.allReadyForGC = s.allReadyForGC
  globalGCInProgress : s'.globalGCInProgress = s.globalGCInProgress
  numGlobalGCs : s'.numGlobalGCs = s.numGlobalGCs
  nWaiting : s'.nWaiting = s.nWaiting
  leaders : s'.leaders = s.leaders
  vps : ∀ j, Pc.Alike (s.vps j).pc (s'.vps j).pc ∧ (s'.vps j).leaderVProc = (s.vps j).leaderVProc ∧
    (s'.vps j).round = (s.vps j).round

theorem SameControl.arrived (h : SameControl s s') (b : Fin 3) (j : Fin n) :
    (s'.vps j).arrived b = (s.vps j).arrived b := by
  rw [VProc.arrived, VProc.arrived, (h.vps j).1.level]

theorem Control.same (hc : Control s) (h : SameControl s s') : Control s' := by
  have hlevel : ∀ j, (s'.vps j).pc.level = (s.vps j).pc.level := fun j => (h.vps j).1.level
  have hlead : ∀ j, (s'.vps j).leaderVProc = (s.vps j).leaderVProc := fun j => (h.vps j).2.1
  have hround : ∀ j, (s'.vps j).round = (s.vps j).round := fun j => (h.vps j).2.2
  refine ⟨?_, ?_, ?_, ?_, ?_, ?_, ?_, ?_, ?_⟩
  · rw [h.allReadyForGC, h.globalGCInProgress, h.numGlobalGCs]
    intro hready hprogress i
    rw [hlevel, hround]
    exact hc.initial hready hprogress i
  · rw [h.allReadyForGC, h.globalGCInProgress, h.numGlobalGCs, h.nReadyForGC]
    simp only [hlevel, hround]
    exact hc.gathering
  · rw [h.allReadyForGC]
    intro hready
    obtain ⟨hr, ho, hcount⟩ := hc.running hready
    refine ⟨?_, ?_, ?_⟩
    · intro i
      rw [hround, h.numGlobalGCs]
      exact hr i
    · intro b i j hi
      rw [hlevel] at hi
      rw [h.arrived]
      exact ho b i j hi
    · intro b
      rw [h.nWaiting, hcount b]
      exact Finset.sum_congr rfl fun i _ => by rw [h.arrived]
  · intro i hleads
    rw [hlead, hround, h.numGlobalGCs, h.globalGCInProgress]
    exact hc.leads i ((h.vps i).1.leads.mp hleads)
  · intro i hleads hlevel'
    rw [hlevel] at hlevel'
    rw [h.allReadyForGC]
    exact hc.gathers i ((h.vps i).1.leads.mp hleads) hlevel'
  · rw [h.globalGCInProgress, h.numGlobalGCs]
    simp only [hlevel, hround, hlead]
    exact hc.leader
  · rw [h.globalGCInProgress]
    simp only [hlevel, hlead]
    exact hc.idle
  · intro i
    rw [h.gcLock, (h.vps i).1.holdsLock]
    exact hc.lock i
  · rw [h.leaders, h.numGlobalGCs]
    exact hc.leaders

/-! ## A vproc gets further -/

theorem arrived_iff {b : Fin 3} : v.arrived b = true ↔ 3 * b.val + 3 ≤ v.pc.level := decide_eq_true_iff

/-- The vproc `i` goes on, with the count of the barriers it arrives at. -/
theorem Running.advance (h : Running s) (hvps : s'.vps = update s.vps i v)
    (hg : s'.numGlobalGCs = s.numGlobalGCs) (hround : v.round = (s.vps i).round)
    (hcount : ∀ b, s'.nWaiting b + ((s.vps i).arrived b).toNat = s.nWaiting b + (v.arrived b).toNat)
    (hmono : (s.vps i).pc.level ≤ v.pc.level)
    (hpast : ∀ (b : Fin 3), 3 * b.val + 4 ≤ v.pc.level → ∀ j, j ≠ i → (s.vps j).arrived b = true) : Running s' := by
  have hself : s'.vps i = v := by rw [hvps, update_self]
  have hother : ∀ j, j ≠ i → s'.vps j = s.vps j := fun j hj => by rw [hvps, update_of_ne hj]
  refine ⟨?_, ?_, ?_⟩
  · intro j
    rw [hg]
    by_cases hj : j = i
    · rw [hj, hself, hround]
      exact h.round i
    · rw [hother j hj]
      exact h.round j
  · intro b j k hj
    by_cases hji : j = i
    · rw [hji, hself] at hj
      by_cases hk : k = i
      · rw [hk, hself, arrived_iff]
        omega
      · rw [hother k hk]
        exact hpast b hj k hk
    · rw [hother j hji] at hj
      by_cases hk : k = i
      · have hi := arrived_iff.mp (h.order b j i hj)
        rw [hk, hself, arrived_iff]
        omega
      · rw [hother k hk]
        exact h.order b j k hj
  · intro b
    have hsum := sum_update s.vps (fun v => (v.arrived b).toNat) i v
    have hb := hcount b
    have hs := h.count b
    rw [hvps]
    omega

/-- The leader has a level of at most 7, and is the only one. -/
theorem Control.leader_level (hc : Control s) (hprogress : s.globalGCInProgress = true)
    (hlead : (s.vps i).leaderVProc = true) (hround : (s.vps i).round = s.numGlobalGCs) :
    (s.vps i).pc.level ≤ 7 := by
  obtain ⟨l, -, -, hle, huniq⟩ := hc.leader hprogress
  rw [huniq i hlead hround]
  exact hle

theorem Control.advance (hc : Control s) (hready : s.allReadyForGC = true) (hrun : Running s')
    (hvps : s'.vps = update s.vps i v)
    (hflags : s'.gcLock = s.gcLock ∧ s'.allReadyForGC = s.allReadyForGC ∧ s'.globalGCInProgress = s.globalGCInProgress ∧ s'.numGlobalGCs = s.numGlobalGCs ∧ s'.leaders = s.leaders)
    (hv : v.leaderVProc = (s.vps i).leaderVProc ∧ v.round = (s.vps i).round)
    (hmono : (s.vps i).pc.level ≤ v.pc.level) (hlock : ¬ (s.vps i).pc.HoldsLock ∧ ¬ v.pc.HoldsLock)
    (hleads : v.pc.Leads → (s.vps i).leaderVProc = true ∧ s.globalGCInProgress = true ∧ v.pc.level ≠ 0)
    (hle : s.globalGCInProgress = true → (s.vps i).leaderVProc = true → v.pc.level ≤ 7) : Control s' := by
  obtain ⟨hgc, hall, hprog, hg, hrec⟩ := hflags
  have hself : s'.vps i = v := by rw [hvps, update_self]
  have hother : ∀ j, j ≠ i → s'.vps j = s.vps j := fun j hj => by rw [hvps, update_of_ne hj]
  have hlead : ∀ j, (s'.vps j).leaderVProc = (s.vps j).leaderVProc := by
    intro j
    by_cases hj : j = i
    · rw [hj, hself, hv.1]
    · rw [hother j hj]
  have hround : ∀ j, (s'.vps j).round = (s.vps j).round := by
    intro j
    by_cases hj : j = i
    · rw [hj, hself, hv.2]
    · rw [hother j hj]
  refine ⟨?_, ?_, fun _ => hrun, ?_, ?_, ?_, ?_, ?_, ?_⟩
  · intro hno
    rw [hall, hready] at hno
    cases hno
  · intro hno
    rw [hall, hready] at hno
    cases hno
  · intro j hj
    rw [hlead, hround, hg, hprog]
    by_cases hji : j = i
    · rw [hji, hself] at hj
      obtain ⟨hl, hp, -⟩ := hleads hj
      rw [hji]
      exact ⟨hl, (hc.running hready).round i, hp⟩
    · rw [hother j hji] at hj
      exact hc.leads j hj
  · intro j hj hlevel
    by_cases hji : j = i
    · rw [hji, hself] at hj hlevel
      exact absurd hlevel (hleads hj).2.2
    · rw [hother j hji] at hj hlevel
      rw [hall]
      exact hc.gathers j hj hlevel
  · rw [hprog, hg]
    intro hp
    obtain ⟨l, hl, hr, hlevel, huniq⟩ := hc.leader hp
    simp only [hlead, hround]
    grind
  · rw [hprog]
    intro hp j hj
    rw [hlead] at hj
    have hlevel := hc.idle hp j hj
    by_cases hji : j = i
    · rw [hji, hself]
      rw [hji] at hlevel
      omega
    · rw [hother j hji]
      exact hlevel
  · intro j
    rw [hgc]
    by_cases hji : j = i
    · rw [hji, hself]
      exact iff_of_false (fun h => hlock.1 ((hc.lock i).mp h)) hlock.2
    · rw [hother j hji]
      exact hc.lock j
  · rw [hrec, hg]
    exact hc.leaders

/-- A level between the waits and the end of a collection. -/
theorem Control.ready (hc : Control s) (h0 : (s.vps i).pc.level ≠ 0) (h9 : (s.vps i).pc.level < 9) :
    s.allReadyForGC = true := by
  by_contra hno
  have hready : s.allReadyForGC = false := Bool.eq_false_of_not_eq_true hno
  cases hprogress : s.globalGCInProgress with
  | false =>
    have hlevel := (hc.initial hready hprogress i).1
    omega
  | true =>
    rcases (hc.gathering hready hprogress).1 i with ⟨-, hlevel⟩ | ⟨-, hlevel⟩
    · exact h0 hlevel
    · omega

/-- A move that no barrier sees. -/
theorem control_move {pc : Pc} (hc : Control s) (hpc : (s.vps i).pc = pc) (hready : s.allReadyForGC = true)
    (hvps : s'.vps = update s.vps i v)
    (hflags : s'.gcLock = s.gcLock ∧ s'.allReadyForGC = s.allReadyForGC ∧ s'.globalGCInProgress = s.globalGCInProgress ∧ s'.numGlobalGCs = s.numGlobalGCs ∧ s'.leaders = s.leaders)
    (hwait : s'.nWaiting = s.nWaiting) (hv : v.leaderVProc = (s.vps i).leaderVProc ∧ v.round = (s.vps i).round)
    (hmono : pc.level ≤ v.pc.level) (hle : v.pc.level ≤ 7) (hlock : ¬ pc.HoldsLock ∧ ¬ v.pc.HoldsLock)
    (hleads : ¬ v.pc.Leads) (harrive : ∀ b : Fin 3, 3 * b.val + 3 ≤ v.pc.level → 3 * b.val + 3 ≤ pc.level)
    (hpast : ∀ b : Fin 3, 3 * b.val + 4 ≤ v.pc.level → 3 * b.val + 4 ≤ pc.level) : Control s' := by
  subst hpc
  have hrun := hc.running hready
  refine hc.advance hready ?_ hvps hflags hv hmono hlock (fun h => absurd h hleads) fun _ _ => hle
  refine hrun.advance hvps hflags.2.2.2.1 hv.2 ?_ hmono ?_
  · intro b
    have hsame : v.arrived b = (s.vps i).arrived b := by
      rw [Bool.eq_iff_iff, arrived_iff, arrived_iff]
      exact ⟨harrive b, fun h => Nat.le_trans h hmono⟩
    rw [hsame, hwait]
  · intro b hb j hj
    exact hrun.order b i j (hpast b hb)

/-! ## Entering -/

theorem control_lead (hc : Control s) (hpc : (s.vps i).pc = .lockGC) (hlock : s.gcLock = none)
    (hprogress : s.globalGCInProgress = false) : Control (s.lead i) := by
  have hlevel : (s.vps i).pc.level = 10 := by rw [hpc]; rfl
  have hself : (s.lead i).vps i = _ := update_self ..
  have hother : ∀ j, j ≠ i → (s.lead i).vps j = s.vps j := fun j hj => update_of_ne hj ..
  have hnum : (s.lead i).numGlobalGCs = s.numGlobalGCs + 1 := rfl
  -- all are out of the last collection, or at its end
  have hall : ∀ j, (s.vps j).round = s.numGlobalGCs ∧ 9 ≤ (s.vps j).pc.level := by
    intro j
    cases hready : s.allReadyForGC with
    | false =>
      obtain ⟨hl, hr⟩ := hc.initial hready hprogress j
      exact ⟨hr, by omega⟩
    | true =>
      have hrun := hc.running hready
      have harr := arrived_iff.mp (hrun.order 2 i j (by rw [hlevel]; decide))
      exact ⟨hrun.round j, harr⟩
  have hnolead : ∀ j, ¬ (s.vps j).pc.Leads := by
    intro j hleads
    have hp := (hc.leads j hleads).2.2
    rw [hprogress] at hp
    cases hp
  refine ⟨?_, ?_, ?_, ?_, fun _ _ _ => rfl, ?_, ?_, ?_, ?_⟩
  · intro _ hp
    cases hp
  · intro _ _
    refine ⟨?_, ?_⟩
    · intro j
      by_cases hj : j = i
      · subst hj
        rw [hself, hnum]
        exact .inl ⟨congrArg (· + 1) (hall j).1, rfl⟩
      grind
    · have hsum := sum_update s.vps (fun v => (decide (v.round = s.numGlobalGCs + 1)).toNat) i
        { s.vps i with pc := .interrupt 0, leaderVProc := true, round := (s.vps i).round + 1 }
      have hzero : ∑ j, (decide ((s.vps j).round = s.numGlobalGCs + 1)).toNat = 0 := by
        simp_all
      rw [hzero] at hsum
      have hi : (decide ((s.vps i).round = s.numGlobalGCs + 1)).toNat = 0 := by
        rw [(hall i).1, decide_eq_false (Nat.ne_of_lt (Nat.lt_succ_self _))]
        rfl
      have hi' : (decide ((s.vps i).round + 1 = s.numGlobalGCs + 1)).toNat = 1 := by
        rw [(hall i).1, decide_eq_true rfl]
        rfl
      show 1 = ∑ j, _
      rw [hi, hi'] at hsum
      exact hsum.symm
  · intro hready
    cases hready
  · intro j hleads
    by_cases hj : j = i
    · subst hj
      rw [hself, hnum]
      exact ⟨rfl, congrArg (· + 1) (hall j).1, rfl⟩
    · rw [hother j hj] at hleads
      exact absurd hleads (hnolead j)
  · intro _
    refine ⟨i, ?_, ?_, ?_, ?_⟩
    · rw [hself]
    · rw [hself, hnum]
      exact congrArg (· + 1) (hall i).1
    · rw [hself]
      exact Nat.zero_le 7
    grind
  · intro hp
    cases hp
  · intro j
    show some i = some j ↔ _
    by_cases hj : j = i
    · subst hj
      rw [hself]
      exact iff_of_true rfl trivial
    · rw [hother j hj]
      refine iff_of_false (fun h => hj (Option.some.inj h).symm) fun hholds => ?_
      have hno := (hc.lock j).mpr hholds
      rw [hlock] at hno
      cases hno
  · intro r
    obtain ⟨hold, hnew⟩ := hc.leaders r
    rw [hnum]
    show (1 ≤ r → r ≤ s.numGlobalGCs + 1 → ∃ l, update s.leaders _ _ r = [l]) ∧
      (s.numGlobalGCs + 1 < r → update s.leaders _ _ r = [])
    rw [(hall i).1]
    by_cases hr : r = s.numGlobalGCs + 1
    · grind
    grind

theorem control_follow (hc : Control s) (hpc : (s.vps i).pc = .lockGC) (hlock : s.gcLock = none)
    (hprogress : s.globalGCInProgress = true) : Control (s.follow i) := by
  have hlevel : (s.vps i).pc.level = 10 := by rw [hpc]; rfl
  obtain ⟨l, hl, hlround, hllevel, huniq⟩ := hc.leader hprogress
  -- a collection that has begun still has its leader before the last barrier
  have hready : s.allReadyForGC = false := by
    by_contra hno
    have harr := arrived_iff.mp ((hc.running (Bool.eq_true_of_not_eq_false hno)).order 2 i l (by rw [hlevel]; decide))
    have h9 : 9 ≤ (s.vps l).pc.level := harr
    omega
  obtain ⟨hgather, hcount⟩ := hc.gathering hready hprogress
  have hround : (s.vps i).round + 1 = s.numGlobalGCs := by
    rcases hgather i with ⟨-, h0⟩ | ⟨hr, -⟩
    · omega
    · exact hr
  have hvps : (s.follow i).vps = update s.vps i
      { s.vps i with pc := .followerWait, leaderVProc := false, round := (s.vps i).round + 1 } := by
    rw [State.follow, hready]
    rfl
  have hself : (s.follow i).vps i = _ := hvps ▸ update_self ..
  have hother : ∀ j, j ≠ i → (s.follow i).vps j = s.vps j := fun j hj => hvps ▸ update_of_ne hj ..
  have hli : l ≠ i := by
    rintro rfl
    omega
  refine ⟨?_, ?_, ?_, ?_, ?_, ?_, ?_, ?_, hc.leaders⟩
  · intro _ hp
    have hp' : s.globalGCInProgress = false := hp
    rw [hprogress] at hp'
    cases hp'
  · intro _ _
    refine ⟨?_, ?_⟩
    · intro j
      by_cases hj : j = i
      · rw [hj, hself]
        exact .inl ⟨hround, rfl⟩
      · rw [hother j hj]
        exact hgather j
    · have hsum := sum_update s.vps (fun v => (decide (v.round = s.numGlobalGCs)).toNat) i
        { s.vps i with pc := .followerWait, leaderVProc := false, round := (s.vps i).round + 1 }
      have hi : (decide ((s.vps i).round = s.numGlobalGCs)).toNat = 0 := by
        rw [decide_eq_false (by omega)]
        rfl
      have hi' : (decide ((s.vps i).round + 1 = s.numGlobalGCs)).toNat = 1 := by
        rw [decide_eq_true hround]
        rfl
      rw [hi, hi', ← hcount] at hsum
      rw [hvps]
      exact hsum.symm
  · intro hp
    have hp' : s.allReadyForGC = true := hp
    rw [hready] at hp'
    cases hp'
  · intro j hleads
    by_cases hj : j = i
    · rw [hj, hself] at hleads
      exact hleads.elim
    · rw [hother j hj] at hleads ⊢
      exact hc.leads j hleads
  · intro _ _ _
    exact hready
  · intro _
    refine ⟨l, ?_, ?_, ?_, ?_⟩
    · rw [hother l hli]
      exact hl
    · rw [hother l hli]
      exact hlround
    · rw [hother l hli]
      exact hllevel
    · intro j hj hr
      by_cases hji : j = i
      · rw [hji, hself] at hj
        cases hj
      · rw [hother j hji] at hj hr
        exact huniq j hj hr
  · intro hp
    have hp' : s.globalGCInProgress = false := hp
    rw [hprogress] at hp'
    cases hp'
  · intro j
    by_cases hj : j = i
    · rw [hj, hself]
      refine iff_of_false (fun h => ?_) nofun
      have h' : s.gcLock = some i := h
      rw [hlock] at h'
      cases h'
    · rw [hother j hj]
      exact hc.lock j

/-- The leader gives the lock up, or gets it back. -/
theorem control_leaderWait {lock : Option (Fin n)} {pc : Pc} (hc : Control s) (hleads : (s.vps i).pc.Leads)
    (hlevel : (s.vps i).pc.level = 0) (hpc : pc.Leads ∧ pc.level = 0) (hself : lock = some i ↔ pc.HoldsLock)
    (hother : ∀ j, j ≠ i → (lock = some j ↔ s.gcLock = some j)) :
    Control ({ s with gcLock := lock }.setPc i pc) := by
  obtain ⟨hl, hr, hp⟩ := hc.leads i hleads
  have hready := hc.gathers i hleads hlevel
  -- but for the lock, the state is one that looks the same
  have hsame : ∀ j, ((s.setPc i pc).vps j).pc.level = (s.vps j).pc.level ∧
      (((s.setPc i pc).vps j).pc.Leads ↔ (s.vps j).pc.Leads) ∧ ((s.setPc i pc).vps j).leaderVProc = (s.vps j).leaderVProc ∧
      ((s.setPc i pc).vps j).round = (s.vps j).round := by
    intro j
    by_cases hj : j = i
    · subst hj
      have hv : (s.setPc j pc).vps j = { s.vps j with pc := pc } := update_self ..
      rw [hv]
      exact ⟨hpc.2.trans hlevel.symm, iff_of_true hpc.1 hleads, rfl, rfl⟩
    · have hv : (s.setPc i pc).vps j = s.vps j := update_of_ne hj ..
      rw [hv]
      exact ⟨rfl, Iff.rfl, rfl, rfl⟩
  have hvps : ({ s with gcLock := lock }.setPc i pc).vps = (s.setPc i pc).vps := rfl
  refine ⟨?_, ?_, ?_, ?_, ?_, ?_, ?_, ?_, hc.leaders⟩
  · intro _ hno
    have hno' : s.globalGCInProgress = false := hno
    rw [hp] at hno'
    cases hno'
  · intro _ _
    rw [hvps]
    simp only [(hsame _).1, (hsame _).2.2.2]
    exact hc.gathering hready hp
  · intro hno
    have hno' : s.allReadyForGC = true := hno
    rw [hready] at hno'
    cases hno'
  · intro j hj
    rw [hvps] at hj ⊢
    rw [(hsame j).2.2.1, (hsame j).2.2.2]
    exact hc.leads j ((hsame j).2.1.mp hj)
  · intro _ _ _
    exact hready
  · rw [hvps]
    simp only [(hsame _).1, (hsame _).2.2.1, (hsame _).2.2.2]
    exact hc.leader
  · intro hno
    have hno' : s.globalGCInProgress = false := hno
    rw [hp] at hno'
    cases hno'
  · intro j
    by_cases hj : j = i
    · subst hj
      have hv : ({ s with gcLock := lock }.setPc j pc).vps j = { s.vps j with pc := pc } := update_self ..
      rw [hv]
      exact hself
    · have hv : ({ s with gcLock := lock }.setPc i pc).vps j = s.vps j := update_of_ne hj ..
      rw [hv]
      exact (hother j hj).trans (hc.lock j)

/-- When the count of the ready is full, all have entered. -/
theorem Control.gathered (hc : Control s) (hpc : (s.vps i).pc = .leaderCheck) (hn : n ≤ s.nReadyForGC) (j : Fin n) :
    (s.vps j).round = s.numGlobalGCs ∧ (s.vps j).pc.level = 0 := by
  have hleads : (s.vps i).pc.Leads := by rw [hpc]; trivial
  have hready := hc.gathers i hleads (by rw [hpc]; rfl)
  obtain ⟨hgather, hcount⟩ := hc.gathering hready (hc.leads i hleads).2.2
  rcases hgather j with hj | ⟨hj, -⟩
  · exact hj
  · -- the count of those that have entered would be too small
    exfalso
    have hone : ∀ k, (decide ((s.vps k).round = s.numGlobalGCs)).toNat + (decide ((s.vps k).round ≠ s.numGlobalGCs)).toNat = 1 := by
      grind [decide_eq_false]
    have hsum : (∑ k, (decide ((s.vps k).round = s.numGlobalGCs)).toNat) +
        ∑ k, (decide ((s.vps k).round ≠ s.numGlobalGCs)).toNat = n := by
      rw [← Finset.sum_add_distrib, Finset.sum_congr rfl fun k _ => hone k]
      simp
    have hle := le_sum (fun k => (decide ((s.vps k).round ≠ s.numGlobalGCs)).toNat) j
    rw [decide_eq_true (show (s.vps j).round ≠ s.numGlobalGCs by omega), Bool.toNat_true] at hle
    omega

theorem control_go (hc : Control s) (hpc : (s.vps i).pc = .leaderCheck) (hn : n ≤ s.nReadyForGC) :
    Control (s.go i) := by
  have hleads : (s.vps i).pc.Leads := by rw [hpc]; trivial
  obtain ⟨hl, hr, hp⟩ := hc.leads i hleads
  obtain ⟨l, -, -, -, huniq⟩ := hc.leader hp
  obtain rfl : i = l := huniq i hl hr
  have hall := hc.gathered hpc hn
  have hself : (s.go i).vps i = _ := update_self ..
  have hother : ∀ j, j ≠ i → (s.go i).vps j = s.vps j := fun j hj => update_of_ne hj ..
  have hlow : ∀ j, ((s.go i).vps j).pc.level ≤ 1 := by
    intro j
    by_cases hj : j = i
    · rw [hj, hself]
      exact Nat.le_refl 1
    · rw [hother j hj, (hall j).2]
      exact Nat.zero_le 1
  have hround : ∀ j, ((s.go i).vps j).round = s.numGlobalGCs := by
    grind
  have hnolead : ∀ j, ¬ ((s.go i).vps j).pc.Leads := by
    intro j hj
    by_cases hji : j = i
    · rw [hji, hself] at hj
      exact hj
    · rw [hother j hji] at hj
      obtain ⟨hl', hr', -⟩ := hc.leads j hj
      exact hji (huniq j hl' hr')
  refine ⟨nofun, nofun, fun _ => ⟨hround, ?_, ?_⟩, ?_, ?_, ?_, ?_, ?_, hc.leaders⟩
  · intro b j _ hj
    have hlowj := hlow j
    omega
  · intro b
    refine (Finset.sum_eq_zero fun j _ => ?_).symm
    have hlowj := hlow j
    have hno : ((s.go i).vps j).arrived b = false := decide_eq_false (by omega)
    rw [hno]
    rfl
  · intro j hj
    exact absurd hj (hnolead j)
  · intro j hj
    exact absurd hj (hnolead j)
  · intro _
    refine ⟨i, ?_, hround i, ?_, ?_⟩
    · rw [hself]
      exact hl
    · have hlowi := hlow i
      omega
    grind
  · intro hno
    have hno' : s.globalGCInProgress = false := hno
    rw [hp] at hno'
    cases hno'
  · intro j
    refine iff_of_false nofun fun hholds => ?_
    by_cases hji : j = i
    · rw [hji, hself] at hholds
      exact hholds
    · rw [hother j hji] at hholds
      have hj := (hc.lock j).mpr hholds
      have hi := (hc.lock i).mpr (by rw [hpc]; trivial)
      exact hji (Option.some.inj (hj.symm.trans hi))

end Manticore.ParallelRt.GlobalGC
