/-
  Manticore.ParallelRt.GlobalGCBarriers — the barriers of a global collection, and the control of every state.

  - `control_arrive`, `control_depart`: steps into a barrier and out of it keep `Control`.
  - `control_act`: so does every step.
  - `Control.together`: where one vproc works on the heap, all have entered its collection.
-/

import Manticore.ParallelRt.GlobalGCControl

namespace Manticore.ParallelRt.GlobalGC

open Parties
open Function (update update_self update_of_ne)
open State (afterBarrier)

variable {n m : Nat}

/-! ## Barriers -/

theorem afterBarrier_level (leaderVProc : Bool) (b : Fin 3) :
    3 * b.val + 4 ≤ (afterBarrier leaderVProc b).level ∧ (afterBarrier leaderVProc b).level < 3 * b.val + 6 ∧
      ¬ (afterBarrier leaderVProc b).HoldsLock :=
  match leaderVProc, b with
  | true, 0 => ⟨by decide, by decide, id⟩
  | true, 1 => ⟨by decide, by decide, id⟩
  | true, 2 => ⟨by decide, by decide, id⟩
  | false, 0 => ⟨by decide, by decide, id⟩
  | false, 1 => ⟨by decide, by decide, id⟩
  | false, 2 => ⟨by decide, by decide, id⟩

variable {b : Fin 3} {s s' : State n m} {i : Fin n} {v : VProc}

theorem afterBarrier_leads {leaderVProc : Bool} (h : (afterBarrier leaderVProc b).Leads) :
    leaderVProc = true ∧ b.val = 1 :=
  match leaderVProc, b with
  | true, 0 => h.elim
  | true, 1 => ⟨rfl, rfl⟩
  | true, 2 => h.elim
  | false, 0 => h.elim
  | false, 1 => h.elim
  | false, 2 => h.elim

theorem afterBarrier_leader (h : b.val ≤ 1) : (afterBarrier true b).level ≤ 7 :=
  match b with
  | 0 => by decide
  | 1 => by decide
  | 2 => absurd h (by decide)

/-- Into a barrier or through it. -/
theorem control_barrier (pc : Pc) (hc : Control s) (hready : s.allReadyForGC = true)
    (hlow : 3 * b.val + 2 ≤ (s.vps i).pc.level) (hhigh : (s.vps i).pc.level ≤ 3 * b.val + 3)
    (hholds : ¬ (s.vps i).pc.HoldsLock)
    (hpc : pc = .inBarrier b ∨ pc = afterBarrier (s.vps i).leaderVProc b ∧ ∀ j, j ≠ i → (s.vps j).arrived b = true)
    (hvps : s'.vps = update s.vps i { s.vps i with pc })
    (hflags : s'.gcLock = s.gcLock ∧ s'.allReadyForGC = s.allReadyForGC ∧ s'.globalGCInProgress = s.globalGCInProgress ∧ s'.numGlobalGCs = s.numGlobalGCs ∧ s'.leaders = s.leaders)
    (hcount : ∀ b', s'.nWaiting b' = s.nWaiting b' + if b' = b ∧ (s.vps i).arrived b = false then 1 else 0) :
    Control s' := by
  have hrun := hc.running hready
  obtain ⟨hafter, hafter', hafterLock⟩ := afterBarrier_level (s.vps i).leaderVProc b
  have hlevel : 3 * b.val + 3 ≤ pc.level ∧ pc.level < 3 * b.val + 6 := by
    rcases hpc with rfl | ⟨rfl, -⟩
    · exact ⟨Nat.le_refl _, Nat.add_lt_add_left (by decide) _⟩
    · omega
  -- the leader is not yet past the second barrier
  have hleader : s.globalGCInProgress = true → (s.vps i).leaderVProc = true → b.val ≤ 1 := by
    intro hp hl
    have h7 := hc.leader_level hp hl (hrun.round i)
    omega
  refine hc.advance hready (hrun.advance hvps hflags.2.2.2.1 rfl ?_ (show (s.vps i).pc.level ≤ pc.level by omega) ?_) hvps hflags
    ⟨rfl, rfl⟩ (show (s.vps i).pc.level ≤ pc.level by omega) ⟨hholds, ?_⟩ ?_ ?_
  · intro b'
    rw [hcount b']
    by_cases hb : b' = b
    · grind [arrived_iff]
    · have hne : b'.val ≠ b.val := fun h => hb (Fin.ext h)
      have hv : ({ s.vps i with pc } : VProc).arrived b' = (s.vps i).arrived b' := by
        rw [Bool.eq_iff_iff, arrived_iff, arrived_iff]
        show 3 * b'.val + 3 ≤ pc.level ↔ _
        omega
      rw [hv, if_neg fun h => hb h.1]
      rfl
  · intro b' hb' j hj
    have hb'' : 3 * b'.val + 4 ≤ pc.level := hb'
    rcases hpc with rfl | ⟨rfl, hall⟩
    · have hin : (Pc.inBarrier b).level = 3 * b.val + 3 := rfl
      exact hrun.order b' i j (by omega)
    · have harr := arrived_iff.mp (hall j hj)
      rw [arrived_iff]
      omega
  · rcases hpc with rfl | ⟨rfl, -⟩
    · exact id
    · exact hafterLock
  · intro hleads
    rcases hpc with rfl | ⟨rfl, -⟩
    · exact hleads.elim
    · obtain ⟨hl, hb⟩ := afterBarrier_leads hleads
      refine ⟨hl, ?_, show (afterBarrier _ b).level ≠ 0 by omega⟩
      by_contra hno
      have h8 := hc.idle (Bool.eq_false_of_not_eq_true hno) i hl
      omega
  · intro hp hl
    have hb := hleader hp hl
    rcases hpc with rfl | ⟨rfl, -⟩
    · show 3 * b.val + 3 ≤ 7
      omega
    · rw [hl]
      exact afterBarrier_leader hb

theorem control_arrive (hc : Control s) (hpc : (s.vps i).pc = .barrier b) : Control (s.arrive i b) := by
  have hlevel : (s.vps i).pc.level = 3 * b.val + 2 := by rw [hpc]; rfl
  have hready := hc.ready (i := i) (by omega) (by omega)
  have hrun := hc.running hready
  have hnot : (s.vps i).arrived b = false := decide_eq_false (by omega)
  refine control_barrier (i := i) (b := b) (if s.nWaiting b + 1 = n then afterBarrier (s.vps i).leaderVProc b else .inBarrier b)
    hc hready (by omega) (by omega) (by rw [hpc]; exact id) ?_ rfl
    ⟨rfl, rfl, rfl, rfl, rfl⟩ ?_
  · by_cases hn : s.nWaiting b + 1 = n
    · rw [if_pos hn]
      refine .inr ⟨rfl, fun j hj => ?_⟩
      refine all_but_one (fun k => (s.vps k).arrived b) hnot ?_ hj
      rw [← hrun.count b, hn, Fintype.card_fin]
    · rw [if_neg hn]
      exact .inl rfl
  · intro b'
    show update s.nWaiting b (s.nWaiting b + 1) b' = _
    by_cases hb : b' = b
    · subst hb
      rw [update_self, if_pos ⟨rfl, hnot⟩]
    · rw [update_of_ne hb, if_neg fun h => hb h.1]
      rfl

/-- Everyone has arrived at a barrier whose count is full. -/
theorem Running.all_arrived (h : Running s) (hn : n ≤ s.nWaiting b) (j : Fin n) : (s.vps j).arrived b = true := by
  by_contra hno
  have hfalse : (s.vps j).arrived b = false := Bool.eq_false_of_not_eq_true hno
  have hone : ∀ k, ((s.vps k).arrived b).toNat + (!(s.vps k).arrived b).toNat = 1 := by
    intro k
    cases (s.vps k).arrived b <;> rfl
  have hsum : (∑ k, ((s.vps k).arrived b).toNat) + ∑ k, (!(s.vps k).arrived b).toNat = n := by
    rw [← Finset.sum_add_distrib, Finset.sum_congr rfl fun k _ => hone k]
    simp
  have hle := le_sum (fun k => (!(s.vps k).arrived b).toNat) j
  rw [hfalse] at hle
  have hcount := h.count b
  have h1 : (!false).toNat = 1 := rfl
  omega

theorem control_depart (hc : Control s) (hpc : (s.vps i).pc = .inBarrier b) (hn : n ≤ s.nWaiting b) :
    Control (s.setPc i (afterBarrier (s.vps i).leaderVProc b)) := by
  have hlevel : (s.vps i).pc.level = 3 * b.val + 3 := by rw [hpc]; rfl
  cases hready : s.allReadyForGC with
  | true =>
    have hrun := hc.running hready
    have harr : (s.vps i).arrived b = true := arrived_iff.mpr (by omega)
    refine control_barrier (i := i) (b := b) _ hc hready (by omega) (by omega) (by rw [hpc]; exact id)
      (.inr ⟨rfl, fun j _ => hrun.all_arrived hn j⟩) rfl ⟨rfl, rfl, rfl, rfl, rfl⟩ fun b' => ?_
    rw [if_neg fun h => by rw [harr] at h; cases h.2]
    rfl
  | false =>
    cases hprogress : s.globalGCInProgress with
    | false =>
      have hl := (hc.initial hready hprogress i).1
      omega
    | true =>
      -- the next collection gathers, and this vproc leaves the last barrier of the one before
      obtain ⟨hgather, hcount⟩ := hc.gathering hready hprogress
      obtain ⟨hround, h9⟩ : (s.vps i).round + 1 = s.numGlobalGCs ∧ 9 ≤ (s.vps i).pc.level := by
        rcases hgather i with ⟨-, h0⟩ | hlate
        · omega
        · exact hlate
      obtain rfl : b = 2 := Fin.ext (show b.val = 2 by omega)
      have hself : (s.setPc i .mutator).vps i = _ := update_self ..
      have hother : ∀ j, j ≠ i → (s.setPc i .mutator).vps j = s.vps j := fun j hj => update_of_ne hj ..
      have hrounds : ∀ j, ((s.setPc i .mutator).vps j).round = (s.vps j).round := by
        intro j
        by_cases hj : j = i
        · rw [hj, hself]
        · rw [hother j hj]
      show Control (s.setPc i .mutator)
      refine ⟨?_, ?_, ?_, ?_, ?_, ?_, ?_, ?_, hc.leaders⟩
      · intro _ hp
        have hp' : s.globalGCInProgress = false := hp
        rw [hprogress] at hp'
        cases hp'
      · intro _ _
        simp only [hrounds]
        refine ⟨fun j => ?_, hcount⟩
        by_cases hj : j = i
        · rw [hj, hself]
          exact .inr ⟨hround, Nat.le_succ 9⟩
        · rw [hother j hj]
          exact hgather j
      · intro hp
        have hp' : s.allReadyForGC = true := hp
        rw [hready] at hp'
        cases hp'
      · intro j hleads
        by_cases hj : j = i
        · rw [hj, hself] at hleads
          exact hleads.elim
        · rw [hother j hj] at hleads ⊢
          exact hc.leads j hleads
      · intro _ _ _
        exact hready
      · intro hp
        obtain ⟨l, hl, hr, hle, huniq⟩ := hc.leader hp
        have hli : l ≠ i := by
          rintro rfl
          omega
        refine ⟨l, ?_, ?_, ?_, fun j hj hrj => ?_⟩
        · rw [hother l hli]
          exact hl
        · rw [hother l hli]
          exact hr
        · rw [hother l hli]
          exact hle
        · by_cases hji : j = i
          · rw [hji, hself] at hj hrj
            exact absurd hrj (show (s.vps i).round ≠ s.numGlobalGCs by omega)
          · rw [hother j hji] at hj hrj
            exact huniq j hj hrj
      · intro hp
        have hp' : s.globalGCInProgress = false := hp
        rw [hprogress] at hp'
        cases hp'
      · intro j
        by_cases hj : j = i
        · rw [hj, hself]
          refine iff_of_false (fun h => ?_) id
          have hholds := (hc.lock i).mp h
          rw [hpc] at hholds
          exact hholds
        · rw [hother j hj]
          exact hc.lock j

theorem control_finish {mc : Machine n m} {k : Nat} (hc : Control s) (hpc : (s.vps i).pc = .reclaim k) :
    Control (s.finish mc i) := by
  have hlevel : (s.vps i).pc.level = 7 := by rw [hpc]; rfl
  have hready := hc.ready (i := i) (by omega) (by omega)
  have hrun := hc.running hready
  obtain ⟨hl, hr, hp⟩ := hc.leads i (by rw [hpc]; trivial)
  obtain ⟨l, -, -, -, huniq⟩ := hc.leader hp
  obtain rfl : i = l := huniq i hl hr
  have hself : (s.finish mc i).vps i = _ := update_self ..
  have hother : ∀ j, j ≠ i → (s.finish mc i).vps j = s.vps j := fun j hj => update_of_ne hj ..
  have hrun' : Running (s.finish mc i) := by
    refine hrun.advance (v := { s.vps i with pc := .barrier 2 }) rfl rfl rfl ?_ (by rw [hlevel]; exact Nat.le_succ 7) ?_
    · intro b
      have hsame : ({ s.vps i with pc := .barrier 2 } : VProc).arrived b = (s.vps i).arrived b := by
        rw [Bool.eq_iff_iff, arrived_iff, arrived_iff, hlevel]
        show 3 * b.val + 3 ≤ 8 ↔ _
        omega
      rw [hsame]
      rfl
    · intro b hb j _
      have hb' : 3 * b.val + 4 ≤ 8 := hb
      exact hrun.order b i j (by omega)
  refine ⟨?_, ?_, fun _ => hrun', ?_, ?_, nofun, ?_, ?_, hc.leaders⟩
  · intro hno
    have hno' : s.allReadyForGC = false := hno
    rw [hready] at hno'
    cases hno'
  · intro _ hno
    cases hno
  · intro j hleads
    by_cases hj : j = i
    · rw [hj, hself] at hleads
      exact hleads.elim
    · rw [hother j hj] at hleads
      obtain ⟨hl', hr', -⟩ := hc.leads j hleads
      exact absurd (huniq j hl' hr') hj
  · intro j hleads hlevel'
    by_cases hj : j = i
    · rw [hj, hself] at hleads
      exact hleads.elim
    · rw [hother j hj] at hleads hlevel'
      exact hc.gathers j hleads hlevel'
  · intro _ j hlead
    by_cases hj : j = i
    · rw [hj, hself]
      exact Nat.le_refl 8
    · rw [hother j hj] at hlead
      exact absurd (huniq j hlead (hrun.round j)) hj
  · intro j
    by_cases hj : j = i
    · rw [hj, hself]
      refine iff_of_false (fun h => ?_) id
      have hholds := (hc.lock i).mp h
      rw [hpc] at hholds
      exact hholds
    · rw [hother j hj]
      exact hc.lock j

/-! ## Every step -/

theorem setPc_vps {t : State n m} (h : t.vps = update s.vps i v) (pc : Pc) :
    (t.setPc i pc).vps = update s.vps i { v with pc } := by
  show update t.vps i { t.vps i with pc } = _
  rw [h, update_self, Function.update_idem]

theorem fill_vps (mc : Machine n m) (s : State n m) (i : Fin n) : (s.fill mc i).vps =
    update s.vps i { s.vps i with toSpace := (s.vps i).toSpace ++ [s.nextChunk mc i] } := rfl

theorem pushToSpaceChunks_vps (mc : Machine n m) (s : State n m) (i : Fin n) : (s.pushToSpaceChunks mc i).vps =
    update s.vps i { s.vps i with toSpace := (s.vps i).toSpace.drop ((s.vps i).toSpace.length - 1) } := rfl

theorem SameControl.of_update (hvps : s'.vps = update s.vps i v) (halike : Pc.Alike (s.vps i).pc v.pc)
    (hv : v.leaderVProc = (s.vps i).leaderVProc ∧ v.round = (s.vps i).round)
    (hflags : s'.gcLock = s.gcLock ∧ s'.allReadyForGC = s.allReadyForGC ∧ s'.globalGCInProgress = s.globalGCInProgress ∧ s'.numGlobalGCs = s.numGlobalGCs ∧ s'.leaders = s.leaders)
    (hcounts : s'.nReadyForGC = s.nReadyForGC ∧ s'.nWaiting = s.nWaiting) : SameControl s s' := by
  obtain ⟨hgc, hall, hprog, hg, hrec⟩ := hflags
  refine ⟨hgc, hcounts.1, hall, hprog, hg, hcounts.2, hrec, fun j => ?_⟩
  by_cases hj : j = i
  · subst hj
    rw [hvps, update_self]
    exact ⟨halike, hv⟩
  · rw [hvps, update_of_ne hj]
    exact ⟨Pc.Alike.refl _, rfl, rfl⟩

/-- A step of the vproc `i` alone, to a place that looks the same. -/
theorem Control.alike {pc : Pc} (hc : Control s) (hpc : (s.vps i).pc = pc)
    (hvps : s'.vps = update s.vps i v) (halike : Pc.Alike pc v.pc)
    (hv : v.leaderVProc = (s.vps i).leaderVProc ∧ v.round = (s.vps i).round)
    (hflags : s'.gcLock = s.gcLock ∧ s'.allReadyForGC = s.allReadyForGC ∧ s'.globalGCInProgress = s.globalGCInProgress ∧ s'.numGlobalGCs = s.numGlobalGCs ∧ s'.leaders = s.leaders)
    (hcounts : s'.nReadyForGC = s.nReadyForGC ∧ s'.nWaiting = s.nWaiting) : Control s' :=
  hc.same (.of_update hvps (hpc ▸ halike) hv hflags hcounts)

theorem control_interrupt {k : Nat} (hk : k < n) (hc : Control s) (hpc : (s.vps i).pc = .interrupt k) :
    Control ((s.interrupt i ⟨k, hk⟩).setPc i (.interrupt (k + 1))) := by
  have halike : Pc.Alike (.interrupt k) (.interrupt (k + 1)) := ⟨rfl, Iff.rfl, Iff.rfl⟩
  unfold State.interrupt
  by_cases hki : (⟨k, hk⟩ : Fin n) = i
  · rw [if_pos hki]
    exact hc.alike hpc rfl halike ⟨rfl, rfl⟩ ⟨rfl, rfl, rfl, rfl, rfl⟩ ⟨rfl, rfl⟩
  · rw [if_neg hki]
    have hc' : Control (s.setVp ⟨k, hk⟩ { s.vps ⟨k, hk⟩ with globalGCPending := true }) :=
      hc.alike rfl rfl (Pc.Alike.refl _) ⟨rfl, rfl⟩ ⟨rfl, rfl, rfl, rfl, rfl⟩ ⟨rfl, rfl⟩
    refine hc'.alike (i := i) ?_ rfl halike ⟨rfl, rfl⟩ ⟨rfl, rfl, rfl, rfl, rfl⟩ ⟨rfl, rfl⟩
    show (update s.vps _ _ i).pc = _
    rw [update_of_ne fun h => hki h.symm]
    exact hpc

/-- From phase 2 to the second barrier. -/
theorem control_toBarrier {pc : Pc} (hc : Control s) (hpc : (s.vps i).pc = pc) (hlevel : pc.level = 4)
    (hlock : ¬ pc.HoldsLock) (hvps : s'.vps = update s.vps i v) (hv : v.pc = .barrier 1)
    (hsame : v.leaderVProc = (s.vps i).leaderVProc ∧ v.round = (s.vps i).round)
    (hflags : s'.gcLock = s.gcLock ∧ s'.allReadyForGC = s.allReadyForGC ∧ s'.globalGCInProgress = s.globalGCInProgress ∧ s'.numGlobalGCs = s.numGlobalGCs ∧ s'.leaders = s.leaders)
    (hwait : s'.nWaiting = s.nWaiting) : Control s' := by
  have hlevel' : v.pc.level = 5 := by rw [hv]; rfl
  have hready := hc.ready (i := i) (by rw [hpc]; omega) (by rw [hpc]; omega)
  exact control_move hc hpc hready hvps hflags hwait hsame (by omega) (by omega) ⟨hlock, by rw [hv]; exact id⟩
    (by rw [hv]; exact id) (fun b hb => by omega) fun b hb => by omega

theorem control_act {mc : Machine n m} (hc : Control s) (h : Act mc s i s') : Control s' := by
  cases h with
  | alloc hpc => exact hc.alike hpc rfl ⟨congrArg _ hpc, by rw [hpc], by rw [hpc]⟩ ⟨rfl, rfl⟩ ⟨rfl, rfl, rfl, rfl, rfl⟩ ⟨rfl, rfl⟩
  | pushMutator hpc =>
    exact hc.alike hpc rfl ⟨congrArg _ hpc, by rw [hpc], by rw [hpc]⟩ ⟨rfl, rfl⟩ ⟨rfl, rfl, rfl, rfl, rfl⟩ ⟨rfl, rfl⟩
  | enter hpc | interrupted hpc | roots hpc | getChunk hpc | getAlloc hpc | getWait hpc | endAlloc hpc
  | endSwitched hpc | endChunk hpc | reclaim hpc => exact hc.alike hpc rfl ⟨rfl, Iff.rfl, Iff.rfl⟩ ⟨rfl, rfl⟩ ⟨rfl, rfl, rfl, rfl, rfl⟩ ⟨rfl, rfl⟩
  | lead hpc hlock hprogress => exact control_lead hc hpc hlock hprogress
  | follow hpc hlock hprogress => exact control_follow hc hpc hlock hprogress
  | interrupt hpc => exact control_interrupt _ hc hpc
  | leaderWait hpc =>
    have hlock : s.gcLock = some i := (hc.lock i).mpr (by rw [hpc]; trivial)
    refine control_leaderWait hc (by rw [hpc]; trivial) (by rw [hpc]; rfl) ⟨trivial, rfl⟩ (iff_of_false nofun id) ?_
    grind
  | leaderWake hpc hlock =>
    refine control_leaderWait hc (by rw [hpc]; trivial) (by rw [hpc]; rfl) ⟨trivial, rfl⟩ (iff_of_true rfl trivial) ?_
    grind
  | go hpc hn => exact control_go hc hpc hn
  | followerWake hpc _ hready =>
    exact control_move hc hpc hready rfl ⟨rfl, rfl, rfl, rfl, rfl⟩ rfl ⟨rfl, rfl⟩ (Nat.zero_le _)
      (show 1 ≤ 7 by decide) ⟨id, id⟩ id
      (fun b (hb : 3 * b.val + 3 ≤ 1) => by omega) fun b (hb : 3 * b.val + 4 ≤ 1) => by omega
  | convert hpc =>
    have hready := hc.ready (i := i) (by rw [hpc]; decide) (by rw [hpc]; decide)
    exact control_move hc hpc hready rfl ⟨rfl, rfl, rfl, rfl, rfl⟩ rfl ⟨rfl, rfl⟩ (show 1 ≤ 2 by decide)
      (show 2 ≤ 7 by decide) ⟨id, id⟩ id
      (fun b (hb : 3 * b.val + 3 ≤ 2) => by omega) fun b (hb : 3 * b.val + 4 ≤ 2) => by omega
  | arrive hpc => exact control_arrive hc hpc
  | depart hpc hn => exact control_depart hc hpc hn
  | first hpc =>
    exact hc.alike hpc (setPc_vps (fill_vps mc s i) _) ⟨rfl, Iff.rfl, Iff.rfl⟩ ⟨rfl, rfl⟩ ⟨rfl, rfl, rfl, rfl, rfl⟩ ⟨rfl, rfl⟩
  | copy _ => exact hc.alike rfl rfl (Pc.Alike.refl _) ⟨rfl, rfl⟩ ⟨rfl, rfl, rfl, rfl, rfl⟩ ⟨rfl, rfl⟩
  | push hpc =>
    exact hc.alike hpc (setPc_vps (pushToSpaceChunks_vps mc s i) _) ⟨rfl, Iff.rfl, Iff.rfl⟩ ⟨rfl, rfl⟩ ⟨rfl, rfl, rfl, rfl, rfl⟩ ⟨rfl, rfl⟩
  | getLast hpc | getCompleted hpc => exact control_toBarrier hc hpc rfl id rfl rfl ⟨rfl, rfl⟩ ⟨rfl, rfl, rfl, rfl, rfl⟩ rfl
  | wake hpc =>
    cases hdone : (s.nodes (mc.node i)).completed with
    | true => exact control_toBarrier hc hpc rfl id rfl rfl ⟨rfl, rfl⟩ ⟨rfl, rfl, rfl, rfl, rfl⟩ rfl
    | false => exact hc.alike hpc rfl ⟨rfl, Iff.rfl, Iff.rfl⟩ ⟨rfl, rfl⟩ ⟨rfl, rfl, rfl, rfl, rfl⟩ ⟨rfl, rfl⟩
  | finish hpc => exact control_finish hc hpc

/-- Where one vproc is between the waits and the end of a collection, all have entered that collection. -/
theorem Control.together (hc : Control s) (h0 : (s.vps i).pc.level ≠ 0) (h9 : (s.vps i).pc.level < 9) (j : Fin n) :
    (s.vps j).round = (s.vps i).round := by
  have hrun := hc.running (hc.ready h0 h9)
  rw [hrun.round j, hrun.round i]

/-- Nobody is out of a collection that is under way. -/
theorem Control.inside (hc : Control s) (hready : s.allReadyForGC = true) (hprogress : s.globalGCInProgress = true)
    (j : Fin n) : (s.vps j).pc.level ≤ 9 := by
  obtain ⟨l, -, -, hle, -⟩ := hc.leader hprogress
  by_contra hno
  have harr := arrived_iff.mp ((hc.running hready).order 2 j l (show 3 * 2 + 4 ≤ (s.vps j).pc.level by omega))
  have h9 : 9 ≤ (s.vps l).pc.level := harr
  omega

end Manticore.ParallelRt.GlobalGC
