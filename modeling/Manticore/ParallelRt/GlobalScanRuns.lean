/-
  Manticore.ParallelRt.GlobalScanRuns — the runs of the copying phase of a global collection.

  - `global_scan`: in every state that the vprocs of a node reach, no word has been scanned twice. Once one of them has
    received `NULL`, every word of every chunk has been scanned, nothing but the others' receiving it can happen, and it
    does; when the last has left, nobody is counted as waiting, and every chunk is on the scanned list or is the
    allocation chunk of one vproc, not both.
-/

import Manticore.ParallelRt.GlobalScanSteps

namespace Manticore.ParallelRt.GlobalScan

open LinkedList Parties Node

variable {n : Nat} {s s' : Node n} {i j : Fin n} {pc : Pc}

/-! ## The waiting vprocs -/

/-- The places that `numWaiting` counts. -/
def Pc.waits : Pc → Bool
  | .asleep | .woken => true
  | _ => false

theorem Pc.ends_of_waits (h : pc.waits = true) : pc.ends = true := by
  cases pc <;> first
    | rfl
    | cases h

theorem Pc.not_waits (h : pc.ends = false) : pc.waits = false := by
  cases pc <;> first
    | rfl
    | cases h

/-- The count of the waiting vprocs, and when the phase is completed. -/
structure Control (s : Node n) : Prop where
  numWaiting : s.numWaiting = ∑ i, (s.vps i).pc.waits.toNat
  ended : s.completed = true → s.unscannedTo = none ∧ ∀ i, (s.vps i).pc.ends = true
  running : s.completed = false → ∀ i, (s.vps i).pc ≠ .broadcast ∧ (s.vps i).pc ≠ .done
  wakes : s.completed = true → ∀ i, (s.vps i).pc = .asleep → ∃ j, (s.vps j).pc = .broadcast
  lock : ∀ i, s.lock = some i → ∃ c, (s.vps i).pc = .pushing c

theorem Control.not_completed (hc : Control s) (hpc : (s.vps i).pc.ends = false) : s.completed = false := by
  by_contra hn
  have hends := (hc.ended (by simpa using hn)).2 i
  rw [hpc] at hends
  cases hends

/-- The sum when one vproc moves. -/
theorem waits_update (hvps : ∀ j, j ≠ i → s'.vps j = s.vps j) :
    (∑ j, (s'.vps j).pc.waits.toNat) + (s.vps i).pc.waits.toNat =
      (∑ j, (s.vps j).pc.waits.toNat) + (s'.vps i).pc.waits.toNat := by
  have hsum := sum_update s.vps (fun vp => vp.pc.waits.toNat) i (s'.vps i)
  grind

theorem waits_setPc (hv : s'.vps = s.vps) : (∑ j, ((s'.setPc i pc).vps j).pc.waits.toNat) + (s.vps i).pc.waits.toNat =
    (∑ j, (s.vps j).pc.waits.toNat) + pc.waits.toNat := by
  have hvps : ∀ j, j ≠ i → (s'.setPc i pc).vps j = s.vps j := fun j hj => (setPc_vps_of_ne hj).trans (congrFun hv j)
  have hsum := waits_update hvps
  rwa [setPc_vps] at hsum

/-- A step of a vproc that has work to do, before and afterwards. -/
theorem Control.run (hc : Control s) (hpc : (s.vps i).pc.ends = false) (hcompleted : s'.completed = s.completed)
    (hw : s'.numWaiting = s.numWaiting) (hvps : ∀ j, j ≠ i → s'.vps j = s.vps j) (hpc' : (s'.vps i).pc.ends = false)
    (hlock : ∀ j, s'.lock = some j → ∃ c, (s'.vps j).pc = .pushing c) : Control s' := by
  have hfalse : s'.completed = false := hcompleted.trans (hc.not_completed hpc)
  refine ⟨?_, fun h => ?_, fun _ j => ?_, fun h => ?_, hlock⟩
  · have hsum := waits_update hvps
    rw [Pc.not_waits hpc, Pc.not_waits hpc'] at hsum
    rw [hw, hc.numWaiting]
    exact (Nat.add_right_cancel hsum).symm
  · rw [hfalse] at h
    cases h
  · by_cases hj : j = i
    · rw [hj]
      constructor <;> intro heq <;> rw [heq] at hpc' <;> cases hpc'
    · rw [hvps j hj]
      exact hc.running (hc.not_completed hpc) j
  · rw [hfalse] at h
    cases h

theorem Control.keepLock (hc : Control s) (hl : s'.lock = s.lock) (hvps : ∀ j, j ≠ i → s'.vps j = s.vps j)
    (hpc : ∀ c, (s.vps i).pc ≠ .pushing c) : ∀ j, s'.lock = some j → ∃ c, (s'.vps j).pc = .pushing c := by
  intro j hj
  rw [hl] at hj
  obtain ⟨c, hcj⟩ := hc.lock j hj
  by_cases hji : j = i
  · rw [hji] at hcj
    exact absurd hcj (hpc c)
  · exact ⟨c, by rw [hvps j hji, hcj]⟩

/-- Such a step that is not in the loop of `PushToSpaceChunks`. -/
theorem Control.run' (hc : Control s) (hpc : (s.vps i).pc.ends = false) (hnp : ∀ c, (s.vps i).pc ≠ .pushing c)
    (hcompleted : s'.completed = s.completed) (hw : s'.numWaiting = s.numWaiting) (hl : s'.lock = s.lock)
    (hvps : ∀ j, j ≠ i → s'.vps j = s.vps j) (hpc' : (s'.vps i).pc.ends = false) : Control s' :=
  hc.run hpc hcompleted hw hvps hpc' (hc.keepLock hl hvps hnp)

theorem copy_vps {len : Nat} : (s.copy i len).vps i =
    { s.vps i with globNextW := (s.vps i).globNextW + wordSzB * (len + 1) } := Function.update_self _ _ _

theorem forward_frame (fresh : Chunk) (len : Nat) (wins : Bool) :
    ((s.forwardObjGlobal i fresh len wins).completed = s.completed ∧
      (s.forwardObjGlobal i fresh len wins).numWaiting = s.numWaiting ∧
      (s.forwardObjGlobal i fresh len wins).lock = s.lock) ∧
      (∀ j, j ≠ i → (s.forwardObjGlobal i fresh len wins).vps j = s.vps j) ∧
      ((s.forwardObjGlobal i fresh len wins).vps i).pc = (s.vps i).pc := by
  have hcopy : ∀ s' : Node n, ∀ j, (j ≠ i → (s'.copy i len).vps j = s'.vps j) ∧
      ((s'.copy i len).vps i).pc = (s'.vps i).pc := fun s' j =>
    ⟨fun hj => Function.update_of_ne hj _ _, by rw [copy_vps]⟩
  have halloc : ∀ j, (j ≠ i → (s.allocToSpaceChunk i fresh).vps j = s.vps j) ∧
      ((s.allocToSpaceChunk i fresh).vps i).pc = (s.vps i).pc := fun j =>
    ⟨fun hj => Function.update_of_ne hj _ _, by rw [alloc_vps]⟩
  unfold Node.forwardObjGlobal
  dsimp only
  by_cases hroom : (s.vps i).globNextW + wordSzB * len ≥ (s.vps i).globLimit
  · rw [if_pos hroom]
    cases wins
    · exact ⟨⟨rfl, rfl, rfl⟩, fun j hj => (halloc j).1 hj, (halloc i).2⟩
    · exact ⟨⟨rfl, rfl, rfl⟩, fun j hj => ((hcopy _ j).1 hj).trans ((halloc j).1 hj), ((hcopy _ i).2).trans (halloc i).2⟩
  · rw [if_neg hroom]
    cases wins
    · exact ⟨⟨rfl, rfl, rfl⟩, fun j hj => rfl, rfl⟩
    · exact ⟨⟨rfl, rfl, rfl⟩, fun j hj => (hcopy s j).1 hj, (hcopy s i).2⟩

/-- A vproc stops waiting for the condition. -/
theorem Control.wakeOne (hc : Control s) (hj : (s.vps j).pc = .asleep) : Control (s.setPc j .woken) := by
  have hvps : ∀ k, k ≠ j → (s.setPc j .woken).vps k = s.vps k := fun k hk => setPc_vps_of_ne hk
  refine ⟨?_, fun h => ⟨(hc.ended h).1, fun k => ?_⟩, fun h k => ?_, fun h k hk => ?_, hc.keepLock rfl hvps ?_⟩
  · have hsum := waits_update hvps
    rw [setPc_vps, hj] at hsum
    exact hc.numWaiting.trans (Nat.add_right_cancel hsum).symm
  · by_cases hk : k = j
    · rw [hk, setPc_vps]
      rfl
    · rw [hvps k hk]
      exact (hc.ended h).2 k
  · by_cases hk : k = j
    · rw [hk, setPc_vps]
      exact ⟨fun h => (nomatch h), fun h => (nomatch h)⟩
    · rw [hvps k hk]
      exact hc.running h k
  · by_cases hkj : k = j
    · rw [hkj, setPc_vps] at hk
      cases hk
    · rw [hvps k hkj] at hk
      obtain ⟨l, hl⟩ := hc.wakes h k hk
      grind
  · intro c
    rw [hj]
    exact fun h => nomatch h

/-! ## `GetNextScanChunk` -/

theorem getNext_control (hc : Control s) (hpc : (s.vps i).pc = .getNext) : Control (s.getNextScanChunk i) := by
  have hends : (s.vps i).pc.ends = false := by
    rw [hpc]
    rfl
  have hnp : ∀ c, (s.vps i).pc ≠ .pushing c := by
    intro c
    rw [hpc]
    exact fun h => nomatch h
  have hfalse := hc.not_completed hends
  have hvps : ∀ {s' : Node n} {pc}, s'.vps = s.vps → ∀ j, j ≠ i → (s'.setPc i pc).vps j = s.vps j := fun h j hj => by
    rw [setPc_vps_of_ne hj, h]
  have hlock : ∀ {s' : Node n}, s'.lock = s.lock → (∀ j, j ≠ i → s'.vps j = s.vps j) →
      ∀ j, s'.lock = some j → ∃ c, (s'.vps j).pc = .pushing c := fun hl hv => hc.keepLock hl hv hnp
  unfold Node.getNextScanChunk
  dsimp only
  split
  · exact hc.run' hends hnp rfl rfl rfl (hvps rfl) (by rw [setPc_vps]; rfl)
  · rename_i hnone
    split
    · exact hc.run' hends hnp rfl rfl rfl (hvps rfl) (by rw [setPc_vps]; rfl)
    · split
      · -- the last one: all others are waiting
        rename_i hlast
        have hwaits : ∀ j, j ≠ i → (s.vps j).pc.waits = true := fun j hj =>
          all_but_one (fun j => (s.vps j).pc.waits) (Pc.not_waits hends)
            (by rw [← hc.numWaiting, Fintype.card_fin, hlast]) hj
        have hsum := @waits_setPc n s { s with completed := true } i .broadcast rfl
        refine ⟨?_, fun _ => ⟨hnone, fun j => ?_⟩, fun h => (nomatch h), fun _ j hj => ⟨i, by rw [setPc_vps]⟩,
          hlock rfl (hvps rfl)⟩
        · rw [Pc.not_waits hends] at hsum
          exact hc.numWaiting.trans (Nat.add_right_cancel hsum).symm
        · by_cases hj : j = i
          · rw [hj, setPc_vps]
            rfl
          · rw [setPc_vps_of_ne hj]
            exact Pc.ends_of_waits (hwaits j hj)
      · split
        · rename_i h
          rw [hfalse] at h
          cases h
        · have hsum := @waits_setPc n s { s with numWaiting := s.numWaiting + 1 } i .asleep rfl
          have hfalse' : ∀ {p : Prop}, s.completed = true → p := fun h => by
            rw [hfalse] at h
            cases h
          refine ⟨?_, hfalse', fun _ j => ?_, hfalse', hlock rfl (hvps rfl)⟩
          · rw [Pc.not_waits hends] at hsum
            show s.numWaiting + 1 = _
            rw [hc.numWaiting]
            exact hsum.symm
          · by_cases hj : j = i
            · rw [hj, setPc_vps]
              exact ⟨fun h => (nomatch h), fun h => (nomatch h)⟩
            · rw [setPc_vps_of_ne hj]
              exact hc.running hfalse j

theorem wake_control (hc : Control s) (hpc : (s.vps i).pc = .woken) : Control (s.wake i) := by
  have hvps : ∀ {s' : Node n} {pc}, s'.vps = s.vps → ∀ j, j ≠ i → (s'.setPc i pc).vps j = s.vps j := fun h j hj => by
    rw [setPc_vps_of_ne hj, h]
  have hnp : ∀ c, (s.vps i).pc ≠ .pushing c := by
    intro c
    rw [hpc]
    exact fun h => nomatch h
  have hone : ∀ {pc : Pc}, pc.waits = false →
      s.numWaiting - 1 = ∑ j, (({ s with numWaiting := s.numWaiting - 1 }.setPc i pc).vps j).pc.waits.toNat := by
    intro pc hw
    have hsum := @waits_setPc n s { s with numWaiting := s.numWaiting - 1 } i pc rfl
    rw [hpc, hw, ← hc.numWaiting] at hsum
    have htrue : (Pc.woken.waits).toNat = 1 := rfl
    rw [htrue] at hsum
    exact (Nat.eq_sub_of_add_eq hsum).symm
  rw [wake_eq]
  by_cases hcompleted : s.completed = true
  · rw [if_pos hcompleted]
    refine ⟨hone rfl, fun h => ⟨(hc.ended h).1, fun j => ?_⟩, fun h => ?_, fun h j hj => ?_, hc.keepLock rfl (hvps rfl) hnp⟩
    · by_cases hj : j = i
      · rw [hj, setPc_vps]
        rfl
      · rw [setPc_vps_of_ne hj]
        exact (hc.ended h).2 j
    · exact absurd hcompleted (by rw [show s.completed = false from h]; exact Bool.false_ne_true)
    · by_cases hji : j = i
      · rw [hji, setPc_vps] at hj
        cases hj
      · rw [setPc_vps_of_ne hji] at hj
        obtain ⟨k, hk⟩ := hc.wakes h j hj
        refine ⟨k, ?_⟩
        grind
  · rw [if_neg hcompleted]
    have hfalse' : ∀ {p : Prop}, s.completed = true → p := fun h => absurd h hcompleted
    refine getNext_control ⟨hone rfl, hfalse', fun h j => ?_, hfalse', hc.keepLock rfl (hvps rfl) hnp⟩ (by rw [setPc_vps])
    by_cases hj : j = i
    · rw [hj, setPc_vps]
      exact ⟨fun h => (nomatch h), fun h => (nomatch h)⟩
    · rw [setPc_vps_of_ne hj]
      exact hc.running h j

theorem broadcast_control (hc : Control s) (hpc : (s.vps i).pc = .broadcast) : Control (s.wakeAll.setPc i .done) := by
  have htrue : s.completed = true := by
    by_contra hn
    exact (hc.running (by simpa using hn) i).1 hpc
  have hends := (hc.ended htrue).2
  have hpcs : ∀ j, j ≠ i → (s.vps j).pc = .asleep ∧ ((s.wakeAll.setPc i .done).vps j).pc = .woken ∨
      (s.vps j).pc ≠ .asleep ∧ ((s.wakeAll.setPc i .done).vps j).pc = (s.vps j).pc := by
    grind [setPc_vps_of_ne, Node.wakeAll]
  have hwaits : ∀ j, ((s.wakeAll.setPc i .done).vps j).pc.waits = (s.vps j).pc.waits := by
    intro j
    by_cases hj : j = i
    · rw [hj, setPc_vps, hpc]
      rfl
    · rcases hpcs j hj with ⟨h, h'⟩ | ⟨-, h'⟩
      · rw [h, h']
        rfl
      · rw [h']
  refine ⟨?_, fun h => ⟨(hc.ended htrue).1, fun j => ?_⟩, fun h => ?_, fun _ j hj => ?_, fun j hj => ?_⟩
  · rw [Finset.sum_congr rfl fun j _ => by rw [hwaits j]]
    exact hc.numWaiting
  · by_cases hj : j = i
    · rw [hj, setPc_vps]
      rfl
    · rcases hpcs j hj with ⟨-, h'⟩ | ⟨-, h'⟩
      · rw [h']
        rfl
      · rw [h']
        exact hends j
  · exact absurd htrue (by rw [show s.completed = false from h]; exact Bool.false_ne_true)
  · by_cases hji : j = i
    · rw [hji, setPc_vps] at hj
      cases hj
    grind
  · obtain ⟨c, hcj⟩ := hc.lock j hj
    have hj' := hends j
    rw [hcj] at hj'
    cases hj'

theorem act_control (hc : Control s) (ha : Act s i s') : Control s' := by
  have hends : ∀ {pc : Pc}, (s.vps i).pc = pc → pc.ends = false → (s.vps i).pc.ends = false := fun h h' => by rw [h, h']
  have hnp : ∀ {pc : Pc}, (s.vps i).pc = pc → (∀ c, pc ≠ .pushing c) → ∀ c, (s.vps i).pc ≠ .pushing c := fun h h' c => by
    rw [h]
    exact h' c
  cases ha with
  | forward fresh len wins hf =>
    obtain ⟨⟨h1, h2, h3⟩, hvps, hpc⟩ := forward_frame (s := s) (i := i) fresh len wins
    have hpcf : (s.vps i).pc.ends = false ∧ ∀ c, (s.vps i).pc ≠ .pushing c := by
      cases h : (s.vps i).pc <;> rw [h] at hf <;> first
        | exact hf.elim
        | exact ⟨rfl, fun c => fun h => nomatch h⟩
    exact hc.run' hpcf.1 hpcf.2 h1 h2 h3 hvps (by rw [hpc]; exact hpcf.1)
  | roots hpc | pushNone hpc _ | signalNone hpc _ | unlink hpc | got hpc | object hpc _ _ _ =>
    exact hc.run' (hends hpc rfl) (hnp hpc fun c h => nomatch h) rfl rfl rfl (fun j hj => setPc_vps_of_ne hj)
      (by rw [setPc_vps]; rfl)
  | pushLock hpc _ _ =>
    refine hc.run (hends hpc rfl) rfl rfl (fun j hj => setPc_vps_of_ne hj) (by rw [setPc_vps]; rfl) fun j hj => ?_
    obtain rfl := Option.some.inj (show some i = some j from hj)
    exact ⟨_, by rw [setPc_vps]⟩
  | pushRound hpc _ =>
    refine hc.run (hends hpc rfl) rfl rfl (fun j hj => setPc_vps_of_ne hj) (by unfold Node.pushRound; rw [setPc_vps]; rfl)
      fun j hj => ?_
    obtain ⟨d, hd⟩ := hc.lock j hj
    unfold Node.pushRound
    by_cases hji : j = i
    · exact ⟨_, by rw [hji, setPc_vps]⟩
    · exact ⟨d, by rw [setPc_vps_of_ne hji]; exact hd⟩
  | pushUnlock hpc _ =>
    refine hc.run (hends hpc rfl) rfl rfl (fun j hj => setPc_vps_of_ne hj) (by rw [setPc_vps]; rfl) fun j hj => ?_
    exact nomatch (show none = some j from hj)
  | @signalOne j hpc hj =>
    have hc' : Control (s.setPc i .getNext) := hc.run' (hends hpc rfl) (hnp hpc fun c h => nomatch h) rfl rfl rfl
      (fun j hj => setPc_vps_of_ne hj) (by rw [setPc_vps]; rfl)
    refine hc'.wakeOne ?_
    rw [setPc_vps_of_ne fun heq => ?_, hj]
    rw [heq, hpc] at hj
    cases hj
  | getNext hpc _ => exact getNext_control hc hpc
  | wake hpc _ => exact wake_control hc hpc
  | @endInner r r' s₁ hpc _ he =>
    have hframe : s₁.completed = s.completed ∧ s₁.numWaiting = s.numWaiting ∧ s₁.lock = s.lock ∧ s₁.vps = s.vps := by
      unfold Node.endInner at he
      split at he
      · cases he
        exact ⟨rfl, rfl, rfl, rfl⟩
      · split at he <;> cases he <;> exact ⟨rfl, rfl, rfl, rfl⟩
    obtain ⟨h1, h2, h3, h4⟩ := hframe
    refine hc.run' (hends hpc rfl) (hnp hpc fun c h => nomatch h) h1 h2 h3
      (fun j hj => (setPc_vps_of_ne hj).trans (congrFun h4 j)) ?_
    rw [setPc_vps]
    dsimp only
    split <;> rfl
  | @endScan r hpc _ =>
    unfold Node.endScan
    dsimp only
    split
    · split
      · split
        · exact hc.run' (hends hpc rfl) (hnp hpc fun c h => nomatch h) rfl rfl rfl (fun j hj => setPc_vps_of_ne hj)
            (by rw [setPc_vps]; rfl)
        · exact hc
      · exact hc.run' (hends hpc rfl) (hnp hpc fun c h => nomatch h) rfl rfl rfl (fun j hj => setPc_vps_of_ne hj)
          (by rw [setPc_vps]; rfl)
    · refine hc.run' (hends hpc rfl) (hnp hpc fun c h => nomatch h) rfl rfl rfl (fun j hj => setPc_vps_of_ne hj) ?_
      rw [setPc_vps]
      dsimp only
      split <;> rfl
  | broadcast hpc => exact broadcast_control hc hpc

theorem step_control (hc : Control s) (hs : Step s s') : Control s' := by
  cases hs with
  | act ha => exact act_control hc ha
  | spurious hpc => exact hc.wakeOne hpc

/-! ## The start -/

theorem start_places (h : Start s) : Places s [] [] fun i => [(i : Nat)] := by
  refine ⟨fun c => ?_, h.unscannedTo, h.scannedTo, List.forall_mem_nil _, List.forall_mem_nil _, fun i => ?_,
    fun c _ => h.scanned c⟩
  · rw [h.nChunks]
    simp only [List.count_nil, Nat.zero_add]
    by_cases hc : c < n
    · rw [if_pos hc, Finset.sum_eq_single ⟨c, hc⟩]
      · exact List.count_singleton_self
      · grind
      · exact fun h => absurd (Finset.mem_univ _) h
    · rw [if_neg hc]
      grind [Finset.sum_eq_zero]
  · obtain ⟨halloc, hpc, hnextW⟩ := h.vps i
    obtain ⟨hprogress, hnext, hobjs⟩ := h.chunks i
    refine ⟨?_, fun c hc hne => ?_, ?_, fun c hc => ?_, ?_⟩
    · unfold Shape
      rw [hpc]
      exact ⟨[], by rw [halloc]; rfl, rfl, hnext⟩
    · rw [halloc] at hne
      exact absurd (List.mem_singleton.mp hc) hne
    · rw [halloc, hnextW, Chunk.top, hobjs]
      rfl
    · rw [List.mem_singleton.mp hc]
      unfold pos
      rw [hpc]
      refine ⟨[], [], hobjs, ?_, h.scanned _⟩
      show max _ _ = _
      rw [hprogress]
      exact Nat.max_zero _
    · unfold Bounds
      rw [hpc]
      exact trivial

theorem start_control (h : Start s) : Control s := by
  have hpc : ∀ i, (s.vps i).pc = .roots i := fun i => (h.vps i).2.1
  have hfalse : ∀ {p : Prop}, s.completed = true → p := fun hc => by
    rw [h.completed] at hc
    cases hc
  refine ⟨?_, hfalse, fun _ i => ?_, hfalse, fun i hi => ?_⟩
  · rw [h.numWaiting, Finset.sum_eq_zero fun i _ => by rw [hpc i]; rfl]
  · rw [hpc i]
    exact ⟨fun h => (nomatch h), fun h => (nomatch h)⟩
  · rw [h.lock] at hi
    cases hi

theorem reachable_inv (h : Reachable s) : (∃ U S H, Places s U S H) ∧ Control s := by
  obtain ⟨s₀, hstart, hsteps⟩ := h
  induction hsteps with
  | refl => exact ⟨⟨_, _, _, start_places hstart⟩, start_control hstart⟩
  | tail _ hstep ih =>
    grind [step_places, step_control]

/-! ## What holds once a vproc has received `NULL` -/

theorem Control.completed (hc : Control s) (hd : (s.vps i).pc = .done) : s.completed = true := by
  by_contra hn
  exact (hc.running (by simpa using hn) i).2 hd

section

variable {U S : List Nat} {H : Fin n → List Nat}

theorem Places.words_nodup (hp : Places s U S H) (c : Nat) : (s.scanned c).Nodup := by
  have hplace := hp.once c
  have hto : ∀ {p}, ScannedTo s c p → (s.scanned c).Nodup := fun ⟨_, _, _, _, hscanned⟩ => by
    rw [hscanned]
    exact GlobalScan.words_nodup _ _
  by_cases hc : c < s.nChunks
  · rw [if_pos hc] at hplace
    by_cases hU : c ∈ U
    · exact hto (hp.unscanned c hU).2
    · by_cases hS : c ∈ S
      · exact hto (hp.scanned c hS).2
      · rw [List.count_eq_zero.mpr hU, List.count_eq_zero.mpr hS] at hplace
        obtain ⟨i, -, hi⟩ := Finset.exists_ne_zero_of_sum_ne_zero (show (∑ i, (H i).count c) ≠ 0 by omega)
        exact hto ((hp.held i).scanned c (List.count_pos_iff.mp (Nat.pos_of_ne_zero hi)))
  · rw [hp.fresh c (by omega)]
    exact List.nodup_nil

/-- A vproc with nothing left to scan has one chunk, which is scanned to its end. -/
theorem Places.ended (hp : Places s U S H) (he : (s.vps i).pc.ends = true) : H i = [(s.vps i).globAllocChunk] ∧
    ScannedTo s (s.vps i).globAllocChunk (s.chunks (s.vps i).globAllocChunk).top := by
  obtain ⟨hprivate, hscanned⟩ := (hp.held i).idle (.inr he)
  have hmark := hscanned _ hprivate.mem
  have hle := hmark.le_top
  have hge := (hp.held i).top_le he
  have heq : (s.chunks (s.vps i).globAllocChunk).mark = (s.chunks (s.vps i).globAllocChunk).top :=
    Nat.le_antisymm hle (Nat.le_trans hge (Nat.le_max_right _ _))
  rw [heq] at hmark
  exact ⟨hprivate.alone (hp.nodup i), hmark⟩

/-- Then every chunk is on the scanned list or an allocation chunk, and scanned to its end. -/
theorem Places.completed (hp : Places s U S H) (hn : s.unscannedTo = none) (he : ∀ i, (s.vps i).pc.ends = true) :
    (∀ c < s.nChunks, S.count c + ∑ i, [(s.vps i).globAllocChunk].count c = 1) ∧
      ∀ c < s.nChunks, ScannedTo s c (s.chunks c).top := by
  have hU : U = [] := by
    have hlinked := hp.unscannedTo
    rw [hn] at hlinked
    exact linked_none.mp hlinked
  have hsum : ∀ c, (∑ i, (H i).count c) = ∑ i, [(s.vps i).globAllocChunk].count c := fun c =>
    Finset.sum_congr rfl fun i _ => by rw [(hp.ended (he i)).1]
  have hone : ∀ c < s.nChunks, S.count c + ∑ i, [(s.vps i).globAllocChunk].count c = 1 := by
    intro c hc
    have honce := hp.once c
    rw [hU, List.count_nil, Nat.zero_add, if_pos hc, hsum] at honce
    exact honce
  refine ⟨hone, fun c hc => ?_⟩
  by_cases hS : c ∈ S
  · exact (hp.scanned c hS).2
  · have honce := hone c hc
    rw [List.count_eq_zero.mpr hS, Nat.zero_add] at honce
    obtain ⟨i, -, hi⟩ := Finset.exists_ne_zero_of_sum_ne_zero
      (show (∑ i, [(s.vps i).globAllocChunk].count c) ≠ 0 by omega)
    have hci := List.mem_singleton.mp (List.count_pos_iff.mp (Nat.pos_of_ne_zero hi))
    rw [hci]
    exact (hp.ended (he i)).2

end

/-- How far the vprocs are from having left. -/
def Pc.left : Pc → Nat
  | .asleep => 2
  | .woken | .broadcast => 1
  | _ => 0

/-- After the end every step brings a vproc closer to leaving. -/
theorem step_left (hc : Control s) (ht : s.completed = true) (hs : Step s s') :
    s'.completed = true ∧ (∑ i, (s'.vps i).pc.left) < ∑ i, (s.vps i).pc.left := by
  have hends := (hc.ended ht).2
  have hmove : ∀ {s₁ : Node n} {i pc}, s₁.vps = s.vps → pc.left < (s.vps i).pc.left →
      (∑ j, ((s₁.setPc i pc).vps j).pc.left) < ∑ j, (s.vps j).pc.left := by
    intro s₁ i pc hv hlt
    have hsum : (∑ j, (Function.update s.vps i { s.vps i with pc } j).pc.left) + (s.vps i).pc.left =
        (∑ j, (s.vps j).pc.left) + pc.left := sum_update s.vps (fun vp => vp.pc.left) i { s.vps i with pc }
    have hfun : (s₁.setPc i pc).vps = Function.update s.vps i { s.vps i with pc } := by
      unfold Node.setPc
      dsimp only
      rw [hv]
    rw [hfun]
    omega
  cases hs with
  | spurious hpc => exact ⟨ht, hmove rfl (by rw [hpc]; decide)⟩
  | @act i _ ha =>
    have he := hends i
    cases ha with
    | wake hpc _ =>
      rw [wake_eq, if_pos ht]
      exact ⟨ht, hmove rfl (by rw [hpc]; decide)⟩
    | broadcast hpc =>
      refine ⟨ht, ?_⟩
      refine Finset.sum_lt_sum (fun j _ => ?_) ⟨i, Finset.mem_univ i, ?_⟩
      · by_cases hj : j = i
        · rw [hj, setPc_vps]
          exact Nat.zero_le _
        · rw [setPc_vps_of_ne hj]
          unfold Node.wakeAll
          dsimp only
          split
          · rename_i h
            rw [h]
            exact Nat.le_succ 1
          · exact Nat.le_refl _
      · rw [setPc_vps, hpc]
        exact Nat.zero_lt_one
    | signalOne hpc _ | signalNone hpc _ | getNext hpc _ | unlink hpc | got hpc | object hpc _ _ _ | endInner hpc _ _
    | endScan hpc _ | roots hpc | pushNone hpc _ | pushLock hpc _ _ | pushRound hpc _ | pushUnlock hpc _ =>
      rw [hpc] at he
      cases he
    | forward fresh len wins hf =>
      cases hpc : (s.vps i).pc <;> rw [hpc] at hf he <;> first
        | exact hf.elim
        | cases he

/-- So the steps come to an end. -/
theorem ends_acc (hc : Control s) (ht : s.completed = true) : Acc (fun t' t => Step t t') s := by
  induction hk : (∑ i, (s.vps i).pc.left) using Nat.strongRecOn generalizing s with
  | ind k ih =>
    refine Acc.intro s fun s' hs => ?_
    grind [step_left, step_control]

/-- They do not before every vproc has received `NULL`. -/
theorem done_of_stuck (hc : Control s) (ht : s.completed = true) (hstuck : ∀ i s', ¬ Act s i s') (i : Fin n) :
    (s.vps i).pc = .done := by
  have hends := (hc.ended ht).2
  have hlock : s.lock = none := by
    by_contra hn
    obtain ⟨j, hj⟩ := Option.ne_none_iff_exists'.mp hn
    obtain ⟨c, hcj⟩ := hc.lock j hj
    have hj' := hends j
    rw [hcj] at hj'
    cases hj'
  have he := hends i
  cases hpc : (s.vps i).pc <;> rw [hpc] at he
  case woken => exact absurd (.wake hpc hlock) (hstuck i _)
  case broadcast => exact absurd (.broadcast hpc) (hstuck i _)
  case asleep =>
    obtain ⟨j, hj⟩ := hc.wakes ht i hpc
    exact absurd (.broadcast hj) (hstuck j _)
  all_goals cases he

/-! ## The phase -/

/-- What the copying phase guarantees in a state. -/
structure Sound (s : Node n) : Prop where
  /-- No word is scanned twice. -/
  once : ∀ c, (s.scanned c).Nodup
  /-- The extent of a chunk, as the runtime records it. -/
  extent : (∀ i, (s.vps i).globNextW = (s.chunks (s.vps i).globAllocChunk).top + wordSzB) ∧
    ∀ c < s.nChunks, (∀ i, c ≠ (s.vps i).globAllocChunk) → (s.chunks c).usedTop = (s.chunks c).top
  /-- Before a vproc receives `NULL`, every word of every chunk is scanned. -/
  full : (∃ i, (s.vps i).pc = .done) → ∀ c < s.nChunks,
    s.scanned c = words (s.chunks c).baseAddr (s.chunks c).objs.sum
  /-- When one has received it, no other gets a chunk any more, and all steps lead to all having received it. -/
  all : (∃ i, (s.vps i).pc = .done) → (∀ i, (s.vps i).pc.ends = true) ∧ Acc (fun t' t => Step t t') s ∧
    ∀ s', Relation.ReflTransGen Step s s' → (∀ i t, ¬ Act s' i t) → ∀ i, (s'.vps i).pc = .done
  /-- When the last one has left, nobody is counted, and every chunk is at one place. -/
  last : 0 < n → (∀ i, (s.vps i).pc = .done) → s.numWaiting = 0 ∧ s.unscannedTo = none ∧
    ∃ S, Linked (nextOf s) s.scannedTo S ∧ ∀ c < s.nChunks, S.count c + ∑ i, [(s.vps i).globAllocChunk].count c = 1

/-- Whatever the number of vprocs of the node, the objects and the order of the steps. -/
theorem global_scan (h : Reachable s) : Sound s := by
  obtain ⟨⟨U, S, H, hp⟩, hc⟩ := reachable_inv h
  refine ⟨hp.words_nodup, ⟨fun i => (hp.held i).globNextW, fun c hcn hne => ?_⟩, fun ⟨i, hi⟩ c hcn => ?_,
    fun ⟨i, hi⟩ => ?_, fun hn hall => ?_⟩
  · have honce := hp.once c
    rw [if_pos hcn] at honce
    by_cases hU : c ∈ U
    · exact (hp.unscanned c hU).1
    · by_cases hS : c ∈ S
      · exact (hp.scanned c hS).1
      · rw [List.count_eq_zero.mpr hU, List.count_eq_zero.mpr hS] at honce
        obtain ⟨i, -, hi⟩ := Finset.exists_ne_zero_of_sum_ne_zero (show (∑ i, (H i).count c) ≠ 0 by omega)
        exact (hp.held i).usedTop c (List.count_pos_iff.mp (Nat.pos_of_ne_zero hi)) (hne i)
  · obtain ⟨hnone, hends⟩ := hc.ended (hc.completed hi)
    exact ((hp.completed hnone hends).2 c hcn).full
  · have ht := hc.completed hi
    refine ⟨(hc.ended ht).2, ends_acc hc ht, fun s' hsteps hstuck => ?_⟩
    have hinv : Control s' ∧ s'.completed = true := by
      clear hstuck
      induction hsteps with
      | refl => exact ⟨hc, ht⟩
      | tail _ hstep ih => exact ⟨step_control ih.1 hstep, (step_left ih.1 ih.2 hstep).1⟩
    exact done_of_stuck hinv.1 hinv.2 hstuck
  · obtain ⟨hnone, hends⟩ := hc.ended (hc.completed (hall ⟨0, hn⟩))
    refine ⟨?_, hnone, S, hp.scannedTo, (hp.completed hnone hends).1⟩
    rw [hc.numWaiting, Finset.sum_eq_zero fun i _ => by rw [hall i]; rfl]

/-! ## A run -/

/-- One vproc with a chunk of 100 words. -/
def oneVProc : Node 1 where
  chunks _ := ⟨1000, 800, 0, 0, none, []⟩
  nChunks := 1
  unscannedTo := none
  scannedTo := none
  numWaiting := 0
  completed := false
  lock := none
  vps _ := ⟨0, 1008, 1800, .roots 0⟩
  scanned _ := []

theorem oneVProc_start : Start oneVProc :=
  ⟨rfl, rfl, rfl, rfl, rfl, rfl, fun i => by rw [Fin.eq_zero i]; exact ⟨rfl, rfl, rfl⟩, fun _ => ⟨rfl, rfl, rfl⟩, fun _ => rfl⟩

/-- It copies an object of two fields, scans it and leaves. -/
theorem oneVProc_run : ∃ s, Relation.ReflTransGen Step oneVProc s ∧ (s.vps 0).pc = .done ∧ s.scanned 0 = words 1000 3 := by
  have h₁ := Relation.ReflTransGen.single
    (Step.act (Act.forward (s := oneVProc) (i := 0) ⟨1000, 800, 0, 0, none, []⟩ 2 true trivial))
  have h₂ := h₁.tail (.act (.roots (i := 0) rfl))
  have h₃ := h₂.tail (.act (.pushNone (i := 0) rfl rfl))
  have h₄ := h₃.tail (.act (.getNext (i := 0) rfl rfl))
  have h₅ := h₄.tail (.act (.got (i := 0) (c := 0) rfl))
  have h₆ := h₅.tail (.act (@Act.object 1 _ 0 ⟨0, 1000, 1024, 0, true⟩ [] [] 3 rfl (by decide) rfl rfl))
  have h₇ := h₆.tail (.act (.endInner (i := 0) rfl (by decide) rfl))
  have h₈ := h₇.tail (.act (.endScan (i := 0) rfl fun _ => rfl))
  have h₉ := h₈.tail (.act (.getNext (i := 0) rfl rfl))
  exact ⟨_, h₉.tail (.act (.broadcast (i := 0) rfl)), rfl, rfl⟩

theorem global_scan_one : ∃ s : Node 1, (s.vps 0).pc = .done ∧ s.scanned 0 = words 1000 3 ∧ Sound s := by
  obtain ⟨s, hsteps, hpc, hscanned⟩ := oneVProc_run
  exact ⟨s, hpc, hscanned, global_scan ⟨oneVProc, oneVProc_start, hsteps⟩⟩

end Manticore.ParallelRt.GlobalScan
