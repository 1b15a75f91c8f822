/-
  Manticore.ParallelRt.GlobalGCLists — the lists of chunks during the collections.

  A chunk is in one list only, and the list it is in goes with its status (`Lists`): a to-space chunk belongs to a vproc
  or is in one of a node's two to-space lists, a from-space chunk is in a node's from-space list and a free one among a
  node's free chunks. Beside this, a node counts its vprocs that sleep (`Waiting`).

  - `lists_act`: a step keeps `Lists`; the leader's reclaiming of a node does if the node has nothing unscanned.
  - `waiting_act`: a step keeps `Waiting`.
-/

import Manticore.ParallelRt.GlobalGCBarriers

namespace Manticore.ParallelRt.GlobalGC

open Parties
open Function (update update_self update_of_ne update_eq_self)
open List (count_append count_pos_iff mem_cons_self perm_iff_count count_nil count)
open State (nextChunk afterBarrier)

variable {n m : Nat}

/-- The chunk that the vproc has taken from the unscanned list. -/
def Pc.held : Pc → List Nat
  | .scanChunk c => [c]
  | _ => []

def VProc.chunks (v : VProc) : List Nat := v.toSpace ++ v.pc.held

def NodeHeap.toSpace (h : NodeHeap) : List Nat := h.unscannedTo ++ h.scannedTo

/-! ## In how many lists a chunk is -/

def State.inToSpace (s : State n m) (c : Nat) : Nat :=
  (∑ i, (s.vps i).chunks.count c) + ∑ nd, (s.nodes nd).toSpace.count c

def State.inFromSpace (s : State n m) (c : Nat) : Nat := ∑ nd, (s.nodes nd).fromSpace.count c

def State.inFree (s : State n m) (c : Nat) : Nat := ∑ nd, (s.nodes nd).freeChunks.count c

structure Lists (s : State n m) : Prop where
  toSpace : ∀ c, s.inToSpace c = (decide (s.sts c = .toSpace)).toNat
  fromSpace : ∀ c, s.inFromSpace c = (decide (s.sts c = .fromSpace)).toNat
  free : ∀ c, s.inFree c = (decide (s.sts c = .free ∧ c < s.nChunks)).toNat
  fresh : ∀ c, s.nChunks ≤ c → s.sts c = .free

variable {s s' : State n m} {i : Fin n} {nd : Fin m} {v : VProc} {hd : NodeHeap} {pc : Pc} {mc : Machine n m}

theorem lists_start (h : Start s) : Lists s := by
  have hnodes : ∀ nd c, (s.nodes nd).toSpace.count c = 0 ∧ (s.nodes nd).fromSpace.count c = 0 ∧
      (s.nodes nd).freeChunks.count c = 0 := by
    intro nd c
    obtain ⟨hu, hs, hf, hfree, -⟩ := h.nodes nd
    rw [NodeHeap.toSpace, hu, hs, hf, hfree]
    exact ⟨rfl, rfl, rfl⟩
  have hvps : ∀ i, (s.vps i).chunks = [i.val] := by
    intro i
    obtain ⟨hpc, hto, -⟩ := h.vps i
    rw [VProc.chunks, hpc, hto]
    rfl
  refine ⟨?_, ?_, ?_, ?_⟩
  · intro c
    rw [State.inToSpace, Finset.sum_eq_zero fun nd _ => (hnodes nd c).1, Nat.add_zero, h.sts c]
    simp only [hvps]
    by_cases hc : c < n
    · rw [if_pos hc, Finset.sum_eq_single ⟨c, hc⟩]
      · simp
      · grind
      · intro hno
        exact absurd (Finset.mem_univ _) hno
    · rw [if_neg hc]
      refine (Finset.sum_eq_zero fun i _ => ?_).trans rfl
      have hne : i.val ≠ c := fun he => hc (he ▸ i.isLt)
      simp [hne]
  · intro c
    rw [State.inFromSpace, Finset.sum_eq_zero fun nd _ => (hnodes nd c).2.1, h.sts c]
    by_cases hc : c < n
    · rw [if_pos hc]
      rfl
    · rw [if_neg hc]
      rfl
  · intro c
    rw [State.inFree, Finset.sum_eq_zero fun nd _ => (hnodes nd c).2.2, h.sts c, h.nChunks]
    by_cases hc : c < n
    · rw [if_pos hc]
      rfl
    · rw [decide_eq_false fun hfree => hc hfree.2]
      rfl
  · intro c hc
    rw [h.nChunks] at hc
    rw [h.sts c, if_neg (by omega)]

/-- A vproc and a node change. -/
theorem Lists.change (h : Lists s) (hvps : s'.vps = update s.vps i v)
    (hnodes : s'.nodes = update s.nodes nd hd)
    (hto : ∀ c, v.chunks.count c + hd.toSpace.count c + (decide (s.sts c = .toSpace)).toNat = (s.vps i).chunks.count c + (s.nodes nd).toSpace.count c + (decide (s'.sts c = .toSpace)).toNat)
    (hfrom : ∀ c, hd.fromSpace.count c + (decide (s.sts c = .fromSpace)).toNat = (s.nodes nd).fromSpace.count c + (decide (s'.sts c = .fromSpace)).toNat)
    (hfree : ∀ c, hd.freeChunks.count c + (decide (s.sts c = .free ∧ c < s.nChunks)).toNat = (s.nodes nd).freeChunks.count c + (decide (s'.sts c = .free ∧ c < s'.nChunks)).toNat)
    (hfresh : ∀ c, s'.nChunks ≤ c → s'.sts c = .free) : Lists s' := by
  refine ⟨?_, ?_, ?_, hfresh⟩
  · intro c
    have hold := h.toSpace c
    have hv := sum_update s.vps (fun v => v.chunks.count c) i v
    have hn := sum_update s.nodes (fun h => h.toSpace.count c) nd hd
    have hc := hto c
    unfold State.inToSpace at hold ⊢
    rw [hvps, hnodes]
    omega
  · intro c
    have hold := h.fromSpace c
    have hn := sum_update s.nodes (fun h => h.fromSpace.count c) nd hd
    have hc := hfrom c
    unfold State.inFromSpace at hold ⊢
    rw [hnodes]
    omega
  · intro c
    have hold := h.free c
    have hn := sum_update s.nodes (fun h => h.freeChunks.count c) nd hd
    have hc := hfree c
    unfold State.inFree at hold ⊢
    rw [hnodes]
    omega

/-- Chunks move between the vproc and the to-space lists of the node. -/
theorem Lists.move (h : Lists s) (hvps : s'.vps = update s.vps i v)
    (hnodes : s'.nodes = update s.nodes nd hd)
    (hto : (v.chunks ++ hd.toSpace).Perm ((s.vps i).chunks ++ (s.nodes nd).toSpace))
    (hsame : hd.fromSpace = (s.nodes nd).fromSpace ∧ hd.freeChunks = (s.nodes nd).freeChunks)
    (hsts : s'.sts = s.sts ∧ s'.nChunks = s.nChunks) : Lists s' := by
  refine h.change hvps hnodes ?_ ?_ ?_ ?_
  · intro c
    have hc := hto.count_eq c
    rw [count_append, count_append] at hc
    rw [hsts.1]
    omega
  · intro c
    rw [hsame.1, hsts.1]
  · intro c
    rw [hsame.2, hsts.1, hsts.2]
  · rw [hsts.1, hsts.2]
    exact h.fresh

/-- No chunk moves. -/
theorem Lists.stay (h : Lists s) (hvps : s'.vps = update s.vps i v) (hchunks : v.chunks = (s.vps i).chunks)
    (hnodes : s'.nodes = s.nodes) (hsts : s'.sts = s.sts ∧ s'.nChunks = s.nChunks) : Lists s' := by
  obtain ⟨hst, hn⟩ := hsts
  have hall : ∀ j, (s'.vps j).chunks = (s.vps j).chunks := by
    intro j
    by_cases hj : j = i
    · rw [hj, hvps, update_self, hchunks]
    · rw [hvps, update_of_ne hj]
  refine ⟨?_, ?_, ?_, ?_⟩
  · intro c
    rw [State.inToSpace, hnodes, hst]
    simp only [hall]
    exact h.toSpace c
  · intro c
    rw [State.inFromSpace, hnodes, hst]
    exact h.fromSpace c
  · intro c
    rw [State.inFree, hnodes, hst, hn]
    exact h.free c
  · rw [hst, hn]
    exact h.fresh

theorem Lists.stay_pc (h : Lists s) (hpc : (s.vps i).pc = pc) (hvps : s'.vps = update s.vps i v)
    (hchunks : v.toSpace = (s.vps i).toSpace ∧ v.pc.held = pc.held) (hnodes : s'.nodes = s.nodes)
    (hsts : s'.sts = s.sts ∧ s'.nChunks = s.nChunks) : Lists s' :=
  h.stay hvps (by rw [VProc.chunks, VProc.chunks, hchunks.1, hchunks.2, hpc]) hnodes hsts

/-! ## What a chunk in a list is -/

theorem Lists.toSpace_le (h : Lists s) (i : Fin n) (nd : Fin m) (c : Nat) :
    (s.vps i).chunks.count c + (s.nodes nd).toSpace.count c ≤ (decide (s.sts c = .toSpace)).toNat := by
  rw [← h.toSpace c]
  exact Nat.add_le_add (le_sum (fun i => (s.vps i).chunks.count c) i) (le_sum (fun nd => (s.nodes nd).toSpace.count c) nd)

theorem Lists.fromSpace_le (h : Lists s) (nd : Fin m) (c : Nat) :
    (s.nodes nd).fromSpace.count c ≤ (decide (s.sts c = .fromSpace)).toNat := by
  rw [← h.fromSpace c]
  exact le_sum (fun nd => (s.nodes nd).fromSpace.count c) nd

theorem Lists.free_le (h : Lists s) (nd : Fin m) (c : Nat) :
    (s.nodes nd).freeChunks.count c ≤ (decide (s.sts c = .free ∧ c < s.nChunks)).toNat := by
  rw [← h.free c]
  exact le_sum (fun nd => (s.nodes nd).freeChunks.count c) nd

theorem pos_of_le_toNat {p : Prop} [Decidable p] {k : Nat} (h : k ≤ (decide p).toNat) (hk : 0 < k) : p ∧ k = 1 := by
  by_cases hp : p
  · rw [decide_eq_true hp, Bool.toNat_true] at h
    exact ⟨hp, by omega⟩
  · rw [decide_eq_false hp, Bool.toNat_false] at h
    omega

/-- The chunk that `AllocToSpaceChunk` takes is free. -/
theorem Lists.nextChunk_free (mc : Machine n m) (h : Lists s) (i : Fin n) : s.sts (s.nextChunk mc i) = .free := by
  unfold nextChunk
  cases hf : (s.nodes (mc.node i)).freeChunks with
  | nil => exact h.fresh _ (Nat.le_refl _)
  | cons c cs =>
    have hle := h.free_le (mc.node i) c
    rw [hf] at hle
    exact (pos_of_le_toNat hle (count_pos_iff.mpr mem_cons_self)).1.1

/-! ## The steps -/

theorem lists_allocToSpaceChunk (h : Lists s) (i : Fin n) : Lists (s.allocToSpaceChunk mc i) := by
  have hfree := h.nextChunk_free mc i
  have hsts : ∀ c, (s.allocToSpaceChunk mc i).sts c = if c = s.nextChunk mc i then .toSpace else s.sts c := fun c =>
    Function.update_apply ..
  refine h.change (i := i) rfl rfl ?_ ?_ ?_ ?_
  · intro c
    rw [hsts]
    show ((_ ++ [s.nextChunk mc i]) ++ _).count c + (s.nodes (mc.node i)).toSpace.count c + _ =
      ((s.vps i).toSpace ++ _).count c + _ + _
    grind
  · grind
  · intro c
    rw [hsts]
    show (s.nodes (mc.node i)).freeChunks.tail.count c + _ = (s.nodes (mc.node i)).freeChunks.count c + _
    cases hf : (s.nodes (mc.node i)).freeChunks with
    | nil =>
      have hnext : s.nextChunk mc i = s.nChunks := by rw [nextChunk, hf]; rfl
      have hn : (s.allocToSpaceChunk mc i).nChunks = s.nChunks + 1 := if_pos hf
      rw [hn, hnext]
      by_cases hc : c = s.nChunks
      · rw [if_pos hc, hc]
        simp
      · rw [if_neg hc]
        have hlt : c < s.nChunks + 1 ↔ c < s.nChunks := by omega
        simp only [hlt]
        rfl
    | cons c' cs =>
      have hnext : s.nextChunk mc i = c' := by rw [nextChunk, hf]; rfl
      have hn : (s.allocToSpaceChunk mc i).nChunks = s.nChunks := if_neg (by rw [hf]; exact nofun)
      rw [hn, hnext]
      by_cases hc : c = c'
      · subst hc
        have hle := h.free_le (mc.node i) c
        rw [hf] at hle
        obtain ⟨hboth, -⟩ := pos_of_le_toNat hle (count_pos_iff.mpr mem_cons_self)
        rw [if_pos rfl, decide_eq_true hboth, List.count_cons_self]
        simp
      · rw [if_neg hc, List.count_cons_of_ne (fun he => hc he.symm)]
        rfl
  · intro c hc
    have hle : s.nChunks ≤ (s.allocToSpaceChunk mc i).nChunks := by
      show s.nChunks ≤ if (s.nodes (mc.node i)).freeChunks = [] then s.nChunks + 1 else s.nChunks
      split
      · exact Nat.le_succ _
      · exact Nat.le_refl _
    have hne : c ≠ s.nextChunk mc i := by
      rintro rfl
      unfold nextChunk at hc
      cases hf : (s.nodes (mc.node i)).freeChunks with
      | nil =>
        have hn : (s.allocToSpaceChunk mc i).nChunks = s.nChunks + 1 := if_pos hf
        rw [hf, hn] at hc
        exact absurd hc (Nat.not_succ_le_self _)
      | cons c' cs =>
        have hb := h.free_le (mc.node i) c'
        rw [hf] at hb hc
        have hlt := (pos_of_le_toNat hb (count_pos_iff.mpr mem_cons_self)).1.2
        exact absurd (Nat.le_trans hle hc) (Nat.not_le.mpr hlt)
    rw [hsts, if_neg hne]
    exact h.fresh c (Nat.le_trans hle hc)

theorem dropLast_append_drop {α : Type} (l : List α) : l.dropLast ++ l.drop (l.length - 1) = l := by
  rw [List.dropLast_eq_take, List.take_append_drop]

theorem lists_pushToSpaceChunks (h : Lists s) (i : Fin n) : Lists (s.pushToSpaceChunks mc i) := by
  refine h.move (i := i) rfl rfl ?_ ⟨rfl, rfl⟩ ⟨rfl, rfl⟩
  show (((s.vps i).toSpace.drop _ ++ _) ++ (((s.vps i).toSpace.dropLast.reverse ++ _) ++ _)).Perm
    (((s.vps i).toSpace ++ _) ++ _)
  refine perm_iff_count.mpr fun c => ?_
  have hl := congrArg (count c) (dropLast_append_drop (s.vps i).toSpace)
  simp only [NodeHeap.toSpace, count_append, List.count_reverse] at hl ⊢
  omega

theorem convert_nodes (mc : Machine n m) (s : State n m) (i : Fin n) : (s.convert mc i).nodes =
    update s.nodes (mc.node i) { s.nodes (mc.node i) with
      completed := false
      fromSpace := (s.nodes (mc.node i)).unscannedTo.reverse ++
        ((s.vps i).toSpace.reverse ++ (s.nodes (mc.node i)).fromSpace)
      unscannedTo := [] } := by
  simp only [State.convert, State.convertToSpaceChunks, State.setNode, State.setVp, Function.update_idem,
    update_self]

theorem lists_convert (h : Lists s) (hpc : (s.vps i).pc = .setup) : Lists (s.convert mc i) := by
  have hheld : (s.vps i).chunks = (s.vps i).toSpace := by
    rw [VProc.chunks, hpc]
    exact List.append_nil _
  have hsts : ∀ c, (s.convert mc i).sts c = if c ∈ (s.nodes (mc.node i)).unscannedTo then .fromSpace else
      if c ∈ (s.vps i).toSpace then .fromSpace else s.sts c := fun _ => rfl
  -- the chunks that are converted are to-space chunks, each of them once
  have hcases : ∀ c, ((s.vps i).toSpace.count c + (s.nodes (mc.node i)).unscannedTo.count c = 1 ∧ s.sts c = .toSpace ∧
      (s.convert mc i).sts c = .fromSpace) ∨ ((s.vps i).toSpace.count c + (s.nodes (mc.node i)).unscannedTo.count c = 0 ∧
      (s.convert mc i).sts c = s.sts c) := by
    intro c
    have hle := h.toSpace_le i (mc.node i) c
    rw [hheld, NodeHeap.toSpace, count_append] at hle
    by_cases hu : c ∈ (s.nodes (mc.node i)).unscannedTo
    · have hpos := count_pos_iff.mpr hu
      obtain ⟨hst, hone⟩ := pos_of_le_toNat hle (by omega)
      exact .inl ⟨by omega, hst, by rw [hsts, if_pos hu]⟩
    · by_cases ht : c ∈ (s.vps i).toSpace
      · have hpos := count_pos_iff.mpr ht
        obtain ⟨hst, hone⟩ := pos_of_le_toNat hle (by omega)
        exact .inl ⟨by omega, hst, by rw [hsts, if_neg hu, if_pos ht]⟩
      simp [hsts, hu, ht, List.count_eq_zero_of_not_mem]
  refine h.change (i := i) rfl (convert_nodes mc s i) ?_ ?_ ?_ ?_
  · intro c
    rw [hheld]
    show 0 + ([] ++ (s.nodes (mc.node i)).scannedTo).count c + _ = _
    rw [NodeHeap.toSpace, count_append, count_append, count_nil]
    grind
  · grind
  · intro c
    rcases hcases c with ⟨-, hst, hst'⟩ | ⟨-, hst'⟩
    · rw [hst, hst']
      rfl
    · rw [hst']
      rfl
  · intro c hc
    rcases hcases c with ⟨-, hst, -⟩ | ⟨-, hst'⟩
    · rw [h.fresh c hc] at hst
      cases hst
    · rw [hst']
      exact h.fresh c hc

theorem lists_reclaim (h : Lists s) (hnone : (s.nodes nd).unscannedTo = []) : Lists (s.reclaim i nd) := by
  have hsts : ∀ c, (s.reclaim i nd).sts c = if c ∈ (s.nodes nd).fromSpace then .free else s.sts c := fun _ => rfl
  have hcases : ∀ c, ((s.nodes nd).fromSpace.count c = 1 ∧ s.sts c = .fromSpace ∧ (s.reclaim i nd).sts c = .free ∧
      c < s.nChunks) ∨ ((s.nodes nd).fromSpace.count c = 0 ∧ (s.reclaim i nd).sts c = s.sts c) := by
    intro c
    by_cases hf : c ∈ (s.nodes nd).fromSpace
    · obtain ⟨hst, hone⟩ := pos_of_le_toNat (h.fromSpace_le nd c) (count_pos_iff.mpr hf)
      refine .inl ⟨hone, hst, by rw [hsts, if_pos hf], ?_⟩
      by_contra hge
      rw [h.fresh c (by omega)] at hst
      cases hst
    · exact .inr ⟨List.count_eq_zero_of_not_mem hf, by rw [hsts, if_neg hf]⟩
  have hn : (s.reclaim i nd).nChunks = s.nChunks := rfl
  refine h.change (i := i) (v := s.vps i) (update_eq_self ..).symm rfl ?_ ?_ ?_ ?_
  · grind [NodeHeap.toSpace]
  · grind
  · grind
  · intro c hc
    rcases hcases c with ⟨-, -, hst', -⟩ | ⟨-, hst'⟩
    · exact hst'
    · rw [hst']
      exact h.fresh c hc

theorem Lists.setPc (h : Lists s) (hheld : pc.held = (s.vps i).pc.held) : Lists (s.setPc i pc) :=
  h.stay (i := i) rfl (by rw [VProc.chunks, VProc.chunks, hheld]) rfl ⟨rfl, rfl⟩

theorem afterBarrier_held (leaderVProc : Bool) (b : Fin 3) : (afterBarrier leaderVProc b).held = [] :=
  match leaderVProc, b with
  | true, 0 => rfl
  | true, 1 => rfl
  | true, 2 => rfl
  | false, 0 => rfl
  | false, 1 => rfl
  | false, 2 => rfl

theorem lists_act (h : Lists s)
    (hnone : ∀ k (hk : k < m), (s.vps i).pc = .reclaim k → (s.nodes ⟨k, hk⟩).unscannedTo = [])
    (hact : Act mc s i s') : Lists s' := by
  cases hact with
  | alloc hpc => exact lists_allocToSpaceChunk h i
  | pushMutator hpc => exact lists_pushToSpaceChunks h i
  | enter hpc | lead hpc | interrupted hpc | leaderWait hpc | leaderWake hpc | go hpc | followerWake hpc
  | roots hpc | getAlloc hpc | getCompleted hpc | endAlloc hpc | finish hpc => exact h.stay_pc hpc rfl ⟨rfl, rfl⟩ rfl ⟨rfl, rfl⟩
  | follow hpc =>
    refine h.stay_pc hpc rfl ⟨rfl, ?_⟩ rfl ⟨rfl, rfl⟩
    show (if s.allReadyForGC then Pc.setup else .followerWait).held = []
    split
    · rfl
    · rfl
  | @interrupt k hk hpc =>
    have hint : Lists (s.interrupt i ⟨k, hk⟩) := by
      unfold State.interrupt
      split
      · exact h
      · exact h.stay_pc rfl rfl ⟨rfl, rfl⟩ rfl ⟨rfl, rfl⟩
    refine hint.setPc ?_
    have hsame : ((s.interrupt i ⟨k, hk⟩).vps i).pc = (s.vps i).pc := by
      unfold State.interrupt
      split
      · rfl
      · rename_i hne
        exact congrArg VProc.pc (update_of_ne (fun he => hne he.symm) ..)
    rw [hsame, hpc]
    rfl
  | convert hpc => exact lists_convert h hpc
  | @arrive b hpc =>
    refine h.stay_pc hpc rfl ⟨rfl, ?_⟩ rfl ⟨rfl, rfl⟩
    show (if s.nWaiting b + 1 = n then afterBarrier (s.vps i).leaderVProc b else .inBarrier b).held = []
    split
    · exact afterBarrier_held _ b
    · rfl
  | depart hpc => exact h.stay_pc hpc rfl ⟨rfl, afterBarrier_held _ _⟩ rfl ⟨rfl, rfl⟩
  | first hpc =>
    have hfill : Lists (s.fill mc i) := (lists_allocToSpaceChunk h i).stay (i := i) (update_eq_self ..).symm rfl rfl ⟨rfl, rfl⟩
    refine hfill.setPc ?_
    rw [fill_vps, update_self]
    show _ = (s.vps i).pc.held
    rw [hpc]
    rfl
  | copy _ => exact (lists_allocToSpaceChunk h i).stay (i := i) (update_eq_self ..).symm rfl rfl ⟨rfl, rfl⟩
  | push hpc =>
    refine (lists_pushToSpaceChunks h i).setPc ?_
    rw [pushToSpaceChunks_vps, update_self]
    show _ = (s.vps i).pc.held
    rw [hpc]
    rfl
  | @getChunk c cs hpc hun =>
    refine h.move (i := i) rfl rfl ?_ ⟨rfl, rfl⟩ ⟨rfl, rfl⟩
    rw [VProc.chunks, VProc.chunks, NodeHeap.toSpace, NodeHeap.toSpace, hpc, hun]
    refine perm_iff_count.mpr fun c' => ?_
    show count c' (((s.vps i).toSpace ++ [c]) ++ (cs ++ _)) = count c' (((s.vps i).toSpace ++ []) ++ ((c :: cs) ++ _))
    simp
  | getLast hpc | getWait hpc =>
    refine h.move (i := i) rfl rfl ?_ ⟨rfl, rfl⟩ ⟨rfl, rfl⟩
    rw [VProc.chunks, VProc.chunks, hpc]
    exact .refl _
  | wake hpc =>
    refine h.move (i := i) rfl rfl ?_ ⟨rfl, rfl⟩ ⟨rfl, rfl⟩
    rw [VProc.chunks, VProc.chunks, hpc]
    split
    · exact .refl _
    · exact .refl _
  | @endSwitched c cs hpc hto =>
    refine h.move (i := i) rfl rfl ?_ ⟨rfl, rfl⟩ ⟨rfl, rfl⟩
    rw [VProc.chunks, VProc.chunks, NodeHeap.toSpace, NodeHeap.toSpace, hpc, hto]
    refine perm_iff_count.mpr fun c' => ?_
    show count c' ((cs ++ []) ++ (_ ++ c :: _)) = count c' (((c :: cs) ++ []) ++ (_ ++ _))
    simp only [count_append, List.count_cons, count_nil]
    omega
  | @endChunk c hpc =>
    refine h.move (i := i) rfl rfl ?_ ⟨rfl, rfl⟩ ⟨rfl, rfl⟩
    rw [VProc.chunks, VProc.chunks, NodeHeap.toSpace, NodeHeap.toSpace, hpc]
    refine perm_iff_count.mpr fun c' => ?_
    show count c' (((s.vps i).toSpace ++ []) ++ (_ ++ c :: _)) = count c' (((s.vps i).toSpace ++ [c]) ++ (_ ++ _))
    simp only [count_append, List.count_cons, count_nil]
    omega
  | @reclaim k hk hpc =>
    refine (lists_reclaim h (hnone k hk hpc)).setPc ?_
    show _ = (s.vps i).pc.held
    rw [hpc]
    rfl

/-! ## Vprocs that sleep -/

/-- A node counts those of its vprocs that sleep. -/
def Waiting (mc : Machine n m) (s : State n m) : Prop :=
  ∀ nd, (s.nodes nd).numWaiting = ∑ i, (decide (mc.node i = nd ∧ (s.vps i).pc = .asleep)).toNat

theorem waiting_start (h : Start s) : Waiting mc s := by
  intro nd
  rw [(h.nodes nd).2.2.2.2]
  refine (Finset.sum_eq_zero fun i _ => ?_).symm
  rw [(h.vps i).1, decide_eq_false (fun hno => nomatch hno.2)]
  rfl

theorem Waiting.change (h : Waiting mc s) (hvps : s'.vps = update s.vps i v)
    (hother : ∀ nd, nd ≠ mc.node i → (s'.nodes nd).numWaiting = (s.nodes nd).numWaiting)
    (hself : (s'.nodes (mc.node i)).numWaiting + (decide ((s.vps i).pc = .asleep)).toNat = (s.nodes (mc.node i)).numWaiting + (decide (v.pc = .asleep)).toNat)
    : Waiting mc s' := by
  intro nd
  have hold := h nd
  have hsum := sum_update_at s.vps (fun j v => (decide (mc.node j = nd ∧ v.pc = .asleep)).toNat) i v
  rw [hvps]
  by_cases hnd : nd = mc.node i
  · subst hnd
    simp only [true_and] at hsum
    omega
  grind

theorem Waiting.awake (h : Waiting mc s) (hvps : s'.vps = update s.vps i v) (hpc : (s.vps i).pc ≠ .asleep)
    (hv : v.pc ≠ .asleep) (hnum : ∀ nd, (s'.nodes nd).numWaiting = (s.nodes nd).numWaiting) : Waiting mc s' := by
  refine h.change hvps (fun nd _ => hnum nd) ?_
  rw [hnum, decide_eq_false hpc, decide_eq_false hv]

theorem numWaiting_setNode (h : hd.numWaiting = (s.nodes nd).numWaiting) (nd' : Fin m) :
    ((s.setNode nd hd).nodes nd').numWaiting = (s.nodes nd').numWaiting := by
  show (update s.nodes nd hd nd').numWaiting = _
  by_cases hnd : nd' = nd
  · subst hnd
    rw [update_self, h]
  · rw [update_of_ne hnd]

theorem afterBarrier_ne_asleep (leaderVProc : Bool) (b : Fin 3) : afterBarrier leaderVProc b ≠ .asleep :=
  match leaderVProc, b with
  | true, 0 => nofun
  | true, 1 => nofun
  | true, 2 => nofun
  | false, 0 => nofun
  | false, 1 => nofun
  | false, 2 => nofun

theorem Pc.Copies.ne_asleep (h : pc.Copies) : pc ≠ .asleep := by
  rintro rfl
  exact h

theorem waiting_act (h : Waiting mc s) (hact : Act mc s i s') : Waiting mc s' := by
  have hsame : ∀ nd, (s.nodes nd).numWaiting = (s.nodes nd).numWaiting := fun _ => rfl
  cases hact with
  | alloc hpc | pushMutator hpc => exact h.awake rfl (by rw [hpc]; nofun) (by rw [hpc]; nofun) (numWaiting_setNode rfl)
  | enter hpc | lead hpc | interrupted hpc | followerWake hpc | roots hpc | getAlloc hpc | getCompleted hpc
  | endAlloc hpc => exact h.awake rfl (by rw [hpc]; nofun) nofun hsame
  | follow hpc =>
    refine h.awake rfl (by rw [hpc]; nofun) ?_ hsame
    grind
  | @interrupt k hk hpc =>
    have hint : Waiting mc (s.interrupt i ⟨k, hk⟩) := by
      unfold State.interrupt
      split
      · exact h
      · exact h.change rfl (fun _ _ => rfl) rfl
    refine hint.awake rfl ?_ nofun fun _ => rfl
    unfold State.interrupt
    split
    · rw [hpc]
      nofun
    · rename_i hne
      show (update s.vps _ _ i).pc ≠ _
      rw [update_of_ne (fun he => hne he.symm), hpc]
      nofun
  | leaderWait hpc | leaderWake hpc | go hpc | finish hpc => exact h.awake (i := i) rfl (by rw [hpc]; nofun) nofun hsame
  | convert hpc =>
    refine h.awake (i := i) rfl (by rw [hpc]; nofun) nofun ?_
    rw [convert_nodes]
    exact numWaiting_setNode rfl
  | @arrive b hpc =>
    refine h.awake (i := i) rfl (by rw [hpc]; nofun) ?_ hsame
    grind [afterBarrier_ne_asleep]
  | depart hpc => exact h.awake (i := i) rfl (by rw [hpc]; nofun) (afterBarrier_ne_asleep _ _) hsame
  | first hpc => exact h.awake (setPc_vps (fill_vps mc s i) _) (by rw [hpc]; nofun) nofun (numWaiting_setNode rfl)
  | copy hpc => exact h.awake (fill_vps mc s i) hpc.ne_asleep hpc.ne_asleep (numWaiting_setNode rfl)
  | push hpc =>
    exact h.awake (setPc_vps (pushToSpaceChunks_vps mc s i) _) (by rw [hpc]; nofun) nofun (numWaiting_setNode rfl)
  | getChunk hpc | getLast hpc | endSwitched hpc | endChunk hpc | reclaim hpc => exact h.awake (i := i) rfl (by rw [hpc]; nofun) nofun (numWaiting_setNode rfl)
  | getWait hpc =>
    refine h.change (i := i) rfl (fun nd hnd => congrArg NodeHeap.numWaiting (update_of_ne hnd ..)) ?_
    show (update s.nodes _ _ (mc.node i)).numWaiting + _ = _ + 1
    rw [update_self, hpc]
    rfl
  | wake hpc =>
    refine h.change (i := i) rfl (fun nd hnd => congrArg NodeHeap.numWaiting (update_of_ne hnd ..)) ?_
    -- the vproc itself is among those counted
    have hpos : 1 ≤ (s.nodes (mc.node i)).numWaiting := by
      have hle := le_sum (fun j => (decide (mc.node j = mc.node i ∧ (s.vps j).pc = .asleep)).toNat) i
      rw [← h (mc.node i), decide_eq_true ⟨rfl, hpc⟩] at hle
      exact hle
    have hawake : (if (s.nodes (mc.node i)).completed = true then Pc.barrier 1 else .getNext) ≠ .asleep := by
      split
      · nofun
      · nofun
    show (update s.nodes _ _ (mc.node i)).numWaiting + _ = _ +
      (decide ((if (s.nodes (mc.node i)).completed = true then Pc.barrier 1 else .getNext) = .asleep)).toNat
    rw [update_self, decide_eq_true hpc, decide_eq_false hawake]
    show (s.nodes (mc.node i)).numWaiting - 1 + 1 = _ + 0
    omega

/-- When a vproc that is awake is the only one of its node that the count leaves out, the others sleep. -/
theorem Waiting.others (h : Waiting mc s) (hawake : (s.vps i).pc ≠ .asleep)
    (hall : (s.nodes (mc.node i)).numWaiting + 1 = mc.numVProcsPerNode (mc.node i)) {j : Fin n} (hj : j ≠ i)
    (hnode : mc.node j = mc.node i) : (s.vps j).pc = .asleep := by
  rw [h (mc.node i), Machine.numVProcsPerNode] at hall
  have hsame := same_but_one _ (fun k => (decide (mc.node k = mc.node i)).toNat) ?_ (i := i) ?_ hall hj
  · by_contra hno
    rw [decide_eq_false (fun hp => hno hp.2), decide_eq_true hnode] at hsame
    cases hsame
  · intro k
    by_cases hk : mc.node k = mc.node i
    · rw [decide_eq_true hk]
      exact Bool.toNat_le _
    · rw [decide_eq_false fun hp => hk hp.1]
      exact Nat.zero_le _
  simp_all

end Manticore.ParallelRt.GlobalGC
