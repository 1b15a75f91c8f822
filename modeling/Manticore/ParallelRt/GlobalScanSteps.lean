/-
  Manticore.ParallelRt.GlobalScanSteps — every step of the copying phase keeps every chunk at one place.
-/

import Manticore.ParallelRt.GlobalScanInv

namespace Manticore.ParallelRt.GlobalScan

open LinkedList Parties Node
open Function (update_self update_of_ne)
open List (count_cons mem_cons_self nodup_cons append_assoc sum_append sum_singleton)

variable {n : Nat} {s s' : Node n} {i j : Fin n} {c : Nat} {vp : VProc} {h : List Nat} {U S : List Nat}
  {H : Fin n → List Nat} {pc : Pc}

@[simp] theorem setPc_vps : (s.setPc i pc).vps i = { s.vps i with pc } := update_self _ _ _

theorem setPc_vps_of_ne (hj : j ≠ i) : (s.setPc i pc).vps j = s.vps j := update_of_ne hj _ _

/-! ## Steps that leave the chunks alone -/

/-- Only the vproc, the lock, the count and the flag change. -/
theorem Places.pc_step (hp : Places s U S H) (hc : s'.chunks = s.chunks) (hr : s'.scanned = s.scanned)
    (hn : s'.nChunks = s.nChunks) (hu : s'.unscannedTo = s.unscannedTo) (ht : s'.scannedTo = s.scannedTo)
    (hvps : ∀ j, j ≠ i → s'.vps j = s.vps j) (hl : Local s (s'.vps i) (H i)) : Places s' U S H := by
  have hsame : ∀ c, Same s s' c := fun c => ⟨by rw [hc], by rw [hr]⟩
  exact hp.update_own (fun c _ _ => hsame c) hvps hn hu ht (hl.congr fun c _ => hsame c) fun c hcn => by
    rw [hr]
    exact hp.fresh c hcn

theorem Places.setPc (hp : Places s U S H) (hl : Local s { s.vps i with pc } (H i)) : Places (s.setPc i pc) U S H :=
  hp.pc_step rfl rfl rfl rfl rfl (fun _ hj => setPc_vps_of_ne hj) (by rwa [setPc_vps])

/-- Another place in the program, where the chunks hang together in the same way and none is being scanned. -/
theorem Local.move {pc' : Pc} (hl : Local s vp h) (hshape : Shape s { vp with pc := pc' } h)
    (hpos : ∀ c ∈ h, pos s { vp with pc := pc' } c = pos s vp c) (hb : Bounds s { vp with pc := pc' }) :
    Local s { vp with pc := pc' } h :=
  ⟨hshape, hl.usedTop, hl.globNextW, fun c hc => by
    rw [hpos c hc]
    exact hl.scanned c hc, hb⟩

/-- Nothing is linked after the chunk: it is the allocation chunk. -/
theorem Private.of_next_none (hp : Private s vp c h) (hn : (s.chunks c).next = none) : c = vp.globAllocChunk := by
  obtain ⟨l, rfl, hl⟩ := hp
  cases l with
  | nil => exact Option.some.inj hl.1
  | cons a l =>
    obtain ⟨ha, hl⟩ := hl
    rw [← Option.some.inj ha, nextOf, hn] at hl
    cases l <;> cases hl.1

/-- Something is linked after the chunk: the list goes on there, and the chunk is not the allocation chunk. -/
theorem Private.of_next_some {d : Nat} (hp : Private s vp c h) (hn : (s.chunks c).next = some d) :
    ∃ t, h = c :: t ∧ Private s vp d t ∧ c ≠ vp.globAllocChunk := by
  obtain ⟨l, rfl, hl⟩ := hp
  have hne : c ≠ vp.globAllocChunk := by
    intro heq
    have hlast := hl.last
    rw [nextOf, ← heq, hn] at hlast
    cases hlast
  cases l with
  | nil => exact absurd (Option.some.inj hl.1) hne
  | cons a l =>
    obtain ⟨ha, hl⟩ := hl
    rw [← Option.some.inj ha, nextOf, hn] at hl
    exact ⟨l ++ [vp.globAllocChunk], by rw [List.cons_append, Option.some.inj ha], ⟨l, rfl, hl⟩, hne⟩

theorem pushRoots_local {original : Nat} (hl : Local s vp h) (hpc : vp.pc = .roots original) :
    Local s { vp with pc := .push original } h := by
  have hs := hl.shape
  unfold Shape at hs
  rw [hpc] at hs
  exact hl.move (hs.congr rfl fun _ _ => rfl) (fun d _ => by unfold pos; rw [hpc]) trivial

/-- `PushToSpaceChunks` is over, before or after its loop. -/
theorem pushed_local (hl : Local s vp h) (hpc : vp.pc = .push c ∨ vp.pc = .pushing c)
    (hn : (s.chunks c).next = none) (hpc' : pc = .getNext ∨ pc = .signal) : Local s { vp with pc } h := by
  have hs : Private s vp c h := by
    have hs := hl.shape
    grind [Shape]
  have hc := hs.of_next_none hn
  rw [hc] at hs
  have hpos : ∀ d ∈ h, pos s { vp with pc } d = pos s vp d := by
    grind [pos]
  rcases hpc' with rfl | rfl
  · exact hl.move (hs.congr rfl fun _ _ => rfl) hpos trivial
  · exact hl.move (hs.congr rfl fun _ _ => rfl) hpos trivial

theorem pushLock_local (hl : Local s vp h) (hpc : vp.pc = .push c) : Local s { vp with pc := .pushing c } h := by
  have hs := hl.shape
  unfold Shape at hs
  rw [hpc] at hs
  exact hl.move (hs.congr rfl fun _ _ => rfl) (fun d _ => by unfold pos; rw [hpc]) trivial

theorem signal_local (hl : Local s vp h) (hpc : vp.pc = .signal) : Local s { vp with pc := .getNext } h := by
  have hs := hl.shape
  unfold Shape at hs
  rw [hpc] at hs
  exact hl.move (hs.congr rfl fun _ _ => rfl) (fun d _ => by unfold pos; rw [hpc]) trivial

/-- The places at which a vproc has nothing left to scan. -/
def Pc.ends : Pc → Bool
  | .asleep | .woken | .broadcast | .done => true
  | _ => false

/-- A vproc at such a place, or at the lock of `GetNextScanChunk`. -/
theorem Local.idle (hl : Local s vp h) (hpc : vp.pc = .getNext ∨ vp.pc.ends = true) :
    Private s vp vp.globAllocChunk h ∧ ∀ d ∈ h, ScannedTo s d (s.chunks d).mark := by
  obtain ⟨alloc, nextW, limit, pc⟩ := vp
  have hs := hl.shape
  have hscanned := hl.scanned
  cases pc <;> first
    | exact ⟨hs, hscanned⟩
    | rcases hpc with hpc | hpc <;> cases hpc

/-- It goes to another one. -/
theorem idle_local (hl : Local s vp h) (hpc : vp.pc = .getNext ∨ vp.pc.ends = true) (hpc' : pc = .getNext ∨ pc.ends = true)
    (htop : pc ≠ .getNext → (s.chunks vp.globAllocChunk).top ≤ (s.chunks vp.globAllocChunk).scanProgress) :
    Local s { vp with pc } h := by
  obtain ⟨hprivate, hscanned⟩ := hl.idle hpc
  have hprivate' : Private s { vp with pc } vp.globAllocChunk h := hprivate.congr rfl fun _ _ => rfl
  cases pc <;> first
    | exact ⟨hprivate', hl.usedTop, hl.globNextW, hscanned, trivial⟩
    | exact ⟨hprivate', hl.usedTop, hl.globNextW, hscanned, htop (fun h => nomatch h)⟩
    | rcases hpc' with hpc' | hpc' <;> cases hpc'

theorem Local.top_le (hl : Local s vp h) (hpc : vp.pc.ends = true) :
    (s.chunks vp.globAllocChunk).top ≤ (s.chunks vp.globAllocChunk).scanProgress := by
  obtain ⟨alloc, nextW, limit, pc⟩ := vp
  have hb := hl.bounds
  cases pc <;> first
    | exact hb
    | cases hpc

/-! ## `GetNextScanChunk` -/

/-- A chunk of the unscanned list goes to the vproc. -/
theorem take_places (hp : Places s U S H) (hpc : (s.vps i).pc = .getNext) {d : Nat} (hd : s.unscannedTo = some d) :
    ∃ U' H', Places ({ s with unscannedTo := (s.chunks d).next }.setPc i (.unlinked d)) U' S H' := by
  have hlinked := hp.unscannedTo
  rw [hd] at hlinked
  cases U with
  | nil => cases hlinked
  | cons e U =>
    obtain ⟨he, hU⟩ := hlinked
    obtain rfl := Option.some.inj he
    obtain ⟨hprivate, hscanned⟩ := (hp.held i).idle (.inl hpc)
    refine ⟨U, Function.update H i (d :: H i), hp.update (fun c _ _ => ⟨rfl, rfl⟩) (fun j hj => setPc_vps_of_ne hj)
      (fun c => ?_) hU hp.scannedTo (fun c hc => hp.unscanned c (List.mem_cons_of_mem _ hc)) hp.scanned ?_ hp.fresh⟩
    · simp only [count_cons]
      have hn : ({ s with unscannedTo := (s.chunks d).next }.setPc i (.unlinked d)).nChunks = s.nChunks := rfl
      rw [hn]
      omega
    · rw [setPc_vps]
      refine ⟨⟨H i, rfl, hprivate.congr rfl fun _ _ => rfl⟩, fun c hc hne => ?_, (hp.held i).globNextW, fun c hc => ?_, trivial⟩
      · rcases List.mem_cons.mp hc with rfl | hc
        · exact (hp.unscanned c mem_cons_self).1
        · exact (hp.held i).usedTop c hc hne
      · rcases List.mem_cons.mp hc with rfl | hc
        · exact (hp.unscanned c mem_cons_self).2
        · exact hscanned c hc

theorem getNext_places (hp : Places s U S H) (hpc : (s.vps i).pc = .getNext) :
    ∃ U' H', Places (s.getNextScanChunk i) U' S H' := by
  have hl := hp.held i
  have hnextW := hl.globNextW
  unfold Node.getNextScanChunk
  dsimp only
  split
  · exact take_places hp hpc ‹_›
  · split
    · refine ⟨U, H, hp.setPc ?_⟩
      obtain ⟨hprivate, hscanned⟩ := hl.idle (.inl hpc)
      exact ⟨.inl ⟨hprivate.congr rfl fun _ _ => rfl, rfl⟩, hl.usedTop, hl.globNextW, hscanned, trivial⟩
    · rename_i hge
      have htop : (s.chunks (s.vps i).globAllocChunk).top ≤ (s.chunks (s.vps i).globAllocChunk).scanProgress := by
        rw [hnextW] at hge
        omega
      have hto : ∀ {pc : Pc}, pc.ends = true → Local s { s.vps i with pc } (H i) := fun hends =>
        idle_local hl (.inl hpc) (.inr hends) fun _ => htop
      split
      · exact ⟨U, H, hp.pc_step rfl rfl rfl rfl rfl (fun j hj => setPc_vps_of_ne hj) (by rw [setPc_vps]; exact hto rfl)⟩
      · split
        · exact ⟨U, H, hp.setPc (hto rfl)⟩
        · exact ⟨U, H, hp.pc_step rfl rfl rfl rfl rfl (fun j hj => setPc_vps_of_ne hj) (by rw [setPc_vps]; exact hto rfl)⟩

/-- A vproc that wakes is at the lock of `GetNextScanChunk` and no longer counted. -/
theorem wake_eq : s.wake i = if s.completed then { s with numWaiting := s.numWaiting - 1 }.setPc i .done
    else ({ s with numWaiting := s.numWaiting - 1 }.setPc i .getNext).getNextScanChunk i := by
  simp [Node.wake, Node.getNextScanChunk, Node.setPc]

theorem wake_places (hp : Places s U S H) (hpc : (s.vps i).pc = .woken) : ∃ U' H', Places (s.wake i) U' S H' := by
  have hl := hp.held i
  have hends : (s.vps i).pc = .getNext ∨ (s.vps i).pc.ends = true := .inr (by rw [hpc]; rfl)
  rw [wake_eq]
  split
  · exact ⟨U, H, hp.pc_step rfl rfl rfl rfl rfl (fun j hj => setPc_vps_of_ne hj) (by
      rw [setPc_vps]
      exact idle_local hl hends (.inr rfl) fun _ => hl.top_le (by rw [hpc]; rfl))⟩
  · refine getNext_places (U := U) (H := H) (hp.pc_step rfl rfl rfl rfl rfl (fun j hj => setPc_vps_of_ne hj) ?_) ?_
    · rw [setPc_vps]
      exact idle_local hl hends (.inl rfl) fun h => absurd rfl h
    · rw [setPc_vps]

theorem wakeAll_places (hp : Places s U S H) : Places s.wakeAll U S H := by
  refine ⟨hp.once, hp.unscannedTo, hp.scannedTo, hp.unscanned, hp.scanned, fun j => ?_, hp.fresh⟩
  have hl : Local s (s.wakeAll.vps j) (H j) := by
    unfold Node.wakeAll
    simp only
    split
    · rename_i hpc
      exact idle_local (hp.held j) (.inr (by rw [hpc]; rfl)) (.inr rfl) fun _ => (hp.held j).top_le (by rw [hpc]; rfl)
    · exact hp.held j
  exact hl.congr fun c _ => ⟨rfl, rfl⟩

/-! ## `PushToSpaceChunks` -/

theorem setNext_same {d : Nat} {o : Option Nat} (hne : c ≠ d) : Same s (s.setNext d o) c :=
  ⟨update_of_ne hne _ _, rfl⟩

/-- A chunk that keeps its objects. -/
theorem setChunk_keep {d : Nat} {ch : Chunk} (hb : ch.baseAddr = (s.chunks d).baseAddr) (ho : ch.objs = (s.chunks d).objs)
    (c : Nat) : ((s.setChunk d ch).chunks c).top = (s.chunks c).top ∧
      ∀ p, ScannedTo s c p → ScannedTo (s.setChunk d ch) c p := by
  by_cases hcd : c = d
  · subst hcd
    have hch : (s.setChunk c ch).chunks c = ch := update_self _ _ _
    refine ⟨?_, fun p hp => ?_⟩
    · rw [hch]
      unfold Chunk.top
      rw [hb, ho]
    · unfold ScannedTo at hp ⊢
      rw [hch, hb, ho]
      exact hp
  · have hs : Same s (s.setChunk d ch) c := ⟨update_of_ne hcd _ _, rfl⟩
    rw [hs.1]
    exact ⟨rfl, fun p hp => hp.congr hs⟩

theorem setNext_chunks (d : Nat) (o : Option Nat) (c : Nat) : ((s.setNext d o).chunks c).usedTop = (s.chunks c).usedTop ∧
    ((s.setNext d o).chunks c).top = (s.chunks c).top ∧ ((s.setNext d o).chunks c).mark = (s.chunks c).mark ∧
      ∀ p, ScannedTo s c p → ScannedTo (s.setNext d o) c p := by
  obtain ⟨htop, hscanned⟩ := @setChunk_keep n s d { s.chunks d with next := o } rfl rfl c
  by_cases hcd : c = d
  · have hself : (s.setNext d o).chunks c = { s.chunks c with next := o } := by
      rw [hcd]
      exact update_self d _ s.chunks
    exact ⟨by rw [hself], htop, by rw [hself]; rfl, hscanned⟩
  · rw [(setNext_same hcd).1]
    exact ⟨rfl, rfl, rfl, hscanned⟩

section

variable {t : List Nat} {d : Nat}

/-- The link of a chunk that the vproc gives away does not concern the chunks it keeps. -/
theorem Places.setNext_local (hp : Places s U S H) (hh : H i = c :: t) {o : Option Nat} (hl : Local s vp t) :
    Local (s.setNext c o) vp t := by
  have hnodup := hp.nodup i
  rw [hh, nodup_cons] at hnodup
  exact hl.congr fun b hb => setNext_same fun heq => hnodup.1 (heq ▸ hb)

theorem setNext_others (hh : H i = c :: t) {o : Option Nat} :
    ∀ b < s.nChunks, b ∉ H i → Same s (s.setNext c o) b := by
  grind [setNext_same]

/-- The first chunk of a vproc goes to the unscanned list. -/
theorem Places.toUnscanned (hp : Places s U S H) (hh : H i = c :: t) (hused : (s.chunks c).usedTop = (s.chunks c).top)
    (hmark : ScannedTo s c (s.chunks c).mark) (hl : Local s { s.vps i with pc } t) :
    Places ({ s.setNext c s.unscannedTo with unscannedTo := some c }.setPc i pc) (c :: U) S (Function.update H i t) := by
  have hc : c ∈ H i := by
    rw [hh]
    exact mem_cons_self
  obtain ⟨⟨hU, hUm⟩, hS, hSt⟩ := hp.keep (setNext_others hh (o := s.unscannedTo))
  refine hp.update (setNext_others hh) (fun j hj => setPc_vps_of_ne hj) (fun b => ?_) ?_ hS (fun b hb => ?_) hSt ?_
    hp.fresh
  · rw [hh]
    simp only [count_cons]
    have hn : ({ s.setNext c s.unscannedTo with unscannedTo := some c }.setPc i pc).nChunks = s.nChunks := rfl
    rw [hn]
    omega
  · refine hp.unscannedTo.push (a := c) ?_ fun b hb => ?_
    · exact congrArg Chunk.next (update_self c _ s.chunks)
    · refine congrArg Chunk.next (update_of_ne (fun heq => ?_) _ s.chunks)
      rw [heq] at hb
      exact hp.not_unscanned hc hb
  · rcases List.mem_cons.mp hb with rfl | hb
    · obtain ⟨h1, h2, h3, h4⟩ := setNext_chunks (s := s) b s.unscannedTo b
      refine ⟨h1.trans (hused.trans h2.symm), ?_⟩
      have h5 := h4 _ hmark
      rw [← h3] at h5
      exact h5
    · exact hUm b hb
  · rw [setPc_vps]
    exact (hp.setNext_local hh hl).congr fun _ _ => ⟨rfl, rfl⟩

/-- It goes to the scanned list. -/
theorem Places.toScanned (hp : Places s U S H) (hh : H i = c :: t) (hused : (s.chunks c).usedTop = (s.chunks c).top)
    (htop : ScannedTo s c (s.chunks c).top) (hl : Local s { s.vps i with pc } t) :
    Places ((s.pushScanned c).setPc i pc) U (c :: S) (Function.update H i t) := by
  have hc : c ∈ H i := by
    rw [hh]
    exact mem_cons_self
  obtain ⟨⟨hU, hUm⟩, hS, hSt⟩ := hp.keep (setNext_others hh (o := s.scannedTo))
  refine hp.update (setNext_others hh) (fun j hj => setPc_vps_of_ne hj) (fun b => ?_) hU ?_ hUm (fun b hb => ?_) ?_
    hp.fresh
  · rw [hh]
    simp only [count_cons]
    have hn : ((s.pushScanned c).setPc i pc).nChunks = s.nChunks := rfl
    rw [hn]
    omega
  · refine hp.scannedTo.push (a := c) ?_ fun b hb => ?_
    · exact congrArg Chunk.next (update_self c _ s.chunks)
    · refine congrArg Chunk.next (update_of_ne (fun heq => ?_) _ s.chunks)
      rw [heq] at hb
      exact hp.not_scanned hc hb
  · rcases List.mem_cons.mp hb with rfl | hb
    · obtain ⟨h1, h2, h3, h4⟩ := setNext_chunks (s := s) b s.scannedTo b
      refine ⟨h1.trans (hused.trans h2.symm), ?_⟩
      have h5 := h4 _ htop
      rw [← h2] at h5
      exact h5
    · exact hSt b hb
  · rw [setPc_vps]
    exact (hp.setNext_local hh hl).congr fun _ _ => ⟨rfl, rfl⟩

theorem pushRound_places (hp : Places s U S H) (hpc : (s.vps i).pc = .pushing c) (hn : (s.chunks c).next = some d) :
    ∃ U' H', Places (s.pushRound i c d) U' S H' := by
  have hl := hp.held i
  have hs := hl.shape
  unfold Shape at hs
  rw [hpc] at hs
  obtain ⟨t, hh, hprivate, hne⟩ := hs.of_next_some hn
  have hc : c ∈ H i := by
    rw [hh]
    exact mem_cons_self
  have hpos : ∀ b ∈ H i, ScannedTo s b (s.chunks b).mark := by
    intro b hb
    have hb' := hl.scanned b hb
    unfold pos at hb'
    rw [hpc] at hb'
    exact hb'
  refine ⟨c :: U, Function.update H i t, hp.toUnscanned hh (hl.usedTop c hc hne) (hpos c hc) ?_⟩
  have ht : ∀ b ∈ t, b ∈ H i := fun b hb => by
    rw [hh]
    exact List.mem_cons_of_mem _ hb
  exact ⟨hprivate.congr rfl fun _ _ => rfl, fun b hb => hl.usedTop b (ht b hb), hl.globNextW,
    fun b hb => hpos b (ht b hb), trivial⟩

theorem unlink_places (hp : Places s U S H) (hpc : (s.vps i).pc = .unlinked c) :
    Places ((s.setNext c none).setPc i (.got c)) U S H := by
  have hl := hp.held i
  have hs := hl.shape
  unfold Shape at hs
  rw [hpc] at hs
  obtain ⟨t, hh, hprivate⟩ := hs
  have hnodup := hp.nodup i
  rw [hh, nodup_cons] at hnodup
  refine hp.update_own (setNext_others hh) (fun j hj => setPc_vps_of_ne hj) rfl rfl rfl ?_ hp.fresh
  rw [setPc_vps]
  refine ⟨.inr ⟨t, hh, hprivate.congr rfl fun b hb => ?_⟩, fun b hb hne => ?_, ?_, fun b hb => ?_, trivial⟩
  · have hbc : b ≠ c := fun heq => hnodup.1 (heq ▸ hb)
    exact congrArg Chunk.next (update_of_ne hbc _ s.chunks)
  · obtain ⟨h1, h2, -, -⟩ := setNext_chunks (s := s) c none b
    exact h1.trans ((hl.usedTop b hb hne).trans h2.symm)
  · exact hl.globNextW.trans (congrArg (· + wordSzB) (setNext_chunks (s := s) c none _).2.1.symm)
  · obtain ⟨-, -, h3, h4⟩ := setNext_chunks (s := s) c none b
    have hb' := hl.scanned b hb
    unfold pos at hb'
    rw [hpc] at hb'
    have h5 := h4 _ hb'
    rw [← h3] at h5
    exact h5

end

/-! ## `ScanGlobalToSpace` -/

section

variable {r r' : Scan}

theorem pos_scan (hpc : vp.pc = .scan r ∨ vp.pc = .finish r) (d : Nat) :
    pos s vp d = if d = r.scanChunk then r.scanPtr else (s.chunks d).mark := by
  unfold pos
  rcases hpc with hpc | hpc <;> rw [hpc]

/-- The chunks of a vproc that is scanning one. -/
theorem Local.scanning (hl : Local s vp h) (hpc : vp.pc = .scan r ∨ vp.pc = .finish r) :
    (Private s vp r.origAlloc h ∧ r.handlingAlloc = true ∧ r.scanChunk = r.origAlloc ∨
      r.handlingAlloc = false ∧ ∃ h', h = r.scanChunk :: h' ∧ Private s vp r.origAlloc h') ∧
    ScannedTo s r.scanChunk r.scanPtr ∧ ∀ d ∈ h, d ≠ r.scanChunk → ScannedTo s d (s.chunks d).mark := by
  have hs := hl.shape
  have hmem := hs.scanChunk_mem hpc
  refine ⟨?_, ?_, fun d hd hne => ?_⟩
  · grind [Shape]
  · have hc := hl.scanned _ hmem
    rwa [pos_scan hpc, if_pos rfl] at hc
  · have hd' := hl.scanned d hd
    rwa [pos_scan hpc, if_neg hne] at hd'

theorem got_places (hp : Places s U S H) (hpc : (s.vps i).pc = .got c) :
    Places (s.setPc i (.scan (s.startScan i c))) U S H := by
  have hl := hp.held i
  have hs := hl.shape
  unfold Shape at hs
  rw [hpc] at hs
  have hmark : ∀ d ∈ H i, ScannedTo s d (s.chunks d).mark := by
    intro d hd
    have hd' := hl.scanned d hd
    unfold pos at hd'
    rw [hpc] at hd'
    exact hd'
  have hpos : ∀ d ∈ H i, ScannedTo s d (pos s { s.vps i with pc := .scan (s.startScan i c) } d) := by
    intro d hd
    show ScannedTo s d (if d = c then (s.chunks c).mark else (s.chunks d).mark)
    by_cases hdc : d = c
    · rw [if_pos hdc, ← hdc]
      exact hmark d hd
    · rw [if_neg hdc]
      exact hmark d hd
  refine hp.setPc ?_
  rcases hs with ⟨hprivate, rfl⟩ | ⟨h', hh, hprivate⟩
  · have htop : (s.startScan i (s.vps i).globAllocChunk).scanTop = (s.chunks (s.vps i).globAllocChunk).top := by
      show s.usedTopOfChunk (s.vps i) (s.vps i).globAllocChunk = _
      rw [Node.usedTopOfChunk, if_pos rfl, hl.globNextW]
      omega
    exact ⟨.inl ⟨hprivate.congr rfl fun _ _ => rfl, decide_eq_true rfl, rfl⟩, hl.usedTop, hl.globNextW, hpos,
      Nat.le_of_eq htop, fun _ => htop⟩
  · have hnodup := hp.nodup i
    rw [hh, nodup_cons] at hnodup
    have hne : c ≠ (s.vps i).globAllocChunk := fun heq => hnodup.1 (heq ▸ hprivate.mem)
    have hc : c ∈ H i := by
      rw [hh]
      exact mem_cons_self
    have htop : (s.startScan i c).scanTop = (s.chunks c).top := by
      show s.usedTopOfChunk (s.vps i) c = _
      rw [Node.usedTopOfChunk, if_neg hne.symm, hl.usedTop c hc hne]
    exact ⟨.inr ⟨decide_eq_false hne, h', hh, hprivate.congr rfl fun _ _ => rfl⟩, hl.usedTop, hl.globNextW, hpos,
      Nat.le_of_eq htop, fun _ => htop⟩

/-- One more object. -/
theorem ScannedTo.object {p k : Nat} {pre post : List Nat} (hp : ScannedTo s c p)
    (hobjs : (s.chunks c).objs = pre ++ k :: post) (hpre : p = (s.chunks c).baseAddr + wordSzB * pre.sum) :
    ScannedTo (s.record c p k) c (p + wordSzB * k) := by
  obtain ⟨pre', post', -, hp', hscanned⟩ := hp
  have hsum : pre'.sum = pre.sum := by
    rw [hp'] at hpre
    exact Nat.eq_of_mul_eq_mul_left (show 0 < wordSzB by decide) (Nat.add_left_cancel hpre)
  refine ⟨pre ++ [k], post, by rw [append_assoc]; exact hobjs, ?_, ?_⟩
  · show _ = (s.chunks c).baseAddr + _
    rw [hpre, sum_append, sum_singleton, Nat.mul_add, Nat.add_assoc]
  · show Function.update s.scanned c (s.scanned c ++ words p k) c = words (s.chunks c).baseAddr _
    rw [update_self, hscanned, hsum, sum_append, sum_singleton, words_add, ← hpre]

theorem object_places (hp : Places s U S H) (hpc : (s.vps i).pc = .scan r) {pre post : List Nat} {k : Nat}
    (hobjs : (s.chunks r.scanChunk).objs = pre ++ k :: post)
    (hpre : r.scanPtr = (s.chunks r.scanChunk).baseAddr + wordSzB * pre.sum) :
    Places ((s.record r.scanChunk r.scanPtr k).setPc i (.scan { r with scanPtr := r.scanPtr + wordSzB * k })) U S H := by
  have hl := hp.held i
  obtain ⟨hshape, hscan, hothers⟩ := hl.scanning (.inl hpc)
  have hmem := hl.shape.scanChunk_mem (.inl hpc)
  have hsame : ∀ d, d ≠ r.scanChunk → Same s (s.record r.scanChunk r.scanPtr k) d := fun d hd =>
    ⟨rfl, update_of_ne hd _ _⟩
  have hb := hl.bounds
  unfold Bounds at hb
  rw [hpc] at hb
  refine hp.update_own (fun d _ hd => hsame d fun heq => hd (heq ▸ hmem)) (fun j hj => setPc_vps_of_ne hj) rfl rfl rfl ?_
    fun d hd => ?_
  · rw [setPc_vps]
    refine ⟨hshape.imp (fun ⟨hprivate, hr⟩ => ⟨hprivate.congr rfl fun _ _ => rfl, hr⟩)
      fun ⟨hr, h', hh, hprivate⟩ => ⟨hr, h', hh, hprivate.congr rfl fun _ _ => rfl⟩, hl.usedTop, hl.globNextW,
      fun d hd => ?_, hb⟩
    show ScannedTo _ d (if d = r.scanChunk then r.scanPtr + wordSzB * k else (s.chunks d).mark)
    by_cases hdr : d = r.scanChunk
    · rw [if_pos hdr, hdr]
      exact hscan.object hobjs hpre
    · rw [if_neg hdr]
      exact (hothers d hd hdr).congr (hsame d hdr)
  · show Function.update s.scanned _ _ d = []
    rw [update_of_ne, hp.fresh d hd]
    intro heq
    have := hp.lt_of_held hmem
    omega

/-- The locals after the loop over the objects below `scanTop`, when `scanTop` is the end of the chunk now. -/
theorem endInner_local (htop : r.scanTop = (s.chunks r.scanChunk).top)
    (hshape : Private s vp r.origAlloc h ∧ r.handlingAlloc = true ∧ r.scanChunk = r.origAlloc ∨
      r.handlingAlloc = false ∧ ∃ h', h = r.scanChunk :: h' ∧ Private s vp r.origAlloc h')
    (hused : ∀ c ∈ h, c ≠ vp.globAllocChunk → (s.chunks c).usedTop = (s.chunks c).top)
    (hnextW : vp.globNextW = (s.chunks vp.globAllocChunk).top + wordSzB)
    (hscan : ScannedTo s r.scanChunk r.scanPtr)
    (hothers : ∀ d ∈ h, d ≠ r.scanChunk → ScannedTo s d (s.chunks d).mark)
    (hprogress : r.scanChunk = vp.globAllocChunk → (s.chunks r.scanChunk).scanProgress = r.scanPtr) :
    Local s { vp with pc := if r.scanPtr < r.scanTop then .scan r else .finish r } h := by
  have hpos : ∀ d ∈ h, ScannedTo s d (if d = r.scanChunk then r.scanPtr else (s.chunks d).mark) := by
    grind
  have hshape' : ∀ pc, Private s { vp with pc } r.origAlloc h ∧ r.handlingAlloc = true ∧ r.scanChunk = r.origAlloc ∨
      r.handlingAlloc = false ∧ ∃ h', h = r.scanChunk :: h' ∧ Private s { vp with pc } r.origAlloc h' := fun pc =>
    hshape.imp (fun ⟨hp, hr⟩ => ⟨hp.congr rfl fun _ _ => rfl, hr⟩)
      fun ⟨hr, h', hh, hp⟩ => ⟨hr, h', hh, hp.congr rfl fun _ _ => rfl⟩
  by_cases hlt : r.scanPtr < r.scanTop
  · rw [if_pos hlt]
    exact ⟨hshape' _, hused, hnextW, hpos, Nat.le_of_eq htop, fun _ => htop⟩
  · rw [if_neg hlt]
    have hle := hscan.le_top
    exact ⟨hshape' _, hused, hnextW, hpos, by omega, hprogress⟩

theorem endInner_places (hp : Places s U S H) (hpc : (s.vps i).pc = .scan r) (he : s.endInner i r = (s', r')) :
    Places (s'.setPc i (if r'.scanPtr < r'.scanTop then .scan r' else .finish r')) U S H := by
  have hl := hp.held i
  obtain ⟨hshape, hscan, hothers⟩ := hl.scanning (.inl hpc)
  have hmem := hl.shape.scanChunk_mem (.inl hpc)
  have hb := hl.bounds
  unfold Bounds at hb
  rw [hpc] at hb
  unfold Node.endInner at he
  split at he
  · -- the chunk is still the allocation chunk: the progress is recorded
    rename_i halloc
    cases he
    obtain ⟨s₁, hs₁⟩ : ∃ s₁, s₁ = s.setChunk r.scanChunk { s.chunks r.scanChunk with scanProgress := r.scanPtr } := ⟨_, rfl⟩
    have hself : s₁.chunks r.scanChunk = { s.chunks r.scanChunk with scanProgress := r.scanPtr } := by
      rw [hs₁]
      exact update_self _ _ _
    have hkeep : ∀ c, (s₁.chunks c).top = (s.chunks c).top ∧ ∀ p, ScannedTo s c p → ScannedTo s₁ c p := by
      rw [hs₁]
      exact setChunk_keep rfl rfl
    have hsame : ∀ d, d ≠ r.scanChunk → Same s s₁ d := by
      rw [hs₁]
      exact fun d hd => ⟨update_of_ne hd _ _, rfl⟩
    have hnext : ∀ d, nextOf s₁ d = nextOf s d := by
      intro d
      unfold nextOf
      by_cases hd : d = r.scanChunk
      · rw [hd, hself]
      · rw [(hsame d hd).1]
    have hvps : s₁.vps i = s.vps i := by rw [hs₁]; rfl
    rw [← hs₁]
    refine hp.update_own (fun d _ hd => hsame d fun heq => hd (heq ▸ hmem))
      (fun j hj => (setPc_vps_of_ne hj).trans (by rw [hs₁]; rfl)) (by rw [hs₁]; rfl) (by rw [hs₁]; rfl)
      (by rw [hs₁]; rfl) ?_ (by rw [hs₁]; exact hp.fresh)
    rw [setPc_vps, hvps]
    refine Local.congr (s := s₁) (endInner_local ?_ ?_ (fun c hc hne => ?_) ?_ ((hkeep _).2 _ hscan) (fun d hd hne => ?_)
      fun _ => ?_) fun _ _ => ⟨rfl, rfl⟩
    · rw [(hkeep _).1]
      show (s.vps i).globNextW - wordSzB = _
      rw [hl.globNextW, halloc]
      exact Nat.add_sub_cancel _ _
    · exact hshape.imp (fun ⟨hp, hr⟩ => ⟨hp.congr rfl fun d _ => hnext d, hr⟩)
        fun ⟨hr, h', hh, hp⟩ => ⟨hr, h', hh, hp.congr rfl fun d _ => hnext d⟩
    · rw [(hkeep c).1, (hsame c fun heq => hne (heq.trans halloc.symm)).1]
      exact hl.usedTop c hc hne
    · rw [(hkeep _).1]
      exact hl.globNextW
    · rw [(hsame d hne).1]
      exact (hkeep d).2 _ (hothers d hd hne)
    · exact congrArg Chunk.scanProgress hself
  · rename_i halloc
    have hprogress : r.scanChunk = (s.vps i).globAllocChunk →
        (s.chunks r.scanChunk).scanProgress = r.scanPtr := fun heq => absurd heq.symm halloc
    split at he
    · -- the allocation chunk was switched: the rest of this one
      cases he
      refine hp.setPc (endInner_local ?_ hshape hl.usedTop hl.globNextW hscan hothers hprogress)
      show s.usedTopOfChunk (s.vps i) r.scanChunk = _
      rw [Node.usedTopOfChunk, if_neg halloc]
      exact hl.usedTop _ hmem fun heq => halloc heq.symm
    · rename_i hhandling
      cases he
      exact hp.setPc (endInner_local (hb.2 (by simpa using hhandling)) hshape hl.usedTop hl.globNextW hscan hothers
        hprogress)

/-- The chunk is scanned to its end; what the vproc has allocated meanwhile is pushed. -/
theorem endScan_places (hp : Places s U S H) (hpc : (s.vps i).pc = .finish r) :
    ∃ S' H', Places (s.endScan i r) U S' H' := by
  have hl := hp.held i
  obtain ⟨hshape, hscan, hothers⟩ := hl.scanning (.inr hpc)
  have hmem := hl.shape.scanChunk_mem (.inr hpc)
  have hb := hl.bounds
  unfold Bounds at hb
  rw [hpc] at hb
  obtain ⟨htop, hprogress⟩ := hb
  rw [htop] at hscan
  have hnodup := hp.nodup i
  unfold Node.endScan
  dsimp only
  rcases hshape with ⟨hprivate, hhandling, hchunk⟩ | ⟨hhandling, t, hh, hprivate⟩
  · rw [if_pos hhandling]
    by_cases hswitched : r.origAlloc ≠ (s.vps i).globAllocChunk
    · rw [if_pos hswitched]
      split
      · rename_i tmp htmp
        obtain ⟨t, hh, hrest, hne⟩ := hprivate.of_next_some htmp
        rw [hh, nodup_cons] at hnodup
        have ht : ∀ b ∈ t, b ∈ H i := fun b hb => by
          rw [hh]
          exact List.mem_cons_of_mem _ hb
        rw [hchunk] at hscan hmem
        refine ⟨_, _, hp.toScanned hh (hl.usedTop _ hmem hne) hscan ⟨hrest.congr rfl fun _ _ => rfl,
          fun b hb => hl.usedTop b (ht b hb), hl.globNextW, fun b hb => hothers b (ht b hb) fun heq => ?_, trivial⟩⟩
        rw [heq, hchunk] at hb
        exact hnodup.1 hb
      · rename_i hnone
        exact absurd (hprivate.of_next_none hnone) hswitched
    · rw [if_neg hswitched]
      have halloc : r.origAlloc = (s.vps i).globAllocChunk := not_not.mp hswitched
      rw [halloc] at hprivate hchunk
      have hmark : (s.chunks r.scanChunk).mark = (s.chunks r.scanChunk).top := by
        unfold Chunk.mark
        rw [hprogress hchunk, htop]
        exact Nat.max_eq_right (Nat.le_add_right _ _)
      refine ⟨S, H, hp.setPc ⟨hprivate.congr rfl fun _ _ => rfl, hl.usedTop, hl.globNextW, fun d hd => ?_, trivial⟩⟩
      show ScannedTo s d (s.chunks d).mark
      by_cases hdr : d = r.scanChunk
      · rw [hdr, hmark]
        exact hscan
      · exact hothers d hd hdr
  · rw [hhandling, if_neg Bool.false_ne_true]
    rw [hh, nodup_cons] at hnodup
    have hne : r.scanChunk ≠ (s.vps i).globAllocChunk := fun heq => hnodup.1 (heq ▸ hprivate.mem)
    have ht : ∀ b ∈ t, b ∈ H i ∧ b ≠ r.scanChunk := fun b hb => by
      grind
    refine ⟨_, _, hp.toScanned hh (hl.usedTop _ hmem hne) hscan ?_⟩
    split
    · exact ⟨hprivate.congr rfl fun _ _ => rfl, fun b hb => hl.usedTop b (ht b hb).1, hl.globNextW,
        fun b hb => hothers b (ht b hb).1 (ht b hb).2, trivial⟩
    · rename_i hsame
      rw [not_not.mp hsame] at hprivate
      exact ⟨hprivate.congr rfl fun _ _ => rfl, fun b hb => hl.usedTop b (ht b hb).1, hl.globNextW,
        fun b hb => hothers b (ht b hb).1 (ht b hb).2, trivial⟩

end

/-! ## `ForwardObjGlobal` -/

/-- The new object comes behind those of the allocation chunk. -/
theorem copy_places (hp : Places s U S H) (hf : (s.vps i).pc.Forwards) (len : Nat) : Places (s.copy i len) U S H := by
  have hl := hp.held i
  have hmem := hl.shape.alloc_mem
  have hsame : ∀ d, d ≠ (s.vps i).globAllocChunk → Same s (s.copy i len) d := fun d hd =>
    ⟨update_of_ne hd _ _, rfl⟩
  have hself : (s.copy i len).chunks (s.vps i).globAllocChunk = { s.chunks (s.vps i).globAllocChunk with
      objs := (s.chunks (s.vps i).globAllocChunk).objs ++ [len + 1] } := update_self _ _ _
  have hnext : ∀ d, nextOf (s.copy i len) d = nextOf s d := by
    intro d
    unfold nextOf
    by_cases hd : d = (s.vps i).globAllocChunk
    · rw [hd, hself]
    · rw [(hsame d hd).1]
  have htop : ((s.copy i len).chunks (s.vps i).globAllocChunk).top =
      (s.chunks (s.vps i).globAllocChunk).top + wordSzB * (len + 1) := by
    rw [hself]
    unfold Chunk.top
    rw [sum_append, sum_singleton, Nat.mul_add, Nat.add_assoc]
  have hmark : ∀ d, ((s.copy i len).chunks d).mark = (s.chunks d).mark := by
    intro d
    by_cases hd : d = (s.vps i).globAllocChunk
    · rw [hd, hself]
      rfl
    · rw [(hsame d hd).1]
  have hscanned : ∀ d p, ScannedTo s d p → ScannedTo (s.copy i len) d p := by
    intro d p hdp
    by_cases hd : d = (s.vps i).globAllocChunk
    · obtain ⟨pre, post, hobjs, hpre, hrec⟩ := hdp
      rw [hd] at hobjs hpre hrec ⊢
      refine ⟨pre, post ++ [len + 1], ?_, by rw [hself]; exact hpre, by rw [hself]; exact hrec⟩
      rw [hself, ← append_assoc, ← hobjs]
    · exact hdp.congr (hsame d hd)
  have hpos : ∀ d, pos (s.copy i len) (s.vps i) d = pos s (s.vps i) d := by
    intro d
    unfold pos
    rw [hmark]
  have hvp : (s.copy i len).vps i = { s.vps i with globNextW := (s.vps i).globNextW + wordSzB * (len + 1) } :=
    update_self _ _ _
  refine hp.update_own (fun d _ hd => hsame d fun heq => hd (heq ▸ hmem)) (fun j hj => update_of_ne hj _ _)
    rfl rfl rfl ?_ hp.fresh
  rw [hvp]
  refine ⟨hl.shape.congr fun d _ => hnext d, fun d hd hne => ?_, ?_, fun d hd => ?_, ?_⟩
  · rw [(hsame d hne).1]
    exact hl.usedTop d hd hne
  · show (s.vps i).globNextW + _ = ((s.copy i len).chunks (s.vps i).globAllocChunk).top + wordSzB
    rw [htop, hl.globNextW, Nat.add_right_comm]
  · have hd' := hscanned d _ (hl.scanned d hd)
    rw [← hpos] at hd'
    exact hd'
  · have hb := hl.bounds
    have hscan : ∀ r, (s.vps i).pc = .scan r → r.scanTop ≤ ((s.copy i len).chunks r.scanChunk).top ∧
        (r.handlingAlloc = false → r.scanTop = ((s.copy i len).chunks r.scanChunk).top) := by
      intro r hpc
      unfold Bounds at hb
      rw [hpc] at hb
      dsimp only at hb
      by_cases hchunk : r.scanChunk = (s.vps i).globAllocChunk
      · rw [hchunk, htop]
        rw [hchunk] at hb
        refine ⟨Nat.le_trans hb.1 (Nat.le_add_right _ _), fun hhandling => ?_⟩
        obtain ⟨-, hfalse, -⟩ | ⟨-, t, hh, hprivate⟩ := (hl.scanning (.inl hpc)).1
        · rw [hfalse] at hhandling
          cases hhandling
        · have hnodup := hp.nodup i
          rw [hh, nodup_cons, hchunk] at hnodup
          exact absurd hprivate.mem hnodup.1
      · rw [(hsame _ hchunk).1]
        exact hb
    unfold Bounds
    dsimp only
    cases hpc : (s.vps i).pc <;> rw [hpc] at hf
    case scan r => exact hscan r hpc
    all_goals first
      | exact trivial
      | exact hf.elim

theorem tail_eq {fuel : Nat} (hn : (s.chunks c).next = none) : s.tail fuel c = c := by
  cases fuel with
  | zero => rfl
  | succ fuel => rw [Node.tail, hn]

/-- A new allocation chunk is linked to the old one, which is closed. -/
theorem alloc_chunks {fresh : Chunk} (hn : (s.chunks (s.vps i).globAllocChunk).next = none)
    (hlt : (s.vps i).globAllocChunk < s.nChunks) :
    (s.allocToSpaceChunk i fresh).chunks (s.vps i).globAllocChunk = { s.chunks (s.vps i).globAllocChunk with
      usedTop := (s.vps i).globNextW - wordSzB, next := some s.nChunks } ∧
    (s.allocToSpaceChunk i fresh).chunks s.nChunks = { fresh with scanProgress := 0, next := none, objs := [] } ∧
    ∀ d, d ≠ (s.vps i).globAllocChunk → d ≠ s.nChunks → (s.allocToSpaceChunk i fresh).chunks d = s.chunks d := by
  obtain ⟨s₁, hs₁⟩ : ∃ s₁ : Node n, s₁ = { s with nChunks := s.nChunks + 1 }.setChunk s.nChunks
      { fresh with scanProgress := 0, next := none, objs := [] } := ⟨_, rfl⟩
  obtain ⟨s₂, hs₂⟩ : ∃ s₂ : Node n, s₂ = s₁.setChunk (s.vps i).globAllocChunk
      { s₁.chunks (s.vps i).globAllocChunk with usedTop := (s.vps i).globNextW - wordSzB } := ⟨_, rfl⟩
  have hne : (s.vps i).globAllocChunk ≠ s.nChunks := Nat.ne_of_lt hlt
  have hc₁ : s₁.chunks s.nChunks = { fresh with scanProgress := 0, next := none, objs := [] } := by
    rw [hs₁]
    exact update_self _ _ _
  have ho₁ : ∀ d, d ≠ s.nChunks → s₁.chunks d = s.chunks d := fun d hd => by
    rw [hs₁]
    exact update_of_ne hd _ _
  have ha₂ : s₂.chunks (s.vps i).globAllocChunk =
      { s.chunks (s.vps i).globAllocChunk with usedTop := (s.vps i).globNextW - wordSzB } := by
    rw [hs₂, ← ho₁ _ hne]
    exact update_self _ _ _
  have ho₂ : ∀ d, d ≠ (s.vps i).globAllocChunk → s₂.chunks d = s₁.chunks d := fun d hd => by
    rw [hs₂]
    exact update_of_ne hd _ _
  have htail : s₂.tail s₂.nChunks (s.vps i).globAllocChunk = (s.vps i).globAllocChunk := tail_eq (by rw [ha₂]; exact hn)
  have hchunks : (s.allocToSpaceChunk i fresh).chunks =
      (s₂.setNext (s.vps i).globAllocChunk (some s.nChunks)).chunks := by
    rw [hs₂, hs₁] at htail ⊢
    unfold Node.allocToSpaceChunk
    dsimp only
    rw [htail]
  rw [hchunks]
  refine ⟨?_, ?_, fun d hda hdn => ?_⟩
  · refine (update_self _ _ _).trans ?_
    rw [ha₂]
  · refine (update_of_ne hne.symm _ _).trans ?_
    rw [ho₂ _ hne.symm, hc₁]
  · refine (update_of_ne hda _ _).trans ?_
    rw [ho₂ d hda, ho₁ d hdn]

theorem alloc_vps {fresh : Chunk} : (s.allocToSpaceChunk i fresh).vps i = { s.vps i with
    globAllocChunk := s.nChunks, globNextW := fresh.baseAddr + wordSzB, globLimit := fresh.baseAddr + fresh.szB } :=
  update_self _ _ _

/-- The list of the vproc gets a new end. -/
theorem Private.extend {d : Nat} (hp : Private s vp c h) (hd : d ∉ h) (hnodup : h.Nodup)
    (hold : nextOf s' vp.globAllocChunk = some d) (hnew : nextOf s' d = none)
    (hother : ∀ b, b ≠ vp.globAllocChunk → b ≠ d → nextOf s' b = nextOf s b) (ha : vp'.globAllocChunk = d) :
    Private s' vp' c (h ++ [d]) := by
  obtain ⟨l, rfl, hl⟩ := hp
  refine ⟨l ++ [vp.globAllocChunk], by rw [ha], ?_⟩
  rw [append_assoc]
  refine hl.snoc (fun b hb => hother b (fun heq => ?_) fun heq => ?_) hold hnew
  · rw [heq] at hb
    exact (List.nodup_append.mp hnodup).2.2 _ hb _ mem_cons_self rfl
  · rw [heq] at hb
    exact hd (List.mem_append_left _ hb)

theorem alloc_places (hp : Places s U S H) (hf : (s.vps i).pc.Forwards) (fresh : Chunk) :
    Places (s.allocToSpaceChunk i fresh) U S (Function.update H i (H i ++ [s.nChunks])) := by
  have hl := hp.held i
  have hmem := hl.shape.alloc_mem
  have hnodup := hp.nodup i
  have hlt := hp.lt_of_held hmem
  have hfreshC : s.nChunks ∉ H i := fun hd => Nat.lt_irrefl _ (hp.lt_of_held hd)
  have hscans : ∀ r, (s.vps i).pc = .scan r → _ := fun r hpc => hl.scanning (.inl hpc)
  have hnone : (s.chunks (s.vps i).globAllocChunk).next = none := by
    cases hpc : (s.vps i).pc <;> rw [hpc] at hf
    case roots c =>
      have hs := hl.shape
      unfold Shape at hs
      rw [hpc] at hs
      exact Private.next_none hs
    case scan r =>
      rcases (hscans r hpc).1 with ⟨hprivate, -⟩ | ⟨-, t, -, hprivate⟩
      · exact hprivate.next_none
      · exact hprivate.next_none
    all_goals exact hf.elim
  obtain ⟨hold, hnew, hother⟩ := @alloc_chunks n s i fresh hnone hlt
  obtain ⟨s', hs'⟩ : ∃ s', s' = s.allocToSpaceChunk i fresh := ⟨_, rfl⟩
  have hvp : s'.vps i = { s.vps i with
      globAllocChunk := s.nChunks, globNextW := fresh.baseAddr + wordSzB, globLimit := fresh.baseAddr + fresh.szB } := by
    rw [hs']
    exact alloc_vps
  have hrec : s'.scanned = s.scanned := by rw [hs']; rfl
  rw [← hs'] at hold hnew hother ⊢
  have hsame : ∀ d < s.nChunks, d ∉ H i → Same s s' d := fun d hd hdh =>
    ⟨hother d (fun heq => hdh (heq ▸ hmem)) (Nat.ne_of_lt hd), by rw [hrec]⟩
  have hscanned : ∀ d ∈ H i, ∀ p, ScannedTo s d p → ScannedTo s' d p := by
    grind [ScannedTo]
  have htops : ∀ d ∈ H i, (s'.chunks d).top = (s.chunks d).top ∧ (s'.chunks d).mark = (s.chunks d).mark := by
    intro d hd
    by_cases hda : d = (s.vps i).globAllocChunk
    · rw [hda, hold]
      exact ⟨rfl, rfl⟩
    · rw [hother d hda (Nat.ne_of_lt (hp.lt_of_held hd))]
      exact ⟨rfl, rfl⟩
  have hextend : ∀ {c t}, Private s (s.vps i) c t → t.Nodup → s.nChunks ∉ t →
      Private s' (s'.vps i) c (t ++ [s.nChunks]) := fun hprivate ht hct =>
    hprivate.extend hct ht (congrArg Chunk.next hold) (congrArg Chunk.next hnew)
      (fun b h1 h2 => congrArg Chunk.next (hother b h1 h2)) (by rw [hvp])
  have hpc' : (s'.vps i).pc = (s.vps i).pc := by rw [hvp]
  obtain ⟨⟨hU, hUm⟩, hS, hSt⟩ := hp.keep hsame
  have hn : s'.nChunks = s.nChunks + 1 := by rw [hs']; rfl
  refine hp.update hsame (fun j hj => ?_) (fun d => ?_) ?_ ?_ hUm hSt ⟨?_, ?_, ?_, ?_, ?_⟩ fun d hd => ?_
  · rw [hs']
    exact update_of_ne hj _ _
  · rw [hn]
    grind
  · rw [hs'] at hU ⊢
    exact hU
  · rw [hs'] at hS ⊢
    exact hS
  · -- the list goes on with the new chunk
    unfold Shape
    rw [hpc']
    cases hpc : (s.vps i).pc <;> rw [hpc] at hf
    case roots c =>
      have hs := hl.shape
      unfold Shape at hs
      rw [hpc] at hs
      exact hextend hs hnodup hfreshC
    case scan r =>
      grind
    all_goals exact hf.elim
  · intro d hd hne
    rw [hvp] at hne
    rcases List.mem_append.mp hd with hd | hd
    · by_cases hda : d = (s.vps i).globAllocChunk
      · rw [(htops d hd).1, hda, hold]
        show (s.vps i).globNextW - wordSzB = _
        rw [hl.globNextW]
        exact Nat.add_sub_cancel _ _
      · rw [(htops d hd).1, hother d hda (Nat.ne_of_lt (hp.lt_of_held hd))]
        exact hl.usedTop d hd hda
    · exact absurd (List.mem_singleton.mp hd) hne
  · rw [hvp]
    show fresh.baseAddr + wordSzB = (s'.chunks s.nChunks).top + wordSzB
    rw [hnew]
    rfl
  · intro d hd
    rcases List.mem_append.mp hd with hd | hd
    · have hd' := hscanned d hd _ (hl.scanned d hd)
      unfold pos at hd' ⊢
      rw [hpc', (htops d hd).2]
      exact hd'
    · obtain rfl := List.mem_singleton.mp hd
      have hpos : pos s' (s'.vps i) s.nChunks = (s'.chunks s.nChunks).mark := by
        unfold pos
        rw [hpc']
        cases hpc : (s.vps i).pc <;> rw [hpc] at hf
        case scan r =>
          exact if_neg fun heq : s.nChunks = r.scanChunk => hfreshC (heq ▸ hl.shape.scanChunk_mem (.inl hpc))
        all_goals first
          | rfl
          | exact hf.elim
      rw [hpos, hnew]
      refine ⟨[], [], ?_, ?_, ?_⟩
      · rw [hnew]
        rfl
      · rw [hnew]
        exact Nat.max_zero _
      · rw [hrec]
        exact hp.fresh _ (Nat.le_refl _)
  · have hb := hl.bounds
    unfold Bounds at hb ⊢
    rw [hpc']
    cases hpc : (s.vps i).pc <;> rw [hpc] at hf hb
    case scan r =>
      dsimp only
      rw [(htops _ (hl.shape.scanChunk_mem (.inl hpc))).1]
      exact hb
    all_goals first
      | exact trivial
      | exact hf.elim
  · rw [hrec]
    exact hp.fresh d (by omega)

theorem forward_places (hp : Places s U S H) (hf : (s.vps i).pc.Forwards) (fresh : Chunk) (len : Nat) (wins : Bool) :
    ∃ H', Places (s.forwardObjGlobal i fresh len wins) U S H' := by
  unfold Node.forwardObjGlobal
  have hcopy : ∀ {s' : Node n} {H' : Fin n → List Nat}, Places s' U S H' → (s'.vps i).pc.Forwards →
      Places (if wins then s'.copy i len else s') U S H' := by
    intro s' H' hp' hf'
    split
    · exact copy_places hp' hf' len
    · exact hp'
  dsimp only
  by_cases hroom : (s.vps i).globNextW + wordSzB * len ≥ (s.vps i).globLimit
  · rw [if_pos hroom]
    exact ⟨_, hcopy (alloc_places hp hf fresh) (by rw [alloc_vps]; exact hf)⟩
  · rw [if_neg hroom]
    exact ⟨_, hcopy hp hf⟩

/-! ## Every step -/

theorem act_places (hp : Places s U S H) (ha : Act s i s') : ∃ U' S' H', Places s' U' S' H' := by
  have hl := hp.held i
  cases ha with
  | forward fresh len wins hf =>
    obtain ⟨H', hp'⟩ := forward_places hp hf fresh len wins
    exact ⟨U, S, H', hp'⟩
  | roots hpc => exact ⟨U, S, H, hp.setPc (pushRoots_local hl hpc)⟩
  | pushNone hpc hn => exact ⟨U, S, H, hp.setPc (pushed_local hl (.inl hpc) hn (.inl rfl))⟩
  | pushLock hpc _ _ =>
    exact ⟨U, S, H, hp.pc_step rfl rfl rfl rfl rfl (fun j hj => setPc_vps_of_ne hj) (by
      rw [setPc_vps]
      exact pushLock_local hl hpc)⟩
  | pushRound hpc hn =>
    obtain ⟨U', H', hp'⟩ := pushRound_places hp hpc hn
    exact ⟨U', S, H', hp'⟩
  | pushUnlock hpc hn =>
    exact ⟨U, S, H, hp.pc_step rfl rfl rfl rfl rfl (fun j hj => setPc_vps_of_ne hj) (by
      rw [setPc_vps]
      exact pushed_local hl (.inr hpc) hn (.inr rfl))⟩
  | @signalOne j hpc hj =>
    have hp' := hp.setPc (signal_local hl hpc)
    have hne : j ≠ i := by
      intro heq
      rw [heq, hpc] at hj
      cases hj
    have hlj := hp'.held j
    rw [setPc_vps_of_ne hne] at hlj
    refine ⟨U, S, H, hp'.setPc ?_⟩
    rw [setPc_vps_of_ne hne]
    exact idle_local hlj (.inr (by rw [hj]; rfl)) (.inr rfl) fun _ => hlj.top_le (by rw [hj]; rfl)
  | signalNone hpc _ => exact ⟨U, S, H, hp.setPc (signal_local hl hpc)⟩
  | getNext hpc _ =>
    obtain ⟨U', H', hp'⟩ := getNext_places hp hpc
    exact ⟨U', S, H', hp'⟩
  | wake hpc _ =>
    obtain ⟨U', H', hp'⟩ := wake_places hp hpc
    exact ⟨U', S, H', hp'⟩
  | unlink hpc => exact ⟨U, S, H, unlink_places hp hpc⟩
  | got hpc => exact ⟨U, S, H, got_places hp hpc⟩
  | object hpc _ hobjs hpre => exact ⟨U, S, H, object_places hp hpc hobjs hpre⟩
  | endInner hpc _ he => exact ⟨U, S, H, endInner_places hp hpc he⟩
  | endScan hpc _ =>
    obtain ⟨S', H', hp'⟩ := endScan_places hp hpc
    exact ⟨U, S', H', hp'⟩
  | broadcast hpc =>
    have hp' := wakeAll_places hp
    have hpc' : (s.wakeAll.vps i).pc = .broadcast := by
      unfold Node.wakeAll
      dsimp only
      rw [hpc]
      exact hpc
    refine ⟨U, S, H, hp'.setPc (idle_local (hp'.held i) (.inr ?_) (.inr rfl) fun _ => (hp'.held i).top_le ?_)⟩
    · rw [hpc']
      rfl
    · rw [hpc']
      rfl

theorem step_places (hp : Places s U S H) (ha : Step s s') : ∃ U' S' H', Places s' U' S' H' := by
  cases ha with
  | act ha => exact act_places hp ha
  | spurious hpc =>
    exact ⟨U, S, H, hp.setPc (idle_local (hp.held _) (.inr (by rw [hpc]; rfl)) (.inr rfl) fun _ =>
      (hp.held _).top_le (by rw [hpc]; rfl))⟩

end Manticore.ParallelRt.GlobalScan
