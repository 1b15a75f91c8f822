/-
  Manticore.ParallelRt.ForwardRaceChunks — the switch to a fresh chunk keeps the invariant.

  - `ChunksOk.map`, `ChunksOk.pop`, `ChunksOk.take`: a chunk from the system or from the node's list.
  - `Switched`: what is the same with another allocation chunk. `Inv.switch`, and `Step.inv` for all steps.
-/

import Manticore.ParallelRt.ForwardRaceSteps

namespace Manticore.ParallelRt.ForwardRace

open ByteMemory
open Function (update_of_ne update_self)

variable {n : Nat} {G : Graph n} {s s' : State n} {i j : Fin n} {c d p q : Nat}

/-! ## A fresh chunk -/

theorem setUsedTop_chunks (c top d : Nat) : ∃ t, (s.setUsedTop c top).chunks d = { s.chunks d with usedTop := t } ∧
    (d ≠ c → t = (s.chunks d).usedTop) ∧ (d = c → t = top) := by
  unfold State.setUsedTop
  by_cases hd : d = c
  · simp [hd]
  · exact ⟨_, update_of_ne hd _ _, fun _ => rfl, fun he => absurd he hd⟩

/-- `c` is the chunk that is taken. -/
structure Takes (s s₁ : State n) (c : Nat) : Prop where
  mem : s₁.mem = s.mem
  vps : s₁.vps = s.vps
  nChunks : ∀ d, d < s₁.nChunks ↔ d < s.nChunks ∨ d = c
  same : ∀ d, d ≠ c → s₁.chunks d = s.chunks d
  toSp : (s₁.chunks c).sts = .toSp
  free : c < s.nChunks → (s.chunks c).sts = .free ∧ (s₁.chunks c).baseAddr = (s.chunks c).baseAddr

theorem Takes.alloc (hc : ChunksOk G s) {s₁ : State n} (ht : Takes s s₁ c) (j : Fin n) : (s.vps j).alloc.Ok s₁ := by
  obtain ⟨hlt, hsts, hlimit, hbase, hle⟩ := hc.alloc j
  have hne : (s.vps j).alloc.globAllocChunk ≠ c := fun he => by
    have hfree := (ht.free (by rw [← he]; exact hlt)).1
    rw [← he, hsts] at hfree
    cases hfree
  have hsame := ht.same _ hne
  exact ⟨(ht.nChunks _).mpr (.inl hlt), by rw [hsame]; exact hsts, by rw [hsame]; exact hlimit,
    by rw [hsame]; exact hbase, hle⟩

theorem mapChunk_takes (s : State n) (mapped : Nat) : Takes s (s.mapChunk mapped) s.nChunks := by
  refine ⟨rfl, rfl, fun d => Nat.lt_succ_iff_lt_or_eq, fun d hd => update_of_ne hd _ _, ?_,
    fun hlt => absurd hlt (Nat.lt_irrefl _)⟩
  unfold State.mapChunk
  dsimp only
  rw [update_self]

theorem popChunk_takes {node chunk : Nat} {next : List Nat} (hlt : chunk < s.nChunks)
    (hsts : (s.chunks chunk).sts = .free) : Takes s (s.popChunk node chunk next) chunk := by
  unfold State.popChunk
  refine ⟨rfl, rfl, fun d => ⟨.inl, fun hd => hd.elim id fun he => by rw [he]; exact hlt⟩,
    fun d hd => update_of_ne hd _ _, ?_, fun _ => ⟨hsts, ?_⟩⟩
  · dsimp only
    rw [update_self]
  · dsimp only
    rw [update_self]

theorem ChunksOk.map (hc : ChunksOk G s) {mapped : Nat} (hun : Unmapped G s mapped) : ChunksOk G (s.mapChunk mapped) := by
  have ht := mapChunk_takes s mapped
  have hnew : (s.mapChunk mapped).chunks s.nChunks = ⟨mapped, heapChunkSzB, 0, .toSp⟩ := update_self _ _ _
  have hold : ∀ d < s.nChunks, (s.mapChunk mapped).chunks d = s.chunks d := fun d hd => ht.same d (Nat.ne_of_lt hd)
  refine ⟨fun d hd => ?_, fun d hd e he hde => ?_, fun r hr d hd => ?_, fun node d hd => ?_, hc.nodup, hc.nodes,
    ht.alloc hc, hc.own⟩
  · rcases (ht.nChunks d).mp hd with hd | rfl
    · rw [hold d hd]
      exact hc.size d hd
    · rw [hnew]
      exact ⟨rfl, hun.addr⟩
  · rcases (ht.nChunks d).mp hd with hd | rfl <;> rcases (ht.nChunks e).mp he with he | rfl
    · rw [hold d hd, hold e he]
      exact hc.apart d hd e he hde
    · rw [hold d hd, hnew]
      exact (hun.chunks d hd).symm
    · rw [hold e he, hnew]
      exact hun.chunks e he
    · exact absurd rfl hde
  · rcases (ht.nChunks d).mp hd with hd | rfl
    · rw [hold d hd]
      exact hc.roots r hr d hd
    · rw [hnew]
      exact hun.roots r hr
  · obtain ⟨hlt, hsts⟩ := hc.free node d hd
    rw [hold d hlt]
    exact ⟨Nat.lt_succ_of_lt hlt, hsts⟩

theorem ChunksOk.pop (hc : ChunksOk G s) {node chunk : Nat} {next : List Nat}
    (hfree : s.freeChunks node = chunk :: next) : ChunksOk G (s.popChunk node chunk next) := by
  have hmem : chunk ∈ s.freeChunks node := by
    rw [hfree]
    exact List.mem_cons_self
  obtain ⟨hlt, hsts⟩ := hc.free node chunk hmem
  have ht : Takes s (s.popChunk node chunk next) chunk := popChunk_takes hlt hsts
  have hnodup := hc.nodup node
  rw [hfree, List.nodup_cons] at hnodup
  -- the chunk keeps its place
  have hplace : ∀ d, ((s.popChunk node chunk next).chunks d).baseAddr = (s.chunks d).baseAddr ∧
      ((s.popChunk node chunk next).chunks d).szB = (s.chunks d).szB := fun d => by
    by_cases hd : d = chunk
    · simp [State.popChunk, hd]
    · rw [ht.same d hd]
      exact ⟨rfl, rfl⟩
  have hlists : ∀ k d, d ∈ (s.popChunk node chunk next).freeChunks k → d ∈ s.freeChunks k ∧ d ≠ chunk := fun k d hd => by
    by_cases hk : k = node
    · subst hk
      rw [show (s.popChunk k chunk next).freeChunks k = next from update_self _ _ _] at hd
      rw [hfree]
      exact ⟨List.mem_cons_of_mem _ hd, fun he => hnodup.1 (he ▸ hd)⟩
    · rw [show (s.popChunk node chunk next).freeChunks k = s.freeChunks k from update_of_ne hk _ _] at hd
      exact ⟨hd, fun he => hk (hc.nodes k node d hd (he ▸ hmem))⟩
  refine ⟨fun d hd => ?_, fun d hd e he hde => ?_, fun r hr d hd => ?_, fun k d hd => ?_, fun k => ?_,
    fun k l d hd hd' => hc.nodes k l d (hlists k d hd).1 (hlists l d hd').1, ht.alloc hc, hc.own⟩
  · rw [(hplace d).1, (hplace d).2]
    exact hc.size d hd
  · rw [(hplace d).1, (hplace e).1]
    exact hc.apart d hd e he hde
  · rw [(hplace d).1]
    exact hc.roots r hr d hd
  · obtain ⟨hmem', hne⟩ := hlists k d hd
    rw [ht.same d hne]
    exact hc.free k d hmem'
  · by_cases hk : k = node
    · subst hk
      rw [show (s.popChunk k chunk next).freeChunks k = next from update_self _ _ _]
      exact hnodup.2
    · rw [show (s.popChunk node chunk next).freeChunks k = s.freeChunks k from update_of_ne hk _ _]
      exact hc.nodup k

theorem ChunksOk.take (hc : ChunksOk G s) (i : Fin n) {mapped : Nat}
    (hmap : s.freeChunks (s.vps i).node = [] → Unmapped G s mapped) :
    ChunksOk G (s.takeChunk i mapped).1 ∧ Takes s (s.takeChunk i mapped).1 (s.takeChunk i mapped).2 := by
  unfold State.takeChunk
  dsimp only
  split
  · rename_i hfree
    exact ⟨hc.map (hmap hfree), mapChunk_takes s mapped⟩
  · rename_i chunk next hfree
    obtain ⟨hlt, hsts⟩ := hc.free (s.vps i).node chunk (by rw [hfree]; exact List.mem_cons_self)
    exact ⟨hc.pop hfree, popChunk_takes hlt hsts⟩

/-- The vproc `i` has left its allocation chunk for the chunk `c`. -/
structure Switched (G : Graph n) (s s' : State n) (i : Fin n) (c : Nat) : Prop where
  chunks : ChunksOk G s'
  mem : s'.mem = s.mem
  nChunks : ∀ d, d < s'.nChunks ↔ d < s.nChunks ∨ d = c
  base : ∀ d < s.nChunks, (s'.chunks d).baseAddr = (s.chunks d).baseAddr
  sts : ∀ d, d ≠ c → (s'.chunks d).sts = (s.chunks d).sts
  toSp : (s'.chunks c).sts = .toSp
  free : c < s.nChunks → (s.chunks c).sts = .free
  used : ∀ d, d ≠ c → d ≠ (s.vps i).alloc.globAllocChunk → (s'.chunks d).usedTop = (s.chunks d).usedTop
  usedOld : (s'.chunks (s.vps i).alloc.globAllocChunk).usedTop = (s.vps i).alloc.globNextW - 8
  vps : ∀ j, j ≠ i → s'.vps j = s.vps j
  alloc : (s'.vps i).alloc = ⟨c, (s'.chunks c).baseAddr + 8, (s'.chunks c).baseAddr + heapChunkSzB⟩

theorem Takes.not_alloc (hc : ChunksOk G s) {s₁ : State n} (ht : Takes s s₁ c) (j : Fin n) :
    (s.vps j).alloc.globAllocChunk ≠ c := by
  rintro rfl
  have hfree := (ht.free (hc.alloc j).lt).1
  rw [(hc.alloc j).toSp] at hfree
  cases hfree

theorem setAlloc_vps (alloc : Alloc) : (s.setAlloc i alloc).vps i = { s.vps i with alloc } := update_self _ _ _

theorem setAlloc_vps_of_ne (alloc : Alloc) (hj : j ≠ i) : (s.setAlloc i alloc).vps j = s.vps j :=
  update_of_ne hj _ _

theorem ChunksOk.setUsedTop (hc : ChunksOk G s) (c top : Nat) : ChunksOk G (s.setUsedTop c top) := by
  have hplace : ∀ d, ((s.setUsedTop c top).chunks d).baseAddr = (s.chunks d).baseAddr ∧
      ((s.setUsedTop c top).chunks d).szB = (s.chunks d).szB ∧
      ((s.setUsedTop c top).chunks d).sts = (s.chunks d).sts := fun d => by
    obtain ⟨t, ht, -⟩ := setUsedTop_chunks (s := s) c top d
    rw [ht]
    exact ⟨rfl, rfl, rfl⟩
  refine ⟨fun d hd => ?_, fun d hd e he hde => ?_, fun r hr d hd => ?_, fun node d hd => ?_, hc.nodup, hc.nodes,
    fun j => ?_, hc.own⟩
  · rw [(hplace d).1, (hplace d).2.1]
    exact hc.size d hd
  · rw [(hplace d).1, (hplace e).1]
    exact hc.apart d hd e he hde
  · rw [(hplace d).1]
    exact hc.roots r hr d hd
  · rw [(hplace d).2.2]
    exact hc.free node d hd
  · obtain ⟨hlt, hsts, hlimit, hbase, hle⟩ := hc.alloc j
    exact ⟨hlt, (hplace _).2.2.trans hsts, by rw [(hplace _).1]; exact hlimit, by rw [(hplace _).1]; exact hbase, hle⟩

theorem ChunksOk.setAlloc (hc : ChunksOk G s) (hlt : c < s.nChunks) (hsts : (s.chunks c).sts = .toSp)
    (hother : ∀ j, j ≠ i → (s.vps j).alloc.globAllocChunk ≠ c) {alloc : Alloc}
    (ha : alloc = ⟨c, (s.chunks c).baseAddr + wordSzB, (s.chunks c).baseAddr + (s.chunks c).szB⟩) :
    ChunksOk G (s.setAlloc i alloc) := by
  subst ha
  have hszB := (hc.size c hlt).1
  refine ⟨hc.size, hc.apart, hc.roots, hc.free, hc.nodup, hc.nodes, fun j => ?_, fun j k hjk => ?_⟩
  · by_cases hj : j = i
    · rw [hj, setAlloc_vps]
      refine ⟨hlt, hsts, ?_, Nat.le_refl _, ?_⟩
      · show _ + (s.chunks c).szB = (s.chunks c).baseAddr + heapChunkSzB
        rw [hszB]
      simp
    · obtain ⟨hlt, hsts, hlimit, hbase, hle⟩ := hc.alloc j
      rw [setAlloc_vps_of_ne _ hj]
      exact ⟨hlt, hsts, hlimit, hbase, hle⟩
  · by_cases hj : j = i <;> by_cases hk : k = i
    · rw [hj, hk]
    · rw [hj, setAlloc_vps, setAlloc_vps_of_ne _ hk] at hjk
      exact absurd hjk.symm (hother k hk)
    · rw [hk, setAlloc_vps, setAlloc_vps_of_ne _ hj] at hjk
      exact absurd hjk (hother j hj)
    · rw [setAlloc_vps_of_ne _ hj, setAlloc_vps_of_ne _ hk] at hjk
      exact hc.own j k hjk

theorem Inv.switched (h : Inv G s) (i : Fin n) {mapped : Nat}
    (hmap : s.freeChunks (s.vps i).node = [] → Unmapped G s mapped) :
    Switched G s (s.allocToSpaceChunk i mapped) i (s.takeChunk i mapped).2 := by
  obtain ⟨hc, ht⟩ := h.chunks.take i hmap
  unfold State.allocToSpaceChunk
  dsimp only
  generalize (s.takeChunk i mapped).1 = s₁ at hc ht ⊢
  generalize (s.takeChunk i mapped).2 = c at ht ⊢
  have hnot := ht.not_alloc h.chunks
  have hset := setUsedTop_chunks (s := s₁) (s.vps i).alloc.globAllocChunk ((s.vps i).alloc.globNextW - wordSzB)
  have hc₂ := hc.setUsedTop (s.vps i).alloc.globAllocChunk ((s.vps i).alloc.globNextW - wordSzB)
  have hvps : (s₁.setUsedTop (s.vps i).alloc.globAllocChunk ((s.vps i).alloc.globNextW - wordSzB)).vps = s.vps := ht.vps
  have hmem : (s₁.setUsedTop (s.vps i).alloc.globAllocChunk ((s.vps i).alloc.globNextW - wordSzB)).mem = s.mem := ht.mem
  have hn : (s₁.setUsedTop (s.vps i).alloc.globAllocChunk ((s.vps i).alloc.globNextW - wordSzB)).nChunks = s₁.nChunks :=
    rfl
  generalize s₁.setUsedTop (s.vps i).alloc.globAllocChunk ((s.vps i).alloc.globNextW - wordSzB) = s₂
    at hset hc₂ hvps hmem hn ⊢
  have hlt : c < s₂.nChunks := by rw [hn]; exact (ht.nChunks c).mpr (.inr rfl)
  have hbase : ∀ d, (s₂.chunks d).baseAddr = (s₁.chunks d).baseAddr := fun d => by
    obtain ⟨t, ht, -⟩ := hset d
    rw [ht]
  have hsts : ∀ d, (s₂.chunks d).sts = (s₁.chunks d).sts := fun d => by
    obtain ⟨t, ht, -⟩ := hset d
    rw [ht]
  refine ⟨hc₂.setAlloc hlt ((hsts c).trans ht.toSp) (fun j _ => by rw [hvps]; exact hnot j) rfl, hmem,
    fun d => by rw [← ht.nChunks d, ← hn]; rfl, fun d hd => (hbase d).trans ?_, fun d hd => ?_, (hsts c).trans ht.toSp,
    fun hlt => (ht.free hlt).1, fun d hd hdo => ?_, ?_, fun j hj => ?_, ?_⟩
  · by_cases hdc : d = c
    · subst hdc
      exact (ht.free hd).2
    · rw [ht.same d hdc]
  · exact (hsts d).trans (by rw [ht.same d hd])
  · obtain ⟨t, ht', hsame, -⟩ := hset d
    show (s₂.chunks d).usedTop = _
    rw [ht', hsame hdo, ht.same d hd]
  · obtain ⟨t, ht', -, hnew⟩ := hset (s.vps i).alloc.globAllocChunk
    show (s₂.chunks _).usedTop = _
    rw [ht', hnew rfl]
    rfl
  · rw [setAlloc_vps_of_ne _ hj, hvps]
  · rw [setAlloc_vps, (hc₂.size c hlt).1]
    rfl

namespace Switched

variable (h : Inv G s) (hsw : Switched G s s' i c)
include h hsw

theorem not_alloc (j : Fin n) : (s.vps j).alloc.globAllocChunk ≠ c := by
  rintro rfl
  have hfree := hsw.free (h.chunks.alloc j).lt
  rw [(h.chunks.alloc j).toSp] at hfree
  cases hfree

omit h in
theorem alloc_of_ne (hdc : d ≠ c) {j : Fin n} (hj : (s'.vps j).alloc.globAllocChunk = d) : j ≠ i := by
  rintro rfl
  rw [hsw.alloc] at hj
  exact hdc hj.symm

/-- The objects of the other chunks end where they did; those of the chunk that is left are recorded in it. -/
theorem usedTop {top : Nat} (hdc : d ≠ c) : UsedTop s' d top ↔ UsedTop s d top := by
  unfold UsedTop wordSzB
  constructor
  · rintro (⟨j, hj, rfl⟩ | ⟨hn, rfl⟩)
    · have hji := hsw.alloc_of_ne hdc hj
      rw [hsw.vps j hji] at hj ⊢
      exact .inl ⟨j, hj, rfl⟩
    · by_cases hdo : d = (s.vps i).alloc.globAllocChunk
      · subst hdo
        exact .inl ⟨i, rfl, hsw.usedOld⟩
      · refine .inr ⟨fun j hj => ?_, hsw.used d hdc hdo⟩
        have hji : j ≠ i := by
          rintro rfl
          exact hdo hj.symm
        exact hn j (by rw [hsw.vps j hji]; exact hj)
  · rintro (⟨j, hj, rfl⟩ | ⟨hn, rfl⟩)
    · by_cases hji : j = i
      · subst hji
        subst hj
        refine .inr ⟨fun k hk => ?_, hsw.usedOld.symm⟩
        have hki := hsw.alloc_of_ne hdc hk
        rw [hsw.vps k hki] at hk
        exact hki (h.chunks.own k j hk)
      · exact .inl ⟨j, by rw [hsw.vps j hji]; exact hj, by rw [hsw.vps j hji]⟩
    · refine .inr ⟨fun j hj => ?_, (hsw.used d hdc fun he => hn i he.symm).symm⟩
      have hji := hsw.alloc_of_ne hdc hj
      rw [hsw.vps j hji] at hj
      exact hn j hj

omit h in
theorem usedTop_new {top : Nat} : UsedTop s' c top ↔ top = (s'.chunks c).baseAddr := by
  have hown : UsedTop s' c (s'.chunks c).baseAddr := .inl ⟨i, by rw [hsw.alloc], by rw [hsw.alloc]; rfl⟩
  exact ⟨fun ht => ht.unique hsw.chunks hown, fun ht => ht ▸ hown⟩

omit h in
theorem lt_of_ne (hd : d < s'.nChunks) (hdc : d ≠ c) : d < s.nChunks :=
  ((hsw.nChunks d).mp hd).elim id fun he => absurd he hdc

theorem held_iff : Held G s' q ↔ Held G s q := by
  constructor
  · rintro ⟨d, top, hs, hd, hsts, ht, hobj, hq8, hmem⟩
    rw [hsw.mem] at hobj
    by_cases hdc : d = c
    · subst hdc
      obtain rfl := (hsw.usedTop_new).mp ht
      obtain rfl := hobj.unique (.nil _)
      exact absurd hmem List.not_mem_nil
    · have hd := hsw.lt_of_ne hd hdc
      rw [hsw.base d hd] at hobj
      rw [hsw.sts d hdc] at hsts
      exact ⟨d, top, hs, hd, hsts, (hsw.usedTop h hdc).mp ht, hobj, hq8, hmem⟩
  · rintro ⟨d, top, hs, hd, hsts, ht, hobj, hq8, hmem⟩
    have hdc : d ≠ c := by
      rintro rfl
      rw [hsw.free hd] at hsts
      cases hsts
    rw [← hsw.mem, ← hsw.base d hd] at hobj
    rw [← hsw.sts d hdc] at hsts
    exact ⟨d, top, hs, (hsw.nChunks d).mpr (.inl hd), hsts, (hsw.usedTop h hdc).mpr ht, hobj, hq8, hmem⟩

theorem fromSp (a : Nat) : s'.inFromSpace a = s.inFromSpace a := by
  unfold State.inFromSpace
  rw [Bool.eq_iff_iff, List.any_eq_true, List.any_eq_true]
  simp only [List.mem_range, Bool.and_eq_true, decide_eq_true_eq]
  constructor
  · rintro ⟨d, hd, ⟨hsts, hle⟩, hlt⟩
    have hdc : d ≠ c := by
      rintro rfl
      rw [hsw.toSp] at hsts
      cases hsts
    have hd' := hsw.lt_of_ne hd hdc
    rw [hsw.sts d hdc] at hsts
    rw [hsw.base d hd'] at hle hlt
    rw [(hsw.chunks.size d hd).1] at hlt
    exact ⟨d, hd', ⟨hsts, hle⟩, by rw [(h.chunks.size d hd').1]; exact hlt⟩
  · rintro ⟨d, hd, ⟨hsts, hle⟩, hlt⟩
    have hdc : d ≠ c := by
      rintro rfl
      rw [hsw.free hd] at hsts
      cases hsts
    have hd' := (hsw.nChunks d).mpr (.inl hd)
    rw [← hsw.sts d hdc] at hsts
    rw [← hsw.base d hd] at hle hlt
    rw [(h.chunks.size d hd).1] at hlt
    exact ⟨d, hd', ⟨hsts, hle⟩, by rw [(hsw.chunks.size d hd').1]; exact hlt⟩

omit h in
theorem left {top : Nat} (hl : Left s d top) : Left s' d top := by
  have hdc : d ≠ c := by
    rintro rfl
    have hfree := hsw.free hl.lt
    rw [hl.toSp] at hfree
    cases hfree
  refine ⟨(hsw.nChunks d).mpr (.inl hl.lt), (hsw.sts d hdc).trans hl.toSp, fun j hj => ?_,
    (hsw.used d hdc fun he => hl.left i he.symm).trans hl.usedTop⟩
  have hji := hsw.alloc_of_ne hdc hj
  rw [hsw.vps j hji] at hj
  exact hl.left j hj

theorem keeps {j : Fin n} : Keeps G s s' (s.vps j).alloc where
  held q hq := (hsw.held_iff h).mpr hq
  forwarded p _ q hq := by rw [hsw.mem]; exact hq
  base := hsw.base _ (h.chunks.alloc j).lt
  left _ _ hl := hsw.left hl
  room x _ _ := by rw [hsw.mem]

/-- The chunk that is left. -/
theorem left_old : Left s' (s.vps i).alloc.globAllocChunk ((s.vps i).alloc.globNextW - 8) := by
  have halloc := h.chunks.alloc i
  have hdc := hsw.not_alloc h i
  refine ⟨(hsw.nChunks _).mpr (.inl halloc.lt), (hsw.sts _ hdc).trans halloc.toSp, fun j hj => ?_, hsw.usedOld⟩
  have hji := hsw.alloc_of_ne hdc hj
  rw [hsw.vps j hji] at hj
  exact hji (h.chunks.own j i hj)

/-- The invariant, but for the vproc itself. -/
theorem inv (hG : G.Ok) (hw : ∀ p q, ¬ (s.vps i).pc.Writing p q) (hpc : PcOk G s' (s'.vps i)) : Inv G s' := by
  refine ⟨hsw.chunks, fun a => (hsw.fromSp h a).trans (h.fromSp a), fun p hp => ?_, fun d hd hsts top ht => ?_,
    fun q hq => ?_, ?_, fun p hp q hq => ?_, ?_, ?_, ?_, fun j => ?_⟩
  · obtain ⟨d, hd, hsts, hbase, htop⟩ := h.obj p hp
    have hdc : d ≠ c := by
      rintro rfl
      rw [hsw.free hd] at hsts
      cases hsts
    exact ⟨d, (hsw.nChunks d).mpr (.inl hd), (hsw.sts d hdc).trans hsts, by rw [hsw.base d hd]; exact hbase,
      by rw [hsw.base d hd]; exact htop⟩
  · rw [hsw.mem]
    by_cases hdc : d = c
    · subst hdc
      obtain rfl := (hsw.usedTop_new).mp ht
      exact ⟨Nat.le_add_right _ _, [], .nil _⟩
    · have hd' := hsw.lt_of_ne hd hdc
      rw [hsw.sts d hdc] at hsts
      rw [hsw.base d hd']
      exact h.objects d hd' hsts top ((hsw.usedTop h hdc).mp ht)
  · rw [hsw.mem]
    exact h.copies q ((hsw.held_iff h).mp hq)
  · rw [hsw.mem]
    exact h.hdr
  · rw [hsw.mem] at hq
    obtain ⟨hfrom, hq' | ⟨j, hj⟩⟩ := h.placed p hp q hq
    · exact ⟨(hsw.fromSp h q).trans hfrom, .inl ((hsw.held_iff h).mpr hq')⟩
    · refine ⟨(hsw.fromSp h q).trans hfrom, .inr ⟨j, ?_⟩⟩
      have hji : j ≠ i := by
        rintro rfl
        exact hw p q hj
      rw [hsw.vps j hji]
      exact hj
  · rw [hsw.mem]
    exact h.inj
  · rw [hsw.mem]
    exact h.fields
  · rw [hsw.mem]
    exact h.roots
  · by_cases hj : j = i
    · rw [hj]
      exact hpc
    · rw [hsw.vps j hj]
      exact (h.pcs j).keeps hG (h.chunks.alloc j) (hsw.keeps h)

omit h in
theorem setPc (pc : Pc) : Switched G s (s'.setPc i pc) i c where
  chunks := (SameHeap.write s' i s'.mem pc).chunksOk hsw.chunks
  mem := hsw.mem
  nChunks := hsw.nChunks
  base := hsw.base
  sts := hsw.sts
  toSp := hsw.toSp
  free := hsw.free
  used := hsw.used
  usedOld := hsw.usedOld
  vps j hj := by rw [setPc_vps_of_ne hj]; exact hsw.vps j hj
  alloc := by rw [setPc_alloc]; exact hsw.alloc

end Switched

theorem Inv.switch (hG : G.Ok) (h : Inv G s) {c : Call} {oldHdr : Word} {mapped : Nat}
    (hpc : (s.vps i).pc = .reserve c oldHdr) (hmap : s.freeChunks (s.vps i).node = [] → Unmapped G s mapped) :
    Inv G ((s.allocToSpaceChunk i mapped).setPc i
      (.cas c oldHdr ((s.allocToSpaceChunk i mapped).vps i).alloc.globNextW)) := by
  have hok := h.pcs i
  unfold PcOk at hok
  rw [hpc] at hok
  obtain ⟨hcall, rfl, hentry⟩ := hok
  have hsw := h.switched i hmap
  have hsw' := hsw.setPc (.cas c (G.hdr c.v.toNat) ((s.allocToSpaceChunk i mapped).vps i).alloc.globNextW)
  refine hsw'.inv h hG (fun p q hw => by rw [hpc] at hw; exact hw) ?_
  have hk : Keeps G s _ (s.vps i).alloc := hsw'.keeps h
  have hlen : 8 * (G.len c.v.toNat + 1) ≤ heapChunkSzB := by
    -- the object fits into an empty chunk, as it is in a chunk
    obtain ⟨d, hd, -, hbase, htop⟩ := h.obj _ (hcall.live.mem hG)
    omega
  have hleft := hsw'.left_old h
  rw [hentry] at hleft
  have halloc := hsw.alloc
  rw [setPc_vps]
  generalize (s.takeChunk i mapped).2 = d at halloc
  refine ⟨hcall.keeps hG hk, rfl, .inr ⟨hleft, ?_⟩, rfl, ?_, ?_⟩
  · dsimp only
    rw [halloc]
    exact ⟨rfl, rfl⟩
  · dsimp only
    rw [halloc]
    show _ + 8 < ((s.allocToSpaceChunk i mapped).chunks d).baseAddr + heapChunkSzB
    unfold heapChunkSzB
    omega
  · dsimp only
    rw [halloc]
    show _ + 8 + _ ≤ ((s.allocToSpaceChunk i mapped).chunks d).baseAddr + heapChunkSzB
    omega

/-! ## Runs -/

theorem Step.inv (hG : G.Ok) (h : Inv G s) (hstep : Step G s s') : Inv G s' := by
  obtain ⟨i, hact⟩ := hstep
  cases hact with
  | scan hpc ha _ hfrom => exact h.scan hG hpc ha hfrom
  | forwarded hpc hf => exact h.forwarded hG hpc hf
  | start hpc hf => exact h.start hG hpc hf
  | reserve hpc hfull => exact h.reserve hG hpc hfull
  | switch mapped hpc _ hmap => exact h.switch hG hpc hmap
  | win hpc heq => exact h.win hG hpc heq
  | lose hpc hne => exact h.lose hG hpc hne
  | header hpc => exact h.header hG hpc
  | copy hpc hk => exact h.copy hG hpc hk
  | bump hpc hk => exact h.bump hG hpc hk
  | ret hpc => exact h.ret hG hpc

end Manticore.ParallelRt.ForwardRace
