/-
  Manticore.ParallelRt.AllocProofs — what each allocator of the global heap leaves behind.

  - `Placed`: a good heap that has kept its objects, with a new one where nothing was used before.
  - `Good.globalAllocUniform`, `Good.globalAllocPolyArray`, `Good.globalAllocVector`: for every object that fits a
    chunk; `Good.globalAllocNonUniform`: when no new chunk is needed; `Good.globalAllocRawArray`: when the bytes are
    whole words, and these fit the chunk in use or a new one is taken.
-/

import Manticore.ParallelRt.HeapInv

namespace Manticore.ParallelRt.Heap

open ByteMemory

variable {os : Nat → Nat} {table : Nat → List Bool} {s : Heap}

/-- The entries of the mixed objects that the runtime system allocates. -/
def PredefinedTable (table : Nat → List Bool) : Prop :=
  ∀ nElems bits id, predefinedID nElems bits = some id → (table id).length = nElems

/-- `s'` has the objects of `s` and a new one of `n` words at `obj`. -/
structure Placed (os : Nat → Nat) (table : Nat → List Bool) (s s' : Heap) (obj n : Nat) : Prop where
  good : Good os table s'
  keeps : Keeps table s s'
  held : s'.Held table (obj - wordSzB) n
  fresh : ¬ s.InUsed (obj - wordSzB)
  le : wordSzB ≤ obj

/-! ## Room -/

theorem Good.ensureGlobalSpace (h : Good os table s) (nElems : Nat) :
    Good os table (ensureGlobalSpace os s nElems) ∧ Keeps table s (ensureGlobalSpace os s nElems) ∧
      (ensureGlobalSpace os s nElems).mem = s.mem := by
  unfold Heap.ensureGlobalSpace
  split
  · obtain ⟨halloc, hkeep⟩ := h.allocToSpaceChunk
    obtain ⟨hpush, hkeep'⟩ := halloc.push s.filled.length
    exact ⟨hpush, hkeep.trans hkeep', allocToSpaceChunk_mem⟩
  · exact ⟨h, .refl, rfl⟩

variable {n : Nat} {elems : List Word} {nElems : Nat}

/-- A new chunk has room for what fits a chunk. -/
theorem Good.room_alloc (h : Good os table s) (hfit : wordSzB * (n + 1) < heapChunkSzB) :
    (Heap.allocToSpaceChunk os s).vp.globNextW + wordSzB * (n + 1) ≤ (Heap.allocToSpaceChunk os s).vp.globLimit :=
      by
  have hszB : (takeChunk os s).1.szB = heapChunkSzB := takeChunk_szB.trans (h.next_shape 0).szB
  show (takeChunk os s).1.baseAddr + wordSzB + wordSzB * (n + 1) ≤ (takeChunk os s).1.baseAddr + (takeChunk os s).1.szB
  rw [hszB]
  unfold wordSzB heapChunkSzB at *
  omega

theorem Good.room_ensure (h : Good os table s) (hfit : wordSzB * (n + 1) < heapChunkSzB) :
    (Heap.ensureGlobalSpace os s n).vp.globNextW + wordSzB * (n + 1) ≤
      (Heap.ensureGlobalSpace os s n).vp.globLimit := by
  unfold Heap.ensureGlobalSpace
  split
  · exact h.room_alloc hfit
  · omega

/-- The place of the next object was not used before a new chunk was taken either. -/
theorem Keeps.not_used {s' : Heap} (hsub : ∀ x, s.InUsed x → s'.InUsed x) (h : Good os table s') :
    ¬ s.InUsed (s'.vp.globNextW - wordSzB) := by
  intro hx
  have hle := h.next.le_limit
  have hbase := h.next.base_le
  exact h.next_not_used (Nat.le_refl _) (by omega) (hsub _ hx)

theorem inUsed_alloc (os : Nat → Nat) {x : Nat} (hx : s.InUsed x) : (Heap.allocToSpaceChunk os s).InUsed x := by
  obtain ⟨c, hc, hx⟩ := hx
  exact ⟨c, mem_toSpace_alloc.mpr (.inr hc), hx⟩

theorem inUsed_ensure {x : Nat} (hx : s.InUsed x) : (Heap.ensureGlobalSpace os s n).InUsed x := by
  unfold Heap.ensureGlobalSpace
  split
  · obtain ⟨c, hc, hx⟩ := inUsed_alloc os hx
    exact ⟨c, mem_toSpace_push.mpr hc, hx⟩
  · exact hx

/-! ## Placing an object -/

/-- A memory with a header at the place of the next object that differs only there, behind
    and in the local heap, and the bump. -/
theorem Good.place_mem (h : Good os table s) (mem : Mem)
    (hhdr : HdrOk table (loadWord mem (s.vp.globNextW - wordSzB)) n)
    (hmem : ∀ y, y < s.vp.globNextW - wordSzB ∨ s.vp.globNextW + wordSzB * n ≤ y → ¬ InLocal s.vp.heapBase y → mem y = s.mem y)
    (hroom : s.vp.globNextW + wordSzB * (n + 1) ≤ s.vp.globLimit) :
    Placed os table s (({ s with mem } : Heap).bumpGlobNextW (wordSzB * (n + 1))) s.vp.globNextW n := by
  unfold wordSzB at *
  have hunused : ∀ y, s.InUsed y → mem y = s.mem y := by
    intro y hy
    refine hmem y ?_ (h.not_local hy)
    by_contra hin
    exact h.next_not_used (x := y) (by omega) (by omega) hy
  obtain ⟨hgood, hkeep⟩ := h.write_unused hunused
  obtain ⟨hgood', hkeep', hheld⟩ := hgood.bump hhdr hroom
  have hbase := h.next.base_le
  exact ⟨hgood', hkeep.trans hkeep', hheld, Keeps.not_used (fun _ hx => hx) h, Nat.le_of_add_left_le hbase⟩

/-- A header and fields at the place of the next object, and the bump past them. -/
theorem Good.place (h : Good os table s) {hdr : Word} (hhdr : HdrOk table hdr n) (hlen : elems.length ≤ n)
    (hroom : s.vp.globNextW + wordSzB * (n + 1) ≤ s.vp.globLimit) :
    Placed os table s ((s.initObj s.vp.globNextW hdr elems).bumpGlobNextW (wordSzB * (n + 1))) s.vp.globNextW n :=
      by
  have hbase := h.next.base_le
  apply h.place_mem (s.initObj s.vp.globNextW hdr elems).mem (n := n)
  · show HdrOk table (loadWord (storeWords (storeWord s.mem (s.vp.globNextW - wordSzB) hdr) s.vp.globNextW elems) _) n
    rw [loadWord_storeWords_of_disjoint elems (by unfold wordSzB; omega), loadWord_storeWord]
    exact hhdr
  · intro y hy _
    show storeWords (storeWord s.mem (s.vp.globNextW - wordSzB) hdr) s.vp.globNextW elems y = _
    unfold wordSzB at *
    rw [storeWords_of_not_mem elems (by omega), storeWord_of_not_mem hdr (by omega)]
  · exact hroom

theorem Placed.after {s₁ s' : Heap} {obj : Nat} (hk : Keeps table s s₁) (hu : ∀ x, s.InUsed x → s₁.InUsed x)
    (h : Placed os table s₁ s' obj n) : Placed os table s s' obj n :=
  ⟨h.good, hk.trans h.keeps, h.held, fun hx => h.fresh (hu _ hx), h.le⟩

/-- Room is made for an object of `n` words, which is then placed. -/
theorem Good.ensure_place (h : Good os table s) {hdr : Word} (hhdr : HdrOk table hdr n) (hlen : elems.length ≤ n)
    (hfit : wordSzB * (n + 1) < heapChunkSzB) : let s₁ := Heap.ensureGlobalSpace os s n
    Placed os table s ((s₁.initObj s₁.vp.globNextW hdr elems).bumpGlobNextW (wordSzB * (n + 1))) s₁.vp.globNextW n := by
  obtain ⟨hgood, hkeep, -⟩ := h.ensureGlobalSpace n
  exact (hgood.place hhdr hlen (h.room_ensure hfit)).after hkeep fun _ => inUsed_ensure

theorem lt_of_fits (hfit : wordSzB * (n + 1) < heapChunkSzB) : n < 2 ^ 31 := by
  unfold wordSzB heapChunkSzB at hfit
  omega

/-! ## The allocators -/

theorem Good.globalAllocUniform (h : Good os table s) (hfit : wordSzB * (elems.length + 1) < heapChunkSzB) :
    Placed os table s (Heap.globalAllocUniform os s elems).1 (Heap.globalAllocUniform os s elems).2 elems.length :=
  h.ensure_place (.vec (lt_of_fits hfit)) (Nat.le_refl _) hfit

theorem Good.globalAllocPolyArray (h : Good os table s) {init : Word} (hfit : wordSzB * (nElems + 1) < heapChunkSzB)
    :
    Placed os table s (Heap.globalAllocPolyArray os s nElems init).1 (Heap.globalAllocPolyArray os s nElems init).2
      nElems :=
  h.ensure_place (.vec (lt_of_fits hfit)) (by rw [List.length_replicate]) hfit

theorem predefinedID_lt {bits id : Nat} (h : predefinedID nElems bits = some id) :
    id < 2 ^ tableLenId ∧ nElems < 2 ^ 31 := by
  grind [predefinedID, predefined, tableLenId]

/-- When no new chunk is needed. -/
theorem Good.globalAllocNonUniform (h : Good os table s) (htbl : PredefinedTable table) {fields : List (Bool × Word)}
    (hroom : s.vp.globNextW + wordSzB * (fields.length + 1) < s.vp.globLimit) {r : Heap × Nat}
    (hr : Heap.globalAllocNonUniform os s fields = some r) : Placed os table s r.1 r.2 fields.length := by
  have hsame : Heap.ensureGlobalSpace os s fields.length = s := by
    unfold Heap.ensureGlobalSpace
    rw [if_neg (by omega)]
  unfold Heap.globalAllocNonUniform at hr
  cases hid : predefinedID fields.length (fieldBits fields) with
  | none => simp [hid] at hr
  | some id =>
    simp only [hid, hsame, Option.bind_eq_bind, Option.bind_some, Option.pure_def, Option.some.injEq] at hr
    subst hr
    obtain ⟨hlt, hn⟩ := predefinedID_lt hid
    exact h.place (.mixed hlt hn fun _ => htbl _ _ _ hid) (by rw [List.length_map]) (Nat.le_of_lt hroom)

/-- When the bytes are whole words and, if no new chunk is taken, these fit the chunk in use. -/
theorem Good.globalAllocRawArray (h : Good os table s) {szBOfElt : Nat} (hdvd : 8 ∣ nElems * szBOfElt)
    (hfit : wordSzB * (bytesToWords (nElems * szBOfElt) + 1) < heapChunkSzB)
    (hroom : s.vp.globNextW + wordSzB * (nElems + 1) < s.vp.globLimit → s.vp.globNextW + wordSzB + nElems * szBOfElt ≤ s.vp.globLimit)
    :
    Placed os table s (Heap.globalAllocRawArray os s nElems szBOfElt).1
      (Heap.globalAllocRawArray os s nElems szBOfElt).2 (bytesToWords (nElems * szBOfElt)) := by
  obtain ⟨k, hk⟩ := hdvd
  have hwords : bytesToWords (nElems * szBOfElt) = k := by
    unfold bytesToWords
    rw [hk, Nat.shiftRight_eq_div_pow]
    omega
  have hbytes : wordSzB + nElems * szBOfElt = wordSzB * (k + 1) := by
    unfold wordSzB
    omega
  obtain ⟨hgood, hkeep, -⟩ := h.ensureGlobalSpace nElems
  have hfit' : wordSzB * (k + 1) < heapChunkSzB := by rwa [hwords] at hfit
  have hroom' : (Heap.ensureGlobalSpace os s nElems).vp.globNextW + wordSzB * (k + 1) ≤
      (Heap.ensureGlobalSpace os s nElems).vp.globLimit := by
    unfold Heap.ensureGlobalSpace
    split
    · exact h.room_alloc hfit'
    · rw [← hbytes]
      omega
  have hplace := hgood.place (.raw (lt_of_fits hfit')) (show ([] : List Word).length ≤ k from Nat.zero_le k) hroom'
  unfold Heap.globalAllocRawArray
  simp only [hwords, hbytes]
  exact hplace.after hkeep fun _ => inUsed_ensure

/-! ## Vectors -/

/-- The loop over a list stores only in the places of its elements. -/
theorem fillVector_mem {obj : Nat} (fuel : Nat) (mem : Mem) (i : Nat) (values : Word) {y : Nat}
    (hy : y < obj + wordSzB * i ∨ obj + wordSzB * (i + fuel) ≤ y) :
    (fillVector obj fuel mem i values).1 y = mem y := by
  unfold wordSzB at hy
  induction fuel generalizing mem i values with
  | zero =>
    unfold fillVector
    split <;> rfl
  | succ fuel ih =>
    unfold fillVector
    split
    · rfl
    grind [storeWord_of_not_mem, wordSzB]

/-- An object of the nursery changes no chunk. -/
theorem Good.allocNonUniform (h : Good os table s) {fields : List (Bool × Word)}
    (hroom : s.vp.allocPtr + wordSzB * fields.length ≤ s.vp.heapBase + vpHeapSzB) {r : Heap × Nat}
    (hr : s.allocNonUniform fields = some r) :
    Good os table r.1 ∧ Keeps table s r.1 ∧ ∀ x, s.InUsed x → r.1.InUsed x := by
  unfold Heap.allocNonUniform at hr
  cases hid : predefinedID fields.length (fieldBits fields) with
  | none => simp [hid] at hr
  | some id =>
    simp only [hid, Option.bind_eq_bind, Option.bind_some, Option.pure_def, Option.some.injEq] at hr
    subst hr
    have hlocal := h.alloc_local
    unfold wordSzB at *
    have hunused : ∀ y, s.InUsed y →
        (s.initObj s.vp.allocPtr (mixedHdr id fields.length) (fields.map Prod.snd)).mem y = s.mem y := by
      intro y hy
      have hnot := h.not_local hy
      unfold InLocal at hnot
      show storeWords (storeWord s.mem (s.vp.allocPtr - 8) _) s.vp.allocPtr _ y = _
      rw [storeWords_of_not_mem _ (by rw [List.length_map]; omega), storeWord_of_not_mem _ (by omega)]
    obtain ⟨hgood, hkeep⟩ := h.write_unused hunused
    obtain ⟨hbase, hle, hlimit, haligned⟩ := hgood.next
    exact ⟨{ hgood with next := ⟨hbase, hle, hlimit, haligned⟩, alloc_local := Nat.le_add_right_of_le hlocal }, hkeep,
      fun _ hx => hx⟩

theorem Good.globalAllocVector (h : Good os table s) {len : Nat} {values : Word}
    (hfit : wordSzB * (len + 1) < heapChunkSzB)
    (hnursery : s.vp.allocPtr + wordSzB * 2 ≤ s.vp.heapBase + vpHeapSzB) {r : Heap × Nat × Nat}
    (hr : Heap.globalAllocVector os s len values = some r) : Placed os table s r.1 r.2.1 len := by
  obtain ⟨hgood, hkeep, -⟩ := h.ensureGlobalSpace len
  have hroom := h.room_ensure hfit
  have hlocal : (Heap.ensureGlobalSpace os s len).vp.allocPtr = s.vp.allocPtr ∧
      (Heap.ensureGlobalSpace os s len).vp.heapBase = s.vp.heapBase := by
    unfold Heap.ensureGlobalSpace
    split <;> exact ⟨rfl, rfl⟩
  have hunused : ∀ x, s.InUsed x → (Heap.ensureGlobalSpace os s len).InUsed x := fun _ => inUsed_ensure
  unfold Heap.globalAllocVector at hr
  generalize Heap.ensureGlobalSpace os s len = s₁ at *
  obtain ⟨hlocal, hheapBase⟩ := hlocal
  simp only [Option.bind_eq_bind] at hr
  split_ifs at hr with hlen
  rw [Option.bind_eq_some_iff] at hr
  obtain ⟨⟨s₂, v⟩, hwrap, hr⟩ := hr
  simp only [Option.pure_def, Option.some.injEq] at hr
  subst hr
  have hbase := hgood.next.base_le
  have hplace := hgood.place_mem
    (fillVector s₁.vp.globNextW len (s₁.initObj s₁.vp.globNextW (vecHdr len) []).mem 0 values).1 (n := len)
    (by
      rw [loadWord_congr fun y _ hy => fillVector_mem _ _ _ _ (by unfold wordSzB at *; omega)]
      show HdrOk table (loadWord (storeWord s₁.mem (s₁.vp.globNextW - wordSzB) (vecHdr len)) _) len
      rw [loadWord_storeWord]
      exact .vec (lt_of_fits hfit))
    (by
      intro y hy _
      unfold wordSzB at hy
      rw [fillVector_mem _ _ _ _ (by unfold wordSzB; omega)]
      exact storeWord_of_not_mem _ (by unfold wordSzB; omega))
    hroom
  obtain ⟨hgood', hkeep', hused'⟩ := hplace.good.allocNonUniform
    (by
      show s₁.vp.allocPtr + wordSzB * 2 ≤ s₁.vp.heapBase + vpHeapSzB
      rw [hlocal, hheapBase]
      exact hnursery) hwrap
  exact ⟨hgood', (hkeep.trans hplace.keeps).trans hkeep', hkeep' _ _ hplace.held, fun hx => hplace.fresh (hunused _ hx),
    hplace.le⟩

end Manticore.ParallelRt.Heap
