/-
  Manticore.ParallelRt.HeapInv — the to-space chunks of a vproc hold sequences of objects.

  - `Good`: every chunk is used by a sequence of objects, the chunks, those still to come and the local heap are
    apart, and the next object goes behind those of the allocation chunk.
  - `Held`: an object of the used part of a chunk; `Good.held_apart`: two of them do not overlap.
  - `Good.write`, `Good.bump`, `Good.allocToSpaceChunk`, `Good.push`: what keeps this so, and keeps every object.
-/

import Manticore.ParallelRt.Objects

namespace Manticore.ParallelRt

open ByteMemory
open List (mem_cons pairwise_cons mem_append Perm)

/-- The address is in the local heap at `heapBase`. -/
def InLocal (heapBase x : Nat) : Prop := heapBase ≤ x ∧ x < heapBase + vpHeapSzB

namespace MemChunk

structure Shape (heapBase : Nat) (c : MemChunk) : Prop where
  szB : c.szB = heapChunkSzB
  aligned : c.baseAddr % 8 = 0
  local_apart : c.baseAddr + heapChunkSzB ≤ heapBase ∨ heapBase + vpHeapSzB ≤ c.baseAddr

def Apart (c d : MemChunk) : Prop :=
  c.baseAddr + heapChunkSzB ≤ d.baseAddr ∨ d.baseAddr + heapChunkSzB ≤ c.baseAddr

theorem Apart.symm {c d : MemChunk} (h : Apart c d) : Apart d c := Or.symm h

instance : Std.Symm Apart := ⟨fun _ _ => Apart.symm⟩

end MemChunk

/-- The next object goes behind those of the allocation chunk. -/
structure VProc.NextOk (vp : VProc) : Prop where
  base_le : vp.globAllocChunk.baseAddr + 8 ≤ vp.globNextW
  le_limit : vp.globNextW ≤ vp.globLimit
  limit : vp.globLimit = vp.globAllocChunk.baseAddr + heapChunkSzB
  aligned : vp.globNextW % 8 = 0

namespace Heap

variable (os : Nat → Nat) (table : Nat → List Bool) (s : Heap)

/-- The allocation chunk, used up to the header of the next object. -/
def allocChunk : MemChunk := { s.vp.globAllocChunk with usedTop := s.vp.globNextW - wordSzB }

def toSpace : List MemChunk := s.allocChunk :: (s.filled ++ s.unscannedTo)

/-- The chunk that is taken after `n` others. -/
def nextChunk (n : Nat) : MemChunk :=
  s.freeChunks.getD n ⟨os (s.mapped + (n - s.freeChunks.length)), heapChunkSzB, 0⟩

/-- The address is in the used part of a chunk. -/
def InUsed (x : Nat) : Prop := ∃ c ∈ s.toSpace, c.baseAddr ≤ x ∧ x < c.usedTop

/-- An object of `n` words with its header at `x` in the used part of a chunk. -/
def Held (x n : Nat) : Prop :=
  ∃ c ∈ s.toSpace, ∃ hs, Objects table s.mem c.baseAddr hs c.usedTop ∧ x ∈ hs ∧ HdrOk table (loadWord s.mem x) n

structure Good : Prop where
  next : s.vp.NextOk
  shape : ∀ c ∈ s.toSpace, c.Shape s.vp.heapBase
  next_shape : ∀ n, (s.nextChunk os n).Shape s.vp.heapBase
  apart : s.toSpace.Pairwise MemChunk.Apart
  next_apart : ∀ c ∈ s.toSpace, ∀ n, c.Apart (s.nextChunk os n)
  nexts_apart : ∀ m n, m ≠ n → (s.nextChunk os m).Apart (s.nextChunk os n)
  objects : ∀ c ∈ s.toSpace, c.usedTop ≤ c.baseAddr + heapChunkSzB ∧
    ∃ hs, Objects table s.mem c.baseAddr hs c.usedTop
  alloc_local : s.vp.heapBase + 8 ≤ s.vp.allocPtr

/-- Every object of `s` is one of `s'`. -/
def Keeps (s s' : Heap) : Prop := ∀ x n, s.Held table x n → s'.Held table x n

variable {os table s} {s' s'' : Heap}

theorem Keeps.refl : Keeps table s s := fun _ _ h => h

theorem Keeps.trans (h : Keeps table s s') (h' : Keeps table s' s'') : Keeps table s s'' :=
  fun x n hx => h' x n (h x n hx)

/-! ## Objects -/

theorem Held.bounds {x n : Nat} (h : s.Held table x n) :
    ∃ c ∈ s.toSpace, c.baseAddr ≤ x ∧ x + 8 * (n + 1) ≤ c.usedTop := by
  obtain ⟨c, hc, hs, hobj, hx, hhdr⟩ := h
  obtain ⟨k, hk, hle, hb⟩ := hobj.mem_bounds hx
  obtain rfl := hk.unique hhdr
  exact ⟨c, hc, hle, hb⟩

theorem Held.inUsed {x n y : Nat} (h : s.Held table x n) (hxy : x ≤ y) (hy : y < x + 8 * (n + 1)) : s.InUsed y := by
  obtain ⟨c, hc, hle, hb⟩ := h.bounds
  exact ⟨c, hc, by omega, by omega⟩

theorem Good.not_local (h : Good os table s) {x : Nat} (hx : s.InUsed x) : ¬ InLocal s.vp.heapBase x := by
  obtain ⟨c, hc, hle, hlt⟩ := hx
  have hloc := (h.shape c hc).local_apart
  have htop := (h.objects c hc).1
  unfold InLocal
  omega

theorem allocChunk_mem : s.allocChunk ∈ s.toSpace := List.mem_cons_self

/-- The place of the next object is not used. -/
theorem Good.next_not_used (h : Good os table s) {x : Nat} (hx : s.vp.globNextW - 8 ≤ x) (hx' : x < s.vp.globLimit) :
    ¬ s.InUsed x := by
  rintro ⟨c, hc, hle, hlt⟩
  have hbase := h.next.base_le
  have hlim := h.next.limit
  rcases mem_cons.mp hc with rfl | hc'
  · unfold allocChunk wordSzB at hlt
    simp only at hlt
    omega
  · have hap := (pairwise_cons.mp h.apart).1 c hc'
    have htop := (h.objects c hc).1
    unfold MemChunk.Apart allocChunk at hap
    simp only at hap
    omega

/-- Two objects do not overlap. -/
theorem Good.held_apart (h : Good os table s) {x y n k : Nat} (hx : s.Held table x n) (hy : s.Held table y k)
    (hxy : x ≠ y) : x + 8 * (n + 1) ≤ y ∨ y + 8 * (k + 1) ≤ x := by
  obtain ⟨c, hc, hs, hobj, hmem, hhdr⟩ := hx
  obtain ⟨d, hd, gs, hobj', hmem', hhdr'⟩ := hy
  by_cases hcd : c = d
  · subst hcd
    obtain rfl := hobj.unique hobj'
    exact hobj.apart hmem hmem' hxy hhdr hhdr'
  · have hap : c.Apart d := h.apart.forall hc hd hcd
    obtain ⟨n', hn', hle, hb⟩ := hobj.mem_bounds hmem
    obtain ⟨k', hk', hle', hb'⟩ := hobj'.mem_bounds hmem'
    obtain rfl := hn'.unique hhdr
    obtain rfl := hk'.unique hhdr'
    have htop := (h.objects c hc).1
    have htop' := (h.objects d hd).1
    unfold MemChunk.Apart at hap
    omega

/-! ## Memory -/

/-- A memory in which every object has its header. -/
theorem Good.write (h : Good os table s) {mem : Mem}
    (hm : ∀ x n, s.Held table x n → loadWord mem x = loadWord s.mem x) :
    Good os table { s with mem } ∧ Keeps table s { s with mem } := by
  have hcongr : ∀ c ∈ s.toSpace, ∀ hs, Objects table s.mem c.baseAddr hs c.usedTop →
      Objects table mem c.baseAddr hs c.usedTop := by
    intro c hc hs hobj
    apply hobj.congr
    intro x hx
    obtain ⟨n, hn, -, -⟩ := hobj.mem_bounds hx
    exact hm x n ⟨c, hc, hs, hobj, hx, hn⟩
  constructor
  · exact { h with
      objects := fun c hc => by
        obtain ⟨htop, hs, hobj⟩ := h.objects c hc
        exact ⟨htop, hs, hcongr c hc hs hobj⟩ }
  · intro x n hx
    have hhdr := hm x n hx
    obtain ⟨c, hc, hs, hobj, hmem, hok⟩ := hx
    exact ⟨c, hc, hs, hcongr c hc hs hobj, hmem, by rwa [hhdr]⟩

/-- A memory that is the same where chunks are used. -/
theorem Good.write_unused (h : Good os table s) {mem : Mem} (hm : ∀ y, s.InUsed y → mem y = s.mem y) :
    Good os table { s with mem } ∧ Keeps table s { s with mem } := by
  apply h.write
  intro x n hx
  apply loadWord_congr
  intro y hxy hy
  exact hm y (hx.inUsed hxy (by omega))

/-- The next object becomes an object of the allocation chunk when its header is there. -/
theorem Good.bump (h : Good os table s) {n : Nat} (hhdr : HdrOk table (loadWord s.mem (s.vp.globNextW - 8)) n)
    (hroom : s.vp.globNextW + 8 * (n + 1) ≤ s.vp.globLimit) :
    Good os table (s.bumpGlobNextW (8 * (n + 1))) ∧ Keeps table s (s.bumpGlobNextW (8 * (n + 1))) ∧
      (s.bumpGlobNextW (8 * (n + 1))).Held table (s.vp.globNextW - 8) n := by
  obtain ⟨hbase, hle, hlimit, halign⟩ := h.next
  have hnew : ∀ hs, Objects table s.mem s.allocChunk.baseAddr hs s.allocChunk.usedTop →
      Objects table s.mem s.allocChunk.baseAddr (hs ++ [s.vp.globNextW - 8])
        (s.bumpGlobNextW (8 * (n + 1))).allocChunk.usedTop := by
    intro hs hobj
    have hone := Objects.one hhdr
    rw [show s.vp.globNextW - 8 + 8 * (n + 1) = (s.bumpGlobNextW (8 * (n + 1))).allocChunk.usedTop by
      simp only [bumpGlobNextW, allocChunk, wordSzB]
      omega] at hone
    exact hobj.append hone
  obtain ⟨hs₀, hobj₀⟩ := (h.objects _ allocChunk_mem).2
  have hmem : ∀ c ∈ (s.bumpGlobNextW (8 * (n + 1))).toSpace,
      c = (s.bumpGlobNextW (8 * (n + 1))).allocChunk ∨ c ∈ s.toSpace := fun c hc => by
    rcases mem_cons.mp hc with rfl | hc
    · exact .inl rfl
    · exact .inr (List.mem_cons_of_mem _ hc)
  refine ⟨{ h with next := ?_, shape := ?_, apart := ?_, next_apart := ?_, objects := ?_ }, ?_, ?_⟩
  · exact ⟨by simp only [bumpGlobNextW]; omega, hroom, hlimit, by simp only [bumpGlobNextW]; omega⟩
  · intro c hc
    rcases hmem c hc with rfl | hc
    · exact { h.shape _ allocChunk_mem with }
    · exact h.shape c hc
  · have hold := pairwise_cons.mp h.apart
    exact pairwise_cons.mpr ⟨hold.1, hold.2⟩
  · intro c hc k
    rcases hmem c hc with rfl | hc
    · exact h.next_apart _ allocChunk_mem k
    · exact h.next_apart c hc k
  · intro c hc
    rcases hmem c hc with rfl | hc
    · grind [bumpGlobNextW, allocChunk]
    · exact h.objects c hc
  · rintro x k ⟨c, hc, hs, hobj, hx, hok⟩
    rcases mem_cons.mp hc with rfl | hc
    · exact ⟨_, allocChunk_mem, _, hnew hs hobj, List.mem_append_left _ hx, hok⟩
    · exact ⟨c, List.mem_cons_of_mem _ hc, hs, hobj, hx, hok⟩
  · exact ⟨_, allocChunk_mem, _, hnew _ hobj₀, List.mem_append_right _ List.mem_cons_self, hhdr⟩

/-! ## Chunks -/

theorem takeChunk_base : (takeChunk os s).1.baseAddr = (s.nextChunk os 0).baseAddr := by
  unfold takeChunk nextChunk
  cases s.freeChunks <;> rfl

theorem takeChunk_szB : (takeChunk os s).1.szB = (s.nextChunk os 0).szB := by
  unfold takeChunk nextChunk
  cases s.freeChunks <;> rfl

theorem nextChunk_takeChunk (n : Nat) : (takeChunk os s).2.nextChunk os n = s.nextChunk os (n + 1) := by
  grind [takeChunk, nextChunk]

theorem takeChunk_mem : (takeChunk os s).2.mem = s.mem := by
  unfold takeChunk
  cases s.freeChunks <;> rfl

theorem takeChunk_unscannedTo : (takeChunk os s).2.unscannedTo = s.unscannedTo := by
  unfold takeChunk
  cases s.freeChunks <;> rfl

/-- What a new allocation chunk changes. -/
theorem allocToSpaceChunk_toSpace : (allocToSpaceChunk os s).toSpace =
    (allocToSpaceChunk os s).allocChunk :: (s.filled ++ [s.allocChunk] ++ s.unscannedTo) := by
  unfold toSpace
  rw [show (allocToSpaceChunk os s).unscannedTo = s.unscannedTo from takeChunk_unscannedTo]
  rfl

theorem allocToSpaceChunk_mem : (allocToSpaceChunk os s).mem = s.mem := takeChunk_mem

theorem mem_toSpace_alloc {c : MemChunk} : c ∈ (allocToSpaceChunk os s).toSpace ↔
    c = (allocToSpaceChunk os s).allocChunk ∨ c ∈ s.toSpace := by
  rw [allocToSpaceChunk_toSpace, mem_cons]
  unfold toSpace
  simp only [mem_append, mem_cons, List.not_mem_nil, or_false]
  tauto

theorem Good.allocToSpaceChunk (h : Good os table s) :
    Good os table (allocToSpaceChunk os s) ∧ Keeps table s (allocToSpaceChunk os s) := by
  have hbase : (Heap.allocToSpaceChunk os s).allocChunk.baseAddr = (s.nextChunk os 0).baseAddr := takeChunk_base
  have hszB : (takeChunk os s).1.szB = heapChunkSzB := takeChunk_szB.trans (h.next_shape 0).szB
  have htop : (Heap.allocToSpaceChunk os s).allocChunk.usedTop = (Heap.allocToSpaceChunk os s).allocChunk.baseAddr := by
    show (takeChunk os s).1.baseAddr + wordSzB - wordSzB = _
    exact Nat.add_sub_cancel ..
  have hnext : ∀ n, (Heap.allocToSpaceChunk os s).nextChunk os n = s.nextChunk os (n + 1) := nextChunk_takeChunk
  have haligned := (h.next_shape 0).aligned
  have hbig : 8 ≤ heapChunkSzB := by decide
  refine ⟨⟨⟨Nat.le_refl _, ?_, ?_, ?_⟩, ?_, ?_, ?_, ?_, ?_, ?_, h.alloc_local⟩, ?_⟩
  · show (takeChunk os s).1.baseAddr + 8 ≤ (takeChunk os s).1.baseAddr + (takeChunk os s).1.szB
    omega
  · show (takeChunk os s).1.baseAddr + (takeChunk os s).1.szB = (takeChunk os s).1.baseAddr + heapChunkSzB
    rw [hszB]
  · show ((takeChunk os s).1.baseAddr + 8) % 8 = 0
    rw [takeChunk_base]
    omega
  · intro c hc
    rcases mem_toSpace_alloc.mp hc with rfl | hc
    · exact ⟨hszB, by rw [hbase]; exact haligned, by rw [hbase]; exact (h.next_shape 0).local_apart⟩
    · exact h.shape c hc
  · intro n
    rw [hnext]
    exact h.next_shape (n + 1)
  · rw [allocToSpaceChunk_toSpace]
    refine pairwise_cons.mpr ⟨fun c hc => ?_, ?_⟩
    · have hap := h.next_apart c (by unfold toSpace; simp at hc ⊢; tauto) 0
      unfold MemChunk.Apart at hap ⊢
      rw [hbase]
      omega
    · refine (Perm.pairwise_iff (fun hr => hr.symm) ?_).mp h.apart
      unfold toSpace
      rw [List.append_assoc, List.singleton_append]
      exact List.perm_middle.symm
  · intro c hc n
    rw [hnext]
    rcases mem_toSpace_alloc.mp hc with rfl | hc
    · have hap := h.nexts_apart 0 (n + 1) (by omega)
      unfold MemChunk.Apart at hap ⊢
      rw [hbase]
      exact hap
    · exact h.next_apart c hc (n + 1)
  · intro m n hmn
    rw [hnext, hnext]
    exact h.nexts_apart (m + 1) (n + 1) (by omega)
  · intro c hc
    rw [allocToSpaceChunk_mem]
    rcases mem_toSpace_alloc.mp hc with rfl | hc
    · rw [htop]
      exact ⟨by omega, [], .nil _⟩
    · exact h.objects c hc
  · rintro x n ⟨c, hc, hs, hobj, hx, hok⟩
    refine ⟨c, mem_toSpace_alloc.mpr (.inr hc), hs, ?_, hx, ?_⟩ <;> rw [allocToSpaceChunk_mem] <;> assumption

theorem mem_toSpace_push {k : Nat} {c : MemChunk} : c ∈ (s.pushToSpaceChunks k).toSpace ↔ c ∈ s.toSpace := by
  have hsplit : c ∈ s.filled ↔ c ∈ s.filled.take k ∨ c ∈ s.filled.drop k := by
    rw [← mem_append, List.take_append_drop]
  unfold toSpace
  simp only [pushToSpaceChunks, mem_cons, mem_append, List.mem_reverse, hsplit]
  tauto

theorem Good.push (h : Good os table s) (k : Nat) :
    Good os table (s.pushToSpaceChunks k) ∧ Keeps table s (s.pushToSpaceChunks k) := by
  constructor
  · refine { h with shape := ?_, apart := ?_, next_apart := ?_, objects := ?_ }
    · exact fun c hc => h.shape c (mem_toSpace_push.mp hc)
    · refine (Perm.pairwise_iff (fun hr => hr.symm) ?_).mp h.apart
      unfold toSpace
      refine Perm.cons _ ?_
      show (s.filled ++ s.unscannedTo).Perm (s.filled.take k ++ ((s.filled.drop k).reverse ++ s.unscannedTo))
      rw [← List.append_assoc]
      refine Perm.append_right _ ?_
      calc s.filled = s.filled.take k ++ s.filled.drop k := (List.take_append_drop ..).symm
        Perm _ (s.filled.take k ++ (s.filled.drop k).reverse) :=
          Perm.append_left _ (List.reverse_perm _).symm
    · exact fun c hc => h.next_apart c (mem_toSpace_push.mp hc)
    · exact fun c hc => h.objects c (mem_toSpace_push.mp hc)
  · rintro x n ⟨c, hc, hrest⟩
    exact ⟨c, mem_toSpace_push.mpr hc, hrest⟩

end Heap

end Manticore.ParallelRt
