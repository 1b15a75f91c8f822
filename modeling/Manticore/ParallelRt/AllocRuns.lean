/-
  Manticore.ParallelRt.AllocRuns — runs of allocations in the global heap by a vproc.

  A run interleaves the allocators with promotions, and with what the program does in between: it may store in fields
  and change its local heap, but leaves the headers of the objects of the global heap alone.
  - `alloc_sound`: from a good heap, when every `GlobalAllocNonUniform` fits the chunk in use, and every
    `GlobalAllocRawArray` has whole words that fit it or a new chunk, every object returned is an object of the used
    part of its chunk, no two overlap, and the chunks stay sequences of objects.
  - `not_sound`: a `GlobalAllocNonUniform` that takes a new chunk returns a place behind the used part of the old
    one; a `GlobalAllocRawArray` of four bytes leaves `globNextW` unaligned.
-/

import Manticore.ParallelRt.PromoteProofs

namespace Manticore.ParallelRt

open ByteMemory

/-- What a vproc does. -/
inductive Op where
  | globalAllocUniform (elems : List Word)
  | globalAllocNonUniform (fields : List (Bool × Word))
  | globalAllocVector (len : Nat) (values : Word)
  | globalAllocPolyArray (nElems : Nat) (init : Word)
  | globalAllocRawArray (nElems szBOfElt : Nat)
  | promoteObj (fuel : Nat) (root : Word)
  | mutate (mem : Mem) (allocPtr : Nat)

namespace Op

variable (os : Nat → Nat) (table : Nat → List Bool) (s : Heap)

/-- The heap afterwards, and the object of the global heap that was allocated with its length in words; nothing when
    the program stops. -/
def run : Op → Option (Heap × List (Nat × Nat))
  | globalAllocUniform elems =>
    let (s', obj) := s.globalAllocUniform os elems
    some (s', [(obj, elems.length)])
  | globalAllocNonUniform fields => (s.globalAllocNonUniform os fields).map fun r => (r.1, [(r.2, fields.length)])
  | globalAllocVector len values => (s.globalAllocVector os len values).map fun r => (r.1, [(r.2.1, len)])
  | globalAllocPolyArray nElems init =>
    let (s', obj) := s.globalAllocPolyArray os nElems init
    some (s', [(obj, nElems)])
  | globalAllocRawArray nElems szBOfElt =>
    let (s', obj) := s.globalAllocRawArray os nElems szBOfElt
    some (s', [(obj, Heap.bytesToWords (nElems * szBOfElt))])
  | promoteObj fuel root => (s.promoteObj os table fuel root).map fun r => (r.1, [])
  | mutate mem allocPtr => some ({ s with mem, vp := { s.vp with allocPtr } }, [])

/-- An object fits a chunk, an object of the nursery its slop; a promotion starts in a local heap; the program keeps
    the headers of objects. -/
def Fits : Op → Prop
  | globalAllocUniform elems => wordSzB * (elems.length + 1) < heapChunkSzB
  | globalAllocNonUniform _ => True
  | globalAllocVector len _ =>
    wordSzB * (len + 1) < heapChunkSzB ∧ s.vp.allocPtr + wordSzB * 2 ≤ s.vp.heapBase + vpHeapSzB
  | globalAllocPolyArray nElems _ => wordSzB * (nElems + 1) < heapChunkSzB
  | globalAllocRawArray nElems szBOfElt =>
    wordSzB * (Heap.bytesToWords (nElems * szBOfElt) + 1) < heapChunkSzB
  | promoteObj _ root => ∃ obj size, LocalHeap table s.vp.heapBase obj size s.mem ∧
      (isPtr root = true → inVPHeap s.vp.heapBase root = true → obj root.toNat)
  | mutate mem allocPtr => (∀ x n, s.Held table x n → loadWord mem x = loadWord s.mem x) ∧ s.vp.heapBase + 8 ≤ allocPtr

/-- `GlobalAllocNonUniform` needs no new chunk; the bytes of `GlobalAllocRawArray` are whole words, and fit the chunk
    in use when no new one is taken. -/
def Safe : Op → Prop
  | globalAllocNonUniform fields => s.vp.globNextW + wordSzB * (fields.length + 1) < s.vp.globLimit
  | globalAllocRawArray nElems szBOfElt => 8 ∣ nElems * szBOfElt ∧
      (s.vp.globNextW + wordSzB * (nElems + 1) < s.vp.globLimit →
        s.vp.globNextW + wordSzB + nElems * szBOfElt ≤ s.vp.globLimit)
  | _ => True

end Op

/-- The objects `p` of `n` and `q` of `k` words have no byte in common, headers included. -/
def NoOverlap (o o' : Nat × Nat) : Prop := o.1 + 8 * o.2 + 8 ≤ o'.1 ∨ o'.1 + 8 * o'.2 + 8 ≤ o.1

/-- The chunks are sequences of objects, and those of `returned` are objects that do not overlap. -/
structure Sound (table : Nat → List Bool) (s : Heap) (returned : List (Nat × Nat)) : Prop where
  aligned : s.vp.globNextW % 8 = 0
  le_limit : s.vp.globNextW ≤ s.vp.globLimit
  objects : ∀ c ∈ s.toSpace, c.usedTop ≤ c.baseAddr + c.szB ∧ ∃ hs, Objects table s.mem c.baseAddr hs c.usedTop
  held : ∀ o ∈ returned, ∃ c ∈ s.toSpace, c.baseAddr + 8 ≤ o.1 ∧ o.1 + 8 * o.2 ≤ c.usedTop ∧
    ∃ hs, Objects table s.mem c.baseAddr hs c.usedTop ∧ o.1 - 8 ∈ hs ∧
      getLength (loadWord s.mem (o.1 - 8)) = o.2
  apart : returned.Pairwise NoOverlap

/-- A run from `s₀`, whose operations meet `cond`, and what it returned. -/
inductive Run (os : Nat → Nat) (table : Nat → List Bool) (cond : Heap → Op → Prop) (s₀ : Heap) :
    Heap → List (Nat × Nat) → Prop
  | start : Run os table cond s₀ s₀ []
  | step {s s' : Heap} {returned objs : List (Nat × Nat)} (op : Op) : Run os table cond s₀ s returned →
      op.Fits table s → cond s op → op.run os table s = some (s', objs) → Run os table cond s₀ s' (returned ++ objs)

variable {os : Nat → Nat} {table : Nat → List Bool} {s s' s₀ : Heap}

/-! ## One operation -/

/-- What one operation returns was not used before, and is used afterwards. -/
structure Stepped (os : Nat → Nat) (table : Nat → List Bool) (s s' : Heap) (objs : List (Nat × Nat)) : Prop where
  good : Heap.Good os table s'
  keeps : Heap.Keeps table s s'
  held : ∀ o ∈ objs, s'.Held table (o.1 - 8) o.2
  fresh : ∀ o ∈ objs, ¬ s.InUsed (o.1 - 8)
  le : ∀ o ∈ objs, 8 ≤ o.1
  one : objs.length ≤ 1

theorem Stepped.of_placed {obj n : Nat} (h : Heap.Placed os table s s' obj n) : Stepped os table s s' [(obj, n)] where
  good := h.good
  keeps := h.keeps
  held o ho := by
    rw [List.mem_singleton.mp ho]
    exact h.held
  fresh o ho := by
    rw [List.mem_singleton.mp ho]
    exact h.fresh
  le o ho := by
    rw [List.mem_singleton.mp ho]
    exact h.le
  one := Nat.le_refl _

theorem Stepped.of_good (h : Heap.Good os table s') (hk : Heap.Keeps table s s') : Stepped os table s s' [] :=
  ⟨h, hk, List.forall_mem_nil _, List.forall_mem_nil _, List.forall_mem_nil _, Nat.zero_le _⟩

theorem Op.stepped (htbl : Heap.PredefinedTable table) (h : Heap.Good os table s) {op : Op}
    {objs : List (Nat × Nat)} (hfit : op.Fits table s) (hsafe : op.Safe s) (hr : op.run os table s = some (s', objs)) :
    Stepped os table s s' objs := by
  cases op with
  | globalAllocUniform elems =>
    cases hr
    exact .of_placed (h.globalAllocUniform hfit)
  | globalAllocNonUniform fields =>
    obtain ⟨r, halloc, heq⟩ := Option.map_eq_some_iff.mp hr
    cases heq
    exact .of_placed (h.globalAllocNonUniform htbl hsafe halloc)
  | globalAllocVector len values =>
    obtain ⟨r, halloc, heq⟩ := Option.map_eq_some_iff.mp hr
    cases heq
    exact .of_placed (h.globalAllocVector hfit.1 hfit.2 halloc)
  | globalAllocPolyArray nElems init =>
    cases hr
    exact .of_placed (h.globalAllocPolyArray hfit)
  | globalAllocRawArray nElems szBOfElt =>
    cases hr
    exact .of_placed (h.globalAllocRawArray hsafe.1 hfit hsafe.2)
  | promoteObj fuel root =>
    obtain ⟨obj, size, hlocal, hroot⟩ := hfit
    obtain ⟨r, halloc, heq⟩ := Option.map_eq_some_iff.mp hr
    cases heq
    obtain ⟨hgood, hkeep⟩ := h.promoteObj hlocal hroot halloc
    exact .of_good hgood hkeep
  | mutate mem allocPtr =>
    cases hr
    obtain ⟨hgood, hkeep⟩ := h.write hfit.1
    obtain ⟨hbase, hle, hlimit, haligned⟩ := hgood.next
    exact .of_good { hgood with next := ⟨hbase, hle, hlimit, haligned⟩, alloc_local := hfit.2 } hkeep

/-! ## Runs -/

/-- What a run has returned is in the used parts of the chunks, each at its own place. -/
structure RunOk (os : Nat → Nat) (table : Nat → List Bool) (s : Heap) (returned : List (Nat × Nat)) : Prop where
  good : Heap.Good os table s
  held : ∀ o ∈ returned, s.Held table (o.1 - 8) o.2
  le : ∀ o ∈ returned, 8 ≤ o.1
  apart : returned.Pairwise fun o o' => o.1 - 8 ≠ o'.1 - 8

theorem RunOk.step {returned objs : List (Nat × Nat)} (h : RunOk os table s returned)
    (hs : Stepped os table s s' objs) : RunOk os table s' (returned ++ objs) where
  good := hs.good
  held o ho := by
    rcases List.mem_append.mp ho with ho | ho
    · exact hs.keeps _ _ (h.held o ho)
    · exact hs.held o ho
  le o ho := (List.mem_append.mp ho).elim (h.le o) (hs.le o)
  apart := by
    refine List.pairwise_append.mpr ⟨h.apart, ?_, fun o ho o' ho' heq => ?_⟩
    · have hone := hs.one
      rcases objs with _ | ⟨o, _ | ⟨o', objs⟩⟩
      · exact .nil
      · exact List.pairwise_singleton _ _
      · simp at hone
    · refine hs.fresh o' ho' ?_
      rw [← heq]
      exact (h.held o ho).inUsed (Nat.le_refl _) (by omega)

theorem RunOk.sound {returned : List (Nat × Nat)} (h : RunOk os table s returned) : Sound table s returned := by
  refine ⟨h.good.next.aligned, h.good.next.le_limit, fun c hc => ?_, fun o ho => ?_, ?_⟩
  · rw [(h.good.shape c hc).szB]
    exact h.good.objects c hc
  · have h8 := h.le o ho
    obtain ⟨c, hc, hs, hobj, hx, hok⟩ := h.held o ho
    obtain ⟨n, hn, hle, hb⟩ := hobj.mem_bounds hx
    obtain rfl := hn.unique hok
    exact ⟨c, hc, by omega, by omega, hs, hobj, hx, hok.length⟩
  · refine h.apart.imp_of_mem fun {o o'} ho ho' hne => ?_
    have h8 := h.le o ho
    have h8' := h.le o' ho'
    have hap := h.good.held_apart (h.held o ho) (h.held o' ho') hne
    unfold NoOverlap
    omega

theorem Run.ok (htbl : Heap.PredefinedTable table) (h₀ : Heap.Good os table s₀) {returned : List (Nat × Nat)}
    (h : Run os table (fun s op => op.Safe s) s₀ s returned) : RunOk os table s returned := by
  induction h with
  | start => exact ⟨h₀, List.forall_mem_nil _, List.forall_mem_nil _, .nil⟩
  | step op _ hfit hsafe hr ih => exact ih.step (op.stepped htbl ih.good hfit hsafe hr)

/-! ## A vproc with one chunk -/

/-- The masks of the entries of `PredefinedTable`. -/
def smallTable (id : Nat) : List Bool :=
  ([[], [], [], [false], [true, false], [true], [false, true, false, true, true], [false, false, true]] :
    List (List Bool)).getD id []

theorem predefinedTable_smallTable : Heap.PredefinedTable smallTable := by
  intro nElems bits id h
  unfold Heap.predefinedID Heap.predefined at h
  split_ifs at h with h1 h2 h3 h4 h5
  · cases h
    rw [h1.1]
    rfl
  · cases h
    rw [h2.1]
    rfl
  · cases h
    rw [h3.1]
    rfl
  · cases h
    rw [h4.1]
    rfl
  · cases h
    rw [h5.1]
    rfl

/-- A vproc with its heap at 0 and a chunk of which `nBytes` are used. -/
def oneChunk (mem : Mem) (nBytes : Nat) : Heap :=
  ⟨mem, ⟨0, 8, heapChunkSzB + 8 + nBytes, heapChunkSzB + heapChunkSzB, ⟨heapChunkSzB, heapChunkSzB, 0⟩⟩, [], [], [], 0⟩

/-- Memory behind that chunk, every second chunk of it. -/
def osAfter (n : Nat) : Nat := (2 * n + 3) * heapChunkSzB

theorem good_oneChunk {mem : Mem} {nBytes : Nat} (h8 : nBytes % 8 = 0) (hle : nBytes + 8 ≤ heapChunkSzB)
    (hobj : ∃ hs, Objects table mem heapChunkSzB hs (heapChunkSzB + nBytes)) :
    Heap.Good osAfter table (oneChunk mem nBytes) := by
  have hone : ∀ c ∈ (oneChunk mem nBytes).toSpace, c = ⟨heapChunkSzB, heapChunkSzB, heapChunkSzB + nBytes⟩ := by
    intro c hc
    rw [List.mem_singleton.mp hc]
    unfold oneChunk Heap.allocChunk wordSzB
    simp only [MemChunk.mk.injEq, true_and]
    omega
  have hnext : ∀ n, ((oneChunk mem nBytes).nextChunk osAfter n).baseAddr = (2 * n + 3) * heapChunkSzB := by
    intro n
    unfold Heap.nextChunk oneChunk osAfter
    simp
  have hszB : ∀ n, ((oneChunk mem nBytes).nextChunk osAfter n).szB = heapChunkSzB := fun _ => rfl
  refine ⟨⟨?_, ?_, rfl, ?_⟩, fun c hc => ?_, fun n => ⟨hszB n, ?_, ?_⟩, List.pairwise_singleton _ _, fun c hc n => ?_,
    fun m n hmn => ?_, fun c hc => ?_, Nat.le_refl _⟩
  · show heapChunkSzB + 8 ≤ heapChunkSzB + 8 + nBytes
    omega
  · show heapChunkSzB + 8 + nBytes ≤ heapChunkSzB + heapChunkSzB
    omega
  · show (heapChunkSzB + 8 + nBytes) % 8 = 0
    unfold heapChunkSzB
    omega
  · rw [hone c hc]
    exact ⟨rfl, show heapChunkSzB % 8 = 0 by decide, .inr (show 0 + vpHeapSzB ≤ heapChunkSzB by decide)⟩
  · rw [hnext]
    unfold heapChunkSzB
    omega
  · rw [hnext]
    right
    show 0 + vpHeapSzB ≤ _
    unfold vpHeapSzB heapChunkSzB
    omega
  · rw [hone c hc]
    left
    rw [hnext]
    show heapChunkSzB + heapChunkSzB ≤ _
    unfold heapChunkSzB
    omega
  · unfold MemChunk.Apart
    rw [hnext, hnext]
    unfold heapChunkSzB
    omega
  · rw [hone c hc]
    exact ⟨show heapChunkSzB + nBytes ≤ heapChunkSzB + heapChunkSzB by omega, hobj⟩

/-- In a run whose operations are safe, every state is sound. -/
theorem alloc_sound (htbl : Heap.PredefinedTable table) (h₀ : Heap.Good os table s₀) {returned : List (Nat × Nat)}
    (h : Run os table (fun s op => op.Safe s) s₀ s returned) : Sound table s returned :=
  (h.ok htbl h₀).sound

theorem alloc_sound_uniform : ∃ s returned, s.vp.globNextW = heapChunkSzB + 8 + 24 ∧
    returned = [(heapChunkSzB + 8, 2)] ∧ Sound smallTable s returned := by
  have h₀ : Heap.Good osAfter smallTable (oneChunk (fun _ => 0) 0) := good_oneChunk rfl (by decide) ⟨[], .nil _⟩
  have hrun : Run osAfter smallTable (fun s op => op.Safe s) (oneChunk (fun _ => 0) 0) _ _ :=
    .step (.globalAllocUniform [3, 5]) .start (show wordSzB * 3 < heapChunkSzB by decide) trivial rfl
  exact ⟨_, _, rfl, rfl, alloc_sound predefinedTable_smallTable h₀ hrun⟩

/-- A `GlobalAllocNonUniform` that takes a new chunk, and a `GlobalAllocRawArray` of four bytes. -/
theorem not_sound :
    (∃ s s' returned, Heap.Good osAfter smallTable s ∧ (Op.globalAllocNonUniform [(false, 3)]).Fits smallTable s ∧
      (Op.globalAllocNonUniform [(false, 3)]).run osAfter smallTable s = some (s', returned) ∧
      ¬ Sound smallTable s' returned) ∧
    ∃ s s' returned, Heap.Good osAfter smallTable s ∧ (Op.globalAllocRawArray 1 4).Fits smallTable s ∧
      (Op.globalAllocRawArray 1 4).run osAfter smallTable s = some (s', returned) ∧ ¬ Sound smallTable s' returned := by
  constructor
  · have hfull : Heap.Good osAfter smallTable
        (oneChunk (storeWord (fun _ => 0) heapChunkSzB (rawHdr 524286)) (8 * (524286 + 1))) :=
      good_oneChunk (by decide) (by decide) ⟨_, .one (by rw [loadWord_storeWord]; exact .raw (by decide))⟩
    refine ⟨_, _, _, hfull, trivial, rfl, fun hsound => ?_⟩
    obtain ⟨c, hc, hle, htop, -⟩ := hsound.held _ (List.mem_singleton_self _)
    change c ∈ [(⟨12582912, 4194304, 12582928⟩ : MemChunk), ⟨4194304, 4194304, 8388600⟩] at hc
    change c.baseAddr + 8 ≤ 8388608 at hle
    change 8388608 + 8 * 1 ≤ c.usedTop at htop
    grind
  · refine ⟨oneChunk (fun _ => 0) 0, _, _, good_oneChunk rfl (by decide) ⟨[], .nil _⟩,
      show wordSzB * 2 < heapChunkSzB by decide, rfl, fun hsound => ?_⟩
    exact absurd hsound.aligned (by decide)

end Manticore.ParallelRt
