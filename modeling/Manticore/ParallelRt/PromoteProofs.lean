/-
  Manticore.ParallelRt.PromoteProofs — a promotion keeps the to-space chunks sequences of objects.

  A local heap is a set of objects that do not overlap, each forwarded or with a header and with scanned words that
  are no local pointers or pointers to its objects (`LocalHeap`). Scanning is at an object of its chunk, and of the
  objects behind it the scanned words are such words (`Pending`).
  - `Scanning.forward`: forwarding an object of the local heap keeps all this and adds an object to the chunks.
  - `Scanning.scanWords`, `Scanning.scanObject`, `Scanning.scanGlobalToSpace`: so do the loops of the scan.
  - `Good.promoteObj`: promotion keeps a good heap and its objects.
-/

import Manticore.ParallelRt.AllocProofs
import Manticore.ParallelRt.Promote

namespace Manticore.ParallelRt

open ByteMemory
open List (getD_eq_default getD_eq_getElem)

theorem copyWords_of_not_mem (n : Nat) (m : Mem) (dst src : Nat) {y : Nat} (hy : y < dst ∨ dst + 8 * n ≤ y) :
    copyWords n m dst src y = m y := by
  induction n generalizing m dst src with
  | zero => rfl
  | succ n ih =>
    unfold copyWords wordSzB
    rw [ih _ _ _ (by omega), storeWord_of_not_mem _ (by omega)]

theorem loadWord_copyWords (n : Nat) (m : Mem) {dst src : Nat} (h : dst + 8 * n ≤ src ∨ src + 8 * n ≤ dst) {i : Nat}
    (hi : i < n) : loadWord (copyWords n m dst src) (dst + 8 * i) = loadWord m (src + 8 * i) := by
  induction n generalizing m dst src i with
  | zero => exact absurd hi (Nat.not_lt_zero i)
  | succ n ih =>
    unfold copyWords wordSzB
    cases i with
    | zero =>
      rw [loadWord_congr fun y _ hy => copyWords_of_not_mem n _ _ _ (by omega)]
      exact loadWord_storeWord m dst _
    | succ i =>
      have hrest := @ih (storeWord m dst (loadWord m src)) (dst + 8) (src + 8) (by omega) i
        (Nat.lt_of_succ_lt_succ hi)
      rw [show dst + 8 * (i + 1) = dst + 8 + 8 * i by omega, hrest, show src + 8 * (i + 1) = src + 8 + 8 * i by omega]
      exact loadWord_storeWord_of_disjoint _ (by unfold Apart; omega)

/-! ## Local heaps -/

section

variable (table : Nat → List Bool) (heapBase : Nat) (obj : Nat → Prop) (size : Nat → Nat)

/-- The words of an object that a scan looks at. -/
def scanMask (hdr : Word) : List Bool :=
  if getID hdr = 1 then List.replicate (getLength hdr).toNat true
  else if getID hdr = 0 ∨ getID hdr = 2 then []
  else table (getID hdr)

/-- What a scan asks of a word before it forwards it. -/
def scanTest (hdr : Word) (v : Word) : Bool :=
  if getID hdr = 1 then isPtr v && inVPHeap heapBase v else inVPHeap heapBase v

/-- The words of the object with header at `x` that a scan forwards are pointers to objects. -/
def FieldsOk (m : Mem) (x : Nat) : Prop :=
  ∀ i, (scanMask table (loadWord m x))[i]? = some true →
    scanTest heapBase (loadWord m x) (loadWord m (x + 8 * (i + 1))) = true →
    obj (loadWord m (x + 8 * (i + 1))).toNat

/-- The objects `obj` of a local heap, of sizes `size`. -/
structure LocalHeap (m : Mem) : Prop where
  inside : ∀ o, obj o → heapBase + 8 ≤ o ∧ o + 8 * size o ≤ heapBase + vpHeapSzB
  apart : ∀ o o', obj o → obj o' → o ≠ o' → o + 8 * (size o + 1) ≤ o' ∨ o' + 8 * (size o' + 1) ≤ o
  hdr : ∀ o, obj o → isForwardPtr (loadWord m (o - 8)) = true ∨
    HdrOk table (loadWord m (o - 8)) (size o) ∧ FieldsOk table heapBase obj m (o - 8)

end

variable {os : Nat → Nat} {table : Nat → List Bool} {heapBase : Nat} {obj : Nat → Prop} {size : Nat → Nat}
  {m m' : Mem}

theorem scanMask_length_le {hdr : Word} {n : Nat} (h : HdrOk table hdr n) : (scanMask table hdr).length ≤ n := by
  unfold scanMask
  split_ifs with h1 h2
  · rw [List.length_replicate, h.length]
    omega
  · exact Nat.zero_le n
  · rw [h.mask (by omega)]

/-- The words a scan looks at are the same in a memory that has the object unchanged. -/
theorem FieldsOk.congr {x y n : Nat} (h : FieldsOk table heapBase obj m x) (hhdr : HdrOk table (loadWord m x) n)
    (hx : loadWord m' y = loadWord m x)
    (hm : ∀ i, i < n → loadWord m' (y + 8 * (i + 1)) = loadWord m (x + 8 * (i + 1))) :
    FieldsOk table heapBase obj m' y := by
  intro i hi ht
  rw [hx] at hi ht
  have hlt : i < n := Nat.lt_of_lt_of_le (List.getElem?_eq_some_iff.mp hi).1 (scanMask_length_le hhdr)
  rw [hm i hlt] at ht ⊢
  exact h i hi ht

theorem FieldsOk.frame {x n : Nat} (h : FieldsOk table heapBase obj m x) (hhdr : HdrOk table (loadWord m x) n)
    (hm : ∀ y, x ≤ y → y < x + 8 * (n + 1) → m' y = m y) : FieldsOk table heapBase obj m' x := by
  apply h.congr hhdr
  · exact loadWord_congr fun y hy hy' => hm y hy (by omega)
  · intro i hi
    exact loadWord_congr fun y hy hy' => hm y (by omega) (by omega)

/-- A memory that is the same in the local heap. -/
theorem LocalHeap.frame (h : LocalHeap table heapBase obj size m) (hm : ∀ y, InLocal heapBase y → m' y = m y) :
    LocalHeap table heapBase obj size m' := by
  refine { h with hdr := fun o ho => ?_ }
  obtain ⟨hin, htop⟩ := h.inside o ho
  have hsame : loadWord m' (o - 8) = loadWord m (o - 8) :=
    loadWord_congr fun y hy hy' => hm y ⟨by omega, by omega⟩
  rcases h.hdr o ho with hf | ⟨hok, hfields⟩
  · exact .inl (by rwa [hsame])
  · refine .inr ⟨by rwa [hsame], hfields.frame hok fun y hy hy' => hm y ⟨by omega, by omega⟩⟩

namespace Heap

/-! ## The state of a scan -/

section

variable (table : Nat → List Bool) (heapBase : Nat) (obj : Nat → Prop) (s : Heap)

/-- A chunk from the scan chunk on, with its used part. -/
def usedChunk (j : Nat) : MemChunk := s.filled.getD j s.allocChunk

/-- From `a` on the chunk has objects whose scanned words may be forwarded. -/
def Rest (j a : Nat) : Prop :=
  ∃ gs, Objects table s.mem a gs (s.usedChunk j).usedTop ∧ ∀ x ∈ gs, FieldsOk table heapBase obj s.mem x

/-- The scan is at `a` in the chunk `k`, at an object or behind the last one. -/
structure Pending (k a : Nat) : Prop where
  le : k ≤ s.filled.length
  done : ∃ hs, Objects table s.mem (s.usedChunk k).baseAddr hs a
  rest : Rest table heapBase obj s k a
  later : ∀ j, k < j → j ≤ s.filled.length → Rest table heapBase obj s j (s.usedChunk j).baseAddr

end

/-- What holds throughout a scan. -/
structure Scanning (os : Nat → Nat) (table : Nat → List Bool) (heapBase : Nat) (obj : Nat → Prop) (size : Nat → Nat)
    (s : Heap) (k a : Nat) : Prop where
  good : Good os table s
  base : s.vp.heapBase = heapBase
  localHeap : LocalHeap table heapBase obj size s.mem
  pending : Pending table heapBase obj s k a

/-- The chunks of a scan stay in place while they fill. -/
structure Grown (table : Nat → List Bool) (s s' : Heap) : Prop where
  keeps : Keeps table s s'
  length : s.filled.length ≤ s'.filled.length
  bases : ∀ j, j ≤ s.filled.length → (s'.usedChunk j).baseAddr = (s.usedChunk j).baseAddr
  tops : ∀ j, j ≤ s.filled.length → (s.usedChunk j).usedTop ≤ (s'.usedChunk j).usedTop

variable {s s' s'' : Heap} {k a : Nat}

theorem Grown.refl : Grown table s s := ⟨.refl, Nat.le_refl _, fun _ _ => rfl, fun _ _ => Nat.le_refl _⟩

theorem Grown.trans (h : Grown table s s') (h' : Grown table s' s'') : Grown table s s'' where
  keeps := h.keeps.trans h'.keeps
  length := Nat.le_trans h.length h'.length
  bases j hj := (h'.bases j (Nat.le_trans hj h.length)).trans (h.bases j hj)
  tops j hj := Nat.le_trans (h.tops j hj) (h'.tops j (Nat.le_trans hj h.length))

theorem usedChunk_mem (j : Nat) : s.usedChunk j ∈ s.toSpace := by
  grind [usedChunk, toSpace]

theorem usedChunk_last : s.usedChunk s.filled.length = s.allocChunk := getD_eq_default _ _ (Nat.le_refl _)

theorem usedTopOfChunk_eq {j : Nat} (hj : j ≤ s.filled.length) : s.usedTopOfChunk j = (s.usedChunk j).usedTop := by
  unfold usedTopOfChunk
  rcases Nat.lt_or_eq_of_le hj with hlt | rfl
  · unfold usedChunk chunkAt
    rw [if_neg (by omega), getD_eq_getElem _ _ hlt, getD_eq_getElem _ _ hlt]
  · rw [if_pos rfl, usedChunk_last]
    rfl

theorem Good.usedChunk_apart (h : Good os table s) {i j : Nat} (hij : i < j) (hj : j ≤ s.filled.length) :
    (s.usedChunk i).Apart (s.usedChunk j) := by
  obtain ⟨hhead, htail⟩ := List.pairwise_cons.mp h.apart
  have hi : s.usedChunk i = s.filled[i] := getD_eq_getElem _ _ (by omega)
  rcases Nat.lt_or_eq_of_le hj with hlt | rfl
  · have hj' : s.usedChunk j = s.filled[j] := getD_eq_getElem _ _ hlt
    rw [hi, hj']
    exact List.pairwise_iff_getElem.mp (List.pairwise_append.mp htail).1 i j (by omega) hlt hij
  · rw [usedChunk_last, hi]
    exact (hhead _ (List.mem_append_left _ (List.getElem_mem (by omega)))).symm

/-- The objects the scan has passed and those before it are objects of the chunk. -/
theorem Pending.held (h : Pending table heapBase obj s k a) {x : Nat} {gs : List Nat}
    (hobj : Objects table s.mem (s.usedChunk k).baseAddr gs a) (hx : x ∈ gs) : ∃ n, s.Held table x n := by
  obtain ⟨hs, hrest, -⟩ := h.rest
  obtain ⟨n, hn, -, -⟩ := hobj.mem_bounds hx
  exact ⟨n, _, usedChunk_mem k, _, hobj.append hrest, List.mem_append_left _ hx, hn⟩

/-! ## What keeps the state of a scan -/

theorem Rest.frame {j : Nat} (h : Rest table heapBase obj s j a) {mem : Mem}
    (hm : ∀ y, a ≤ y → y < (s.usedChunk j).usedTop → mem y = s.mem y) :
    Rest table heapBase obj { s with mem } j a := by
  obtain ⟨gs, hobj, hfields⟩ := h
  refine ⟨gs, hobj.congr fun x hx => ?_, fun x hx => ?_⟩
  · obtain ⟨n, -, hle, hb⟩ := hobj.mem_bounds hx
    exact loadWord_congr fun y hy hy' => hm y (by omega) (by omega)
  · obtain ⟨n, hn, hle, hb⟩ := hobj.mem_bounds hx
    exact (hfields x hx).frame hn fun y hy hy' => hm y (by omega) (by omega)

/-- A memory in which the objects that the scan has not reached are unchanged and every object has its header. -/
theorem Scanning.write (h : Scanning os table heapBase obj size s k a) {mem : Mem}
    (hhdr : ∀ x n, s.Held table x n → loadWord mem x = loadWord s.mem x)
    (hrest : ∀ y, a ≤ y → y < (s.usedChunk k).usedTop → mem y = s.mem y)
    (hlater : ∀ j, k < j → j ≤ s.filled.length → ∀ y, (s.usedChunk j).baseAddr ≤ y → y < (s.usedChunk j).usedTop →
      mem y = s.mem y)
    (hlocal : LocalHeap table heapBase obj size mem) :
    Scanning os table heapBase obj size { s with mem } k a ∧ Grown table s { s with mem } := by
  obtain ⟨hgood, hkeep⟩ := h.good.write hhdr
  obtain ⟨hle, ⟨hs, hdone⟩, hr, hl⟩ := h.pending
  refine ⟨⟨hgood, h.base, hlocal, hle, ⟨hs, ?_⟩, hr.frame hrest, fun j hkj hj => (hl j hkj hj).frame (hlater j hkj hj)⟩,
    hkeep, Nat.le_refl _, fun _ _ => rfl, fun _ _ => Nat.le_refl _⟩
  apply hdone.congr
  intro x hx
  obtain ⟨n, hn⟩ := h.pending.held hdone hx
  exact hhdr x n hn

theorem usedChunk_alloc {j : Nat} (hj : j ≤ s.filled.length) :
    (Heap.allocToSpaceChunk os s).usedChunk j = s.usedChunk j := by
  show (s.filled ++ [s.allocChunk]).getD j _ = s.filled.getD j _
  grind

theorem Scanning.alloc (h : Scanning os table heapBase obj size s k a) :
    Scanning os table heapBase obj size (Heap.allocToSpaceChunk os s) k a ∧
      Grown table s (Heap.allocToSpaceChunk os s) := by
  obtain ⟨hgood, hkeep⟩ := h.good.allocToSpaceChunk
  obtain ⟨hle, hdone, hr, hl⟩ := h.pending
  have hlen : (Heap.allocToSpaceChunk os s).filled.length = s.filled.length + 1 := by
    show (s.filled ++ [s.allocChunk]).length = _
    rw [List.length_append, List.length_singleton]
  have hrest : ∀ j b, j ≤ s.filled.length → Rest table heapBase obj s j b →
      Rest table heapBase obj (Heap.allocToSpaceChunk os s) j b := by
    rintro j b hj ⟨gs, hobj, hfields⟩
    refine ⟨gs, ?_, ?_⟩
    · rw [allocToSpaceChunk_mem, usedChunk_alloc hj]
      exact hobj
    · rw [allocToSpaceChunk_mem]
      exact hfields
  constructor
  · refine ⟨hgood, h.base, by rw [allocToSpaceChunk_mem]; exact h.localHeap, by omega, ?_, hrest k a hle hr,
      fun j hkj hj => ?_⟩
    · rw [allocToSpaceChunk_mem, usedChunk_alloc hle]
      exact hdone
    · by_cases hlast : j ≤ s.filled.length
      · rw [usedChunk_alloc hlast]
        exact hrest j _ hlast (hl j hkj hlast)
      · obtain rfl : j = (Heap.allocToSpaceChunk os s).filled.length := by omega
        rw [usedChunk_last]
        refine ⟨[], ?_, fun x hx => nomatch hx⟩
        rw [usedChunk_last]
        have htop : (Heap.allocToSpaceChunk os s).allocChunk.usedTop =
            (Heap.allocToSpaceChunk os s).allocChunk.baseAddr := Nat.add_sub_cancel ..
        rw [htop]
        exact .nil _
  · exact ⟨hkeep, by omega, fun j hj => by rw [usedChunk_alloc hj], fun j hj => by rw [usedChunk_alloc hj]⟩

/-- The next object becomes an object of the allocation chunk. -/
theorem Scanning.bump (h : Scanning os table heapBase obj size s k a) {n : Nat}
    (hhdr : HdrOk table (loadWord s.mem (s.vp.globNextW - 8)) n)
    (hfields : FieldsOk table heapBase obj s.mem (s.vp.globNextW - 8))
    (hroom : s.vp.globNextW + 8 * (n + 1) ≤ s.vp.globLimit) :
    Scanning os table heapBase obj size (s.bumpGlobNextW (8 * (n + 1))) k a ∧
      Grown table s (s.bumpGlobNextW (8 * (n + 1))) := by
  obtain ⟨hgood, hkeep, -⟩ := h.good.bump hhdr hroom
  obtain ⟨hle, hdone, hr, hl⟩ := h.pending
  have hbase := h.good.next.base_le
  have hold : ∀ j, j < s.filled.length → (s.bumpGlobNextW (8 * (n + 1))).usedChunk j = s.usedChunk j := by
    intro j hj
    show s.filled.getD j _ = s.filled.getD j _
    rw [getD_eq_getElem _ _ hj, getD_eq_getElem _ _ hj]
  have hlast : (s.bumpGlobNextW (8 * (n + 1))).usedChunk s.filled.length =
      { s.allocChunk with usedTop := s.allocChunk.usedTop + 8 * (n + 1) } := by
    show s.filled.getD s.filled.length _ = _
    rw [getD_eq_default _ _ (Nat.le_refl _)]
    unfold allocChunk bumpGlobNextW wordSzB
    simp only [MemChunk.mk.injEq, true_and]
    omega
  have hbases : ∀ j, j ≤ s.filled.length →
      ((s.bumpGlobNextW (8 * (n + 1))).usedChunk j).baseAddr = (s.usedChunk j).baseAddr := by
    intro j hj
    rcases Nat.lt_or_eq_of_le hj with hlt | rfl
    · rw [hold j hlt]
    · rw [hlast, usedChunk_last]
  have hrest : ∀ j b, j ≤ s.filled.length → Rest table heapBase obj s j b →
      Rest table heapBase obj (s.bumpGlobNextW (8 * (n + 1))) j b := by
    rintro j b hj ⟨gs, hobj, hok⟩
    rcases Nat.lt_or_eq_of_le hj with hlt | rfl
    · refine ⟨gs, ?_, hok⟩
      rw [hold j hlt]
      exact hobj
    · rw [usedChunk_last] at hobj
      refine ⟨gs ++ [s.vp.globNextW - 8], ?_, fun x hx => ?_⟩
      · rw [hlast]
        exact hobj.append (Objects.one hhdr)
      · rcases List.mem_append.mp hx with hx | hx
        · exact hok x hx
        · rw [List.mem_singleton.mp hx]
          exact hfields
  constructor
  · refine ⟨hgood, h.base, h.localHeap, hle, ?_, hrest k a hle hr, fun j hkj hj => ?_⟩
    · rw [hbases k hle]
      exact hdone
    · rw [hbases j hj]
      exact hrest j _ hj (hl j hkj hj)
  · refine ⟨hkeep, Nat.le_refl _, hbases, fun j hj => ?_⟩
    rcases Nat.lt_or_eq_of_le hj with hlt | rfl
    · rw [hold j hlt]
    · rw [hlast, usedChunk_last]
      exact Nat.le_add_right _ _

/-! ## Forwarding -/

/-- `M` is `m` with a copy, at `newObj`, of the object of `n` words at `p`, which is forwarded. -/
structure Copied (m M : Mem) (newObj p n : Nat) : Prop where
  other : ∀ y, y < newObj - 8 ∨ newObj + 8 * n ≤ y → y < p - 8 ∨ p ≤ y → M y = m y
  hdr : loadWord M (newObj - 8) = loadWord m (p - 8)
  fields : ∀ i, i < n → loadWord M (newObj + 8 * i) = loadWord m (p + 8 * i)
  forwarded : isForwardPtr (loadWord M (p - 8)) = true

section

variable {newObj p n : Nat} (hnew : 8 ≤ newObj) (hp : 8 ≤ p) (hapart : newObj + 8 * (n + 1) ≤ p ∨ p + 8 * (n + 1) ≤ newObj)

include hnew hp hapart

/-- The order of `ForwardObjMajor`. -/
theorem copied_major (m : Mem) (fp : Word) : Copied m (storeWord (copyWords n
    (storeWord m (newObj - 8) (loadWord m (p - 8))) newObj p) (p - 8) (makeForwardPtr fp)) newObj p n where
  other y hy hy' := by
    rw [storeWord_of_not_mem _ (by omega), copyWords_of_not_mem _ _ _ _ (by omega), storeWord_of_not_mem _ (by omega)]
  hdr := by
    rw [loadWord_storeWord_of_disjoint _ (by unfold Apart; omega),
      loadWord_congr fun y _ hy => copyWords_of_not_mem _ _ _ _ (by omega), loadWord_storeWord]
  fields i hi := by
    rw [loadWord_storeWord_of_disjoint _ (by unfold Apart; omega), loadWord_copyWords n _ (by omega) hi,
      loadWord_storeWord_of_disjoint _ (by unfold Apart; omega)]
  forwarded := by
    rw [loadWord_storeWord]
    exact isForwardPtr_makeForwardPtr fp

/-- The order of `ForwardObjGlobal`. -/
theorem copied_global (m : Mem) (fp : Word) : Copied m (copyWords n
    (storeWord (storeWord m (p - 8) (makeForwardPtr fp)) (newObj - 8) (loadWord m (p - 8))) newObj p) newObj p n where
  other y hy hy' := by
    rw [copyWords_of_not_mem _ _ _ _ (by omega), storeWord_of_not_mem _ (by omega), storeWord_of_not_mem _ (by omega)]
  hdr := by
    rw [loadWord_congr fun y _ hy => copyWords_of_not_mem _ _ _ _ (by omega), loadWord_storeWord]
  fields i hi := by
    rw [loadWord_copyWords n _ (by omega) hi, loadWord_storeWord_of_disjoint _ (by unfold Apart; omega),
      loadWord_storeWord_of_disjoint _ (by unfold Apart; omega)]
  forwarded := by
    rw [loadWord_congr fun y _ hy => copyWords_of_not_mem _ _ _ _ (by omega),
      loadWord_storeWord_of_disjoint _ (by unfold Apart; omega), loadWord_storeWord]
    exact isForwardPtr_makeForwardPtr fp

end

variable {p n scanTop fuel : Nat}

/-- Forwarding an object: the heap with a copy of it. -/
theorem Scanning.copied (h : Scanning os table heapBase obj size s k a) (hp : obj p)
    (hnot : isForwardPtr (loadWord s.mem (p - 8)) = false) {mem : Mem}
    (hc : Copied s.mem mem s.vp.globNextW p (size p)) (hroom : s.vp.globNextW + 8 * (size p + 1) ≤ s.vp.globLimit) :
    Scanning os table heapBase obj size (({ s with mem } : Heap).bumpGlobNextW (8 * (size p + 1))) k a ∧ Grown table
      s (({ s with mem } : Heap).bumpGlobNextW (8 * (size p + 1))) ∧ ∀ y, s.InUsed y → mem y = s.mem y := by
  obtain ⟨hin, htop⟩ := h.localHeap.inside p hp
  have hbase := h.good.next.base_le
  have hlimit := h.good.next.limit
  have hshape := (h.good.shape _ allocChunk_mem).local_apart
  rw [h.base] at hshape
  unfold allocChunk at hshape
  simp only at hshape
  obtain ⟨hok, hfields⟩ : HdrOk table (loadWord s.mem (p - 8)) (size p) ∧ FieldsOk table heapBase obj s.mem (p - 8) := by
    rcases h.localHeap.hdr p hp with hf | hf
    · rw [hnot] at hf
      cases hf
    · exact hf
  have hunused : ∀ y, s.InUsed y → mem y = s.mem y := by
    intro y hy
    have hnl := h.good.not_local hy
    rw [h.base] at hnl
    unfold InLocal at hnl
    apply hc.other
    · by_contra hnext
      exact h.good.next_not_used (x := y) (by omega) (by omega) hy
    · omega
  have hlocal : LocalHeap table heapBase obj size mem := by
    refine { h.localHeap with hdr := fun o ho => ?_ }
    by_cases hop : o = p
    · subst hop
      exact .inl hc.forwarded
    · obtain ⟨hin', htop'⟩ := h.localHeap.inside o ho
      have hap := h.localHeap.apart o p ho hp hop
      have hsame : ∀ y, o - 8 ≤ y → y < o + 8 * size o → mem y = s.mem y := fun y hy hy' =>
        hc.other y (by omega) (by omega)
      have hload : loadWord mem (o - 8) = loadWord s.mem (o - 8) :=
        loadWord_congr fun y hy hy' => hsame y hy (by omega)
      rcases h.localHeap.hdr o ho with hf | ⟨ho', hf'⟩
      · exact .inl (by rwa [hload])
      · exact .inr ⟨by rwa [hload], hf'.frame ho' fun y hy hy' => hsame y hy (by omega)⟩
  obtain ⟨hwrite, hgrown⟩ := @Scanning.write _ _ _ _ _ _ _ _ h mem
    (fun x n hx => loadWord_congr fun y hy hy' => hunused y (hx.inUsed hy (by omega)))
    (fun y hy hy' => hunused y ⟨_, usedChunk_mem k, by
      obtain ⟨hs, hdone⟩ := h.pending.done
      exact Nat.le_trans hdone.le hy, hy'⟩)
    (fun j _ _ y hy hy' => hunused y ⟨_, usedChunk_mem j, hy, hy'⟩) hlocal
  have hnew : loadWord mem (s.vp.globNextW - 8) = loadWord s.mem (p - 8) := hc.hdr
  obtain ⟨hbump, hgrown'⟩ := hwrite.bump (n := size p) (by
      show HdrOk table (loadWord mem (s.vp.globNextW - 8)) (size p)
      rwa [hnew])
    (hfields.congr hok hnew fun i hi => by
      have hfield := hc.fields i hi
      rwa [show s.vp.globNextW + 8 * i = s.vp.globNextW - 8 + 8 * (i + 1) by omega,
        show p + 8 * i = p - 8 + 8 * (i + 1) by omega] at hfield) hroom
  exact ⟨hbump, hgrown.trans hgrown', hunused⟩

theorem Scanning.reserve (h : Scanning os table heapBase obj size s k a) (hn : 8 * n ≤ vpHeapSzB) :
    Scanning os table heapBase obj size (Heap.reserve os s n) k a ∧ Grown table s (Heap.reserve os s n) ∧
      (Heap.reserve os s n).mem = s.mem ∧ (∀ y, s.InUsed y → (Heap.reserve os s n).InUsed y) ∧
      (Heap.reserve os s n).vp.globNextW + 8 * (n + 1) ≤ (Heap.reserve os s n).vp.globLimit := by
  have halign := (h.good.shape _ allocChunk_mem).aligned
  have hlimit := h.good.next.limit
  have hnext := h.good.next.aligned
  unfold allocChunk at halign
  simp only at halign
  unfold Heap.reserve
  split
  · obtain ⟨halloc, hgrown⟩ := h.alloc
    refine ⟨halloc, hgrown, allocToSpaceChunk_mem, fun _ => inUsed_alloc os, h.good.room_alloc ?_⟩
    unfold vpHeapSzB at hn
    unfold wordSzB heapChunkSzB
    omega
  · refine ⟨h, .refl, rfl, fun _ hy => hy, ?_⟩
    unfold wordSzB heapChunkSzB at *
    omega

theorem setGlobNextW_eq (n : Nat) : s.setGlobNextW s.vp.globNextW n = s.bumpGlobNextW (8 * (n + 1)) := by
  unfold setGlobNextW bumpGlobNextW wordSzB
  congr 2

/-- What forwarding an object of the local heap does to a scan. -/
def Forwards (os : Nat → Nat) (table : Nat → List Bool) (heapBase : Nat) (obj : Nat → Prop) (size : Nat → Nat)
    (forward : Heap → Word → Heap × Word) : Prop :=
  ∀ s k a v, Scanning os table heapBase obj size s k a → obj v.toNat →
    Scanning os table heapBase obj size (forward s v).1 k a ∧ Grown table s (forward s v).1 ∧
      ∀ y, s.InUsed y → (forward s v).1.mem y = s.mem y

/-- An object that is not forwarded and the room reserved for its copy. -/
theorem Scanning.unforwarded (h : Scanning os table heapBase obj size s k a) (hp : obj p)
    (hnot : isForwardPtr (loadWord s.mem (p - 8)) = false) :
    getLength (loadWord s.mem (p - 8)) = size p ∧ 8 * size p ≤ vpHeapSzB ∧ 8 ≤ p := by
  obtain ⟨hin, htop⟩ := h.localHeap.inside p hp
  rcases h.localHeap.hdr p hp with hf | hf
  · rw [hnot] at hf
    cases hf
  · exact ⟨hf.1.length, by omega, by omega⟩

/-- A local object is apart from the place of the next object in a chunk. -/
theorem Scanning.next_apart (h : Scanning os table heapBase obj size s k a) (hp : obj p)
    (hroom : s.vp.globNextW + 8 * (n + 1) ≤ s.vp.globLimit) (hn : n = size p) :
    s.vp.globNextW + 8 * (n + 1) ≤ p ∨ p + 8 * (n + 1) ≤ s.vp.globNextW := by
  obtain ⟨hin, htop⟩ := h.localHeap.inside p hp
  have hbase := h.good.next.base_le
  have hlimit := h.good.next.limit
  have hshape := (h.good.shape _ allocChunk_mem).local_apart
  rw [h.base] at hshape
  unfold allocChunk at hshape
  simp only at hshape
  omega

/-- Reserving room and copying an object, in either order of the stores. -/
theorem Scanning.forward (h : Scanning os table heapBase obj size s k a) (hp : obj p)
    (hnot : isForwardPtr (loadWord s.mem (p - 8)) = false) (mem : Heap → Mem)
    (hc : ∀ s₁ : Heap, s₁.mem = s.mem → 8 ≤ s₁.vp.globNextW → 8 ≤ p → (s₁.vp.globNextW + 8 * (size p + 1) ≤ p ∨ p + 8 * (size p + 1) ≤ s₁.vp.globNextW) → Copied s₁.mem (mem s₁) s₁.vp.globNextW p (size p))
    : let s₁ := Heap.reserve os s (size p)
    let s' := ({ s₁ with mem := mem s₁ } : Heap).setGlobNextW s₁.vp.globNextW (size p)
    Scanning os table heapBase obj size s' k a ∧ Grown table s s' ∧ ∀ y, s.InUsed y → s'.mem y = s.mem y := by
  obtain ⟨-, hsize, hp8⟩ := h.unforwarded hp hnot
  obtain ⟨hres, hgrown, hmem, hused, hroom⟩ := h.reserve hsize
  have hbase := hres.good.next.base_le
  have hcopy := hc _ hmem (by omega) hp8 (hres.next_apart hp hroom rfl)
  obtain ⟨hnew, hgrown', hsame⟩ := hres.copied hp (by rwa [hmem]) hcopy hroom
  rw [← setGlobNextW_eq] at hnew hgrown'
  exact ⟨hnew, hgrown.trans hgrown', fun y hy => (hsame y (hused y hy)).trans (congrFun hmem y)⟩

theorem forwards_major : Forwards os table heapBase obj size (forwardObjMajor os) := by
  intro s k a v h hp
  unfold forwardObjMajor wordSzB
  by_cases hfwd : isForwardPtr (loadWord s.mem (v.toNat - 8)) = true
  · simp only [hfwd, if_true]
    exact ⟨h, .refl, fun _ _ => trivial⟩
  · rw [Bool.not_eq_true] at hfwd
    have hlen := (h.unforwarded hp hfwd).1
    simp only [hfwd, hlen, Int.toNat_natCast, Bool.false_eq_true, if_false]
    refine h.forward hp hfwd (fun s₁ => storeWord (copyWords (size v.toNat) (storeWord s₁.mem (s₁.vp.globNextW - 8)
      (loadWord s.mem (v.toNat - 8))) s₁.vp.globNextW v.toNat) (v.toNat - 8) _) ?_
    grind [copied_major]

theorem forwards_global : Forwards os table heapBase obj size (forwardObjGlobal os) := by
  intro s k a v h hp
  unfold forwardObjGlobal wordSzB
  by_cases hfwd : isForwardPtr (loadWord s.mem (v.toNat - 8)) = true
  · simp only [hfwd, if_true]
    exact ⟨h, .refl, fun _ _ => trivial⟩
  · rw [Bool.not_eq_true] at hfwd
    have hlen := (h.unforwarded hp hfwd).1
    simp only [hfwd, hlen, Int.toNat_natCast, Bool.false_eq_true, if_false]
    refine h.forward hp hfwd (fun s₁ => copyWords (size v.toNat) (storeWord (storeWord s₁.mem (v.toNat - 8) _)
      (s₁.vp.globNextW - 8) (loadWord s.mem (v.toNat - 8))) s₁.vp.globNextW v.toNat) ?_
    grind [copied_global]

/-! ## Scanning -/

/-- A store in a field of an object that the scan has reached. -/
theorem Scanning.store (h : Scanning os table heapBase obj size s k a) {x b : Nat} (hx : s.Held table x n)
    (hbase : (s.usedChunk k).baseAddr ≤ x) (ha : x + 8 * (n + 1) ≤ a) (hb : x + 8 ≤ b)
    (hb' : b + 8 ≤ x + 8 * (n + 1)) (v : Word) :
    Scanning os table heapBase obj size { s with mem := storeWord s.mem b v } k a ∧
      Grown table s { s with mem := storeWord s.mem b v } := by
  have htop := (h.good.objects _ (usedChunk_mem k)).1
  obtain ⟨gs, hrest, -⟩ := h.pending.rest
  have hle := hrest.le
  apply h.write
  · intro y m hy
    apply loadWord_storeWord_of_disjoint
    unfold Apart
    by_cases hxy : x = y
    · omega
    · have := h.good.held_apart hx hy hxy
      omega
  · exact fun y hy _ => storeWord_of_not_mem v (by omega)
  · intro j hkj hj y hy hy'
    have hap := h.good.usedChunk_apart hkj hj
    have htop' := (h.good.objects _ (usedChunk_mem j)).1
    unfold MemChunk.Apart at hap
    exact storeWord_of_not_mem v (by omega)
  · apply h.localHeap.frame
    intro y hy
    apply storeWord_of_not_mem
    by_contra hin
    refine h.good.not_local (hx.inUsed (y := y) (by omega) (by omega)) ?_
    rwa [h.base]

/-- The words of an object are scanned one after the other. -/
theorem Scanning.scanWords {forward : Heap → Word → Heap × Word} (hf : Forwards os table heapBase obj size forward)
    {test : Word → Bool} (mask : List Bool) {x b : Nat} (h : Scanning os table heapBase obj size s k a)
    (hx : s.Held table x n) (hbase : (s.usedChunk k).baseAddr ≤ x) (ha : x + 8 * (n + 1) ≤ a) (hb : x + 8 ≤ b)
    (hb' : b + 8 * mask.length ≤ x + 8 * (n + 1))
    (hobj : ∀ i, mask[i]? = some true → test (loadWord s.mem (b + 8 * i)) = true → obj (loadWord s.mem (b + 8 * i)).toNat)
    :
    Scanning os table heapBase obj size (Heap.scanWords forward test mask s b) k a ∧ Grown table s
      (Heap.scanWords forward test mask s b) := by
  induction mask generalizing s b with
  | nil => exact ⟨h, .refl⟩
  | cons bit mask ih =>
    rw [List.length_cons] at hb'
    have htail : ∀ i, mask[i]? = some true → test (loadWord s.mem (b + 8 + 8 * i)) = true →
        obj (loadWord s.mem (b + 8 + 8 * i)).toNat := by
      intro i hi
      have hnext := hobj (i + 1) (by rwa [List.getElem?_cons_succ])
      rwa [show b + 8 * (i + 1) = b + 8 + 8 * i by omega] at hnext
    unfold Heap.scanWords
    simp only [wordSzB]
    split
    · rename_i hscan
      rw [Bool.and_eq_true] at hscan
      obtain ⟨rfl, htest⟩ := hscan
      obtain ⟨hfwd, hgrown, hused⟩ := hf s k a (loadWord s.mem b) h (hobj 0 rfl htest)
      have hx' := hgrown.keeps _ _ hx
      have hbase' : ((forward s (loadWord s.mem b)).1.usedChunk k).baseAddr ≤ x := by
        rw [hgrown.bases k h.pending.le]
        exact hbase
      obtain ⟨hstore, hgrown'⟩ := hfwd.store hx' hbase' ha hb (by omega) (forward s (loadWord s.mem b)).2
      have hsame : ∀ i, i < mask.length →
          loadWord (storeWord (forward s (loadWord s.mem b)).1.mem b (forward s (loadWord s.mem b)).2) (b + 8 + 8 * i) =
            loadWord s.mem (b + 8 + 8 * i) := by
        intro i hi
        rw [loadWord_storeWord_of_disjoint _ (by unfold Apart; omega)]
        exact loadWord_congr fun y hy hy' => hused y (hx.inUsed (by omega) (by omega))
      obtain ⟨hdone, hgrown''⟩ := ih (b := b + 8) hstore (hgrown'.keeps _ _ hx') hbase' (by omega) (by omega) fun i hi ht => by
        have hlt := (List.getElem?_eq_some_iff.mp hi).1
        rw [hsame i hlt] at ht ⊢
        exact htail i hi ht
      exact ⟨hdone, (hgrown.trans hgrown').trans hgrown''⟩
    · exact ih h hx hbase (by omega) (by omega) htail

theorem addWords_eq (b n : Nat) : addWords b n = b + 8 * n := by
  unfold addWords wordSzB
  omega

/-- An object with a header of the table is scanned as its mask says. -/
theorem scanObject_eq (h : HdrOk table (loadWord s.mem a) n) :
    ∃ forward, Forwards os table heapBase obj size forward ∧ Heap.scanObject os table s a =
      (Heap.scanWords forward (scanTest s.vp.heapBase (loadWord s.mem a)) (scanMask table
        (loadWord s.mem a)) s (a + 8), a + 8 * (n + 1)) := by
  have hend : a + 8 + 8 * n = a + 8 * (n + 1) := by omega
  unfold Heap.scanObject isVectorHdr isRawHdr scanMask scanTest vecTagBits rawTagBits wordSzB
  simp only [h.noPtr, h.length, Bool.and_true, beq_iff_eq, addWords_eq, hend]
  by_cases h1 : getID (loadWord s.mem a) = 1
  · simp only [h1, if_true]
    exact ⟨_, forwards_major, rfl⟩
  · by_cases h0 : getID (loadWord s.mem a) = 0
    · rw [if_neg h1, if_pos h0, if_neg h1, if_pos (.inl h0)]
      exact ⟨_, forwards_major, rfl⟩
    · rw [if_neg h1, if_neg h0, if_neg h1]
      unfold tableScan
      simp only [h.length, addWords_eq, h0, h1, false_or, if_false, hend]
      by_cases h2 : getID (loadWord s.mem a) = 2
      · rw [if_pos h2, if_pos h2]
        exact ⟨_, forwards_global, rfl⟩
      · rw [if_neg h2, if_neg h2, h.mask (by omega), hend]
        exact ⟨_, forwards_global, rfl⟩

theorem Scanning.scanObject (h : Scanning os table heapBase obj size s k a) (ha : a < (s.usedChunk k).usedTop) :
    Scanning os table heapBase obj size (Heap.scanObject os table s a).1 k (Heap.scanObject os table s a).2 ∧
      Grown table s (Heap.scanObject os table s a).1 := by
  obtain ⟨hle, ⟨hs, hdone⟩, ⟨gs, hobj, hfields⟩, hlater⟩ := h.pending
  obtain ⟨n, gs', rfl, hhdr, hrest⟩ := hobj.head ha
  have hheld : s.Held table a n :=
    ⟨_, usedChunk_mem k, _, hdone.append hobj, List.mem_append_right _ List.mem_cons_self, hhdr⟩
  have hnext : Scanning os table heapBase obj size s k (a + 8 * (n + 1)) :=
    { h with pending := ⟨hle, ⟨_, hdone.append (.one hhdr)⟩,
        ⟨gs', hrest, fun x hx => hfields x (List.mem_cons_of_mem _ hx)⟩, hlater⟩ }
  obtain ⟨forward, hf, heq⟩ := @scanObject_eq os _ heapBase obj size _ _ _ hhdr
  rw [heq]
  have hlen := scanMask_length_le hhdr
  apply hnext.scanWords hf _ hheld hdone.le (Nat.le_refl _) (Nat.le_refl _) (by omega)
  intro i hi ht
  rw [h.base, show a + 8 + 8 * i = a + 8 * (i + 1) by omega] at ht
  rw [show a + 8 + 8 * i = a + 8 * (i + 1) by omega]
  exact hfields a List.mem_cons_self i hi ht

theorem Scanning.scanObjects {a' : Nat} (h : Scanning os table heapBase obj size s k a)
    (htop : scanTop ≤ (s.usedChunk k).usedTop) (hr : Heap.scanObjects os table scanTop fuel s a = some (s', a')) :
    Scanning os table heapBase obj size s' k a' ∧ Grown table s s' := by
  induction fuel generalizing s a with
  | zero =>
    unfold Heap.scanObjects at hr
    split at hr
    · cases hr
    · cases hr
      exact ⟨h, .refl⟩
  | succ fuel ih =>
    unfold Heap.scanObjects at hr
    split at hr
    · obtain ⟨hone, hgrown⟩ := h.scanObject (by omega)
      obtain ⟨hdone, hgrown'⟩ := ih hone (Nat.le_trans htop (hgrown.tops k h.pending.le)) hr
      exact ⟨hdone, hgrown.trans hgrown'⟩
    · cases hr
      exact ⟨h, .refl⟩

theorem Scanning.scanChunkLoop {handlingAlloc : Bool} {a' scanTop' : Nat}
    (h : Scanning os table heapBase obj size s k a) (htop : scanTop ≤ (s.usedChunk k).usedTop)
    (hr : Heap.scanChunkLoop os table k handlingAlloc fuel s a scanTop = some (s', a', scanTop')) :
    Scanning os table heapBase obj size s' k a' ∧ Grown table s s' ∧ scanTop' ≤ (s'.usedChunk k).usedTop := by
  induction fuel generalizing s a scanTop with
  | zero => cases hr
  | succ fuel ih =>
    unfold Heap.scanChunkLoop at hr
    rw [Option.bind_eq_bind, Option.bind_eq_some_iff] at hr
    obtain ⟨⟨s₁, a₁⟩, hobjs, hr⟩ := hr
    obtain ⟨hone, hgrown⟩ := h.scanObjects htop hobjs
    simp only at hr
    have htop₁ : (if k = s₁.filled.length then s₁.vp.globNextW - wordSzB
        else if handlingAlloc = true then s₁.usedTopOfChunk k else scanTop) ≤ (s₁.usedChunk k).usedTop := by
      split_ifs with hlast
      · rw [hlast, usedChunk_last]
        exact Nat.le_refl _
      · rw [usedTopOfChunk_eq hone.pending.le]
      · exact Nat.le_trans htop (hgrown.tops k h.pending.le)
    generalize (if k = s₁.filled.length then s₁.vp.globNextW - wordSzB
      else if handlingAlloc = true then s₁.usedTopOfChunk k else scanTop) = top at hr htop₁
    split at hr
    · obtain ⟨hdone, hgrown', htop'⟩ := ih hone htop₁ hr
      exact ⟨hdone, hgrown.trans hgrown', htop'⟩
    · cases hr
      exact ⟨hone, hgrown, htop₁⟩

/-- The scan goes to the start of the next chunk. -/
theorem Scanning.nextChunk (h : Scanning os table heapBase obj size s k a) (hk : k < s.filled.length) :
    Scanning os table heapBase obj size s (k + 1) (s.usedChunk (k + 1)).baseAddr := by
  obtain ⟨hle, hdone, hrest, hlater⟩ := h.pending
  exact { h with pending := ⟨hk, ⟨[], .nil _⟩, hlater (k + 1) (Nat.lt_succ_self k) hk,
    fun j hj hj' => hlater j (by omega) hj'⟩ }

theorem Scanning.scanGlobalToSpace (h : Scanning os table heapBase obj size s k a)
    (htop : scanTop ≤ (s.usedChunk k).usedTop) (hr : Heap.scanGlobalToSpace os table fuel s k a scanTop = some s') :
    Good os table s' ∧ Keeps table s s' := by
  induction fuel generalizing s k a scanTop with
  | zero => cases hr
  | succ fuel ih =>
    unfold Heap.scanGlobalToSpace at hr
    rw [Option.bind_eq_bind, Option.bind_eq_some_iff] at hr
    obtain ⟨⟨s₁, a₁, scanTop₁⟩, hloop, hr⟩ := hr
    obtain ⟨hone, hgrown, htop₁⟩ := h.scanChunkLoop htop hloop
    have hagain : ∀ {k' a' top'}, Scanning os table heapBase obj size s₁ k' a' → top' ≤ (s₁.usedChunk k').usedTop →
        (if a' < top' then Heap.scanGlobalToSpace os table fuel s₁ k' a' top' else some s₁) = some s' →
        Good os table s' ∧ Keeps table s s' := by
      intro k' a' top' hat hle hr
      split at hr
      · obtain ⟨hgood, hkeep⟩ := ih hat hle hr
        exact ⟨hgood, hgrown.keeps.trans hkeep⟩
      · cases hr
        exact ⟨hone.good, hgrown.keeps⟩
    simp only at hr
    by_cases hk : k < s₁.filled.length
    · rw [if_pos hk] at hr
      have hbase : (s₁.chunkAt (k + 1)).baseAddr = (s₁.usedChunk (k + 1)).baseAddr := by
        unfold chunkAt usedChunk
        rcases Nat.lt_or_eq_of_le hk with hlt | heq
        · rw [getD_eq_getElem _ _ hlt, getD_eq_getElem _ _ hlt]
        · rw [getD_eq_default _ _ (by omega), getD_eq_default _ _ (by omega)]
          rfl
      rw [hbase, usedTopOfChunk_eq hk] at hr
      exact hagain (hone.nextChunk hk) (Nat.le_refl _) hr
    · rw [if_neg hk] at hr
      exact hagain hone htop₁ hr

/-! ## Promotion -/

/-- A promotion from a local heap whose object is the root keeps the chunks. -/
theorem Good.promoteObj (h : Good os table s) (hlocal : LocalHeap table s.vp.heapBase obj size s.mem) {root : Word}
    (hroot : isPtr root = true → inVPHeap s.vp.heapBase root = true → obj root.toNat) {r : Heap × Word}
    (hr : Heap.promoteObj os table s fuel root = some r) : Good os table r.1 ∧ Keeps table s r.1 := by
  unfold Heap.promoteObj at hr
  split at hr
  · rename_i hin
    rw [Bool.and_eq_true] at hin
    have hstart : Scanning os table s.vp.heapBase obj size s s.filled.length (s.vp.globNextW - wordSzB) := by
      obtain ⟨-, hs, hobj⟩ := h.objects _ allocChunk_mem
      refine ⟨h, rfl, hlocal, Nat.le_refl _, ⟨hs, ?_⟩, ⟨[], ?_, fun x hx => nomatch hx⟩, fun j hj hj' => by omega⟩
      · rw [usedChunk_last]
        exact hobj
      · rw [usedChunk_last]
        exact .nil _
    obtain ⟨hfwd, hgrown, -⟩ := forwards_major s _ _ root hstart (hroot hin.1 hin.2)
    simp only [Option.bind_eq_bind, Option.bind_eq_some_iff, Option.pure_def, Option.some.injEq] at hr
    obtain ⟨s₁, hscan, rfl⟩ := hr
    obtain ⟨hgood, hkeep⟩ := hfwd.scanGlobalToSpace (by rw [usedTopOfChunk_eq hfwd.pending.le]) hscan
    obtain ⟨hpush, hkeep'⟩ := hgood.push s.filled.length
    exact ⟨hpush, (hgrown.keeps.trans hkeep).trans hkeep'⟩
  · cases hr
    exact ⟨h, .refl⟩

end Heap

end Manticore.ParallelRt
