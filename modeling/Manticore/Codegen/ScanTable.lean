/-
  Manticore.Codegen.ScanTable — when the header and layout of an allocated tuple agree with the scan functions
  printed for its table entry.

  The number in the header names an entry of the table as it is printed at the end of the compilation, after any
  further masks were added. The words of the object are those its field types allow (`Conforms`): a field of heap
  pointer type holds an address or a tagged integer that is no address of the heap, an enumeration is tagged, a C
  function is not in the heap, and a raw field holds anything.
  - `agrees_iff`: the header's length, the scans' lengths, the words scanned, the offsets and the numbers agree
    exactly when no field is a 128-bit vector or a block, the length fits an `int`, and the number of a mixed
    object's mask fits the header.
-/

import Manticore.Codegen.Alloc64
import Manticore.Codegen.PrintTable

namespace Manticore.Codegen

open Cfg (Ty)
open ParallelRt (Word getLength getID isPtr mixedHdr getLength_mixedHdr toInt_ofNat_eq_iff getID_lt)
open PrintTable (createtable column printmystring vectorFn)
open Heap (test inRegion)
open HeaderTable (maskOfBits addHdr addHdr_mem header)

variable {V : Type}

/-! ## Layout -/

def sizeOf (tys : List Ty) : Nat := (tys.map alignedTySzB).sum

/-- The stores of the fields, the first at `sz`. -/
def layout : List (Ty × V) → Nat → List (Nat × V)
  | [], _ => []
  | (ty, v) :: args, sz => (sz, v) :: layout args (alignedTySzB ty + sz)

def ptrMask (tys : List Ty) : Mask := (tys.map isHeapPointer).reverse

attribute [local simp] isKind

theorem foldl_initObj (args : List (Ty × V)) (s : Init V) :
    args.foldl initObj s = ⟨s.i + args.length, (layout args s.totalSize).reverse ++ s.stms,
      sizeOf (args.map Prod.fst) + s.totalSize, ptrMask (args.map Prod.fst) ++ s.ptrMask⟩ := by
  induction args generalizing s with
  | nil => simp [sizeOf, ptrMask, layout]
  | cons arg args ih =>
    grind [setBit, initObj, sizeOf, ptrMask, layout]

theorem initObjs_eq (args : List (Ty × V)) :
    initObjs args = ⟨args.length, (layout args 0).reverse, sizeOf (args.map Prod.fst), ptrMask (args.map Prod.fst)⟩ := by
  rw [initObjs, foldl_initObj]
  simp

theorem layout_length (args : List (Ty × V)) (sz : Nat) : (layout args sz).length = args.length := by
  induction args generalizing sz with
  | nil => rfl
  | cons arg args ih => exact congrArg (· + 1) (ih _)

theorem layout_get (args : List (Ty × V)) (sz i : Nat) :
    (layout args sz)[i]? = args[i]?.map fun a => (sizeOf ((args.map Prod.fst).take i) + sz, a.2) := by
  induction args generalizing sz i with
  | nil => rfl
  | cons arg args ih =>
    cases i with
    | zero => simp [layout, sizeOf]
    | succ i =>
      grind [layout, sizeOf]

variable {i : Nat} {tys : List Ty} {args : List (Ty × V)} {p : Nat} {t : HeaderTable} {id : Nat} {h : Heap}
  {ty : Ty}

theorem offset_eq (tys : List Ty) {j sz : Nat} (hj : j ≤ i) (hi : i - j < tys.length) :
    tupleOffset.offset i tys j sz = .ok (sizeOf (tys.take (i - j)) + sz) := by
  induction tys generalizing j sz with
  | nil => exact absurd hi (Nat.not_lt_zero _)
  | cons ty tys ih =>
    unfold tupleOffset.offset
    by_cases h : j ≥ i
    · rw [if_pos h, show i - j = 0 by omega]
      simp [sizeOf]
    · rw [List.length_cons] at hi
      rw [if_neg h, ih (by omega) (by omega), show i - j = (i - (j + 1)) + 1 by omega, List.take_succ_cons]
      simp only [sizeOf, List.map_cons, List.sum_cons, Except.ok.injEq]
      omega

/-- A selection reads field `i` after the fields before it. -/
theorem tupleOffset_eq (hi : i < tys.length) :
    tupleOffset tys i = .ok (sizeOf (tys.take i)) := offset_eq tys (Nat.zero_le i) hi

theorem alignedTySzB_cases (ty : Ty) :
    alignedTySzB ty = 8 ∧ ty ≠ .raw .vec128 ∨ alignedTySzB ty = 16 ∧ ty = .raw .vec128 := by
  cases ty with
  | raw rt => cases rt <;> simp [alignedTySzB, alignedRawTySzB, wordAlignB]
  | _ => exact .inl ⟨rfl, by simp⟩

theorem sizeOf_eq (h : ∀ ty ∈ tys, ty ≠ .raw .vec128) : sizeOf tys = 8 * tys.length := by
  induction tys with
  | nil => rfl
  | cons ty tys ih =>
    have hty : alignedTySzB ty = 8 := by
      rcases alignedTySzB_cases ty with ⟨hsz, -⟩ | ⟨-, he⟩
      · exact hsz
      · exact absurd he (h ty (List.mem_cons_self ..))
    have htys := ih fun t ht => h t (List.mem_cons_of_mem _ ht)
    unfold sizeOf at htys ⊢
    rw [List.map_cons, List.sum_cons, List.length_cons, htys, hty]
    omega

/-- An object has at least a word for each field, and more when a field is a vector. -/
theorem sizeOf_ge (tys : List Ty) : 8 * tys.length ≤ sizeOf tys ∧
    (sizeOf tys / 8 = tys.length → ∀ ty ∈ tys, ty ≠ .raw .vec128) := by
  induction tys with
  | nil => simp [sizeOf]
  | cons ty tys ih =>
    have hty := alignedTySzB_cases ty
    grind [sizeOf]

/-! ## The three kinds of objects -/

def isBlock : Ty → Bool
  | .block _ => true
  | _ => false

/-- A field that is neither a heap pointer nor a word of uniform representation. -/
def isRaw (ty : Ty) : Bool := !isHeapPointer ty && !isBlock ty && !(hasUniformRep ty matches .ok true)

theorem classify_eq (hasPtr hasRaw : Bool) (h : ∀ a ∈ args, isBlock a.1 = false) :
    classify hasPtr hasRaw args = .ok
      (hasPtr || (args.map Prod.fst).any isHeapPointer, hasRaw || (args.map Prod.fst).any isRaw) := by
  induction args generalizing hasPtr hasRaw with
  | nil => simp [classify]
  | cons arg args ih =>
    obtain ⟨ty, v⟩ := arg
    have hb := h _ (List.mem_cons_self ..)
    have hargs := fun a b => ih a b fun a ha => h a (List.mem_cons_of_mem _ ha)
    cases ty with
    | block => cases hb
    | _ => simp [classify, hargs, hasUniformRep, kindOf, isKind, isRaw, isHeapPointer, isBlock, bind, Except.bind, pure,
        Except.pure]

theorem classify_block (hasPtr hasRaw : Bool) {a : Ty × V} (ha : a ∈ args) (hb : isBlock a.1 = true) :
    classify hasPtr hasRaw args = .error "Match" := by
  induction args generalizing hasPtr hasRaw with
  | nil => cases ha
  | cons arg args ih =>
    obtain ⟨ty, v⟩ := arg
    rcases List.mem_cons.mp ha with rfl | ha
    · cases ty with
      | block => rfl
      | _ => cases hb
    · have hargs := fun a b => ih a b ha
      cases ty <;> simp [classify, hargs, hasUniformRep, kindOf, isKind, isHeapPointer, bind, Except.bind, pure,
        Except.pure]

theorem alloc_eq (t : HeaderTable) (h : ∀ a ∈ args, isBlock a.1 = false) :
    alloc t args = if (args.map Prod.fst).any isHeapPointer then if (args.map Prod.fst).any isRaw then if sizeOf
      (args.map Prod.fst) > maxObjectSzB then .error "object size too large" else .ok
      (⟨sizeOf (args.map Prod.fst), mixedHdr (t.addHdr (ptrMask (args.map Prod.fst))).1 args.length, layout args 0⟩, (t.addHdr (ptrMask (args.map Prod.fst))).2)
      else .ok (⟨sizeOf (args.map Prod.fst), mixedHdr 1 args.length, layout args 0⟩, t) else .ok
      (⟨sizeOf (args.map Prod.fst), mixedHdr 0 args.length, layout args 0⟩, t) := by
  unfold alloc
  rw [classify_eq false false h]
  cases (args.map Prod.fst).any isHeapPointer with
  | false => simp [allocRawObj, initObjs_eq, bind, Except.bind, pure, Except.pure, hdrWord, mixedHdr]; rfl
  | true =>
    cases (args.map Prod.fst).any isRaw with
    | false => simp [allocVectorObj, initObjs_eq, bind, Except.bind, pure, Except.pure]; rfl
    | true =>
      by_cases hsz : sizeOf (args.map Prod.fst) > maxObjectSzB
      · simp [allocMixedObj, initObjs_eq, hsz, bind, Except.bind]
      · simp [allocMixedObj, initObjs_eq, hsz, bind, Except.bind, pure, Except.pure]; rfl

/-! ## Scans -/

theorem mem_lp {clauses : List Clause} {k : Nat} {a : Mask} {s : Stm} :
    s ∈ PrintTable.lp clauses k a p ↔ s.clauses = clauses ∧ p ≤ s.pos ∧ s.pos < p + k ∧ a[p + k - 1 - s.pos]? = some
      true := by
  induction k generalizing p with
  | zero =>
    grind [PrintTable.lp]
  | succ k ih =>
    have hstep : s.clauses = clauses ∧ p ≤ s.pos ∧ s.pos < p + (k + 1) ∧ a[p + (k + 1) - 1 - s.pos]? = some true ↔
        s = ⟨p, clauses⟩ ∧ a[k]? = some true ∨ s ∈ PrintTable.lp clauses k a (p + 1) := by
      rw [ih]
      obtain ⟨pos, cl⟩ := s
      show cl = clauses ∧ p ≤ pos ∧ pos < p + (k + 1) ∧ a[p + (k + 1) - 1 - pos]? = some true ↔
        Stm.mk pos cl = ⟨p, clauses⟩ ∧ a[k]? = some true ∨
          cl = clauses ∧ p + 1 ≤ pos ∧ pos < p + 1 + k ∧ a[p + 1 + k - 1 - pos]? = some true
      rw [Stm.mk.injEq]
      by_cases hp : pos = p
      · simp [hp]
      grind
    rw [hstep, PrintTable.lp]
    by_cases hk : a[k]? = some true
    · simp [hk]
    · simp [hk]

/-- The entry printed for a number of the table is the function of its mask. -/
theorem createtable_eq (h : t.Numbered) {m : Mask} (hm : (m, id) ∈ t.items) (c : Column) :
    createtable t c id = some (column c m) := by
  have hid : id ∈ t.items.map (·.2) := List.mem_map_of_mem hm
  rw [h.ids, List.mem_range'_1] at hid
  unfold createtable PrintTable.predefined
  rw [if_neg (by omega), if_neg (by omega), if_neg (by omega), if_pos (by omega)]
  obtain ⟨e, he⟩ : ∃ e, t.items.find? (fun e => e.2 == id) = some e :=
    Option.isSome_iff_exists.mp (List.find?_isSome.mpr ⟨_, hm, by simp⟩)
  have hid' : e.2 = id := by simpa using List.find?_some he
  have hmask : e.1 = m := h.mask_unique (show (e.1, id) ∈ t.items from hid' ▸ List.mem_of_find?_eq_some he) hm
  rw [he, Option.map_some, hmask]

/-- The test of a mixed object's function: only the global collector's looks at the tag. -/
def Heap.takes (h : Heap) (c : Column) (v : Word) : Bool := h.inRegion c v && (c != .globalGC || isPtr v)

/-- A mixed object's scan replaces the words of the mask's 1s that pass the test. -/
theorem mem_replaces_column (h : Heap) (hdr : Word) (ws : Nat → Word) (c : Column) (m : Mask) :
    p ∈ (column c m).replaces h hdr ws ↔ m.reverse[p]? = some true ∧ h.takes c (ws p) = true := by
  have hlp : ∀ clauses, (h.act (ws p) clauses).isSome = h.takes c (ws p) →
      (p ∈ (printmystring clauses m).replaces h hdr ws ↔
        m.reverse[p]? = some true ∧ h.takes c (ws p) = true) := by
    intro clauses hact
    unfold printmystring ScanFn.replaces
    simp only [List.mem_map, List.mem_filter, mem_lp]
    constructor
    · grind
    · rintro ⟨hbit, hin⟩
      have hlt : p < m.length := by
        by_contra hge
        rw [List.getElem?_eq_none (by rw [List.length_reverse]; omega)] at hbit
        cases hbit
      rw [List.getElem?_reverse hlt] at hbit
      have hlt' : p < 0 + m.length := by omega
      exact ⟨⟨p, clauses⟩, ⟨⟨rfl, Nat.zero_le _, hlt', by simpa using hbit⟩, hact.trans hin⟩, rfl⟩
  cases c with
  | minorGC =>
    exact hlp _ (by cases hn : h.inNursery (ws p) <;> simp [Heap.act, test, Heap.takes, inRegion, hn])
  | majorGC =>
    exact hlp _ (by
      cases ho : h.inOld (ws p) <;> cases hv : h.inVPHeap (ws p) <;>
        simp [Heap.act, test, Heap.takes, inRegion, ho, hv])
  | globalGC =>
    exact hlp _ (by
      cases hp : isPtr (ws p) <;> cases hf : h.inFromSpace (ws p) <;>
        simp [Heap.act, test, Heap.takes, inRegion, hp, hf])
  | scanGlobalToSpace =>
    exact hlp _ (by cases hv : h.inVPHeap (ws p) <;> simp [Heap.act, test, Heap.takes, inRegion, hv])

theorem Heap.takes_eq {v : Word} (hv : isPtr v = true ∨ ∀ c, h.inRegion c v = false) (c : Column) :
    h.takes c v = h.inRegion c v := by
  unfold Heap.takes
  grind

/-- A vector's scan replaces the addresses that the column's region has. -/
theorem mem_replaces_vector (h : Heap) (hdr : Word) (ws : Nat → Word) (c : Column) :
    p ∈ (vectorFn c).replaces h hdr ws ↔ (p : Int) < getLength hdr ∧ isPtr (ws p) = true ∧ h.inRegion c
      (ws p) = true := by
  have hlen : p ∈ List.range (getLength hdr).toNat ↔ (p : Int) < getLength hdr := by
    rw [List.mem_range]
    omega
  have hact : ∀ clauses, ((h.act (ws p) clauses).isSome = true ↔ isPtr (ws p) = true ∧ h.inRegion c (ws p) = true) →
      (p ∈ (ScanFn.vector clauses).replaces h hdr ws ↔
        (p : Int) < getLength hdr ∧ isPtr (ws p) = true ∧ h.inRegion c (ws p) = true) := by
    intro clauses hact
    rw [ScanFn.replaces, List.mem_filter, hlen, hact]
  cases c with
  | minorGC =>
    exact hact _ (by
      cases hp : isPtr (ws p) <;> cases hn : h.inNursery (ws p) <;> simp [Heap.act, test, inRegion, hp, hn])
  | majorGC =>
    exact hact _ (by
      cases hp : isPtr (ws p) <;> cases ho : h.inOld (ws p) <;> cases hv : h.inVPHeap (ws p) <;>
        simp [Heap.act, test, inRegion, hp, ho, hv])
  | globalGC =>
    exact hact _ (by
      cases hp : isPtr (ws p) <;> cases hf : h.inFromSpace (ws p) <;>
        simp [Heap.act, test, inRegion, hp, hf])
  | scanGlobalToSpace =>
    exact hact _ (by
      cases hp : isPtr (ws p) <;> cases hv : h.inVPHeap (ws p) <;>
        simp [Heap.act, test, inRegion, hp, hv])

/-! ## Agreement -/

/-- What the word of a field may be. -/
def Holds (h : Heap) (w : Word) : Ty → Prop
  | .any | .tuple _ _ | .openTuple _ => isPtr w = true ∨ ∀ c, h.inRegion c w = false
  | .enum _ => isPtr w = false
  | .cfun _ _ => ∀ c, h.inRegion c w = false
  | _ => True

/-- The words from the address of an object are those of its fields. -/
def Conforms (h : Heap) (tys : List Ty) (ws : Nat → Word) : Prop :=
  ∀ i ty off, tys[i]? = some ty → tupleOffset tys i = .ok off → Holds h (ws (off / wordSzB)) ty

/-- The word of a field of heap pointer type. -/
def PtrWord (tys : List Ty) (p : Nat) : Prop :=
  ∃ i ty off, tys[i]? = some ty ∧ isHeapPointer ty = true ∧ tupleOffset tys i = .ok off ∧ p = off / wordSzB

/-- Heap pointers and raw values. -/
def isMixed (tys : List Ty) : Bool := tys.any isHeapPointer && tys.any isRaw

/-- An allocated object and the table it leaves agree with every scan function printed for it. -/
structure Agree (t : HeaderTable) (tys : List Ty) (args : List V) (obj : Obj V) : Prop where
  length : getLength obj.hdr = ((obj.bump / wordSzB - 1 : Nat) : Int)
  scan : ∀ t', t'.Reachable → t.Grows t' → ∀ c, ∃ fn, createtable t' c (getID obj.hdr) = some fn ∧
    fn.advance obj.hdr = getLength obj.hdr ∧
    ∀ h ws, Conforms h tys ws → ∀ p, p ∈ fn.replaces h obj.hdr ws ↔ PtrWord tys p ∧ h.inRegion c (ws p) = true
  stores : obj.stms.length = tys.length
  offsets : ∀ i, i < tys.length → ∃ off v, obj.stms[i]? = some (off, v) ∧ args[i]? = some v ∧
    (∀ isMut, selectOffset (.tuple isMut tys) i = .ok off) ∧ ∀ n, i < n → selectOffset (.openTuple (tys.take n)) i = .ok off
  number : isMixed tys = true → (ptrMask tys, getID obj.hdr) ∈ t.items
  masks : ∀ m m' id, (m, id) ∈ t.items → (m', id) ∈ t.items → m = m'
  predefined : ∀ nElems bits id, HeaderTable.allocNonUniformId nElems bits = some id →
    (maskOfBits nElems bits, id) ∈ t.items

/-- The allocation succeeds and its object agrees. -/
def AllocAgrees (t : HeaderTable) (tys : List Ty) : Prop :=
  ∀ (V : Type) (args : List V), args.length = tys.length →
    ∃ obj t', genAlloc t tys args = .ok (some obj, t') ∧ t'.Reachable ∧ Agree t' tys args obj

/-- No 128-bit vectors and no blocks, a length that fits an `int`, and for a mixed object a mask that has a
    number of at most 15 bits or still gets one. -/
structure Fits (t : HeaderTable) (tys : List Ty) : Prop where
  words : ∀ ty ∈ tys, ty ≠ .raw .vec128
  blocks : ∀ args, Ty.block args ∉ tys
  length : tys.length < 2 ^ 31
  number : isMixed tys = true → (∀ id, t.find (ptrMask tys) = some id → id < 2 ^ 15) ∧
    (t.find (ptrMask tys) = none → t.counter < 2 ^ 15)

/-! ## When they agree -/

theorem sizeOf_take (hw : ∀ ty ∈ tys, ty ≠ .raw .vec128) (hi : i < tys.length) : sizeOf (tys.take i) = 8 * i := by
  rw [sizeOf_eq fun ty hty => hw ty (List.mem_of_mem_take hty), List.length_take, Nat.min_eq_left (Nat.le_of_lt hi)]

theorem tupleOffset_words (hw : ∀ ty ∈ tys, ty ≠ .raw .vec128) (hi : tys[i]? = some ty) :
    tupleOffset tys i = .ok (8 * i) := by
  obtain ⟨hlt, -⟩ := List.getElem?_eq_some_iff.mp hi
  rw [tupleOffset_eq hlt, sizeOf_take hw hlt]

theorem ptrWord_iff (hw : ∀ ty ∈ tys, ty ≠ .raw .vec128) :
    PtrWord tys p ↔ ∃ ty, tys[p]? = some ty ∧ isHeapPointer ty = true := by
  constructor
  · rintro ⟨i, ty, off, hi, hptr, hoff, rfl⟩
    rw [tupleOffset_words hw hi] at hoff
    grind [wordSzB]
  · rintro ⟨ty, hi, hptr⟩
    exact ⟨p, ty, 8 * p, hi, hptr, tupleOffset_words hw hi, by rw [wordSzB, Nat.mul_div_cancel_left _ (by decide)]⟩

theorem Conforms.word {ws : Nat → Word} (hc : Conforms h tys ws) (hw : ∀ ty ∈ tys, ty ≠ .raw .vec128)
    (hp : tys[p]? = some ty) : Holds h (ws p) ty := by
  have hword := hc p ty _ hp (tupleOffset_words hw hp)
  rwa [wordSzB, Nat.mul_div_cancel_left _ (by decide)] at hword

/-- A field of heap pointer type holds an address, or nothing a region has. -/
theorem Holds.ptr {w : Word} (hw : Holds h w ty) (hty : isHeapPointer ty = true) :
    isPtr w = true ∨ ∀ c, h.inRegion c w = false := by
  cases ty <;> first | exact hw | cases hty

/-- A field of uniform representation that is no heap pointer holds no address of a region. -/
theorem Holds.not_region {w : Word} (hw : Holds h w ty) (hb : isBlock ty = false) (hty : isHeapPointer ty = false)
    (hr : isRaw ty = false) : isPtr w = false ∨ ∀ c, h.inRegion c w = false := by
  cases ty with
  | enum w => exact .inl hw
  | cfun ret args => exact .inr hw
  | block args => cases hb
  | any => cases hty
  | tuple | openTuple => cases hty
  | _ => cases hr

/-- The mask of the fields, read from its end. -/
theorem ptrMask_get :
    (ptrMask tys).reverse[p]? = some true ↔ ∃ ty, tys[p]? = some ty ∧ isHeapPointer ty = true := by
  unfold ptrMask
  rw [List.reverse_reverse, List.getElem?_map, Option.map_eq_some_iff]

theorem scan_mixed {t' : HeaderTable} (ht' : t'.Reachable) (hw : ∀ ty ∈ tys, ty ≠ .raw .vec128)
    (hid : (ptrMask tys, id) ∈ t'.items) (hdr : Word) (c : Column) :
    ∃ fn, createtable t' c id = some fn ∧ fn.advance hdr = tys.length ∧ ∀ h ws, Conforms h tys ws → ∀ p,
      p ∈ fn.replaces h hdr ws ↔ PtrWord tys p ∧ h.inRegion c (ws p) = true := by
  refine ⟨_, createtable_eq ht'.numbered hid c, ?_, ?_⟩
  · have hlen : (ptrMask tys).length = tys.length := by rw [ptrMask, List.length_reverse, List.length_map]
    cases c <;> exact congrArg Nat.cast hlen
  · intro h ws hc p
    rw [ptrWord_iff hw, ← ptrMask_get, mem_replaces_column]
    refine and_congr_right fun hbit => ?_
    obtain ⟨ty, hty, hptr⟩ := ptrMask_get.mp hbit
    rw [Heap.takes_eq ((hc.word hw hty).ptr hptr) c]

theorem scan_vector (t' : HeaderTable) (hw : ∀ ty ∈ tys, ty ≠ .raw .vec128) (hb : ∀ ty ∈ tys, isBlock ty = false)
    (hr : tys.any isRaw = false) {hdr : Word} (hlen : getLength hdr = tys.length) (c : Column) :
    ∃ fn, createtable t' c 1 = some fn ∧ fn.advance hdr = tys.length ∧ ∀ h ws, Conforms h tys ws → ∀ p, p
      ∈ fn.replaces h hdr ws ↔ PtrWord tys p ∧ h.inRegion c (ws p) = true := by
  refine ⟨_, rfl, ?_, ?_⟩
  · cases c <;> exact hlen
  · intro h ws hc p
    rw [mem_replaces_vector, hlen, ptrWord_iff hw]
    constructor
    · rintro ⟨hlt, hptr, hin⟩
      have hp : p < tys.length := by omega
      have hget := List.getElem?_eq_getElem hp
      have hmem := List.getElem_mem hp
      have hraw : isRaw tys[p] = false := Bool.eq_false_iff.mpr (List.any_eq_false.mp hr _ hmem)
      cases hty : isHeapPointer tys[p] with
      | true => exact ⟨⟨_, hget, hty⟩, hin⟩
      | false =>
        rcases (hc.word hw hget).not_region (hb _ hmem) hty hraw with h1 | h1
        · exact absurd (hptr.symm.trans h1) (by decide)
        · exact absurd (hin.symm.trans (h1 c)) (by decide)
    · rintro ⟨⟨ty, hget, hty⟩, hin⟩
      obtain ⟨hp, -⟩ := List.getElem?_eq_some_iff.mp hget
      rcases (hc.word hw hget).ptr hty with h1 | h1
      · exact ⟨by omega, h1, hin⟩
      · exact absurd (hin.symm.trans (h1 c)) (by decide)

theorem scan_raw (t' : HeaderTable) (hw : ∀ ty ∈ tys, ty ≠ .raw .vec128) (hp : tys.any isHeapPointer = false)
    {hdr : Word} (hlen : getLength hdr = tys.length) (c : Column) :
    ∃ fn, createtable t' c 0 = some fn ∧ fn.advance hdr = tys.length ∧ ∀ h ws, Conforms h tys ws → ∀ p, p
      ∈ fn.replaces h hdr ws ↔ PtrWord tys p ∧ h.inRegion c (ws p) = true := by
  refine ⟨_, rfl, hlen, fun h ws _ p => ?_⟩
  constructor
  · intro hmem
    cases hmem
  grind [ptrWord_iff]

/-- What is left to show for an object whose header has a number that fits. -/
theorem agree_of (ht : t.Reachable) (hw : ∀ ty ∈ tys, ty ≠ .raw .vec128) (hlen : tys.length < 2 ^ 31)
    {args : List V} (hargs : args.length = tys.length) (hid : id < 2 ^ 15)
    (hscan : ∀ t', t'.Reachable → t.Grows t' → ∀ c, ∃ fn, createtable t' c id = some fn ∧ fn.advance (mixedHdr id tys.length) = tys.length ∧ ∀ h ws, Conforms h tys ws → ∀ p, p ∈ fn.replaces h (mixedHdr id tys.length) ws ↔ PtrWord tys p ∧ h.inRegion c (ws p) = true)
    (hnum : isMixed tys = true → (ptrMask tys, id) ∈ t.items) :
    Agree t tys args ⟨sizeOf tys, mixedHdr id tys.length, layout (tys.zip args) 0⟩ := by
  have hgl : getLength (mixedHdr id tys.length) = tys.length := by
    rw [getLength_mixedHdr hid]
    exact (toInt_ofNat_eq_iff _).mpr hlen
  have hgi : getID (mixedHdr id tys.length) = id := by
    rw [ParallelRt.getID_mixedHdr]
    exact Nat.mod_eq_of_lt hid
  have hfst : (tys.zip args).map Prod.fst = tys := List.map_fst_zip (Nat.le_of_eq hargs.symm)
  refine ⟨?_, ?_, ?_, ?_, ?_, fun m m' id => ht.numbered.mask_unique, fun _ _ _ => HeaderTable.allocNonUniformId_mask ht⟩
  · show getLength (mixedHdr id tys.length) = (((sizeOf tys + wordSzB) / wordSzB - 1 : Nat) : Int)
    rw [hgl, sizeOf_eq hw, wordSzB]
    omega
  · simp_all
  · grind [layout_length]
  · intro i hi
    refine ⟨sizeOf (tys.take i), args[i], ?_, List.getElem?_eq_getElem _, fun _ => tupleOffset_eq hi, fun n hn => ?_⟩
    · grind [layout_get]
    · show tupleOffset (tys.take n) i = _
      rw [tupleOffset_eq (by rw [List.length_take]; omega), List.take_take, Nat.min_eq_left (by omega)]
  simp_all

theorem genAlloc_eq (t : HeaderTable) (hne : tys ≠ []) {args : List V} (hargs : args.length = tys.length) :
    genAlloc t tys args = (alloc t (tys.zip args)).map fun r => (some r.1, r.2) := by
  unfold genAlloc
  rw [if_neg (by simpa using hne), if_pos hargs.symm]
  cases alloc t (tys.zip args) <;> rfl

theorem isBlock_iff (ty : Ty) : isBlock ty = true ↔ ∃ args, ty = .block args := by
  cases ty <;> simp [isBlock]

/-- The number the mask of a mixed object gets fits. -/
theorem Fits.number_lt (h : Fits t tys) (hm : isMixed tys = true) : (t.addHdr (ptrMask tys)).1 < 2 ^ 15 := by
  obtain ⟨hold, hnew⟩ := h.number hm
  grind [addHdr]

theorem fits_agrees (ht : t.Reachable) (hne : tys ≠ []) (h : Fits t tys) : AllocAgrees t tys := by
  intro V args hargs
  have hfst : (tys.zip args).map Prod.fst = tys := List.map_fst_zip (Nat.le_of_eq hargs.symm)
  have hzip : (tys.zip args).length = tys.length := by rw [List.length_zip, hargs, Nat.min_self]
  have hb : ∀ ty ∈ tys, isBlock ty = false := by
    intro ty hty
    rw [Bool.eq_false_iff, Ne, isBlock_iff]
    rintro ⟨as, rfl⟩
    exact h.blocks as hty
  have hlen : ∀ {id}, id < 2 ^ 15 → getLength (mixedHdr id tys.length) = tys.length := fun hid =>
    (getLength_mixedHdr hid _).trans ((toInt_ofNat_eq_iff _).mpr h.length)
  rw [genAlloc_eq t hne hargs, alloc_eq t fun a ha => hb _ (List.of_mem_zip (a := a.1) (b := a.2) ha).1, hfst, hzip]
  cases hp : tys.any isHeapPointer with
  | false =>
    refine ⟨_, _, rfl, ht, agree_of ht h.words h.length hargs (by decide) ?_ ?_⟩
    · intro t' _ _ c
      exact scan_raw t' h.words hp (hlen (by decide)) c
    · intro hm
      rw [isMixed, hp, Bool.false_and] at hm
      cases hm
  | true =>
    cases hr : tys.any isRaw with
    | false =>
      refine ⟨_, _, rfl, ht, agree_of ht h.words h.length hargs (by decide) ?_ ?_⟩
      · intro t' _ _ c
        exact scan_vector t' h.words hb hr (hlen (by decide)) c
      · intro hm
        rw [isMixed, hr, Bool.and_false] at hm
        cases hm
    | true =>
      have hm : isMixed tys = true := by rw [isMixed, hp, hr, Bool.and_self]
      have hsz : ¬ sizeOf tys > maxObjectSzB := by
        have hn := h.length
        rw [sizeOf_eq h.words, maxObjectSzB]
        omega
      rw [if_pos rfl, if_pos rfl, if_neg hsz]
      refine ⟨_, _, rfl, ht.add _, agree_of (ht.add _) h.words h.length hargs (h.number_lt hm) ?_ ?_⟩
      · intro t' ht' hg c
        exact scan_mixed ht' h.words (hg.subset (addHdr_mem t _)) _ c
      · intro _
        exact addHdr_mem t _

/-- A header whose number fits tells the number of words only when each field is one. -/
theorem words_of_length (hid : id < 2 ^ 15)
    (h : getLength (mixedHdr id tys.length) = (((sizeOf tys + wordSzB) / wordSzB - 1 : Nat) : Int)) :
    tys.length < 2 ^ 31 ∧ ∀ ty ∈ tys, ty ≠ .raw .vec128 := by
  obtain ⟨hge, hwords⟩ := sizeOf_ge tys
  have hlt := BitVec.toInt_lt (x := BitVec.ofNat 32 tys.length)
  rw [getLength_mixedHdr hid] at h
  rw [h, wordSzB] at hlt
  grind [toInt_ofNat_eq_iff, wordSzB]

theorem agrees_fits (hne : tys ≠ []) (h : AllocAgrees t tys) : Fits t tys := by
  have hargs : (List.replicate tys.length ()).length = tys.length := List.length_replicate
  obtain ⟨obj, t', hok, ht', hagree⟩ := h Unit _ hargs
  rw [genAlloc_eq t hne hargs] at hok
  generalize List.replicate tys.length () = args at hargs hok hagree
  have hfst : (tys.zip args).map Prod.fst = tys := List.map_fst_zip (Nat.le_of_eq hargs.symm)
  have hzip : (tys.zip args).length = tys.length := by rw [List.length_zip, hargs, Nat.min_self]
  have hb : ∀ a ∈ tys.zip args, isBlock a.1 = false := by
    intro a ha
    cases hbl : isBlock a.1 with
    | false => rfl
    | true =>
      rw [alloc, classify_block _ _ ha hbl] at hok
      cases hok
  have hblocks : ∀ as, Ty.block as ∉ tys := by
    intro as hmem
    obtain ⟨a, ha, he⟩ := List.mem_map.mp (hfst ▸ hmem)
    have hbl := hb a ha
    rw [he] at hbl
    cases hbl
  have hlength := hagree.length
  rw [alloc_eq t hb, hfst, hzip] at hok
  cases hp : tys.any isHeapPointer with
  | false =>
    rw [hp] at hok
    cases hok
    obtain ⟨hlen, hw⟩ := words_of_length (by decide) hlength
    refine ⟨hw, hblocks, hlen, fun hm => ?_⟩
    rw [isMixed, hp, Bool.false_and] at hm
    cases hm
  | true =>
    cases hr : tys.any isRaw with
    | false =>
      rw [hp, hr] at hok
      cases hok
      obtain ⟨hlen, hw⟩ := words_of_length (by decide) hlength
      refine ⟨hw, hblocks, hlen, fun hm => ?_⟩
      rw [isMixed, hr, Bool.and_false] at hm
      cases hm
    | true =>
      have hm : isMixed tys = true := by rw [isMixed, hp, hr, Bool.and_self]
      rw [hp, hr, if_pos rfl, if_pos rfl] at hok
      split at hok
      · cases hok
      cases hok
      have hnum := ht'.numbered.id_unique (addHdr_mem t (ptrMask tys)) (hagree.number hm)
      have hid : (t.addHdr (ptrMask tys)).1 < 2 ^ 15 := by
        rw [hnum]
        exact getID_lt _
      obtain ⟨hlen, hw⟩ := words_of_length hid hlength
      refine ⟨hw, hblocks, hlen, fun _ => ⟨fun id hfind => ?_, fun hfind => ?_⟩⟩
      · rw [addHdr, hfind] at hid
        exact hid
      · rw [addHdr, hfind] at hid
        exact hid

/-- Header, layout and scan functions agree exactly when the fields fit. -/
theorem agrees_iff {t : HeaderTable} (ht : t.Reachable) {tys : List Ty} (hne : tys ≠ []) :
    AllocAgrees t tys ↔ Fits t tys :=
  ⟨agrees_fits hne, fits_agrees ht hne⟩

/-- A heap pointer and a long, whose mask the C allocators share. -/
theorem agrees_pair : AllocAgrees header [.any, .raw .long] :=
  (agrees_iff .init (by simp)).mpr
    { words := by simp
      blocks := by simp
      length := by decide
      number := fun _ => ⟨fun id h => by cases h.symm.trans (show _ = some 4 from by decide); decide, fun _ => by decide⟩ }

/-- A 128-bit vector before a heap pointer: the header counts two words where there are three. -/
theorem not_agrees_vec128 : ¬ AllocAgrees header [.raw .vec128, .any] := by
  intro h
  exact (agrees_fits (by simp) h).words _ (List.mem_cons_self ..) rfl

end Manticore.Codegen
