/-
  Manticore.Scheduler.WorkStealingDeque — the circular buffer under the work-stealing
  scheduler (lib/basis/scheduler/work-stealing-deque.pml) and its allocation in the C heap
  (`DequeAlloc`, lib/parallel-rt/gc/work-stealing-deque.c).

  `old` is the index of the oldest element, `new` the index right of the newest one; one
  slot stays open, so that equal indices mean empty. Every operation checks its indices
  (`checkDeque`, `assertInBounds`, `assertPtr`); a failed assertion is `Fault.assertion`.

  `DequeAlloc` computes the chunk's size in 32 bits and aligns the chunk to the next power
  of two, with `1 << CeilingLg (dequeSzB)` on an int. A chunk of more than 2^31 bytes has no
  such power in 32 bits (`Fault.shift`), and one of 2^32 bytes or more is cut short, so that
  the loop that clears the slots runs past its end (`Fault.memory`).

  Proved: from an empty deque of `size` slots, a sequence of operations that pushes only on
  a deque that is not full does what the same sequence does to a list, with every index in
  bounds and every live slot kept, if and only if `1 ≤ size` and the largest chunk the
  sequence allocates has at most 2^31 bytes (`deque_refines_list`). Doubling a deque of 2^27
  slots fails (`double_overflows`).
-/

import Manticore.Library.Fuel

namespace Manticore.Scheduler.WorkStealingDeque

open Fuel

inductive Fault where
  | assertion
  /-- A C access outside the allocated chunk. -/
  | memory
  /-- A C shift by the width of its operand. -/
  | shift
  | fuel
  deriving DecidableEq, Repr

/-- `struct Deque_s`; `none` is DEQUE_NIL_ELT. -/
structure Deque (α : Type) where
  old : Int
  new : Int
  maxSz : Int
  nClaimed : Int
  elts : Int → Option α

variable {α : Type}

/-! ## Allocation -/

/-- A line of `FloorLg`: `if (n >= 1<<k) { n >>= k; pos += k; }`. -/
def lgStep (k : Nat) (s : Nat × Nat) : Nat × Nat := if s.1 ≥ 2 ^ k then (s.1 / 2 ^ k, s.2 + k) else s

/-- `FloorLg`, on an unsigned 32-bit integer. -/
def FloorLg (n : Nat) : Nat :=
  let s := lgStep 1 (lgStep 2 (lgStep 4 (lgStep 8 (lgStep 16 (n, 0)))))
  if s.1 = 0 then 2 ^ 32 - 1 else s.2

/-- `CeilingLg`. -/
def CeilingLg (v : Nat) : Nat :=
  let lg := FloorLg v
  lg + if v - 2 ^ lg > 0 then 1 else 0

/-- `sizeof (Deque_t) + sizeof (Value_t) * ((uint32_t)size - 1)` as a `uint32_t`. -/
def dequeSzB (size : Int) : Nat := ((24 + 8 * ((size - 1) % 2 ^ 32)) % 2 ^ 32).toNat

/-- `DequeAlloc`. -/
def DequeAlloc (size : Int) : Except Fault (Deque α) :=
  -- the alignment 1 << CeilingLg (dequeSzB) is undefined from 32 on
  if CeilingLg (dequeSzB size) ≥ 32 then .error .shift
  -- the header takes 16 bytes, and each of the size slots is cleared
  else if (dequeSzB size : Int) < 16 ∨ (dequeSzB size : Int) < 16 + 8 * size then .error .memory
  else .ok { old := 0, new := 0, maxSz := size, nClaimed := 1, elts := fun _ => none }

/-! ## The operations -/

def assert (p : Prop) [Decidable p] : Except Fault Unit := if p then .ok () else .error .assertion

namespace Deque

def size (deq : Deque α) : Int :=
  if deq.old ≤ deq.new then deq.new - deq.old else deq.maxSz - deq.old + deq.new

def assertInBounds (deq : Deque α) (i : Int) : Except Fault Unit := do
  assert (i ≥ 0)
  assert (i < deq.maxSz)
  if deq.old ≤ deq.new then
    assert (i ≥ deq.old)
    assert (i < deq.new)
  else if i > deq.new then assert (i ≥ deq.old)
  else if i = deq.new then .error .assertion
  else assert (i < deq.new)

/-- `@assert-ptr`: the byte offset `I32LSh (i, 3)` is the one of `elts[i]`. -/
def assertPtr (i : Int) : Except Fault Unit := assert (Int.bmod (8 * i) (2 ^ 32) = 8 * i)

def update (deq : Deque α) (i : Int) (elt : Option α) : Except Fault (Deque α) := do
  deq.assertInBounds i
  assertPtr i
  .ok { deq with elts := fun j => if j = i then elt else deq.elts j }

def sub (deq : Deque α) (i : Int) : Except Fault (Option α) := do
  deq.assertInBounds i
  assertPtr i
  .ok (deq.elts i)

def checkDeque (deq : Deque α) : Except Fault Unit := do
  assert (deq.new ≥ 0)
  assert (deq.old ≥ 0)
  assert (deq.new < deq.maxSz)
  assert (deq.old < deq.maxSz)

def moveLeft (i sz : Int) : Int := if i ≤ 0 then sz - 1 else i - 1

def moveRight (i sz : Int) : Int := if i ≥ sz - 1 then 0 else i + 1

def isEmpty (deq : Deque α) : Bool := deq.new = deq.old

def isFull (deq : Deque α) : Bool := deq.size ≥ deq.maxSz - 1

/-- `@push-new-end-in-atomic`. Precondition: the deque is not full. -/
def pushNewEnd (deq : Deque α) (elt : Option α) : Except Fault (Deque α) := do
  assert (deq.nClaimed > 0)
  deq.checkDeque
  assert (elt ≠ none)
  let new := deq.new
  let deq := { deq with new := moveRight deq.new deq.maxSz }
  let deq ← deq.update new elt
  deq.checkDeque
  .ok deq

/-- `@pop-new-end-in-atomic`. -/
def popNewEnd (deq : Deque α) : Except Fault (Deque α × Option (Option α)) := do
  assert (deq.nClaimed > 0)
  deq.checkDeque
  if deq.isEmpty then .ok (deq, none)
  else
    let newL := moveLeft deq.new deq.maxSz
    let elt ← deq.sub newL
    let deq ← deq.update newL none
    let deq := { deq with new := newL }
    deq.checkDeque
    assert (elt ≠ none)
    .ok (deq, some elt)

/-- `@pop-old-end-in-atomic`. -/
def popOldEnd (deq : Deque α) : Except Fault (Deque α × Option (Option α)) := do
  assert (deq.nClaimed > 0)
  deq.checkDeque
  if deq.isEmpty then .ok (deq, none)
  else
    let old := deq.old
    let elt ← deq.sub old
    let deq ← deq.update old none
    let deq := { deq with old := moveRight deq.old deq.maxSz }
    deq.checkDeque
    .ok (deq, some elt)

/-- `@release-in-atomic`. -/
def release (deq : Deque α) : Except Fault (Deque α) := do
  assert (deq.nClaimed > 0)
  .ok { deq with nClaimed := deq.nClaimed - 1 }

/-- The loop `copy` of `@double-size-in-atomic`. -/
def copy : Nat → Deque α → Deque α → Except Fault (Deque α × Deque α)
  | 0, _, _ => .error .fuel
  | n + 1, deq, newDeque => do
    let (deq, elt) ← deq.popOldEnd
    match elt with
    | none => .ok (deq, newDeque)
    | some elt => do
      let newDeque ← newDeque.pushNewEnd elt
      copy n deq newDeque

/-- `@double-size-in-atomic`: the fresh deque. -/
def doubleSize (n : Nat) (deq : Deque α) : Except Fault (Deque α) := do
  assert (deq.nClaimed > 0)
  let newDeque ← DequeAlloc (Int.bmod (deq.maxSz * 2) (2 ^ 32))
  let (deq, newDeque) ← copy n deq newDeque
  let _ ← deq.release
  .ok newDeque

/-- `@to-list-in-atomic`: the elements from the oldest to the youngest. -/
def toList : Nat → Deque α → Except Fault (Deque α × List (Option α))
  | 0, _ => .error .fuel
  | n + 1, deq => do
    let (deq, thd) ← deq.popOldEnd
    match thd with
    | none => .ok (deq, [])
    | some thd => do
      let (deq, rest) ← toList n deq
      .ok (deq, thd :: rest)

/-- `@add-list-in-atomic`. -/
def addList (deq : Deque α) (thds : List (Option α)) : Except Fault (Deque α) := appM pushNewEnd deq thds

end Deque

/-! ## Sequences of operations -/

inductive Op (α : Type) where
  | pushNewEnd (elt : α)
  | popNewEnd
  | popOldEnd
  | doubleSize
  | addList (thds : List α)
  | toList
  deriving DecidableEq, Repr

/-- What an operation hands back. -/
inductive Out (α : Type) where
  | unit
  | popped (elt : Option (Option α))
  | list (thds : List (Option α))
  deriving DecidableEq, Repr

def Op.exec (n : Nat) (deq : Deque α) : Op α → Except Fault (Deque α × Out α)
  | .pushNewEnd elt => do .ok (← deq.pushNewEnd (some elt), .unit)
  | .popNewEnd => do
    let (deq, r) ← deq.popNewEnd
    .ok (deq, .popped r)
  | .popOldEnd => do
    let (deq, r) ← deq.popOldEnd
    .ok (deq, .popped r)
  | .doubleSize => do .ok (← deq.doubleSize n, .unit)
  | .addList thds => do .ok (← deq.addList (thds.map some), .unit)
  | .toList => do
    let (deq, thds) ← deq.toList n
    .ok (deq, .list thds)

def execAll (n : Nat) : Deque α → List (Op α) → Except Fault (Deque α × List (Out α))
  | deq, [] => .ok (deq, [])
  | deq, op :: ops => do
    let (deq, out) ← op.exec n deq
    let (deq, outs) ← execAll n deq ops
    .ok (deq, out :: outs)

/-- A deque of `size` slots is allocated and worked on. -/
def run (n : Nat) (size : Int) (ops : List (Op α)) : Except Fault (Deque α × List (Out α)) := do
  execAll n (← DequeAlloc size) ops

/-! ## The double-ended list -/

/-- The elements from the oldest to the newest, and the slots of the deque that holds them. -/
structure DList (α : Type) where
  elems : List α
  cap : Int

def DList.apply (s : DList α) : Op α → DList α × Out α
  | .pushNewEnd elt => ({ s with elems := s.elems ++ [elt] }, .unit)
  | .popNewEnd => ({ s with elems := s.elems.dropLast }, .popped (s.elems.getLast?.map some))
  | .popOldEnd => ({ s with elems := s.elems.tail }, .popped (s.elems.head?.map some))
  | .doubleSize => ({ s with cap := s.cap * 2 }, .unit)
  | .addList thds => ({ s with elems := s.elems ++ thds }, .unit)
  | .toList => ({ s with elems := [] }, .list (s.elems.map some))

def DList.applyAll (s : DList α) : List (Op α) → DList α × List (Out α)
  | [] => (s, [])
  | op :: ops =>
    let (s, out) := s.apply op
    let (s, outs) := s.applyAll ops
    (s, out :: outs)

/-- Elements are pushed only on a deque that is not full. -/
def DList.Room (s : DList α) : Op α → Prop
  | .pushNewEnd _ => s.elems.length < s.cap - 1
  | .addList thds => thds = [] ∨ s.elems.length + thds.length < s.cap
  | _ => True

instance (s : DList α) [DecidableEq α] : (op : Op α) → Decidable (s.Room op)
  | .pushNewEnd _ => inferInstanceAs (Decidable (_ < _))
  | .addList _ => inferInstanceAs (Decidable (_ ∨ _))
  | .popNewEnd | .popOldEnd | .doubleSize | .toList => inferInstanceAs (Decidable True)

def DList.Allowed (s : DList α) : List (Op α) → Prop
  | [] => True
  | op :: ops => s.Room op ∧ (s.apply op).1.Allowed ops

/-- The elements an operation pushes. -/
def Op.pushed : Op α → List α
  | .pushNewEnd elt => [elt]
  | .addList thds => thds
  | _ => []

/-- The elements an operation hands out. -/
def Out.popped? : Out α → List (Option α)
  | .unit => []
  | .popped elt => elt.toList
  | .list thds => thds

/-! ## What an allocation needs -/

/-- The chunk of `size` slots has a size and an alignment in 32 bits. -/
def ChunkFits (size : Int) : Prop := 1 ≤ size ∧ 16 + 8 * size ≤ 2 ^ 31

/-- What `FloorLg` keeps of `v`: the bits of `v` above the lowest `s.2` ones. -/
private structure Bits (v : Nat) (s : Nat × Nat) : Prop where
  pos : 1 ≤ s.1
  low : s.1 * 2 ^ s.2 ≤ v
  high : v < (s.1 + 1) * 2 ^ s.2

private theorem Bits.step {v : Nat} {s : Nat × Nat} (h : Bits v s) (k : Nat) : Bits v (lgStep k s) := by
  unfold lgStep
  split
  · next hge =>
    have hdiv : s.1 / 2 ^ k * 2 ^ k ≤ s.1 := Nat.div_mul_le_self _ _
    have hlt : s.1 < (s.1 / 2 ^ k + 1) * 2 ^ k := by
      have := Nat.lt_div_mul_add (a := s.1) (Nat.two_pow_pos k)
      rw [Nat.add_mul]
      omega
    have hpow : (2 : Nat) ^ (s.2 + k) = 2 ^ k * 2 ^ s.2 := by rw [Nat.pow_add, Nat.mul_comm]
    refine ⟨Nat.div_pos hge (Nat.two_pow_pos k), ?_, ?_⟩
    · rw [hpow, ← Nat.mul_assoc]
      exact Nat.le_trans (Nat.mul_le_mul_right _ hdiv) h.low
    · rw [hpow, ← Nat.mul_assoc]
      exact Nat.lt_of_lt_of_le h.high (Nat.mul_le_mul_right _ hlt)
  · exact h

private theorem lgStep_lt {s : Nat × Nat} {k : Nat} (h : s.1 < 2 ^ (k + k)) : (lgStep k s).1 < 2 ^ k := by
  unfold lgStep
  split
  · exact Nat.div_lt_of_lt_mul (by rwa [← Nat.pow_add])
  · omega

theorem FloorLg_spec {v : Nat} (h1 : 1 ≤ v) (h32 : v < 2 ^ 32) : 2 ^ FloorLg v ≤ v ∧ v < 2 ^ (FloorLg v + 1) := by
  have h0 : Bits v (v, 0) := ⟨h1, by simp, by simp⟩
  have hb := ((((h0.step 16).step 8).step 4).step 2).step 1
  have hlt : (lgStep 1 (lgStep 2 (lgStep 4 (lgStep 8 (lgStep 16 (v, 0)))))).1 < 2 ^ 1 :=
    lgStep_lt (lgStep_lt (lgStep_lt (lgStep_lt (lgStep_lt h32))))
  unfold FloorLg
  generalize lgStep 1 (lgStep 2 (lgStep 4 (lgStep 8 (lgStep 16 (v, 0))))) = s at hb hlt
  have hone : s.1 = 1 := by have := hb.pos; omega
  have hlow := hb.low
  have hhigh := hb.high
  rw [hone] at hlow hhigh
  simp only [hone, Nat.one_ne_zero, if_false, Nat.pow_succ]
  omega

/-- The alignment is a power of two in 32 bits. -/
theorem CeilingLg_lt {v : Nat} (h1 : 1 ≤ v) (h32 : v < 2 ^ 32) : CeilingLg v < 32 ↔ v ≤ 2 ^ 31 := by
  obtain ⟨hlow, hhigh⟩ := FloorLg_spec h1 h32
  have hlg : FloorLg v < 32 := (Nat.pow_lt_pow_iff_right (by omega)).1 (Nat.lt_of_le_of_lt hlow h32)
  have heq : FloorLg v = 31 ∨ FloorLg v < 31 := by omega
  unfold CeilingLg
  rcases heq with heq | hlt
  · simp only [heq]
    split <;> omega
  · have hp : 2 ^ (FloorLg v + 1) ≤ 2 ^ 31 := Nat.pow_le_pow_right (by omega) hlt
    simp only
    split <;> omega

theorem dequeSzB_eq (size : Int) : (dequeSzB size : Int) = (16 + 8 * size) % 2 ^ 32 := by
  unfold dequeSzB
  omega

/-- A fresh deque is what `DequeAlloc` hands out for a chunk that fits. -/
theorem DequeAlloc_ok {size : Int} (h : ChunkFits size) :
    DequeAlloc size = .ok { old := 0, new := 0, maxSz := size, nClaimed := 1, elts := fun _ => (none : Option α) } := by
  have heq := dequeSzB_eq size
  obtain ⟨h1, h2⟩ := h
  have hlt := (CeilingLg_lt (v := dequeSzB size) (by omega) (by omega)).2 (by omega)
  unfold DequeAlloc
  rw [if_neg (by omega), if_neg (by omega)]

/-- A chunk that does not fit is not handed out, unless the deque has no slot at all. -/
theorem fits_of_alloc {size : Int} {deq : Deque α} (h : DequeAlloc size = .ok deq) (h1 : 1 ≤ size) : ChunkFits size := by
  have heq := dequeSzB_eq size
  unfold DequeAlloc at h
  split at h
  · cases h
  · next hlg =>
    split at h
    · cases h
    · next hsz =>
      have := (CeilingLg_lt (v := dequeSzB size) (by omega) (by omega)).1 (by omega)
      exact ⟨h1, by omega⟩

/-! ## Indices -/

namespace Deque

/-- The slot `k` places right of the oldest element. -/
def slot (deq : Deque α) (k : Int) : Int :=
  if deq.old + k < deq.maxSz then deq.old + k else deq.old + k - deq.maxSz

/-- The indices lie inside the buffer, and the buffer in its chunk. -/
structure Inside (deq : Deque α) : Prop where
  old : 0 ≤ deq.old ∧ deq.old < deq.maxSz
  new : 0 ≤ deq.new ∧ deq.new < deq.maxSz
  chunk : 16 + 8 * deq.maxSz ≤ 2 ^ 31

section
variable {deq : Deque α}

@[simp] theorem assert_of {p : Prop} [Decidable p] (h : p) : assert p = .ok () := if_pos h

theorem Inside.withElts (h : deq.Inside) (f : Int → Option α) : Inside { deq with elts := f } :=
  ⟨h.old, h.new, h.chunk⟩

theorem size_bounds (h : deq.Inside) : 0 ≤ deq.size ∧ deq.size < deq.maxSz := by
  obtain ⟨⟨_, _⟩, ⟨_, _⟩, _⟩ := h
  unfold size
  split <;> omega

theorem slot_bounds (h : deq.Inside) {k : Int} (h0 : 0 ≤ k) (hk : k < deq.maxSz) :
    0 ≤ deq.slot k ∧ deq.slot k < deq.maxSz := by
  obtain ⟨⟨_, _⟩, _, _⟩ := h
  unfold slot
  split <;> omega

/-- Two places of the buffer are two slots. -/
theorem slot_ne (h : deq.Inside) {j k : Int} (hj : 0 ≤ j) (hjk : j < k) (hk : k < deq.maxSz) :
    deq.slot j ≠ deq.slot k := by
  obtain ⟨⟨_, _⟩, _, _⟩ := h
  unfold slot
  split <;> split <;> omega

theorem slot_zero (h : deq.Inside) : deq.slot 0 = deq.old := by
  obtain ⟨⟨_, _⟩, _, _⟩ := h
  unfold slot
  split <;> omega

theorem slot_size (h : deq.Inside) : deq.slot deq.size = deq.new := by
  obtain ⟨⟨_, _⟩, ⟨_, _⟩, _⟩ := h
  unfold slot size
  split <;> split <;> omega

theorem moveLeft_new (h : deq.Inside) (h1 : 1 ≤ deq.size) : moveLeft deq.new deq.maxSz = deq.slot (deq.size - 1) := by
  obtain ⟨⟨_, _⟩, ⟨_, _⟩, _⟩ := h
  unfold moveLeft slot
  unfold size at h1 ⊢
  grind

theorem isEmpty_iff (h : deq.Inside) : deq.isEmpty = true ↔ deq.size = 0 := by
  obtain ⟨⟨_, _⟩, ⟨_, _⟩, _⟩ := h
  unfold isEmpty size
  rw [decide_eq_true_iff]
  split <;> omega

theorem checkDeque_ok (h : deq.Inside) : deq.checkDeque = .ok () := by
  obtain ⟨⟨h1, h2⟩, ⟨h3, h4⟩, _⟩ := h
  simp only [checkDeque, assert_of h1, assert_of h2, assert_of h3, assert_of h4, ge_iff_le, ok_bind]

theorem assertInBounds_ok (h : deq.Inside) {k : Int} (h0 : 0 ≤ k) (hk : k < deq.size) :
    deq.assertInBounds (deq.slot k) = .ok () := by
  obtain ⟨hge, hlt⟩ := slot_bounds h h0 (Int.lt_trans hk (size_bounds h).2)
  have hslot : deq.slot k = deq.old + k ∧ deq.old + k < deq.maxSz ∨
      deq.slot k = deq.old + k - deq.maxSz ∧ deq.maxSz ≤ deq.old + k := by
    unfold slot
    split <;> omega
  obtain ⟨⟨_, _⟩, ⟨_, _⟩, _⟩ := h
  unfold assertInBounds
  rw [assert_of hge, assert_of hlt, ok_bind, ok_bind]
  generalize deq.slot k = i at hge hlt hslot
  unfold size at hk
  split
  · next hle =>
    rw [if_pos hle] at hk
    rw [assert_of (by omega), assert_of (by omega), ok_bind]
  · next hwrap =>
    rw [if_neg hwrap] at hk
    split
    · exact assert_of (by omega)
    · rw [if_neg (by omega), assert_of (by omega)]

theorem assertPtr_ok (h : deq.Inside) {i : Int} (h0 : 0 ≤ i) (hi : i < deq.maxSz) : assertPtr i = .ok () := by
  have := h.chunk
  refine assert_of ?_
  rw [Int.bmod_def]
  omega

theorem sub_ok (h : deq.Inside) {k : Int} (h0 : 0 ≤ k) (hk : k < deq.size) :
    deq.sub (deq.slot k) = .ok (deq.elts (deq.slot k)) := by
  obtain ⟨hge, hlt⟩ := slot_bounds h h0 (Int.lt_trans hk (size_bounds h).2)
  rw [sub, assertInBounds_ok h h0 hk, ok_bind, assertPtr_ok h hge hlt, ok_bind]

theorem update_ok (h : deq.Inside) {k : Int} (h0 : 0 ≤ k) (hk : k < deq.size) (elt : Option α) :
    deq.update (deq.slot k) elt = .ok { deq with elts := fun j => if j = deq.slot k then elt else deq.elts j } := by
  obtain ⟨hge, hlt⟩ := slot_bounds h h0 (Int.lt_trans hk (size_bounds h).2)
  rw [update, assertInBounds_ok h h0 hk, ok_bind, assertPtr_ok h hge hlt, ok_bind]

end

/-! ## The deque and the list it stands for -/

/-- The deque holds the elements of the list, oldest first, from `old` on. -/
structure Holds (deq : Deque α) (s : DList α) : Prop where
  inside : deq.Inside
  size : deq.size = s.elems.length
  live : ∀ k : Nat, k < s.elems.length → deq.elts (deq.slot k) = s.elems[k]?
  cap : deq.maxSz = s.cap
  claimed : 0 < deq.nClaimed

section
variable {deq : Deque α} {s : DList α}

theorem fresh_holds {size : Int} (h : ChunkFits size) :
    Holds { old := 0, new := 0, maxSz := size, nClaimed := 1, elts := fun _ => (none : Option α) } ⟨[], size⟩ where
  inside := ⟨⟨Int.le_refl 0, h.1⟩, ⟨Int.le_refl 0, h.1⟩, h.2⟩
  size := by simp [Deque.size]
  live := by intro k hk; cases hk
  cap := rfl
  claimed := Int.one_pos

theorem pushNewEnd_holds (h : deq.Holds s) (hroom : s.elems.length < s.cap - 1) (elt : α) :
    ∃ deq', deq.pushNewEnd (some elt) = .ok deq' ∧ Holds deq' { s with elems := s.elems ++ [elt] } := by
  obtain ⟨hin, hsz, hlive, hcap, hcl⟩ := h
  have hin' := hin
  obtain ⟨⟨_, _⟩, ⟨_, _⟩, _⟩ := hin'
  -- the window after `new` has been stored takes in the slot to be written
  let deq₁ : Deque α := { deq with new := moveRight deq.new deq.maxSz }
  have hin₁ : deq₁.Inside := by
    refine ⟨hin.old, ?_, hin.chunk⟩
    simp only [deq₁, moveRight]
    split <;> omega
  have hsz₁ : deq₁.size = deq.size + 1 := by
    unfold Deque.size at hsz ⊢
    simp only [deq₁, moveRight]
    grind
  have hnew : deq.new = deq₁.slot deq.size := (slot_size hin).symm
  have hup := update_ok hin₁ (k := deq.size) (size_bounds hin).1 (by omega) (some elt)
  refine ⟨{ deq₁ with elts := fun j => if j = deq₁.slot deq.size then some elt else deq₁.elts j }, ?_,
    ?inside, ?size, ?live, hcap, hcl⟩
  · unfold pushNewEnd
    rw [assert_of (by exact hcl), ok_bind, checkDeque_ok hin, ok_bind, assert_of (by simp), ok_bind]
    show (do let deq ← deq₁.update deq.new (some elt); deq.checkDeque; .ok deq) = _
    rw [hnew, hup, ok_bind, checkDeque_ok (hin₁.withElts _), ok_bind]
  case inside => exact hin₁.withElts _
  case size =>
    show deq₁.size = _
    rw [hsz₁, hsz, List.length_append]
    rfl
  case live =>
    intro k hk
    rw [List.length_append, List.length_singleton] at hk
    show (if deq₁.slot k = deq₁.slot deq.size then some elt else deq.elts (deq.slot k)) = _
    by_cases hlast : k = s.elems.length
    · rw [if_pos (by rw [hlast, hsz]), hlast, List.getElem?_concat_length]
    · rw [if_neg (slot_ne hin₁ (by omega) (by omega) (size_bounds hin).2), hlive k (by omega),
        List.getElem?_append_left (by omega)]

theorem popNewEnd_holds (h : deq.Holds s) :
    ∃ deq', deq.popNewEnd = .ok (deq', s.elems.getLast?.map some) ∧ Holds deq' { s with elems := s.elems.dropLast } := by
  obtain ⟨hin, hsz, hlive, hcap, hcl⟩ := h
  have hemp := isEmpty_iff hin
  unfold popNewEnd
  rw [assert_of (by exact hcl), ok_bind, checkDeque_ok hin, ok_bind]
  by_cases hnil : s.elems = []
  · rw [hnil] at hsz
    rw [if_pos (hemp.2 (by simpa using hsz)), hnil]
    exact ⟨deq, rfl, hin, by simpa using hsz, fun _ hk => absurd hk (Nat.not_lt_zero _), hcap, hcl⟩
  have hlen : 1 ≤ s.elems.length := List.length_pos_of_ne_nil hnil
  have hb := size_bounds hin
  have hk0 : 0 ≤ deq.size - 1 := by omega
  have hk1 : deq.size - 1 < deq.size := by omega
  have hk : deq.size - 1 = ((s.elems.length - 1 : Nat) : Int) := by omega
  have helt : deq.elts (deq.slot (deq.size - 1)) = s.elems.getLast? := by
    rw [hk, hlive _ (by omega), List.getLast?_eq_getElem?]
  let deq₂ : Deque α :=
    { deq with elts := fun j => if j = deq.slot (deq.size - 1) then none else deq.elts j, new := deq.slot (deq.size - 1) }
  have hin₂ : deq₂.Inside := ⟨hin.old, slot_bounds hin hk0 (by omega), hin.chunk⟩
  have hsz₂ : deq₂.size = deq.size - 1 := by
    grind [slot, Deque.size]
  refine ⟨deq₂, ?_, hin₂, ?size, ?live, hcap, hcl⟩
  · rw [if_neg (by rw [hemp]; omega), moveLeft_new hin (by omega)]
    grind [sub_ok, ok_bind, update_ok, checkDeque_ok, assert_of]
  case size =>
    rw [hsz₂, hsz, List.length_dropLast]
    omega
  case live =>
    intro k hk
    rw [List.length_dropLast] at hk
    show (if deq.slot k = deq.slot (deq.size - 1) then none else deq.elts (deq.slot k)) = _
    rw [if_neg (slot_ne hin (by omega) (by omega) (by omega)), hlive k (by omega), List.getElem?_dropLast,
      if_pos (by omega)]

theorem popOldEnd_holds (h : deq.Holds s) :
    ∃ deq', deq.popOldEnd = .ok (deq', s.elems.head?.map some) ∧ Holds deq' { s with elems := s.elems.tail } := by
  obtain ⟨hin, hsz, hlive, hcap, hcl⟩ := h
  have hemp := isEmpty_iff hin
  unfold popOldEnd
  rw [assert_of (by exact hcl), ok_bind, checkDeque_ok hin, ok_bind]
  cases hel : s.elems with
  | nil =>
    rw [hel] at hsz
    rw [if_pos (hemp.2 (by simpa using hsz))]
    exact ⟨deq, rfl, hin, by simpa using hsz, fun _ hk => absurd hk (Nat.not_lt_zero _), hcap, hcl⟩
  | cons elt elems =>
    rw [hel, List.length_cons] at hsz
    have hb := size_bounds hin
    have hk1 : 0 < deq.size := by omega
    have helt : deq.elts deq.old = some elt := by
      have := hlive 0 (by rw [hel, List.length_cons]; omega)
      rw [hel] at this
      rw [← slot_zero hin]
      exact this
    have hsub := sub_ok hin (Int.le_refl 0) hk1
    have hup := update_ok hin (Int.le_refl 0) hk1 none
    rw [slot_zero hin] at hsub hup
    let deq₂ : Deque α :=
      { deq with elts := fun j => if j = deq.old then none else deq.elts j, old := moveRight deq.old deq.maxSz }
    have hin₂ : deq₂.Inside := by
      have := hin.old
      refine ⟨?_, hin.new, hin.chunk⟩
      simp only [deq₂, moveRight]
      split <;> omega
    have hsz₂ : deq₂.size = deq.size - 1 := by
      obtain ⟨⟨_, _⟩, ⟨_, _⟩, _⟩ := hin
      simp only [deq₂, moveRight]
      unfold Deque.size at hb hk1 ⊢
      grind
    have hslot : ∀ k : Nat, k < elems.length → deq₂.slot k = deq.slot (k + 1 : Nat) := by
      intro k hk
      obtain ⟨⟨_, _⟩, _, _⟩ := hin
      simp only [deq₂, moveRight, slot]
      grind
    refine ⟨deq₂, ?_, hin₂, ?size, ?live, hcap, hcl⟩
    · rw [if_neg (by rw [hemp]; omega)]
      dsimp only
      rw [hsub, ok_bind, hup, ok_bind, helt]
      grind [checkDeque_ok, ok_bind]
    case size =>
      show deq₂.size = elems.length
      omega
    case live =>
      intro k hk
      replace hk : k < elems.length := hk
      rw [hslot k hk]
      show (if deq.slot (k + 1 : Nat) = deq.old then none else deq.elts (deq.slot (k + 1 : Nat))) = _
      have hne := slot_ne hin (Int.le_refl 0) (k := (k + 1 : Nat)) (by omega) (by omega)
      rw [slot_zero hin] at hne
      rw [if_neg (Ne.symm hne), hlive _ (by rw [hel, List.length_cons]; omega), hel]
      rfl

end

end Deque

/-! ## The loops -/

namespace Deque

variable {deq newDeque : Deque α} {s t : DList α}

theorem copy_holds (h : deq.Holds s) (ht : newDeque.Holds t) (hroom : t.elems.length + s.elems.length < t.cap) :
    ∃ deq' newDeque', Returns (fun n => copy n deq newDeque) (deq', newDeque') ∧ deq'.Holds { s with elems := [] } ∧
      newDeque'.Holds { t with elems := t.elems ++ s.elems } := by
  obtain ⟨elems, cap⟩ := s
  induction elems generalizing deq newDeque t with
  | nil =>
    obtain ⟨deq₁, hpop, h₁⟩ := popOldEnd_holds h
    refine ⟨deq₁, newDeque, .succ ?_, h₁, by rwa [List.append_nil]⟩
    simp only [copy, hpop, ok_bind]
    exact .pure _
  | cons elt elems ih =>
    simp only [List.length_cons] at hroom
    obtain ⟨deq₁, hpop, h₁⟩ := popOldEnd_holds h
    obtain ⟨newDeque₁, hpush, ht₁⟩ := pushNewEnd_holds ht (by omega) elt
    obtain ⟨deq₂, newDeque₂, hret, h₂, ht₂⟩ := ih ht₁ h₁ (by simp only [List.length_append, List.length_singleton]; omega)
    refine ⟨deq₂, newDeque₂, .succ ?_, h₂, by simpa using ht₂⟩
    simp only [copy, hpop, ok_bind, List.head?_cons, Option.map_some, hpush]
    exact hret

/-- The length doubles within 32 bits. -/
theorem double_cap (h : deq.Holds s) : Int.bmod (deq.maxSz * 2) (2 ^ 32) = s.cap * 2 := by
  have hcap := h.cap
  obtain ⟨⟨_, _⟩, _, _⟩ := h.inside
  rw [Int.bmod_def]
  omega

/-- Doubling keeps the elements and their order, however the old buffer is wrapped. -/
theorem doubleSize_holds (h : deq.Holds s) (hfits : ChunkFits (s.cap * 2)) :
    ∃ deq', Returns (fun n => deq.doubleSize n) deq' ∧ deq'.Holds { s with cap := s.cap * 2 } := by
  have hlen : (s.elems.length : Int) < s.cap := by
    rw [← h.size, ← h.cap]
    exact (size_bounds h.inside).2
  obtain ⟨deq₁, newDeque₁, hret, h₁, ht₁⟩ := copy_holds h (fresh_holds hfits) (by simp only [List.length_nil]; omega)
  refine ⟨newDeque₁, ?_, by simpa using ht₁⟩
  simp only [doubleSize, assert_of h.claimed, gt_iff_lt, ok_bind, double_cap h, DequeAlloc_ok hfits]
  refine hret.bind ?_
  simp only [release, assert_of h₁.claimed, gt_iff_lt, ok_bind]
  exact .pure _

/-- A deque whose double does not fit is not doubled. -/
theorem doubleSize_fails (h : deq.Holds s) (hfits : ¬ ChunkFits (s.cap * 2)) (n : Nat) (deq' : Deque α) :
    deq.doubleSize n ≠ .ok deq' := by
  intro hok
  have hcap := h.cap
  obtain ⟨⟨_, _⟩, _, _⟩ := h.inside
  simp only [doubleSize, assert_of h.claimed, gt_iff_lt, ok_bind, double_cap h] at hok
  obtain ⟨newDeque, halloc, _⟩ := of_bind_ok hok
  exact hfits (fits_of_alloc halloc (by omega))

theorem toList_holds (h : deq.Holds s) :
    ∃ deq', Returns (fun n => deq.toList n) (deq', s.elems.map some) ∧ deq'.Holds { s with elems := [] } := by
  obtain ⟨elems, cap⟩ := s
  induction elems generalizing deq with
  | nil =>
    obtain ⟨deq₁, hpop, h₁⟩ := popOldEnd_holds h
    refine ⟨deq₁, .succ ?_, h₁⟩
    simp only [toList, hpop, ok_bind]
    exact .pure _
  | cons elt elems ih =>
    obtain ⟨deq₁, hpop, h₁⟩ := popOldEnd_holds h
    obtain ⟨deq₂, hret, h₂⟩ := ih h₁
    refine ⟨deq₂, .succ ?_, h₂⟩
    simp only [toList, hpop, ok_bind, List.head?_cons, Option.map_some]
    exact hret.bind (.pure _)

theorem addList_holds {thds : List α} (h : deq.Holds s) (hroom : thds = [] ∨ s.elems.length + thds.length < s.cap) :
    ∃ deq', deq.addList (thds.map some) = .ok deq' ∧ deq'.Holds { s with elems := s.elems ++ thds } := by
  unfold addList
  induction thds generalizing deq s with
  | nil => exact ⟨deq, rfl, by simpa using h⟩
  | cons thd thds ih =>
    simp only [List.length_cons, reduceCtorEq, false_or] at hroom
    obtain ⟨deq₁, hpush, h₁⟩ := pushNewEnd_holds h (by omega) thd
    grind [appM, ok_bind]

end Deque

/-! ## Runs -/

variable {deq : Deque α} {s : DList α}

/-- Every operation does to the deque what it does to the list, and hands back the same. -/
theorem exec_holds {op : Op α} (h : deq.Holds s) (hroom : s.Room op) (hfits : op = .doubleSize → ChunkFits (s.cap * 2)) :
    ∃ deq', Returns (fun n => op.exec n deq) (deq', (s.apply op).2) ∧ deq'.Holds (s.apply op).1 := by
  cases op with
  | pushNewEnd elt =>
    obtain ⟨deq', hpush, h'⟩ := Deque.pushNewEnd_holds h hroom elt
    refine ⟨deq', ?_, h'⟩
    simp only [Op.exec, hpush, ok_bind]
    exact .pure _
  | popNewEnd =>
    obtain ⟨deq', hpop, h'⟩ := Deque.popNewEnd_holds h
    refine ⟨deq', ?_, h'⟩
    simp only [Op.exec, hpop, ok_bind]
    exact .pure _
  | popOldEnd =>
    obtain ⟨deq', hpop, h'⟩ := Deque.popOldEnd_holds h
    refine ⟨deq', ?_, h'⟩
    simp only [Op.exec, hpop, ok_bind]
    exact .pure _
  | doubleSize =>
    obtain ⟨deq', hret, h'⟩ := Deque.doubleSize_holds h (hfits rfl)
    exact ⟨deq', hret.bind (.pure _), h'⟩
  | addList thds =>
    obtain ⟨deq', hadd, h'⟩ := Deque.addList_holds h hroom
    refine ⟨deq', ?_, h'⟩
    simp only [Op.exec, hadd, ok_bind]
    exact .pure _
  | toList =>
    obtain ⟨deq', hret, h'⟩ := Deque.toList_holds h
    exact ⟨deq', hret.bind (.pure _), h'⟩

/-- How often the operations double the deque. -/
def doubles : List (Op α) → Nat
  | [] => 0
  | .doubleSize :: ops => doubles ops + 1
  | _ :: ops => doubles ops

/-- The largest chunk a run from `size` slots allocates has a size and an alignment in 32 bits. -/
def Fits (size : Int) (ops : List (Op α)) : Prop := 1 ≤ size ∧ 16 + 8 * (size * 2 ^ doubles ops) ≤ 2 ^ 31

attribute [local simp] doubles

theorem double_pow (c : Int) (k : Nat) : c * 2 ^ (k + 1) = c * 2 * 2 ^ k := by
  rw [Int.pow_succ, Int.mul_assoc, Int.mul_comm 2]

theorem applyAll_cap (s : DList α) (ops : List (Op α)) : (s.applyAll ops).1.cap = s.cap * 2 ^ doubles ops := by
  induction ops generalizing s with
  | nil => simp [DList.applyAll, doubles]
  | cons op ops ih =>
    show ((s.apply op).1.applyAll ops).1.cap = _
    rw [ih]
    cases op with
    | doubleSize => exact (double_pow _ _).symm
    | pushNewEnd | popNewEnd | popOldEnd | addList | toList => rfl

/-- What is still to be allocated fits when the whole run does. -/
theorem Fits.step {op : Op α} {ops : List (Op α)} (h : Fits s.cap (op :: ops)) :
    (op = .doubleSize → ChunkFits (s.cap * 2)) ∧ Fits (s.apply op).1.cap ops := by
  cases op with
  | doubleSize =>
    obtain ⟨h1, h2⟩ := h
    rw [doubles, double_pow] at h2
    have hone : 1 ≤ (2 : Int) ^ doubles ops := Int.pow_pos (by omega)
    have hle : s.cap * 2 * 1 ≤ s.cap * 2 * 2 ^ doubles ops := Int.mul_le_mul_of_nonneg_left hone (by omega)
    exact ⟨fun _ => ⟨by omega, by omega⟩, ⟨by show 1 ≤ s.cap * 2; omega, h2⟩⟩
  | pushNewEnd | popNewEnd | popOldEnd | addList | toList => exact ⟨nofun, h⟩

/-- A run of a deque whose chunks fit does what the run of the list does. -/
theorem execAll_holds {ops : List (Op α)} (h : deq.Holds s) (hroom : s.Allowed ops) (hfits : Fits s.cap ops) :
    ∃ deq', Returns (fun n => execAll n deq ops) (deq', (s.applyAll ops).2) ∧ deq'.Holds (s.applyAll ops).1 := by
  induction ops generalizing deq s with
  | nil => exact ⟨deq, .pure _, h⟩
  | cons op ops ih =>
    obtain ⟨deq₁, hret₁, h₁⟩ := exec_holds h hroom.1 hfits.step.1
    obtain ⟨deq₂, hret₂, h₂⟩ := ih h₁ hroom.2 hfits.step.2
    exact ⟨deq₂, hret₁.bind (hret₂.bind (.pure _)), h₂⟩

/-- A run that returns has allocated only chunks that fit. -/
theorem fits_of_execAll {ops : List (Op α)} {r : Deque α × List (Out α)} (h : deq.Holds s) (hroom : s.Allowed ops)
    (hret : Returns (fun n => execAll n deq ops) r) : Fits s.cap ops := by
  induction ops generalizing deq s r with
  | nil =>
    obtain ⟨⟨_, _⟩, _, _⟩ := h.inside
    have := h.cap
    exact ⟨by omega, by simp only [doubles]; omega⟩
  | cons op ops ih =>
    have hstep : op = .doubleSize → ChunkFits (s.cap * 2) := by
      rintro rfl
      refine Classical.byContradiction fun hnot => ?_
      obtain ⟨N, hN⟩ := hret
      obtain ⟨_, hexec, _⟩ := of_bind_ok (hN N (Nat.le_refl N))
      obtain ⟨deq', hdouble, _⟩ := of_bind_ok hexec
      exact Deque.doubleSize_fails h hnot N deq' hdouble
    obtain ⟨deq₁, hret₁, h₁⟩ := exec_holds h hroom.1 hstep
    have hrest : Returns (fun n => execAll n deq₁ ops) (r.1, r.2.tail) := by
      obtain ⟨N, hN⟩ := hret₁.of_bind hret
      refine ⟨N, fun n hn => ?_⟩
      obtain ⟨r', hr', hr⟩ := of_bind_ok (hN n hn)
      cases hr
      exact hr'
    have hfits := ih h₁ hroom.2 hrest
    cases op with
    | doubleSize =>
      obtain ⟨h1, h2⟩ := hfits
      simp only [DList.apply] at h1 h2
      exact ⟨by omega, by rwa [doubles, double_pow]⟩
    | pushNewEnd | popNewEnd | popOldEnd | addList | toList => exact hfits

/-! ## The circular buffer refines the list -/

/-- The indices lie inside the buffer, the size computed from them is the number of live
elements, and each live slot has its element. -/
structure Agrees (deq : Deque α) (s : DList α) : Prop where
  old : 0 ≤ deq.old ∧ deq.old < deq.maxSz
  new : 0 ≤ deq.new ∧ deq.new < deq.maxSz
  size : deq.size = s.elems.length
  live : ∀ k : Nat, k < s.elems.length → deq.elts (deq.slot k) = s.elems[k]?
  cap : deq.maxSz = s.cap

/-- The run ends, hands back what the list hands back and agrees with the list; every element
pushed is either handed out once or still there. -/
structure Refines (size : Int) (ops : List (Op α)) : Prop where
  runs : ∃ deq, Returns (fun n => run n size ops) (deq, (DList.applyAll ⟨[], size⟩ ops).2) ∧
    Agrees deq (DList.applyAll ⟨[], size⟩ ops).1
  once : ((DList.applyAll ⟨[], size⟩ ops).2.flatMap Out.popped? ++ (DList.applyAll ⟨[], size⟩ ops).1.elems.map some).Perm
    ((ops.flatMap Op.pushed).map some)

theorem Deque.Holds.agrees (h : deq.Holds s) : Agrees deq s := ⟨h.inside.old, h.inside.new, h.size, h.live, h.cap⟩

/-- One operation of the list hands out or keeps what was there and what it pushes. -/
theorem apply_once (s : DList α) (op : Op α) :
    ((s.apply op).2.popped? ++ (s.apply op).1.elems.map some).Perm (s.elems.map some ++ op.pushed.map some) := by
  cases op with
  | pushNewEnd | addList | doubleSize | toList => simp [DList.apply, Out.popped?, Op.pushed]
  | popOldEnd =>
    cases hel : s.elems <;> simp [DList.apply, Out.popped?, Op.pushed, hel]
  | popNewEnd =>
    by_cases hnil : s.elems = []
    · simp [DList.apply, Out.popped?, Op.pushed, hnil]
    · have hsplit := List.dropLast_append_getLast hnil
      simp only [DList.apply, Out.popped?, Op.pushed, List.getLast?_eq_some_getLast hnil, Option.map_some, Option.toList_some,
        List.map_nil, List.append_nil, List.singleton_append]
      conv => rhs; rw [← hsplit, List.map_append]
      exact (List.perm_append_singleton _ _).symm

theorem applyAll_once (s : DList α) (ops : List (Op α)) :
    ((s.applyAll ops).2.flatMap Out.popped? ++ (s.applyAll ops).1.elems.map some).Perm
      (s.elems.map some ++ (ops.flatMap Op.pushed).map some) := by
  induction ops generalizing s with
  | nil => simp [DList.applyAll]
  | cons op ops ih =>
    simp only [DList.applyAll, List.flatMap_cons, List.map_append, List.append_assoc]
    refine ((ih (s.apply op).1).append_left _).trans ?_
    rw [← List.append_assoc, ← List.append_assoc]
    exact (apply_once s op).append_right _

/-- The circular buffer refines the double-ended list exactly when its chunks fit. -/
theorem deque_refines_list (size : Int) (ops : List (Op α)) (hroom : DList.Allowed ⟨[], size⟩ ops) :
    Refines size ops ↔ Fits size ops := by
  constructor
  · rintro ⟨⟨deq, hret, hag⟩, -⟩
    have hpos : 1 ≤ size := by
      have hcap : deq.maxSz = size * 2 ^ doubles ops := hag.cap.trans (applyAll_cap _ ops)
      obtain ⟨_, _⟩ := hag.old
      refine Classical.byContradiction fun hneg => ?_
      have htwo : 0 ≤ (2 : Int) ^ doubles ops := Int.pow_nonneg (by omega)
      have hle : size * 2 ^ doubles ops ≤ 0 := Int.mul_nonpos_of_nonpos_of_nonneg (by omega) htwo
      omega
    cases halloc : (DequeAlloc size : Except Fault (Deque α)) with
    | error f =>
      obtain ⟨N, hN⟩ := hret
      have hrun : run N size ops = .ok _ := hN N (Nat.le_refl N)
      rw [run, halloc] at hrun
      cases hrun
    | ok deq₀ =>
      have hchunk := fits_of_alloc halloc hpos
      refine fits_of_execAll (s := ⟨[], size⟩) (Deque.fresh_holds hchunk) hroom (hret.congr fun n => ?_)
      rw [run, DequeAlloc_ok hchunk, ok_bind]
  · intro hfits
    have hchunk : ChunkFits size := by
      obtain ⟨h1, h2⟩ := hfits
      have hone : 1 ≤ (2 : Int) ^ doubles ops := Int.pow_pos (by omega)
      have hle : size * 1 ≤ size * 2 ^ doubles ops := Int.mul_le_mul_of_nonneg_left hone (by omega)
      exact ⟨h1, by omega⟩
    obtain ⟨deq, hret, h⟩ := execAll_holds (s := ⟨[], size⟩) (Deque.fresh_holds hchunk) hroom hfits
    refine ⟨⟨deq, hret.congr fun n => ?_, h.agrees⟩, by simpa using applyAll_once ⟨[], size⟩ ops⟩
    rw [run, DequeAlloc_ok hchunk, ok_bind]

/-- Four slots, wrapped around when the deque is doubled. -/
theorem deque_refines_list_wrapped : Refines 4 ([.addList [1, 2, 3], .popOldEnd, .pushNewEnd 4, .popOldEnd, .pushNewEnd 5,
    .doubleSize, .popNewEnd, .toList] : List (Op Nat)) := by
  refine (deque_refines_list 4 _ ?_).2 ⟨by decide, by decide⟩
  exact ⟨.inr (by decide), trivial, by decide, trivial, by decide, trivial, trivial, trivial, trivial⟩

/-- The chunk of 2^28 slots has no alignment in 32 bits: a deque of 2^27 slots cannot be doubled. -/
theorem double_overflows : DList.Allowed ⟨[], 2 ^ 27⟩ ([.doubleSize] : List (Op Nat)) ∧
    (∀ n, run n (2 ^ 27) ([.doubleSize] : List (Op Nat)) = .error .shift) ∧
    ¬ Refines (2 ^ 27) ([.doubleSize] : List (Op Nat)) := by
  have hfail : ∀ n, run n (2 ^ 27) ([.doubleSize] : List (Op Nat)) = .error .shift := fun _ => rfl
  refine ⟨⟨trivial, trivial⟩, hfail, fun h => ?_⟩
  obtain ⟨⟨deq, ⟨N, hN⟩, _⟩, _⟩ := h
  have hrun : run N (2 ^ 27) [.doubleSize] = .ok _ := hN N (Nat.le_refl N)
  rw [hfail] at hrun
  cases hrun

end Manticore.Scheduler.WorkStealingDeque
