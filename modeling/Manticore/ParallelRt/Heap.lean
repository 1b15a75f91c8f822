/-
  Manticore.ParallelRt.Heap — chunks of the global heap, and a vproc's allocation in them (`gc/heap.c`, `gc/alloc.c`).

  A vproc allocates in one chunk; the chunks linked from it that it has filled since it last handed chunks over are
  `filled`, the earliest first, and the allocation chunk is the last one of that list. A new chunk comes from the
  free list, or from the operating system: `os n` is the address of the `n`th piece of memory it gives. Objects are
  addressed by their first data word, the header is the word before it. Assertions are not compiled in, except that
  `GlobalAllocVector` stops when the list does not have the length it is given.
-/

import Manticore.Library.ByteMemory
import Manticore.ParallelRt.Header

namespace Manticore.ParallelRt

open ByteMemory

def wordSzB : Nat := 8
def heapChunkSzB : Nat := 4 * 2 ^ 20
def vpHeapSzB : Nat := 2 ^ 20

/-- A `MemChunk_t`; its progress mark is only read by a global collection. -/
structure MemChunk where
  baseAddr : Nat
  szB : Nat
  usedTop : Nat
  deriving DecidableEq, Repr

/-- The fields of a `VProc_t` that allocation uses. -/
structure VProc where
  heapBase : Nat
  allocPtr : Nat
  globNextW : Nat
  globLimit : Nat
  globAllocChunk : MemChunk

/-- The memory, a vproc, and the chunks of its node. -/
structure Heap where
  mem : Mem
  vp : VProc
  filled : List MemChunk
  unscannedTo : List MemChunk
  freeChunks : List MemChunk
  /-- How many pieces of memory the operating system has given. -/
  mapped : Nat

namespace Heap

variable (os : Nat → Nat) (s : Heap)

/-- The chunk `AllocToSpaceChunk` takes, and the heap without it. -/
def takeChunk : MemChunk × Heap :=
  match s.freeChunks with
  | [] => (⟨os s.mapped, heapChunkSzB, 0⟩, { s with mapped := s.mapped + 1 })
  | chunk :: next => (chunk, { s with freeChunks := next })

def allocToSpaceChunk : Heap :=
  let chunk := (takeChunk os s).1
  { (takeChunk os s).2 with
    filled := s.filled ++ [{ s.vp.globAllocChunk with usedTop := s.vp.globNextW - wordSzB }]
    vp := { s.vp with
      globAllocChunk := chunk, globNextW := chunk.baseAddr + wordSzB, globLimit := chunk.baseAddr + chunk.szB } }

/-- `PushToSpaceChunks`, from the chunk that `scanChunk` chunks come before. -/
def pushToSpaceChunks (scanChunk : Nat) : Heap :=
  { s with filled := s.filled.take scanChunk, unscannedTo := (s.filled.drop scanChunk).reverse ++ s.unscannedTo }

def ensureGlobalSpace (nElems : Nat) : Heap :=
  if s.vp.globNextW + wordSzB * (nElems + 1) ≥ s.vp.globLimit then
    (allocToSpaceChunk os s).pushToSpaceChunks s.filled.length
  else s

/-- The header `hdr` before `obj`, and `elems` from `obj` on. -/
def initObj (obj : Nat) (hdr : Word) (elems : List Word) : Heap :=
  { s with mem := storeWords (storeWord s.mem (obj - wordSzB) hdr) obj elems }

def bumpGlobNextW (nBytes : Nat) : Heap := { s with vp := { s.vp with globNextW := s.vp.globNextW + nBytes } }

/-! ## Allocation -/

/-- `predefined` of `alloc.c`. -/
def predefined : Nat := 3

/-- The number of a mixed object's table entry, from its length and the bits of its pointer fields. -/
def predefinedID (nElems bits : Nat) : Option Nat :=
  if nElems = 1 ∧ bits = 0x0 then some predefined
  else if nElems = 2 ∧ bits = 0x1 then some (predefined + 1)
  else if nElems = 1 ∧ bits = 0x1 then some (predefined + 2)
  else if nElems = 5 ∧ bits = 0x1A then some (predefined + 3)
  else if nElems = 3 ∧ bits = 0x4 then some (predefined + 4)
  else none

/-- `bits`: a field comes with whether it is a `PTR_FIELD`. -/
def fieldBits : List (Bool × Word) → Nat
  | [] => 0
  | (tag, _) :: fields => tag.toNat + 2 * fieldBits fields

/-- Stops the program (`none`) on a layout without an entry. -/
def allocNonUniform (fields : List (Bool × Word)) : Option (Heap × Nat) := do
  let obj := s.vp.allocPtr
  let id ← predefinedID fields.length (fieldBits fields)
  let s := s.initObj obj (mixedHdr id fields.length) (fields.map Prod.snd)
  return ({ s with vp := { s.vp with allocPtr := s.vp.allocPtr + wordSzB * (fields.length + 1) } }, obj)

def globalAllocUniform (elems : List Word) : Heap × Nat :=
  let s := ensureGlobalSpace os s elems.length
  let obj := s.vp.globNextW
  ((s.initObj obj (vecHdr elems.length) elems).bumpGlobNextW (wordSzB * (elems.length + 1)), obj)

/-- `obj` is read before there is room for the object. -/
def globalAllocNonUniform (fields : List (Bool × Word)) : Option (Heap × Nat) := do
  let obj := s.vp.globNextW
  let s := ensureGlobalSpace os s fields.length
  let id ← predefinedID fields.length (fieldBits fields)
  return ((s.initObj obj (mixedHdr id fields.length) (fields.map Prod.snd)).bumpGlobNextW
    (wordSzB * (fields.length + 1)), obj)

def globalAllocPolyArray (nElems : Nat) (init : Word) : Heap × Nat :=
  let s := ensureGlobalSpace os s nElems
  let obj := s.vp.globNextW
  ((s.initObj obj (vecHdr nElems) (List.replicate nElems init)).bumpGlobNextW (wordSzB * (nElems + 1)), obj)

/-- `BYTES_TO_WORDS`. -/
def bytesToWords (n : Nat) : Nat := (n + 7) >>> 3

/-- The room checked for is that of `nElems` words; the data words are not initialised. -/
def globalAllocRawArray (nElems szBOfElt : Nat) : Heap × Nat :=
  let nArrayBytes := nElems * szBOfElt
  let nObjBytes := wordSzB + nArrayBytes
  let s := ensureGlobalSpace os s nElems
  let obj := s.vp.globNextW
  ((s.initObj obj (rawHdr (bytesToWords nArrayBytes)) []).bumpGlobNextW nObjBytes, obj)

def mNil : Word := 1

/-- The loop of `GlobalAllocVector` over the cells of the list `values`, for at most `fuel` cells: the number of
    elements stored. -/
def fillVector (obj : Nat) : Nat → Mem → Nat → Word → Mem × Option Nat
  | fuel, mem, i, values =>
    if values = mNil then (mem, some i)
    else match fuel with
      | 0 => (mem, none)
      | fuel + 1 =>
        let valueList := values.toNat
        let mem := storeWord mem (obj + wordSzB * i) (loadWord mem valueList)
        fillVector obj fuel mem (i + 1) (loadWord mem (valueList + wordSzB))

/-- Stops (`none`) when `assert (i == len)` fails. The vector, and the object of the nursery that refers to it. -/
def globalAllocVector (len : Nat) (values : Word) : Option (Heap × Nat × Nat) := do
  let s := ensureGlobalSpace os s len
  let obj := s.vp.globNextW
  let s := s.initObj obj (vecHdr len) []
  let (mem, i) := fillVector obj len s.mem 0 values
  if i = some len then
    let s := ({ s with mem } : Heap).bumpGlobNextW (wordSzB * (len + 1))
    let (s, v) ← s.allocNonUniform [(true, BitVec.ofNat 64 obj), (false, BitVec.ofNat 64 len)]
    return (s, obj, v)
  else none

end Heap

end Manticore.ParallelRt
