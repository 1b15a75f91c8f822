/-
  Manticore.ParallelRt.Promote — the promotion of local objects to the global heap (`gc/major-gc.c`,
  `gc/global-gc.c`, and the scan functions the compiler prints).

  `table` is the header table: the mask of a mixed object's entry, its first field first. The chunks from the scan
  chunk on are numbered as in `filled`, with the allocation chunk after the last one. The loops of a scan take fuel.
-/

import Manticore.ParallelRt.Heap

namespace Manticore.ParallelRt

open ByteMemory

/-- The bits of `p` above those of `VP_HEAP_MASK` are `heapBase`. -/
def inVPHeap (heapBase : Nat) (p : Word) : Bool := heapBase == p.toNat - p.toNat % vpHeapSzB

/-- `for (i = 0; i < len; i++) dst[i] = src[i]`. -/
def copyWords : Nat → Mem → Nat → Nat → Mem
  | 0, mem, _, _ => mem
  | n + 1, mem, dst, src => copyWords n (storeWord mem dst (loadWord mem src)) (dst + wordSzB) (src + wordSzB)

namespace Heap

variable (os : Nat → Nat) (table : Nat → List Bool) (s : Heap)

/-! ## Forwarding -/

/-- The chunk switch of the forwarding functions. -/
def reserve (len : Int) : Heap :=
  if (s.vp.globNextW : Int) + wordSzB * len ≥ s.vp.globLimit then allocToSpaceChunk os s else s

/-- `vp->globNextW = newObj+len+1`. -/
def setGlobNextW (newObj : Nat) (len : Int) : Heap :=
  { s with vp := { s.vp with globNextW := (newObj + wordSzB * (len + 1)).toNat } }

def forwardObjMajor (v : Word) : Heap × Word :=
  let p := v.toNat
  let hdr := loadWord s.mem (p - wordSzB)
  if isForwardPtr hdr then (s, getForwardPtr hdr)
  else
    let len := getLength hdr
    let s := reserve os s len
    let newObj := s.vp.globNextW
    let mem := copyWords len.toNat (storeWord s.mem (newObj - wordSzB) hdr) newObj p
    let mem := storeWord mem (p - wordSzB) (makeForwardPtr (BitVec.ofNat 64 newObj))
    (({ s with mem } : Heap).setGlobNextW newObj len, BitVec.ofNat 64 newObj)

/-- The forwarding pointer is installed first; the compare-and-swap succeeds, as no other vproc forwards the objects of
    a local heap. -/
def forwardObjGlobal (v : Word) : Heap × Word :=
  let p := v.toNat
  let oldHdr := loadWord s.mem (p - wordSzB)
  if isForwardPtr oldHdr then (s, getForwardPtr oldHdr)
  else
    let len := getLength oldHdr
    let s := reserve os s len
    let newObj := s.vp.globNextW
    let mem := storeWord s.mem (p - wordSzB) (makeForwardPtr (BitVec.ofNat 64 newObj))
    let mem := copyWords len.toNat (storeWord mem (newObj - wordSzB) oldHdr) newObj p
    (({ s with mem } : Heap).setGlobNextW newObj len, BitVec.ofNat 64 newObj)

/-! ## Scanning -/

/-- The words from `a` on at the places of the mask are forwarded when the test holds. -/
def scanWords (forward : Heap → Word → Heap × Word) (test : Word → Bool) : List Bool → Heap → Nat → Heap
  | [], s, _ => s
  | bit :: mask, s, a =>
    let v := loadWord s.mem a
    if bit && test v then
      let (s, v) := forward s v
      scanWords forward test mask { s with mem := storeWord s.mem a v } (a + wordSzB)
    else scanWords forward test mask s (a + wordSzB)

/-- A place `n` words after `a`. -/
def addWords (a : Nat) (n : Int) : Nat := (a + wordSzB * n).toNat

/-- `table[getID(hdr)].ScanGlobalToSpacefunction`, on the first data word: the printed functions of raw, vector and
    proxy objects, and that of a mask, whose test on a word is only that it is in the local heap. -/
def tableScan (hdr : Word) (a : Nat) : Heap × Nat :=
  let id := getID hdr
  let len := getLength hdr
  if id = 0 ∨ id = 2 then (s, addWords a len)
  else if id = 1 then
    (scanWords (forwardObjGlobal os) (fun v => isPtr v && inVPHeap s.vp.heapBase v) (List.replicate len.toNat true) s a,
      addWords a len)
  else (scanWords (forwardObjGlobal os) (inVPHeap s.vp.heapBase) (table id) s a, addWords a (table id).length)

/-- The body of the loop over the objects of a chunk. -/
def scanObject (scanPtr : Nat) : Heap × Nat :=
  let hdr := loadWord s.mem scanPtr
  let scanPtr := scanPtr + wordSzB
  let len := getLength hdr
  if isVectorHdr hdr then
    (scanWords (forwardObjMajor os) (fun v => isPtr v && inVPHeap s.vp.heapBase v) (List.replicate len.toNat true) s
      scanPtr, addWords scanPtr len)
  else if isRawHdr hdr then (s, addWords scanPtr len)
  else tableScan os table s hdr scanPtr

/-- `while (scanPtr < scanTop)`. -/
def scanObjects (scanTop : Nat) : Nat → Heap → Nat → Option (Heap × Nat)
  | fuel, s, scanPtr =>
    if scanPtr < scanTop then
      match fuel with
      | 0 => none
      | fuel + 1 =>
        let (s, scanPtr) := scanObject os table s scanPtr
        scanObjects scanTop fuel s scanPtr
    else some (s, scanPtr)

/-- The chunk `scanChunk` of the list; the last one is the allocation chunk. -/
def chunkAt (scanChunk : Nat) : MemChunk := s.filled.getD scanChunk s.vp.globAllocChunk

def usedTopOfChunk (scanChunk : Nat) : Nat :=
  if scanChunk = s.filled.length then s.vp.globNextW - wordSzB else (s.chunkAt scanChunk).usedTop

/-- The inner loop of `ScanGlobalToSpace`. -/
def scanChunkLoop (scanChunk : Nat) (handlingAlloc : Bool) : Nat → Heap → Nat → Nat → Option (Heap × Nat × Nat)
  | 0, _, _, _ => none
  | fuel + 1, s, scanPtr, scanTop => do
    let (s, scanPtr) ← scanObjects os table scanTop fuel s scanPtr
    let scanTop :=
      if scanChunk = s.filled.length then s.vp.globNextW - wordSzB
      else if handlingAlloc then s.usedTopOfChunk scanChunk
      else scanTop
    if scanPtr < scanTop then scanChunkLoop scanChunk handlingAlloc fuel s scanPtr scanTop
    else some (s, scanPtr, scanTop)

/-- The outer loop of `ScanGlobalToSpace`. -/
def scanGlobalToSpace : Nat → Heap → Nat → Nat → Nat → Option Heap
  | 0, _, _, _, _ => none
  | fuel + 1, s, scanChunk, scanPtr, scanTop => do
    let handlingAlloc := scanChunk == s.filled.length
    let (s, scanPtr, scanTop) ← scanChunkLoop os table scanChunk handlingAlloc fuel s scanPtr scanTop
    if scanChunk < s.filled.length then
      let scanChunk := scanChunk + 1
      let scanTop := s.usedTopOfChunk scanChunk
      let scanPtr := (s.chunkAt scanChunk).baseAddr
      if scanPtr < scanTop then scanGlobalToSpace fuel s scanChunk scanPtr scanTop else some s
    else if scanPtr < scanTop then scanGlobalToSpace fuel s scanChunk scanPtr scanTop
    else some s

def promoteObj (fuel : Nat) (root : Word) : Option (Heap × Word) :=
  if isPtr root && inVPHeap s.vp.heapBase root then do
    let scanChunk := s.filled.length
    let scanPtr := s.vp.globNextW - wordSzB
    let (s, root) := forwardObjMajor os s root
    let s ← scanGlobalToSpace os table fuel s scanChunk scanPtr (s.usedTopOfChunk scanChunk)
    return (s.pushToSpaceChunks scanChunk, root)
  else some (s, root)

end Heap

end Manticore.ParallelRt
