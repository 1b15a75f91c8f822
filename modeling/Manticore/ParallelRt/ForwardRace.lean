/-
  Manticore.ParallelRt.ForwardRace — vprocs that forward the objects of from-space at the same time:
  `ForwardObjGlobal` and its callers (`gc/global-gc.c`), `AllocToSpaceChunk` (`gc/heap.c`), `isFromSpacePtr`
  (`gc/gc-inline.h`).

  The vprocs take steps in any order. A step reads or writes at most one word of an object, but for the words of a
  from-space object, which are read as they are copied; `AllocToSpaceChunk`, most of it under locks, is one step. The
  callers scan the root words and the pointer fields of the objects in to-space; a word that has no pointer into
  from-space is passed over without a step. Chunks are numbered as they are mapped; the links between them are left
  out.
-/

import Manticore.ParallelRt.Objects

namespace Manticore.ParallelRt.ForwardRace

open ByteMemory
open Function (update)

/-- `FREE_CHUNK`, `TO_SP_CHUNK` and `FROM_SP_CHUNK`. -/
inductive Status where
  | free
  | toSp
  | fromSp
  deriving DecidableEq, Repr

structure Chunk where
  baseAddr : Nat
  szB : Nat
  usedTop : Nat
  sts : Status
  deriving DecidableEq, Repr

/-- The fields of `VProc_t` that allocation in the global heap uses. -/
structure Alloc where
  globAllocChunk : Nat
  globNextW : Nat
  globLimit : Nat
  deriving DecidableEq, Repr

/-- A call of `ForwardObjGlobal` on the value `v` of the word at `slot`; `entry` records the vproc's fields at the
    time of the call. -/
structure Call where
  slot : Nat
  v : Word
  entry : Alloc
  deriving DecidableEq, Repr

/-- Where a vproc is. -/
inductive Pc where
  /-- Between calls. -/
  | scan
  /-- Before it reads the header. -/
  | call (c : Call)
  /-- Before it has the space. -/
  | reserve (c : Call) (oldHdr : Word)
  /-- Before the compare-and-swap. -/
  | cas (c : Call) (oldHdr : Word) (nextW : Nat)
  /-- The compare-and-swap has succeeded. -/
  | header (c : Call) (hdr : Word) (newObj : Nat)
  /-- The loop over the fields. -/
  | copy (c : Call) (hdr : Word) (newObj i : Nat)
  /-- The call has returned `v`; `copied` records whether it has copied the object. -/
  | ret (c : Call) (v : Word) (copied : Bool)
  deriving DecidableEq, Repr

/-- The word that the vproc is scanning. -/
def Pc.slot : Pc → Option Nat
  | .scan => none
  | .call c | .reserve c _ | .cas c _ _ | .header c _ _ | .copy c _ _ _ | .ret c _ _ => some c.slot

/-- `node` is that of its location. -/
structure VProc where
  node : Nat
  alloc : Alloc
  pc : Pc

structure State (n : Nat) where
  mem : Mem
  chunks : Nat → Chunk
  nChunks : Nat
  /-- The free chunks of each node. -/
  freeChunks : Nat → List Nat
  vps : Fin n → VProc

namespace State

variable {n : Nat} (s : State n) (i : Fin n)

def setPc (pc : Pc) : State n := { s with vps := update s.vps i { s.vps i with pc } }

def setAlloc (alloc : Alloc) : State n := { s with vps := update s.vps i { s.vps i with alloc } }

def store (a : Nat) (w : Word) : State n := { s with mem := storeWord s.mem a w }

/-- The address is in a from-space chunk. -/
def inFromSpace (a : Nat) : Bool :=
  (List.range s.nChunks).any fun c =>
    let ch := s.chunks c
    ch.sts = .fromSp && ch.baseAddr ≤ a && a < ch.baseAddr + ch.szB

def isFromSpacePtr (v : Word) : Bool := isPtr v && s.inFromSpace v.toNat

/-- A chunk in memory from the system, at the address `mapped`. -/
def mapChunk (mapped : Nat) : State n :=
  { s with
    chunks := update s.chunks s.nChunks ⟨mapped, heapChunkSzB, 0, .toSp⟩
    nChunks := s.nChunks + 1 }

/-- The first of the free chunks of a node. -/
def popChunk (node chunk : Nat) (next : List Nat) : State n :=
  { s with
    chunks := update s.chunks chunk { s.chunks chunk with sts := .toSp }
    freeChunks := update s.freeChunks node next }

/-- The chunk that `AllocToSpaceChunk` takes; the system is only asked when the node has no free chunk. -/
def takeChunk (mapped : Nat) : State n × Nat :=
  let node := (s.vps i).node
  match s.freeChunks node with
  | [] => (s.mapChunk mapped, s.nChunks)
  | chunk :: next => (s.popChunk node chunk next, chunk)

def setUsedTop (c top : Nat) : State n :=
  { s with chunks := update s.chunks c { s.chunks c with usedTop := top } }

def allocToSpaceChunk (mapped : Nat) : State n :=
  let old := (s.vps i).alloc
  let (s, chunk) := s.takeChunk i mapped
  let s := s.setUsedTop old.globAllocChunk (old.globNextW - wordSzB)
  let ch := s.chunks chunk
  s.setAlloc i ⟨chunk, ch.baseAddr + wordSzB, ch.baseAddr + ch.szB⟩

/-- The test before the chunk is switched: there is no room behind `globNextW`. -/
def full (len : Int) : Bool :=
  (s.vps i).alloc.globNextW + wordSzB * len ≥ (s.vps i).alloc.globLimit

/-- The header of the object that a call is about. -/
def hdrOf (c : Call) : Word := loadWord s.mem (c.v.toNat - wordSzB)

/-- The compare-and-swap installs the forwarding pointer. -/
def win (c : Call) (oldHdr : Word) (nextW : Nat) : State n :=
  (s.store (c.v.toNat - wordSzB) (makeForwardPtr (BitVec.ofNat 64 nextW))).setPc i (.header c oldHdr nextW)

/-- One round of the loop. -/
def copyField (c : Call) (hdr : Word) (newObj k : Nat) : State n :=
  (s.store (newObj + wordSzB * k) (loadWord s.mem (c.v.toNat + wordSzB * k))).setPc i (.copy c hdr newObj (k + 1))

/-- `vp->globNextW = newObj+len+1`, and the return. -/
def bump (c : Call) (hdr : Word) (newObj : Nat) : State n :=
  let alloc := (s.vps i).alloc
  (s.setAlloc i { alloc with globNextW := (newObj + wordSzB * (getLength hdr + 1)).toNat }).setPc i
    (.ret c (BitVec.ofNat 64 newObj) true)

end State

/-- Is the field `k` of an object with this header scanned? -/
def isPtrField (table : Nat → List Bool) (hdr : Word) (k : Nat) : Bool :=
  let id := getID hdr
  if id = 0 ∨ id = 2 then false
  else if id = 1 then true
  else (table id).getD k false

/-- What a collection is run on: the header table, the root words, the objects of from-space, by the addresses of
    their first fields, and the state in which the vprocs begin to forward. -/
structure Graph (n : Nat) where
  table : Nat → List Bool
  roots : List Nat
  objs : List Nat
  start : State n

variable {n : Nat} (G : Graph n)

/-! ## Steps -/

/-- The objects of a chunk end here. -/
def UsedTop (s : State n) (c top : Nat) : Prop :=
  (∃ i, (s.vps i).alloc.globAllocChunk = c ∧ top = (s.vps i).alloc.globNextW - wordSzB) ∨
    (∀ i, (s.vps i).alloc.globAllocChunk ≠ c) ∧ top = (s.chunks c).usedTop

/-- A to-space object. -/
def Held (s : State n) (q : Nat) : Prop :=
  ∃ c top hs, c < s.nChunks ∧ (s.chunks c).sts = .toSp ∧ UsedTop s c top ∧
    Objects G.table s.mem (s.chunks c).baseAddr hs top ∧ wordSzB ≤ q ∧ q - wordSzB ∈ hs

/-- The words that are scanned. -/
def IsSlot (s : State n) (a : Nat) : Prop :=
  a ∈ G.roots ∨ ∃ q k len, Held G s q ∧ HdrOk G.table (loadWord s.mem (q - wordSzB)) len ∧ k < len ∧
    isPtrField G.table (loadWord s.mem (q - wordSzB)) k = true ∧ a = q + wordSzB * k

/-- The system has memory for a chunk at `a`: no chunk and no root word is there. -/
structure Unmapped (s : State n) (a : Nat) : Prop where
  addr : a + heapChunkSzB ≤ 2 ^ 48
  chunks : ∀ c < s.nChunks, a + heapChunkSzB ≤ (s.chunks c).baseAddr ∨ (s.chunks c).baseAddr + heapChunkSzB ≤ a
  roots : ∀ r ∈ G.roots, r + wordSzB ≤ a ∨ a + heapChunkSzB ≤ r

/-- A step of the vproc `i`. -/
inductive Act (s : State n) (i : Fin n) : State n → Prop
  | scan {a : Nat} : (s.vps i).pc = .scan → IsSlot G s a → (∀ j, (s.vps j).pc.slot ≠ some a) →
      s.isFromSpacePtr (loadWord s.mem a) = true → Act s i (s.setPc i (.call ⟨a, loadWord s.mem a, (s.vps i).alloc⟩))
  | forwarded {c : Call} : (s.vps i).pc = .call c → isForwardPtr (s.hdrOf c) = true →
      Act s i (s.setPc i (.ret c (getForwardPtr (s.hdrOf c)) false))
  | start {c : Call} : (s.vps i).pc = .call c → isForwardPtr (s.hdrOf c) = false →
      Act s i (s.setPc i (.reserve c (s.hdrOf c)))
  | reserve {c : Call} {oldHdr : Word} : (s.vps i).pc = .reserve c oldHdr → s.full i (getLength oldHdr) = false →
      Act s i (s.setPc i (.cas c oldHdr (s.vps i).alloc.globNextW))
  | switch {c : Call} {oldHdr : Word} (mapped : Nat) : (s.vps i).pc = .reserve c oldHdr →
      s.full i (getLength oldHdr) = true → (s.freeChunks (s.vps i).node = [] → Unmapped G s mapped) →
      Act s i ((s.allocToSpaceChunk i mapped).setPc i
        (.cas c oldHdr ((s.allocToSpaceChunk i mapped).vps i).alloc.globNextW))
  | win {c : Call} {oldHdr : Word} {nextW : Nat} : (s.vps i).pc = .cas c oldHdr nextW → s.hdrOf c = oldHdr →
      Act s i (s.win i c oldHdr nextW)
  | lose {c : Call} {oldHdr : Word} {nextW : Nat} : (s.vps i).pc = .cas c oldHdr nextW → s.hdrOf c ≠ oldHdr →
      Act s i (s.setPc i (.ret c (getForwardPtr (s.hdrOf c)) false))
  | header {c : Call} {hdr : Word} {newObj : Nat} : (s.vps i).pc = .header c hdr newObj →
      Act s i ((s.store (newObj - wordSzB) hdr).setPc i (.copy c hdr newObj 0))
  | copy {c : Call} {hdr : Word} {newObj k : Nat} : (s.vps i).pc = .copy c hdr newObj k → k < getLength hdr →
      Act s i (s.copyField i c hdr newObj k)
  | bump {c : Call} {hdr : Word} {newObj k : Nat} : (s.vps i).pc = .copy c hdr newObj k → getLength hdr ≤ k →
      Act s i (s.bump i c hdr newObj)
  | ret {c : Call} {v : Word} {copied : Bool} : (s.vps i).pc = .ret c v copied →
      Act s i ((s.store c.slot v).setPc i .scan)

/-- A step of a vproc. -/
def Step (s s' : State n) : Prop := ∃ i, Act G s i s'

def Reachable (s : State n) : Prop := Relation.ReflTransGen (Step G) G.start s

/-! ## Before the vprocs forward -/

def Graph.hdr (p : Nat) : Word := loadWord G.start.mem (p - wordSzB)

def Graph.len (p : Nat) : Nat := (getLength (G.hdr p)).toNat

def Graph.field (p k : Nat) : Word := loadWord G.start.mem (p + wordSzB * k)

/-- The objects that are reachable from the root words. -/
inductive Live : Nat → Prop
  | root {a : Nat} : a ∈ G.roots → G.start.isFromSpacePtr (loadWord G.start.mem a) = true →
      Live (loadWord G.start.mem a).toNat
  | field {p k : Nat} : Live p → k < G.len p → isPtrField G.table (G.hdr p) k = true →
      G.start.isFromSpacePtr (G.field p k) = true → Live (G.field p k).toNat

/-- The allocation chunk of a vproc. -/
structure Alloc.Ok (s : State n) (alloc : Alloc) : Prop where
  lt : alloc.globAllocChunk < s.nChunks
  toSp : (s.chunks alloc.globAllocChunk).sts = .toSp
  limit : alloc.globLimit = (s.chunks alloc.globAllocChunk).baseAddr + heapChunkSzB
  base_le : (s.chunks alloc.globAllocChunk).baseAddr + wordSzB ≤ alloc.globNextW
  le_limit : alloc.globNextW ≤ alloc.globLimit + wordSzB

/-- The chunks are apart, and each is with one vproc or on one list. -/
structure ChunksOk (s : State n) : Prop where
  size : ∀ c < s.nChunks, (s.chunks c).szB = heapChunkSzB ∧ (s.chunks c).baseAddr + heapChunkSzB ≤ 2 ^ 48
  apart : ∀ c < s.nChunks, ∀ d < s.nChunks, c ≠ d →
    (s.chunks c).baseAddr + heapChunkSzB ≤ (s.chunks d).baseAddr ∨
      (s.chunks d).baseAddr + heapChunkSzB ≤ (s.chunks c).baseAddr
  roots : ∀ r ∈ G.roots, ∀ c < s.nChunks, r + wordSzB ≤ (s.chunks c).baseAddr ∨ (s.chunks c).baseAddr + heapChunkSzB ≤ r
  free : ∀ node, ∀ c ∈ s.freeChunks node, c < s.nChunks ∧ (s.chunks c).sts = .free
  nodup : ∀ node, (s.freeChunks node).Nodup
  nodes : ∀ node node' c, c ∈ s.freeChunks node → c ∈ s.freeChunks node' → node = node'
  alloc : ∀ i, (s.vps i).alloc.Ok s
  own : ∀ i j, (s.vps i).alloc.globAllocChunk = (s.vps j).alloc.globAllocChunk → i = j

/-- A collection: to-space is empty, the objects are in from-space and do not overlap, and the pointers into
    from-space are to them. -/
structure Graph.Ok : Prop where
  chunks : ChunksOk G G.start
  idle : ∀ i, (G.start.vps i).pc = .scan
  empty : ∀ i, (G.start.vps i).alloc.globNextW =
    (G.start.chunks (G.start.vps i).alloc.globAllocChunk).baseAddr + wordSzB
  toSp : ∀ c < G.start.nChunks, (G.start.chunks c).sts = .toSp → ∃ i, (G.start.vps i).alloc.globAllocChunk = c
  hdr : ∀ p ∈ G.objs, HdrOk G.table (G.hdr p) (G.len p)
  obj : ∀ p ∈ G.objs, ∃ c < G.start.nChunks, (G.start.chunks c).sts = .fromSp ∧
    (G.start.chunks c).baseAddr + wordSzB ≤ p ∧ p + wordSzB * G.len p ≤ (G.start.chunks c).baseAddr + heapChunkSzB
  apart : ∀ p ∈ G.objs, ∀ q ∈ G.objs, p ≠ q →
    p + wordSzB * (G.len p + 1) ≤ q ∨ q + wordSzB * (G.len q + 1) ≤ p
  roots : ∀ a ∈ G.roots, G.start.isFromSpacePtr (loadWord G.start.mem a) = true →
    (loadWord G.start.mem a).toNat ∈ G.objs
  rootsApart : ∀ a ∈ G.roots, ∀ b ∈ G.roots, a ≠ b → ByteMemory.Apart a b
  fields : ∀ p ∈ G.objs, ∀ k < G.len p, isPtrField G.table (G.hdr p) k = true →
    G.start.isFromSpacePtr (G.field p k) = true → (G.field p k).toNat ∈ G.objs

variable {G}

theorem Live.mem (hG : G.Ok) {p : Nat} (hp : Live G p) : p ∈ G.objs := by
  induction hp with
  | root ha hfrom => exact hG.roots _ ha hfrom
  | field _ hk hptr hfrom ih => exact hG.fields _ ih _ hk hptr hfrom

end Manticore.ParallelRt.ForwardRace
