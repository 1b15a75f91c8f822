/-
  Manticore.ParallelRt.GlobalGC — how the vprocs begin, carry out and end a global collection together: `StartGlobalGC`
  and `ConvertToSpaceChunks` (`gc/global-gc.c`), `VProcGlobalGCInterrupt` (`vproc/vproc.c`) and the barriers of
  `os-threads.h`.

  The vprocs take steps in any order, and may stay in a wait or leave it at any time that the code allows. The chunks
  are numbered, and the lists of chunks are what is kept of the heap; whether the allocation chunk has something to scan
  is left open. A critical section of a node's lock, of `HeapLock` or of a barrier's lock is one step; `GCLock` is held
  over several. The leaders of the collections, the to-space chunks they start with, the chunks allocated in them and
  the chunks they free are recorded beside the state.
-/

import Manticore.Library.Parties

namespace Manticore.ParallelRt.GlobalGC

open Function (update)

/-- The status of a chunk of the global heap. -/
inductive Status where
  | free
  | toSpace
  | fromSpace
  deriving DecidableEq, Repr

/-- Where a vproc is. -/
inductive Pc where
  /-- Outside `StartGlobalGC`. -/
  | mutator
  /-- At `MutexLock (&GCLock)`. -/
  | lockGC
  /-- The leader, with the lock, before the interrupt of the vproc `k`. -/
  | interrupt (k : Nat)
  /-- The leader, with the lock, at the test of `NReadyForGC`. -/
  | leaderCheck
  /-- In `CondWait (&LeaderWait, &GCLock)`. -/
  | leaderWait
  /-- In `CondWait (&FollowerWait, &GCLock)`. -/
  | followerWait
  /-- Phase 1. -/
  | setup
  /-- At `BarrierWait`. -/
  | barrier (b : Fin 3)
  /-- In it. -/
  | inBarrier (b : Fin 3)
  /-- At the allocation of the first chunk. -/
  | first
  /-- Phase 2. -/
  | roots
  /-- At `PushToSpaceChunks`. -/
  | push
  /-- At the lock of `GetNextScanChunk`. -/
  | getNext
  /-- In the loop of `ScanGlobalToSpace`, over the allocation chunk. -/
  | scanAlloc
  /-- Over a chunk of the unscanned list. -/
  | scanChunk (c : Nat)
  /-- In `CondWait (&scanWait, &lock)`. -/
  | asleep
  /-- Phase 4, before the node `k`. -/
  | reclaim (k : Nat)
  deriving DecidableEq, Repr

structure VProc where
  pc : Pc
  leaderVProc : Bool
  globalGCPending : Bool
  /-- The list of to-space chunks that ends with `globAllocChunk`. -/
  toSpace : List Nat
  /-- How many collections the vproc has entered. -/
  round : Nat

structure NodeHeap where
  unscannedTo : List Nat
  scannedTo : List Nat
  fromSpace : List Nat
  freeChunks : List Nat
  numWaiting : Nat
  completed : Bool

/-- `n` vprocs on `m` nodes. -/
structure State (n m : Nat) where
  vps : Fin n → VProc
  nodes : Fin m → NodeHeap
  sts : Nat → Status
  nChunks : Nat
  gcLock : Option (Fin n)
  nReadyForGC : Nat
  allReadyForGC : Bool
  globalGCInProgress : Bool
  numGlobalGCs : Nat
  /-- How many have arrived at each barrier. -/
  nWaiting : Fin 3 → Nat
  toSpaceSz : Nat
  toSpaceLimit : Nat
  /-- Who took the leader's branch as its `r`-th entry. -/
  leaders : Nat → List (Fin n)
  /-- Which chunks are to-space when the leader of the collection `r` lets everyone go. -/
  start : Nat → Nat → Bool
  /-- What is allocated in the collection. -/
  filled : Nat → List Nat
  freed : Nat → List Nat

/-- Where the vprocs are, and the constants of the heap's sizes. -/
structure Machine (n m : Nat) where
  node : Fin n → Fin m
  heapChunkSzB : Nat
  heapScaleNum : Nat
  heapScaleDenom : Nat
  perVProcHeapSzB : Nat

def Machine.numVProcsPerNode {n m : Nat} (mc : Machine n m) (nd : Fin m) : Nat := ∑ i, (decide (mc.node i = nd)).toNat

namespace State

variable {n m : Nat} (mc : Machine n m) (s : State n m) (i : Fin n)

def setVp (v : VProc) : State n m := { s with vps := update s.vps i v }

def setPc (pc : Pc) : State n m := s.setVp i { s.vps i with pc }

def setNode (nd : Fin m) (h : NodeHeap) : State n m := { s with nodes := update s.nodes nd h }

/-! ## Chunks -/

/-- The chunk that `AllocToSpaceChunk` takes from the free chunks of the node, or else from the system. -/
def nextChunk : Nat := (s.nodes (mc.node i)).freeChunks.headD s.nChunks

def allocToSpaceChunk : State n m :=
  let h := s.nodes (mc.node i)
  let s' := s.setNode (mc.node i) { h with freeChunks := h.freeChunks.tail }
  { s' with
    nChunks := if h.freeChunks = [] then s.nChunks + 1 else s.nChunks
    sts := update s.sts (s.nextChunk mc i) .toSpace
    toSpaceSz := s.toSpaceSz + mc.heapChunkSzB
  }.setVp i { s.vps i with toSpace := (s.vps i).toSpace ++ [s.nextChunk mc i] }

/-- In a collection. -/
def fill : State n m :=
  let r := (s.vps i).round
  { s.allocToSpaceChunk mc i with filled := update s.filled r (s.filled r ++ [s.nextChunk mc i]) }

/-- All but the allocation chunk. -/
def pushToSpaceChunks : State n m :=
  let v := s.vps i
  let h := s.nodes (mc.node i)
  (s.setNode (mc.node i) { h with unscannedTo := v.toSpace.dropLast.reverse ++ h.unscannedTo }).setVp i
    { v with toSpace := v.toSpace.drop (v.toSpace.length - 1) }

def convertToSpaceChunks (nd : Fin m) (p : List Nat) : State n m :=
  { s.setNode nd { s.nodes nd with fromSpace := p.reverse ++ (s.nodes nd).fromSpace } with
    sts := fun c => if c ∈ p then .fromSpace else s.sts c }

/-- Phase 1, with the lock of the node. -/
def convert : State n m :=
  let nd := mc.node i
  let s₁ := s.setNode nd { s.nodes nd with completed := false }
  let s₂ := s₁.convertToSpaceChunks nd (s.vps i).toSpace
  let s₃ := s₂.convertToSpaceChunks nd (s.nodes nd).unscannedTo
  (s₃.setNode nd { s₃.nodes nd with unscannedTo := [] }).setVp i { s.vps i with toSpace := [], pc := .barrier 0 }

/-- Phase 4 on a node. -/
def reclaim (nd : Fin m) : State n m :=
  let h := s.nodes nd
  let r := (s.vps i).round
  { s.setNode nd { h with
      unscannedTo := h.scannedTo
      scannedTo := []
      fromSpace := []
      freeChunks := h.fromSpace.reverse ++ h.freeChunks } with
    sts := fun c => if c ∈ h.fromSpace then .free else s.sts c
    freed := update s.freed r (s.freed r ++ h.fromSpace) }

/-! ## Entering -/

/-- The first one in, with `GCLock`. -/
def lead : State n m :=
  let r := (s.vps i).round + 1
  { s with
    gcLock := some i
    globalGCInProgress := true
    allReadyForGC := false
    nReadyForGC := 1
    numGlobalGCs := s.numGlobalGCs + 1
    leaders := update s.leaders r (s.leaders r ++ [i])
  }.setVp i { s.vps i with pc := .interrupt 0, leaderVProc := true, round := r }

/-- Another one. -/
def follow : State n m :=
  { s with nReadyForGC := s.nReadyForGC + 1 }.setVp i { s.vps i with
    pc := if s.allReadyForGC then .setup else .followerWait
    leaderVProc := false
    round := (s.vps i).round + 1 }

/-- `VProcGlobalGCInterrupt`. -/
def interrupt (j : Fin n) : State n m :=
  if j = i then s else s.setVp j { s.vps j with globalGCPending := true }

/-- The leader lets everyone go. -/
def go : State n m :=
  { s with
    toSpaceSz := 0
    nWaiting := fun _ => 0
    allReadyForGC := true
    gcLock := none
    start := update s.start (s.vps i).round fun c => decide (s.sts c = Status.toSpace)
  }.setPc i .setup

/-! ## Barriers -/

def afterBarrier (leaderVProc : Bool) (b : Fin 3) : Pc :=
  match b with
  | 0 => .first
  | 1 => if leaderVProc then .reclaim 0 else .barrier 2
  | 2 => .mutator

/-- Into `BarrierWait`, where the last one goes through. -/
def arrive (b : Fin 3) : State n m :=
  { s with nWaiting := update s.nWaiting b (s.nWaiting b + 1) }.setPc i
    (if s.nWaiting b + 1 = n then afterBarrier (s.vps i).leaderVProc b else .inBarrier b)

/-- The leader's end of phase 4. -/
def finish : State n m :=
  let baseLimit := mc.heapScaleNum * s.toSpaceSz / mc.heapScaleDenom
  { s with
    globalGCInProgress := false
    toSpaceLimit := max baseLimit s.toSpaceSz + n * mc.perVProcHeapSzB
  }.setPc i (.barrier 2)

end State

/-- May the vproc copy objects here, and so need a new chunk? -/
def Pc.Copies : Pc → Prop
  | .roots => True
  | .scanAlloc => True
  | .scanChunk _ => True
  | _ => False

variable {n m : Nat} (mc : Machine n m)

/-- A step of the vproc `i`. -/
inductive Act (s : State n m) (i : Fin n) : State n m → Prop
  | alloc : (s.vps i).pc = .mutator → Act s i (s.allocToSpaceChunk mc i)
  | pushMutator : (s.vps i).pc = .mutator → Act s i (s.pushToSpaceChunks mc i)
  /-- The end of `MajorGC`, which has pushed all chunks but the allocation chunk. -/
  | enter : (s.vps i).pc = .mutator → (s.vps i).toSpace.length ≤ 1 →
      (s.vps i).globalGCPending = true ∨ s.toSpaceLimit ≤ s.toSpaceSz →
      Act s i (s.setVp i { s.vps i with globalGCPending := false, pc := .lockGC })
  | lead : (s.vps i).pc = .lockGC → s.gcLock = none → s.globalGCInProgress = false → Act s i (s.lead i)
  | follow : (s.vps i).pc = .lockGC → s.gcLock = none → s.globalGCInProgress = true → Act s i (s.follow i)
  | interrupt {k : Nat} {hk : k < n} : (s.vps i).pc = .interrupt k →
      Act s i ((s.interrupt i ⟨k, hk⟩).setPc i (.interrupt (k + 1)))
  | interrupted {k : Nat} : (s.vps i).pc = .interrupt k → n ≤ k → Act s i (s.setPc i .leaderCheck)
  | leaderWait : (s.vps i).pc = .leaderCheck → s.nReadyForGC < n → Act s i ({ s with gcLock := none }.setPc i .leaderWait)
  | leaderWake : (s.vps i).pc = .leaderWait → s.gcLock = none → Act s i ({ s with gcLock := some i }.setPc i .leaderCheck)
  | go : (s.vps i).pc = .leaderCheck → n ≤ s.nReadyForGC → Act s i (s.go i)
  | followerWake : (s.vps i).pc = .followerWait → s.gcLock = none → s.allReadyForGC = true → Act s i (s.setPc i .setup)
  | convert : (s.vps i).pc = .setup → Act s i (s.convert mc i)
  | arrive {b : Fin 3} : (s.vps i).pc = .barrier b → Act s i (s.arrive i b)
  | depart {b : Fin 3} : (s.vps i).pc = .inBarrier b → n ≤ s.nWaiting b →
      Act s i (s.setPc i (State.afterBarrier (s.vps i).leaderVProc b))
  | first : (s.vps i).pc = .first → Act s i ((s.fill mc i).setPc i .roots)
  | copy : (s.vps i).pc.Copies → Act s i (s.fill mc i)
  | roots : (s.vps i).pc = .roots → Act s i (s.setPc i .push)
  | push : (s.vps i).pc = .push → Act s i ((s.pushToSpaceChunks mc i).setPc i .getNext)
  | getChunk {c : Nat} {cs : List Nat} : (s.vps i).pc = .getNext → (s.nodes (mc.node i)).unscannedTo = c :: cs →
      Act s i ((s.setNode (mc.node i) { s.nodes (mc.node i) with unscannedTo := cs }).setPc i (.scanChunk c))
  | getAlloc : (s.vps i).pc = .getNext → (s.nodes (mc.node i)).unscannedTo = [] → Act s i (s.setPc i .scanAlloc)
  | getLast : (s.vps i).pc = .getNext → (s.nodes (mc.node i)).unscannedTo = [] →
      (s.nodes (mc.node i)).numWaiting + 1 = mc.numVProcsPerNode (mc.node i) →
      Act s i ((s.setNode (mc.node i) { s.nodes (mc.node i) with completed := true }).setPc i (.barrier 1))
  | getCompleted : (s.vps i).pc = .getNext → (s.nodes (mc.node i)).unscannedTo = [] →
      (s.nodes (mc.node i)).completed = true → Act s i (s.setPc i (.barrier 1))
  | getWait : (s.vps i).pc = .getNext → (s.nodes (mc.node i)).unscannedTo = [] →
      (s.nodes (mc.node i)).numWaiting + 1 ≠ mc.numVProcsPerNode (mc.node i) → (s.nodes (mc.node i)).completed = false →
      Act s i ((s.setNode (mc.node i) { s.nodes (mc.node i) with
        numWaiting := (s.nodes (mc.node i)).numWaiting + 1 }).setPc i .asleep)
  | wake : (s.vps i).pc = .asleep → Act s i ((s.setNode (mc.node i) { s.nodes (mc.node i) with
        numWaiting := (s.nodes (mc.node i)).numWaiting - 1 }).setPc i
          (if (s.nodes (mc.node i)).completed then .barrier 1 else .getNext))
  /-- The allocation chunk has not changed. -/
  | endAlloc : (s.vps i).pc = .scanAlloc → (s.vps i).toSpace.length ≤ 1 → Act s i (s.setPc i .getNext)
  | endSwitched {c : Nat} {cs : List Nat} : (s.vps i).pc = .scanAlloc → (s.vps i).toSpace = c :: cs → cs ≠ [] →
      Act s i ((s.setNode (mc.node i) { s.nodes (mc.node i) with
        scannedTo := c :: (s.nodes (mc.node i)).scannedTo }).setVp i { s.vps i with toSpace := cs, pc := .push })
  | endChunk {c : Nat} : (s.vps i).pc = .scanChunk c →
      Act s i ((s.setNode (mc.node i) { s.nodes (mc.node i) with
        scannedTo := c :: (s.nodes (mc.node i)).scannedTo }).setPc i .push)
  | reclaim {k : Nat} {hk : k < m} : (s.vps i).pc = .reclaim k →
      Act s i ((s.reclaim i ⟨k, hk⟩).setPc i (.reclaim (k + 1)))
  | finish {k : Nat} : (s.vps i).pc = .reclaim k → m ≤ k → Act s i (s.finish mc i)

def Step (s s' : State n m) : Prop := ∃ i, Act mc s i s'

/-- Every vproc has its first chunk; the barriers have not been used. -/
structure Start (s : State n m) : Prop where
  vps : ∀ i, (s.vps i).pc = .mutator ∧ (s.vps i).toSpace = [i.val] ∧ (s.vps i).round = 0
  nodes : ∀ nd, (s.nodes nd).unscannedTo = [] ∧ (s.nodes nd).scannedTo = [] ∧ (s.nodes nd).fromSpace = [] ∧
    (s.nodes nd).freeChunks = [] ∧ (s.nodes nd).numWaiting = 0
  nChunks : s.nChunks = n
  sts : ∀ c, s.sts c = if c < n then .toSpace else .free
  gcLock : s.gcLock = none
  allReadyForGC : s.allReadyForGC = false
  globalGCInProgress : s.globalGCInProgress = false
  numGlobalGCs : s.numGlobalGCs = 0
  records : ∀ r, s.leaders r = [] ∧ s.filled r = [] ∧ s.freed r = [] ∧ ∀ c, s.start r c = false

def Reachable (s : State n m) : Prop := ∃ s₀, Start s₀ ∧ Relation.ReflTransGen (Step mc) s₀ s

end Manticore.ParallelRt.GlobalGC
