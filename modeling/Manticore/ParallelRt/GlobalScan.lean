/-
  Manticore.ParallelRt.GlobalScan — the copying phase of a global collection on a node: `GlobalGC`, `GetNextScanChunk`
  and `ScanGlobalToSpace` (`gc/global-gc.c`), `PushToSpaceChunks` (`gc/major-gc.c`), `AllocToSpaceChunk` (`gc/heap.c`).

  The vprocs of the node take steps in any order. A critical section of the node's lock is one step when it has no
  loop. A chunk holds the sizes of its objects; scanning one object is a step, and the objects that this forwards are
  steps before it. The words scanned of each chunk are recorded beside the state, in order.
-/

import Manticore.ParallelRt.Heap

namespace Manticore.ParallelRt.GlobalScan

open Function (update)

/-- `MemChunk_t`. The sizes of the objects copied into it are in words, headers included. -/
structure Chunk where
  baseAddr : Nat
  szB : Nat
  usedTop : Nat
  scanProgress : Nat
  next : Option Nat
  objs : List Nat

/-- The locals in the loop of `ScanGlobalToSpace`. -/
structure Scan where
  scanChunk : Nat
  scanPtr : Nat
  scanTop : Nat
  origAlloc : Nat
  handlingAlloc : Bool

/-- Where a vproc is. -/
inductive Pc where
  /-- `GlobalGC` forwards the roots and what the local heap refers to. -/
  | roots (original : Nat)
  /-- `PushToSpaceChunks`, before it takes the lock. -/
  | push (scanChunk : Nat)
  /-- Its loop. -/
  | pushing (scanChunk : Nat)
  /-- Its signal. -/
  | signal
  /-- At the lock of `GetNextScanChunk`. -/
  | getNext
  /-- With a chunk of the unscanned list. -/
  | unlinked (chunk : Nat)
  /-- `GetNextScanChunk` has returned a chunk. -/
  | got (chunk : Nat)
  | scan (r : Scan)
  /-- After the loops over the chunk. -/
  | finish (r : Scan)
  /-- In `CondWait`. -/
  | asleep
  /-- Woken, before it has the lock again. -/
  | woken
  /-- The last one, before it wakes the others. -/
  | broadcast
  /-- `GetNextScanChunk` has returned `NULL`. -/
  | done

/-- The fields of `VProc_t` that the phase uses. -/
structure VProc where
  globAllocChunk : Nat
  globNextW : Nat
  globLimit : Nat
  pc : Pc

/-- The heap of a node with `n` vprocs. -/
structure Node (n : Nat) where
  chunks : Nat → Chunk
  nChunks : Nat
  unscannedTo : Option Nat
  scannedTo : Option Nat
  numWaiting : Nat
  completed : Bool
  lock : Option (Fin n)
  vps : Fin n → VProc
  /-- The words scanned of each chunk, in order. -/
  scanned : Nat → List Nat

/-- The addresses of `k` words from `a` on. -/
def words (a k : Nat) : List Nat := (List.range k).map fun i => a + wordSzB * i

namespace Node

variable {n : Nat} (s : Node n) (i : Fin n)

def setPc (pc : Pc) : Node n := { s with vps := update s.vps i { s.vps i with pc } }

def setChunk (c : Nat) (ch : Chunk) : Node n := { s with chunks := update s.chunks c ch }

def setNext (c : Nat) (next : Option Nat) : Node n := s.setChunk c { s.chunks c with next }

/-- The last chunk of the list from `c` on; the lists have at most `fuel` links. -/
def tail : (fuel : Nat) → (c : Nat) → Nat
  | 0, c => c
  | fuel + 1, c => match (s.chunks c).next with
    | some d => tail fuel d
    | none => c

/-- `AllocToSpaceChunk`, which gets the chunk `fresh` from the free chunks or the system. -/
def allocToSpaceChunk (fresh : Chunk) : Node n :=
  let chunk := s.nChunks
  let vp := s.vps i
  let old := vp.globAllocChunk
  let s := { s with nChunks := s.nChunks + 1 }.setChunk chunk { fresh with scanProgress := 0, next := none, objs := [] }
  let s := s.setChunk old { s.chunks old with usedTop := vp.globNextW - wordSzB }
  let s := s.setNext (s.tail s.nChunks old) (some chunk)
  { s with vps := update s.vps i { vp with
      globAllocChunk := chunk
      globNextW := fresh.baseAddr + wordSzB
      globLimit := fresh.baseAddr + fresh.szB } }

/-- The new object of `ForwardObjGlobal`. -/
def copy (len : Nat) : Node n :=
  let vp := s.vps i
  let s := s.setChunk vp.globAllocChunk { s.chunks vp.globAllocChunk with
    objs := (s.chunks vp.globAllocChunk).objs ++ [len + 1] }
  { s with vps := update s.vps i { vp with globNextW := vp.globNextW + wordSzB * (len + 1) } }

/-- `ForwardObjGlobal` on an object of `len` words that is not forwarded yet; the vproc wins the race for it or not. -/
def forwardObjGlobal (fresh : Chunk) (len : Nat) (wins : Bool) : Node n :=
  let s := if (s.vps i).globNextW + wordSzB * len ≥ (s.vps i).globLimit then s.allocToSpaceChunk i fresh else s
  if wins then s.copy i len else s

def usedTopOfChunk (vp : VProc) (c : Nat) : Nat :=
  if vp.globAllocChunk = c then vp.globNextW - wordSzB else (s.chunks c).usedTop

/-- One round of the loop of `GetNextScanChunk`, with the lock. -/
def getNextScanChunk : Node n :=
  let vp := s.vps i
  match s.unscannedTo with
  | some chunk => { s with unscannedTo := (s.chunks chunk).next }.setPc i (.unlinked chunk)
  | none =>
    if (s.chunks vp.globAllocChunk).scanProgress < vp.globNextW - wordSzB then s.setPc i (.got vp.globAllocChunk)
    else if s.numWaiting + 1 = n then { s with completed := true }.setPc i .broadcast
    else if s.completed then s.setPc i .done
    else { s with numWaiting := s.numWaiting + 1 }.setPc i .asleep

/-- After a wait, with the lock again. -/
def wake : Node n :=
  let s := { s with numWaiting := s.numWaiting - 1 }
  if s.completed then s.setPc i .done else s.getNextScanChunk i

/-- The locals for a chunk to scan. -/
def startScan (chunk : Nat) : Scan where
  scanChunk := chunk
  scanPtr := max (s.chunks chunk).baseAddr (s.chunks chunk).scanProgress
  scanTop := s.usedTopOfChunk (s.vps i) chunk
  origAlloc := (s.vps i).globAllocChunk
  handlingAlloc := chunk = (s.vps i).globAllocChunk

/-- The end of the loop over the objects below `scanTop`. -/
def endInner (r : Scan) : Node n × Scan :=
  if (s.vps i).globAllocChunk = r.scanChunk then
    (s.setChunk r.scanChunk { s.chunks r.scanChunk with scanProgress := r.scanPtr },
      { r with scanTop := (s.vps i).globNextW - wordSzB })
  else if r.handlingAlloc then (s, { r with scanTop := s.usedTopOfChunk (s.vps i) r.scanChunk })
  else (s, r)

/-- Put a chunk on the scanned list. -/
def pushScanned (c : Nat) : Node n := { s.setNext c s.scannedTo with scannedTo := some c }

/-- The end of the loop body of `ScanGlobalToSpace`. -/
def endScan (r : Scan) : Node n :=
  let switched := r.origAlloc ≠ (s.vps i).globAllocChunk
  if r.handlingAlloc then
    if switched then
      match (s.chunks r.origAlloc).next with
      | some tmp => (s.pushScanned r.origAlloc).setPc i (.push tmp)
      | none => s
    else s.setPc i .getNext
  else (s.pushScanned r.scanChunk).setPc i (if switched then .push r.origAlloc else .getNext)

/-- Record the scan of `k` words. -/
def record (c scanPtr k : Nat) : Node n :=
  { s with scanned := update s.scanned c (s.scanned c ++ words scanPtr k) }

/-- `CondBroadcast`. -/
def wakeAll : Node n :=
  { s with vps := fun j => match (s.vps j).pc with
    | .asleep => { s.vps j with pc := .woken }
    | _ => s.vps j }

/-- One round of the loop of `PushToSpaceChunks`. -/
def pushRound (c next : Nat) : Node n := ({ s.setNext c s.unscannedTo with unscannedTo := some c }).setPc i (.pushing next)

end Node

/-- Does the vproc forward objects here? -/
def Pc.Forwards : Pc → Prop
  | .roots _ => True
  | .scan r => r.scanPtr < r.scanTop
  | _ => False

/-- A step of the vproc `i`. -/
inductive Act {n : Nat} (s : Node n) (i : Fin n) : Node n → Prop
  | forward (fresh : Chunk) (len : Nat) (wins : Bool) : (s.vps i).pc.Forwards →
      Act s i (s.forwardObjGlobal i fresh len wins)
  | roots {original : Nat} : (s.vps i).pc = .roots original → Act s i (s.setPc i (.push original))
  | pushNone {c : Nat} : (s.vps i).pc = .push c → (s.chunks c).next = none → Act s i (s.setPc i .getNext)
  | pushLock {c : Nat} : (s.vps i).pc = .push c → (s.chunks c).next ≠ none → s.lock = none →
      Act s i ({ s with lock := some i }.setPc i (.pushing c))
  | pushRound {c next : Nat} : (s.vps i).pc = .pushing c → (s.chunks c).next = some next → Act s i (s.pushRound i c next)
  | pushUnlock {c : Nat} : (s.vps i).pc = .pushing c → (s.chunks c).next = none →
      Act s i ({ s with lock := none }.setPc i .signal)
  | signalOne {j : Fin n} : (s.vps i).pc = .signal → (s.vps j).pc = .asleep →
      Act s i ((s.setPc i .getNext).setPc j .woken)
  | signalNone : (s.vps i).pc = .signal → (∀ j, (s.vps j).pc ≠ .asleep) → Act s i (s.setPc i .getNext)
  | getNext : (s.vps i).pc = .getNext → s.lock = none → Act s i (s.getNextScanChunk i)
  | wake : (s.vps i).pc = .woken → s.lock = none → Act s i (s.wake i)
  | unlink {c : Nat} : (s.vps i).pc = .unlinked c → Act s i ((s.setNext c none).setPc i (.got c))
  | got {c : Nat} : (s.vps i).pc = .got c → Act s i (s.setPc i (.scan (s.startScan i c)))
  /-- An object of `k` words at `scanPtr`. -/
  | object {r : Scan} {pre post : List Nat} {k : Nat} : (s.vps i).pc = .scan r → r.scanPtr < r.scanTop →
      (s.chunks r.scanChunk).objs = pre ++ k :: post →
      r.scanPtr = (s.chunks r.scanChunk).baseAddr + wordSzB * pre.sum →
      Act s i ((s.record r.scanChunk r.scanPtr k).setPc i (.scan { r with scanPtr := r.scanPtr + wordSzB * k }))
  | endInner {r r' : Scan} {s' : Node n} : (s.vps i).pc = .scan r → r.scanTop ≤ r.scanPtr → s.endInner i r = (s', r') →
      Act s i (s'.setPc i (if r'.scanPtr < r'.scanTop then .scan r' else .finish r'))
  | endScan {r : Scan} : (s.vps i).pc = .finish r →
      (r.handlingAlloc = false ∨ r.origAlloc ≠ (s.vps i).globAllocChunk → s.lock = none) → Act s i (s.endScan i r)
  | broadcast : (s.vps i).pc = .broadcast → Act s i (s.wakeAll.setPc i .done)

/-- A step of the node; a wait may end on its own. -/
inductive Step {n : Nat} (s : Node n) : Node n → Prop
  | act {i : Fin n} {s' : Node n} : Act s i s' → Step s s'
  | spurious {i : Fin n} : (s.vps i).pc = .asleep → Step s (s.setPc i .woken)

/-- The phase begins: every vproc has an empty allocation chunk of its own. -/
structure Start {n : Nat} (s : Node n) : Prop where
  nChunks : s.nChunks = n
  unscannedTo : s.unscannedTo = none
  scannedTo : s.scannedTo = none
  numWaiting : s.numWaiting = 0
  completed : s.completed = false
  lock : s.lock = none
  vps : ∀ i, (s.vps i).globAllocChunk = i ∧ (s.vps i).pc = .roots i ∧
    (s.vps i).globNextW = (s.chunks i).baseAddr + wordSzB
  chunks : ∀ i : Fin n, (s.chunks i).scanProgress = 0 ∧ (s.chunks i).next = none ∧ (s.chunks i).objs = []
  scanned : ∀ c, s.scanned c = []

def Reachable {n : Nat} (s : Node n) : Prop := ∃ s₀, Start s₀ ∧ Relation.ReflTransGen Step s₀ s

end Manticore.ParallelRt.GlobalScan
