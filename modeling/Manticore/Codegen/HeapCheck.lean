/-
  Manticore.Codegen.HeapCheck — heap-limit checks of compiled code (`codegen/alloc64-fn.sml`,
  `codegen/heap-transfer-fn.sml`) and what the runtime does when one fails
  (`parallel-rt/vproc/apply.c`, `include/heap.h`).

  Compiled code compares the limit pointer of its vproc with the allocation pointer. If the
  check fails it allocates a tuple of the live roots and enters the runtime, which collects
  if the allocation pointer has passed the limit; the return continuation jumps back to the
  check. A preemption sets the limit pointer to zero. Addresses are natural numbers, and the
  test is the machine's signed one on their words. The allocation pointer is the address of
  the first word of the next object, one word after its header, so that all that has been
  allocated ends a word below it.
-/

import Manticore.Codegen.Alloc64

namespace Manticore.Codegen.HeapCheck

open Cfg (Ty)
open ParallelRt (Word)
open BitVec (ofNat)

/-! ## The nursery -/

/-- `ALLOC_BUF_SZB`, the `nurseryAllocSlopSzb` of the compiler. -/
def allocBufSzB : Nat := 4096

/-- `MIN_NURSERY_SZB`. -/
def minNurserySzB : Nat := 16384

/-- The parameters of the runtime. -/
structure Config where
  /-- `VP_HEAP_SZB`. -/
  vpHeapSzB : Nat
  /-- `MaxNurserySzB`. -/
  maxNurserySzB : Nat

/-- The fields of `VProc_t` that are read here. -/
structure VProc where
  heapBase : Nat
  oldTop : Nat
  nurseryBase : Nat
  allocPtr : Nat
  limitPtr : Nat
  globalGCPending : Bool
  sigPending : Bool
  atomic : Bool
  deriving DecidableEq

/-- `ROUNDDOWN`, to words. -/
def roundDown (n : Nat) : Nat := n / wordSzB * wordSzB

section

variable (cfg : Config)

/-- The end of the nursery. -/
def top (vp : VProc) : Nat := vp.heapBase + cfg.vpHeapSzB

/-- `SetAllocPtr`. -/
def setAllocPtr (vp : VProc) : VProc :=
  let szB := roundDown ((top cfg vp - vp.oldTop) / 2)
  let szB := if szB > cfg.maxNurserySzB then cfg.maxNurserySzB else szB
  let nurseryBase := top cfg vp - szB
  { vp with nurseryBase := nurseryBase, allocPtr := nurseryBase + wordSzB }

/-- `LimitPtr`. -/
def limitPtrOf (vp : VProc) : Nat := vp.heapBase + cfg.vpHeapSzB - allocBufSzB

end

def VProc.alloc (vp : VProc) (szB : Nat) : VProc := { vp with allocPtr := vp.allocPtr + szB }

/-! ## Compiled code -/

/-- `heapSlopSzB`. -/
def heapSlopSzB : Nat := allocBufSzB - 512

/-- What a check tests for: a size that is known to the compiler (`HeapCheck`), or a number of elements
    (`HeapCheckN`). -/
inductive Check where
  | size (szB : Nat)
  | count (n : BitVec 32) (szB : Nat)
  deriving DecidableEq

/-- The comparison of `genAllocCheck`. -/
def genAllocCheck (szB : Nat) (limitPtr apReg : Word) : Bool :=
  if szB ≤ heapSlopSzB then (limitPtr - apReg).sle 0
  else (limitPtr - apReg).sle (ofNat 64 szB)

/-- The comparison of `genAllocNCheck`. -/
def genAllocNCheck (n : BitVec 32) (szB : Nat) (limitPtr apReg : Word) : Bool :=
  (limitPtr - apReg).sle (ofNat 64 szB * (4 + n.setWidth 64))

/-- The branch to `doGC` is taken. -/
def allocCheck (c : Check) (vp : VProc) : Bool :=
  match c with
  | .size szB => genAllocCheck szB (ofNat 64 vp.limitPtr) (ofNat 64 vp.allocPtr)
  | .count n szB => genAllocNCheck n szB (ofNat 64 vp.limitPtr) (ofNat 64 vp.allocPtr)

/-- The bytes that the check is for. -/
def Check.tested : Check → Nat
  | .size szB => szB
  | .count n szB => szB * (4 + n.toNat)

/-- The bytes of the tuple that `processGCRoots` allocates; without roots there is none. -/
def rootTupleSzB (roots : List Ty) : Nat :=
  if roots.isEmpty then 0 else (roots.map alignedTySzB).sum + wordSzB

/-! ## The runtime -/

/-- A collector: where it leaves the old data, and whether a global collection is still pending. -/
abbrev Collector := VProc → Nat × Bool

/-- What `RunManticore` goes on with. -/
inductive Target where
  /-- The continuation of the check. -/
  | stdCont
  /-- The scheduler, with the continuation of the check in a new object. -/
  | schedCont
  deriving DecidableEq

section

variable (cfg : Config) (gc : Collector)

/-- `MinorGC`. -/
def minorGC (vp : VProc) : VProc :=
  let (oldTop, pending) := gc vp
  setAllocPtr cfg { vp with oldTop := oldTop, globalGCPending := pending }

/-- The case `REQ_GC` of `RunManticore`: whether it collects, how it goes on, and the vproc then. -/
def runManticore (vp : VProc) : Bool × Target × VProc :=
  let oldLimitPtr := vp.limitPtr
  let vp := { vp with limitPtr := limitPtrOf cfg vp }
  let collects := limitPtrOf cfg vp ≤ vp.allocPtr || vp.globalGCPending
  let vp := if collects then minorGC cfg gc vp else vp
  let vp := if oldLimitPtr = 0 then { vp with sigPending := true } else vp
  if vp.sigPending && !vp.atomic then
    (collects, .schedCont, { vp.alloc (wordSzB * 4) with atomic := true, sigPending := false })
  else (collects, .stdCont, vp)

/-! ## Runs -/

/-- Where a vproc is. -/
inductive Phase where
  /-- At the check, `gcTest`. -/
  | test (c : Check) (roots : List Ty)
  /-- After a check, with some of the tested bytes left. -/
  | code (budget : Nat)
  /-- In the runtime, after a check that failed; `lacks` when it would fail with the real limit. -/
  | gc (c : Check) (roots : List Ty) (lacks : Bool)

structure State where
  vp : VProc
  phase : Phase

/-- The check fails for lack of space: it does so with the real limit. -/
def lacksSpace (c : Check) (vp : VProc) : Bool := allocCheck c { vp with limitPtr := limitPtrOf cfg vp }

/-- The steps of a vproc and of those that interrupt it. Checks come with the sizes and roots that `allowed`
    holds of. -/
inductive Step (allowed : Check → List Ty → Prop) : State → State → Prop
  | pass {vp : VProc} {c : Check} {roots : List Ty} : allocCheck c vp = false →
      Step allowed ⟨vp, .test c roots⟩ ⟨vp, .code c.tested⟩
  | fail {vp : VProc} {c : Check} {roots : List Ty} : allocCheck c vp = true →
      Step allowed ⟨vp, .test c roots⟩ ⟨vp.alloc (rootTupleSzB roots), .gc c roots (lacksSpace cfg c vp)⟩
  | alloc {vp : VProc} {budget k : Nat} : k ≤ budget → wordSzB ∣ k →
      Step allowed ⟨vp, .code budget⟩ ⟨vp.alloc k, .code (budget - k)⟩
  | next {vp : VProc} {budget : Nat} {c : Check} {roots : List Ty} : allowed c roots →
      Step allowed ⟨vp, .code budget⟩ ⟨vp, .test c roots⟩
  | retry {vp vp' : VProc} {c : Check} {roots : List Ty} {lacks collects : Bool} :
      runManticore cfg gc vp = (collects, .stdCont, vp') → Step allowed ⟨vp, .gc c roots lacks⟩ ⟨vp', .test c roots⟩
  | signal {vp vp' : VProc} {c : Check} {roots : List Ty} {lacks collects : Bool} :
      runManticore cfg gc vp = (collects, .schedCont, vp') → Step allowed ⟨vp, .gc c roots lacks⟩ ⟨vp', .code 0⟩
  /-- `VProcPreempt`. -/
  | preempt (s : State) : Step allowed s { s with vp := { s.vp with limitPtr := 0 } }
  /-- Another vproc starts a global collection. -/
  | startGlobal (s : State) : Step allowed s { s with vp := { s.vp with globalGCPending := true } }
  /-- Compiled code masks and unmasks signals. -/
  | mask {vp : VProc} {budget : Nat} (atomic sigPending : Bool) :
      Step allowed ⟨vp, .code budget⟩ ⟨{ vp with atomic := atomic, sigPending := sigPending }, .code budget⟩

/-- `RunManticore` on a fresh vproc, with the two words it wraps. -/
def start (heapBase : Nat) : State where
  vp := (setAllocPtr cfg ⟨heapBase, heapBase, 0, 0, heapBase + cfg.vpHeapSzB - allocBufSzB, false, false, true⟩).alloc
    (2 * (wordSzB * 2))
  phase := .code 0

inductive Reach (allowed : Check → List Ty → Prop) (heapBase : Nat) : State → Prop
  | start : Reach allowed heapBase (start cfg heapBase)
  | step {s s' : State} : Reach allowed heapBase s → Step cfg gc allowed s s' → Reach allowed heapBase s'

/-! ## What should hold -/

/-- The loop of check and retry, without further signals, comes to the code after the check or leaves for the
    scheduler. -/
inductive RetryEnds (c : Check) (roots : List Ty) : VProc → Prop
  | pass {vp : VProc} : allocCheck c vp = false → RetryEnds c roots vp
  | signal {vp vp' : VProc} {collects : Bool} : allocCheck c vp = true →
      runManticore cfg gc (vp.alloc (rootTupleSzB roots)) = (collects, .schedCont, vp') → RetryEnds c roots vp
  | retry {vp vp' : VProc} {collects : Bool} : allocCheck c vp = true →
      runManticore cfg gc (vp.alloc (rootTupleSzB roots)) = (collects, .stdCont, vp') → RetryEnds c roots vp' →
      RetryEnds c roots vp

/-- The tested size fits every nursery that a collection leaves. -/
def FitsEmpty (c : Check) (vp : VProc) : Prop :=
  ∀ vp', vp'.heapBase = vp.heapBase → lacksSpace cfg c (minorGC cfg gc vp') = false

/-- Compiled code and runtime agree in a state. -/
structure Agrees (s : State) : Prop where
  /-- All that has been allocated is below the end of the nursery, a root tuple too. -/
  inside : s.vp.allocPtr ≤ top cfg s.vp + wordSzB
  /-- What is allocated up to the next check stays there. -/
  budget : ∀ b, s.phase = .code b → s.vp.allocPtr + b ≤ top cfg s.vp + wordSzB
  /-- After a check that failed for lack of space the runtime collects. -/
  collects : ∀ c roots, s.phase = .gc c roots true → (runManticore cfg gc s.vp).1 = true
  /-- The loop ends if the size fits an empty nursery. -/
  ends : ∀ c roots, s.phase = .test c roots → FitsEmpty cfg gc c s.vp → RetryEnds cfg gc c roots s.vp

end

/-! ## What is relied on -/

/-- The sizes are those of the runtime, and the addresses are far from the sign bit. -/
structure Config.OK (cfg : Config) (heapBase : Nat) : Prop where
  maxNursery : minNurserySzB ≤ cfg.maxNurserySzB
  heapSize : 2 * minNurserySzB ≤ cfg.vpHeapSzB
  alignMax : wordSzB ∣ cfg.maxNurserySzB
  alignSize : wordSzB ∣ cfg.vpHeapSzB
  alignBase : wordSzB ∣ heapBase
  addresses : heapBase + cfg.vpHeapSzB < 2 ^ 62
  base : 0 < heapBase

/-- A collection leaves room for the smallest nursery. -/
def Collector.OK (cfg : Config) (gc : Collector) : Prop :=
  ∀ vp, (gc vp).1 + 2 * minNurserySzB ≤ top cfg vp

/-- The roots fit the slop that checks leave, and the size of a check that compares with it is smaller than what
    the root tuple moves the allocation pointer by. -/
def Harmless (c : Check) (roots : List Ty) : Prop :=
  rootTupleSzB roots ≤ 528 ∧ ((∃ szB, c = .size szB ∧ szB ≤ heapSlopSzB) ∨ c.tested < rootTupleSzB roots + wordSzB)

end Manticore.Codegen.HeapCheck
