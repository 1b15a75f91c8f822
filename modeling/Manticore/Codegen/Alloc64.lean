/-
  Manticore.Codegen.Alloc64 — the layout and header of a tuple allocated in the local heap
  (`codegen/alloc64-fn.sml`, `codegen/amd64/amd64-types.sml`, `cfg/cfg-ty-util.sml`), and the address a
  selection reads from.

  An allocation takes the values of the fields as they are; what it produces is the number of bytes, the header
  word and the stores in order. The ABI is the one of AMD64: words of 8 bytes.
-/

import Manticore.Cfg.Syntax
import Manticore.Codegen.HeaderTable
import Manticore.ParallelRt.Header

namespace Manticore.Codegen

open Cfg (Ty)
open ParallelRt (Word)

/-! ## Types -/

/-- `CFGTy.kind`. -/
inductive Kind where
  | raw | boxed | unboxed | uniform | any | type
  deriving DecidableEq, Repr

/-- `CFGTyUtil.isKind`. -/
def isKind : Kind → Kind → Bool
  | .type, _ => true
  | .any, .uniform | .any, .boxed | .any, .unboxed => true
  | .uniform, .boxed | .uniform, .unboxed => true
  | k1, k2 => k1 == k2

/-- `CFGTyUtil.kindOf`, which has no clause for a block. -/
def kindOf : Ty → Except String Kind
  | .any => .ok .any
  | .enum _ => .ok .unboxed
  | .raw _ => .ok .raw
  | .tuple _ _ => .ok .boxed
  | .openTuple _ => .ok .boxed
  | .addr _ => .ok .type
  | .cfun _ _ => .ok .uniform
  | .vproc => .ok .raw
  | .deque => .ok .raw
  | .stdFun _ _ _ _ => .ok .raw
  | .stdCont _ _ => .ok .raw
  | .knownFunc _ _ => .ok .type
  | .block _ => .error "Match"

/-- `CFGTyUtil.hasUniformRep`. -/
def hasUniformRep (ty : Ty) : Except String Bool := do
  let k ← kindOf ty
  return isKind .uniform k

def wordSzB : Nat := 8
def wordAlignB : Nat := 8
def maxObjectSzB : Nat := 281474976710655

def alignedRawTySzB : RawTy → Nat
  | .vec128 => 16
  | _ => wordAlignB

def alignedTySzB : Ty → Nat
  | .raw rt => alignedRawTySzB rt
  | _ => wordAlignB

/-! ## Selection -/

/-- The byte offset of the `i`-th of a list of fields. -/
def tupleOffset (tys : List Ty) (i : Nat) : Except String Nat := offset tys 0 0
where
  offset : List Ty → Nat → Nat → Except String Nat
    | ty :: tys, j, sz => if j ≥ i then .ok sz else offset tys (j + 1) (alignedTySzB ty + sz)
    | [], _, _ => .error "offset"

/-- The offset `select` and `tupleAddrOf` add to the address of a value of type `mty`. -/
def selectOffset (mty : Ty) (i : Nat) : Except String Nat :=
  match mty with
  | .tuple _ tys | .openTuple tys => tupleOffset tys i
  | .deque => .ok (wordSzB * i)
  | _ => .error "cannot offset from type"

/-! ## Allocation -/

/-- The type may be represented by a pointer into the heap. -/
def isHeapPointer : Ty → Bool
  | .any | .tuple _ _ | .openTuple _ => true
  | _ => false

def setBit (w : Mask) (ty : Ty) : Mask := if isHeapPointer ty then true :: w else false :: w

/-- The state of the fold over the fields. -/
structure Init (V : Type) where
  i : Nat
  stms : List (Nat × V)
  totalSize : Nat
  ptrMask : Mask

variable {V : Type}

def initObj (s : Init V) (arg : Ty × V) : Init V where
  i := s.i + 1
  stms := (s.totalSize, arg.2) :: s.stms
  totalSize := alignedTySzB arg.1 + s.totalSize
  ptrMask := setBit s.ptrMask arg.1

def initObjs (args : List (Ty × V)) : Init V := args.foldl initObj ⟨0, [], 0, []⟩

def hdrWord (nWords id : Nat) : Word := (BitVec.ofNat 64 nWords <<< 16) ||| (BitVec.ofNat 64 id <<< 1) ||| 1

/-- The bytes after the header, the header, and the stores (an offset from the allocation pointer and a value). -/
structure Obj (V : Type) where
  totalSize : Nat
  hdr : Word
  stms : List (Nat × V)

def allocMixedObj (t : HeaderTable) (args : List (Ty × V)) : Except String (Obj V × HeaderTable) :=
  let s := initObjs args
  let (id, t) := t.addHdr s.ptrMask
  if s.totalSize > maxObjectSzB then .error "object size too large"
  else .ok (⟨s.totalSize, hdrWord s.i id, s.stms⟩, t)

def allocVectorObj (args : List (Ty × V)) : Obj V :=
  let s := initObjs args
  ⟨s.totalSize, hdrWord s.i 1, s.stms⟩

def allocRawObj (args : List (Ty × V)) : Obj V :=
  let s := initObjs args
  ⟨s.totalSize, hdrWord s.i 0, s.stms⟩

/-- Whether the fields have a heap pointer and whether they have a raw value. -/
def classify : Bool → Bool → List (Ty × V) → Except String (Bool × Bool)
  | hasPtr, hasRaw, (x, _) :: xs =>
    if isHeapPointer x then classify true hasRaw xs
    else do
      if ← hasUniformRep x then classify hasPtr hasRaw xs
      else classify hasPtr true xs
  | hasPtr, hasRaw, [] => .ok (hasPtr, hasRaw)

def alloc (t : HeaderTable) (args : List (Ty × V)) : Except String (Obj V × HeaderTable) := do
  let (obj, t) ← match ← classify false false args with
    | (true, false) => pure (allocVectorObj args, t)
    | (true, true) => allocMixedObj t args
    | (false, _) => pure (allocRawObj args, t)
  return ({ obj with stms := obj.stms.reverse }, t)

/-- What `genAlloc` allocates: nothing (its value is the nil pointer) when there are no fields. -/
def genAlloc (t : HeaderTable) (tys : List Ty) (args : List V) : Except String (Option (Obj V) × HeaderTable) :=
  if tys.isEmpty then .ok (none, t)
  else if tys.length = args.length then do
    let (obj, t) ← alloc t (tys.zip args)
    return (some obj, t)
  else .error "UnequalLengths"

/-- What `genAlloc` adds to the allocation pointer. -/
def Obj.bump (obj : Obj V) : Nat := obj.totalSize + wordSzB

end Manticore.Codegen
