/-
  Manticore.Parray.FArray — flattened arrays: a rope of data and a tree of intervals into it (`basis/parray/shape.pml`,
  `farray.pml`, `flatten_IF_F` of `farray-util.pml`; `int-farray.pml` is the same over ints, but for the empty array).
-/

import Manticore.Parray.FromSeq

namespace Manticore.Parray

inductive Shape where
  /-- Lower bound inclusive, upper bound exclusive. -/
  | lf (lo hi : Int)
  | nd (ts : List Shape)

namespace Shape

mutual

def minIdx : Shape → Except Exn Int
  | lf i _ => .ok i
  | nd ts => minIdxHd ts

/-- `minIdx (List.hd ts)`. -/
def minIdxHd : List Shape → Except Exn Int
  | [] => .error (.fail "List.hd")
  | t :: _ => minIdx t

end

mutual

def maxIdx : Shape → Except Exn Int
  | lf _ i => .ok i
  | nd ts => maxIdxLast ts

def maxIdxLast : List Shape → Except Exn Int
  | [] => .error (.fail "maxIdx - empty Nd")
  | t :: tl => match tl with
    | [] => maxIdx t
    | _ :: _ => maxIdxLast tl

end

def span (t : Shape) : Except Exn (Int × Int) := do
  return (← minIdx t, ← maxIdx t)

mutual

def incrBy (i : Int) : Shape → Shape
  | lf lo hi => lf (lo + i) (hi + i)
  | nd ts => nd (incrBys i ts)

def incrBys (i : Int) : List Shape → List Shape
  | [] => []
  | t :: ts => incrBy i t :: incrBys i ts

end

end Shape

structure FArray (α : Type) where
  data : Rope α
  shape : Shape

variable {α : Type} (M : Int)

namespace FArray

def empty : FArray α := ⟨.empty, .lf 0 1⟩

/-- The loop of `concatRope`, with the number of arrays to come. -/
def concatLp (fs : Rope (FArray α)) : Nat → Int → Int → Rope α → List Shape → Except Exn (FArray α)
  | 0, _, _, data, ts => .ok ⟨data, .nd ts.reverse⟩
  | k + 1, curr, i, data, ts => do
    let ⟨d, t⟩ ← sub fs curr
    let data' := ccat2 M data d
    let t' := t.incrBy i
    let i' ← t'.maxIdx
    concatLp fs k (curr + 1) i' data' (t' :: ts)

def concatRope (fs : Rope (FArray α)) : Except Exn (FArray α) := concatLp M fs fs.length.toNat 0 0 .empty []

def flatten (f : FArray (FArray α)) : Except Exn (FArray α) := concatRope M f.data

def length (a : FArray α) : Int := match a.shape with
  | .lf lo hi => hi - lo
  | .nd ts => ts.length

def flatSub (a : FArray α) (i : Int) : Except Exn α := match a.shape with
  | .lf lo _ => sub a.data (lo + i)
  | .nd _ => .error (.fail "flatSub - Nd")

/-- `List.nth`. -/
def nth : List Shape → Nat → Except Exn Shape
  | [], 0 => .error (.fail "List.hd")
  | x :: _, 0 => .ok x
  | [], _ + 1 => .error (.fail "List.tl")
  | _ :: xs, n + 1 => nth xs n

def nestedSub (a : FArray α) (i : Int) : Except Exn (FArray α) := match a.shape with
  | .nd ts => do
    let t ← if i ≥ 0 then nth ts i.toNat else .error (.fail "subscript")
    return ⟨a.data, t⟩
  | .lf _ _ => .error (.fail "nestedSub - Lf")

def fromList (n : Nat) (xs : List α) : Except Exn (FArray α) := match xs with
  | [] => .ok empty
  | _ => do
    let data ← Parray.fromList M n xs
    return ⟨data, .lf 0 data.length⟩

/-- `clean`, with the way a rope is built and what it says where it should never come. -/
def cleanWith (fromSeq : List α → Except Exn (Rope α)) (bug : String) (a : FArray α) : Except Exn (FArray α) :=
  match a.shape with
  | .lf lo hi =>
    if lo = 0 ∧ hi = a.data.length then .ok a
    else do
      let data' ← fromSeq (← partialSeq a.data lo hi)
      return ⟨data', .lf 0 (hi - lo)⟩
  | .nd ts => do
    let (lo, hi) ← (Shape.nd ts).span
    let data' ← fromSeq (← partialSeq a.data lo hi)
    if lo = 0 then return ⟨data', .nd ts⟩
    else if lo > 0 then return ⟨data', (Shape.nd ts).incrBy (-lo)⟩
    else .error (.fail bug)

def clean (n : Nat) : FArray α → Except Exn (FArray α) := cleanWith (fromSeq M n) "clean - this should never happen"

end FArray

namespace IntFArray

def empty : FArray α := ⟨.empty, .lf 0 0⟩

def fromList (n : Nat) (xs : List α) : Except Exn (FArray α) := do
  let data ← Parray.fromList M n xs
  return ⟨data, .lf 0 data.length⟩

def clean (n : Nat) : FArray α → Except Exn (FArray α) := FArray.cleanWith (IntRope.fromSeq M n) "clean - bug"

end IntFArray

namespace FArrayUtil

/-- The loop of `fromList`. -/
def fromListLp (policy : ChunkingPolicy) (n : Nat) : List (FArray α) → Rope α → List Shape → Int → Except Exn (FArray α)
  | [], ropeAcc, shapeAcc, _ => do
    let r ← balance M policy n ropeAcc
    return ⟨r, .nd shapeAcc.reverse⟩
  | ⟨r, s⟩ :: t, ropeAcc, shapeAcc, i => do
    let r' := ccat2 M ropeAcc r
    let s' := s.incrBy i
    let i' ← s'.maxIdx
    fromListLp policy n t r' (s' :: shapeAcc) i'

def fromList (policy : ChunkingPolicy) (n : Nat) : List (FArray α) → Except Exn (FArray α)
  | [] => .ok IntFArray.empty
  | ⟨r, s⟩ :: t => do
    let i ← s.maxIdx
    fromListLp M policy n t r [s] i

/-- The loop of `flatten_IF_F`, with the number of elements to come, the last first. -/
def elements {β : Type} (data : Rope β) : Nat → List β → Except Exn (List β)
  | 0, acc => .ok acc
  | i + 1, acc => do
    let x ← sub data i
    elements data i (x :: acc)

def flatten_IF_F (policy : ChunkingPolicy) (n : Nat) (iff : FArray (FArray α)) : Except Exn (FArray α) := do
  let f ← FArray.clean M n iff
  match f.shape with
  | .lf _ hi => do
    let fs ← elements f.data hi.toNat []
    fromList M policy n fs
  | .nd _ => .error (.fail "flatten_IF_F - not a flat farray")

end FArrayUtil

end Manticore.Parray
