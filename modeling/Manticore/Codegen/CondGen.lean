/-
  Manticore.Codegen.CondGen — the comparison the code generator emits for a condition (`genCond`,
  `codegen/prim-gen-fn.sml`), and its value on registers.

  A comparison of width `w` reads the low `w` bits of its arguments. A float is compared by its bit pattern: sign
  and magnitude order the numbers, zeros of either sign are equal, and nothing is equal to a NaN or ordered with one.
  `<>` is the negation of `==`, as in IEEE arithmetic.
-/

import Manticore.Codegen.PrimGen

namespace Manticore.Codegen

/-- The conditions of `T.CMP`. -/
inductive Cmp where
  | EQ | NE | LT | LE | GT | GE | LTU
  deriving DecidableEq, Repr

def Cmp.run {w : Nat} (c : Cmp) (a b : BitVec w) : Bool :=
  match c with
  | .EQ => decide (a = b)
  | .NE => decide (a ≠ b)
  | .LT => a.slt b
  | .LE => a.sle b
  | .GT => b.slt a
  | .GE => b.sle a
  | .LTU => a.ult b

/-- The conditions of `T.FCMP`: `==`, `<>`, `<`, `<=`, `>` and `>=`. -/
inductive FCmp where
  | EQ | NE | LT | LE | GT | GE
  deriving DecidableEq, Repr

/-! ## Floats -/

/-- The pattern of the positive infinity. -/
def infinity (w : Nat) : Nat := if w = 32 then 0x7f800000 else 0x7ff0000000000000

def magnitude {w : Nat} (x : BitVec w) : Nat := x.toNat % 2 ^ (w - 1)

def isNaN {w : Nat} (x : BitVec w) : Bool := decide (infinity w < magnitude x)

/-- The numbers in their order. -/
def signed {w : Nat} (x : BitVec w) : Int := if x.msb then -magnitude x else magnitude x

def FCmp.run {w : Nat} (c : FCmp) (x y : BitVec w) : Bool :=
  let ordered := !isNaN x && !isNaN y
  match c with
  | .EQ => ordered && decide (signed x = signed y)
  | .NE => !(ordered && decide (signed x = signed y))
  | .LT => ordered && decide (signed x < signed y)
  | .LE => ordered && decide (signed x ≤ signed y)
  | .GT => ordered && decide (signed y < signed x)
  | .GE => ordered && decide (signed y ≤ signed x)

/-! ## Conditions -/

/-- `genCmp` and `genFCmp`, with the width, and the test of the tag bit. -/
inductive CondTest where
  | tag (set : Bool)
  | genCmp (ty : Nat) (c : Cmp)
  | genFCmp (ty : Nat) (c : FCmp)
  deriving DecidableEq, Repr

def anyTy : Nat := 64
def f32Ty : Nat := 32
def f64Ty : Nat := 64

/-- `genCond`, the atomic operations left out. -/
def genCond : CondOp → Option CondTest
  | .isBoxed => some (.tag false)
  | .isUnboxed => some (.tag true)
  | .equal => some (.genCmp anyTy .EQ)
  | .notEqual => some (.genCmp anyTy .NE)
  | .enumEq => some (.genCmp i32Ty .EQ)
  | .enumNEq => some (.genCmp i32Ty .NE)
  | .i32Eq => some (.genCmp i32Ty .EQ)
  | .i32NEq => some (.genCmp i32Ty .NE)
  | .i32Lt => some (.genCmp i32Ty .LT)
  | .i32Lte => some (.genCmp i32Ty .LE)
  | .i32Gt => some (.genCmp i32Ty .GT)
  | .i32Gte => some (.genCmp i32Ty .GE)
  | .u32Lt => some (.genCmp i32Ty .LTU)
  | .i64Eq => some (.genCmp i64Ty .EQ)
  | .i64NEq => some (.genCmp i64Ty .NE)
  | .i64Lt => some (.genCmp i64Ty .LT)
  | .i64Lte => some (.genCmp i64Ty .LE)
  | .i64Gt => some (.genCmp i64Ty .GT)
  | .i64Gte => some (.genCmp i64Ty .GE)
  | .u64Lt => some (.genCmp i64Ty .LTU)
  | .f32Eq => some (.genFCmp f32Ty .EQ)
  | .f32NEq => some (.genFCmp f32Ty .NE)
  | .f32Lt => some (.genFCmp f32Ty .LT)
  | .f32Lte => some (.genFCmp f32Ty .LE)
  | .f32Gt => some (.genFCmp f32Ty .GT)
  | .f32Gte => some (.genFCmp f32Ty .GE)
  | .f64Eq => some (.genFCmp f64Ty .EQ)
  | .f64NEq => some (.genFCmp f64Ty .NE)
  | .f64Lt => some (.genFCmp f64Ty .LT)
  | .f64Lte => some (.genFCmp f64Ty .LE)
  | .f64Gt => some (.genFCmp f64Ty .GT)
  | .f64Gte => some (.genFCmp f64Ty .GE)
  | .adrEq => some (.genCmp anyTy .EQ)
  | .adrNEq => some (.genCmp anyTy .NE)
  | .bcas | .i32isSet | .i32TAS => none

/-- The value of a condition; `none` for an atomic operation or a wrong number of arguments. -/
def condVal (op : CondOp) (vs : List Reg) : Option Bool :=
  match genCond op, vs with
  | some (.tag set), [a] => some (decide (a.getLsbD 0 = set))
  | some (.genCmp ty c), [a, b] => some (c.run (a.setWidth ty) (b.setWidth ty))
  | some (.genFCmp ty c), [a, b] => some (c.run (a.setWidth ty) (b.setWidth ty))
  | _, _ => none

end Manticore.Codegen
