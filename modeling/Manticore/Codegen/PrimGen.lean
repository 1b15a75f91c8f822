/-
  Manticore.Codegen.PrimGen — the machine operations the code generator emits for the integer primitives
  (`codegen/prim-gen-fn.sml`).

  A value is a 64-bit register. An operation of width `w` reads the low `w` bits of its arguments; division by zero
  and the signed quotient that does not fit trap, and a shift takes its count modulo the width, as on AMD64.
-/

import Manticore.Machine

namespace Manticore.Codegen

/-- The operators of MLRISC's `T` on two words. -/
inductive Oper2 where
  | ADD | SUB | MULS | MULU | DIVS | REMS | DIVU | REMU | ANDB | ORB | XORB | SLL | SRL
  deriving DecidableEq, Repr

inductive Oper1 where
  | NEG | NOTB
  deriving DecidableEq, Repr

def Oper2.run {w : Nat} (o : Oper2) (a b : BitVec w) : Option (BitVec w) :=
  match o with
  | .ADD => some (a + b)
  | .SUB => some (a - b)
  | .MULS | .MULU => some (a * b)
  | .DIVS => if b = 0 ∨ a = BitVec.intMin w ∧ b = -1 then none else some (a.sdiv b)
  | .REMS => if b = 0 ∨ a = BitVec.intMin w ∧ b = -1 then none else some (a.srem b)
  | .DIVU => if b = 0 then none else some (a / b)
  | .REMU => if b = 0 then none else some (a % b)
  | .ANDB => some (a &&& b)
  | .ORB => some (a ||| b)
  | .XORB => some (a ^^^ b)
  | .SLL => some (a <<< (b.toNat % w))
  | .SRL => some (a >>> (b.toNat % w))

def Oper1.run {w : Nat} (o : Oper1) (a : BitVec w) : BitVec w :=
  match o with
  | .NEG => -a
  | .NOTB => ~~~a

/-- `genArith1` and `genArith2`, with the width. -/
inductive Arith where
  | genArith1 (ty : Nat) (oper : Oper1)
  | genArith2 (ty : Nat) (oper : Oper2)
  deriving DecidableEq, Repr

def i32Ty : Nat := 32
def i64Ty : Nat := 64

/-- The cases of `genPrim` for 32-bit and 64-bit integers. -/
def genPrim : PrimOp → Option Arith
  | .i32Add => some (.genArith2 i32Ty .ADD)
  | .i32Sub => some (.genArith2 i32Ty .SUB)
  | .i32Mul => some (.genArith2 i32Ty .MULS)
  | .i32Div => some (.genArith2 i32Ty .DIVS)
  | .i32Mod => some (.genArith2 i32Ty .REMS)
  | .i32Neg => some (.genArith1 i32Ty .NEG)
  | .u32Mul => some (.genArith2 i32Ty .MULU)
  | .u32Div => some (.genArith2 i32Ty .DIVU)
  | .u32Rem => some (.genArith2 i32Ty .REMU)
  | .i32AndB => some (.genArith2 i32Ty .ANDB)
  | .i32OrB => some (.genArith2 i32Ty .ORB)
  | .i32XorB => some (.genArith2 i32Ty .XORB)
  | .i32NotB => some (.genArith1 i32Ty .NOTB)
  | .i32LSh => some (.genArith2 i32Ty .SLL)
  | .i32RSh => some (.genArith2 i32Ty .SRL)
  | .i64Add => some (.genArith2 i64Ty .ADD)
  | .i64Sub => some (.genArith2 i64Ty .SUB)
  | .i64Mul => some (.genArith2 i64Ty .MULS)
  | .i64Div => some (.genArith2 i64Ty .DIVS)
  | .i64Mod => some (.genArith2 i64Ty .REMS)
  | .i64Neg => some (.genArith1 i64Ty .NEG)
  | .u64Mul => some (.genArith2 i64Ty .MULU)
  | .u64Div => some (.genArith2 i64Ty .DIVU)
  | .u64Rem => some (.genArith2 i64Ty .REMU)
  | .i64AndB => some (.genArith2 i64Ty .ANDB)
  | .i64OrB => some (.genArith2 i64Ty .ORB)
  | .i64XorB => some (.genArith2 i64Ty .XORB)
  | .i64NotB => some (.genArith1 i64Ty .NOTB)
  | .i64LSh => some (.genArith2 i64Ty .SLL)
  | .i64RSh => some (.genArith2 i64Ty .SRL)
  | _ => none

/-- A register of the machine. -/
abbrev Reg := BitVec 64

/-- The value of a primitive, with the primitives that are no integer arithmetic of these widths (and wrong
    numbers of arguments) left to `other`; `none` is a trap. -/
def primVal (other : PrimOp → List Reg → Option Reg) (p : PrimOp) (vs : List Reg) : Option Reg :=
  match genPrim p, vs with
  | some (.genArith2 ty oper), [a, b] => (oper.run (a.setWidth ty) (b.setWidth ty)).map (BitVec.setWidth 64)
  | some (.genArith1 ty oper), [a] => some ((oper.run (a.setWidth ty)).setWidth 64)
  | _, _ => other p vs

/-- `sizeOfRawTyB`, in bits. -/
def szOf : RawTy → Nat
  | .byte => 8
  | .short => 16
  | .int => 32
  | .long => 64
  | .float => 32
  | .double => 64
  | .vec128 => 128

/-- An integer constant in a register. -/
def litVal (ty : RawTy) (n : Int) : Reg := (BitVec.ofInt (szOf ty) n).setWidth 64

end Manticore.Codegen
