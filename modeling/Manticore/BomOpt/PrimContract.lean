/-
  Manticore.BomOpt.PrimContract — contraction of a primitive whose arguments are bound to constants
  (`bom-opt/prim-contract.sml`), and the expression trees it is applied to.

  `contract` takes the bindings of the arguments (`bind`) and the type of the variable the primitive is bound to.
  A tree is a nest of primitives over variables and integer literals; one contraction replaces a primitive on
  literals by the literal (`Step`).
-/

import Manticore.Bom.Syntax
import Manticore.ConstArith.Wrapping
import Manticore.Codegen.PrimGen

namespace Manticore.BomOpt.PrimContract

open ConstArith Codegen

/-- What a variable is bound to. -/
inductive Binding where
  | Var (y : Manticore.Var)
  | Prim (p : PrimOp) (ys : List Manticore.Var)
  | Int (n : Int)
  | Enum (w : Nat)

/-- `arith_result`. -/
inductive ArithResult where
  | NEW (b : Binding)
  | SAME

/-- `const_fold_result`: no change, a new right-hand side, or the variable to use instead. `Div` is raised. -/
inductive ConstFoldResult where
  | FAIL
  | replRHS (rhs : Bom.Rhs Manticore.Var)
  | extend (y : Manticore.Var)
  | Div

/-- `PrimUtil.isPure`. -/
def isPure : PrimOp → Bool
  | .adrStoreI8 | .adrStoreI16 | .adrStoreI32 | .adrStoreI64 | .adrStoreF32 | .adrStoreF64 | .adrStoreAdr | .adrStore
  | .arrStoreI32 | .arrStoreI64 | .arrStoreF32 | .arrStoreF64 | .arrStore
  | .i32FetchAndAdd | .i64FetchAndAdd | .cas | .pause | .fenceRead | .fenceWrite | .fenceRW | .timeStampCounter => false
  | _ => true

section

variable (wordSize : Nat) (ty : Bom.Ty)

def handleRes : ArithResult → ConstFoldResult
  | .SAME => .FAIL
  | .NEW (.Int c) => .replRHS (.const (.int c) ty)
  | .NEW (.Enum c) => .replRHS (.const (.enum c) ty)
  | .NEW (.Prim p ys) => .replRHS (.prim p ys)
  | .NEW (.Var y) => .extend y

/-- The result of an operation that may raise `Div`. -/
def folded : Option Int → ConstFoldResult
  | some c => handleRes ty (.NEW (.Int c))
  | none => .Div

/-- `try`. -/
def try_ (width : Nat) (algSimp : Binding → Binding → ArithResult) (arith : Nat → Int → Int → Option Int) :
    List Binding → ConstFoldResult
  | [.Int a, .Int b] => folded ty (arith width a b)
  | [a, b] => handleRes ty (algSimp a b)
  | _ => .FAIL

def try1 (width : Nat) (arith : Nat → Int → Int) : List Binding → ConstFoldResult
  | [.Int a] => handleRes ty (.NEW (.Int (arith width a)))
  | _ => .FAIL

/-- `try_chk0`: nothing is done when the divisor is 0. -/
def try_chk0 (width : Nat) (algSimp : Binding → Binding → ArithResult) (arith : Nat → Int → Int → Option Int) :
    List Binding → ConstFoldResult
  | [_, .Int 0] => handleRes ty .SAME
  | ab => try_ ty width algSimp arith ab

/-! ## Algebraic simplifications -/

def NOTHING (_ _ : Binding) : ArithResult := .SAME

def add : Binding → Binding → ArithResult
  | other, .Int 0 => .NEW other
  | .Int 0, other => .NEW other
  | _, _ => .SAME

def mul : Binding → Binding → ArithResult
  | _, .Int 0 => .NEW (.Int 0)
  | .Int 0, _ => .NEW (.Int 0)
  | other, .Int 1 => .NEW other
  | .Int 1, other => .NEW other
  | _, _ => .SAME

def sub : Binding → Binding → ArithResult
  | other, .Int 0 => .NEW other
  | .Var a, .Var b => if a = b then .NEW (.Int 0) else .SAME
  | _, _ => .SAME

def divv : Binding → Binding → ArithResult
  | .Int 0, _ => .NEW (.Int 0)
  | any, .Int 1 => .NEW any
  | _, _ => .SAME

def andd : Binding → Binding → ArithResult
  | .Int 0, _ => .NEW (.Int 0)
  | _, .Int 0 => .NEW (.Int 0)
  | _, _ => .SAME

def or_ : Binding → Binding → ArithResult
  | .Int 0, any => .NEW any
  | any, .Int 0 => .NEW any
  | _, _ => .SAME

def xor_ : Binding → Binding → ArithResult
  | .Var x, .Var y => if x = y then .NEW (.Int 0) else .SAME
  | _, _ => .SAME

/-! ## Contraction -/

/-- An operation that raises nothing. -/
def total (f : Nat → Int → Int → Int) (w : Nat) (a b : Int) : Option Int := some (f w a b)

/-- `contract`, on the bindings of the arguments of a primitive bound to a variable of type `ty`. -/
def contract (p : PrimOp) (ab : List Binding) : ConstFoldResult :=
  if !isPure p then .FAIL
  else match p with
    | .i32Add => try_ ty 32 add (total sAdd) ab
    | .i32Sub => try_ ty 32 sub (total sSub) ab
    | .i32Mul => try_ ty 32 mul (total sMul) ab
    | .i32Div => try_chk0 ty 32 divv sQuot ab
    | .i32Mod => try_chk0 ty 32 NOTHING sRem ab
    | .i32Neg => try1 ty 32 sNeg ab
    | .u32Mul => try_ ty 32 mul (total uMul) ab
    | .u32Div => try_chk0 ty 32 divv uDiv ab
    | .u32Rem => try_chk0 ty 32 NOTHING uMod ab
    | .i32AndB => try_ ty 32 andd (total bAnd) ab
    | .i32OrB => try_ ty 32 or_ (total bOr) ab
    | .i32XorB => try_ ty 32 xor_ (total bXor) ab
    | .i32NotB => try1 ty 32 bNot ab
    | .i32LSh => try_ ty 32 NOTHING (total (uShL wordSize)) ab
    | .i32RSh => try_ ty 32 NOTHING (total (uShR wordSize)) ab
    | .i64Add => try_ ty 64 add (total sAdd) ab
    | .i64Sub => try_ ty 64 sub (total sSub) ab
    | .i64Mul => try_ ty 64 mul (total sMul) ab
    | .i64Div => try_chk0 ty 64 divv sQuot ab
    | .i64Mod => try_chk0 ty 64 NOTHING sRem ab
    | .i64Neg => try1 ty 64 sNeg ab
    | .u64Mul => try_ ty 64 mul (total uMul) ab
    | .u64Div => try_chk0 ty 64 divv uDiv ab
    | .u64Rem => try_chk0 ty 64 NOTHING uMod ab
    | .i64AndB => try_ ty 64 andd (total bAnd) ab
    | .i64OrB => try_ ty 64 or_ (total bOr) ab
    | .i64XorB => try_ ty 64 xor_ (total bXor) ab
    | .i64NotB => try1 ty 64 bNot ab
    | .i64LSh => try_ ty 64 NOTHING (total (uShL wordSize)) ab
    | .i64RSh => try_ ty 64 NOTHING (total (uShR wordSize)) ab
    | _ => .FAIL

end

/-! ## Trees -/

/-- A nest of pure primitives. -/
inductive Tree where
  | var (x : Manticore.Var)
  | lit (ty : RawTy) (n : Int)
  | prim (p : PrimOp) (args : List Tree)

mutual

/-- The value of a tree; `none` is a trap. -/
def Tree.eval (other : PrimOp → List Reg → Option Reg) (ρ : Manticore.Var → Reg) : Tree → Option Reg
  | .var x => some (ρ x)
  | .lit ty n => some (litVal ty n)
  | .prim p args => do
    let vs ← evalArgs other ρ args
    primVal other p vs

def evalArgs (other : PrimOp → List Reg → Option Reg) (ρ : Manticore.Var → Reg) : List Tree → Option (List Reg)
  | [] => some []
  | a :: args => do
    let v ← a.eval other ρ
    let vs ← evalArgs other ρ args
    return v :: vs

end

/-- The type of a primitive's arguments and result. -/
def resTy (p : PrimOp) : RawTy :=
  match genPrim p with
  | some (.genArith1 ty _) | some (.genArith2 ty _) => if ty = i32Ty then .int else .long
  | none => .long

/-- The primitive `p`, applied somewhere in the tree to the literals `ns`, is replaced by the literal `contract`
    computes. -/
inductive Step (wordSize : Nat) (p : PrimOp) (ns : List Int) : Tree → Tree → Prop
  | here {c : Int} : contract wordSize (.raw (resTy p)) p (ns.map .Int) = .replRHS (.const (.int c) (.raw (resTy p))) →
      Step wordSize p ns (.prim p (ns.map (.lit (resTy p)))) (.lit (resTy p) c)
  | arg {q : PrimOp} {pre post : List Tree} {a a' : Tree} : Step wordSize p ns a a' →
      Step wordSize p ns (.prim q (pre ++ a :: post)) (.prim q (pre ++ a' :: post))

end Manticore.BomOpt.PrimContract
