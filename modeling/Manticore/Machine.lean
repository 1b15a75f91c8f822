/-
  Manticore.Machine — what the BOM and CPS representations share: variables, literals,
  the primitive operators (`prim/prim.sml`, `prim/prim-util.sml`, `prim/cond-util.sml`),
  run-time values, and the machine that executes what the representations do not
  define themselves.

  A value is a literal, an immutable tuple, a data-constructor application, a C
  function, a machine address, or a code pointer. A code pointer names the function or
  continuation it was made for and how many of that name were made before it, so a
  pass that deletes other functions leaves every remaining pointer as it was. Mutable
  tuples, memory, arithmetic, floats, C calls and vproc operations belong to a
  `Machine`, which may report an event for each operation. A machine never forges a
  code pointer: what it returns or keeps was passed to it.
-/

import Mathlib

namespace Manticore

open BitVec (ofInt)

/-- `VarRep.V`: a variable is identified by its stamp. -/
structure Var where
  stamp : Nat
  deriving DecidableEq, Repr

/-- `FloatLit.rep`. -/
inductive FloatLit where
  | posInf
  | negInf
  | qNaN
  | flt (isNeg : Bool) (digits : List Nat) (exp : Int)
  deriving DecidableEq, Repr

/-- `Literal.literal`; `Literal.same` is equality. -/
inductive Literal where
  | enum (w : Nat)
  | stateVal (w : Nat)
  | tag (s : String)
  | int (i : Int)
  | float (f : FloatLit)
  | char (c : Nat)
  | string (s : String)
  | bool (b : Bool)
  deriving DecidableEq, Repr

/-- `RawTypes.raw_ty`. -/
inductive RawTy where
  | byte | short | int | long | float | double | vec128
  deriving DecidableEq, Repr

/-- `CFunctions.c_type`. -/
inductive CType where
  | pointer
  | base (ty : RawTy)
  | void
  deriving DecidableEq, Repr

/-- The constructors of `Prim.prim`. -/
inductive PrimOp where
  | i32Add | i32Sub | i32Mul | i32Div | i32Mod | i32Neg | u32Mul | u32Div | u32Rem | i32AndB | i32OrB | i32XorB
  | i32NotB | i32LSh | i32RSh | i64Add | i64Sub | i64Mul | i64Div | i64Mod | i64Neg | u64Mul | u64Div | u64Rem
  | i64AndB | i64OrB | i64XorB | i64NotB | i64LSh | i64RSh | f32Add | f32Sub | f32Mul | f32Div | f32Neg
  | f32Sqrt | f32Abs | f64Add | f64Sub | f64Mul | f64Div | f64Neg | f64Sqrt | f64Abs | i8RSh | i16RSh
  | i32ToI64X | i32ToI64 | i64ToI32 | i32ToF32 | i32ToF64 | i64ToF32 | i64ToF64 | f64ToI32 | i32ToI16 | i16ToI8
  | adrAddI32 | adrAddI64 | adrSubI32 | adrSubI64 | adrLoadI8 | adrLoadU8 | adrLoadI16 | adrLoadU16
  | adrLoadI32 | adrLoadI64 | adrLoadF32 | adrLoadF64 | adrLoadAdr | adrLoad | adrStoreI8 | adrStoreI16
  | adrStoreI32 | adrStoreI64 | adrStoreF32 | adrStoreF64 | adrStoreAdr | adrStore | arrLoadI32 | arrLoadI64
  | arrLoadF32 | arrLoadF64 | arrLoad | arrStoreI32 | arrStoreI64 | arrStoreF32 | arrStoreF64 | arrStore
  | i32FetchAndAdd | i64FetchAndAdd | cas | pause | fenceRead | fenceWrite | fenceRW | allocPolyVec
  | allocIntArray | allocLongArray | allocFloatArray | allocDoubleArray | timeStampCounter
  deriving DecidableEq, Repr

/-- The constructors of `Prim.cond`. -/
inductive CondOp where
  | isBoxed | isUnboxed | equal | notEqual | enumEq | enumNEq | i32Eq | i32NEq | i32Lt | i32Lte | i32Gt
  | i32Gte | u32Lt | i64Eq | i64NEq | i64Lt | i64Lte | i64Gt | i64Gte | u64Lt | f32Eq | f32NEq | f32Lt | f32Lte
  | f32Gt | f32Gte | f64Eq | f64NEq | f64Lt | f64Lte | f64Gt | f64Gte | adrEq | adrNEq | bcas | i32isSet
  | i32TAS
  deriving DecidableEq, Repr

/-- A `Prim.cond` over variables (or values) of type `V`; `args` is `CondUtil.varsOf`. -/
structure Cond (V : Type) where
  op : CondOp
  args : List V

/-- The constructor that `CondUtil.explode` rebuilds a condition with. -/
def CondOp.explode : CondOp → CondOp
  | .u32Lt => .u64Lt
  | o => o

/-- `CondUtil.map`. -/
def Cond.map {V V' : Type} (f : V → V') (c : Cond V) : Cond V' := ⟨c.op.explode, c.args.map f⟩

/-- `HLOp.hlop`. -/
structure HLOp where
  id : Nat
  deriving DecidableEq, Repr

/-! ## Values -/

/-- The `idx`-th function or continuation made under the name `name`. -/
structure Handle where
  name : Var
  idx : Nat
  deriving DecidableEq, Repr

inductive Val where
  | lit (l : Literal)
  | tuple (vs : List Val)
  /-- An application of the data constructor with this stamp. -/
  | con (dc : Nat) (vs : List Val)
  | cfun (f : Var)
  | addr (n : Nat)
  | code (h : Handle)

mutual

/-- The code pointers in a value. -/
def Val.codes : Val → List Handle
  | .lit _ | .cfun _ | .addr _ => []
  | .tuple vs | .con _ vs => codesOf vs
  | .code h => [h]

def codesOf : List Val → List Handle
  | [] => []
  | v :: vs => v.codes ++ codesOf vs

end

@[simp] theorem mem_codesOf {h : Handle} {vs : List Val} : h ∈ codesOf vs ↔ ∃ v ∈ vs, h ∈ v.codes := by
  induction vs with
  | nil => simp [codesOf]
  | cons v vs ih => simp [codesOf, ih]

/-! ## Machines -/

/-- The operations a machine executes. `select`, `update` and `addrOf` are those of the
    fields of a mutable tuple (or a vproc or deque). -/
inductive Op where
  | select (i : Nat)
  | update (i : Nat)
  | addrOf (i : Nat)
  | allocMut
  | promote
  | prim (p : PrimOp)
  | ccall
  | hostVProc
  | vpLoad (off : Int)
  | vpStore (off : Int)
  | vpAddr (off : Int)
  deriving DecidableEq, Repr

/-- A high-level operator returns values or throws to one of its handlers. -/
inductive HRes where
  | ret (vs : List Val)
  | throw (k : Val) (vs : List Val)

def HRes.codes : HRes → List Handle
  | .ret vs => codesOf vs
  | .throw k vs => k.codes ++ codesOf vs

structure Machine where
  W : Type
  E : Type
  op : Op → List Val → W → Option (List Val × W × Option E)
  cond : CondOp → List Val → W → Option (Bool × W × Option E)
  hlop : HLOp → List Val → List Val → W → Option (HRes × W × Option E)
  /-- IEEE comparison; `none` is unordered. -/
  fcmp : Val → Val → Option Ordering
  /-- The code pointers kept in memory. -/
  holds : W → Handle → Prop
  op_codes : ∀ {o vs w rs w' e h}, op o vs w = some (rs, w', e) → h ∈ codesOf rs ∨ holds w' h →
    h ∈ codesOf vs ∨ holds w h
  cond_codes : ∀ {o vs w b w' e h}, cond o vs w = some (b, w', e) → holds w' h → h ∈ codesOf vs ∨ holds w h
  hlop_codes : ∀ {o vs ks w r w' e h}, hlop o vs ks w = some (r, w', e) → h ∈ r.codes ∨ holds w' h →
    h ∈ codesOf vs ∨ h ∈ codesOf ks ∨ holds w h

/-- The comparisons a representation decides without the machine's memory; `none` leaves the
    test to the machine. A boxed value never equals an enumeration tag, and the nullary
    constructors of a datatype differ. -/
def Machine.test (M : Machine) : CondOp → List Val → Option Bool
  | .isBoxed, [.lit (.enum _)] => some false
  | .isBoxed, [.tuple _] | .isBoxed, [.code _] => some true
  | .isUnboxed, [.lit (.enum _)] => some true
  | .isUnboxed, [.tuple _] | .isUnboxed, [.code _] => some false
  | .equal, [.lit (.enum a), .lit (.enum b)] | .enumEq, [.lit (.enum a), .lit (.enum b)] => some (a == b)
  | .notEqual, [.lit (.enum a), .lit (.enum b)] | .enumNEq, [.lit (.enum a), .lit (.enum b)] => some (a != b)
  | .equal, [.tuple _, .lit (.enum _)] | .equal, [.code _, .lit (.enum _)] => some false
  | .notEqual, [.tuple _, .lit (.enum _)] | .notEqual, [.code _, .lit (.enum _)] => some true
  | .equal, [.con a [], .con b []] => some (a == b)
  | .notEqual, [.con a [], .con b []] => some (a != b)
  | .i32Eq, [.lit (.int a), .lit (.int b)] => some (ofInt 32 a == ofInt 32 b)
  | .i32NEq, [.lit (.int a), .lit (.int b)] => some (ofInt 32 a != ofInt 32 b)
  | .i32Lt, [.lit (.int a), .lit (.int b)] => some ((ofInt 32 a).slt (ofInt 32 b))
  | .i32Lte, [.lit (.int a), .lit (.int b)] => some ((ofInt 32 a).sle (ofInt 32 b))
  | .i32Gt, [.lit (.int a), .lit (.int b)] => some ((ofInt 32 b).slt (ofInt 32 a))
  | .i32Gte, [.lit (.int a), .lit (.int b)] => some ((ofInt 32 b).sle (ofInt 32 a))
  | .u32Lt, [.lit (.int a), .lit (.int b)] => some ((ofInt 32 a).ult (ofInt 32 b))
  | .i64Eq, [.lit (.int a), .lit (.int b)] => some (ofInt 64 a == ofInt 64 b)
  | .i64NEq, [.lit (.int a), .lit (.int b)] => some (ofInt 64 a != ofInt 64 b)
  | .i64Lt, [.lit (.int a), .lit (.int b)] => some ((ofInt 64 a).slt (ofInt 64 b))
  | .i64Lte, [.lit (.int a), .lit (.int b)] => some ((ofInt 64 a).sle (ofInt 64 b))
  | .i64Gt, [.lit (.int a), .lit (.int b)] => some ((ofInt 64 b).slt (ofInt 64 a))
  | .i64Gte, [.lit (.int a), .lit (.int b)] => some ((ofInt 64 b).sle (ofInt 64 a))
  | .u64Lt, [.lit (.int a), .lit (.int b)] => some ((ofInt 64 a).ult (ofInt 64 b))
  | .f32Eq, [a, b] | .f64Eq, [a, b] => some (M.fcmp a b == some .eq)
  | .f32NEq, [a, b] | .f64NEq, [a, b] => some (M.fcmp a b != some .eq)
  | .f32Lt, [a, b] | .f64Lt, [a, b] => some (M.fcmp a b == some .lt)
  | .f32Lte, [a, b] | .f64Lte, [a, b] => some (M.fcmp a b == some .lt || M.fcmp a b == some .eq)
  | .f32Gt, [a, b] | .f64Gt, [a, b] => some (M.fcmp a b == some .gt)
  | .f32Gte, [a, b] | .f64Gte, [a, b] => some (M.fcmp a b == some .gt || M.fcmp a b == some .eq)
  | _, _ => none

def Machine.evalCond (M : Machine) (o : CondOp) (vs : List Val) (w : M.W) : Option (Bool × M.W × Option M.E) :=
  match M.test o vs with
  | some b => some (b, w, none)
  | none => M.cond o vs w

theorem Machine.evalCond_of_test {M : Machine} {o : CondOp} {vs : List Val} {w : M.W} {b : Bool}
    (h : M.test o vs = some b) : M.evalCond o vs w = some (b, w, none) := by
  rw [Machine.evalCond, h]

/-- The machine that does nothing besides. -/
abbrev Machine.bare : Machine where
  W := Unit
  E := Empty
  op _ _ _ := none
  cond _ _ _ := none
  hlop _ _ _ _ := none
  fcmp _ _ := none
  holds _ _ := False
  op_codes h := nomatch h
  cond_codes h := nomatch h
  hlop_codes h := nomatch h

theorem Machine.evalCond_codes {M : Machine} {o : CondOp} {vs : List Val} {w w' : M.W} {b : Bool}
    {e : Option M.E} {h : Handle} (he : M.evalCond o vs w = some (b, w', e)) (hh : M.holds w' h) :
    h ∈ codesOf vs ∨ M.holds w h := by
  unfold Machine.evalCond at he
  split at he
  · cases he
    exact .inr hh
  · exact M.cond_codes he hh

end Manticore
