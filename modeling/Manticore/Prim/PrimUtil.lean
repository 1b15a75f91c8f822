/-
  Manticore.Prim.PrimUtil — the primitive operations and conditions with their variables (`prim/prim.sml`), and how
  they are taken apart and renamed (`prim/prim-util.sml`, `prim/cond-util.sml`).

  `explode` gives the arguments and the function that rebuilds the term from other arguments; it raises `Fail` on a
  wrong number of them. `map` renames through it.
  - `Prim.map_eq`: a renamed primitive has its own operator and the renamed variables, whatever the primitive.
  - `Cond.map_eq`: so has a renamed condition, but for `U32Lt`, which is rebuilt as `U64Lt`.
-/

import Manticore.Codegen.CondGen

namespace Manticore.PrimUtil

/-- `Prim.prim`. -/
inductive Prim (α : Type) where
  | i32Add (a b : α) | i32Sub (a b : α) | i32Mul (a b : α) | i32Div (a b : α) | i32Mod (a b : α) | i32Neg (a : α)
  | u32Mul (a b : α) | u32Div (a b : α) | u32Rem (a b : α) | i32AndB (a b : α) | i32OrB (a b : α)
  | i32XorB (a b : α) | i32NotB (a : α) | i32LSh (a b : α) | i32RSh (a b : α) | i64Add (a b : α) | i64Sub (a b : α)
  | i64Mul (a b : α) | i64Div (a b : α) | i64Mod (a b : α) | i64Neg (a : α) | u64Mul (a b : α) | u64Div (a b : α)
  | u64Rem (a b : α) | i64AndB (a b : α) | i64OrB (a b : α) | i64XorB (a b : α) | i64NotB (a : α)
  | i64LSh (a b : α) | i64RSh (a b : α) | f32Add (a b : α) | f32Sub (a b : α) | f32Mul (a b : α) | f32Div (a b : α)
  | f32Neg (a : α) | f32Sqrt (a : α) | f32Abs (a : α) | f64Add (a b : α) | f64Sub (a b : α) | f64Mul (a b : α)
  | f64Div (a b : α) | f64Neg (a : α) | f64Sqrt (a : α) | f64Abs (a : α) | i8RSh (a b : α) | i16RSh (a b : α)
  | i32ToI64X (a : α) | i32ToI64 (a : α) | i64ToI32 (a : α) | i32ToF32 (a : α) | i32ToF64 (a : α)
  | i64ToF32 (a : α) | i64ToF64 (a : α) | f64ToI32 (a : α) | i32ToI16 (a : α) | i16ToI8 (a : α)
  | adrAddI32 (a b : α) | adrAddI64 (a b : α) | adrSubI32 (a b : α) | adrSubI64 (a b : α) | adrLoadI8 (a : α)
  | adrLoadU8 (a : α) | adrLoadI16 (a : α) | adrLoadU16 (a : α) | adrLoadI32 (a : α) | adrLoadI64 (a : α)
  | adrLoadF32 (a : α) | adrLoadF64 (a : α) | adrLoadAdr (a : α) | adrLoad (a : α) | adrStoreI8 (a b : α)
  | adrStoreI16 (a b : α) | adrStoreI32 (a b : α) | adrStoreI64 (a b : α) | adrStoreF32 (a b : α)
  | adrStoreF64 (a b : α) | adrStoreAdr (a b : α) | adrStore (a b : α) | arrLoadI32 (a b : α)
  | arrLoadI64 (a b : α) | arrLoadF32 (a b : α) | arrLoadF64 (a b : α) | arrLoad (a b : α)
  | arrStoreI32 (a b c : α) | arrStoreI64 (a b c : α) | arrStoreF32 (a b c : α) | arrStoreF64 (a b c : α)
  | arrStore (a b c : α) | i32FetchAndAdd (a b : α) | i64FetchAndAdd (a b : α) | cas (a b c : α) | pause
  | fenceRead | fenceWrite | fenceRW | allocPolyVec (a b : α) | allocIntArray (a : α) | allocLongArray (a : α)
  | allocFloatArray (a : α) | allocDoubleArray (a : α) | timeStampCounter

/-- `Prim.cond`. -/
inductive Cond (α : Type) where
  | isBoxed (a : α) | isUnboxed (a : α) | equal (a b : α) | notEqual (a b : α) | enumEq (a b : α)
  | enumNEq (a b : α) | i32Eq (a b : α) | i32NEq (a b : α) | i32Lt (a b : α) | i32Lte (a b : α) | i32Gt (a b : α)
  | i32Gte (a b : α) | u32Lt (a b : α) | i64Eq (a b : α) | i64NEq (a b : α) | i64Lt (a b : α) | i64Lte (a b : α)
  | i64Gt (a b : α) | i64Gte (a b : α) | u64Lt (a b : α) | f32Eq (a b : α) | f32NEq (a b : α) | f32Lt (a b : α)
  | f32Lte (a b : α) | f32Gt (a b : α) | f32Gte (a b : α) | f64Eq (a b : α) | f64NEq (a b : α) | f64Lt (a b : α)
  | f64Lte (a b : α) | f64Gt (a b : α) | f64Gte (a b : α) | adrEq (a b : α) | adrNEq (a b : α) | bcas (a b c : α)
  | i32isSet (a : α) | i32TAS (a : α)

section

variable {α β : Type}

/-- The operator of a primitive. -/
def Prim.op : Prim α → PrimOp
  | .i32Add .. => .i32Add | .i32Sub .. => .i32Sub | .i32Mul .. => .i32Mul | .i32Div .. => .i32Div
  | .i32Mod .. => .i32Mod | .i32Neg .. => .i32Neg | .u32Mul .. => .u32Mul | .u32Div .. => .u32Div
  | .u32Rem .. => .u32Rem | .i32AndB .. => .i32AndB | .i32OrB .. => .i32OrB | .i32XorB .. => .i32XorB
  | .i32NotB .. => .i32NotB | .i32LSh .. => .i32LSh | .i32RSh .. => .i32RSh | .i64Add .. => .i64Add
  | .i64Sub .. => .i64Sub | .i64Mul .. => .i64Mul | .i64Div .. => .i64Div | .i64Mod .. => .i64Mod
  | .i64Neg .. => .i64Neg | .u64Mul .. => .u64Mul | .u64Div .. => .u64Div | .u64Rem .. => .u64Rem
  | .i64AndB .. => .i64AndB | .i64OrB .. => .i64OrB | .i64XorB .. => .i64XorB | .i64NotB .. => .i64NotB
  | .i64LSh .. => .i64LSh | .i64RSh .. => .i64RSh | .f32Add .. => .f32Add | .f32Sub .. => .f32Sub
  | .f32Mul .. => .f32Mul | .f32Div .. => .f32Div | .f32Neg .. => .f32Neg | .f32Sqrt .. => .f32Sqrt
  | .f32Abs .. => .f32Abs | .f64Add .. => .f64Add | .f64Sub .. => .f64Sub | .f64Mul .. => .f64Mul
  | .f64Div .. => .f64Div | .f64Neg .. => .f64Neg | .f64Sqrt .. => .f64Sqrt | .f64Abs .. => .f64Abs
  | .i8RSh .. => .i8RSh | .i16RSh .. => .i16RSh | .i32ToI64X .. => .i32ToI64X | .i32ToI64 .. => .i32ToI64
  | .i64ToI32 .. => .i64ToI32 | .i32ToF32 .. => .i32ToF32 | .i32ToF64 .. => .i32ToF64 | .i64ToF32 .. => .i64ToF32
  | .i64ToF64 .. => .i64ToF64 | .f64ToI32 .. => .f64ToI32 | .i32ToI16 .. => .i32ToI16 | .i16ToI8 .. => .i16ToI8
  | .adrAddI32 .. => .adrAddI32 | .adrAddI64 .. => .adrAddI64 | .adrSubI32 .. => .adrSubI32
  | .adrSubI64 .. => .adrSubI64 | .adrLoadI8 .. => .adrLoadI8 | .adrLoadU8 .. => .adrLoadU8
  | .adrLoadI16 .. => .adrLoadI16 | .adrLoadU16 .. => .adrLoadU16 | .adrLoadI32 .. => .adrLoadI32
  | .adrLoadI64 .. => .adrLoadI64 | .adrLoadF32 .. => .adrLoadF32 | .adrLoadF64 .. => .adrLoadF64
  | .adrLoadAdr .. => .adrLoadAdr | .adrLoad .. => .adrLoad | .adrStoreI8 .. => .adrStoreI8
  | .adrStoreI16 .. => .adrStoreI16 | .adrStoreI32 .. => .adrStoreI32 | .adrStoreI64 .. => .adrStoreI64
  | .adrStoreF32 .. => .adrStoreF32 | .adrStoreF64 .. => .adrStoreF64 | .adrStoreAdr .. => .adrStoreAdr
  | .adrStore .. => .adrStore | .arrLoadI32 .. => .arrLoadI32 | .arrLoadI64 .. => .arrLoadI64
  | .arrLoadF32 .. => .arrLoadF32 | .arrLoadF64 .. => .arrLoadF64 | .arrLoad .. => .arrLoad
  | .arrStoreI32 .. => .arrStoreI32 | .arrStoreI64 .. => .arrStoreI64 | .arrStoreF32 .. => .arrStoreF32
  | .arrStoreF64 .. => .arrStoreF64 | .arrStore .. => .arrStore | .i32FetchAndAdd .. => .i32FetchAndAdd
  | .i64FetchAndAdd .. => .i64FetchAndAdd | .cas .. => .cas | .pause => .pause | .fenceRead => .fenceRead
  | .fenceWrite => .fenceWrite | .fenceRW => .fenceRW | .allocPolyVec .. => .allocPolyVec
  | .allocIntArray .. => .allocIntArray | .allocLongArray .. => .allocLongArray
  | .allocFloatArray .. => .allocFloatArray | .allocDoubleArray .. => .allocDoubleArray
  | .timeStampCounter => .timeStampCounter

def Cond.op : Cond α → CondOp
  | .isBoxed .. => .isBoxed | .isUnboxed .. => .isUnboxed | .equal .. => .equal | .notEqual .. => .notEqual
  | .enumEq .. => .enumEq | .enumNEq .. => .enumNEq | .i32Eq .. => .i32Eq | .i32NEq .. => .i32NEq
  | .i32Lt .. => .i32Lt | .i32Lte .. => .i32Lte | .i32Gt .. => .i32Gt | .i32Gte .. => .i32Gte | .u32Lt .. => .u32Lt
  | .i64Eq .. => .i64Eq | .i64NEq .. => .i64NEq | .i64Lt .. => .i64Lt | .i64Lte .. => .i64Lte | .i64Gt .. => .i64Gt
  | .i64Gte .. => .i64Gte | .u64Lt .. => .u64Lt | .f32Eq .. => .f32Eq | .f32NEq .. => .f32NEq | .f32Lt .. => .f32Lt
  | .f32Lte .. => .f32Lte | .f32Gt .. => .f32Gt | .f32Gte .. => .f32Gte | .f64Eq .. => .f64Eq
  | .f64NEq .. => .f64NEq | .f64Lt .. => .f64Lt | .f64Lte .. => .f64Lte | .f64Gt .. => .f64Gt
  | .f64Gte .. => .f64Gte | .adrEq .. => .adrEq | .adrNEq .. => .adrNEq | .bcas .. => .bcas
  | .i32isSet .. => .i32isSet | .i32TAS .. => .i32TAS

/-- The variables referenced in a primitive operation. -/
def Prim.varsOf : Prim α → List α
  | .pause | .fenceRead | .fenceWrite | .fenceRW | .timeStampCounter => []
  | .i32Neg a | .i32NotB a | .i64Neg a | .i64NotB a | .f32Neg a | .f32Sqrt a | .f32Abs a | .f64Neg a | .f64Sqrt a
  | .f64Abs a | .i32ToI64X a | .i32ToI64 a | .i64ToI32 a | .i32ToF32 a | .i32ToF64 a | .i64ToF32 a | .i64ToF64 a
  | .f64ToI32 a | .i32ToI16 a | .i16ToI8 a | .adrLoadI8 a | .adrLoadU8 a | .adrLoadI16 a | .adrLoadU16 a
  | .adrLoadI32 a | .adrLoadI64 a | .adrLoadF32 a | .adrLoadF64 a | .adrLoadAdr a | .adrLoad a | .allocIntArray a
  | .allocLongArray a | .allocFloatArray a | .allocDoubleArray a => [a]
  | .i32Add a b | .i32Sub a b | .i32Mul a b | .i32Div a b | .i32Mod a b | .u32Mul a b | .u32Div a b | .u32Rem a b
  | .i32AndB a b | .i32OrB a b | .i32XorB a b | .i32LSh a b | .i32RSh a b | .i64Add a b | .i64Sub a b | .i64Mul a b
  | .i64Div a b | .i64Mod a b | .u64Mul a b | .u64Div a b | .u64Rem a b | .i64AndB a b | .i64OrB a b | .i64XorB a b
  | .i64LSh a b | .i64RSh a b | .f32Add a b | .f32Sub a b | .f32Mul a b | .f32Div a b | .f64Add a b | .f64Sub a b
  | .f64Mul a b | .f64Div a b | .i8RSh a b | .i16RSh a b | .adrAddI32 a b | .adrAddI64 a b | .adrSubI32 a b
  | .adrSubI64 a b | .adrStoreI8 a b | .adrStoreI16 a b | .adrStoreI32 a b | .adrStoreI64 a b | .adrStoreF32 a b
  | .adrStoreF64 a b | .adrStoreAdr a b | .adrStore a b | .arrLoadI32 a b | .arrLoadI64 a b | .arrLoadF32 a b
  | .arrLoadF64 a b | .arrLoad a b | .i32FetchAndAdd a b | .i64FetchAndAdd a b | .allocPolyVec a b => [a, b]
  | .arrStoreI32 a b c | .arrStoreI64 a b c | .arrStoreF32 a b c | .arrStoreF64 a b c | .arrStore a b c
  | .cas a b c => [a, b, c]

def Cond.varsOf : Cond α → List α
  | .isBoxed a | .isUnboxed a | .i32isSet a | .i32TAS a => [a]
  | .equal a b | .notEqual a b | .enumEq a b | .enumNEq a b | .i32Eq a b | .i32NEq a b | .i32Lt a b | .i32Lte a b
  | .i32Gt a b | .i32Gte a b | .u32Lt a b | .i64Eq a b | .i64NEq a b | .i64Lt a b | .i64Lte a b | .i64Gt a b
  | .i64Gte a b | .u64Lt a b | .f32Eq a b | .f32NEq a b | .f32Lt a b | .f32Lte a b | .f32Gt a b | .f32Gte a b
  | .f64Eq a b | .f64NEq a b | .f64Lt a b | .f64Lte a b | .f64Gt a b | .f64Gte a b | .adrEq a b
  | .adrNEq a b => [a, b]
  | .bcas a b c => [a, b, c]

/-! ## Rebuilding -/

def p0 (p : β) : List α → Except String β
  | [] => .ok p
  | _ => .error "primop takes no args"

/-- What is rebuilt (a primop, a condition) is named in the message. -/
def p1 (what : String) (p : α → β) : List α → Except String β
  | [a] => .ok (p a)
  | _ => .error ("unary " ++ what ++ " needs one arg")

def p2 (what : String) (p : α → α → β) : List α → Except String β
  | [a, b] => .ok (p a b)
  | _ => .error ("binary " ++ what ++ " needs two args")

def p3 (what : String) (p : α → α → α → β) : List α → Except String β
  | [a, b, c] => .ok (p a b c)
  | _ => .error ("ternary " ++ what ++ " needs three args")

def Prim.explode (p : Prim α) : (List β → Except String (Prim β)) × List α :=
  let p1 := @p1 β (Prim β) "primop"
  let p2 := @p2 β (Prim β) "primop"
  let p3 := @p3 β (Prim β) "primop"
  match p with
  | .i32Add a b => (p2 .i32Add, [a, b]) | .i32Sub a b => (p2 .i32Sub, [a, b]) | .i32Mul a b => (p2 .i32Mul, [a, b])
  | .i32Div a b => (p2 .i32Div, [a, b]) | .i32Mod a b => (p2 .i32Mod, [a, b]) | .i32Neg a => (p1 .i32Neg, [a])
  | .u32Mul a b => (p2 .u32Mul, [a, b]) | .u32Div a b => (p2 .u32Div, [a, b]) | .u32Rem a b => (p2 .u32Rem, [a, b])
  | .i32AndB a b => (p2 .i32AndB, [a, b]) | .i32OrB a b => (p2 .i32OrB, [a, b])
  | .i32XorB a b => (p2 .i32XorB, [a, b]) | .i32NotB a => (p1 .i32NotB, [a]) | .i32LSh a b => (p2 .i32LSh, [a, b])
  | .i32RSh a b => (p2 .i32RSh, [a, b]) | .i64Add a b => (p2 .i64Add, [a, b]) | .i64Sub a b => (p2 .i64Sub, [a, b])
  | .i64Mul a b => (p2 .i64Mul, [a, b]) | .i64Div a b => (p2 .i64Div, [a, b]) | .i64Mod a b => (p2 .i64Mod, [a, b])
  | .i64Neg a => (p1 .i64Neg, [a]) | .u64Mul a b => (p2 .u64Mul, [a, b]) | .u64Div a b => (p2 .u64Div, [a, b])
  | .u64Rem a b => (p2 .u64Rem, [a, b]) | .i64AndB a b => (p2 .i64AndB, [a, b])
  | .i64OrB a b => (p2 .i64OrB, [a, b]) | .i64XorB a b => (p2 .i64XorB, [a, b]) | .i64NotB a => (p1 .i64NotB, [a])
  | .i64LSh a b => (p2 .i64LSh, [a, b]) | .i64RSh a b => (p2 .i64RSh, [a, b]) | .f32Add a b => (p2 .f32Add, [a, b])
  | .f32Sub a b => (p2 .f32Sub, [a, b]) | .f32Mul a b => (p2 .f32Mul, [a, b]) | .f32Div a b => (p2 .f32Div, [a, b])
  | .f32Neg a => (p1 .f32Neg, [a]) | .f32Sqrt a => (p1 .f32Sqrt, [a]) | .f32Abs a => (p1 .f32Abs, [a])
  | .f64Add a b => (p2 .f64Add, [a, b]) | .f64Sub a b => (p2 .f64Sub, [a, b]) | .f64Mul a b => (p2 .f64Mul, [a, b])
  | .f64Div a b => (p2 .f64Div, [a, b]) | .f64Neg a => (p1 .f64Neg, [a]) | .f64Sqrt a => (p1 .f64Sqrt, [a])
  | .f64Abs a => (p1 .f64Abs, [a]) | .i8RSh a b => (p2 .i8RSh, [a, b]) | .i16RSh a b => (p2 .i16RSh, [a, b])
  | .i32ToI64X a => (p1 .i32ToI64X, [a]) | .i32ToI64 a => (p1 .i32ToI64, [a]) | .i64ToI32 a => (p1 .i64ToI32, [a])
  | .i32ToF32 a => (p1 .i32ToF32, [a]) | .i32ToF64 a => (p1 .i32ToF64, [a]) | .i64ToF32 a => (p1 .i64ToF32, [a])
  | .i64ToF64 a => (p1 .i64ToF64, [a]) | .f64ToI32 a => (p1 .f64ToI32, [a]) | .i32ToI16 a => (p1 .i32ToI16, [a])
  | .i16ToI8 a => (p1 .i16ToI8, [a]) | .adrAddI32 a b => (p2 .adrAddI32, [a, b])
  | .adrAddI64 a b => (p2 .adrAddI64, [a, b]) | .adrSubI32 a b => (p2 .adrSubI32, [a, b])
  | .adrSubI64 a b => (p2 .adrSubI64, [a, b]) | .adrLoadI8 a => (p1 .adrLoadI8, [a])
  | .adrLoadU8 a => (p1 .adrLoadU8, [a]) | .adrLoadI16 a => (p1 .adrLoadI16, [a])
  | .adrLoadU16 a => (p1 .adrLoadU16, [a]) | .adrLoadI32 a => (p1 .adrLoadI32, [a])
  | .adrLoadI64 a => (p1 .adrLoadI64, [a]) | .adrLoadF32 a => (p1 .adrLoadF32, [a])
  | .adrLoadF64 a => (p1 .adrLoadF64, [a]) | .adrLoadAdr a => (p1 .adrLoadAdr, [a])
  | .adrLoad a => (p1 .adrLoad, [a]) | .adrStoreI8 a b => (p2 .adrStoreI8, [a, b])
  | .adrStoreI16 a b => (p2 .adrStoreI16, [a, b]) | .adrStoreI32 a b => (p2 .adrStoreI32, [a, b])
  | .adrStoreI64 a b => (p2 .adrStoreI64, [a, b]) | .adrStoreF32 a b => (p2 .adrStoreF32, [a, b])
  | .adrStoreF64 a b => (p2 .adrStoreF64, [a, b]) | .adrStoreAdr a b => (p2 .adrStoreAdr, [a, b])
  | .adrStore a b => (p2 .adrStore, [a, b]) | .arrLoadI32 a b => (p2 .arrLoadI32, [a, b])
  | .arrLoadI64 a b => (p2 .arrLoadI64, [a, b]) | .arrLoadF32 a b => (p2 .arrLoadF32, [a, b])
  | .arrLoadF64 a b => (p2 .arrLoadF64, [a, b]) | .arrLoad a b => (p2 .arrLoad, [a, b])
  | .arrStoreI32 a b c => (p3 .arrStoreI32, [a, b, c]) | .arrStoreI64 a b c => (p3 .arrStoreI64, [a, b, c])
  | .arrStoreF32 a b c => (p3 .arrStoreF32, [a, b, c]) | .arrStoreF64 a b c => (p3 .arrStoreF64, [a, b, c])
  | .arrStore a b c => (p3 .arrStore, [a, b, c]) | .i32FetchAndAdd a b => (p2 .i32FetchAndAdd, [a, b])
  | .i64FetchAndAdd a b => (p2 .i64FetchAndAdd, [a, b]) | .cas a b c => (p3 .cas, [a, b, c])
  | .pause => (p0 .pause, []) | .fenceRead => (p0 .fenceRead, []) | .fenceWrite => (p0 .fenceWrite, [])
  | .fenceRW => (p0 .fenceRW, []) | .allocPolyVec a b => (p2 .allocPolyVec, [a, b])
  | .allocIntArray a => (p1 .allocIntArray, [a]) | .allocLongArray a => (p1 .allocLongArray, [a])
  | .allocFloatArray a => (p1 .allocFloatArray, [a]) | .allocDoubleArray a => (p1 .allocDoubleArray, [a])
  | .timeStampCounter => (p0 .timeStampCounter, [])

def Cond.explode (c : Cond α) : (List β → Except String (Cond β)) × List α :=
  let p1 := @p1 β (Cond β) "condition"
  let p2 := @p2 β (Cond β) "condition"
  let p3 := @p3 β (Cond β) "condition"
  match c with
  | .isBoxed a => (p1 .isBoxed, [a]) | .isUnboxed a => (p1 .isUnboxed, [a]) | .equal a b => (p2 .equal, [a, b])
  | .notEqual a b => (p2 .notEqual, [a, b]) | .enumEq a b => (p2 .enumEq, [a, b])
  | .enumNEq a b => (p2 .enumNEq, [a, b]) | .i32Eq a b => (p2 .i32Eq, [a, b]) | .i32NEq a b => (p2 .i32NEq, [a, b])
  | .i32Lt a b => (p2 .i32Lt, [a, b]) | .i32Lte a b => (p2 .i32Lte, [a, b]) | .i32Gt a b => (p2 .i32Gt, [a, b])
  | .i32Gte a b => (p2 .i32Gte, [a, b]) | .u32Lt a b => (p2 .u64Lt, [a, b]) | .i64Eq a b => (p2 .i64Eq, [a, b])
  | .i64NEq a b => (p2 .i64NEq, [a, b]) | .i64Lt a b => (p2 .i64Lt, [a, b]) | .i64Lte a b => (p2 .i64Lte, [a, b])
  | .i64Gt a b => (p2 .i64Gt, [a, b]) | .i64Gte a b => (p2 .i64Gte, [a, b]) | .u64Lt a b => (p2 .u64Lt, [a, b])
  | .f32Eq a b => (p2 .f32Eq, [a, b]) | .f32NEq a b => (p2 .f32NEq, [a, b]) | .f32Lt a b => (p2 .f32Lt, [a, b])
  | .f32Lte a b => (p2 .f32Lte, [a, b]) | .f32Gt a b => (p2 .f32Gt, [a, b]) | .f32Gte a b => (p2 .f32Gte, [a, b])
  | .f64Eq a b => (p2 .f64Eq, [a, b]) | .f64NEq a b => (p2 .f64NEq, [a, b]) | .f64Lt a b => (p2 .f64Lt, [a, b])
  | .f64Lte a b => (p2 .f64Lte, [a, b]) | .f64Gt a b => (p2 .f64Gt, [a, b]) | .f64Gte a b => (p2 .f64Gte, [a, b])
  | .adrEq a b => (p2 .adrEq, [a, b]) | .adrNEq a b => (p2 .adrNEq, [a, b]) | .bcas a b c => (p3 .bcas, [a, b, c])
  | .i32isSet a => (p1 .i32isSet, [a]) | .i32TAS a => (p1 .i32TAS, [a])

def Prim.map (f : α → β) (p : Prim α) : Except String (Prim β) :=
  let (mk, args) := p.explode
  mk (args.map f)

def Cond.map (f : α → β) (c : Cond α) : Except String (Cond β) :=
  let (mk, args) := c.explode
  mk (args.map f)

/-! ## Renaming -/

/-- A renamed primitive has its own operator and the renamed variables. -/
theorem Prim.map_eq (f : α → β) (p : Prim α) :
    ∃ p', p.map f = .ok p' ∧ p'.op = p.op ∧ p'.varsOf = p.varsOf.map f := by
  cases p <;> exact ⟨_, rfl, rfl, rfl⟩

/-- A renamed condition has the renamed variables and the operator `CondOp.explode` of its own. -/
theorem Cond.map_eq (f : α → β) (c : Cond α) :
    ∃ c', c.map f = .ok c' ∧ c'.op = c.op.explode ∧ c'.varsOf = c.varsOf.map f := by
  cases c <;> exact ⟨_, rfl, rfl, rfl⟩

theorem explode_eq_self {op : CondOp} : op.explode = op ↔ op ≠ .u32Lt := by
  cases op <;> simp [CondOp.explode]

section

variable {γ δ : Type}

/-- The value of a primitive, whatever its operator does with the values of its arguments. -/
def Prim.eval (interp : PrimOp → List γ → δ) (v : α → γ) (p : Prim α) : δ := interp p.op (p.varsOf.map v)

def Cond.eval (interp : CondOp → List γ → δ) (v : α → γ) (c : Cond α) : δ := interp c.op (c.varsOf.map v)

end

/-- The renamed primitive is the same operation on the renamed variables. -/
def Prim.Renamed (f : α → β) (p : Prim α) : Prop :=
  ∃ p', p.map f = .ok p' ∧ p'.op = p.op ∧ p'.varsOf = p.varsOf.map f ∧
    ∀ (γ δ : Type) (interp : PrimOp → List γ → δ) (v : β → γ), p'.eval interp v = p.eval interp (v ∘ f)

def Cond.Renamed (f : α → β) (c : Cond α) : Prop :=
  ∃ c', c.map f = .ok c' ∧ c'.op = c.op ∧ c'.varsOf = c.varsOf.map f ∧
    ∀ (γ δ : Type) (interp : CondOp → List γ → δ) (v : β → γ), c'.eval interp v = c.eval interp (v ∘ f)

/-- Every primitive is renamed rightly, and every condition but `U32Lt`. -/
theorem map_renames (f : α → β) :
    (∀ p : Prim α, p.Renamed f) ∧ ∀ c : Cond α, c.Renamed f ↔ c.op ≠ .u32Lt := by
  constructor
  · intro p
    obtain ⟨p', hmap, hop, hvars⟩ := p.map_eq f
    refine ⟨p', hmap, hop, hvars, fun γ δ interp v => ?_⟩
    simp only [Prim.eval, hop, hvars, List.map_map]
  · intro c
    obtain ⟨c', hmap, hop, hvars⟩ := c.map_eq f
    rw [← explode_eq_self]
    constructor
    · intro h
      obtain ⟨c'', hmap', hop', -⟩ := h
      rw [hmap] at hmap'
      cases hmap'
      rw [← hop, hop']
    · intro h
      refine ⟨c', hmap, hop.trans h, hvars, fun γ δ interp v => ?_⟩
      simp only [Cond.eval, hop, h, hvars, List.map_map]

/-- Renaming nothing turns a comparison of 32-bit words that is true into one of 64-bit words that is false. -/
theorem map_u32Lt :
    Cond.map id (.u32Lt true false) = .ok (.u64Lt true false) ∧
      (Cond.u32Lt true false).eval Codegen.condVal (fun b => bif b then 2 ^ 32 else 1) = some true ∧
      (Cond.u64Lt true false).eval Codegen.condVal (fun b => bif b then 2 ^ 32 else 1) = some false := by
  refine ⟨rfl, ?_, ?_⟩ <;> decide

end

end Manticore.PrimUtil
