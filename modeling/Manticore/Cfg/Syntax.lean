/-
  Manticore.Cfg.Syntax — the CFG representation (`cfg/cfg.sml`, `cfg/cfg-ty.sml`): functions of blocks,
  with calling conventions.
-/

import Manticore.Machine

namespace Manticore.Cfg

/-- `CFGTy.ty`. -/
inductive Ty where
  | any
  | enum (w : Nat)
  | raw (rt : RawTy)
  | tuple (isMut : Bool) (tys : List Ty)
  | openTuple (tys : List Ty)
  | addr (ty : Ty)
  | cfun (ret : CType) (args : List CType)
  | vproc
  | deque
  | stdFun (clos : Ty) (args : List Ty) (ret exh : Ty)
  | stdCont (clos : Ty) (args : List Ty)
  | knownFunc (clos : Ty) (args : List Ty)
  | block (args : List Ty)

/-- `unitTy`. -/
def unitTy : Ty := .enum 0

structure Label where
  stamp : Nat
  deriving DecidableEq, Repr

/-- `CFG.exp`. -/
inductive Exp where
  | var (xs ys : List Var)
  | const (x : Var) (l : Literal) (ty : Ty)
  | cast (x : Var) (ty : Ty) (y : Var)
  | label (x : Var) (l : Label)
  | select (x : Var) (i : Nat) (y : Var)
  | update (i : Nat) (x y : Var)
  | addrOf (x : Var) (i : Nat) (y : Var)
  | alloc (x : Var) (ty : Ty) (ys : List Var)
  | galloc (x : Var) (ty : Ty) (ys : List Var)
  | promote (x y : Var)
  | prim0 (p : PrimOp) (ys : List Var)
  | prim (x : Var) (p : PrimOp) (ys : List Var)
  | ccall (xs : List Var) (f : Var) (ys : List Var)
  | hostVProc (x : Var)
  | vpLoad (x : Var) (off : Int) (y : Var)
  | vpStore (off : Int) (x y : Var)
  | vpAddr (x : Var) (off : Int) (y : Var)

/-- `CFG.jump`. -/
abbrev Jump := Label × List Var

/-- `heap_check_kind`. -/
inductive HeapCheckKind where
  | local_
  | global

/-- `CFG.transfer`. -/
inductive Transfer where
  | stdApply (f clos : Var) (args : List Var) (ret exh : Var)
  | stdThrow (k clos : Var) (args : List Var)
  | apply (f clos : Var) (args : List Var)
  | goto (jmp : Jump)
  | if_ (c : Cond Var) (j₁ j₂ : Jump)
  | switch (x : Var) (cases : List (Nat × Jump)) (dflt : Option Jump)
  | heapCheck (hck : HeapCheckKind) (szb : Nat) (nogc : Jump)
  | heapCheckN (hck : HeapCheckKind) (n : Var) (szb : Nat) (nogc : Jump)
  | allocCCall (lhs : List Var) (f : Var) (args : List Var) (ret : Jump)

/-- `CFG.convention`. -/
inductive Convention where
  | stdFunc (clos ret exh : Var)
  | stdCont (clos : Var)
  | knownFunc (clos : Var)

/-- `CFG.block`. -/
structure Block where
  lab : Label
  args : List Var
  body : List Exp
  exit : Transfer

/-- `CFG.func`. -/
structure Func where
  lab : Label
  entry : Convention
  start : Block
  body : List Block

/-- `CFG.module`. -/
structure Module where
  externs : List Label
  code : List Func

/-! ## Calls -/

/-- The two ways of passing arguments. -/
inductive Passing where
  | std
  | known
  deriving DecidableEq, Repr

def Convention.passing : Convention → Passing
  | .stdFunc _ _ _ | .stdCont _ => .std
  | .knownFunc _ => .known

/-- How a transfer to a function or continuation passes its arguments. -/
def Transfer.call : Transfer → Option (Passing × List Var)
  | .stdApply _ _ args _ _ | .stdThrow _ _ args => some (.std, args)
  | .apply _ _ args => some (.known, args)
  | _ => none

/-- How a function or continuation of a type takes its arguments. -/
def Ty.callee : Ty → Option (Passing × List Ty)
  | .stdFun _ args _ _ | .stdCont _ args => some (.std, args)
  | .knownFunc _ args => some (.known, args)
  | _ => none

/-! ## Straight-line code -/

abbrev Env := Var → Option Val

/-- The bindings that calls are packed and unpacked with; the rest of `CFG.exp` is not executed here. -/
def evalExp (env : Env) : Exp → Option Env
  | .const x l _ => some (Function.update env x (some (.lit l)))
  | .cast x _ y => (env y).map fun v => Function.update env x (some v)
  | .select x i y =>
    match env y with
    | some (.tuple vs) => vs[i]?.map fun v => Function.update env x (some v)
    | _ => none
  | .alloc x (.tuple false _) ys => (ys.mapM env).map fun vs => Function.update env x (some (.tuple vs))
  | _ => none

def evalExps (env : Env) : List Exp → Option Env
  | [] => some env
  | e :: es => (evalExp env e).bind fun env' => evalExps env' es

end Manticore.Cfg
