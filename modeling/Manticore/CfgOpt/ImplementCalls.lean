/-
  Manticore.CfgOpt.ImplementCalls — calling conventions (`cfg-opt/implement-calls-fn.sml`).

  The types of functions, the parameters at their entries and the arguments of calls go through the same
  loop (`kfncArgs`), each with its own way to treat an argument that is kept and those that are spilled.
  The properties of variables are a function `old` for the types before the pass, and a state with the types
  after it, to which fresh variables are added.
-/

import Manticore.Cfg.Syntax

namespace Manticore.Cfg.ImplementCalls

/-- `TARGET_SPEC`. -/
structure TargetSpec where
  maxGPRArgs : Nat
  maxFPRArgs : Nat
  /-- Enough for `clos`, `arg`, `ret` and `exh`. -/
  four_le : 4 ≤ maxGPRArgs

/-- `wrapRaw`. -/
def wrapRaw (rt : RawTy) : Ty := .tuple false [.raw rt]

/-- The registers that arguments take. -/
structure Regs where
  gprs : Nat
  fprs : Nat
  deriving DecidableEq, Repr

/-- `regsTyNonUniformArg`. -/
def regsTyNonUniformArg : Ty → Regs
  | .raw rt =>
    match rt with
    | .byte | .short | .int | .long => ⟨1, 0⟩
    | .float | .double => ⟨0, 1⟩
    | .vec128 => ⟨1, 0⟩
  | _ => ⟨1, 0⟩

/-- `regsTyNonUniformArgs`. -/
def regsTyNonUniformArgs (args : List Ty) : Regs :=
  args.foldl (fun r arg => ⟨r.gprs + (regsTyNonUniformArg arg).gprs, r.fprs + (regsTyNonUniformArg arg).fprs⟩) ⟨0, 0⟩

section Loop

variable {m : Type → Type} [Monad m] {α β : Type}

/-- `loop`: arguments that the registers have room for are kept in place, and the rest go together behind them. -/
def loop (ty : α → Ty) (keep : α → m β) (spill : List α → m β) : List α → Int → Int → List α → m (List β)
  | [], _, _, [] => pure []
  | [], _, _, spills => do return [← spill spills.reverse]
  | arg :: args, gprs, fprs, spills =>
    let r := regsTyNonUniformArg (ty arg)
    if r.gprs > gprs ∨ r.fprs > fprs then loop ty keep spill args gprs fprs (arg :: spills)
    else do
      let b ← keep arg
      let bs ← loop ty keep spill args (gprs - r.gprs) (fprs - r.fprs) spills
      return b :: bs

/-- `transTyKFncArgs`, `transFormalKFncArgs` and `transActualKFncArgs` up to what they do with an argument. -/
def kfncArgs (T : TargetSpec) (ty : α → Ty) (keep : α → m β) (spill : List α → m β) (args : List α) : m (List β) :=
  -- one for the closure
  let maxGPRArgs : Int := T.maxGPRArgs - 1
  let maxFPRArgs : Int := T.maxFPRArgs
  let r := regsTyNonUniformArgs (args.map ty)
  let useFPRArgs := maxFPRArgs
  let useGPRArgs := if r.gprs > maxGPRArgs ∨ r.fprs > maxFPRArgs then maxGPRArgs - 1 else maxGPRArgs
  loop ty keep spill args useGPRArgs useFPRArgs []

end Loop

/-! ## Types -/

/-- A type and its translation, as the properties keep them. -/
structure TransTy where
  oldTy : Ty
  newTy : Ty

/-- `transTyUniformArg`. -/
def transTyUniformArg (arg : TransTy) : Ty :=
  match arg.oldTy with
  | .raw rt => wrapRaw rt
  | _ => arg.newTy

/-- `transTyStdArgs`. -/
def transTyStdArgs : List TransTy → Ty
  | [] => unitTy
  | [arg] => transTyUniformArg arg
  | args => .tuple false (args.map TransTy.newTy)

/-- `transTyNonUniformArg`. -/
def transTyNonUniformArg (arg : TransTy) : Ty :=
  match arg.oldTy with
  | .raw rt =>
    match rt with
    | .byte | .short | .int | .long | .float | .double => .raw rt
    | .vec128 => wrapRaw rt
  | _ => arg.newTy

/-- `transTyKFncArgs`. -/
def transTyKFncArgs (T : TargetSpec) (args : List TransTy) : List Ty :=
  Id.run (kfncArgs T TransTy.oldTy (fun arg => pure (transTyNonUniformArg arg)) (fun args => pure (transTyStdArgs args)) args)

mutual

/-- `transTy`. -/
def transTy (T : TargetSpec) : Ty → Ty
  | .any => .any
  | .enum w => .enum w
  | .raw rt => .raw rt
  | .tuple m tys => .tuple m (transTys T tys)
  | .openTuple tys => .openTuple (transTys T tys)
  | .addr ty => .addr (transTy T ty)
  | .cfun ret args => .cfun ret args
  | .vproc => .vproc
  | .deque => .deque
  | .stdFun clos args ret exh =>
    .stdFun (transTy T clos) [transTyStdArgs (transArgs T args)] (transTy T ret) (transTy T exh)
  | .stdCont clos args => .stdCont (transTy T clos) [transTyStdArgs (transArgs T args)]
  | .knownFunc clos args => .knownFunc (transTy T clos) (transTyKFncArgs T (transArgs T args))
  | .block args => .block (transTys T args)

def transTys (T : TargetSpec) : List Ty → List Ty
  | [] => []
  | ty :: tys => transTy T ty :: transTys T tys

/-- Each type beside its translation. -/
def transArgs (T : TargetSpec) : List Ty → List TransTy
  | [] => []
  | ty :: tys => ⟨ty, transTy T ty⟩ :: transArgs T tys

end

/-! ## Parameters -/

/-- The variables so far and their types after the pass. -/
structure Types where
  next : Nat
  typeOf : Var → Ty

/-- `Var.new`. -/
def newVar (ty : Ty) : StateM Types Var := fun s => (⟨s.next⟩, ⟨s.next + 1, Function.update s.typeOf ⟨s.next⟩ ty⟩)

/-- `mkWrap`. -/
def mkWrap (x y : Var) : StateM Types Exp := fun s => (.alloc x (.tuple false [s.typeOf y]) [y], s)

/-- `mkUnwrap`. -/
def mkUnwrap (x y : Var) : Exp := .select x 0 y

section

variable (T : TargetSpec) (old : Var → Ty)

/-- `transFormalUniformArg`. -/
def transFormalUniformArg (arg : Var) : StateM Types (Var × List Exp) :=
  match old arg with
  | .raw rt => do
    let newArg ← newVar (wrapRaw rt)
    return (newArg, [mkUnwrap arg newArg])
  | _ => return (arg, [])

/-- The selections of `args` from the tuple `newArg`, from field `i` on. -/
def selects (newArg : Var) : Nat → List Var → List Exp
  | _, [] => []
  | i, arg :: args => .select arg i newArg :: selects newArg (i + 1) args

/-- `transFormalStdArgs`. -/
def transFormalStdArgs : List Var → StateM Types (Var × List Exp)
  | [] => do return (← newVar unitTy, [])
  | [arg] => transFormalUniformArg old arg
  | args => do
    let newArg ← newVar (.tuple false (args.map fun x => transTy T (old x)))
    return (newArg, selects newArg 0 args)

/-- `transFormalNonUniformArg`. -/
def transFormalNonUniformArg (arg : Var) : StateM Types (Var × List Exp) :=
  match old arg with
  | .raw rt =>
    match rt with
    | .byte | .short | .int | .long | .float | .double => return (arg, [])
    | .vec128 => do
      let newArg ← newVar (wrapRaw rt)
      return (newArg, [mkUnwrap arg newArg])
  | _ => return (arg, [])

/-- `transFormalKFncArgs`. -/
def transFormalKFncArgs (args : List Var) : StateM Types (List Var × List Exp) := do
  let rs ← kfncArgs T old (transFormalNonUniformArg old) (transFormalStdArgs T old) args
  return (rs.map Prod.fst, (rs.map Prod.snd).flatten)

/-- `transConvention`. -/
def transConvention (c : Convention) (args : List Var) : StateM Types (Convention × List Exp × List Var) :=
  match c with
  | .stdFunc clos ret exh => do
    let (arg, binds) ← transFormalStdArgs T old args
    return (.stdFunc clos ret exh, binds, [arg])
  | .stdCont clos => do
    let (arg, binds) ← transFormalStdArgs T old args
    return (.stdCont clos, binds, [arg])
  | .knownFunc clos => do
    let (args, binds) ← transFormalKFncArgs T old args
    return (.knownFunc clos, binds, args)

/-- `transExp`. -/
def transExp : Exp → Exp
  | .cast x ty y => .cast x (transTy T ty) y
  | e => e

/-! ## Arguments -/

/-- `transActualUniformArg`. -/
def transActualUniformArg (arg : Var) : StateM Types (List Exp × Var) :=
  match old arg with
  | .raw rt => do
    let newArg ← newVar (wrapRaw rt)
    return ([← mkWrap newArg arg], newArg)
  | _ => return ([], arg)

/-- `transActualStdArgs`. -/
def transActualStdArgs : List Var → StateM Types (List Exp × Var)
  | [] => do
    let newArg ← newVar unitTy
    return ([.const newArg (.enum 0) unitTy], newArg)
  | [arg] => transActualUniformArg old arg
  | args => do
    let newArgTy := Ty.tuple false (args.map fun x => transTy T (old x))
    let newArg ← newVar newArgTy
    return ([.alloc newArg newArgTy args], newArg)

/-- `transActualNonUniformArg`. -/
def transActualNonUniformArg (arg : Var) : StateM Types (List Exp × Var) :=
  match old arg with
  | .raw rt =>
    match rt with
    | .byte | .short | .int | .long | .float | .double => return ([], arg)
    | .vec128 => do
      let newArg ← newVar (wrapRaw rt)
      return ([← mkWrap newArg arg], newArg)
  | _ => return ([], arg)

/-- `transActualKFncArgs`. -/
def transActualKFncArgs (args : List Var) : StateM Types (List Exp × List Var) := do
  let rs ← kfncArgs T old (transActualNonUniformArg old) (transActualStdArgs T old) args
  return ((rs.map Prod.fst).flatten, rs.map Prod.snd)

/-- `transTransfer`. -/
def transTransfer : Transfer → StateM Types (List Exp × Transfer)
  | .stdApply f clos args ret exh => do
    let (binds, arg) ← transActualStdArgs T old args
    return (binds, .stdApply f clos [arg] ret exh)
  | .stdThrow k clos args => do
    let (binds, arg) ← transActualStdArgs T old args
    return (binds, .stdThrow k clos [arg])
  | .apply f clos args => do
    let (binds, args) ← transActualKFncArgs T old args
    return (binds, .apply f clos args)
  | t => return ([], t)

/-! ## Modules -/

/-- `transBlock`. -/
def transBlock (b : Block) (entryBinds : List Exp) (args' : List Var) : StateM Types Block := do
  let (exitBinds, exit) ← transTransfer T old b.exit
  let args'' := if args'.isEmpty then b.args else args'
  return ⟨b.lab, args'', entryBinds ++ b.body.map (transExp T) ++ exitBinds, exit⟩

/-- `transFunc`. -/
def transFunc (f : Func) : StateM Types Func := do
  let (entry, entryBinds, args') ← transConvention T old f.entry f.start.args
  let start ← transBlock T old f.start entryBinds args'
  let body ← f.body.mapM fun b => transBlock T old b [] []
  return ⟨f.lab, entry, start, body⟩

/-- `transform`. -/
def transform (m : Module) : StateM Types Module := do
  return ⟨m.externs, ← m.code.mapM (transFunc T old)⟩

end

end Manticore.Cfg.ImplementCalls
