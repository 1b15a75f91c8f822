/-
  Manticore.Cps.Semantics — how a CPS module runs on a machine.

  The control is an expression with its environment, or values thrown to a continuation;
  there is no stack. Functions and continuations are code pointers into a table of
  closures. The module's entry gets a continuation that ends the program with a result,
  and for each handler one that ends it with an exception.

  Values, environments, inputs and results are those of BOM. A variable made from a
  BOM variable keeps its name (`V.nameOf`), so the code pointers of `f` are made under the
  name `name f`: a module is run with a map from its variables to their names.
-/

import Manticore.Bom.Semantics
import Manticore.Cps.Uses

namespace Manticore.Cps

open Transition
open Bom (Env Input Result)

inductive Clo where
  | fun_ (fb : Lambda) (env : Env)
  | cont (fb : Lambda) (env : Env)
  /-- The handler the program was started with. -/
  | exit
  /-- The return continuation the program was started with. -/
  | halt

inductive Ctl where
  | eval (e : Exp) (ρ : Env)
  | raise (k : Val) (vs : List Val)

structure State (M : Machine) where
  ctl : Ctl
  code : Handle → Option Clo
  /-- How many closures of each name exist. -/
  made : Var → Nat
  w : M.W

/-! ## Steps -/

def Rhs.mapM {V V' : Type} (f : V → Option V') : Rhs V → Option (Rhs V')
  | .var xs => do return .var (← xs.mapM f)
  | .cast ty x => do return .cast ty (← f x)
  | .const l ty => some (.const l ty)
  | .select i x => do return .select i (← f x)
  | .update i x y => do return .update i (← f x) (← f y)
  | .addrOf i x => do return .addrOf i (← f x)
  | .alloc ty xs => do return .alloc ty (← xs.mapM f)
  | .promote x => do return .promote (← f x)
  | .prim p xs => do return .prim p (← xs.mapM f)
  | .ccall g xs => do return .ccall (← f g) (← xs.mapM f)
  | .hostVProc => some .hostVProc
  | .vpLoad off x => do return .vpLoad off (← f x)
  | .vpStore off x y => do return .vpStore off (← f x) (← f y)
  | .vpAddr off x => do return .vpAddr off (← f x)

def evalRhs (M : Machine) (r : Rhs Val) (w : M.W) : Option (List Val × M.W × Option M.E) :=
  match r with
  | .var vs => some (vs, w, none)
  | .cast _ v => some ([v], w, none)
  | .const l _ => some ([.lit l], w, none)
  | .select i (.tuple vs) => (vs[i]?).map fun v => ([v], w, none)
  | .select i v => M.op (.select i) [v] w
  | .update i x y => M.op (.update i) [x, y] w
  | .addrOf i v => M.op (.addrOf i) [v] w
  | .alloc (.tuple false _) vs => some ([.tuple vs], w, none)
  | .alloc _ vs => M.op .allocMut vs w
  | .promote v => M.op .promote [v] w
  | .prim p vs => M.op (.prim p) vs w
  | .ccall f vs => M.op .ccall (f :: vs) w
  | .hostVProc => M.op .hostVProc [] w
  | .vpLoad off v => M.op (.vpLoad off) [v] w
  | .vpStore off x y => M.op (.vpStore off) [x, y] w
  | .vpAddr off v => M.op (.vpAddr off) [v] w

/-- The value is the enumeration tag. -/
def isTag (v : Val) (tag : Nat) : Bool :=
  match v with
  | .lit (.enum w) => w == tag
  | _ => false

/-- The arm a switch takes on a value. -/
def selectArm (v : Val) : List (Nat × Exp) → Option Exp → Option Exp
  | [], dflt => dflt
  | (tag, e) :: cases, dflt => if isTag v tag then some e else selectArm v cases dflt

section

variable (name : Var → Var)

/-- The environment of a group of functions: each is its next code pointer. -/
def bindFBs (made : Var → Nat) (ρ : Env) (fbs : List Lambda) : Env :=
  fun x => if x ∈ fbs.map Lambda.f then some (.code ⟨name x, made (name x)⟩) else ρ x

def addClos (made : Var → Nat) (code : Handle → Option Clo) (mk : Lambda → Clo) (fbs : List Lambda) :
    Handle → Option Clo :=
  fun h => match fbs.find? (fun fb => name fb.f = h.name) with
    | some fb => if h.idx = made h.name then some (mk fb) else code h
    | none => code h

def bump (made : Var → Nat) (fbs : List Lambda) : Var → Nat :=
  fun x => if x ∈ fbs.map (fun fb => name fb.f) then made x + 1 else made x

variable {M : Machine}

/-- Make the closures of a group and go on with `e`. -/
def State.make (s : State M) (ρ : Env) (fbs : List Lambda) (mk : Env → Lambda → Clo) (e : Exp) : State M :=
  { s with ctl := .eval e (bindFBs name s.made ρ fbs)
           code := addClos name s.made s.code (mk (bindFBs name s.made ρ fbs)) fbs
           made := bump name s.made fbs }

def applyVal (s : State M) (f : Val) (args rets : List Val) : Option (State M) :=
  match f with
  | .code h => match s.code h with
    | some (.fun_ fb ρ) => do
      let ρ ← ρ.bind fb.params args
      let ρ ← ρ.bind fb.rets rets
      return { s with ctl := .eval fb.body ρ }
    | _ => none
  | _ => none

def ofOption (o : Option (State M × Option M.E)) : Move (State M) M.E Result :=
  match o with
  | some (s, e) => .next s e
  | none => .wrong

def stepEval (s : State M) (ρ : Env) : Exp → Option (State M × Option M.E)
  | .let_ _ lhs rhs e => do
    let r ← rhs.mapM ρ
    let (vs, w, ev) ← evalRhs M r s.w
    let ρ ← ρ.bind lhs vs
    return ({ s with ctl := .eval e ρ, w := w }, ev)
  | .fun_ _ fbs e => some (s.make name ρ fbs (fun ρ fb => .fun_ fb ρ) e, none)
  | .cont _ fb e => some (s.make name ρ [fb] (fun ρ fb => .cont fb ρ) e, none)
  | .if_ _ c e₁ e₂ => do
    let vs ← ρ.get c.args
    let (b, w, ev) ← M.evalCond c.op vs s.w
    return ({ s with ctl := .eval (if b then e₁ else e₂) ρ, w := w }, ev)
  | .switch _ x cases dflt => do
    let v ← ρ x
    let e ← selectArm v cases dflt
    return ({ s with ctl := .eval e ρ }, none)
  | .apply _ f args rets => do
    let v ← ρ f
    let vs ← ρ.get args
    let ks ← ρ.get rets
    let s ← applyVal s v vs ks
    return (s, none)
  | .throw _ k args => do
    let v ← ρ k
    let vs ← ρ.get args
    return ({ s with ctl := .raise v vs }, none)

def step (M : Machine) : System (State M) M.E Result := fun s =>
  match s.ctl with
  | .eval e ρ => ofOption (stepEval name s ρ e)
  | .raise (.code h) vs => match s.code h with
    | some (.cont fb ρ) => ofOption do
      let ρ ← ρ.bind fb.params vs
      return ({ s with ctl := .eval fb.body ρ }, none)
    | some .exit => .halt (.uncaught vs)
    | some .halt => .halt (.ret vs)
    | _ => .wrong
  | .raise _ _ => .wrong

/-! ## Programs -/

/-- The entry gets its arguments, its return continuation, and a handler for each exception. -/
def Module.initEnv (m : Module) (args : List Val) : Env := fun x =>
  if x ∈ m.body.rets then some (.code ⟨name x, 0⟩)
  else if x ∈ m.body.params then args[m.body.params.idxOf x]?
  else if x ∈ m.externs then some (.cfun (name x))
  else none

def Module.start (m : Module) (i : Input M) : State M where
  ctl := .eval m.body.body (m.initEnv name i.args)
  code := fun h =>
    if h.idx = 0 then
      match m.body.rets.map name with
      | [] => none
      | k :: exhs => if h.name = k then some .halt else if h.name ∈ exhs then some .exit else none
    else none
  made := fun _ => 0
  w := i.w

end

end Manticore.Cps
