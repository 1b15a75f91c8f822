/-
  Manticore.Bom.Semantics — how a BOM module runs on a machine.

  The control is an expression with its environment, values on their way to the nearest
  enclosing let, or values thrown to a continuation. A let pushes a frame; functions and
  continuations are code pointers into a table of closures, a continuation's closure
  keeps the frames it returns to. The module's entry gets its arguments from the caller
  and, for each exception handler it names, a handler that ends the program.

  The behaviour of a module (`Module.Same`) is what it does on every machine and every
  input: the events in order, the result, and whether it goes wrong.
-/

import Manticore.Library.Transition
import Manticore.Bom.Syntax

namespace Manticore.Bom

open Transition

abbrev Env := Var → Option Val

def Env.set (ρ : Env) (x : Var) (v : Val) : Env := fun y => if y = x then some v else ρ y

def Env.get (ρ : Env) (xs : List Var) : Option (List Val) := xs.mapM ρ

/-- Bind the variables to the values, one each. -/
def Env.bind (ρ : Env) : List Var → List Val → Option Env
  | [], [] => some ρ
  | x :: xs, v :: vs => (ρ.set x v).bind xs vs
  | _, _ => none

/-- A let waiting for the values of its right-hand side. -/
structure Frame where
  lhs : List Var
  e : Exp
  env : Env

inductive Clo where
  | fun_ (fb : Lambda) (env : Env)
  | cont (fb : Lambda) (env : Env) (stk : List Frame)
  /-- The handler the program was started with. -/
  | exit

inductive Ctl where
  | eval (e : Exp) (ρ : Env)
  | deliver (vs : List Val)
  | raise (k : Val) (vs : List Val)

structure State (M : Machine) where
  ctl : Ctl
  stk : List Frame
  code : Handle → Option Clo
  /-- How many closures of each name exist. -/
  made : Var → Nat
  w : M.W

inductive Result where
  | ret (vs : List Val)
  | uncaught (vs : List Val)

/-! ## Steps -/

def Rhs.mapM {V V' : Type} (f : V → Option V') : Rhs V → Option (Rhs V')
  | .const l ty => some (.const l ty)
  | .cast ty x => do return .cast ty (← f x)
  | .select i x => do return .select i (← f x)
  | .update i x y => do return .update i (← f x) (← f y)
  | .addrOf i x => do return .addrOf i (← f x)
  | .alloc ty xs => do return .alloc ty (← xs.mapM f)
  | .promote x => do return .promote (← f x)
  | .prim p xs => do return .prim p (← xs.mapM f)
  | .dcon dc xs => do return .dcon dc (← xs.mapM f)
  | .ccall g xs => do return .ccall (← f g) (← xs.mapM f)
  | .hostVProc => some .hostVProc
  | .vpLoad off x => do return .vpLoad off (← f x)
  | .vpStore off x y => do return .vpStore off (← f x) (← f y)
  | .vpAddr off x => do return .vpAddr off (← f x)

def evalRhs (M : Machine) (r : Rhs Val) (w : M.W) : Option (List Val × M.W × Option M.E) :=
  match r with
  | .const l _ => some ([.lit l], w, none)
  | .cast _ v => some ([v], w, none)
  | .select i (.tuple vs) => (vs[i]?).map fun v => ([v], w, none)
  | .select i v => M.op (.select i) [v] w
  | .update i x y => M.op (.update i) [x, y] w
  | .addrOf i v => M.op (.addrOf i) [v] w
  | .alloc (.tuple false _) vs => some ([.tuple vs], w, none)
  | .alloc _ vs => M.op .allocMut vs w
  | .promote v => M.op .promote [v] w
  | .prim p vs => M.op (.prim p) vs w
  | .dcon dc vs => some ([.con dc.stamp vs], w, none)
  | .ccall f vs => M.op .ccall (f :: vs) w
  | .hostVProc => M.op .hostVProc [] w
  | .vpLoad off v => M.op (.vpLoad off) [v] w
  | .vpStore off x y => M.op (.vpStore off) [x, y] w
  | .vpAddr off v => M.op (.vpAddr off) [v] w

/-- The values a pattern binds, if it matches. -/
def Pat.select : Pat → Val → Option (List Var × List Val)
  | .dcon dc xs, .con s vs => if s = dc.stamp then some (xs, vs) else none
  | .const l _, .lit l' => if l = l' then some ([], []) else none
  | _, _ => none

/-- The arm a case takes on a value, with the variables it binds. -/
def selectArm (v : Val) : List (Pat × Exp) → Option Exp → Option (List Var × List Val × Exp)
  | [], dflt => dflt.map fun e => ([], [], e)
  | (p, e) :: cases, dflt =>
    match p.select v with
    | some (xs, vs) => some (xs, vs, e)
    | none => selectArm v cases dflt

/-- The environment of a group of functions: each name is its next code pointer. -/
def bindFBs (made : Var → Nat) (ρ : Env) (fbs : List Lambda) : Env :=
  fun x => if x ∈ fbs.map Lambda.f then some (.code ⟨x, made x⟩) else ρ x

def addClos (made : Var → Nat) (code : Handle → Option Clo) (mk : Lambda → Clo) (fbs : List Lambda) :
    Handle → Option Clo :=
  fun h => match fbs.find? (fun fb => fb.f = h.name) with
    | some fb => if h.idx = made h.name then some (mk fb) else code h
    | none => code h

def bump (made : Var → Nat) (fbs : List Lambda) : Var → Nat :=
  fun x => if x ∈ fbs.map Lambda.f then made x + 1 else made x

variable {M : Machine}

/-- Make the closures of a group and go on with `e`. -/
def State.make (s : State M) (ρ : Env) (fbs : List Lambda) (mk : Env → Lambda → Clo) (e : Exp) : State M :=
  { s with ctl := .eval e (bindFBs s.made ρ fbs)
           code := addClos s.made s.code (mk (bindFBs s.made ρ fbs)) fbs
           made := bump s.made fbs }

def applyVal (s : State M) (f : Val) (args rets : List Val) : Option (State M) :=
  match f with
  | .code h => match s.code h with
    | some (.fun_ fb ρ) => do
      let ρ ← ρ.bind fb.params args
      let ρ ← ρ.bind fb.exh rets
      return { s with ctl := .eval fb.body ρ }
    | _ => none
  | _ => none

def ofOption (o : Option (State M × Option M.E)) : Move (State M) M.E Result :=
  match o with
  | some (s, e) => .next s e
  | none => .wrong

def stepEval (s : State M) (ρ : Env) : Exp → Option (State M × Option M.E)
  | .let_ lhs rhs e => some ({ s with ctl := .eval rhs ρ, stk := ⟨lhs, e, ρ⟩ :: s.stk }, none)
  | .stmt lhs rhs e => do
    let r ← rhs.mapM ρ
    let (vs, w, ev) ← evalRhs M r s.w
    let ρ ← ρ.bind lhs vs
    return ({ s with ctl := .eval e ρ, w := w }, ev)
  | .fun_ fbs e => some (s.make ρ fbs (fun ρ fb => .fun_ fb ρ) e, none)
  | .cont fb e => some (s.make ρ [fb] (fun ρ fb => .cont fb ρ s.stk) e, none)
  | .if_ c e₁ e₂ => do
    let vs ← ρ.get c.args
    let (b, w, ev) ← M.evalCond c.op vs s.w
    return ({ s with ctl := .eval (if b then e₁ else e₂) ρ, w := w }, ev)
  | .case_ x cases dflt => do
    let v ← ρ x
    let (xs, vs, e) ← selectArm v cases dflt
    let ρ ← ρ.bind xs vs
    return ({ s with ctl := .eval e ρ }, none)
  | .apply f args rets => do
    let v ← ρ f
    let vs ← ρ.get args
    let ks ← ρ.get rets
    let s ← applyVal s v vs ks
    return (s, none)
  | .throw k args => do
    let v ← ρ k
    let vs ← ρ.get args
    return ({ s with ctl := .raise v vs }, none)
  | .ret xs => do
    let vs ← ρ.get xs
    return ({ s with ctl := .deliver vs }, none)
  | .hlop op args rets => do
    let vs ← ρ.get args
    let ks ← ρ.get rets
    let (r, w, ev) ← M.hlop op vs ks s.w
    match r with
    | .ret rs => return ({ s with ctl := .deliver rs, w := w }, ev)
    | .throw k rs => return ({ s with ctl := .raise k rs, w := w }, ev)

def step (M : Machine) : System (State M) M.E Result := fun s =>
  match s.ctl with
  | .eval e ρ => ofOption (stepEval s ρ e)
  | .deliver vs => match s.stk with
    | [] => .halt (.ret vs)
    | fr :: stk => ofOption do
      let ρ ← fr.env.bind fr.lhs vs
      return ({ s with ctl := .eval fr.e ρ, stk := stk }, none)
  | .raise (.code h) vs => match s.code h with
    | some (.cont fb ρ stk) => ofOption do
      let ρ ← ρ.bind fb.params vs
      return ({ s with ctl := .eval fb.body ρ, stk := stk }, none)
    | some .exit => .halt (.uncaught vs)
    | _ => .wrong
  | .raise _ _ => .wrong

/-! ## Programs -/

/-- What a module is started with. Nothing in it is a code pointer yet. -/
structure Input (M : Machine) where
  w : M.W
  args : List Val
  args_codes : codesOf args = []
  w_codes : ∀ h, ¬ M.holds w h

def Module.initEnv (m : Module) (args : List Val) : Env := fun x =>
  if x ∈ m.body.exh then some (.code ⟨x, 0⟩)
  else if x ∈ m.body.params then args[m.body.params.idxOf x]?
  else if x ∈ m.externs then some (.cfun x)
  else none

def Module.start (m : Module) (i : Input M) : State M where
  ctl := .eval m.body.body (m.initEnv i.args)
  stk := []
  code := fun h => if h.name ∈ m.body.exh ∧ h.idx = 0 then some .exit else none
  made := fun _ => 0
  w := i.w

/-- Two modules behave alike: on every machine and input they emit the same events and end
    alike. -/
def Module.Same (m m' : Module) : Prop :=
  ∀ (M : Machine) (i : Input M), SameBehaviour (step M) (step M) (m.start i) (m'.start i)

end Manticore.Bom
