/-
  Manticore.CpsOpt.BranchElim — dead-branch elimination (`cps-opt/dead-branch-elim.sml`):
  a switch on a variable for which the control-flow analysis knows a boolean becomes one of
  its arms.

  `findCase` has no clause for the empty list, so the pass raises `Match` when no label is
  the known value; the default of the switch is not looked at. `Exp.resolve` is what the
  pass is for: the arm that a run takes, be it a labelled one or the default.
-/

import Manticore.Cps.Cfa
import Manticore.Cps.Semantics

namespace Manticore.CpsOpt.BranchElim

open Manticore.Cps

/-- The pass draws program points (`ProgPt.new`) and may raise. -/
abbrev Pass := StateT Ppt Option

/-- `C.mkExp`. -/
def mkExp (t : Ppt → Exp) : Pass Exp := fun pt => some (t pt, pt + 1)

/-- `C.mkCont` has no clause for a continuation with return continuations. -/
def mkCont (fb : Lambda) (e : Exp) : Pass Exp :=
  match fb.rets with
  | [] => mkExp fun pt => .cont pt fb e
  | _ :: _ => fun _ => none

/-- `findCase`. -/
def findCase : List (Nat × Exp) → Nat → Option Exp
  | (tag, e) :: xs, value => if tag = value then some e else findCase xs value
  | [], _ => none

section

variable (cfa : Cfa)

mutual

/-- `doExp`. -/
def doExp : Exp → Pass Exp
  | .let_ _ lhs rhs e => do
    let e ← doExp e
    mkExp fun pt => .let_ pt lhs rhs e
  | .fun_ _ fbs e => do
    let fbs ← doFBs fbs
    let e ← doExp e
    mkExp fun pt => .fun_ pt fbs e
  | .cont _ fb e => do
    let fb ← doFB fb
    let e ← doExp e
    mkCont fb e
  | .if_ _ c e₁ e₂ => do
    let e₁ ← doExp e₁
    let e₂ ← doExp e₂
    mkExp fun pt => .if_ pt c e₁ e₂
  | .switch _ x cases dflt =>
    match cfa.valueOf x with
    | .bool true => doFound 1 cases
    | .bool false => doFound 0 cases
    | _ => do
      let cases ← doCases cases
      let dflt ← doDflt dflt
      mkExp fun pt => .switch pt x cases dflt
  | .apply _ f args rets => mkExp fun pt => .apply pt f args rets
  | .throw _ k args => mkExp fun pt => .throw pt k args

/-- `doFB`. -/
def doFB : Lambda → Pass Lambda
  | .fb f params rets body => do return .fb f params rets (← doExp body)

def doFBs : List Lambda → Pass (List Lambda)
  | [] => return []
  | fb :: fbs => do return (← doFB fb) :: (← doFBs fbs)

def doCases : List (Nat × Exp) → Pass (List (Nat × Exp))
  | [] => return []
  | (tag, e) :: cases => do return (tag, ← doExp e) :: (← doCases cases)

def doDflt : Option Exp → Pass (Option Exp)
  | none => return none
  | some e => do return some (← doExp e)

/-- `doExp (findCase (cases, value))`, in one recursion over the term. -/
def doFound (value : Nat) : List (Nat × Exp) → Pass Exp
  | (tag, e) :: xs => if tag = value then doExp e else doFound value xs
  | [] => fun _ => none

end

/-- `transform`; the use counts that it makes anew (`Census.census`) are left out. -/
def transform (boolFlg : Bool) (m : Module) : Pass Module :=
  if boolFlg then do return { m with body := ← doFB cfa m.body } else return m

end

theorem doFound_eq (cfa : Cfa) (value : Nat) (cases : List (Nat × Exp)) (pt : Ppt) :
    doFound cfa value cases pt = (findCase cases value).bind fun e => doExp cfa e pt := by
  induction cases with
  | nil => rfl
  | cons c cases ih =>
    obtain ⟨tag, e⟩ := c
    rw [doFound, findCase]
    split
    · rfl
    · exact ih

/-! ## The arm that a run takes -/

/-- The enumeration constant that stands for a boolean. -/
def tagOf (b : Bool) : Nat := if b then 1 else 0

/-- The booleans that the analysis knows. -/
def known (cfa : Cfa) (x : Var) : Option Bool :=
  match cfa.valueOf x with
  | .bool b => some b
  | _ => none

mutual

/-- The expression without its program points, where a switch on a variable with a known value is
    the arm that a run takes. A switch without such an arm stays. -/
def Exp.resolve (known : Var → Option Bool) : Exp → Exp
  | .let_ _ lhs rhs e => .let_ 0 lhs rhs (Exp.resolve known e)
  | .fun_ _ fbs e => .fun_ 0 (resolveFBs known fbs) (Exp.resolve known e)
  | .cont _ fb e => .cont 0 (Lambda.resolve known fb) (Exp.resolve known e)
  | .if_ _ c e₁ e₂ => .if_ 0 c (Exp.resolve known e₁) (Exp.resolve known e₂)
  | .switch _ x cases dflt =>
    let e := Exp.switch 0 x (resolveCases known cases) (resolveDflt known dflt)
    match known x with
    | some b => (selectArm (.lit (.enum (tagOf b))) (resolveCases known cases) (resolveDflt known dflt)).getD e
    | none => e
  | .apply _ f args rets => .apply 0 f args rets
  | .throw _ k args => .throw 0 k args

def Lambda.resolve (known : Var → Option Bool) : Lambda → Lambda
  | .fb f params rets body => .fb f params rets (Exp.resolve known body)

def resolveFBs (known : Var → Option Bool) : List Lambda → List Lambda
  | [] => []
  | fb :: fbs => Lambda.resolve known fb :: resolveFBs known fbs

def resolveCases (known : Var → Option Bool) : List (Nat × Exp) → List (Nat × Exp)
  | [] => []
  | (tag, e) :: cases => (tag, Exp.resolve known e) :: resolveCases known cases

def resolveDflt (known : Var → Option Bool) : Option Exp → Option Exp
  | none => none
  | some e => some (Exp.resolve known e)

end

def Module.resolve (known : Var → Option Bool) (m : Module) : Module :=
  { m with body := Lambda.resolve known m.body }

/-- No value is known. -/
def nothing : Var → Option Bool := fun _ => none

/-- The first module is the second one, but for its program points, with every known switch resolved. -/
def IsResolved (cfa : Cfa) (m' m : Module) : Prop :=
  Module.resolve nothing m' = Module.resolve (known cfa) m

/-! ## What the pass relies on -/

/-- What a run has in a variable that is switched on is what is known of it. -/
def Sound (name : Var → Var) (known : Var → Option Bool) (m : Module) : Prop :=
  ∀ (M : Machine) (i : Bom.Input M) (n : Nat) (es : List M.E) (s : State M),
    Transition.Run (step name M) n (m.start name i) es s →
    ∀ pt x cases dflt ρ b, s.ctl = .eval (.switch pt x cases dflt) ρ → known x = some b →
      ρ x = some (.lit (.enum (tagOf b)))

/-- A module with its analysis. -/
structure Analysed (name : Var → Var) (boolFlg : Bool) (cfa : Cfa) (m : Module) : Prop where
  sound : Sound name (known cfa) m
  /-- Booleans are tracked under the flag only. -/
  off : boolFlg = false → known cfa = nothing
  /-- A continuation has no return continuations. -/
  conts : ∀ pt fb e, .cont pt fb e ∈ m.exps → fb.rets = []

/-! ## When an arm is found -/

/-- The expressions below an expression that the pass goes on with. -/
def kept (cfa : Cfa) : Exp → List Exp
  | .switch pt x cases dflt =>
    match known cfa x with
    | some b => (findCase cases (tagOf b)).toList
    | none => (Exp.switch pt x cases dflt).kids
  | e => e.kids

/-- The pass, started on the first expression, comes to the second. -/
inductive Visits (cfa : Cfa) : Exp → Exp → Prop
  | refl (e : Exp) : Visits cfa e e
  | kid {e e' e'' : Exp} : e' ∈ kept cfa e → Visits cfa e' e'' → Visits cfa e e''

/-- Every switch that the pass comes to, on a variable it knows, has a label for the value. -/
def Labelled (cfa : Cfa) (m : Module) : Prop :=
  ∀ pt x cases dflt b, Visits cfa m.body.body (.switch pt x cases dflt) → known cfa x = some b →
    tagOf b ∈ cases.map (·.1)

end Manticore.CpsOpt.BranchElim
