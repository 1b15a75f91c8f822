/-
  Manticore.CpsOpt.FreeVars — the free-variable sets of the functions and continuations of a
  module (`cps-opt/free-vars.sml`).

  The property `getFV` of the variables is a table that is passed along. The sets that are
  recorded for the arms of conditionals are left out.
-/

import Manticore.Cps.Uses

namespace Manticore.CpsOpt.FreeVars

open Cps

/-- `getFV` and `setFV`. -/
abbrev Table := Var → Finset Var

section

variable (externs : List Var) (isJoinCont : Var → Bool)

/-- `addVar`: C functions are ignored. -/
def addVar (fv : Finset Var) (x : Var) : Finset Var := if externs.contains x then fv else insert x fv

/-- `addVars`. -/
def addVars (fv : Finset Var) (xs : List Var) : Finset Var := xs.foldl (addVar externs) fv

/-- `remove`. -/
def remove (s : Finset Var) (x : Var) : Finset Var := s.erase x

/-- `removes`. -/
def removes (s : Finset Var) (xs : List Var) : Finset Var := xs.foldl remove s

/-- `setFV`, for each of the functions. -/
def setFVs (fbs : List Lambda) (env : Finset Var) (T : Table) : Table :=
  fbs.foldl (fun T fb => Function.update T fb.f env) T

mutual

/-- `analExp`. -/
def analExp : Exp → Table → Finset Var × Table
  | .let_ _ xs rhs e, T =>
    let (fv, T) := analExp e T
    (removes (addVars externs fv rhs.vars) xs, T)
  | .fun_ _ fbs e, T =>
    let (fbEnv, T) := analFBs fbs ∅ T
    let fbEnv := removes fbEnv (fbs.map Lambda.f)
    let (fv, T) := analExp e (setFVs fbs fbEnv T)
    (removes (fv ∪ fbEnv) (fbs.map Lambda.f), T)
  | .cont _ fb e, T =>
    let (fbEnv, T) := analFB fb T
    let fbEnv := remove fbEnv fb.f
    let (fv, T) := analExp e (Function.update T fb.f fbEnv)
    (remove (fbEnv ∪ fv) fb.f, T)
  | .if_ _ cond e₁ e₂, T =>
    let (fv₁, T) := analExp e₁ T
    let (fv₂, T) := analExp e₂ T
    (addVars externs (fv₁ ∪ fv₂) cond.args, T)
  | .switch _ x cases dflt, T =>
    let (fv, T) := analCases cases ∅ T
    let (fv, T) := analDflt dflt fv T
    (addVar externs fv x, T)
  | .apply _ f args rets, T => (addVars externs ∅ (f :: (args ++ rets)), T)
  | .throw _ k args, T =>
    let fv := addVars externs ∅ args
    (if isJoinCont k then fv ∪ T k else addVar externs fv k, T)

/-- `analFB`. -/
def analFB : Lambda → Table → Finset Var × Table
  | .fb _ params rets body, T =>
    let (fv, T) := analExp body T
    (fv \ addVars externs (addVars externs ∅ params) rets, T)

/-- The union of the sets of the lambdas. -/
def analFBs : List Lambda → Finset Var → Table → Finset Var × Table
  | [], fv, T => (fv, T)
  | fb :: fbs, fv, T =>
    let (fv', T) := analFB fb T
    analFBs fbs (fv' ∪ fv) T

def analCases : List (Nat × Exp) → Finset Var → Table → Finset Var × Table
  | [], fv, T => (fv, T)
  | (_, e) :: cases, fv, T =>
    let (fv', T) := analExp e T
    analCases cases (fv ∪ fv') T

def analDflt : Option Exp → Finset Var → Table → Finset Var × Table
  | none, fv, T => (fv, T)
  | some e, fv, T =>
    let (fv', T) := analExp e T
    (fv ∪ fv', T)

end

end

/-- `analyze`. -/
def analyze (isJoinCont : Var → Bool) (m : Module) : Except String Table :=
  let (fv, T) := analFB m.externs isJoinCont m.body fun _ => ∅
  if fv = ∅ then .ok T else .error "non-closed module"

/-- `envOfFun`. -/
def envOfFun (T : Table) (f : Var) : Finset Var := T f

end Manticore.CpsOpt.FreeVars
