/-
  Manticore.Match.Dfa — the automata of the match compiler (match-dfa.sml).

  A state carries its id and its kind; the reference counts and the id counter are kept in
  the automaton and updated where a state is made. The types on paths only give types to
  fresh variables and are left out, as are error spans.
-/

import Manticore.Match.Syntax

namespace Manticore.Match

open Typechecker (Ty Failure)

inductive Path where
  | root (x : Var)
  | path (parent : Path) (index : Nat)
  deriving DecidableEq, Repr

def Path.extend (p : Path) (i : Nat) : Path := .path p i

/-- Variables and the paths they are bound to. -/
abbrev VarMap := List (Var × Path)

inductive SimplePat where
  | any
  | lit (l : Literal)
  | tpl (paths : List Path)
  | con (c : DCon) (tys : List Ty) (paths : List Path)

/-- The paths bound by a simple pattern. -/
def SimplePat.pathsOf : SimplePat → List Path
  | .con _ _ paths => paths
  | .tpl paths => paths
  | _ => []

inductive State (E : Type) where
  | test (id : Nat) (arg : Path) (arcs : List (SimplePat × State E))
  | bind (id : Nat) (vmap : VarMap) (q : State E)
  | final (id : Nat) (bvs : List Var) (e : E)
  | cond (id : Nat) (vmap : VarMap) (e : E) (t f : State E)
  | error (id : Nat)

variable {E : Type}

def State.id : State E → Nat
  | .test id _ _ => id
  | .bind id _ _ => id
  | .final id _ _ => id
  | .cond id _ _ _ _ => id
  | .error id => id

structure Dfa (E : Type) where
  arg : Var
  root : State E
  err : State E
  final : List (State E)
  idCnt : Nat
  refCnt : Nat → Nat

def mkDFA (arg : Var) : Dfa E := ⟨arg, .error 0, .error 0, [], 1, fun _ => 0⟩

/-- Take the next id. -/
def mkState (dfa : Dfa E) (q : Nat → State E) : State E × Dfa E :=
  (q dfa.idCnt, { dfa with idCnt := dfa.idCnt + 1 })

/-- Increment a state's reference count. -/
def inc (dfa : Dfa E) (q : State E) : Dfa E :=
  { dfa with refCnt := Function.update dfa.refCnt q.id (dfa.refCnt q.id + 1) }

def mkTest (dfa : Dfa E) (testVar : Path) (arcs : List (SimplePat × State E)) : State E × Dfa E :=
  mkState (arcs.foldl (fun dfa arc => inc dfa arc.2) dfa) fun id => .test id testVar arcs

def mkBind (dfa : Dfa E) (vmap : VarMap) (q : State E) : Except Failure (State E × Dfa E) :=
  match q with
  | .final .. => .ok (mkState (inc dfa q) fun id => .bind id vmap q)
  | .error _ => .ok (q, dfa)
  | _ => .error (.fail "mkBind: not final/error")

def mkFinal (dfa : Dfa E) (bvs : List Var) (e : E) : State E × Dfa E :=
  let (q, dfa) := mkState dfa fun id => .final id bvs e
  (q, { dfa with final := q :: dfa.final })

def mkCond (dfa : Dfa E) (vmap : VarMap) (e : E) (s1 s2 : State E) : Except Failure (State E × Dfa E) :=
  match s1 with
  | .final .. => .ok (mkState (inc (inc dfa s1) s2) fun id => .cond id vmap e s1 s2)
  | _ => .error (.fail "mkCond: true branch not final")

def setInitialState (dfa : Dfa E) (q : State E) : Dfa E := { inc dfa q with root := q }

/-! ## Running an automaton -/

/-- The value at a path of the argument. -/
def valueAt (v : Value) : Path → Option Value
  | .root _ => some v
  | .path parent i =>
    match valueAt v parent with
    | some (.conApp _ w) => if i = 0 then some w else none
    | some (.tuple vs) => vs[i]?
    | _ => none

/-- Does the value take the arc? -/
def SimplePat.accepts : SimplePat → Value → Bool
  | .any, _ => true
  | .lit l, .lit l' => l == l'
  | .tpl paths, .tuple vs => paths.length == vs.length
  | .con c _ [], .con c' => c.same c'
  | .con c _ [_], .conApp c' _ => c.same c'
  | _, _ => false

/-- The bindings of a variable map. -/
def bindings (v : Value) (vmap : VarMap) : Option Env := vmap.mapM fun (x, path) => (valueAt v path).map (x, ·)

/-- Where a run ends. -/
inductive Outcome (E : Type) where
  /-- In the final state with this id. -/
  | final (id : Nat) (e : E) (ρ : Env)
  | error
  | stuck

/-- The end of a run in a final state or the error state. -/
def finish (q : State E) (ρ : Env) : Outcome E :=
  match q with
  | .final id _ e => .final id e ρ
  | .error _ => .error
  | _ => .stuck

mutual

def State.run (truth : E → Env → Bool) (v : Value) : State E → Outcome E
  | .test _ arg arcs =>
    match valueAt v arg with
    | some w => runArcs truth v w arcs
    | none => .stuck
  | .bind _ vmap q =>
    match bindings v vmap with
    | some ρ => finish q ρ
    | none => .stuck
  | .cond _ vmap e t f =>
    match bindings v vmap with
    | some ρ => if truth e ρ then finish t ρ else f.run truth v
    | none => .stuck
  | .final .. => .stuck
  | .error _ => .error

def runArcs (truth : E → Env → Bool) (v w : Value) : List (SimplePat × State E) → Outcome E
  | [] => .stuck
  | (pat, q) :: arcs => if pat.accepts w then q.run truth v else runArcs truth v w arcs

end

end Manticore.Match
