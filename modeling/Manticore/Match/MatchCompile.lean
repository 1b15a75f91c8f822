/-
  Manticore.Match.MatchCompile — from an automaton back to simple matches
  (match-compile.sml, match-comp-env.sml, `mkTupleExp` and `mkFunWithParams` of ast-util.sml).

  The info of a state is a function of the state, so the table of `analyseDFA` is left out;
  `shared` keeps one state for each id. Sets are lists without duplicates. Guards and actions
  stay source expressions: `rewrite (loc, env, e)` is the expression with the renaming it is
  read under. Types, error spans and the debugging output are left out.
-/

import Manticore.Match.Dfa

namespace Manticore.Match

open Typechecker (Ty Failure)
open Function (update)

variable {E : Type}

/-! ## Analysis -/

/-- The used path variables and the free source variables of a state. -/
structure Info where
  pvs : List Path
  fvs : List Var

/-- `vset \ dom vmap`. -/
def subtractDom (vset : List Var) (vmap : VarMap) : List Var := vset.filter fun x => !(vmap.map Prod.fst).contains x

mutual

def infoOf : State E → Info
  | .test _ arg cases => infoOfCases ⟨[arg], []⟩ cases
  | .bind _ vmap q =>
    let info := infoOf q
    ⟨info.pvs ∪ vmap.map Prod.snd, subtractDom info.fvs vmap⟩
  | .final _ fvs _ => ⟨[], fvs⟩
  | .cond _ vmap _ arc1 arc2 =>
    let info1 := infoOf arc1
    let info2 := infoOf arc2
    ⟨info1.pvs ∪ info2.pvs, subtractDom (info1.fvs ∪ info2.fvs) vmap⟩
  | .error _ => ⟨[], []⟩

def infoOfCases (info : Info) : List (SimplePat × State E) → Info
  | [] => info
  | (pat, arc) :: cases =>
    let info' := infoOf arc
    infoOfCases ⟨info.pvs ∪ info'.pvs.filter (fun p => !pat.pathsOf.contains p), info.fvs ∪ info'.fvs⟩ cases

end

/-- Keep a state that is referenced more than once. -/
def addShared (rc : Nat → Nat) (q : State E) (shared : List (State E)) : List (State E) :=
  if rc q.id > 1 ∧ ∀ q' ∈ shared, q'.id ≠ q.id then q :: shared else shared

mutual

/-- The shared states, a state after those below it. -/
def sharedOf (rc : Nat → Nat) (shared : List (State E)) : State E → List (State E)
  | .test id arg cases => addShared rc (.test id arg cases) (sharedOfCases rc shared cases)
  | .bind id vmap q => addShared rc (.bind id vmap q) (sharedOf rc shared q)
  | .final id fvs e => addShared rc (.final id fvs e) shared
  | .cond id vmap e arc1 arc2 =>
    addShared rc (.cond id vmap e arc1 arc2) (sharedOf rc (sharedOf rc shared arc1) arc2)
  | .error id => addShared rc (.error id) shared

def sharedOfCases (rc : Nat → Nat) (shared : List (State E)) : List (SimplePat × State E) → List (State E)
  | [] => shared
  | (_, arc) :: cases => sharedOfCases rc (sharedOf rc shared arc) cases

end

/-! ## Renamings -/

/-- A renaming of source variables; the others are themselves. -/
abbrev MatchCompEnv := Var → Var

/-- Rename the variables to fresh copies, from the last. -/
def renameList (env : MatchCompEnv) (c : Nat) : List Var → List Var × MatchCompEnv × Nat
  | [] => ([], env, c)
  | x :: xs =>
    let (xs, env, c) := renameList env c xs
    (⟨c⟩ :: xs, update env x ⟨c⟩, c + 1)

/-- The AST variables of paths. -/
abbrev PMap := Path → Option Var

def PMap.singleton (path : Path) (x : Var) : PMap := update (fun _ => none) path (some x)

def extendEnv (env : MatchCompEnv) (pmap : PMap) : VarMap → Except Failure MatchCompEnv
  | [] => .ok env
  | (x, path) :: vmap =>
    match pmap path with
    | some x' => extendEnv (if x ≠ x' then update env x x' else env) pmap vmap
    | none => .error (.fail "no binding for path")

/-! ## Decision trees -/

inductive PatArg where
  | anon
  | var (x : Var)

inductive TreePat where
  | wild
  | var (x : Var)
  | lit (l : Literal)
  | tpl (args : List PatArg)
  | con (c : DCon) (tys : List Ty) (args : List PatArg)

inductive DecisionTree (E : Type) where
  | call (f : Var) (args : List Var)
  | case_ (x : Var) (cases : List (TreePat × DecisionTree E))
  | if_ (env : MatchCompEnv) (e : E) (t f : DecisionTree E)
  | action (env : MatchCompEnv) (e : E)

/-- What the translation looks up: reference counts, the functions of shared states and the
    expression of the error state. -/
structure Forest (E : Type) where
  rc : Nat → Nat
  stateFuns : Nat → Option Var
  raiseExn : E

def lookupPath (pmap : PMap) (path : Path) : Except Failure Var :=
  match pmap path with
  | some x => .ok x
  | none => .error (.fail "lookupPath")

def lookupPaths (pmap : PMap) : List Path → Except Failure (List Var)
  | [] => .ok []
  | path :: paths => do
    let ys ← lookupPaths pmap paths
    let y ← lookupPath pmap path
    .ok (y :: ys)

/-- A call of a shared state's function, or the state's own tree. -/
def nextTree (K : Forest E) (env : MatchCompEnv) (pmap : PMap) (c : Nat) (q : State E)
    (visit : Except Failure (DecisionTree E × Nat)) : Except Failure (DecisionTree E × Nat) :=
  if K.rc q.id > 1 then
    match K.stateFuns q.id with
    | none => .error (.fail "shared state funs")
    | some f => do
      let pvars ← lookupPaths pmap (infoOf q).pvs
      .ok (.call f ((infoOf q).fvs.map env ++ pvars), c)
  else visit

/-- A fresh variable for a path that is used later. -/
def cvtArg (pvs : List Path) (path : Path) : Nat × PMap × List PatArg → Nat × PMap × List PatArg
  | (c, pmap, args) =>
    if path ∈ pvs then (c + 1, update pmap path (some ⟨c⟩), .var ⟨c⟩ :: args) else (c, pmap, .anon :: args)

def cvtPat (pmap : PMap) (arg : Path) (pvs : List Path) (c : Nat) : SimplePat → Except Failure (TreePat × PMap × Nat)
  | .any =>
    match pmap arg with
    | none => .ok (.wild, pmap, c)
    | some x => .ok (.var x, pmap, c)
  | .lit l => .ok (.lit l, pmap, c)
  | .tpl args =>
    let (c, pmap, args) := args.foldr (cvtArg pvs) (c, pmap, [])
    .ok (.tpl args, pmap, c)
  | .con dc tys [] => .ok (.con dc tys [], pmap, c)
  | .con dc tys [arg] =>
    let (c, pmap, args) := cvtArg pvs arg (c, pmap, [])
    .ok (.con dc tys args, pmap, c)
  | .con _ _ _ => .error (.fail "Match")

mutual

def toTree (K : Forest E) (env : MatchCompEnv) (pmap : PMap) (c : Nat) :
    State E → Except Failure (DecisionTree E × Nat)
  | .test _ arg cases =>
    match pmap arg with
    | none => .error (.fail "Bind")
    | some x => do
      let (cases, c) ← toCases K env pmap c arg cases
      .ok (.case_ x cases, c)
  | .bind _ vmap q => do
    let env ← extendEnv env pmap vmap
    nextTree K env pmap c q (toTree K env pmap c q)
  | .final _ _ e => .ok (.action env e, c)
  | .cond _ vmap e t f => do
    let env ← extendEnv env pmap vmap
    let (t, c) ← nextTree K env pmap c t (toTree K env pmap c t)
    let (f, c) ← nextTree K env pmap c f (toTree K env pmap c f)
    .ok (.if_ env e t f, c)
  | .error _ => .ok (.action env K.raiseExn, c)

def toCases (K : Forest E) (env : MatchCompEnv) (pmap : PMap) (c : Nat) (arg : Path) :
    List (SimplePat × State E) → Except Failure (List (TreePat × DecisionTree E) × Nat)
  | [] => .ok ([], c)
  | (pat, arc) :: cases => do
    let (pat, pmap', c) ← cvtPat pmap arg (infoOf arc).pvs c pat
    let (t, c) ← nextTree K env pmap' c arc (toTree K env pmap' c arc)
    let (cases, c) ← toCases K env pmap c arg cases
    .ok ((pat, t) :: cases, c)

end

/-- The function of a shared state. -/
structure TreeFun (E : Type) where
  f : Var
  params : List Var
  body : DecisionTree E

/-- Fresh variables for the paths of a shared state, from the last. -/
def freshPaths (c : Nat) : List Path → List Var × PMap × Nat
  | [] => ([], fun _ => none, c)
  | path :: paths =>
    let (vars, pmap, c) := freshPaths c paths
    (⟨c⟩ :: vars, update pmap path (some ⟨c⟩), c + 1)

def defShared (K : Forest E) (env0 : MatchCompEnv) (c : Nat) (q : State E) : Except Failure (TreeFun E × Nat) := do
  let (pvars, pmap, c) := freshPaths c (infoOf q).pvs
  let (fvars, env, c) := renameList env0 c (infoOf q).fvs
  let (body, c') ← toTree K env pmap (c + 1) q
  .ok (⟨⟨c⟩, fvars ++ pvars, body⟩, c')

/-- The functions of the shared states, each known to those after it. -/
def defAll (K : Forest E) (env0 : MatchCompEnv) (c : Nat) : List (State E) → Except Failure (List (TreeFun E) × Forest E × Nat)
  | [] => .ok ([], K, c)
  | q :: qs => do
    let (funct, c) ← defShared K env0 c q
    let (fns, K, c) ← defAll { K with stateFuns := update K.stateFuns q.id (some funct.f) } env0 c qs
    .ok (funct :: fns, K, c)

def dfaToTrees (env0 : MatchCompEnv) (dfa : Dfa E) (raiseExn : E) (c : Nat) :
    Except Failure (List (TreeFun E) × DecisionTree E × Nat) := do
  let shared := sharedOf dfa.refCnt [] dfa.root
  let (fns, K, c) ← defAll ⟨dfa.refCnt, fun _ => none, raiseExn⟩ env0 c shared
  let pmap := PMap.singleton (.root dfa.arg) dfa.arg
  let (tree, c) ← nextTree K env0 pmap c dfa.root (toTree K env0 pmap c dfa.root)
  .ok (fns, tree, c)

/-! ## Back to the AST -/

/-- A tuple expression of variables. -/
inductive VarTuple where
  | varExp (x : Var)
  | tupleExp (xs : List Var)

def mkTupleExp : List Var → VarTuple
  | [x] => .varExp x
  | xs => .tupleExp xs

inductive Exp (E : Type) where
  | applyExp (f : Var) (arg : VarTuple)
  | caseExp (x : Var) (ms : List (Pat × Exp E))
  /-- The condition is `rewrite (loc, env, e)`. -/
  | ifExp (env : MatchCompEnv) (e : E) (t f : Exp E)
  | rewrite (env : MatchCompEnv) (e : E)

/-- A function with one parameter. -/
structure FB (E : Type) where
  f : Var
  param : Var
  body : Exp E

def mkFunWithParams (c : Nat) (f : Var) (params : List Var) (e : Exp E) : FB E × Nat :=
  match params with
  | [] => (⟨f, ⟨c⟩, e⟩, c + 1)
  | [x] => (⟨f, x, e⟩, c)
  | _ => (⟨f, ⟨c⟩, .caseExp ⟨c⟩ [(.tuplePat (params.map .varPat), e)]⟩, c + 1)

/-- The type of a wildcard is left out of the automaton. -/
def PatArg.toPat : PatArg → Pat
  | .anon => .wildPat .errorTy
  | .var x => .varPat x

def TreePat.toPat : TreePat → Pat
  | .wild => .wildPat .errorTy
  | .var x => .varPat x
  | .lit l => .constPat (.lConst l .errorTy)
  | .tpl args => .tuplePat (args.map PatArg.toPat)
  | .con dc tys [] => .constPat (.dConst dc tys)
  | .con dc tys [arg] => .conPat dc tys arg.toPat
  | .con dc tys args => .conPat dc tys (.tuplePat (args.map PatArg.toPat))

mutual

def treeToAST : DecisionTree E → Exp E
  | .call f args => .applyExp f (mkTupleExp args)
  | .case_ x cases => .caseExp x (casesToAST cases)
  | .if_ env e t f => .ifExp env e (treeToAST t) (treeToAST f)
  | .action env e => .rewrite env e

def casesToAST : List (TreePat × DecisionTree E) → List (Pat × Exp E)
  | [] => []
  | (pat, t) :: cases => (pat.toPat, treeToAST t) :: casesToAST cases

end

def treeToFBs (c : Nat) : List (TreeFun E) → List (FB E) × Nat
  | [] => ([], c)
  | fn :: fns =>
    let (fb, c) := mkFunWithParams c fn.f fn.params (treeToAST fn.body)
    let (fbs, c) := treeToFBs c fns
    (fb :: fbs, c)

/-- The functions of the shared states and the simplified match. -/
structure SimpleMatch (E : Type) where
  shared : List (FB E)
  match_ : Exp E

def dfaToAST (env0 : MatchCompEnv) (dfa : Dfa E) (raiseExn : E) (c : Nat) : Except Failure (SimpleMatch E × Nat) := do
  let (fns, tree, c) ← dfaToTrees env0 dfa raiseExn c
  let (fbs, c) := treeToFBs c fns
  .ok (⟨fbs, treeToAST tree⟩, c)

/-! ## Running the match -/

/-- The values of variables. -/
abbrev Store := Var → Option Value

def Store.set (σ : Store) (ρ : Env) : Store := fun x => (ρ.lookup x).or (σ x)

def VarTuple.eval (σ : Store) : VarTuple → Option Value
  | .varExp x => σ x
  | .tupleExp xs => (xs.mapM σ).map .tuple

/-- Where a run ends: an action with the values of its free variables. -/
inductive Result (E : Type) where
  | action (e : E) (vals : List (Option Value))
  | stuck

section

variable (fv : E → List Var) (truth : E → List (Option Value) → Bool)

mutual

def Exp.eval (call : Var → Value → Result E) (σ : Store) : Exp E → Result E
  | .applyExp f arg =>
    match arg.eval σ with
    | some w => call f w
    | none => .stuck
  | .caseExp x ms =>
    match σ x with
    | some w => evalMatches call σ w ms
    | none => .stuck
  | .ifExp env e t f => if truth e ((fv e).map fun x => σ (env x)) then t.eval call σ else f.eval call σ
  | .rewrite env e => .action e ((fv e).map fun x => σ (env x))

def evalMatches (call : Var → Value → Result E) (σ : Store) (w : Value) : List (Pat × Exp E) → Result E
  | [] => .stuck
  | (p, e) :: ms =>
    match patMatch p w with
    | some ρ => e.eval call (σ.set ρ)
    | none => evalMatches call σ w ms

end

/-- A call of a function of the group, with a bound on the depth of calls. -/
def callFun (fbs : List (FB E)) (σ : Store) : Nat → Var → Value → Result E
  | 0, _, _ => .stuck
  | n + 1, f, w =>
    match fbs.find? fun fb => fb.f = f with
    | some fb => fb.body.eval fv truth (callFun fbs σ n) (σ.set [(fb.param, w)])
    | none => .stuck

/-- The match on an argument that is bound to `arg`. -/
def SimpleMatch.eval (m : SimpleMatch E) (n : Nat) (arg : Var) (σ : Store) (v : Value) : Result E :=
  m.match_.eval fv truth (callFun fv truth m.shared (σ.set [(arg, v)]) n) (σ.set [(arg, v)])

end

end Manticore.Match
