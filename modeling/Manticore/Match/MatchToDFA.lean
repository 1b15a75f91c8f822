/-
  Manticore.Match.MatchToDFA — from match rules to an automaton (match-to-dfa.sml).

  A matrix is its list of rows; a column is read off the rows, so the links between cells
  (`right`, `down`) are not represented. `splitAtCol` builds the constructor map from the
  bottom row up and adds the rows to the sub-matrices in the same order, as the source
  does; `genDFA` recurses on fuel (`genDFA_returns` shows that it always settles). Failures
  of partial functions and of incomplete bindings are `Failure.fail`.
-/

import Manticore.Match.Dfa

namespace Manticore.Match

open Fuel
open Typechecker (Ty TyCon Failure)

/-- Simplified source patterns. -/
inductive SPat where
  | wild
  | lit (l : Literal) (ty : Ty)
  | con (c : DCon) (tys : List Ty)
  | conApp (c : DCon) (tys : List Ty) (path : Path) (p : SPat)
  | tuple (ps : List (Path × SPat))

structure Row (E : Type) where
  vmap : VarMap
  cells : List SPat
  optCond : Option (List Var × E)
  act : State E

structure Matrix (E : Type) where
  rows : List (Row E)
  vars : List Path

variable {E : Type}

def mkNilMat (vars : List Path) : Matrix E := ⟨[], vars⟩

/-- Add a row to the top of a matrix. -/
def addRow (mat : Matrix E) (row : Row E) : Except Failure (Matrix E) :=
  if row.cells.length = mat.vars.length then .ok { mat with rows := row :: mat.rows } else .error (.fail "Match")

/-- Replace the `i`th element of a list. -/
def replaceAt {α : Type} (new : List α) : List α → Nat → Except Failure (List α)
  | [], _ => .error (.fail "Match")
  | _ :: r, 0 => .ok (new ++ r)
  | x :: r, i + 1 => do
    let r ← replaceAt new r i
    .ok (x :: r)

def expandVars (vars : List Path) (i : Nat) (newVars : List Path) : Except Failure (List Path) :=
  replaceAt newVars vars i

def expandCols (row : Row E) (i : Nat) (args : List (Path × SPat)) : Except Failure (Row E) := do
  let cells ← replaceAt (args.map Prod.snd) row.cells i
  .ok { row with cells := cells }

/-! ## Splitting -/

inductive Coverage where
  | all
  | partial_
  deriving DecidableEq

def chkForAny (l : List SimplePat) : Coverage :=
  if l.any (fun | .any => true | _ => false) then .all else .partial_

/-- The set of constructor ids in the patterns, tested by `coverFn` at the end. -/
def chkSet (coverFn : List Nat → Except Failure Bool) : List Nat → List SimplePat → Except Failure Coverage
  | s, [] => do
    let b ← coverFn s
    .ok (if b then .all else .partial_)
  | _, .any :: _ => .ok .all
  | _, .tpl _ :: _ => .ok .all
  | s, .con c _ _ :: r => chkSet coverFn (s.insert c.id) r
  | _, .lit _ :: _ => .error (.fail "coverage.cvtDataty: bogus pattern")

def coverDataty (D : Data) (tyc : TyCon) (s : List Nat) : Except Failure Bool :=
  match D.cons tyc with
  | some l => .ok (s.length = l.length)
  | none => .error (.fail "Match")

def coverage (D : Data) : List SimplePat → Except Failure Coverage
  | [] => .ok .partial_
  | .any :: _ => .ok .all
  | .lit _ :: r => .ok (chkForAny r)
  | .tpl _ :: _ => .ok .all
  | .con c tys paths :: r => chkSet (coverDataty D c.owner) [] (.con c tys paths :: r)

/-- The sub-matrices of a column's constructors. -/
abbrev ConMap (E : Type) := List (SimplePat × Matrix E)

def isLit (l : Literal) : SimplePat → Bool
  | .lit l' => l' == l
  | _ => false

def isCon (c : DCon) : SimplePat → Bool
  | .con c' _ _ => c.same c'
  | _ => false

def findLit (conMap : ConMap E) (l : Literal) : Option (Matrix E) := (conMap.find? fun e => isLit l e.1).map Prod.snd

def findTpl : ConMap E → Except Failure (Option (Matrix E))
  | [] => .ok none
  | [(.tpl _, mat)] => .ok (some mat)
  | _ => .error (.fail "bogus conMap for tuple split")

def findCon (conMap : ConMap E) (c : DCon) : Option (Matrix E) := (conMap.find? fun e => isCon c e.1).map Prod.snd

/-- The initial map: one entry for each constructor in the column. -/
def mkConMap (vars : List Path) (i : Nat) : List SPat → Except Failure (ConMap E)
  | [] => .ok []
  | pat :: down => do
    let conMap ← mkConMap vars i down
    match pat with
    | .wild => .ok conMap
    | .lit l _ =>
      match findLit conMap l with
      | none => do
        let vars ← expandVars vars i []
        .ok ((.lit l, mkNilMat vars) :: conMap)
      | some _ => .ok conMap
    | .con c tys =>
      match findCon conMap c with
      | none => do
        let vars ← expandVars vars i []
        .ok ((.con c tys [], mkNilMat vars) :: conMap)
      | some _ => .ok conMap
    | .conApp c tys path _ =>
      match findCon conMap c with
      | none => do
        let vars ← expandVars vars i [path]
        .ok ((.con c tys [path], mkNilMat vars) :: conMap)
      | some _ => .ok conMap
    | .tuple pats => do
      match ← findTpl conMap with
      | none => do
        let paths := pats.map Prod.fst
        let vars ← expandVars vars i paths
        .ok [(.tpl paths, mkNilMat vars)]
      | some _ => .ok conMap

/-- Add a row to the sub-matrix of the first entry that `p` holds of. -/
def addTo (p : SimplePat → Bool) (row : Row E) : ConMap E → Except Failure (ConMap E)
  | [] => .error (.fail "Bind")
  | (pat, mat) :: conMap =>
    if p pat then do
      let mat ← addRow mat row
      .ok ((pat, mat) :: conMap)
    else do
      let conMap ← addTo p row conMap
      .ok ((pat, mat) :: conMap)

/-- A row with a wildcard in the column goes to every sub-matrix. -/
def addVarRow (row : Row E) (i : Nat) : ConMap E → Except Failure (ConMap E)
  | [] => .ok []
  | (pat, mat) :: conMap => do
    let row' ← expandCols row i (pat.pathsOf.map fun v => (v, .wild))
    let mat ← addRow mat row'
    let conMap ← addVarRow row i conMap
    .ok ((pat, mat) :: conMap)

/-- Populate the map and build the matrix of the rows with a wildcard. -/
def populate (vars : List Path) (i : Nat) (conMap : ConMap E) : List (Row E) → Except Failure (ConMap E × Matrix E)
  | [] => .ok (conMap, mkNilMat vars)
  | row :: rows => do
    let (conMap, varMat) ← populate vars i conMap rows
    match row.cells[i]? with
    | some .wild => do
      let conMap ← addVarRow row i conMap
      let varMat ← addRow varMat row
      .ok (conMap, varMat)
    | some (.lit l _) => do
      let row' ← expandCols row i []
      let conMap ← addTo (isLit l) row' conMap
      .ok (conMap, varMat)
    | some (.con c _) => do
      let row' ← expandCols row i []
      let conMap ← addTo (isCon c) row' conMap
      .ok (conMap, varMat)
    | some (.conApp c _ path pat) => do
      let row' ← expandCols row i [(path, pat)]
      let conMap ← addTo (isCon c) row' conMap
      .ok (conMap, varMat)
    | some (.tuple pats) =>
      match conMap with
      | [_] => do
        let row' ← expandCols row i pats
        let conMap ← addTo (fun _ => true) row' conMap
        .ok (conMap, varMat)
      | _ => .error (.fail "Bind")
    | none => .error (.fail "Match")

def Matrix.col (mat : Matrix E) (i : Nat) : List SPat := mat.rows.map fun row => row.cells.getD i .wild

def splitAtCol (D : Data) (mat : Matrix E) (i : Nat) : Except Failure (Path × ConMap E × Matrix E × Coverage) := do
  let conMap ← mkConMap mat.vars i (mat.col i)
  let (conMap, varMat) ← populate mat.vars i conMap mat.rows
  let cov ← coverage D (conMap.map Prod.fst)
  match mat.vars[i]? with
  | some v => .ok (v, conMap, varMat, cov)
  | none => .error (.fail "Subscript")

/-! ## Choosing a column -/

inductive ConOrLit where
  | cc (id : Nat) (owner : TyCon)
  | ll (l : Literal)
  deriving DecidableEq

/-- The distinct constructors and literals of a column. -/
def conSet : List SPat → List ConOrLit
  | [] => []
  | .con c _ :: r => (conSet r).insert (.cc c.id c.owner)
  | .conApp c _ _ _ :: r => (conSet r).insert (.cc c.id c.owner)
  | .lit l _ :: r => (conSet r).insert (.ll l)
  | _ :: r => conSet r

def count (col : List SPat) : Nat := (conSet col).length

/-- The column with the most distinct constructors among those whose first pattern is no
    wildcard. -/
def maxRow (curMax : Option Nat) (curCnt : Nat) : Nat → List (List SPat) → Option Nat
  | _, [] => curMax
  | i, (.wild :: _) :: cols => maxRow curMax curCnt (i + 1) cols
  | i, col :: cols =>
    if count col > curCnt then maxRow (some i) (count col) (i + 1) cols else maxRow curMax curCnt (i + 1) cols

def findTuple : Nat → List (List SPat) → Option Nat
  | _, [] => none
  | i, (.tuple _ :: _) :: _ => some i
  | i, _ :: cols => findTuple (i + 1) cols

def chooseCol (mat : Matrix E) : Option Nat :=
  let cols := (List.range mat.vars.length).map mat.col
  match maxRow none 0 0 cols with
  | none => findTuple 0 cols
  | some i => some i

/-! ## Translation -/

/-- The union of the bindings of two patterns. -/
def union (vm vm' : VarMap) : Except Failure VarMap :=
  if vm.any fun b => vm'.any fun b' => b.1 = b'.1 then .error (.fail "multiple occurrences") else .ok (vm ++ vm')

mutual

def doPat (D : Data) (path : Path) : Pat → Except Failure (SPat × VarMap)
  | .conPat c tys p =>
    match D.argTypeOf c tys with
    | none => .error (.fail "Bind")
    | some _ => do
      let argPath := path.extend 0
      let (p, vm) ← doPat D argPath p
      .ok (.conApp c tys argPath p, vm)
  | .tuplePat ps => do
    let (ps, vm) ← doSubPats D path 0 ps
    .ok (.tuple ps, vm)
  | .varPat x => .ok (.wild, [(x, path)])
  | .wildPat _ => .ok (.wild, [])
  | .constPat (.dConst c tys) => .ok (.con c tys, [])
  | .constPat (.lConst l ty) => .ok (.lit l ty, [])

def doSubPats (D : Data) (parentPath : Path) (i : Nat) : List Pat → Except Failure (List (Path × SPat) × VarMap)
  | [] => .ok ([], [])
  | p :: ps => do
    let (ps, vm') ← doSubPats D parentPath (i + 1) ps
    let path := parentPath.extend i
    let (p, vm) ← doPat D path p
    let vm ← union vm vm'
    .ok ((path, p) :: ps, vm)

end

/-- The row of a rule; its action is a new final state. -/
def doRule (D : Data) (dfa : Dfa E) (rule : Rule E) : Except Failure (Row E × Dfa E) := do
  let (pat, vm) ← doPat D (.root dfa.arg) rule.pat
  let (q, dfa) := mkFinal dfa rule.pat.vars rule.act
  .ok (⟨vm, [pat], rule.cond.map (rule.pat.vars, ·), q⟩, dfa)

def doRules (D : Data) (dfa : Dfa E) : List (Rule E) → Except Failure (List (Row E) × Dfa E)
  | [] => .ok ([], dfa)
  | rule :: rules => do
    let (row, dfa) ← doRule D dfa rule
    let (rows, dfa) ← doRules D dfa rules
    .ok (row :: rows, dfa)

/-- The initial matrix has one column; there must be a rule. -/
def step1 (D : Data) (dfa : Dfa E) (rules : List (Rule E)) : Except Failure (Matrix E × Dfa E) := do
  let (rows, dfa) ← doRules D dfa rules
  match rows with
  | [] => .error (.fail "Match")
  | _ => .ok (⟨rows, [.root dfa.arg]⟩, dfa)

/-- The matrix of the default arc when no row is left. -/
def errorMatrix (dfa : Dfa E) (vars : List Path) : Matrix E :=
  ⟨[⟨[], vars.map fun _ => .wild, none, dfa.err⟩], vars⟩

/-- The arcs of a constructor map, from the last entry. -/
def mkArcs (gen : Matrix E → Dfa E → Except Failure (State E × Dfa E)) (dfa : Dfa E)
    (lastArc : List (SimplePat × State E)) : ConMap E → Except Failure (List (SimplePat × State E) × Dfa E)
  | [] => .ok (lastArc, dfa)
  | (pat, mat) :: conMap => do
    let (arcs, dfa) ← mkArcs gen dfa lastArc conMap
    let (q, dfa) ← gen mat dfa
    .ok ((pat, q) :: arcs, dfa)

def genDFA (D : Data) : Nat → Matrix E → Dfa E → Except Failure (State E × Dfa E)
  | 0, _, _ => .error .fuel
  | n + 1, mat, dfa =>
    match mat.rows with
    | [] => .error (.fail "Match")
    | row1 :: rrows =>
      match row1.optCond, chooseCol mat with
      | none, none => mkBind dfa row1.vmap row1.act
      | some (_, e), none =>
        match rrows with
        | [] => mkCond dfa row1.vmap e row1.act dfa.err
        | _ => do
          let (q, dfa) ← genDFA D n { mat with rows := rrows } dfa
          mkCond dfa row1.vmap e row1.act q
      | _, some i => do
        let (splitVar, conMap, varMat, cov) ← splitAtCol D mat i
        let (lastArc, dfa) ← (match cov with
          | .all => (.ok ([], dfa) : Except Failure (List (SimplePat × State E) × Dfa E))
          | .partial_ => do
            let (q, dfa) ← genDFA D n (if varMat.rows.isEmpty then errorMatrix dfa mat.vars else varMat) dfa
            .ok ([(.any, q)], dfa))
        let (arcs, dfa) ← mkArcs (genDFA D n) dfa lastArc conMap
        .ok (mkTest dfa splitVar arcs)

def step2 (D : Data) (n : Nat) (mat : Matrix E) (dfa : Dfa E) : Except Failure (Dfa E) := do
  let (root, dfa) ← genDFA D n mat dfa
  .ok (setInitialState dfa root)

def rulesToDFA (D : Data) (n : Nat) (arg : Var) (rules : List (Rule E)) : Except Failure (Dfa E) := do
  let (mat, dfa) ← step1 D (mkDFA arg) rules
  step2 D n mat dfa

end Manticore.Match
