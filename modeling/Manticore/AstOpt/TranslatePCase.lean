/-
  Manticore.AstOpt.TranslatePCase — parallel cases as state machines (`ast-opt/translate-pcase.sml`).

  The type annotations of the code are left out, and so are the checks of a type that only
  serve to build them. A translation that raises `Fail` is an error with its message.
-/

import Manticore.AstOpt.CompletionBitstring

namespace Manticore.AstOpt.TranslatePCase

open Ast

variable {E : Type}

/-- `matchmap`. -/
abbrev MatchMap (E : Type) := CBM (List (Match E))

/-- `mkResPat`. -/
def mkResPat (p : SrcPat) : Pat := .conPat .resultRES p.val

/-- `mkExnPat`. -/
def mkExnPat (p : SrcPat) : Pat := .conPat .resultEXN p.val

/-- `futureVars`. -/
def futureVars (n : Nat) : List Ast.Var := (List.range n).map fun i => .fut (i + 1)

/-- `xform`. -/
def xform : PPat → Pat
  | .ndWildPat => .wildPat
  | .handlePat p => mkExnPat p
  | .pat p => mkResPat p

/-- `xformPPats`. -/
def xformPPats (ps : List PPat) : Pat := .tuplePat (ps.map xform)

/-- `initMap`, from the map `m` on. -/
def initMap : List CB → MatchMap E → Except String (MatchMap E)
  | [], m => .ok m
  | c :: cs, m => do
    if ← CBM.inDomain m c then initMap cs m else initMap cs (← CBM.insert m c [])

/-- `cbOf`. -/
def cbOf (n : Nat) : PMatch E → CB
  | .pmatch pps _ => CB.fromPPats pps
  | .otherwise _ => CB.allOnes n

/-- The match that a rule becomes. -/
def matchOf : PMatch E → Match E
  | .otherwise e => (.wildPat, .src e)
  | .pmatch ps e => (xformPPats ps, .src e)

def belongsLast : PMatch E → Bool
  | .otherwise _ => true
  | .pmatch _ _ => false

/-- `mergeOne`. -/
def mergeOne (m : MatchMap E) (cb : CB) (pm : PMatch E) : Except String (MatchMap E) := do
  let (m', ms) ← CBM.remove m cb
  let ms' := if belongsLast pm then ms ++ [matchOf pm] else matchOf pm :: ms
  CBM.insert m' cb ms'

/-- The loop of `merge` over the keys. -/
def mergeKeys (cb : CB) (pm : PMatch E) : List CB → MatchMap E → Except String (MatchMap E)
  | [], m' => .ok m'
  | cb' :: r, m' => do
    let m'' ← if ← CB.sub cb cb' then mergeOne m' cb' pm else pure m'
    mergeKeys cb pm r m''

/-- `merge`. -/
def merge (n : Nat) (pm : PMatch E) (m : MatchMap E) : Except String (MatchMap E) :=
  mergeKeys (cbOf n pm) pm (CBM.keys m) m

/-- `mkMatch`, from the result `tn` on: the match with `SOME`s and `NONE`s that calls the function `fV`, and
    its variables. -/
def mkMatch (fV : Ast.Var) : CB → Nat → Nat → List Pat → List Ast.Var → Except String (Match E × List Ast.Var)
  | [], 0, _, optPats, argVs =>
    .ok ((.tuplePat optPats.reverse, .applyExp fV (.tupleExp (argVs.reverse.map .varExp))), argVs.reverse)
  | .zero :: bs, ts + 1, tn, optPats, argVs =>
    mkMatch fV bs ts tn (.constPat (.dconst .optNONE) :: optPats) argVs
  | .one :: bs, ts + 1, tn, optPats, argVs =>
    mkMatch fV bs ts (tn + 1) (.conPat .optSOME (.varPat (.tmp tn)) :: optPats) (.tmp tn :: argVs)
  | _, _, _, _, _ => .error "ran out of types"

/-- `mkCancel`. -/
def mkCancel (futV : Ast.Var) : Exp E := .cancel (.varExp futV)

/-- `mkPoll`. -/
def mkPoll (futV : Ast.Var) : Exp E := .poll (.varExp futV)

/-- `applyCB`. -/
def applyCB {α : Type} : CB → List α → Except String (List α)
  | [], [] => .ok []
  | .zero :: bs, _ :: xs => applyCB bs xs
  | .one :: bs, x :: xs => do return x :: (← applyCB bs xs)
  | _, _ => .error "unequal lengths"

/-- `seqPrepend`. -/
def seqPrepend (es : List (Exp E)) (e : Exp E) : Exp E := es.foldr .seqExp e

/-- The futures at the wildcards of a tuple pattern. -/
def cancelThese : List Pat → List Ast.Var → Except String (List Ast.Var)
  | .wildPat :: ps, f :: fs => do return f :: (← cancelThese ps fs)
  | _ :: ps, _ :: fs => cancelThese ps fs
  | [], [] => .ok []
  | _, _ => .error "unequal lengths"

/-- `narrowMatch`. -/
def narrowMatch (cb : CB) (futVs : List Ast.Var) : Match E → Except String (Match E)
  | (.conPat _ _, _) => .error "BUG: unexpected ConPat"
  | (.varPat _, _) => .error "BUG: unexpected VarPat"
  | (.constPat _, _) => .error "BUG: unexpected ConstPat"
  | (.wildPat, e) => .ok (.wildPat, e)
  | (.tuplePat ps, e) => do
    let ps' ← applyCB cb ps
    let cancels ← cancelThese ps futVs
    return (.tuplePat ps', seqPrepend (cancels.map mkCancel) e)

/-- `narrowMatches`. -/
def narrowMatches (cb : CB) (futVs : List Ast.Var) : List (Match E) → Except String (List (Match E))
  | [] => .ok []
  | m :: ms => do return (← narrowMatch cb futVs m) :: (← narrowMatches cb futVs ms)

/-- `mkLam`. -/
def mkLam (fNameV : Ast.Var) (cb : CB) (caseArms : List (Match E)) (futVs : List Ast.Var) :
    Except String (Lambda E) := do
  let caseArms' ← narrowMatches cb futVs caseArms
  return (fNameV, .arg, .caseExp (.varExp .arg) caseArms')

/-- `applyGo`. -/
def applyGo : Exp E := .applyExp .go (.tupleExp [])

/-- `defaultMatch`. -/
def defaultMatch : Match E := (.wildPat, applyGo)

/-- `mkGo`. -/
def mkGo (fVs : List Ast.Var) (matches_ : List (Match E)) : Lambda E :=
  (.go, .unit, .caseExp (.tupleExp (fVs.map mkPoll)) (matches_ ++ [defaultMatch]))

/-- `isAllOnes`. -/
def isAllOnes (cb : CB) : Except String Bool := CB.eq cb (CB.allOnes cb.length)

/-- `b`: the functions of the machine. -/
def mkFuns (n : Nat) : List (CB × List (Match E)) → List (Match E) → List (Lambda E) →
    Except String (List (Lambda E))
  | [], matches_, lams => .ok (mkGo (futureVars n) matches_ :: lams)
  | (cb, ms) :: t, matches_, lams => do
    let nameV := Ast.Var.state cb
    let (m, _) ← mkMatch nameV cb n 1 [] []
    let ms' := if ← isAllOnes cb then ms else ms ++ [defaultMatch]
    let f ← mkLam nameV cb ms' (futureVars n)
    mkFuns n t (m :: matches_) (f :: lams)

/-- The bindings of the futures, from the variable `f_i` on. -/
def bindFutures (i : Nat) : List E → Exp E → Exp E
  | [], e => e
  | e :: es, e' => .letVal (.fut i) (.future e) (bindFutures (i + 1) es e')

/-- `mkStateMachine`. -/
def mkStateMachine (es : List E) (m : MatchMap E) : Except String (Exp E) := do
  let lams ← mkFuns es.length m [] []
  return bindFutures 1 es (.letFun lams applyGo)

/-- `otherwise`: there is no code yet that adds the rule which raises `Match`. -/
def otherwise (pms : List (PMatch E)) : Except String (List (PMatch E)) :=
  let n := pms.countP belongsLast
  if n > 1 then .error "too many otherwise branches in pcase"
  else if n = 0 then .error "FIXME"
  else .ok pms

/-- The fold of `buildMap`. -/
def mergeAll (n : Nat) : List (PMatch E) → MatchMap E → Except String (MatchMap E)
  | [], m => .ok m
  | pm :: pms, m => do mergeAll n pms (← merge n pm m)

/-- `buildMap`. -/
def buildMap (n : Nat) (pms : List (PMatch E)) : Except String (MatchMap E) := do
  mergeAll n pms (← initMap (pms.map (cbOf n)) [])

/-- `tr`. -/
def tr (es : List E) (pms : List (PMatch E)) : Except String (Exp E) := do
  let pms' ← otherwise pms
  mkStateMachine es (← buildMap es.length pms')

end Manticore.AstOpt.TranslatePCase
