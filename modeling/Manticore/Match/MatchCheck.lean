/-
  Manticore.Match.MatchCheck — exhaustiveness and redundancy of a match (match-check.sml,
  `TypeUtil.same`, `TypeOf.pat`, `Literal.compare`).

  A pattern matrix is a list of rows. The loops over the rows are one loop, `rowLoop`, with
  what each does to the first cell of a row; `u`, `wild` and `i` recurse on fuel. Sets are
  sorted lists. `same` reads the store and drops what `prune` compresses in it: only the types
  of literals are compared, and the one cell that is read directly, by `breakTups`, stands for
  a tuple type. A matrix or a type printed at the end of a failure's text is left out.
-/

import Manticore.Match.Syntax

namespace Manticore.Match.MatchCheck

open Typechecker (Ty TyCon Failure prune unitTy intTyc stringTyc)

/-! ## Literals -/

def cmpDigits : List Nat → List Nat → Ordering
  | [], [] => .eq
  | [], _ => .lt
  | _, [] => .gt
  | d1 :: r1, d2 :: r2 =>
    match compare d1 d2 with
    | .eq => cmpDigits r1 r2
    | order => order

def compareFloat (f1 f2 : FloatLit) : Ordering :=
  match f1.isNeg, f2.isNeg with
  | false, true => .gt
  | true, false => .lt
  | _, _ =>
    match Ord.compare f1.exp f2.exp with
    | .eq => cmpDigits f1.digits f2.digits
    | order => order

/-- The place of a literal's form in the order. -/
def rank : Literal → Nat
  | .enum _ => 0
  | .stateVal _ => 1
  | .tag _ => 2
  | .int _ => 3
  | .float _ => 4
  | .char _ => 5
  | .string _ => 6
  | .bool _ => 7

def compareLit : Literal → Literal → Ordering
  | .enum a, .enum b => Ord.compare a b
  | .stateVal n1, .stateVal n2 => Ord.compare n1 n2
  | .tag n1, .tag n2 => Ord.compare n1 n2
  | .int i1, .int i2 => Ord.compare i1 i2
  | .float f1, .float f2 => compareFloat f1 f2
  | .char c1, .char c2 => Ord.compare c1 c2
  | .string s1, .string s2 => Ord.compare s1 s2
  | .bool b1, .bool b2 => Ord.compare b1 b2
  | l1, l2 => Ord.compare (rank l1) (rank l2)

def unitLit : Literal := .enum 0

def trueLit : Literal := .bool true

def falseLit : Literal := .bool false

/-- `ORD_SET.add`. -/
def addBy {α : Type} (cmp : α → α → Ordering) (x : α) : List α → List α
  | [] => [x]
  | y :: ys =>
    match cmp x y with
    | .lt => x :: y :: ys
    | .eq => x :: ys
    | .gt => y :: addBy cmp x ys

def litSetAdd (acc : List Literal) (l : Literal) : List Literal := addBy compareLit l acc

def litSetFromList (lits : List Literal) : List Literal := lits.foldl litSetAdd []

def unitLitSet : List Literal := litSetFromList [unitLit]

def boolLitSet : List Literal := litSetFromList [trueLit, falseLit]

/-! ## Types -/

def boolTyc : TyCon := ⟨8⟩

def boolTy : Ty := .conTy [] boolTyc

def intTy : Ty := .conTy [] intTyc

def stringTy : Ty := .conTy [] stringTyc

mutual

def metaFree : Ty → Bool
  | .metaTy _ => false
  | .conTy args _ => metaFrees args
  | .funTy ty1 ty2 => metaFree ty1 && metaFree ty2
  | .tupleTy tys => metaFrees tys
  | _ => true

def metaFrees : List Ty → Bool
  | [] => true
  | ty :: tys => metaFree ty && metaFrees tys

end

/-- What the check reads besides the matrix: the type definitions, the meta variables, the
    types of the source variables in head-normal form, and the range of the host's `int`. -/
structure Context where
  data : Data
  store : Typechecker.Store
  varTy : Var → Ty
  minInt : Int
  maxInt : Int
  declared : ∀ tyc l, data.cons tyc = some l → ∀ c ∈ l, ∀ ty, c.argTy = some ty → metaFree ty = true

/-- `ListPair.allEq`. -/
def allEqM (f : Ty → Ty → Except Failure Bool) : List Ty → List Ty → Except Failure Bool
  | [], [] => .ok true
  | t1 :: ts1, t2 :: ts2 => do
    if ← f t1 t2 then allEqM f ts1 ts2 else .ok false
  | _, _ => .ok false

def same : Nat → Typechecker.Store → Ty → Ty → Except Failure Bool
  | 0, _, _, _ => .error .fuel
  | n + 1, s, ty1, ty2 => do
    let (_, ty1) ← prune n s ty1
    let (_, ty2) ← prune n s ty2
    match ty1, ty2 with
    | .errorTy, _ => .ok true
    | _, .errorTy => .ok true
    | .metaTy mv1, .metaTy mv2 => .ok (decide (mv1 = mv2))
    | .varTy tv1, .varTy tv2 => .ok (decide (tv1 = tv2))
    | .conTy args1 tyc1, .conTy args2 tyc2 => if tyc1 = tyc2 then allEqM (same n s) args1 args2 else .ok false
    -- the second test compares the parts of the second type with each other
    | .funTy ty11 _, .funTy ty21 ty22 => do
      if ← same n s ty11 ty21 then same n s ty21 ty22 else .ok false
    | .tupleTy tys1, .tupleTy tys2 => allEqM (same n s) tys1 tys2
    | _, _ => .ok false

/-- The substitution of `args` for the parameters of a constructor's datatype. -/
def inst (D : Data) (c : DCon) (args : List Ty) : Ty → Ty :=
  applySubst fun v => (((D.params c.owner).zip args).lookup v).getD (.varTy v)

def resultTypeOf (D : Data) (c : DCon) (args : List Ty) : Ty :=
  inst D c args (.conTy ((D.params c.owner).map .varTy) c.owner)

/-- `DataCon.typeOf'`. -/
def typeOf (D : Data) (c : DCon) (args : List Ty) : Ty :=
  match c.argTy with
  | none => resultTypeOf D c args
  | some ty => .funTy (inst D c args ty) (resultTypeOf D c args)

mutual

/-- `TypeOf.pat`. -/
def typeOfPat (K : Context) : Pat → Ty
  | .conPat c args _ => resultTypeOf K.data c args
  | .tuplePat ps => .tupleTy (typeOfPats K ps)
  | .varPat x => K.varTy x
  | .wildPat ty => ty
  | .constPat (.dConst c args) => typeOf K.data c args
  | .constPat (.lConst _ ty) => ty

def typeOfPats (K : Context) : List Pat → List Ty
  | [] => []
  | p :: ps => typeOfPat K p :: typeOfPats K ps

end

/-! ## Matrices -/

abbrev PatMat := List (List Pat)

def bug {α : Type} (whence msg : String) : Except Failure α := .error (.fail ("bug in " ++ whence ++ ": " ++ msg))

def patOf {E : Type} : Rule E → Pat
  | .patMatch p _ => p
  | .condMatch p _ _ => p

mutual

def elimVarPat (K : Context) : Pat → Pat
  | .conPat c ts p => .conPat c ts (elimVarPat K p)
  | .tuplePat ps => .tuplePat (elimVarPats K ps)
  | .varPat x => .wildPat (K.varTy x)
  | .wildPat ty => .wildPat ty
  | .constPat k => .constPat k

def elimVarPats (K : Context) : List Pat → List Pat
  | [] => []
  | p :: ps => elimVarPat K p :: elimVarPats K ps

end

def mkPatMat {E : Type} (K : Context) (ms : List (Rule E)) : Except Failure PatMat :=
  match ms with
  | [] => bug "mkPatMat" "empty match list"
  | ms => .ok (ms.map fun m => [elimVarPat K (patOf m)])

/-- The width and the length. -/
def dim : PatMat → Nat × Nat
  | [] => (0, 0)
  | ps :: pss => (ps.length, (ps :: pss).length)

/-- `DataCon.compare`. -/
def compareCon (c c' : DCon) : Ordering :=
  match Ord.compare c.id c'.id with
  | .eq => Ord.compare c.owner.stamp c'.owner.stamp
  | order => order

def nConsOf (D : Data) (tyc : TyCon) : Except Failure Nat :=
  match D.cons tyc with
  | none => bug "nConsOf" "trying to count the constructors in an abstract type"
  | some l => .ok l.length

def allCons (D : Data) (tyc : TyCon) : List DCon :=
  match D.cons tyc with
  | none => []
  | some l => l.foldl (fun acc c => addBy compareCon c acc) []

def unrepresentedCons (D : Data) (s : List DCon) : Except Failure (List DCon) :=
  match s with
  | [] => bug "dconSetOwner" "empty argument"
  | c :: _ => .ok ((allCons D c.owner).filter fun c' => !s.any c'.same)

def completeCons (D : Data) (s : List DCon) : Except Failure Bool :=
  match s with
  | [] => .ok false
  | c :: _ => do .ok ((← nConsOf D c.owner) == s.length)

def firstColCons (acc : List DCon) : PatMat → Except Failure (List DCon)
  | [] => .ok acc
  | (.conPat c _ _ :: _) :: pss => firstColCons (addBy compareCon c acc) pss
  | (.constPat (.dConst c _) :: _) :: pss => firstColCons (addBy compareCon c acc) pss
  | (_ :: _) :: pss => firstColCons acc pss
  | [] :: _ => bug "firstColCons" "malformed pattern matrix"

def completeLits (K : Context) (n : Nat) (ty : Ty) (s : List Literal) : Except Failure Bool := do
  if ← same n K.store unitTy ty then .ok (decide (unitLitSet = s))
  else if ← same n K.store boolTy ty then .ok (decide (boolLitSet = s))
  else .ok false

def firstColContainsCons (p : PatMat) : Bool :=
  p.any fun
    | .constPat (.dConst _ _) :: _ => true
    | .conPat _ _ _ :: _ => true
    | _ => false

def firstColContainsLits (p : PatMat) : Bool :=
  p.any fun
    | .constPat (.lConst _ _) :: _ => true
    | .tuplePat [] :: _ => true
    | _ => false

def firstColTy (K : Context) : PatMat → Except Failure Ty
  | (p :: _) :: _ => .ok (typeOfPat K p)
  | _ => bug "firstColTy" "malformed pattern matrix\n"

def firstColTupleTy (K : Context) (p : PatMat) : Except Failure Bool := do
  match ← firstColTy K p with
  | .tupleTy [] => .ok false
  | .tupleTy _ => .ok true
  | _ => .ok false

def firstColLits (K : Context) (n : Nat) (optTy : Option Ty) (acc : List Literal) :
    PatMat → Except Failure (Ty × List Literal)
  | [] =>
    match optTy with
    | some ty => .ok (ty, acc)
    | none => bug "firstColLits" "no type?"
  | (.constPat (.lConst lit ty) :: _) :: pss => firstColLits K n (some (optTy.getD ty)) (litSetAdd acc lit) pss
  | (.tuplePat [] :: _) :: pss =>
    match optTy with
    | none => firstColLits K n (some unitTy) (litSetAdd acc unitLit) pss
    | some ty' => do
      if ← same n K.store ty' unitTy then firstColLits K n optTy (litSetAdd acc unitLit) pss
      else bug "firstColLits" "empty tuple pattern not of type unit"
  | (_ :: _) :: pss => firstColLits K n optTy acc pss
  | [] :: _ => bug "firstColLits" "malformed pattern matrix"

def conWilds (c : DCon) : List Pat :=
  match c.argTy with
  | none => []
  | some t => [.wildPat t]

/-- The loop over the rows: a row is left out, or its first cell makes way for some cells. -/
def rowLoop (whence : String) (cell : Pat → Except Failure (Option (List Pat))) : PatMat → Except Failure PatMat
  | [] => .ok []
  | (q :: ps) :: pss => do
    match ← cell q with
    | some qs => do
      let pss' ← rowLoop whence cell pss
      .ok ((qs ++ ps) :: pss')
    | none => rowLoop whence cell pss
  | [] :: _ => bug whence "malformed pattern matrix"

def sCell (c : DCon) : Pat → Except Failure (Option (List Pat))
  | .conPat c' _ p' =>
    if c.same c' then
      match p' with
      | .varPat _ => bug "s" "(ConPat) unexpected VarPat in pattern matrix"
      | p' => .ok (some [p'])
    else .ok none
  | .tuplePat _ => .ok none
  | .varPat _ => bug "s" "(VarPat) unexpected VarPat in pattern matrix"
  | .wildPat _ => .ok (some (conWilds c))
  | .constPat (.dConst c' _) => .ok (if c.same c' then some [] else none)
  | .constPat (.lConst _ _) => .ok none

def s (c : DCon) : PatMat → Except Failure PatMat := rowLoop "s" (sCell c)

def sLCell (K : Context) (n : Nat) (l : Literal) (t : Ty) : Pat → Except Failure (Option (List Pat))
  | .constPat (.lConst l' t') => do
    if ← same n K.store t t' then .ok (if l = l' then some [] else none) else .ok none
  | .tuplePat [] => do
    if ← same n K.store t unitTy then .ok (some []) else bug "sL" "there's only one unit literal"
  | .wildPat _ => .ok (some [])
  | .varPat _ => bug "sL" "unexpected VarPat in pattern matrix"
  | _ => .ok none

def sL (K : Context) (n : Nat) (l : Literal) (t : Ty) : PatMat → Except Failure PatMat :=
  rowLoop "sL" (sLCell K n l t)

def sKCell (c : DCon) : Pat → Except Failure (Option (List Pat))
  | .constPat (.dConst c' _) => .ok (if c.same c' then some [] else none)
  | .wildPat _ => .ok (some [])
  | .varPat _ => bug "sK" "unexpected VarPat in pattern matrix"
  | _ => .ok none

def sK (K : Context) (n : Nat) : Const → PatMat → Except Failure PatMat
  | .dConst c _ => rowLoop "sK" (sKCell c)
  | .lConst l t => sL K n l t

def sTCell (ts : List Ty) : Pat → Except Failure (Option (List Pat))
  | .tuplePat rs => if rs.length = ts.length then .ok (some rs) else bug "sT" "tuple arity"
  | .wildPat (.tupleTy ts') =>
    if ts'.length = ts.length then .ok (some (ts.map .wildPat)) else bug "sT" "wild tuple arity"
  | .wildPat (.metaTy _) => .ok (some (ts.map .wildPat))
  | .wildPat _ => bug "sT" "unexpected WildPat with non-tuple type"
  | .varPat _ => bug "sT" "unexpected VarPat in pattern matrix"
  | .conPat _ _ _ => bug "sT" "unexpected ConPat in pattern matrix"
  | .constPat _ => bug "sT" "unexpected ConstPat in pattern matrix"

def sT (ts : List Ty) : PatMat → Except Failure PatMat := rowLoop "sT" (sTCell ts)

def dCell : Pat → Except Failure (Option (List Pat))
  | .wildPat _ => .ok (some [])
  | .varPat _ => bug "d" "unexpected VarPat in pattern matrix"
  | _ => .ok none

def d : PatMat → Except Failure PatMat := rowLoop "d" dCell

/-! ## Usefulness -/

def breakCell (st : Typechecker.Store) : Pat → Except Failure (Option (List Pat))
  | .tuplePat ps => .ok (some ps)
  | .wildPat (.tupleTy ts) => .ok (some (ts.map .wildPat))
  | .wildPat (.metaTy mv) =>
    match st.info mv with
    | .inst (.tupleTy ts) => .ok (some (ts.map .wildPat))
    | _ => bug "breakTups" "can't handle this meta ty: "
  | .wildPat _ => bug "breakTups" "wild pat with non-tuple type: "
  | .conPat _ _ _ => bug "breakTups" "unexpected ConPat"
  | .varPat _ => bug "breakTups" "unexpected VarPat"
  | .constPat _ => bug "breakTups" "unexpected ConstPat"

def breakTups (st : Typechecker.Store) : PatMat → Except Failure PatMat := rowLoop "breakTups" (breakCell st)

/-- `wild`; `rec` is `u`. -/
def wild (K : Context) (n : Nat) (rec : PatMat → List Pat → Except Failure Bool) (p : PatMat) (qs : List Pat) :
    Except Failure Bool := do
  if firstColContainsLits p then
    let (ty, sigma) ← firstColLits K n none [] p
    if ← completeLits K n ty sigma then
      sigma.anyM fun l => do rec (← sL K n l ty p) qs
    else
      rec (← d p) qs
  else
    let sigma ← firstColCons [] p
    if ← completeCons K.data sigma then
      sigma.anyM fun c => do rec (← s c p) (conWilds c ++ qs)
    else
      rec (← d p) qs

def u (K : Context) : Nat → PatMat → List Pat → Except Failure Bool
  | 0, _, _ => .error .fuel
  | n + 1, p, v =>
    if (dim p).1 = 0 then .ok (decide ((dim p).2 = 0))
    else if (dim p).1 ≠ v.length then
      bug "u" ("unequal widths: pat matrix width = " ++ toString (dim p).1 ++ ", vector width = " ++ toString v.length)
    else
      match v with
      | [] => bug "u" "broken invariant"
      | .conPat c _ r :: qs => do u K n (← s c p) (r :: qs)
      | .constPat k :: qs => do u K n (← sK K n k p) qs
      | .varPat _ :: _ => bug "u" "unexpected VarPat in pattern matrix"
      | .wildPat (.tupleTy (t :: ts)) :: qs => do u K n (← breakTups K.store p) ((t :: ts).map .wildPat ++ qs)
      | .wildPat _ :: qs => wild K n (u K n) p qs
      | .tuplePat rs :: qs => do u K n (← sT (typeOfPats K rs) p) (rs ++ qs)

/-- The loop of `redundant`: the rows left and the rows before them. -/
def redundantLoop (rec : PatMat → List Pat → Except Failure Bool) (m : PatMat) :
    PatMat → Except Failure (Option (List Pat))
  | [] => .ok none
  | ps :: pss => do
    if ← rec m ps then redundantLoop rec (m ++ [ps]) pss else .ok (some ps)

def redundant (K : Context) (n : Nat) (p : PatMat) : Except Failure (Option (List Pat)) :=
  match p with
  | [] => .ok none
  | [_] => .ok none
  | v :: vs => redundantLoop (u K n) [v] vs

/-! ## Inexhaustiveness -/

/-- The search for a gap in a sorted list: the loop of `missingIntegral`. -/
def gap (max : Int) : List Int → Except Failure (Option Int)
  | [n] => .ok (if n < max then some (n + 1) else none)
  | m :: n :: ns => if m + 1 = n then gap max (n :: ns) else .ok (some (m + 1))
  | [] => bug "missingIntegral" "unreachable"

def missingIntegral (min max : Int) : List Int → Except Failure (Option Int)
  | [] => .ok (some 0)
  | m :: ns => if min < m then .ok (some (m - 1)) else gap max (m :: ns)

def missingInt (K : Context) : List Int → Except Failure (Option Int) := missingIntegral K.minInt K.maxInt

/-- `IntInf.toInt` of the literal. -/
def toInt (K : Context) : Literal → Except Failure Int
  | .int n => if K.minInt ≤ n ∧ n ≤ K.maxInt then .ok n else .error (.fail "Overflow")
  | _ => .error (.fail "precondition not met")

def nextInt (K : Context) (s : List Literal) : Except Failure (Option Literal) := do
  let ns ← s.mapM (toInt K)
  let n ← missingInt K ns
  .ok (n.map .int)

/-- The loop of `missingString`, with so many rounds left. -/
def missingFrom (s : List Literal) : Nat → String → Option Literal
  | 0, _ => none
  | i + 1, t => if .string t ∈ s then missingFrom s i (t ++ "`") else some (.string t)

def missingString (s : List Literal) : Option Literal := missingFrom s 10000 "Mxyzptlk"

def unrepresentedLit (K : Context) (n : Nat) (ty : Ty) (s : List Literal) : Except Failure (Option Pat) := do
  if ← same n K.store boolTy ty then
    .ok (some (.constPat (.lConst (if trueLit ∈ s then falseLit else trueLit) boolTy)))
  else if ← same n K.store intTy ty then
    match ← nextInt K s with
    | none => .ok (some (.wildPat ty))
    | some l => .ok (some (.constPat (.lConst l ty)))
  else if ← same n K.store stringTy ty then
    match missingString s with
    | some l => .ok (some (.constPat (.lConst l ty)))
    | none => .ok (some (.wildPat ty))
  else if ← same n K.store unitTy ty then
    .ok (if s.length = 0 then some (.tuplePat []) else none)
  else .ok (some (.wildPat ty))

def mkConPat (c : DCon) (ts : List Ty) : Pat :=
  match c.argTy with
  | none => .constPat (.dConst c ts)
  | some ty => .conPat c ts (.wildPat ty)

def restFirstRow : PatMat → Except Failure (List Pat)
  | (_ :: ps) :: _ => .ok ps
  | [] :: _ => bug "restFirstRow" "first row empty"
  | [] => bug "restFirstRow" "empty pattern matrix"

/-- `i` on a matrix and its width. -/
abbrev Search := PatMat → Nat → Except Failure (Option (List Pat))

/-- A tuple of the first `arity` patterns: `List.take` and `List.drop`. -/
def tupleOf (arity : Nat) (ps : List Pat) : Except Failure (List Pat) :=
  if arity ≤ ps.length then .ok (.tuplePat (ps.take arity) :: ps.drop arity) else .error (.fail "Subscript")

def iTuple (K : Context) (rec : Search) (p : PatMat) (n : Nat) : Except Failure (Option (List Pat)) := do
  match ← firstColTy K p with
  | .tupleTy ts =>
    match ← rec (← sT ts p) (ts.length + n - 1) with
    | some ps => do .ok (some (← tupleOf ts.length ps))
    | none => .ok none
  | _ => bug "i" "expected TupleTy"

/-- The loop over the literals of a complete column. -/
def iLitLoop (K : Context) (fuel : Nat) (rec : Search) (p : PatMat) (n : Nat) (ty : Ty) :
    List Literal → Except Failure (Option (List Pat))
  | [] => .ok none
  | l :: ls => do
    match ← rec (← sL K fuel l ty p) (n - 1) with
    | some v => .ok (some (.constPat (.lConst l ty) :: v))
    | none => iLitLoop K fuel rec p n ty ls

def iLits (K : Context) (fuel : Nat) (rec : Search) (p : PatMat) (n : Nat) : Except Failure (Option (List Pat)) := do
  let (ty, sigma) ← firstColLits K fuel none [] p
  if ← completeLits K fuel ty sigma then iLitLoop K fuel rec p n ty sigma
  else
    match ← d p with
    | [] => do
      let v ← restFirstRow p
      match ← unrepresentedLit K fuel ty sigma with
      | some k => .ok (some (k :: v))
      | none => bug "i" "there should be an unrepresented literal"
    | p' =>
      match ← rec p' (n - 1) with
      | none => .ok none
      | some v =>
        match ← unrepresentedLit K fuel ty sigma with
        | some k => .ok (some (k :: v))
        | none => bug "i" "there should be an unrepresented literal"

/-- The loop over the constructors of a complete column. -/
def iConLoop (rec : Search) (p : PatMat) (n : Nat) (ts : List Ty) : List DCon → Except Failure (Option (List Pat))
  | [] => .ok none
  | c :: cs => do
    let cArity := if c.argTy.isSome then 1 else 0
    match ← rec (← s c p) (cArity + n - 1) with
    | none => iConLoop rec p n ts cs
    | some (q :: qs) => .ok (some (.conPat c ts q :: qs))
    | some [] => bug "i" "illegal conpat arg"

/-- The type arguments for a witness in a column of constructors. -/
def firstColArgs (K : Context) (p : PatMat) : Except Failure (List Ty) := do
  match ← firstColTy K p with
  | .conTy ts _ => .ok ts
  | .metaTy _ => .ok []
  | _ => bug "i" "p:\n"

def iCons (K : Context) (rec : Search) (p : PatMat) (n : Nat) : Except Failure (Option (List Pat)) := do
  let sigma ← firstColCons [] p
  let ts ← firstColArgs K p
  if ← completeCons K.data sigma then iConLoop rec p n ts sigma
  else
    match ← rec (← d p) (n - 1) with
    | none => .ok none
    | some v =>
      match ← unrepresentedCons K.data sigma with
      | [] => bug "i" "sigma is incomplete"
      | c :: _ => .ok (some (mkConPat c ts :: v))

def iVars (K : Context) (rec : Search) (p : PatMat) (n : Nat) : Except Failure (Option (List Pat)) := do
  let ty ← firstColTy K p
  match ← rec (← d p) (n - 1) with
  | none => .ok none
  | some v => .ok (some (.wildPat ty :: v))

def i (K : Context) : Nat → PatMat → Nat → Except Failure (Option (List Pat))
  | 0, _, _ => .error .fuel
  | fuel + 1, p, n => do
    if n = 0 then .ok (if (dim p).2 > 0 then none else some [])
    else if ← firstColTupleTy K p then iTuple K (i K fuel) p n
    else if firstColContainsLits p then iLits K fuel (i K fuel) p n
    else if firstColContainsCons p then iCons K (i K fuel) p n
    else iVars K (i K fuel) p n

def inexhaustive (K : Context) (n : Nat) (p : PatMat) : Except Failure (Option (List Pat)) := i K n p (dim p).1

end Manticore.Match.MatchCheck
