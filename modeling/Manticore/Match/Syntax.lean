/-
  Manticore.Match.Syntax — patterns, match rules and the values they select (ast.sml,
  data-con.sml, literal.sml), with first-match semantics.

  `Data` is the contents of the type constructors' definitions: a datatype's constructors
  in the order of their ids, nothing for an abstract type. `HasTy` types values, `PatTy`
  patterns; the annotations inside a pattern are data of the code and carry no weight in
  the typing. `patMatch` is the environment a pattern binds, `select` the first rule whose
  pattern matches and whose condition holds.
-/

import Manticore.Typechecker.Types

namespace Manticore.Match

open Typechecker (Ty TyVar TyCon)

structure Var where
  stamp : Nat
  deriving DecidableEq, Repr

/-- A floating-point literal's sign, digits and exponent. -/
structure FloatLit where
  isNeg : Bool
  digits : List Nat
  exp : Int
  deriving DecidableEq, Repr

inductive Literal where
  | enum (w : Nat)
  | stateVal (n : Nat)
  | tag (s : String)
  | int (n : Int)
  | float (f : FloatLit)
  | char (c : Nat)
  | string (s : String)
  | bool (b : Bool)
  deriving DecidableEq, Repr

structure DCon where
  id : Nat
  owner : TyCon
  argTy : Option Ty

def DCon.same (c c' : DCon) : Bool := c.id == c'.id && c.owner == c'.owner

/-- The definitions of the type constructors. -/
structure Data where
  params : TyCon → List TyVar
  /-- The constructors of a datatype; `none` for an abstract type. -/
  cons : TyCon → Option (List DCon)
  ids : ∀ tyc l, cons tyc = some l → ∀ i (h : i < l.length), l[i].id = i ∧ l[i].owner = tyc

inductive Const where
  | dConst (c : DCon) (tys : List Ty)
  | lConst (l : Literal) (ty : Ty)

inductive Pat where
  | conPat (c : DCon) (tys : List Ty) (p : Pat)
  | tuplePat (ps : List Pat)
  | varPat (x : Var)
  | wildPat (ty : Ty)
  | constPat (k : Const)

/-- A rule; `E` is the expressions. -/
inductive Rule (E : Type) where
  | patMatch (p : Pat) (e : E)
  | condMatch (p : Pat) (cond e : E)

namespace Rule

variable {E : Type}

def pat : Rule E → Pat
  | .patMatch p _ => p
  | .condMatch p _ _ => p

def cond : Rule E → Option E
  | .patMatch _ _ => none
  | .condMatch _ c _ => some c

def act : Rule E → E
  | .patMatch _ e => e
  | .condMatch _ _ e => e

end Rule

inductive Value where
  | con (c : DCon)
  | conApp (c : DCon) (v : Value)
  | tuple (vs : List Value)
  | lit (l : Literal)
  /-- A value that no pattern inspects. -/
  | other (n : Nat)

abbrev Env := List (Var × Value)

/-! ## Typing -/

mutual

/-- Replace type variables. -/
def applySubst (f : TyVar → Ty) : Ty → Ty
  | .varTy v => f v
  | .conTy args tyc => .conTy (applySubsts f args) tyc
  | .funTy t1 t2 => .funTy (applySubst f t1) (applySubst f t2)
  | .tupleTy tys => .tupleTy (applySubsts f tys)
  | .metaTy m => .metaTy m
  | .errorTy => .errorTy

def applySubsts (f : TyVar → Ty) : List Ty → List Ty
  | [] => []
  | t :: ts => applySubst f t :: applySubsts f ts

end

/-- `argTypeOf'`: the argument type of a constructor of the datatype applied to `args`. -/
def Data.argTypeOf (D : Data) (c : DCon) (args : List Ty) : Option Ty :=
  c.argTy.map (applySubst fun v => (((D.params c.owner).zip args).lookup v).getD (.varTy v))

/-- Types whose values have no structure: those of abstract constructors, functions and
    type variables. -/
def Data.Flat (D : Data) : Ty → Prop
  | .tupleTy _ => False
  | .conTy _ tyc => D.cons tyc = none
  | _ => True

inductive HasTy (D : Data) : Value → Ty → Prop
  | con {c : DCon} {args : List Ty} {tyc : TyCon} {l : List DCon} : D.cons tyc = some l → c ∈ l →
      D.argTypeOf c args = none → HasTy D (.con c) (.conTy args tyc)
  | conApp {c : DCon} {v : Value} {args : List Ty} {tyc : TyCon} {l : List DCon} {t : Ty} : D.cons tyc = some l →
      c ∈ l → D.argTypeOf c args = some t → HasTy D v t → HasTy D (.conApp c v) (.conTy args tyc)
  | tuple {vs : List Value} {ts : List Ty} : vs.length = ts.length → (∀ p ∈ vs.zip ts, HasTy D p.1 p.2) →
      HasTy D (.tuple vs) (.tupleTy ts)
  /-- The values of a type variable are those of its instances. -/
  | flat {v : Value} {t : Ty} : D.Flat t → HasTy D v t

inductive PatTy (D : Data) : Pat → Ty → Prop
  | conPat {c : DCon} {tys : List Ty} {p : Pat} {tyc : TyCon} {l : List DCon} {t : Ty} : D.cons tyc = some l →
      c ∈ l → D.argTypeOf c tys = some t → PatTy D p t → PatTy D (.conPat c tys p) (.conTy tys tyc)
  | tuplePat {ps : List Pat} {ts : List Ty} : ps.length = ts.length → (∀ q ∈ ps.zip ts, PatTy D q.1 q.2) →
      PatTy D (.tuplePat ps) (.tupleTy ts)
  | varPat (x : Var) (t : Ty) : PatTy D (.varPat x) t
  | wildPat (ty t : Ty) : PatTy D (.wildPat ty) t
  | dConst {c : DCon} {tys : List Ty} {tyc : TyCon} {l : List DCon} : D.cons tyc = some l → c ∈ l →
      D.argTypeOf c tys = none → PatTy D (.constPat (.dConst c tys)) (.conTy tys tyc)
  | lConst {l : Literal} {ty t : Ty} : D.Flat t → PatTy D (.constPat (.lConst l ty)) t

/-! ## First-match semantics -/

mutual

/-- The variables that a pattern binds. -/
def Pat.vars : Pat → List Var
  | .conPat _ _ p => p.vars
  | .tuplePat ps => Pat.varsL ps
  | .varPat x => [x]
  | .wildPat _ => []
  | .constPat _ => []

def Pat.varsL : List Pat → List Var
  | [] => []
  | p :: ps => p.vars ++ Pat.varsL ps

end

mutual

/-- What a pattern binds when it matches a value. -/
def patMatch : Pat → Value → Option Env
  | .varPat x, v => some [(x, v)]
  | .wildPat _, _ => some []
  | .conPat c _ p, .conApp c' v => if c.same c' then patMatch p v else none
  | .tuplePat ps, .tuple vs => patMatches ps vs
  | .constPat (.dConst c _), .con c' => if c.same c' then some [] else none
  | .constPat (.lConst l _), .lit l' => if l = l' then some [] else none
  | _, _ => none

def patMatches : List Pat → List Value → Option Env
  | [], [] => some []
  | p :: ps, v :: vs => do
    let ρ ← patMatch p v
    let ρ' ← patMatches ps vs
    some (ρ ++ ρ')
  | _, _ => none

end

variable {E : Type}

/-- The rule that applies: its position, its action and its bindings. -/
def select (truth : E → Env → Bool) : Nat → List (Rule E) → Value → Option (Nat × E × Env)
  | _, [], _ => none
  | i, r :: rs, v =>
    match patMatch r.pat v with
    | some ρ => if r.cond.all (truth · ρ) then some (i, r.act, ρ) else select truth (i + 1) rs v
    | none => select truth (i + 1) rs v

end Manticore.Match
