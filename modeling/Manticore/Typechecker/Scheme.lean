/-
  Manticore.Typechecker.Scheme — type schemes (`applySubst`, `instantiate`, `apply` and
  `closeTy`, type-util.sml).

  Meta variables and type variables take their stamps from one counter, which never wraps
  around here. A bound variable carries its class; its name ('M0, 'M1, ...) plays no part.
  A map keyed by type variables is a function, one keyed by meta variables the list of its
  entries in the order of the stamps, since `listItems` and `appi` follow that order.
-/

import Manticore.Typechecker.Types

namespace Manticore.Typechecker

open Fuel

/-- `tyvar`: the variable and its class. -/
structure TVar where
  var : TyVar
  class_ : Option TyClass
  deriving DecidableEq, Repr

structure TyScheme where
  tvs : List TVar
  ty : Ty

/-- The cells of the meta variables and the next stamp. -/
structure Cells where
  store : Store
  stamp : Nat

/-- `MV.new` and `TypeClass.new`: a fresh meta variable. -/
def Cells.newMeta (c : Cells) (i : MetaInfo) : Cells × Meta :=
  (⟨c.store.assign ⟨c.stamp⟩ i, c.stamp + 1⟩, ⟨c.stamp⟩)

/-! ## Substitution and instantiation -/

abbrev TVMap := TyVar → Option Ty

def TVMap.empty : TVMap := fun _ => none

def TVMap.insert (subst : TVMap) (tv : TyVar) (ty : Ty) : TVMap := Function.update subst tv (some ty)

/-- Apply a type variable to type substitution to a type. -/
def applySubst (subst : TVMap) : Nat → Store → Ty → Except Failure (Store × Ty)
  | 0, _, _ => .error .fuel
  | n + 1, s, ty => do
    let (s, ty') ← prune n s ty
    match ty' with
    | .errorTy => .ok (s, ty)
    | .metaTy mv => .ok (s, .metaTy mv)
    | .varTy tv =>
      match subst tv with
      | none => .ok (s, .varTy tv)
      | some ty => .ok (s, ty)
    | .conTy args tyc => do
      let (s, args) ← mapM (applySubst subst n) s args
      .ok (s, .conTy args tyc)
    | .funTy ty1 ty2 => do
      let (s, ty1) ← applySubst subst n s ty1
      let (s, ty2) ← applySubst subst n s ty2
      .ok (s, .funTy ty1 ty2)
    | .tupleTy tys => do
      let (s, tys) ← mapM (applySubst subst n) s tys
      .ok (s, .tupleTy tys)

/-- What a fresh meta variable for the bound variable holds. -/
def TVar.info (depth : Int) (tv : TVar) : MetaInfo :=
  match tv.class_ with
  | none => .univ depth
  | some cls => .cls cls

/-- A fresh meta variable for each bound variable, from the last to the first. -/
def newMetas (depth : Int) (c : Cells) (tvs : List TVar) : Cells × TVMap × List Ty :=
  tvs.foldr (fun tv (c, s, mvs) =>
    let (c, mv) := c.newMeta (tv.info depth)
    (c, s.insert tv.var (.metaTy mv), .metaTy mv :: mvs)) (c, .empty, [])

/-- Instantiate a type scheme at the given depth. -/
def instantiate (depth : Int) (n : Nat) (c : Cells) : TyScheme → Except Failure (Cells × List Ty × Ty)
  | ⟨[], ty⟩ => .ok (c, [], ty)
  | ⟨tvs, ty⟩ => do
    let (c, subst, mvs) := newMetas depth c tvs
    let (s, ty) ← applySubst subst n c.store ty
    .ok ({ c with store := s }, mvs, ty)

/-- `ListPair.foldlEq ins`. -/
def insertAll : TVMap → List TVar → List Ty → Except Failure TVMap
  | subst, [], [] => .ok subst
  | subst, tv :: tvs, ty :: tys => insertAll (subst.insert tv.var ty) tvs tys
  | _, _, _ => .error (.fail "UnequalLengths")

/-- Instantiate a type scheme to a list of types. -/
def apply (n : Nat) (s : Store) : TyScheme → List Ty → Except Failure (Store × Ty)
  | ⟨[], ty⟩, [] => .ok (s, ty)
  | ⟨tvs, ty⟩, tys => do
    let subst ← insertAll .empty tvs tys
    applySubst subst n s ty

/-! ## Generalisation -/

abbrev MVMap := List (Meta × TVar)

def MVMap.find (env : MVMap) (mv : Meta) : Option TVar := (List.find? (fun p => p.1 = mv) env).map (·.2)

def MVMap.insert : MVMap → Meta → TVar → MVMap
  | [], mv, tv => [(mv, tv)]
  | p :: env, mv, tv =>
    if mv.stamp < p.1.stamp then (mv, tv) :: p :: env
    else if p.1 = mv then (mv, tv) :: env
    else p :: MVMap.insert env mv tv

structure GenState extends Cells where
  env : MVMap

/-- `TyVar.new`. -/
def GenState.newVar (g : GenState) : GenState × TVar := ({ g with stamp := g.stamp + 1 }, ⟨⟨g.stamp⟩, none⟩)

/-- Replace the variables deeper than `depth` by type variables. -/
def genVars (depth : Int) : Nat → GenState → Ty → Except Failure (GenState × Ty)
  | 0, _, _ => .error .fuel
  | n + 1, g, ty => do
    let (s, ty') ← prune n g.store ty
    let g : GenState := { g with store := s }
    match ty' with
    | .errorTy => .ok (g, .errorTy)
    | .metaTy mv =>
      match g.store.info mv with
      | .univ d =>
        if depth < d then
          match g.env.find mv with
          | some tv => .ok (g, .varTy tv.var)
          | none =>
            let (g, tv) := g.newVar
            .ok ({ g with env := g.env.insert mv tv }, .varTy tv.var)
        else .ok (g, .metaTy mv)
      | .cls _ => .ok (g, .metaTy mv)
      | .inst _ => .error (.fail "impossible")
    | .varTy _ => .ok (g, ty)
    | .conTy args tyc => do
      let (g, tys) ← mapRightM (genVars depth n) g args
      .ok (g, .conTy tys tyc)
    | .funTy ty1 ty2 => do
      let (g, ty1) ← genVars depth n g ty1
      let (g, ty2) ← genVars depth n g ty2
      .ok (g, .funTy ty1 ty2)
    | .tupleTy tys => do
      let (g, tys) ← mapRightM (genVars depth n) g tys
      .ok (g, .tupleTy tys)

/-- `MVMap.appi`: each generalised variable becomes an instance of its type variable. -/
def bindAll (env : MVMap) (s : Store) : Store := env.foldl (fun s p => s.assign p.1 (.inst (.varTy p.2.var))) s

/-- Close a type over the variables deeper than `depth`. -/
def closeTy (depth : Int) (n : Nat) (c : Cells) (ty : Ty) : Except Failure (Cells × TyScheme) := do
  let (g, ty) ← genVars depth n { c with env := [] } ty
  .ok ({ g.toCells with store := bindAll g.env g.store }, ⟨g.env.map (·.2), ty⟩)

end Manticore.Typechecker
