/-
  Manticore.Typechecker.Types — the types of the typechecker (types.sml), the state of
  their meta variables, `prune` (type-util.sml), type classes (type-class.sml) and the
  class members of the basis (basis.sml).

  A meta variable is a reference cell named by its stamp; `Store.info` is the contents of
  the cells. The functions chase cells, so they recurse on fuel; `Fuel.Returns` says what
  they settle on. Depths are integers; a type variable's name and class and a type
  constructor's name, arity, parameters and definition play no part here.
-/

import Manticore.Library.Fuel

namespace Manticore.Typechecker

open Fuel

structure Meta where
  stamp : Nat
  deriving DecidableEq, Repr

structure TyVar where
  stamp : Nat
  deriving DecidableEq, Repr

structure TyCon where
  stamp : Nat
  deriving DecidableEq, Repr

inductive Ty where
  | errorTy
  | metaTy (mv : Meta)
  | varTy (tv : TyVar)
  | conTy (args : List Ty) (tyc : TyCon)
  | funTy (ty1 ty2 : Ty)
  | tupleTy (tys : List Ty)

inductive TyClass where
  | int | float | num | order | eq
  deriving DecidableEq, Repr

inductive MetaInfo where
  | univ (d : Int)
  | cls (c : TyClass)
  | inst (ty : Ty)

/-! ## The basis -/

def intTyc : TyCon := ⟨0⟩
def longTyc : TyCon := ⟨1⟩
def integerTyc : TyCon := ⟨2⟩
def floatTyc : TyCon := ⟨3⟩
def doubleTyc : TyCon := ⟨4⟩
def charTyc : TyCon := ⟨5⟩
def runeTyc : TyCon := ⟨6⟩
def stringTyc : TyCon := ⟨7⟩

def unitTy : Ty := .tupleTy []

def intClass : List TyCon := [intTyc, longTyc, integerTyc]
def floatClass : List TyCon := [floatTyc, doubleTyc]
def numClass : List TyCon := intClass ++ floatClass
def orderClass : List TyCon := numClass ++ [charTyc, runeTyc, stringTyc]

/-! ## The store -/

/-- The contents of the meta variables and the equality flag of the type constructors.
    The basis marks every member of a type class as an equality type. -/
structure Store where
  info : Meta → MetaInfo
  isEqTyc : TyCon → Bool
  basis_eq : ∀ tyc ∈ orderClass, isEqTyc tyc = true

/-- `info := i`. -/
def Store.assign (s : Store) (mv : Meta) (i : MetaInfo) : Store := { s with info := Function.update s.info mv i }

@[simp] theorem Store.assign_self (s : Store) (mv : Meta) (i : MetaInfo) : (s.assign mv i).info mv = i := by
  simp [Store.assign]

@[simp] theorem Store.assign_of_ne (s : Store) {mv m : Meta} (h : m ≠ mv) (i : MetaInfo) :
    (s.assign mv i).info m = s.info m := by
  simp [Store.assign, h]

theorem Store.ext {s t : Store} (h : ∀ m, s.info m = t.info m) (he : s.isEqTyc = t.isEqTyc) : s = t := by
  obtain ⟨f, q, hq⟩ := s
  obtain ⟨f', q', hq'⟩ := t
  have hf : f = f' := funext h
  subst hf
  cases he
  rfl

/-! ## type-util.sml -/

inductive Failure where
  | fuel
  | fail (msg : String)
  deriving DecidableEq, Repr

/-- Head-normal form, with path compression. -/
def prune : Nat → Store → Ty → Except Failure (Store × Ty)
  | 0, _, _ => .error .fuel
  | n + 1, s, ty =>
    match ty with
    | .metaTy mv =>
      match s.info mv with
      | .inst ty => do
        let (s, ty) ← prune n s ty
        .ok (s.assign mv (.inst ty), ty)
      | _ => .ok (s, .metaTy mv)
    | ty => .ok (s, ty)

/-! ## type-class.sml -/

/-- A class of the basis is given by the constructors of its members. -/
def isClass (ty : Ty) (c : List TyCon) : Bool :=
  match ty with
  | .conTy _ tyc => c.any (tyc = ·)
  | _ => false

/-- An instantiated variable is blackholed while its type is examined. -/
def isEqualityType : Nat → Store → Ty → Except Failure (Store × Bool)
  | 0, _, _ => .error .fuel
  | n + 1, s, ty =>
    match ty with
    | .errorTy => .ok (s, true)
    | .metaTy mv =>
      match s.info mv with
      | .inst ty => do
        let (s, b) ← isEqualityType n (s.assign mv (.univ 0)) ty
        .ok (s.assign mv (.inst ty), b)
      | .cls _ => .ok (s, true)
      | .univ _ => .ok (s, false)
    | .conTy _ tyc => .ok (s, s.isEqTyc tyc)
    | .tupleTy tys => allM (isEqualityType n) s tys
    | _ => .ok (s, false)

end Manticore.Typechecker
