/-
  Manticore.Typechecker.Unify — destructive unification (unify.sml).

  `unifyRC` runs `uni` on the two types; with `reconstruct` it logs every assignment made
  by `assignMV` and undoes the log, newest entry first. `unify` keeps the assignments,
  `unifiable` does not. Printing the two types when they clash leaves the store alone and
  is left out.
-/

import Manticore.Typechecker.Types

namespace Manticore.Typechecker

open Fuel

/-- Does a meta variable occur in a type? -/
def occursIn (mv : Meta) : Nat → Store → Ty → Except Failure (Store × Bool)
  | 0, _, _ => .error .fuel
  | n + 1, s, ty => do
    let (s, ty) ← prune n s ty
    match ty with
    | .errorTy => .ok (s, false)
    | .metaTy mv' => .ok (s, decide (mv = mv'))
    | .varTy _ => .ok (s, false)
    | .conTy args _ => anyM (occursIn mv n) s args
    | .funTy ty1 ty2 => do
      let (s, b) ← occursIn mv n s ty1
      if b then .ok (s, true) else occursIn mv n s ty2
    | .tupleTy tys => anyM (occursIn mv n) s tys

/-- The store and the log of assignments, `mv_changes`. -/
structure St where
  store : Store
  changes : List (Meta × MetaInfo)

def assignMV (reconstruct : Bool) (s : St) (mv : Meta) (newInfo : MetaInfo) : St :=
  { store := s.store.assign mv newInfo
    changes := if reconstruct then (mv, s.store.info mv) :: s.changes else s.changes }

/-- Adjust the depth of the uninstantiated variables bound deeper than `depth`. -/
def adjustDepth (reconstruct : Bool) (depth : Int) : Nat → St → Ty → Except Failure St
  | 0, _, _ => .error .fuel
  | n + 1, s, ty =>
    match ty with
    | .errorTy => .ok s
    | .metaTy mv =>
      match s.store.info mv with
      | .univ d => .ok (if depth < d then assignMV reconstruct s mv (.univ depth) else s)
      | .inst ty => adjustDepth reconstruct depth n s ty
      | .cls _ => .ok s
    | .varTy _ => .ok s
    | .conTy args _ => appM (adjustDepth reconstruct depth n) s args
    | .funTy ty1 ty2 => do
      let s ← adjustDepth reconstruct depth n s ty1
      adjustDepth reconstruct depth n s ty2
    | .tupleTy tys => appM (adjustDepth reconstruct depth n) s tys

/-- Unify a type with an uninstantiated meta variable. -/
def unifyWithMV (reconstruct : Bool) (n : Nat) (s : St) (ty : Ty) (mv : Meta) : Except Failure (St × Bool) :=
  let isClass' (s : St) (c : List TyCon) : Except Failure (St × Bool) :=
    if isClass ty c then .ok (assignMV reconstruct s mv (.inst ty), true) else .ok (s, false)
  match s.store.info mv with
  | .univ d => do
    let (st, b) ← occursIn mv n s.store ty
    let s := { s with store := st }
    if b then .ok (s, false)
    else do
      let s ← adjustDepth reconstruct d n s ty
      .ok (assignMV reconstruct s mv (.inst ty), true)
  | .cls c => do
    let (st, b) ← occursIn mv n s.store ty
    let s := { s with store := st }
    if b then .ok (s, false)
    else
      match c with
      | .int => isClass' s intClass
      | .float => isClass' s floatClass
      | .num => isClass' s numClass
      | .order => isClass' s orderClass
      | .eq => do
        let (st, b) ← isEqualityType n s.store ty
        let s := { s with store := st }
        if b then .ok (assignMV reconstruct s mv (.inst ty), true) else .ok (s, false)
  | .inst _ => .error (.fail "impossible")

/-- Unify two distinct uninstantiated meta variables. -/
def unifyMV (reconstruct : Bool) (s : St) (mv1 mv2 : Meta) : Except Failure (St × Bool) :=
  let assign (mv mv' : Meta) : Except Failure (St × Bool) :=
    .ok (assignMV reconstruct s mv (.inst (.metaTy mv')), true)
  match s.store.info mv1, s.store.info mv2 with
  | .univ d1, .univ d2 => if d1 < d2 then assign mv2 mv1 else assign mv1 mv2
  | .univ _, _ => assign mv1 mv2
  | _, .univ _ => assign mv2 mv1
  | .cls cl1, .cls cl2 =>
    match cl1, cl2 with
    | .int, .float => .ok (s, false)
    | .float, .int => .ok (s, false)
    | .int, _ => assign mv2 mv1
    | _, .int => assign mv1 mv2
    | .float, _ => assign mv2 mv1
    | _, .float => assign mv1 mv2
    | .num, _ => assign mv2 mv1
    | _, .num => assign mv1 mv2
    | .order, _ => assign mv2 mv1
    | _, .order => assign mv1 mv2
    | _, _ => .ok (s, true)
  | _, _ => .error (.fail "meta variables")

def uni (reconstruct : Bool) : Nat → St → Ty → Ty → Except Failure (St × Bool)
  | 0, _, _, _ => .error .fuel
  | n + 1, s, ty1, ty2 => do
    let (st, ty1) ← prune n s.store ty1
    let (st, ty2) ← prune n st ty2
    let s := { s with store := st }
    match ty1, ty2 with
    | .errorTy, _ => .ok (s, true)
    | _, .errorTy => .ok (s, true)
    | .metaTy mv1, .metaTy mv2 => if mv1 = mv2 then .ok (s, true) else unifyMV reconstruct s mv1 mv2
    | .metaTy mv1, ty2 => unifyWithMV reconstruct n s ty2 mv1
    | ty1, .metaTy mv2 => unifyWithMV reconstruct n s ty1 mv2
    | .conTy tys1 tyc1, .conTy tys2 tyc2 =>
      if tyc1 = tyc2 then allEq (uni reconstruct n) s tys1 tys2 else .ok (s, false)
    | .funTy ty11 ty12, .funTy ty21 ty22 => do
      let (s, b) ← uni reconstruct n s ty11 ty21
      if b then uni reconstruct n s ty12 ty22 else .ok (s, false)
    | .tupleTy tys1, .tupleTy tys2 => allEq (uni reconstruct n) s tys1 tys2
    | .varTy tv1, .varTy tv2 => .ok (s, decide (tv1 = tv2))
    | _, _ => .ok (s, false)

/-- `List.app (op :=) changes`. -/
def restore : List (Meta × MetaInfo) → Store → Store
  | [], s => s
  | (mv, i) :: changes, s => restore changes (s.assign mv i)

def unifyRC (n : Nat) (s : Store) (ty1 ty2 : Ty) (reconstruct : Bool) : Except Failure (Store × Bool) := do
  let (s, ty) ← uni reconstruct n ⟨s, []⟩ ty1 ty2
  .ok (if reconstruct then restore s.changes s.store else s.store, ty)

def unify (n : Nat) (s : Store) (ty1 ty2 : Ty) : Except Failure (Store × Bool) := unifyRC n s ty1 ty2 false

def unifiable (n : Nat) (s : Store) (ty1 ty2 : Ty) : Except Failure (Store × Bool) := unifyRC n s ty1 ty2 true

end Manticore.Typechecker
