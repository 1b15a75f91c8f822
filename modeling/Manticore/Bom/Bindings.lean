/-
  Manticore.Bom.Bindings — typed variables, and lists of bindings that take tuples apart and build them.

  - `run_steps`: what a list of bindings computes is what the code in front of which it stands starts from.
  - `Same`: an environment that differs from another only in the variables drawn between two stamps.
-/

import Manticore.Fresh
import Manticore.Bom.Steps

namespace Manticore.Bom

open Transition

/-- `BOM.var`, with its type (`Var.typeOf`). -/
structure TVar where
  var : Var
  ty : Ty

def newTVar (ty : Ty) : Gen TVar := do return ⟨← newVar, ty⟩

def newTVars : List Ty → Gen (List TVar)
  | [] => return []
  | ty :: tys => do
    let x ← newTVar ty
    let xs ← newTVars tys
    return x :: xs

abbrev Binding := List Var × Rhs Var

/-- `BOM.mkStmts`. -/
def mkStmts : List Binding → Exp → Exp
  | [], e => e
  | (lhs, rhs) :: binds, e => .stmt lhs rhs (mkStmts binds e)

/-- Selections from and allocations of immutable tuples. -/
def evalTuple : Rhs Val → Option (List Val)
  | .select i (.tuple vs) => (vs[i]?).map fun v => [v]
  | .alloc (.tuple false _) vs => some [.tuple vs]
  | _ => none

def Env.run (ρ : Env) : List Binding → Option Env
  | [] => some ρ
  | (lhs, rhs) :: binds => do
    let r ← rhs.mapM ρ
    let vs ← evalTuple r
    let ρ' ← ρ.bind lhs vs
    ρ'.run binds

/-! ## Runs of bindings -/

variable {M : Machine} {ρ ρ' ρ'' : Env} {c c' c'' : Nat}

theorem run_append (ρ : Env) (bs bs' : List Binding) : ρ.run (bs ++ bs') = (ρ.run bs).bind fun ρ' => ρ'.run bs' := by
  induction bs generalizing ρ with
  | nil => rfl
  | cons b bs ih =>
    obtain ⟨lhs, rhs⟩ := b
    show (rhs.mapM ρ).bind _ = ((rhs.mapM ρ).bind _).bind _
    rw [Option.bind_assoc]
    refine congrArg _ (funext fun r => ?_)
    show (evalTuple r).bind _ = ((evalTuple r).bind _).bind _
    rw [Option.bind_assoc]
    refine congrArg _ (funext fun vs => ?_)
    show (ρ.bind lhs vs).bind _ = ((ρ.bind lhs vs).bind _).bind _
    rw [Option.bind_assoc]
    exact congrArg _ (funext fun ρ' => ih ρ')

theorem evalRhs_of_evalTuple {r : Rhs Val} {vs : List Val} (h : evalTuple r = some vs) (w : M.W) :
    evalRhs M r w = some (vs, w, none) := by
  unfold evalTuple at h
  grind [evalRhs]

/-- On every machine, the code in front of which the bindings stand starts from `ρ'`. -/
def Computes (bs : List Binding) (ρ ρ' : Env) : Prop :=
  ∀ (M : Machine) (e : Exp) (stk : List Frame) (code : Handle → Option Clo) (made : Var → Nat) (w : M.W),
    Silent (step M) ⟨.eval (mkStmts bs e) ρ, stk, code, made, w⟩ ⟨.eval e ρ', stk, code, made, w⟩

theorem run_steps {bs : List Binding} (h : ρ.run bs = some ρ') : Computes bs ρ ρ' := by
  intro M e stk code made w
  induction bs generalizing ρ with
  | nil =>
    cases h
    exact .refl _ _
  | cons b bs ih =>
    obtain ⟨lhs, rhs⟩ := b
    obtain ⟨r, hr, h⟩ := Option.bind_eq_some_iff.mp h
    obtain ⟨vs, hvs, h⟩ := Option.bind_eq_some_iff.mp h
    obtain ⟨ρ₁, hbind, h⟩ := Option.bind_eq_some_iff.mp h
    exact .step (step_stmt (mkStmts bs e) hr (evalRhs_of_evalTuple hvs w) hbind) (ih h)

/-! ## Values of variables -/

def Env.Has (ρ : Env) (xs : List Var) (vs : List Val) : Prop := List.Forall₂ (fun x v => ρ x = some v) xs vs

theorem Env.Has.get {xs : List Var} {vs : List Val} (h : ρ.Has xs vs) : ρ.get xs = some vs := by
  induction h with
  | nil => rfl
  | cons hx _ ih =>
    rw [Env.get] at ih
    rw [Env.get, List.mapM_cons, hx, ih]
    rfl

theorem Env.Has.congr {xs : List Var} {vs : List Val} (h : ρ.Has xs vs) (hsame : ∀ x ∈ xs, ρ' x = ρ x) : ρ'.Has xs vs := by
  induction h with
  | nil => exact .nil
  | cons hx _ ih =>
    refine .cons ?_ (ih fun y hy => hsame y (List.mem_cons_of_mem _ hy))
    rw [hsame _ List.mem_cons_self, hx]

theorem Env.has_append {xs ys : List Var} {vs ws : List Val} (hlen : xs.length = vs.length) :
    ρ.Has (xs ++ ys) (vs ++ ws) ↔ ρ.Has xs vs ∧ ρ.Has ys ws := by
  induction xs generalizing vs with
  | nil =>
    obtain rfl := List.length_eq_zero_iff.mp hlen.symm
    exact ⟨fun h => ⟨.nil, h⟩, fun h => h.2⟩
  | cons x xs ih =>
    cases vs with
    | nil => cases hlen
    | cons v vs =>
      have ih := @ih vs (Nat.succ.inj hlen)
      refine ⟨fun h => ?_, fun h => ?_⟩
      · obtain ⟨hx, h⟩ := List.forall₂_cons.mp h
        exact ⟨.cons hx (ih.mp h).1, (ih.mp h).2⟩
      · obtain ⟨h, hys⟩ := h
        obtain ⟨hx, h⟩ := List.forall₂_cons.mp h
        exact .cons hx (ih.mpr ⟨h, hys⟩)

/-- The same but for the variables with stamps from `c` on and below `c'`. -/
def Env.Same (c c' : Nat) (ρ ρ' : Env) : Prop := ∀ x : Var, x.stamp < c ∨ c' ≤ x.stamp → ρ' x = ρ x

theorem Env.Same.refl (c c' : Nat) (ρ : Env) : ρ.Same c c' ρ := fun _ _ => rfl

theorem Env.Same.trans (h : ρ.Same c c' ρ') (h' : ρ'.Same c c' ρ'') : ρ.Same c c' ρ'' :=
  fun x hx => (h' x hx).trans (h x hx)

theorem Env.Same.mono (h : ρ.Same c c' ρ') {d d' : Nat} (hd : d ≤ c) (hd' : c' ≤ d') : ρ.Same d d' ρ' :=
  fun x hx => h x (by omega)

theorem Env.Same.set (ρ : Env) (v : Val) : ρ.Same c (c + 1) (ρ.set ⟨c⟩ v) := fun x hx => by
  refine Env.set_of_ne ρ v fun he => ?_
  have hstamp : x.stamp = c := congrArg Var.stamp he
  omega

/-! ## Fresh variables -/

def freshVars : List Ty → Nat → List TVar
  | [], _ => []
  | ty :: tys, c => ⟨⟨c⟩, ty⟩ :: freshVars tys (c + 1)

theorem newTVars_eq (tys : List Ty) (c : Nat) : newTVars tys c = some (freshVars tys c, c + tys.length) := by
  induction tys generalizing c with
  | nil => rfl
  | cons ty tys ih =>
    have hstep : newTVars (ty :: tys) c = (newTVars tys (c + 1)).bind fun r => some (⟨⟨c⟩, ty⟩ :: r.1, r.2) := rfl
    have hlen : c + (ty :: tys).length = c + 1 + tys.length := by
      rw [List.length_cons]
      omega
    rw [hstep, ih, hlen]
    rfl

theorem freshVars_ty (tys : List Ty) (c : Nat) : (freshVars tys c).map TVar.ty = tys := by
  induction tys generalizing c with
  | nil => rfl
  | cons ty tys ih => rw [freshVars, List.map_cons, ih]

theorem freshVars_stamp {tys : List Ty} {c : Nat} {x : TVar} (h : x ∈ freshVars tys c) :
    c ≤ x.var.stamp ∧ x.var.stamp < c + tys.length := by
  induction tys generalizing c with
  | nil => cases h
  | cons ty tys ih =>
    rw [List.length_cons]
    rcases List.mem_cons.mp h with rfl | h
    · exact ⟨Nat.le_refl c, show c < _ by omega⟩
    · have hbound := ih h
      omega

end Manticore.Bom
