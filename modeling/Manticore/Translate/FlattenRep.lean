/-
  Manticore.Translate.FlattenRep — the glue code between the arguments of a data constructor in the source and its
  flattened arguments (`flatten` and `unflatten` of `translate/flatten-rep.sml`).

  - `flat_takes`: `flatten` selects the components of the arguments, from left to right, of the types `dstTys`.
  - `unflat_builds`: `unflatten` allocates the arguments from such components.
  - `coercion_id`: one after the other, in either order, they give back what they started from.
-/

import Manticore.Bom.Bindings
import Manticore.Translate.Types

namespace Manticore.Translate

open Bom
open List (length_append length_cons append_nil forall₂_cons map_append mem_singleton mem_cons_self mem_cons_of_mem
  mem_map nodup_cons length_map)

/-- The types of the arguments in the source. -/
def srcTys : RepTree → List Ty
  | .atom ty => [ty]
  | .tuple tys _ => tys

/-! ## Flatten -/

def sel (arg : Var) : Nat → List TVar → List Binding
  | _, [] => []
  | i, x :: xs => ([x.var], .select i arg) :: sel arg (i + 1) xs

mutual

def flat : List TVar → List RepTree → Gen (List Binding × List TVar)
  | [], [] => return ([], [])
  | x :: xs, rep :: reps => do
    let (binds, ys) ← flat xs reps
    let (binds', zs) ← flatRep x rep
    return (binds' ++ binds, zs ++ ys)
  | _, _ => raise

/-- One argument of `flat`. -/
def flatRep (x : TVar) : RepTree → Gen (List Binding × List TVar)
  | .atom _ => return ([], [x])
  | .tuple tys reps => do
    let args ← newTVars tys
    let (binds, zs) ← flat args reps
    return (sel x.var 0 args ++ binds, zs)

end

def flatten : RepTree → List TVar → Gen (List Binding × List TVar)
  | .atom _, xs => return ([], xs)
  | .tuple _ reps, xs => flat xs reps

/-! ## Unflatten -/

mutual

def unflat : List TVar → List RepTree → Gen (List TVar × List Binding)
  | [], [] => return ([], [])
  | x :: xs, rep :: reps => do
    let (ys, binds) ← unflat xs reps
    let (zs, binds') ← unflatRep x rep
    return (zs ++ ys, binds' ++ binds)
  | _, _ => raise

/-- One argument of `unflat`. -/
def unflatRep (x : TVar) : RepTree → Gen (List TVar × List Binding)
  | .atom _ => return ([x], [])
  | .tuple tys reps => do
    let args ← newTVars tys
    let (zs, binds) ← unflat args reps
    return (zs, binds ++ [([x.var], .alloc (.tuple false tys) (args.map TVar.var))])

end

def unflatten : RepTree → List TVar → Gen (List TVar × List Binding)
  | .atom _, xs => return (xs, [])
  | .tuple _ reps, xs => unflat xs reps

/-! ## Values of a type -/

mutual

/-- The value has a component for each component of an immutable tuple type. -/
def Fits : Ty → Val → Prop
  | .tuple false tys, v => ∃ vs, v = .tuple vs ∧ FitsAll tys vs
  | _, _ => True

def FitsAll : List Ty → List Val → Prop
  | [], vs => vs = []
  | ty :: tys, vs => ∃ v vs', vs = v :: vs' ∧ Fits ty v ∧ FitsAll tys vs'

end

mutual

/-- The components of the value, from left to right. -/
def flatVal : Ty → Val → List Val
  | .tuple false tys, .tuple vs => flatVals tys vs
  | _, v => [v]

def flatVals : List Ty → List Val → List Val
  | ty :: tys, v :: vs => flatVal ty v ++ flatVals tys vs
  | _, _ => []

end

mutual

theorem flatVal_length (ty : Ty) {v : Val} (h : Fits ty v) : (flatVal ty v).length = (dstTys (repOf ty)).length := by
  unfold Fits at h
  split at h
  · obtain ⟨vs, rfl, h⟩ := h
    exact flatVals_length _ h
  · rename_i hne
    have hone : flatVal ty v = [v] := by
      unfold flatVal
      split
      · exact absurd rfl (hne _)
      · rfl
    rw [hone, repOf]
    · rfl
    · exact hne

theorem flatVals_length (tys : List Ty) {vs : List Val} (h : FitsAll tys vs) :
    (flatVals tys vs).length = (dstTysOf (repsOf tys)).length := by
  cases tys with
  | nil => cases h; rfl
  | cons ty tys =>
    obtain ⟨v, vs', rfl, hv, hvs⟩ := h
    rw [flatVals, repsOf, dstTysOf, length_append, length_append, flatVal_length ty hv, flatVals_length tys hvs]

end

/-! ## What is selected -/

variable {ty : Ty} {tys : List Ty} {c : Nat} {x : TVar}

theorem repOf_atom (h : ∀ tys, ty ≠ .tuple false tys) : repOf ty = .atom ty := by
  unfold repOf
  split
  · exact absurd rfl (h _)
  · rfl

theorem flatVal_atom (h : ∀ tys, ty ≠ .tuple false tys) (v : Val) : flatVal ty v = [v] := by
  unfold flatVal
  split
  · exact absurd rfl (h _)
  · rfl

theorem FitsAll.length {vs : List Val} (h : FitsAll tys vs) : vs.length = tys.length := by
  induction tys generalizing vs with
  | nil =>
    cases h
    rfl
  | cons ty tys ih =>
    obtain ⟨v, vs', rfl, -, hvs⟩ := h
    rw [length_cons, length_cons, ih hvs]

theorem sel_run {x : Var} {vs us : List Val} (tys : List Ty) {i : Nat} {ρ : Env} (hx : ρ x = some (.tuple vs))
    (hlt : x.stamp < c) (hus : vs.drop i = us) (hlen : us.length = tys.length) :
    ∃ ρ', ρ.run (sel x i (freshVars tys c)) = some ρ' ∧ ρ.Same c (c + tys.length) ρ' ∧ ρ'.Has
      ((freshVars tys c).map TVar.var) us := by
  induction tys generalizing i c ρ us with
  | nil =>
    obtain rfl := List.length_eq_zero_iff.mp hlen
    exact ⟨ρ, rfl, .refl _ _ _, .nil⟩
  | cons ty tys ih =>
    cases us with
    | nil => cases hlen
    | cons u us =>
      have hget : vs[i]? = some u := by
        rw [← List.head?_drop, hus]
        rfl
      have hdrop : vs.drop (i + 1) = us := by
        rw [← List.tail_drop, hus]
        rfl
      have hx' : ρ.set ⟨c⟩ u x = some (.tuple vs) := by
        rw [Env.set_of_ne, hx]
        intro he
        rw [he] at hlt
        exact Nat.lt_irrefl c hlt
      obtain ⟨ρ', hrun, hsame, hhas⟩ := ih hx' (Nat.lt_succ_of_lt hlt) hdrop (Nat.succ.inj hlen)
      have hc : ρ' ⟨c⟩ = some u := by
        rw [hsame ⟨c⟩ (.inl (Nat.lt_succ_self c)), Env.set_same]
      refine ⟨ρ', ?_, ?_, .cons hc hhas⟩
      · show (Rhs.mapM ρ (.select i x)).bind _ = some ρ'
        have hrhs : Rhs.mapM ρ (.select i x) = some (.select i (.tuple vs)) := by simp [Rhs.mapM, hx]
        have heval : evalTuple (.select i (.tuple vs)) = some [u] := by rw [evalTuple, hget]; rfl
        rw [hrhs]
        show (evalTuple (.select i (.tuple vs))).bind _ = some ρ'
        rw [heval]
        exact hrun
      · rw [length_cons]
        exact ((Env.Same.set ρ u).mono (Nat.le_refl c) (by omega)).trans (hsame.mono (Nat.le_succ c) (by omega))

/-- What `flat` makes of `xs` when the next stamp is `c`. -/
structure Takes (c : Nat) (xs : List TVar) (tys : List Ty) (r : (List Binding × List TVar) × Nat) : Prop where
  le : c ≤ r.2
  types : r.1.2.map TVar.ty = dstTysOf (repsOf tys)
  vars : ∀ y ∈ r.1.2, y ∈ xs ∨ c ≤ y.var.stamp ∧ y.var.stamp < r.2
  values : ∀ {ρ : Env} {vs : List Val}, ρ.Has (xs.map TVar.var) vs → FitsAll tys vs →
    ∃ ρ', ρ.run r.1.1 = some ρ' ∧ ρ.Same c r.2 ρ' ∧ ρ'.Has (r.1.2.map TVar.var) (flatVals tys vs)

theorem Takes.atom (h : ∀ tys, ty ≠ .tuple false tys) (hx : x.ty = ty) (c : Nat) :
    Takes c [x] [ty] (([], [x]), c) := by
  refine ⟨Nat.le_refl c, ?_, fun y hy => .inl hy, fun {ρ vs} hhas hfits => ⟨ρ, rfl, .refl _ _ _, ?_⟩⟩
  · simp [repsOf, repOf_atom h, dstTysOf, dstTys, hx]
  · obtain ⟨v, vs', rfl, -, hvs⟩ := hfits
    cases hvs
    rw [flatVals, flatVals, flatVal_atom h]
    · exact hhas
    · simp

/-- The components of a tuple are taken apart in turn. -/
theorem Takes.tuple (hlt : x.var.stamp < c) {binds : List Binding} {zs : List TVar} {c' : Nat}
    (h : Takes (c + tys.length) (freshVars tys c) tys ((binds, zs), c')) :
    Takes c [x] [.tuple false tys] ((sel x.var 0 (freshVars tys c) ++ binds, zs), c') := by
  have hle : c + tys.length ≤ c' := h.le
  refine ⟨by show c ≤ c'; omega, ?_, fun y hy => .inr ?_, fun {ρ vs} hhas hfits => ?_⟩
  · show zs.map TVar.ty = dstTys (.tuple tys (repsOf tys)) ++ []
    rw [append_nil]
    exact h.types
  · rcases h.vars y hy with hmem | hbound
    · have hbound := freshVars_stamp hmem
      exact ⟨hbound.1, show y.var.stamp < c' by omega⟩
    · exact ⟨by omega, hbound.2⟩
  · obtain ⟨v, vs', rfl, ⟨us, rfl, hus⟩, hvs⟩ := hfits
    cases hvs
    obtain ⟨hx, -⟩ := forall₂_cons.mp hhas
    obtain ⟨ρ₁, hrun₁, hsame₁, hhas₁⟩ := sel_run tys hx hlt List.drop_zero hus.length
    obtain ⟨ρ₂, hrun₂, hsame₂, hhas₂⟩ := h.values hhas₁ hus
    refine ⟨ρ₂, ?_, (hsame₁.mono (Nat.le_refl c) hle).trans (hsame₂.mono (Nat.le_add_right _ _) (Nat.le_refl c')), ?_⟩
    · simp [run_append, hrun₁, hrun₂]
    · rw [flatVals, flatVals, flatVal, append_nil]
      · exact hhas₂
      · simp

/-- The first argument is taken apart with variables drawn after those for the others. -/
theorem Takes.cons {xs : List TVar} {c₁ c₂ : Nat} {binds binds' : List Binding} {ys zs : List TVar}
    (hlt : ∀ y ∈ x :: xs, y.var.stamp < c) (h : Takes c xs tys ((binds, ys), c₁))
    (h' : Takes c₁ [x] [ty] ((binds', zs), c₂)) :
    Takes c (x :: xs) (ty :: tys) ((binds' ++ binds, zs ++ ys), c₂) := by
  have hle : c ≤ c₁ := h.le
  have hle' : c₁ ≤ c₂ := h'.le
  refine ⟨Nat.le_trans hle hle', ?_, fun y hy => ?_, fun {ρ vs} hhas hfits => ?_⟩
  · have htypes' : zs.map TVar.ty = dstTys (repOf ty) ++ [] := h'.types
    show (zs ++ ys).map TVar.ty = dstTys (repOf ty) ++ dstTysOf (repsOf tys)
    rw [map_append, htypes', append_nil]
    exact congrArg _ h.types
  · rcases List.mem_append.mp hy with hy | hy
    · rcases h'.vars y hy with hy | hy
      · exact .inl (mem_singleton.mp hy ▸ mem_cons_self)
      · exact .inr ⟨by omega, hy.2⟩
    · rcases h.vars y hy with hy | hy
      · exact .inl (mem_cons_of_mem _ hy)
      omega
  · obtain ⟨v, vs', rfl, hv, hvs⟩ := hfits
    obtain ⟨hx, hxs⟩ : ρ x.var = some v ∧ ρ.Has (xs.map TVar.var) vs' := forall₂_cons.mp hhas
    obtain ⟨ρ₁, hrun₁, hsame₁, hhas₁⟩ := h'.values (.cons hx .nil) ⟨v, [], rfl, hv, rfl⟩
    have hxs₁ : ρ₁.Has (xs.map TVar.var) vs' := hxs.congr fun y hy => by
      obtain ⟨z, hz, rfl⟩ := mem_map.mp hy
      have hz := hlt z (mem_cons_of_mem _ hz)
      exact hsame₁ _ (.inl (by omega))
    obtain ⟨ρ₂, hrun₂, hsame₂, hhas₂⟩ := h.values hxs₁ hvs
    refine ⟨ρ₂, ?_, (hsame₁.mono hle (Nat.le_refl c₂)).trans (hsame₂.mono (Nat.le_refl c) hle'), ?_⟩
    · simp [run_append, hrun₁, hrun₂]
    · show ρ₂.Has ((zs ++ ys).map TVar.var) (flatVal ty v ++ flatVals tys vs')
      have hlen : flatVals [ty] [v] = flatVal ty v := by simp [flatVals]
      rw [hlen] at hhas₁
      rw [map_append, Env.has_append hhas₁.length_eq]
      refine ⟨hhas₁.congr fun y hy => ?_, hhas₂⟩
      -- the components of the first argument are its own or drawn after those of the others
      obtain ⟨z, hz, rfl⟩ := mem_map.mp hy
      rcases h'.vars z hz with hz | hz
      · rw [mem_singleton.mp hz]
        exact hsame₂ _ (.inl (hlt x mem_cons_self))
      · exact hsame₂ _ (.inr hz.1)

theorem flatRep_atom (h : ∀ tys, ty ≠ .tuple false tys) (hx : x.ty = ty) (c : Nat) :
    ∃ r, flatRep x (repOf ty) c = some r ∧ Takes c [x] [ty] r := by
  rw [repOf_atom h]
  exact ⟨_, rfl, .atom h hx c⟩

mutual

theorem flatRep_takes (ty : Ty) {x : TVar} (hx : x.ty = ty) {c : Nat} (hlt : x.var.stamp < c) :
    ∃ r, flatRep x (repOf ty) c = some r ∧ Takes c [x] [ty] r := by
  cases ty with
  | tuple m tys =>
    cases m with
    | false =>
      obtain ⟨⟨⟨binds, zs⟩, c'⟩, hr, htakes⟩ := flat_takes tys (freshVars_ty tys c)
        fun y hy => (freshVars_stamp hy).2
      refine ⟨((sel x.var 0 (freshVars tys c) ++ binds, zs), c'), ?_, htakes.tuple hlt⟩
      show (newTVars tys c).bind _ = _
      rw [newTVars_eq]
      simp_all
    | true => exact flatRep_atom (by intro _ he; cases he) hx c
  | _ => exact flatRep_atom (by intro _ he; cases he) hx c

theorem flat_takes (tys : List Ty) {xs : List TVar} (hxs : xs.map TVar.ty = tys) {c : Nat}
    (hlt : ∀ x ∈ xs, x.var.stamp < c) : ∃ r, flat xs (repsOf tys) c = some r ∧ Takes c xs tys r := by
  cases tys with
  | nil =>
    obtain rfl := List.map_eq_nil_iff.mp hxs
    refine ⟨_, rfl, Nat.le_refl c, rfl, List.forall_mem_nil _, fun {ρ vs} hhas hfits => ⟨ρ, rfl, .refl _ _ _, ?_⟩⟩
    cases hfits
    exact hhas
  | cons ty tys =>
    cases xs with
    | nil => cases hxs
    | cons x xs =>
      obtain ⟨hx, hxs⟩ := List.cons.inj hxs
      obtain ⟨⟨⟨binds, ys⟩, c₁⟩, hr, htakes⟩ := flat_takes tys hxs fun y hy => hlt y (mem_cons_of_mem _ hy)
      have hle : c ≤ c₁ := htakes.le
      obtain ⟨⟨⟨binds', zs⟩, c₂⟩, hr', htakes'⟩ := flatRep_takes ty hx (Nat.lt_of_lt_of_le (hlt x mem_cons_self) hle)
      refine ⟨((binds' ++ binds, zs ++ ys), c₂), ?_, htakes.cons hlt htakes'⟩
      show (flat xs (repsOf tys) c).bind _ = _
      rw [hr]
      show (flatRep x (repOf ty) c₁).bind _ = _
      rw [hr']
      rfl

end

/-! ## What is built -/

theorem freshVars_nodup (tys : List Ty) (c : Nat) : ((freshVars tys c).map TVar.var).Nodup := by
  induction tys generalizing c with
  | nil => exact List.nodup_nil
  | cons ty tys ih =>
    refine nodup_cons.mpr ⟨fun hmem => ?_, ih (c + 1)⟩
    obtain ⟨y, hy, he⟩ := mem_map.mp hmem
    have hbound := freshVars_stamp hy
    rw [he] at hbound
    exact Nat.lt_irrefl c hbound.1

/-- The same but for `xs` and the variables with stamps from `c` on and below `c'`. -/
def SameBut (xs : List TVar) (c c' : Nat) (σ σ' : Env) : Prop :=
  ∀ y : Var, y ∉ xs.map TVar.var → y.stamp < c ∨ c' ≤ y.stamp → σ' y = σ y

/-- What `unflat` makes of `xs` when the next stamp is `c`. -/
structure Builds (c : Nat) (xs : List TVar) (tys : List Ty) (r : (List TVar × List Binding) × Nat) : Prop where
  le : c ≤ r.2
  types : r.1.1.map TVar.ty = dstTysOf (repsOf tys)
  vars : ∀ y ∈ r.1.1, y ∈ xs ∨ c ≤ y.var.stamp ∧ y.var.stamp < r.2
  nodup : (r.1.1.map TVar.var).Nodup
  values : ∀ {σ : Env} {vs : List Val}, FitsAll tys vs → σ.Has (r.1.1.map TVar.var) (flatVals tys vs) →
    ∃ σ', σ.run r.1.2 = some σ' ∧ SameBut xs c r.2 σ σ' ∧ σ'.Has (xs.map TVar.var) vs

theorem Builds.atom {ty : Ty} (h : ∀ tys, ty ≠ .tuple false tys) {x : TVar} (hx : x.ty = ty) (c : Nat) :
    Builds c [x] [ty] (([x], []), c) := by
  refine ⟨Nat.le_refl c, ?_, fun y hy => .inl hy, by simp, fun {σ vs} hfits hhas =>
    ⟨σ, rfl, fun _ _ _ => rfl, ?_⟩⟩
  · simp [repsOf, repOf_atom h, dstTysOf, dstTys, hx]
  · obtain ⟨v, vs', rfl, -, hvs⟩ := hfits
    cases hvs
    rw [flatVals, flatVals, flatVal_atom h] at hhas
    · exact hhas
    · simp

/-- A tuple is allocated when its components have been built. -/
theorem Builds.tuple {tys : List Ty} {x : TVar} {c : Nat} {binds : List Binding} {zs : List TVar}
    {c' : Nat} (h : Builds (c + tys.length) (freshVars tys c) tys ((zs, binds), c')) :
    Builds c [x] [.tuple false tys]
      ((zs, binds ++ [([x.var], .alloc (.tuple false tys) ((freshVars tys c).map TVar.var))]), c') := by
  have hle : c + tys.length ≤ c' := h.le
  refine ⟨by show c ≤ c'; omega, ?_, fun y hy => .inr ?_, h.nodup, fun {σ vs} hfits hhas => ?_⟩
  · show zs.map TVar.ty = dstTys (.tuple tys (repsOf tys)) ++ []
    rw [append_nil]
    exact h.types
  · rcases h.vars y hy with hmem | hbound
    · have hbound := freshVars_stamp hmem
      exact ⟨hbound.1, show y.var.stamp < c' by omega⟩
    · exact ⟨by omega, hbound.2⟩
  · obtain ⟨v, vs', rfl, ⟨us, rfl, hus⟩, hvs⟩ := hfits
    cases hvs
    have hone : flatVals [.tuple false tys] [.tuple us] = flatVals tys us := by simp [flatVals, flatVal]
    rw [hone] at hhas
    obtain ⟨σ₁, hrun, hsame, hhas₁⟩ := h.values hus hhas
    refine ⟨σ₁.set x.var (.tuple us), ?_, fun y hy hstamp => ?_, .cons (Env.set_same _ _ _) .nil⟩
    · have halloc : Rhs.mapM σ₁ (.alloc (.tuple false tys) ((freshVars tys c).map TVar.var)) =
          some (.alloc (.tuple false tys) us) := by
        have hget := hhas₁.get
        rw [Env.get] at hget
        simp [Rhs.mapM, hget]
      show σ.run (binds ++ _) = _
      rw [run_append, hrun]
      show (Rhs.mapM σ₁ (.alloc (.tuple false tys) ((freshVars tys c).map TVar.var))).bind _ = _
      rw [halloc]
      rfl
    · have hne : y ≠ x.var := fun he => hy (he ▸ mem_cons_self)
      rw [Env.set_of_ne _ _ hne]
      refine hsame y (fun hmem => ?_) (by show y.stamp < c + tys.length ∨ c' ≤ y.stamp; omega)
      obtain ⟨z, hz, rfl⟩ := mem_map.mp hmem
      have hbound := freshVars_stamp hz
      have hstamp : z.var.stamp < c ∨ c' ≤ z.var.stamp := hstamp
      omega

/-- The first argument is built with variables drawn after those for the others. -/
theorem Builds.cons {x : TVar} {xs : List TVar} {ty : Ty} {tys : List Ty} {c c₁ c₂ : Nat} {binds binds' : List Binding}
    {ys zs : List TVar} (hnodup : ((x :: xs).map TVar.var).Nodup) (hlt : ∀ y ∈ x :: xs, y.var.stamp < c)
    (h : Builds c xs tys ((ys, binds), c₁)) (h' : Builds c₁ [x] [ty] ((zs, binds'), c₂)) :
    Builds c (x :: xs) (ty :: tys) ((zs ++ ys, binds' ++ binds), c₂) := by
  have hle : c ≤ c₁ := h.le
  have hle' : c₁ ≤ c₂ := h'.le
  have hx := hlt x mem_cons_self
  obtain ⟨hxmem, -⟩ := nodup_cons.mp hnodup
  -- what the others are built from is not touched by what builds the first
  have hys : ∀ y ∈ ys, y.var ≠ x.var ∧ y.var.stamp < c₁ := fun y hy => by
    rcases h.vars y hy with hmem | hbound
    · have hstamp := hlt y (mem_cons_of_mem _ hmem)
      exact ⟨fun he => hxmem (he ▸ mem_map.mpr ⟨y, hmem, rfl⟩), by omega⟩
    · refine ⟨fun he => ?_, hbound.2⟩
      rw [he] at hbound
      omega
  refine ⟨Nat.le_trans hle hle', ?_, fun y hy => ?_, ?_, fun {σ vs} hfits hhas => ?_⟩
  · have htypes' : zs.map TVar.ty = dstTys (repOf ty) ++ [] := h'.types
    show (zs ++ ys).map TVar.ty = dstTys (repOf ty) ++ dstTysOf (repsOf tys)
    rw [map_append, htypes', append_nil]
    exact congrArg _ h.types
  · rcases List.mem_append.mp hy with hy | hy
    · rcases h'.vars y hy with hy | hy
      · exact .inl (mem_singleton.mp hy ▸ mem_cons_self)
      · exact .inr ⟨by omega, hy.2⟩
    · rcases h.vars y hy with hy | hy
      · exact .inl (mem_cons_of_mem _ hy)
      omega
  · show ((zs ++ ys).map TVar.var).Nodup
    rw [map_append]
    refine List.nodup_append.mpr ⟨h'.nodup, h.nodup, fun a ha b hb he => ?_⟩
    obtain ⟨z, hz, rfl⟩ := mem_map.mp ha
    obtain ⟨y, hy, rfl⟩ := mem_map.mp hb
    obtain ⟨hne, hlast⟩ := hys y hy
    rcases h'.vars z hz with hz | hz
    · rw [mem_singleton.mp hz] at he
      exact hne he.symm
    · rw [he] at hz
      omega
  · obtain ⟨v, vs', rfl, hv, hvs⟩ := hfits
    have hone : flatVals [ty] [v] = flatVal ty v := by simp [flatVals]
    have hlen : (zs.map TVar.var).length = (flatVal ty v).length := by
      have htypes' : zs.map TVar.ty = dstTys (repOf ty) ++ [] := h'.types
      rw [flatVal_length ty hv, length_map, ← length_map (f := TVar.ty), htypes', append_nil]
    have hhas : σ.Has ((zs ++ ys).map TVar.var) (flatVal ty v ++ flatVals tys vs') := hhas
    rw [map_append, Env.has_append hlen] at hhas
    obtain ⟨σ₁, hrun₁, hsame₁, hhas₁⟩ := h'.values (show FitsAll [ty] [v] from ⟨v, [], rfl, hv, rfl⟩)
      (by rw [hone]; exact hhas.1)
    have hys₁ : σ₁.Has (ys.map TVar.var) (flatVals tys vs') := hhas.2.congr fun b hb => by
      obtain ⟨y, hy, rfl⟩ := mem_map.mp hb
      obtain ⟨hne, hlast⟩ := hys y hy
      exact hsame₁ _ (fun hmem => hne (mem_singleton.mp hmem)) (.inl hlast)
    obtain ⟨σ₂, hrun₂, hsame₂, hhas₂⟩ := h.values hvs hys₁
    refine ⟨σ₂, ?_, fun b hb hstamp => ?_, .cons ?_ hhas₂⟩
    · simp [run_append, hrun₁, hrun₂]
    · have hstamp : b.stamp < c ∨ c₂ ≤ b.stamp := hstamp
      rw [hsame₂ b (fun hmem => hb (mem_cons_of_mem _ hmem)) (by show b.stamp < c ∨ c₁ ≤ b.stamp; omega)]
      refine hsame₁ b (fun hmem => hb ?_) (by show b.stamp < c₁ ∨ c₂ ≤ b.stamp; omega)
      rw [mem_singleton.mp hmem]
      exact mem_cons_self
    · obtain ⟨hxv, -⟩ := forall₂_cons.mp hhas₁
      rw [hsame₂ x.var hxmem (.inl hx)]
      exact hxv

theorem unflatRep_atom {ty : Ty} (h : ∀ tys, ty ≠ .tuple false tys) {x : TVar} (hx : x.ty = ty) (c : Nat) :
    ∃ r, unflatRep x (repOf ty) c = some r ∧ Builds c [x] [ty] r := by
  rw [repOf_atom h]
  exact ⟨_, rfl, .atom h hx c⟩

mutual

theorem unflatRep_builds (ty : Ty) {x : TVar} (hx : x.ty = ty) (c : Nat) :
    ∃ r, unflatRep x (repOf ty) c = some r ∧ Builds c [x] [ty] r := by
  cases ty with
  | tuple m tys =>
    cases m with
    | false =>
      obtain ⟨⟨⟨zs, binds⟩, c'⟩, hr, hbuilds⟩ := unflat_builds tys (freshVars_ty tys c) (freshVars_nodup tys c)
        fun y hy => (freshVars_stamp hy).2
      refine ⟨_, ?_, hbuilds.tuple⟩
      show (newTVars tys c).bind _ = _
      rw [newTVars_eq]
      simp_all
    | true => exact unflatRep_atom (by intro _ he; cases he) hx c
  | _ => exact unflatRep_atom (by intro _ he; cases he) hx c

theorem unflat_builds (tys : List Ty) {xs : List TVar} (hxs : xs.map TVar.ty = tys) (hnodup : (xs.map TVar.var).Nodup)
    {c : Nat} (hlt : ∀ x ∈ xs, x.var.stamp < c) : ∃ r, unflat xs (repsOf tys) c = some r ∧ Builds c xs tys r := by
  cases tys with
  | nil =>
    obtain rfl := List.map_eq_nil_iff.mp hxs
    refine ⟨_, rfl, Nat.le_refl c, rfl, List.forall_mem_nil _, List.nodup_nil, fun {σ vs} hfits hhas =>
      ⟨σ, rfl, fun _ _ _ => rfl, ?_⟩⟩
    cases hfits
    exact hhas
  | cons ty tys =>
    cases xs with
    | nil => cases hxs
    | cons x xs =>
      obtain ⟨hx, hxs⟩ := List.cons.inj hxs
      obtain ⟨⟨⟨ys, binds⟩, c₁⟩, hr, hbuilds⟩ := unflat_builds tys hxs (nodup_cons.mp hnodup).2
        fun y hy => hlt y (mem_cons_of_mem _ hy)
      obtain ⟨⟨⟨zs, binds'⟩, c₂⟩, hr', hbuilds'⟩ := unflatRep_builds ty hx c₁
      refine ⟨((zs ++ ys, binds' ++ binds), c₂), ?_, hbuilds.cons hnodup hlt hbuilds'⟩
      show (unflat xs (repsOf tys) c).bind _ = _
      rw [hr]
      show (unflatRep x (repOf ty) c₁).bind _ = _
      rw [hr']
      rfl

end

/-! ## Coercions -/

mutual

theorem exists_flatVal (ty : Ty) {ws : List Val} (hlen : ws.length = (dstTys (repOf ty)).length) :
    ∃ v, Fits ty v ∧ flatVal ty v = ws := by
  by_cases hty : ∀ tys, ty ≠ .tuple false tys
  · rw [repOf_atom hty] at hlen
    obtain ⟨w, rfl⟩ := List.length_eq_one_iff.mp hlen
    simp [flatVal_atom, hty, Fits]
  · cases ty with
    | tuple m tys =>
      cases m with
      | false =>
        obtain ⟨vs, hfits, hflat⟩ := exists_flatVals tys hlen
        exact ⟨.tuple vs, ⟨vs, rfl, hfits⟩, hflat⟩
      | true => exact absurd (by intro _ he; cases he) hty
    | _ => exact absurd (by intro _ he; cases he) hty

theorem exists_flatVals (tys : List Ty) {ws : List Val} (hlen : ws.length = (dstTysOf (repsOf tys)).length) :
    ∃ vs, FitsAll tys vs ∧ flatVals tys vs = ws := by
  cases tys with
  | nil => exact ⟨[], rfl, (List.length_eq_zero_iff.mp hlen).symm⟩
  | cons ty tys =>
    rw [repsOf, dstTysOf, length_append] at hlen
    have htake : (ws.take (dstTys (repOf ty)).length).length = (dstTys (repOf ty)).length := by
      rw [List.length_take]
      omega
    have hdrop : (ws.drop (dstTys (repOf ty)).length).length = (dstTysOf (repsOf tys)).length := by
      rw [List.length_drop]
      omega
    obtain ⟨v, hv, hflat⟩ := exists_flatVal ty htake
    obtain ⟨vs, hvs, hflats⟩ := exists_flatVals tys hdrop
    refine ⟨v :: vs, ⟨v, vs, rfl, hv, hvs⟩, ?_⟩
    rw [flatVals, hflat, hflats, List.take_append_drop]

end

theorem flattenRep_cases (ty : Ty) : (∃ tys, flattenRep ty = .tuple tys (repsOf tys)) ∨
    flattenRep ty = .atom ty ∧ repOf ty = .atom ty := by
  unfold flattenRep
  split
  · rename_i t
    exact .inl ⟨[.tuple false [t]], rfl⟩
  · by_cases hty : ∀ tys, ty ≠ .tuple false tys
    · exact .inr ⟨repOf_atom hty, repOf_atom hty⟩
    · obtain ⟨tys, hty⟩ := not_forall.mp hty
      rw [not_ne_iff.mp hty]
      exact .inl ⟨tys, rfl⟩

theorem dstTys_eq (ty : Ty) : dstTys (flattenRep ty) = dstTysOf (repsOf (srcTys (flattenRep ty))) := by
  rcases flattenRep_cases ty with ⟨tys, h⟩ | ⟨h, hatom⟩
  · rw [h]
    rfl
  · rw [h]
    show [ty] = dstTys (repOf ty) ++ []
    rw [hatom]
    rfl

theorem flatten_eq (ty : Ty) {xs : List TVar} (hxs : xs.map TVar.ty = srcTys (flattenRep ty)) (c : Nat) :
    flatten (flattenRep ty) xs c = flat xs (repsOf (srcTys (flattenRep ty))) c := by
  rcases flattenRep_cases ty with ⟨tys, h⟩ | ⟨h, hatom⟩
  · rw [h]
    rfl
  · rw [h] at hxs ⊢
    obtain ⟨x, rfl, -⟩ := List.map_eq_singleton_iff.mp hxs
    show _ = flat [x] [repOf ty] c
    rw [hatom]
    rfl

theorem unflatten_eq (ty : Ty) {xs : List TVar} (hxs : xs.map TVar.ty = srcTys (flattenRep ty)) (c : Nat) :
    unflatten (flattenRep ty) xs c = unflat xs (repsOf (srcTys (flattenRep ty))) c := by
  rcases flattenRep_cases ty with ⟨tys, h⟩ | ⟨h, hatom⟩
  · rw [h]
    rfl
  · rw [h] at hxs ⊢
    obtain ⟨x, rfl, -⟩ := List.map_eq_singleton_iff.mp hxs
    show _ = unflat [x] [repOf ty] c
    rw [hatom]
    rfl

/-- `binds` flatten the arguments `xs` to `ys`, `binds'` rebuild the arguments `xs'` from `ys'`. -/
structure Coercion (rep : RepTree) (xs ys xs' ys' : List TVar) (binds binds' : List Binding) : Prop where
  types : ys.map TVar.ty = dstTys rep
  types' : ys'.map TVar.ty = dstTys rep
  nodup : (ys'.map TVar.var).Nodup
  rebuild : ∀ {ρ : Env} {vs : List Val}, ρ.Has (xs.map TVar.var) vs → FitsAll (srcTys rep) vs →
    ∃ ρ' ws, Computes binds ρ ρ' ∧ ρ'.Has (ys.map TVar.var) ws ∧
      ∀ {σ : Env}, σ.Has (ys'.map TVar.var) ws → ∃ σ', Computes binds' σ σ' ∧ σ'.Has (xs'.map TVar.var) vs
  flatten : ∀ {σ : Env} {ws : List Val}, σ.Has (ys'.map TVar.var) ws →
    ∃ σ' vs, Computes binds' σ σ' ∧ σ'.Has (xs'.map TVar.var) vs ∧ FitsAll (srcTys rep) vs ∧
      ∀ {ρ : Env}, ρ.Has (xs.map TVar.var) vs → ∃ ρ', Computes binds ρ ρ' ∧ ρ'.Has (ys.map TVar.var) ws

/-- The glue code for the argument type `ty` of a constructor. -/
theorem coercion_id (ty : Ty) {xs xs' : List TVar} {c c' : Nat} (hxs : xs.map TVar.ty = srcTys (flattenRep ty))
    (hxs' : xs'.map TVar.ty = srcTys (flattenRep ty)) (hlt : ∀ x ∈ xs, x.var.stamp < c)
    (hlt' : ∀ x ∈ xs', x.var.stamp < c') (hnodup : (xs'.map TVar.var).Nodup) :
    ∃ binds ys d ys' binds' d', Translate.flatten (flattenRep ty) xs c = some ((binds, ys), d) ∧
      unflatten (flattenRep ty) xs' c' = some ((ys', binds'), d') ∧
        Coercion (flattenRep ty) xs ys xs' ys' binds binds' := by
  obtain ⟨⟨⟨binds, ys⟩, d⟩, hflat, htakes⟩ := flat_takes _ hxs hlt
  obtain ⟨⟨⟨ys', binds'⟩, d'⟩, hunflat, hbuilds⟩ := unflat_builds _ hxs' hnodup hlt'
  rw [← flatten_eq ty hxs] at hflat
  rw [← unflatten_eq ty hxs'] at hunflat
  refine ⟨binds, ys, d, ys', binds', d', hflat, hunflat, htakes.types.trans (dstTys_eq ty).symm,
    hbuilds.types.trans (dstTys_eq ty).symm, hbuilds.nodup, fun hhas hfits => ?_, fun {σ ws} hhas => ?_⟩
  · obtain ⟨ρ', hrun, -, hhas'⟩ := htakes.values hhas hfits
    refine ⟨ρ', _, run_steps hrun, hhas', fun hσ => ?_⟩
    obtain ⟨σ', hrun', -, hσ'⟩ := hbuilds.values hfits hσ
    exact ⟨σ', run_steps hrun', hσ'⟩
  · have hlen : ws.length = (dstTysOf (repsOf (srcTys (flattenRep ty)))).length := by
      rw [← hbuilds.types, ← hhas.length_eq, length_map, length_map]
    obtain ⟨vs, hfits, rfl⟩ := exists_flatVals _ hlen
    obtain ⟨σ', hrun', -, hσ'⟩ := hbuilds.values hfits hhas
    refine ⟨σ', vs, run_steps hrun', hσ', hfits, fun hρ => ?_⟩
    obtain ⟨ρ', hrun, -, hρ'⟩ := htakes.values hρ hfits
    exact ⟨ρ', run_steps hrun, hρ'⟩

/-- A pair whose second component is a wrapped raw value. -/
theorem coercion_id_pair :
    ∃ binds ys d ys' binds' d',
      Translate.flatten (flattenRep (.tuple false [.any, .tuple false [.raw .double]]))
        [⟨⟨0⟩, .any⟩, ⟨⟨1⟩, .tuple false [.raw .double]⟩] 2 = some ((binds, ys), d) ∧
      unflatten (flattenRep (.tuple false [.any, .tuple false [.raw .double]]))
        [⟨⟨0⟩, .any⟩, ⟨⟨1⟩, .tuple false [.raw .double]⟩] 2 = some ((ys', binds'), d') ∧
      Coercion (flattenRep (.tuple false [.any, .tuple false [.raw .double]]))
        [⟨⟨0⟩, .any⟩, ⟨⟨1⟩, .tuple false [.raw .double]⟩] ys [⟨⟨0⟩, .any⟩, ⟨⟨1⟩, .tuple false [.raw .double]⟩] ys'
        binds binds' :=
  coercion_id (.tuple false [.any, .tuple false [.raw .double]]) rfl rfl (by simp) (by simp) (by simp)

end Manticore.Translate
