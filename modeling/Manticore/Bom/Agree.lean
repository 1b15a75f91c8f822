/-
  Manticore.Bom.Agree — environments that agree on the names a pass keeps.

  `P` says which names are kept. A value is clean when its code pointers have kept names;
  two environments agree when they give every kept variable the same clean value. Reading
  variables, evaluating a right-hand side and binding values preserve both, so a pass that
  only drops code runs its module in step with the original.
-/

import Manticore.Bom.Semantics

namespace Manticore.Bom

open Rhs (vars mapM)

/-- Every code pointer in the values has a kept name. -/
def Clean (P : Var → Prop) (vs : List Val) : Prop := ∀ h ∈ codesOf vs, P h.name

def Agree (P : Var → Prop) (ρ ρ' : Env) : Prop := ∀ x, P x → ρ x = ρ' x ∧ ∀ v, ρ x = some v → Clean P [v]

variable {P : Var → Prop} {ρ ρ' : Env} {M : Machine}

/-! ## Options side by side -/

variable {α : Type} {a : Option α} {v : Val} {vs : List Val}

theorem rel_bind {β γ δ : Type} {R : α → β → Prop} {S : γ → δ → Prop} {b : Option β} {f : α → Option γ}
    {g : β → Option δ} (h : Option.Rel R a b) (hfg : ∀ x y, R x y → Option.Rel S (f x) (g y)) :
    Option.Rel S (a >>= f) (b >>= g) := by
  cases h with
  | some hxy => exact hfg _ _ hxy
  | none => exact .none

theorem rel_of_eq {p : α → Prop} {b : Option α} (h : a = b ∧ ∀ v, a = some v → p v) :
    Option.Rel (fun x y => x = y ∧ p x) a b := by
  obtain ⟨rfl, h⟩ := h
  cases a with
  | none => exact .none
  | some v => exact .some ⟨rfl, h v rfl⟩

theorem rel_and {β : Type} {R : α → β → Prop} {p : α → Prop} {b : Option β} (h : Option.Rel R a b)
    (hp : ∀ v, a = some v → p v) : Option.Rel (fun x y => R x y ∧ p x) a b := by
  cases h with
  | some hxy => exact .some ⟨hxy, hp _ rfl⟩
  | none => exact .none

/-! ## Clean values -/

@[simp] theorem clean_nil : Clean P [] := by simp [Clean, codesOf]

theorem clean_cons : Clean P (v :: vs) ↔ Clean P [v] ∧ Clean P vs := by
  simp only [Clean, mem_codesOf, List.mem_cons]
  grind

@[simp] theorem clean_con {dc : Nat} : Clean P [.con dc vs] ↔ Clean P vs := by
  simp [Clean, codesOf, Val.codes]

@[simp] theorem clean_code {h : Handle} : Clean P [.code h] ↔ P h.name := by
  simp [Clean, codesOf, Val.codes]

/-! ## Reading variables -/

theorem Agree.get (h : Agree P ρ ρ') : ∀ {xs : List Var}, (∀ x ∈ xs, P x) →
    ρ.get xs = ρ'.get xs ∧ ∀ vs, ρ.get xs = some vs → Clean P vs
  | [], _ => ⟨rfl, fun vs hvs => by cases hvs; exact clean_nil⟩
  | x :: xs, hxs => by
    obtain ⟨e, c⟩ := h x (hxs x List.mem_cons_self)
    obtain ⟨es, cs⟩ := Agree.get h fun y hy => hxs y (List.mem_cons_of_mem x hy)
    simp only [Env.get, List.mapM_cons] at es cs ⊢
    rw [← e, ← es]
    refine ⟨rfl, fun vs hvs => ?_⟩
    cases hx : ρ x with
    | none => simp [hx] at hvs
    | some v =>
      cases hs : xs.mapM ρ with
      | none => simp [hx, hs] at hvs
      | some ws =>
        simp only [hx, hs] at hvs
        cases hvs
        exact clean_cons.mpr ⟨c v hx, cs ws hs⟩

theorem Agree.rhs (h : Agree P ρ ρ') {r : Rhs Var} (hr : ∀ x ∈ r.vars, P x) :
    r.mapM ρ = r.mapM ρ' ∧ ∀ r', r.mapM ρ = some r' → Clean P r'.vars := by
  have one : ∀ x, P x → ρ x = ρ' x ∧ ∀ v, ρ x = some v → Clean P [v] := h
  have many : ∀ xs : List Var, (∀ x ∈ xs, P x) → xs.mapM ρ = xs.mapM ρ' ∧ ∀ vs, xs.mapM ρ = some vs → Clean P vs :=
    fun xs hxs => h.get hxs
  cases r with
  | const | hostVProc => exact ⟨rfl, fun r' hr' => by cases hr'; exact clean_nil⟩
  | cast _ x | select _ x | addrOf _ x | promote x | vpLoad _ x | vpAddr _ x =>
    obtain ⟨e, c⟩ := one x (hr x (by simp [vars]))
    refine ⟨by simp only [mapM, e], fun r' hr' => ?_⟩
    cases hx : ρ x with
    | none => simp [mapM, hx] at hr'
    | some v =>
      simp only [mapM, hx] at hr'
      cases hr'
      exact c v hx
  | update _ x y | vpStore _ x y =>
    obtain ⟨e, c⟩ := one x (hr x (by simp [vars]))
    obtain ⟨e', c'⟩ := one y (hr y (by simp [vars]))
    refine ⟨by simp only [mapM, e, e'], fun r' hr' => ?_⟩
    cases hx : ρ x with
    | none => simp [mapM, hx] at hr'
    | some v =>
      cases hy : ρ y with
      | none => simp [mapM, hx, hy] at hr'
      | some w =>
        simp only [mapM, hx, hy] at hr'
        cases hr'
        exact clean_cons.mpr ⟨c v hx, c' w hy⟩
  | alloc _ xs | prim _ xs | dcon _ xs =>
    obtain ⟨e, c⟩ := many xs hr
    refine ⟨by simp only [mapM, e], fun r' hr' => ?_⟩
    cases hx : xs.mapM ρ with
    | none => simp [mapM, hx] at hr'
    | some vs =>
      simp only [mapM, hx] at hr'
      cases hr'
      exact c vs hx
  | ccall f xs =>
    obtain ⟨e, c⟩ := one f (hr f (by simp [vars]))
    obtain ⟨e', c'⟩ := many xs fun y hy => hr y (by simp [vars, hy])
    refine ⟨by simp only [mapM, e, e'], fun r' hr' => ?_⟩
    cases hx : ρ f with
    | none => simp [mapM, hx] at hr'
    | some v =>
      cases hs : xs.mapM ρ with
      | none => simp [mapM, hx, hs] at hr'
      | some vs =>
        simp only [mapM, hx, hs] at hr'
        cases hr'
        exact clean_cons.mpr ⟨c v hx, c' vs hs⟩

/-! ## Evaluation makes no code pointers -/

theorem evalRhs_codes {r : Rhs Val} {w w' : M.W} {e : Option M.E} {h : Handle}
    (hr : evalRhs M r w = some (vs, w', e)) (hh : h ∈ codesOf vs ∨ M.holds w' h) :
    h ∈ codesOf r.vars ∨ M.holds w h := by
  unfold evalRhs at hr
  split at hr
  case h_1 => cases hr; simpa [codesOf, Val.codes, vars] using hh
  case h_2 => cases hr; exact hh
  case h_3 i us =>
    -- a component of an immutable tuple
    cases hu : us[i]? with
    | none => simp [hu] at hr
    | some v =>
      simp only [hu, Option.map_some] at hr
      cases hr
      have hv : v ∈ us := List.mem_of_getElem? hu
      simp only [vars, mem_codesOf, List.mem_singleton, exists_eq_left, Val.codes] at hh ⊢
      exact hh.imp_left fun hc => ⟨v, hv, hc⟩
  case h_7 => cases hr; simpa [codesOf, Val.codes, vars] using hh
  case h_11 => cases hr; simpa [codesOf, Val.codes, vars] using hh
  all_goals exact M.op_codes hr hh

theorem evalRhs_clean {r : Rhs Val} {w w' : M.W} {e : Option M.E} (hr : Clean P r.vars)
    (hw : ∀ h, M.holds w h → P h.name) (he : evalRhs M r w = some (vs, w', e)) :
    Clean P vs ∧ ∀ h, M.holds w' h → P h.name :=
  ⟨fun h hh => (evalRhs_codes he (.inl hh)).elim (hr h) (hw h),
    fun h hh => (evalRhs_codes he (.inr hh)).elim (hr h) (hw h)⟩

/-! ## Binding -/

theorem Agree.set (h : Agree P ρ ρ') (hv : Clean P [v]) (x : Var) : Agree P (ρ.set x v) (ρ'.set x v) := by
  intro y hy
  by_cases hyx : y = x
  · simp only [Env.set, if_pos hyx, true_and]
    rintro w ⟨⟩
    exact hv
  · simpa only [Env.set, if_neg hyx] using h y hy

theorem Agree.bind : ∀ {ρ ρ' : Env} {xs : List Var} {vs : List Val}, Agree P ρ ρ' → Clean P vs →
    Option.Rel (Agree P) (ρ.bind xs vs) (ρ'.bind xs vs)
  | _, _, [], [], h, _ => .some h
  | _, _, [], _ :: _, _, _ => .none
  | _, _, _ :: _, [], _, _ => .none
  | _, _, x :: _, _ :: _, h, hv => by
    rw [Env.bind, Env.bind]
    exact Agree.bind (h.set (clean_cons.mp hv).1 x) (clean_cons.mp hv).2

/-- What a case selects is made of the subject's components. -/
theorem selectArm_clean  (hv : Clean P [v]) {dflt : Option Exp} :
    ∀ {cases : List (Pat × Exp)} {xs : List Var} {vs : List Val} {e : Exp},
      selectArm v cases dflt = some (xs, vs, e) → Clean P vs
  | [], xs, vs, e, h => by
    grind [selectArm, Option.map_eq_some_iff, clean_nil]
  | (p, _) :: cases, xs, vs, e, h => by
    rw [selectArm] at h
    split at h
    · rename_i us ws hp
      cases h
      unfold Pat.select at hp
      grind [clean_con, clean_nil]
    · exact selectArm_clean hv h

end Manticore.Bom
