/-
  Manticore.CpsOpt.BranchElimProofs — dead-branch elimination keeps the behaviour of a
  module and replaces every known switch by the arm that a run takes exactly when the
  switches it comes to have a label for the known value.

  - `doExp_resolve`: what the pass makes is what it is for, whenever it does not raise;
  - `doExp_returns`: it raises exactly at a switch without the label;
  - `resolve_same`: the arm that a run takes is as good as the switch.
-/

import Manticore.CpsOpt.BranchElim
import Manticore.Fresh

namespace Manticore.CpsOpt.BranchElim

open Manticore.Cps
open Option (bind_eq_some_iff map_some bind_some mem_toList map_eq_some_iff map map_none)
open List (mem_cons_self mem_cons_of_mem mem_map not_mem_nil mem_cons mem_singleton mem_append)
open Exp (kids)
open Module (resolve exps)

/-! ## What the pass makes -/

@[simp] theorem mkExp_apply (t : Ppt → Exp) (pt : Ppt) : mkExp t pt = some (t pt, pt + 1) := rfl

theorem mkCont_eq_some {fb : Lambda} {e e' : Exp} {pt pt' : Ppt} (h : mkCont fb e pt = some (e', pt')) :
    fb.rets = [] ∧ e' = .cont pt fb e := by
  cases hr : fb.rets with
  | nil =>
    simp only [mkCont, hr] at h
    cases h
    exact ⟨rfl, rfl⟩
  | cons k ks =>
    simp only [mkCont, hr] at h
    cases h

theorem mkCont_of_nil {fb : Lambda} (h : fb.rets = []) (e : Exp) (pt : Ppt) :
    mkCont fb e pt = some (.cont pt fb e, pt + 1) := by
  simp only [mkCont, h, mkExp_apply]

section

variable {cfa : Cfa}

/-- A switch, in terms of what is known of its variable. -/
theorem doExp_switch (pt₀ : Ppt) (x : Var) (cases : List (Nat × Exp)) (dflt : Option Exp) (pt : Ppt) :
    doExp cfa (.switch pt₀ x cases dflt) pt = match known cfa x with
      | some b => doFound cfa (tagOf b) cases pt
      | none => (doCases cfa cases pt).bind fun r => (doDflt cfa dflt r.2).bind fun r' =>
          some (.switch r'.2 x r.1 r'.1, r'.2 + 1) := by
  rw [doExp, known]
  cases cfa.valueOf x with
  | bool b => cases b <;> rfl
  | _ => rfl

mutual

theorem doExp_resolve : ∀ (e : Exp) {pt pt' : Ppt} {e' : Exp}, doExp cfa e pt = some (e', pt') →
    Exp.resolve nothing e' = Exp.resolve (known cfa) e
  | .let_ _ lhs rhs e, pt, pt', e', h => by
    simp only [doExp, gen_bind, bind_eq_some_iff, mkExp_apply] at h
    obtain ⟨⟨e₁, pt₁⟩, h₁, h⟩ := h
    cases h
    simp only [Exp.resolve, doExp_resolve e h₁]
  | .fun_ _ fbs e, pt, pt', e', h => by
    simp only [doExp, gen_bind, bind_eq_some_iff, mkExp_apply] at h
    obtain ⟨⟨fbs₁, pt₁⟩, h₁, ⟨e₂, pt₂⟩, h₂, h⟩ := h
    cases h
    simp only [Exp.resolve, doFBs_resolve fbs h₁, doExp_resolve e h₂]
  | .cont _ fb e, pt, pt', e', h => by
    simp only [doExp, gen_bind, bind_eq_some_iff] at h
    obtain ⟨⟨fb₁, pt₁⟩, h₁, ⟨e₂, pt₂⟩, h₂, h⟩ := h
    rw [(mkCont_eq_some h).2]
    simp only [Exp.resolve, doFB_resolve fb h₁, doExp_resolve e h₂]
  | .if_ _ c e₁ e₂, pt, pt', e', h => by
    simp only [doExp, gen_bind, bind_eq_some_iff, mkExp_apply] at h
    obtain ⟨⟨e₃, pt₁⟩, h₁, ⟨e₄, pt₂⟩, h₂, h⟩ := h
    cases h
    simp only [Exp.resolve, doExp_resolve e₁ h₁, doExp_resolve e₂ h₂]
  | .switch pt₀ x cases dflt, pt, pt', e', h => by
    rw [doExp_switch] at h
    rw [Exp.resolve]
    cases hx : known cfa x with
    | some b =>
      rw [hx] at h
      simp only [doFound_resolve cases h, Option.getD_some]
    | none =>
      simp only [hx, bind_eq_some_iff] at h
      obtain ⟨⟨cases₁, pt₁⟩, h₁, ⟨dflt₂, pt₂⟩, h₂, h⟩ := h
      cases h
      simp only [Exp.resolve, nothing, doCases_resolve cases h₁, doDflt_resolve dflt h₂]
  | .apply _ f args rets, pt, pt', e', h => by
    cases h
    rfl
  | .throw _ k args, pt, pt', e', h => by
    cases h
    rfl

theorem doFB_resolve : ∀ (fb : Lambda) {pt pt' : Ppt} {fb' : Lambda}, doFB cfa fb pt = some (fb', pt') →
    Lambda.resolve nothing fb' = Lambda.resolve (known cfa) fb
  | .fb f params rets body, pt, pt', fb', h => by
    simp only [doFB, gen_bind, gen_pure, bind_eq_some_iff] at h
    obtain ⟨⟨body', pt₁⟩, h₁, h⟩ := h
    cases h
    simp only [Lambda.resolve, doExp_resolve body h₁]

theorem doFBs_resolve : ∀ (fbs : List Lambda) {pt pt' : Ppt} {fbs' : List Lambda},
    doFBs cfa fbs pt = some (fbs', pt') → resolveFBs nothing fbs' = resolveFBs (known cfa) fbs
  | [], pt, pt', fbs', h => by
    cases h
    rfl
  | fb :: fbs, pt, pt', fbs', h => by
    simp only [doFBs, gen_bind, gen_pure, bind_eq_some_iff] at h
    obtain ⟨⟨fb₁, pt₁⟩, h₁, ⟨fbs₂, pt₂⟩, h₂, h⟩ := h
    cases h
    simp only [resolveFBs, doFB_resolve fb h₁, doFBs_resolve fbs h₂]

theorem doCases_resolve : ∀ (cases : List (Nat × Exp)) {pt pt' : Ppt} {cases' : List (Nat × Exp)},
    doCases cfa cases pt = some (cases', pt') → resolveCases nothing cases' = resolveCases (known cfa) cases
  | [], pt, pt', cases', h => by
    cases h
    rfl
  | (tag, e) :: cases, pt, pt', cases', h => by
    simp only [doCases, gen_bind, gen_pure, bind_eq_some_iff] at h
    obtain ⟨⟨e₁, pt₁⟩, h₁, ⟨cases₂, pt₂⟩, h₂, h⟩ := h
    cases h
    simp only [resolveCases, doExp_resolve e h₁, doCases_resolve cases h₂]

theorem doDflt_resolve : ∀ (dflt : Option Exp) {pt pt' : Ppt} {dflt' : Option Exp},
    doDflt cfa dflt pt = some (dflt', pt') → resolveDflt nothing dflt' = resolveDflt (known cfa) dflt
  | none, pt, pt', dflt', h => by
    cases h
    rfl
  | some e, pt, pt', dflt', h => by
    simp only [doDflt, gen_bind, gen_pure, bind_eq_some_iff] at h
    obtain ⟨⟨e₁, pt₁⟩, h₁, h⟩ := h
    cases h
    simp only [resolveDflt, doExp_resolve e h₁]

/-- The arm that the pass finds is the one that a run takes. -/
theorem doFound_resolve : ∀ (cases : List (Nat × Exp)) {value : Nat} {pt pt' : Ppt} {e' : Exp} {dflt : Option Exp},
    doFound cfa value cases pt = some (e', pt') →
    selectArm (.lit (.enum value)) (resolveCases (known cfa) cases) dflt = some (Exp.resolve nothing e')
  | [], value, pt, pt', e', dflt, h => by cases h
  | (tag, e) :: cases, value, pt, pt', e', dflt, h => by
    rw [doFound] at h
    rw [resolveCases, selectArm]
    by_cases ht : tag = value
    · rw [if_pos ht] at h
      rw [if_pos (by simp [isTag, ht]), doExp_resolve e h]
    · rw [if_neg ht] at h
      rw [if_neg (by simpa [isTag] using fun hv => ht hv.symm), doFound_resolve cases h]

end

/-! ## When it raises -/

theorem doFB_eq (fb : Lambda) (pt : Ppt) :
    doFB cfa fb pt = (doExp cfa fb.body pt).map fun r => (.fb fb.f fb.params fb.rets r.1, r.2) := by
  cases fb with
  | fb f params rets body =>
    simp only [doFB, gen_bind, gen_pure, Lambda.body_fb, Lambda.f_fb, Lambda.params_fb, Lambda.rets_fb]
    cases doExp cfa body pt <;> rfl

variable {cases : List (Nat × Exp)} {e : Exp} {dflt : Option Exp} {pt : Ppt}

theorem findCase_isSome {value : Nat} : (findCase cases value).isSome ↔ value ∈ cases.map (·.1) := by
  induction cases with
  | nil => simp [findCase]
  | cons c cases ih =>
    grind [findCase]

theorem mem_of_findCase {value : Nat} (h : findCase cases value = some e) : (value, e) ∈ cases := by
  induction cases with
  | nil => cases h
  | cons c cases ih =>
    obtain ⟨tag, e'⟩ := c
    rw [findCase] at h
    by_cases ht : tag = value
    · rw [if_pos ht] at h
      cases h
      exact ht ▸ mem_cons_self
    · rw [if_neg ht] at h
      exact mem_cons_of_mem _ (ih h)

theorem kept_subset {e' : Exp} (h : e' ∈ kept cfa e) : e' ∈ e.kids := by
  cases e with
  | switch pt x cases dflt =>
    rw [kept] at h
    cases hx : known cfa x with
    | none => rwa [hx] at h
    | some b =>
      rw [hx] at h
      have hf : findCase cases (tagOf b) = some e' := by simpa using h
      exact List.mem_append_left _ (mem_map.2 ⟨_, mem_of_findCase hf, rfl⟩)
  | _ => exact h

/-- The pass raises on the expression nowhere. -/
def Returns (cfa : Cfa) (e : Exp) : Prop := ∀ pt, ∃ r, doExp cfa e pt = some r

theorem doFBs_returns {fbs : List Lambda} (h : ∀ fb ∈ fbs, Returns cfa fb.body) (pt : Ppt) :
    ∃ r, doFBs cfa fbs pt = some r := by
  induction fbs generalizing pt with
  | nil => exact ⟨([], pt), rfl⟩
  | cons fb fbs ih =>
    obtain ⟨r, hr⟩ := h fb mem_cons_self pt
    obtain ⟨r', hr'⟩ := ih (fun fb' h' => h fb' (mem_cons_of_mem _ h')) r.2
    refine ⟨(.fb fb.f fb.params fb.rets r.1 :: r'.1, r'.2), ?_⟩
    simp only [doFBs, gen_bind, gen_pure, doFB_eq, hr, map_some, bind_some, hr']

theorem doCases_returns (h : ∀ c ∈ cases, Returns cfa c.2) (pt : Ppt) : ∃ r, doCases cfa cases pt = some r := by
  induction cases generalizing pt with
  | nil => exact ⟨([], pt), rfl⟩
  | cons c cases ih =>
    obtain ⟨tag, e⟩ := c
    obtain ⟨r, hr⟩ := h (tag, e) mem_cons_self pt
    obtain ⟨r', hr'⟩ := ih (fun c' h' => h c' (mem_cons_of_mem _ h')) r.2
    refine ⟨((tag, r.1) :: r'.1, r'.2), ?_⟩
    simp only [doCases, gen_bind, gen_pure, hr, bind_some, hr']

theorem doDflt_returns (h : ∀ e ∈ dflt, Returns cfa e) (pt : Ppt) : ∃ r, doDflt cfa dflt pt = some r := by
  cases dflt with
  | none => exact ⟨(none, pt), rfl⟩
  | some e =>
    obtain ⟨r, hr⟩ := h e rfl pt
    simp [doDflt, hr]

/-- The pass returns on an expression if it does on what it goes on with. -/
theorem returns_of_kept (hconts : ∀ pt fb e₁, e = .cont pt fb e₁ → fb.rets = [])
    (hlab : ∀ pt x cases dflt b, e = .switch pt x cases dflt → known cfa x = some b → tagOf b ∈ cases.map (·.1))
    (hkept : ∀ e' ∈ kept cfa e, Returns cfa e') : Returns cfa e := by
  intro pt
  cases e with
  | let_ pt₀ lhs rhs e =>
    obtain ⟨r, hr⟩ := hkept e (by simp [kept, kids]) pt
    simp [doExp, hr]
  | fun_ pt₀ fbs e =>
    obtain ⟨r, hr⟩ := doFBs_returns (fun fb hfb => hkept fb.body (List.mem_append_left _ (List.mem_map_of_mem hfb))) pt
    obtain ⟨r', hr'⟩ := hkept e (by simp [kept, kids]) r.2
    simp [doExp, hr, hr']
  | cont pt₀ fb e =>
    obtain ⟨r, hr⟩ := hkept fb.body (by simp [kept, kids]) pt
    obtain ⟨r', hr'⟩ := hkept e (by simp [kept, kids]) r.2
    have hrets : (Lambda.fb fb.f fb.params fb.rets r.1).rets = [] := hconts pt₀ fb e rfl
    simp [doExp, doFB_eq, hr, hr', mkCont_of_nil hrets]
  | if_ pt₀ c e₁ e₂ =>
    obtain ⟨r, hr⟩ := hkept e₁ (by simp [kept, kids]) pt
    obtain ⟨r', hr'⟩ := hkept e₂ (by simp [kept, kids]) r.2
    simp [doExp, hr, hr']
  | switch pt₀ x cases dflt =>
    rw [doExp_switch]
    rw [kept] at hkept
    cases hx : known cfa x with
    | some b =>
      rw [hx] at hkept
      obtain ⟨e', he'⟩ := Option.isSome_iff_exists.1 (findCase_isSome.2 (hlab pt₀ x cases dflt b rfl hx))
      obtain ⟨r, hr⟩ := hkept e' (by simp [he']) pt
      exact ⟨r, by simp only [doFound_eq, he', bind_some, hr]⟩
    | none =>
      rw [hx] at hkept
      have hcases : ∀ c ∈ cases, Returns cfa c.2 := fun c hc =>
        hkept c.2 (List.mem_append_left _ (List.mem_map_of_mem hc))
      have hdflt : ∀ e ∈ dflt, Returns cfa e := fun e he =>
        hkept e (List.mem_append_right _ (mem_toList.2 he))
      obtain ⟨r, hr⟩ := doCases_returns hcases pt
      obtain ⟨r', hr'⟩ := doDflt_returns hdflt r.2
      simp [hr, hr']
  | apply | throw => exact ⟨_, rfl⟩

/-- The pass came to an end on the expression, from some program point. -/
def Done (cfa : Cfa) (e : Exp) : Prop := ∃ pt r, doExp cfa e pt = some r

theorem done_of_doFBs {fbs : List Lambda} {r : List Lambda × Ppt} (h : doFBs cfa fbs pt = some r) :
    ∀ fb ∈ fbs, Done cfa fb.body := by
  induction fbs generalizing pt r with
  | nil => exact fun fb hfb => absurd hfb not_mem_nil
  | cons fb fbs ih =>
    simp only [doFBs, gen_bind, doFB_eq, bind_eq_some_iff, map_eq_some_iff] at h
    obtain ⟨r₁, ⟨r₂, h₂, -⟩, r₃, h₃, -⟩ := h
    intro fb' hfb
    rcases mem_cons.1 hfb with rfl | hfb
    · exact ⟨pt, r₂, h₂⟩
    · exact ih h₃ fb' hfb

theorem done_of_doCases {r : List (Nat × Exp) × Ppt} (h : doCases cfa cases pt = some r) :
    ∀ c ∈ cases, Done cfa c.2 := by
  induction cases generalizing pt r with
  | nil => exact fun c hc => absurd hc not_mem_nil
  | cons c cases ih =>
    obtain ⟨tag, e⟩ := c
    simp only [doCases, gen_bind, bind_eq_some_iff] at h
    obtain ⟨r₁, h₁, r₂, h₂, -⟩ := h
    intro c hc
    rcases mem_cons.1 hc with rfl | hc
    · exact ⟨pt, r₁, h₁⟩
    · exact ih h₂ c hc

theorem done_of_doDflt {r : Option Exp × Ppt} (h : doDflt cfa dflt pt = some r) : ∀ e ∈ dflt, Done cfa e := by
  intro e he
  cases he
  simp only [doDflt, gen_bind, bind_eq_some_iff] at h
  obtain ⟨r₁, h₁, -⟩ := h
  exact ⟨pt, r₁, h₁⟩

/-- Where the pass came to an end, it did on all that it went on with, and found the labels. -/
theorem Done.kept (h : Done cfa e) : ∀ e' ∈ kept cfa e, Done cfa e' := by
  obtain ⟨pt, r, h⟩ := h
  intro e' he'
  cases e with
  | let_ pt₀ lhs rhs e =>
    simp only [doExp, gen_bind, bind_eq_some_iff] at h
    obtain ⟨r₁, h₁, -⟩ := h
    exact mem_singleton.1 he' ▸ ⟨pt, r₁, h₁⟩
  | fun_ pt₀ fbs e =>
    simp only [doExp, gen_bind, bind_eq_some_iff] at h
    obtain ⟨r₁, h₁, r₂, h₂, -⟩ := h
    rcases mem_append.1 he' with he' | he'
    · obtain ⟨fb, hfb, rfl⟩ := mem_map.1 he'
      exact done_of_doFBs h₁ fb hfb
    · exact mem_singleton.1 he' ▸ ⟨r₁.2, r₂, h₂⟩
  | cont pt₀ fb e =>
    simp only [doExp, gen_bind, doFB_eq, bind_eq_some_iff, map_eq_some_iff] at h
    obtain ⟨r₁, ⟨r₂, h₂, -⟩, r₃, h₃, -⟩ := h
    rcases mem_cons.1 he' with rfl | he'
    · exact ⟨pt, r₂, h₂⟩
    · exact mem_singleton.1 he' ▸ ⟨r₁.2, r₃, h₃⟩
  | if_ pt₀ c e₁ e₂ =>
    simp only [doExp, gen_bind, bind_eq_some_iff] at h
    obtain ⟨r₁, h₁, r₂, h₂, -⟩ := h
    rcases mem_cons.1 he' with rfl | he'
    · exact ⟨pt, r₁, h₁⟩
    · exact mem_singleton.1 he' ▸ ⟨r₁.2, r₂, h₂⟩
  | switch pt₀ x cases dflt =>
    rw [doExp_switch] at h
    rw [BranchElim.kept] at he'
    cases hx : known cfa x with
    | some b =>
      rw [hx] at he'
      have hf : findCase cases (tagOf b) = some e' := by simpa using he'
      simp only [hx, doFound_eq, hf, bind_some] at h
      exact ⟨pt, r, h⟩
    | none =>
      rw [hx] at he'
      simp only [hx, bind_eq_some_iff] at h
      obtain ⟨r₁, h₁, r₂, h₂, -⟩ := h
      rcases mem_append.1 he' with he' | he'
      · obtain ⟨c, hc, rfl⟩ := mem_map.1 he'
        exact done_of_doCases h₁ c hc
      · exact done_of_doDflt h₂ e' (mem_toList.1 he')
  | apply | throw => cases he'

theorem Done.label {x : Var} {b : Bool} (h : Done cfa (.switch pt x cases dflt)) (hx : known cfa x = some b) :
    tagOf b ∈ cases.map (·.1) := by
  obtain ⟨pt', r, h⟩ := h
  grind [doExp_switch, doFound_eq, bind_eq_some_iff, findCase_isSome]

theorem Done.visits {e' : Exp} (h : Done cfa e) (hv : Visits cfa e e') : Done cfa e' := by
  induction hv with
  | refl => exact h
  | kid hk _ ih => exact ih (h.kept _ hk)

/-- The pass returns on an expression when the switches it comes to have their labels. -/
theorem doExp_returns (hconts : ∀ pt fb e₁, .cont pt fb e₁ ∈ e.subs → fb.rets = [])
    (hlab : ∀ pt x cases dflt b, Visits cfa e (.switch pt x cases dflt) → known cfa x = some b → tagOf b ∈ cases.map (·.1))
    : Returns cfa e := by
  induction e using Exp.induct with
  | h e ih =>
    refine returns_of_kept (fun pt fb e₁ he => hconts pt fb e₁ (he ▸ e.self_mem_subs)) ?_ ?_
    · intro pt x cases dflt b he
      exact hlab pt x cases dflt b (he ▸ .refl e)
    · intro e' he'
      have hk : e' ∈ e.kids := kept_subset he'
      refine ih e' hk (fun pt fb e₁ h => hconts pt fb e₁ ?_) fun pt x cases dflt b hv =>
        hlab pt x cases dflt b (.kid he' hv)
      rw [Exp.subs_eq]
      exact mem_cons_of_mem _ (List.mem_flatMap.2 ⟨e', hk, h⟩)

end

/-! ## A run of the resolved module -/

section

variable {known : Var → Option Bool}

def Clo.resolve (known : Var → Option Bool) : Clo → Clo
  | .fun_ fb ρ => .fun_ (Lambda.resolve known fb) ρ
  | .cont fb ρ => .cont (Lambda.resolve known fb) ρ
  | .exit => .exit
  | .halt => .halt

def Ctl.resolve (known : Var → Option Bool) : Ctl → Ctl
  | .eval e ρ => .eval (Exp.resolve known e) ρ
  | .raise k vs => .raise k vs

def State.resolve {M : Machine} (known : Var → Option Bool) (s : State M) : State M where
  ctl := Ctl.resolve known s.ctl
  code := fun h => (s.code h).map (Clo.resolve known)
  made := s.made
  w := s.w

@[simp] theorem Lambda.f_resolve (fb : Lambda) : (Lambda.resolve known fb).f = fb.f := by
  cases fb
  rfl

@[simp] theorem Lambda.params_resolve (fb : Lambda) : (Lambda.resolve known fb).params = fb.params := by
  cases fb
  rfl

@[simp] theorem Lambda.rets_resolve (fb : Lambda) : (Lambda.resolve known fb).rets = fb.rets := by
  cases fb
  rfl

@[simp] theorem Lambda.body_resolve (fb : Lambda) : (Lambda.resolve known fb).body = Exp.resolve known fb.body := by
  cases fb
  rfl

theorem resolveFBs_eq (fbs : List Lambda) : resolveFBs known fbs = fbs.map (Lambda.resolve known) := by
  induction fbs with
  | nil => rfl
  | cons fb fbs ih => rw [resolveFBs, ih, List.map_cons]

theorem resolveDflt_eq (dflt : Option Exp) : resolveDflt known dflt = dflt.map (Exp.resolve known) := by
  cases dflt <;> rfl

theorem selectArm_resolve (v : Val) (cases : List (Nat × Exp)) (dflt : Option Exp) :
    selectArm v (resolveCases known cases) (resolveDflt known dflt) = (selectArm v cases dflt).map (Exp.resolve known) := by
  induction cases with
  | nil => exact resolveDflt_eq dflt
  | cons c cases ih =>
    grind [resolveCases, selectArm]

theorem sizeOf_selectArm {v : Val} {pt : Ppt} {x : Var} {cases : List (Nat × Exp)} {dflt : Option Exp} {e : Exp}
    (h : selectArm v cases dflt = some e) : sizeOf e < sizeOf (Exp.switch pt x cases dflt) := by
  refine Exp.sizeOf_kids ?_
  rw [kids, mem_append]
  induction cases with
  | nil =>
    right
    exact mem_toList.2 h
  | cons c cases ih =>
    grind [selectArm]

variable {name : Var → Var} {M : Machine}

theorem bindFBs_resolve (made : Var → Nat) (ρ : Bom.Env) (fbs : List Lambda) :
    bindFBs name made ρ (fbs.map (Lambda.resolve known)) = bindFBs name made ρ fbs := by
  grind [Lambda.f_resolve, bindFBs]

theorem bump_resolve (made : Var → Nat) (fbs : List Lambda) :
    bump name made (fbs.map (Lambda.resolve known)) = bump name made fbs := by
  have hf : (fbs.map (Lambda.resolve known)).map (fun fb => name fb.f) = fbs.map (fun fb => name fb.f) := by
    rw [List.map_map]
    exact List.map_congr_left fun fb _ => congrArg name (Lambda.f_resolve fb)
  unfold bump
  rw [hf]

theorem addClos_resolve (made : Var → Nat) (code : Handle → Option Clo) {mk mk' : Lambda → Clo} (fbs : List Lambda)
    (hmk : ∀ fb, mk' (Lambda.resolve known fb) = Clo.resolve known (mk fb)) :
    addClos name made (fun h => (code h).map (Clo.resolve known)) mk' (fbs.map (Lambda.resolve known)) =
      fun h => (addClos name made code mk fbs h).map (Clo.resolve known) := by
  funext h
  have hfind : (fbs.map (Lambda.resolve known)).find? (fun fb => name fb.f = h.name) =
      (fbs.find? (fun fb => name fb.f = h.name)).map (Lambda.resolve known) := by
    rw [List.find?_map]
    congr 2
    funext fb
    simp
  grind [addClos]

theorem make_resolve (s : State M) (ρ : Bom.Env) (fbs : List Lambda) {mk : Bom.Env → Lambda → Clo} (e : Exp)
    (hmk : ∀ ρ fb, mk ρ (Lambda.resolve known fb) = Clo.resolve known (mk ρ fb)) :
    State.make name (State.resolve known s) ρ (fbs.map (Lambda.resolve known)) mk (Exp.resolve known e) =
      State.resolve known (State.make name s ρ fbs mk e) := by
  simp only [State.make, State.resolve, Ctl.resolve, bindFBs_resolve, bump_resolve, addClos_resolve _ _ _ (hmk _)]

theorem applyVal_resolve (s : State M) (f : Val) (args rets : List Val) :
    applyVal (State.resolve known s) f args rets = (applyVal s f args rets).map (State.resolve known) := by
  cases f with
  | code h =>
    simp only [applyVal, State.resolve]
    cases s.code h with
    | none => rfl
    | some c =>
      cases c with
      | fun_ fb ρ =>
        simp only [map_some, Clo.resolve, Lambda.params_resolve, Lambda.rets_resolve, Lambda.body_resolve]
        cases ρ.bind fb.params args with
        | none => rfl
        | some ρ =>
          show (ρ.bind fb.rets rets).bind _ = map _ ((ρ.bind fb.rets rets).bind _)
          cases ρ.bind fb.rets rets <;> rfl
      | _ => rfl
  | _ => rfl

theorem moveRel_ofOption {o o' : Option (State M × Option M.E)}
    (h : o' = o.map fun r => (State.resolve known r.1, r.2)) :
    Transition.MoveRel (fun s' t' => t' = State.resolve known s') (ofOption o) (ofOption o') := by
  subst h
  cases o with
  | none => exact .wrong
  | some r => exact .next rfl

theorem stepEval_resolve (s : State M) (ρ : Bom.Env) (e : Exp)
    (he : ∀ pt x cases dflt, e = .switch pt x cases dflt → known x = none) :
    stepEval name (State.resolve known s) ρ (Exp.resolve known e) =
      (stepEval name s ρ e).map fun r => (State.resolve known r.1, r.2) := by
  cases e with
  | let_ pt lhs rhs e =>
    simp only [Exp.resolve, stepEval, State.resolve]
    cases rhs.mapM ρ with
    | none => rfl
    | some r =>
      show (evalRhs M r s.w).bind _ = map _ ((evalRhs M r s.w).bind _)
      cases evalRhs M r s.w with
      | none => rfl
      | some r' =>
        obtain ⟨vs, w, ev⟩ := r'
        show (ρ.bind lhs vs).bind _ = map _ ((ρ.bind lhs vs).bind _)
        cases ρ.bind lhs vs <;> rfl
  | fun_ pt fbs e =>
    simp only [Exp.resolve, stepEval, resolveFBs_eq, map_some]
    rw [make_resolve s ρ fbs e fun _ _ => rfl]
  | cont pt fb e =>
    simp only [Exp.resolve, stepEval, map_some]
    rw [← make_resolve s ρ [fb] e fun _ _ => rfl]
    rfl
  | if_ pt c e₁ e₂ =>
    simp only [Exp.resolve, stepEval, State.resolve]
    cases ρ.get c.args with
    | none => rfl
    | some vs =>
      show (M.evalCond c.op vs s.w).bind _ = map _ ((M.evalCond c.op vs s.w).bind _)
      cases M.evalCond c.op vs s.w with
      | none => rfl
      | some r =>
        obtain ⟨b, w, ev⟩ := r
        cases b <;> rfl
  | switch pt x cases dflt =>
    have hx := he pt x cases dflt rfl
    simp only [Exp.resolve, hx, stepEval]
    cases ρ x with
    | none => rfl
    | some v =>
      show (selectArm v (resolveCases known cases) (resolveDflt known dflt)).bind _ =
        map _ ((selectArm v cases dflt).bind _)
      rw [selectArm_resolve]
      cases selectArm v cases dflt <;> rfl
  | apply pt f args rets =>
    simp only [Exp.resolve, stepEval]
    cases ρ f with
    | none => rfl
    | some v =>
      show (ρ.get args).bind _ = map _ ((ρ.get args).bind _)
      cases ρ.get args with
      | none => rfl
      | some vs =>
        show (ρ.get rets).bind _ = map _ ((ρ.get rets).bind _)
        cases ρ.get rets with
        | none => rfl
        | some ks =>
          show (applyVal (State.resolve known s) v vs ks).bind _ = map _ ((applyVal s v vs ks).bind _)
          rw [applyVal_resolve]
          cases applyVal s v vs ks <;> rfl
  | throw pt k args =>
    simp only [Exp.resolve, stepEval]
    cases ρ k with
    | none => rfl
    | some v =>
      show (ρ.get args).bind _ = map _ ((ρ.get args).bind _)
      cases ρ.get args <;> rfl

/-- The switch on a variable with a known value that the state is at. -/
def AtKnown (known : Var → Option Bool) (s : State M) : Prop :=
  ∃ pt x cases dflt ρ b, s.ctl = .eval (.switch pt x cases dflt) ρ ∧ known x = some b

/-- Elsewhere, the module and the resolved one move together. -/
theorem step_resolve (s : State M) (hs : ¬ AtKnown known s) :
    Transition.MoveRel (fun s' t' => t' = State.resolve known s') (step name M s)
      (step name M (State.resolve known s)) := by
  cases hc : s.ctl with
  | eval e ρ =>
    have he : ∀ pt x cases dflt, e = .switch pt x cases dflt → known x = none := by
      intro pt x cases dflt he
      cases hx : known x with
      | none => rfl
      | some b => exact absurd ⟨pt, x, cases, dflt, ρ, b, he ▸ hc, hx⟩ hs
    have hc' : (State.resolve known s).ctl = .eval (Exp.resolve known e) ρ := by
      simp only [State.resolve, hc, Ctl.resolve]
    simp only [step, hc, hc']
    exact moveRel_ofOption (stepEval_resolve s ρ e he)
  | raise k vs =>
    cases k with
    | code h =>
      simp only [step, State.resolve, Ctl.resolve, hc]
      cases s.code h with
      | none => exact .wrong
      | some c =>
        cases c with
        | cont fb ρ =>
          refine moveRel_ofOption ?_
          simp only [Lambda.params_resolve, Lambda.body_resolve]
          cases ρ.bind fb.params vs <;> rfl
        | exit | halt => exact .halt _
        | fun_ fb ρ => exact .wrong
    | _ =>
      simp only [step, State.resolve, Ctl.resolve, hc]
      exact .wrong

theorem start_resolve (m : Module) (i : Bom.Input M) :
    (resolve known m).start name i = State.resolve known (m.start name i) := by
  have henv : (resolve known m).initEnv name i.args = m.initEnv name i.args := by
    funext x
    simp only [Module.initEnv, resolve, Lambda.params_resolve, Lambda.rets_resolve]
    rfl
  simp only [Module.start, State.resolve, Ctl.resolve, henv]
  simp only [resolve, Lambda.body_resolve, Lambda.rets_resolve]
  congr 1
  funext h
  by_cases hi : h.idx = 0
  · simp only [hi, if_true]
    cases m.body.rets.map name with
    | nil => rfl
    | cons k exhs =>
      simp only
      split
      · rfl
      · split <;> rfl
  · simp only [hi, if_false, map_none]

/-- At a switch, the resolved module already has the arm that the run takes. -/
theorem arm_resolve {s : State M} {pt : Ppt} {x : Var} {cases : List (Nat × Exp)} {dflt : Option Exp} {ρ : Bom.Env}
    {b : Bool} (hc : s.ctl = .eval (.switch pt x cases dflt) ρ) (hx : known x = some b)
    (hρ : ρ x = some (.lit (.enum (tagOf b)))) :
    (step name M s = .wrong ∧ step name M (State.resolve known s) = .wrong) ∨
      ∃ e, step name M s = .next { s with ctl := .eval e ρ } none ∧ sizeOf e < sizeOf (Exp.switch pt x cases dflt) ∧
        State.resolve known { s with ctl := .eval e ρ } = State.resolve known s := by
  have harm := @selectArm_resolve known (.lit (.enum (tagOf b))) cases dflt
  cases hsel : selectArm (.lit (.enum (tagOf b))) cases dflt with
  | none =>
    left
    rw [hsel, map_none] at harm
    have hstay : Exp.resolve known (.switch pt x cases dflt) =
        .switch 0 x (resolveCases known cases) (resolveDflt known dflt) := by
      rw [Exp.resolve]
      simp only [hx, harm, Option.getD_none]
    grind [step, stepEval, ofOption, State.resolve, Ctl.resolve]
  | some e =>
    right
    rw [hsel, map_some] at harm
    refine ⟨e, ?_, sizeOf_selectArm hsel, ?_⟩
    · simp only [step, hc, stepEval, hρ]
      grind [ofOption, tagOf]
    simp [Exp.resolve, hx, harm, State.resolve, Ctl.resolve, hc]

end

/-- The size of the expression that is evaluated. -/
noncomputable def sizeLeft {M : Machine} (s : State M) : Nat :=
  match s.ctl with
  | .eval e _ => sizeOf e
  | .raise _ _ => 0

open Transition in
/-- With sound values, resolving the known switches keeps the behaviour. -/
theorem resolve_same {name : Var → Var} {known : Var → Option Bool} {m : Module} (hsound : Sound name known m)
    (M : Machine) (i : Bom.Input M) :
    SameBehaviour (step name M) (step name M) (m.start name i) ((resolve known m).start name i) := by
  -- the first system is at a state that the module reaches
  have hstep : ∀ s t : State M,
      (t = State.resolve known s ∧ ∃ n es, Run (step name M) n (m.start name i) es s) →
      MoveRel (fun s t => t = State.resolve known s ∧ ∃ n es, Run (step name M) n (m.start name i) es s)
          (step name M s) (step name M t) ∨
        ∃ s', step name M s = .next s' none ∧
          (t = State.resolve known s' ∧ ∃ n es, Run (step name M) n (m.start name i) es s') ∧
          sizeLeft s' < sizeLeft s := by
    intro s t ht
    obtain ⟨rfl, n, es, hrun⟩ := ht
    by_cases hk : AtKnown known s
    · obtain ⟨pt, x, cases, dflt, ρ, b, hc, hx⟩ := hk
      have hρ := hsound M i n es s hrun pt x cases dflt ρ b hc hx
      rcases @arm_resolve _ name _ _ _ _ _ _ _ _ hc hx hρ with ⟨hs, ht⟩ | ⟨e, hs, hlt, hstay⟩
      · rw [hs, ht]
        exact .inl .wrong
      · refine .inr ⟨_, hs, ⟨hstay.symm, _, _, hrun.append (.one hs)⟩, ?_⟩
        simpa only [sizeLeft, hc] using hlt
    · left
      have h := @step_resolve _ name _ s hk
      cases hs : step name M s with
      | next s' e =>
        rw [hs] at h
        cases ht : step name M (State.resolve known s) with
        | next t' e' =>
          rw [ht] at h
          cases h with
          | next hR => exact .next ⟨hR, _, _, hrun.append (.one hs)⟩
        | halt | wrong => rw [ht] at h; cases h
      | halt r =>
        rw [hs] at h
        cases ht : step name M (State.resolve known s) <;> rw [ht] at h <;> cases h
        exact .halt r
      | wrong =>
        rw [hs] at h
        cases ht : step name M (State.resolve known s) <;> rw [ht] at h <;> cases h
        exact .wrong
  exact @same_of_lockstep _ _ _ _ _ _ _ (fun s _ => sizeLeft s) hstep _ _ ⟨start_resolve m i, 0, [], .refl _⟩

/-- Of nothing, every value is sound. -/
theorem sound_nothing (name : Var → Var) (m : Module) : Sound name nothing m := by
  intro M i n es s hrun pt x cases dflt ρ b hc hx
  cases hx

/-- Modules that are the same when resolved behave alike. -/
theorem same_of_isResolved {name : Var → Var} {cfa : Cfa} {m m' : Module} (hsound : Sound name (known cfa) m)
    (h : IsResolved cfa m' m) (M : Machine) (i : Bom.Input M) :
    Transition.SameBehaviour (step name M) (step name M) (m.start name i) (m'.start name i) := by
  have h₁ := resolve_same hsound M i
  have h₂ := resolve_same (sound_nothing name m') M i
  rw [h] at h₂
  exact h₁.trans h₂.symm

/-! ## The pass -/

/-- What the pass should do: it returns, every switch on a known variable has become the arm that a run
    takes, with the rest unchanged, and the module behaves as before. -/
def Correct (name : Var → Var) (boolFlg : Bool) (cfa : Cfa) (m : Module) (pt : Ppt) : Prop :=
  ∃ m' pt', transform cfa boolFlg m pt = some (m', pt') ∧ IsResolved cfa m' m ∧
    ∀ (M : Machine) (i : Bom.Input M),
      Transition.SameBehaviour (step name M) (step name M) (m.start name i) (m'.start name i)

theorem transform_eq (cfa : Cfa) (m : Module) (pt : Ppt) :
    transform cfa true m pt = (doExp cfa m.body.body pt).map fun r =>
      ({ m with body := .fb m.body.f m.body.params m.body.rets r.1 }, r.2) := by
  simp only [transform, if_true, gen_bind, gen_pure, doFB_eq]
  cases doExp cfa m.body.body pt <;> rfl

theorem isResolved_of_transform {cfa : Cfa} {m m' : Module} {pt pt' : Ppt}
    (h : transform cfa true m pt = some (m', pt')) : IsResolved cfa m' m := by
  simp only [transform, if_true, gen_bind, gen_pure, bind_eq_some_iff] at h
  grind [IsResolved, resolve, doFB_resolve]

/-- The pass does what it should exactly when every switch that it comes to, on a variable with a known
    value, has a label for the value; it raises otherwise, also where the switch has a default. -/
theorem transform_correct_iff {name : Var → Var} {boolFlg : Bool} {cfa : Cfa} {m : Module}
    (ha : Analysed name boolFlg cfa m) (pt : Ppt) : Correct name boolFlg cfa m pt ↔ Labelled cfa m := by
  cases boolFlg with
  | false =>
    have hknown := ha.off rfl
    refine iff_of_true ⟨m, pt, rfl, ?_, fun M i => .refl _ _⟩ fun pt x cases dflt b _ hx => ?_
    · rw [IsResolved, hknown]
    · rw [hknown] at hx
      cases hx
  | true =>
    constructor
    · intro h pt₁ x cases dflt b hv hx
      obtain ⟨m', pt', h, -, -⟩ := h
      rw [transform_eq] at h
      obtain ⟨r, hr, -⟩ := map_eq_some_iff.1 h
      have hdone : Done cfa m.body.body := ⟨pt, r, hr⟩
      exact (hdone.visits hv).label hx
    · intro hlab
      have hconts : ∀ pt fb e, .cont pt fb e ∈ m.body.body.subs → fb.rets = [] := by
        intro pt fb e he
        refine ha.conts pt fb e ?_
        rw [exps, Lambda.subs_eq]
        exact he
      obtain ⟨r, hr⟩ := doExp_returns hconts hlab pt
      have ht : transform cfa true m pt = some ({ m with body := .fb m.body.f m.body.params m.body.rets r.1 }, r.2) := by
        rw [transform_eq, hr, map_some]
      exact ⟨_, _, ht, isResolved_of_transform ht, same_of_isResolved ha.sound (isResolved_of_transform ht)⟩

/-! ### A constant that is tested -/

/-- `let x = true in case x of tag => throw k () | _ => throw k (x)`. -/
def tested (tag : Nat) : Module :=
  ⟨[], .fb ⟨0⟩ [] [⟨1⟩] (.let_ 0 [⟨2⟩] (.const (.enum 1) (.enum 1))
    (.switch 1 ⟨2⟩ [(tag, .throw 2 ⟨1⟩ [])] (some (.throw 3 ⟨1⟩ [⟨2⟩]))))⟩

/-- The analysis finds the constant. -/
def testedCfa : Cfa where
  valueOf := fun x => if x = ⟨2⟩ then .bool true else .top
  callersOf := fun _ => .unknown

/-- The states of a run of the module: it has no continuation of its own to throw to. -/
inductive TestedState {M : Machine} (tag : Nat) : State M → Prop
  | start {s : State M} (ρ : Bom.Env) : s.ctl = .eval (tested tag).body.body ρ →
      (∀ h fb ρ, s.code h ≠ some (.cont fb ρ)) → TestedState tag s
  | switch {s : State M} (ρ : Bom.Env) :
      s.ctl = .eval (.switch pt ⟨2⟩ [(tag, .throw 2 ⟨1⟩ [])] (some (.throw 3 ⟨1⟩ [⟨2⟩]))) ρ →
      ρ ⟨2⟩ = some (.lit (.enum 1)) → (∀ h fb ρ, s.code h ≠ some (.cont fb ρ)) → TestedState tag s
  | throw {s : State M} (pt : Ppt) (k : Var) (args : List Var) (ρ : Bom.Env) :
      s.ctl = .eval (.throw pt k args) ρ → (∀ h fb ρ, s.code h ≠ some (.cont fb ρ)) → TestedState tag s
  | raise {s : State M} (k : Val) (vs : List Val) : s.ctl = .raise k vs →
      (∀ h fb ρ, s.code h ≠ some (.cont fb ρ)) → TestedState tag s

theorem TestedState.next {M : Machine} {tag : Nat} {s s' : State M} {e : Option M.E} (h : TestedState tag s)
    (hs : step id M s = .next s' e) : TestedState tag s' := by
  cases h with
  | start ρ hc hcode =>
    simp only [step, hc] at hs
    cases hs
    exact .switch _ rfl (by simp [Bom.Env.set]) hcode
  | switch ρ hc hρ hcode =>
    simp only [step, hc, stepEval, hρ, Option.bind_eq_bind, bind_some] at hs
    by_cases ht : tag = 1
    · subst ht
      cases hs
      exact .throw _ _ _ _ rfl hcode
    · have harm : selectArm (.lit (.enum 1)) [(tag, .throw 2 ⟨1⟩ [])] (some (.throw 3 ⟨1⟩ [⟨2⟩])) =
          some (.throw 3 ⟨1⟩ [⟨2⟩]) := by
        rw [selectArm, if_neg (by simpa [isTag] using fun h : 1 = tag => ht h.symm)]
        rfl
      rw [harm] at hs
      cases hs
      exact .throw _ _ _ _ rfl hcode
  | throw pt k args ρ hc hcode =>
    simp only [step, hc, stepEval] at hs
    cases hk : ρ k with
    | none => rw [hk] at hs; cases hs
    | some v =>
      cases ha : ρ.get args with
      | none => rw [hk, ha] at hs; cases hs
      | some vs =>
        rw [hk, ha] at hs
        cases hs
        exact .raise _ _ rfl hcode
  | raise k vs hc hcode =>
    grind [step]

theorem TestedState.run {M : Machine} {tag n : Nat} {s s' : State M} {es : List M.E} (h : TestedState tag s)
    (hr : Transition.Run (step id M) n s es s') : TestedState tag s' := by
  induction hr with
  | refl => exact h
  | step hs _ ih => exact ih (h.next hs)

theorem tested_analysed (tag : Nat) : Analysed id true testedCfa (tested tag) := by
  refine ⟨?_, fun h => absurd h (by decide), ?_⟩
  · intro M i n es s hrun pt x cases dflt ρ b hc hx
    have hstart : TestedState tag ((tested tag).start id i : State M) := by
      refine .start _ rfl fun h fb ρ => ?_
      simp [tested, Module.start]
    have hs : TestedState tag s := hstart.run hrun
    cases hs with
    | switch ρ' hc' hρ hcode =>
      rw [hc'] at hc
      cases hc
      have hb : b = true := by simpa [known, testedCfa] using hx.symm
      rw [hb]
      exact hρ
    | _ => simp_all [tested]
  · intro pt fb e he
    simp [tested, exps, Lambda.subs, Exp.subs, subsCases, subsDflt] at he

theorem transform_correct_tested : Correct id true testedCfa (tested 1) 4 := by
  refine (transform_correct_iff (tested_analysed 1) 4).2 fun pt x cases dflt b hv hx => ?_
  cases hv with
  | kid hk hv =>
    rw [mem_singleton.1 hk] at hv
    cases hv with
    | refl =>
      have hb : b = true := by simpa [known, testedCfa] using hx.symm
      simp [hb, tagOf]
    | kid hk hv =>
      rw [mem_singleton.1 hk] at hv
      cases hv with
      | kid hk hv => exact absurd hk not_mem_nil

/-- A constant that has no label of its own takes the default; the pass raises `Match`. -/
theorem transform_raises : Analysed id true testedCfa (tested 0) ∧ transform testedCfa true (tested 0) 4 = none ∧
    ¬ Correct id true testedCfa (tested 0) 4 := by
  have hnone : transform testedCfa true (tested 0) 4 = none := rfl
  refine ⟨tested_analysed 0, hnone, fun h => ?_⟩
  obtain ⟨m', pt', h, -⟩ := h
  rw [hnone] at h
  cases h

end Manticore.CpsOpt.BranchElim
