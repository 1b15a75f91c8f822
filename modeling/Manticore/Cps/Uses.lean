/-
  Manticore.Cps.Uses — the uses of the variables of a CPS term and their counts
  (`cps-opt/census.sml`), its binders, and well-formed modules (`cps/check-cps.sml`).

  A use is the target of a call or a throw, or it is an argument. Induction over a term is
  by `Exp.induct`, with one case for each constructor.
-/

import Manticore.Cps.Syntax

namespace Manticore.Cps

open List (map_cons flatMap_cons mem_singleton mem_append mem_map mem_cons flatMap_assoc mem_flatMap)
open Exp (called subs)

/-- `CPSUtil.varsOfRHS`. -/
def Rhs.vars {V : Type} : Rhs V → List V
  | .const _ _ | .hostVProc => []
  | .cast _ x | .select _ x | .addrOf _ x | .promote x | .vpLoad _ x | .vpAddr _ x => [x]
  | .update _ x y | .vpStore _ x y => [x, y]
  | .var xs | .alloc _ xs | .prim _ xs => xs
  | .ccall f xs => f :: xs

/-- The arguments at the root of an expression: its variables but for the target of a call. -/
def Exp.argsHere : Exp → List Var
  | .let_ _ _ rhs _ => rhs.vars
  | .fun_ _ _ _ | .cont _ _ _ => []
  | .if_ _ c _ _ => c.args
  | .switch _ x _ _ => [x]
  | .apply _ _ args rets => args ++ rets
  | .throw _ _ args => args

/-- All variables at the root of an expression. -/
def Exp.usesHere (e : Exp) : List Var := e.called.toList ++ e.argsHere

/-- The binders of a lambda itself. -/
def Lambda.bindsHere (fb : Lambda) : List Var := fb.f :: (fb.params ++ fb.rets)

/-- The variables that the root of an expression binds. -/
def Exp.bindsHere : Exp → List Var
  | .let_ _ lhs _ _ => lhs
  | .fun_ _ fbs _ => fbs.flatMap Lambda.bindsHere
  | .cont _ fb _ => fb.bindsHere
  | _ => []

/-- All arguments of an expression. -/
def Exp.args (e : Exp) : List Var := e.subs.flatMap Exp.argsHere

/-- All uses in an expression. -/
def Exp.uses (e : Exp) : List Var := e.subs.flatMap Exp.usesHere

/-- The targets of calls and throws. -/
def Exp.calls (e : Exp) : List Var := e.subs.filterMap called

/-- The variables that an expression binds, once for each binding. -/
def Exp.binders (e : Exp) : List Var := e.subs.flatMap Exp.bindsHere

/-- The binders of the module. -/
def Module.binders (m : Module) : List Var := m.externs ++ (m.body.bindsHere ++ m.body.body.binders)

/-- The continuation that the root of an expression binds. -/
def Exp.contHere : Exp → List Var
  | .cont _ fb _ => [fb.f]
  | _ => []

/-- The continuations that are bound in an expression. -/
def Exp.contNames (e : Exp) : List Var := e.subs.flatMap Exp.contHere

/-- The variables of kind `VK_Cont`. -/
def Module.contNames (m : Module) : List Var := m.body.body.contNames

/-- The variables of kind `VK_Param`. -/
def Module.paramNames (m : Module) : List Var := m.lambdas.flatMap fun fb => fb.params ++ fb.rets

/-- `CV.useCount` and `CV.appCntOf`. -/
structure Counts where
  use : Var → Nat
  app : Var → Nat

/-- The counts are those of `CPSCensus.census`. -/
structure Counts.Accurate (cnt : Counts) (m : Module) : Prop where
  use : ∀ x, cnt.use x = m.body.body.calls.count x + m.body.body.args.count x
  app : ∀ x, cnt.app x = m.body.body.calls.count x

/-- The counts that `CPSCensus.census` makes. -/
def Module.census (m : Module) : Counts :=
  ⟨fun x => m.body.body.calls.count x + m.body.body.args.count x, fun x => m.body.body.calls.count x⟩

attribute [local simp] Exp.argsHere

theorem Module.census_accurate (m : Module) : m.census.Accurate m := ⟨fun _ => rfl, fun _ => rfl⟩

mutual

/-- Every variable that is used is in `Γ` or bound around the use; `isCont` are the variables that name
    continuations, which are not applied. -/
def Exp.Scoped (isCont : Var → Prop) (Γ : List Var) : Exp → Prop
  | .let_ _ lhs rhs e => rhs.vars ⊆ Γ ∧ e.Scoped isCont (lhs ++ Γ)
  | .fun_ _ fbs e => ScopedFBs isCont (fbs.map Lambda.f ++ Γ) fbs ∧ e.Scoped isCont (fbs.map Lambda.f ++ Γ)
  | .cont _ fb e => fb.Scoped isCont (fb.f :: Γ) ∧ e.Scoped isCont (fb.f :: Γ)
  | .if_ _ c e₁ e₂ => c.args ⊆ Γ ∧ e₁.Scoped isCont Γ ∧ e₂.Scoped isCont Γ
  | .switch _ x cases dflt => x ∈ Γ ∧ ScopedCases isCont Γ cases ∧ ScopedDflt isCont Γ dflt
  | .apply _ f args rets => f ∈ Γ ∧ ¬ isCont f ∧ args ⊆ Γ ∧ rets ⊆ Γ
  | .throw _ k args => k ∈ Γ ∧ args ⊆ Γ

def Lambda.Scoped (isCont : Var → Prop) (Γ : List Var) : Lambda → Prop
  | .fb _ params rets body => body.Scoped isCont (params ++ (rets ++ Γ))

def ScopedFBs (isCont : Var → Prop) (Γ : List Var) : List Lambda → Prop
  | [] => True
  | fb :: fbs => fb.Scoped isCont Γ ∧ ScopedFBs isCont Γ fbs

def ScopedCases (isCont : Var → Prop) (Γ : List Var) : List (Nat × Exp) → Prop
  | [] => True
  | (_, e) :: cases => e.Scoped isCont Γ ∧ ScopedCases isCont Γ cases

def ScopedDflt (isCont : Var → Prop) (Γ : List Var) : Option Exp → Prop
  | none => True
  | some e => e.Scoped isCont Γ

end

/-- Every variable is bound once, and bound where it is used; continuations are not applied. -/
structure Module.WellFormed (m : Module) : Prop where
  inScope : m.body.Scoped (· ∈ m.contNames) (m.body.f :: m.externs)
  unique : m.binders.Nodup

/-! ## Induction -/

/-- The expressions right below an expression. -/
def Exp.kids : Exp → List Exp
  | .let_ _ _ _ e => [e]
  | .fun_ _ fbs e => fbs.map Lambda.body ++ [e]
  | .cont _ fb e => [fb.body, e]
  | .if_ _ _ e₁ e₂ => [e₁, e₂]
  | .switch _ _ cases dflt => cases.map (·.2) ++ dflt.toList
  | .apply _ _ _ _ | .throw _ _ _ => []

theorem Lambda.subs_eq (fb : Lambda) : fb.subs = fb.body.subs := by
  cases fb
  rfl

theorem subsFBs_eq (fbs : List Lambda) : subsFBs fbs = (fbs.map Lambda.body).flatMap subs := by
  induction fbs with
  | nil => rfl
  | cons fb fbs ih => rw [subsFBs, ih, fb.subs_eq, map_cons, flatMap_cons]

theorem subsCases_eq (cases : List (Nat × Exp)) : subsCases cases = (cases.map (·.2)).flatMap subs := by
  induction cases with
  | nil => rfl
  | cons c cases ih => rw [subsCases, ih, map_cons, flatMap_cons]

theorem subsDflt_eq (dflt : Option Exp) : subsDflt dflt = dflt.toList.flatMap subs := by
  cases dflt <;> simp [subsDflt]

theorem Exp.subs_eq (e : Exp) : e.subs = e :: e.kids.flatMap subs := by
  cases e <;> simp [subs, Exp.kids, subsFBs_eq, subsCases_eq, subsDflt_eq, Lambda.subs_eq]

theorem Exp.sizeOf_kids {e e' : Exp} (h : e' ∈ e.kids) : sizeOf e' < sizeOf e := by
  have hbody : ∀ fb : Lambda, sizeOf fb.body < sizeOf fb := by
    intro fb
    cases fb with
    | fb f ps rs body =>
      rw [Lambda.body_fb, Lambda.fb.sizeOf_spec]
      omega
  cases e with
  | let_ pt lhs rhs e =>
    rw [Exp.kids, mem_singleton] at h
    rw [h, Exp.let_.sizeOf_spec]
    omega
  | fun_ pt fbs e =>
    rw [Exp.kids, mem_append, mem_singleton] at h
    rw [Exp.fun_.sizeOf_spec]
    rcases h with h | h
    · obtain ⟨fb, hfb, rfl⟩ := mem_map.1 h
      have := hbody fb
      have := List.sizeOf_lt_of_mem hfb
      omega
    · rw [h]
      omega
  | cont pt fb e =>
    rw [Exp.kids, mem_cons, mem_singleton] at h
    rw [Exp.cont.sizeOf_spec]
    grind
  | if_ pt c e₁ e₂ =>
    rw [Exp.kids, mem_cons, mem_singleton] at h
    rw [Exp.if_.sizeOf_spec]
    rcases h with h | h <;> rw [h] <;> omega
  | switch pt x cases dflt =>
    rw [Exp.kids, mem_append] at h
    rw [Exp.switch.sizeOf_spec]
    rcases h with h | h
    · obtain ⟨c, hc, rfl⟩ := mem_map.1 h
      have := List.sizeOf_lt_of_mem hc
      grind
    grind
  | apply pt f xs rs => cases h
  | throw pt k xs => cases h

theorem Exp.induct {P : Exp → Prop} (h : ∀ e : Exp, (∀ e' ∈ e.kids, P e') → P e) (e : Exp) : P e :=
  h e fun e' _ => Exp.induct h e'
termination_by sizeOf e
decreasing_by exact Exp.sizeOf_kids (by assumption)

section

variable {e : Exp}

theorem Exp.args_eq : e.args = e.argsHere ++ e.kids.flatMap Exp.args := by
  unfold Exp.args
  rw [Exp.subs_eq e, flatMap_cons, flatMap_assoc]

theorem Exp.uses_eq : e.uses = e.usesHere ++ e.kids.flatMap Exp.uses := by
  unfold Exp.uses
  rw [Exp.subs_eq e, flatMap_cons, flatMap_assoc]

theorem Exp.binders_eq : e.binders = e.bindsHere ++ e.kids.flatMap Exp.binders := by
  unfold Exp.binders
  rw [Exp.subs_eq e, flatMap_cons, flatMap_assoc]

theorem Exp.contNames_eq : e.contNames = e.contHere ++ e.kids.flatMap Exp.contNames := by
  unfold Exp.contNames
  rw [Exp.subs_eq e, flatMap_cons, flatMap_assoc]

theorem Exp.mem_binders_of_contNames {x : Var} (h : x ∈ e.contNames) : x ∈ e.binders := by
  obtain ⟨e', he', hx⟩ := mem_flatMap.1 h
  refine mem_flatMap.2 ⟨e', he', ?_⟩
  cases e' with
  | cont pt fb e =>
    rw [Exp.contHere, mem_singleton] at hx
    rw [hx]
    exact List.mem_cons_self
  | _ => cases hx

theorem Exp.mem_uses_of_args {x : Var} (h : x ∈ e.args) : x ∈ e.uses := by
  obtain ⟨e', he', hx⟩ := mem_flatMap.1 h
  exact mem_flatMap.2 ⟨e', he', List.mem_append_right _ hx⟩

end

/-! ## Well-formed expressions -/

/-- A well-formed expression in the scope of `Γ`. -/
structure Exp.WF (isCont : Var → Prop) (Γ : List Var) (e : Exp) : Prop where
  inScope : e.Scoped isCont Γ
  nodup : e.binders.Nodup
  fresh : ∀ x ∈ e.binders, x ∉ Γ

variable {isCont : Var → Prop} {Γ : List Var} {e : Exp}

theorem scopedFBs_iff {fbs : List Lambda} : ScopedFBs isCont Γ fbs ↔ ∀ fb ∈ fbs, fb.Scoped isCont Γ := by
  induction fbs with
  | nil => simp [ScopedFBs]
  | cons fb fbs ih => simp [ScopedFBs, ih]

theorem scopedCases_iff {cases : List (Nat × Exp)} :
    ScopedCases isCont Γ cases ↔ ∀ c ∈ cases, c.2.Scoped isCont Γ := by
  induction cases with
  | nil => simp [ScopedCases]
  | cons c cases ih => simp [ScopedCases, ih]

theorem Lambda.scoped_iff {fb : Lambda} :
    fb.Scoped isCont Γ ↔ fb.body.Scoped isCont (fb.params ++ (fb.rets ++ Γ)) := by
  cases fb
  rfl

/-- What is below a well-scoped expression is so in a scope with some of the binders of its root. -/
theorem Exp.Scoped.kid {e' : Exp} (h : e.Scoped isCont Γ) (he : e' ∈ e.kids) :
    ∃ Γ', e'.Scoped isCont Γ' ∧ Γ ⊆ Γ' ∧ ∀ x ∈ Γ', x ∈ Γ ∨ x ∈ e.bindsHere := by
  cases e with
  | let_ pt lhs rhs e =>
    rw [Exp.kids, mem_singleton] at he
    rw [Exp.Scoped] at h
    refine ⟨_, he ▸ h.2, List.subset_append_right _ _, fun x hx => ?_⟩
    exact (mem_append.1 hx).symm
  | fun_ pt fbs e =>
    rw [Exp.kids, mem_append, mem_singleton] at he
    rw [Exp.Scoped, scopedFBs_iff] at h
    have hname : ∀ x ∈ fbs.map Lambda.f, x ∈ (Exp.fun_ pt fbs e).bindsHere := by
      intro x hx
      obtain ⟨fb, hfb, rfl⟩ := mem_map.1 hx
      exact mem_flatMap.2 ⟨fb, hfb, List.mem_cons_self⟩
    rcases he with he | he
    · obtain ⟨fb, hfb, rfl⟩ := mem_map.1 he
      refine ⟨_, Lambda.scoped_iff.1 (h.1 fb hfb), fun x hx => by simp [hx], fun x hx => ?_⟩
      rw [mem_append, mem_append, mem_append] at hx
      rcases hx with hx | hx | hx | hx
      · exact Or.inr (mem_flatMap.2 ⟨fb, hfb, by simp [Lambda.bindsHere, hx]⟩)
      · exact Or.inr (mem_flatMap.2 ⟨fb, hfb, by simp [Lambda.bindsHere, hx]⟩)
      · exact Or.inr (hname x hx)
      · exact Or.inl hx
    grind
  | cont pt fb e =>
    rw [Exp.kids, mem_cons, mem_singleton] at he
    rw [Exp.Scoped] at h
    rcases he with he | he
    · refine ⟨_, he ▸ Lambda.scoped_iff.1 h.1, fun x hx => by simp [hx], fun x hx => ?_⟩
      rw [mem_append, mem_append, mem_cons] at hx
      show _ ∨ x ∈ fb.bindsHere
      grind [Lambda.bindsHere]
    · refine ⟨_, he ▸ h.2, List.subset_cons_self _ _, fun x hx => ?_⟩
      show _ ∨ x ∈ fb.bindsHere
      grind [Lambda.bindsHere]
  | if_ pt c e₁ e₂ =>
    rw [Exp.kids, mem_cons, mem_singleton] at he
    rw [Exp.Scoped] at h
    grind
  | switch pt y cases dflt =>
    rw [Exp.kids, mem_append] at he
    rw [Exp.Scoped, scopedCases_iff] at h
    rcases he with he | he
    · grind
    · cases dflt with
      | none => cases he
      | some d =>
        rw [Option.toList_some, mem_singleton] at he
        exact ⟨Γ, he ▸ h.2.2, List.Subset.refl _, fun _ => Or.inl⟩
  | apply | throw => cases he

theorem Exp.WF.kid {e' : Exp} (h : e.WF isCont Γ) (he : e' ∈ e.kids) :
    ∃ Γ', e'.WF isCont Γ' ∧ Γ ⊆ Γ' ∧ ∀ x ∈ Γ', x ∈ Γ ∨ x ∈ e.bindsHere := by
  obtain ⟨Γ', hs, hsub, hΓ'⟩ := h.inScope.kid he
  have hn := h.nodup
  rw [Exp.binders_eq, List.nodup_append] at hn
  refine ⟨Γ', ⟨hs, (List.nodup_flatMap.1 hn.2.1).1 e' he, fun x hx hΓ => ?_⟩, hsub, hΓ'⟩
  have hx' : x ∈ e.kids.flatMap Exp.binders := mem_flatMap.2 ⟨e', he, hx⟩
  rcases hΓ' x hΓ with h' | h'
  · refine h.fresh x ?_ h'
    rw [Exp.binders_eq]
    exact List.mem_append_right _ hx'
  · exact hn.2.2 x h' x hx' rfl

/-- A variable that is used is in scope, or bound inside. -/
theorem Exp.Scoped.uses : ∀ {Γ : List Var}, e.Scoped isCont Γ → ∀ x ∈ e.uses, x ∈ Γ ∨ x ∈ e.binders := by
  induction e using Exp.induct with
  | h e ih =>
    intro Γ h x hx
    rw [Exp.uses_eq, mem_append] at hx
    rcases hx with hx | hx
    · left
      cases e with
      | let_ | if_ =>
        rw [Exp.Scoped] at h
        exact h.1 hx
      | fun_ | cont => cases hx
      | switch pt y cases dflt =>
        rw [Exp.Scoped] at h
        have hxy : x = y := mem_singleton.1 hx
        rw [hxy]
        exact h.1
      | apply pt f xs rs =>
        rw [Exp.Scoped] at h
        rcases mem_append.1 hx with hx | hx
        · rw [show x = f by simpa [called] using hx]
          exact h.1
        · rcases mem_append.1 hx with hx | hx
          · exact h.2.2.1 hx
          · exact h.2.2.2 hx
      | throw pt k xs =>
        rw [Exp.Scoped] at h
        rcases mem_append.1 hx with hx | hx
        · rw [show x = k by simpa [called] using hx]
          exact h.1
        · exact h.2 hx
    · obtain ⟨e', he', hx⟩ := mem_flatMap.1 hx
      obtain ⟨Γ', hs, _, hΓ'⟩ := h.kid he'
      rw [Exp.binders_eq, mem_append]
      grind

end Manticore.Cps
