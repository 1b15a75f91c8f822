/-
  Manticore.Bom.Scope — what scoping says about occurrences: a well-scoped expression
  mentions only variables of its context and variables it binds.
-/

import Manticore.Bom.Syntax

namespace Manticore.Bom

open Lambda (binders f_fb)
open Exp (occs)

theorem name_mem_bindersFBs {fb : Lambda} : ∀ {fbs : List Lambda}, fb ∈ fbs → fb.f ∈ bindersFBs fbs
  | .fb _ _ _ _ :: fbs, h => by
    have ih := @name_mem_bindersFBs fb fbs
    grind [bindersFBs, binders, Lambda.f]

theorem map_f_subset (fbs : List Lambda) : fbs.map Lambda.f ⊆ bindersFBs fbs := by
  grind [name_mem_bindersFBs]

mutual

theorem Exp.mem_of_occs {Γ : List Var} {x : Var} :
    ∀ {e : Exp}, e.Scoped Γ → x ∈ e.occs → x ∈ Γ ∨ x ∈ e.binders
  | .let_ lhs rhs e, ⟨h₁, h₂⟩, hx => by
    have i₁ := Exp.mem_of_occs (x := x) h₁
    have i₂ := Exp.mem_of_occs (x := x) h₂
    grind [occs, Exp.binders]
  | .stmt lhs rhs e, ⟨h₁, h₂⟩, hx => by
    have i₂ := Exp.mem_of_occs (x := x) h₂
    grind [occs, Exp.binders]
  | .fun_ fbs e, ⟨h₁, h₂⟩, hx => by
    have i₁ := mem_of_occsFBs (x := x) h₁
    have i₂ := Exp.mem_of_occs (x := x) h₂
    have names := @map_f_subset fbs x
    grind [occs, Exp.binders]
  | .cont (.fb f ps xs body) e, ⟨h₁, h₂⟩, hx => by
    have i₁ := Lambda.mem_of_occs (x := x) h₁
    have i₂ := Exp.mem_of_occs (x := x) h₂
    grind [occs, Exp.binders, binders, Lambda.f]
  | .if_ c e₁ e₂, ⟨h, h₁, h₂⟩, hx => by
    have i₁ := Exp.mem_of_occs (x := x) h₁
    have i₂ := Exp.mem_of_occs (x := x) h₂
    grind [occs, Exp.binders]
  | .case_ y cases dflt, ⟨h, h₁, h₂⟩, hx => by
    have i₁ := mem_of_occsCases (x := x) h₁
    have i₂ := mem_of_occsDflt (x := x) h₂
    grind [occs, Exp.binders]
  | .apply f args rets, ⟨h₁, h₂, h₃⟩, hx => by grind [occs]
  | .throw k args, ⟨h₁, h₂⟩, hx => by grind [occs]
  | .ret xs, h, hx => .inl (h hx)
  | .hlop op args rets, ⟨h₁, h₂⟩, hx => by grind [occs]

theorem Lambda.mem_of_occs {Γ : List Var} {x : Var} :
    ∀ {fb : Lambda}, fb.Scoped Γ → x ∈ fb.occs → x ∈ Γ ∨ x ∈ fb.binders
  | .fb f params exh body, h, hx => by
    have i := Exp.mem_of_occs (x := x) h hx
    grind [binders]

theorem mem_of_occsFBs {Γ : List Var} {x : Var} :
    ∀ {fbs : List Lambda}, ScopedFBs Γ fbs → x ∈ occsFBs fbs → x ∈ Γ ∨ x ∈ bindersFBs fbs
  | [], _, hx => by simp [occsFBs] at hx
  | fb :: fbs, ⟨h₁, h₂⟩, hx => by
    have i₁ := Lambda.mem_of_occs (x := x) h₁
    have i₂ := mem_of_occsFBs (x := x) h₂
    grind [occsFBs, bindersFBs]

theorem mem_of_occsCases {Γ : List Var} {x : Var} :
    ∀ {cases : List (Pat × Exp)}, ScopedCases Γ cases → x ∈ occsCases cases → x ∈ Γ ∨ x ∈ bindersCases cases
  | [], _, hx => by simp [occsCases] at hx
  | (p, e) :: cases, ⟨h₁, h₂⟩, hx => by
    have i₁ := Exp.mem_of_occs (x := x) h₁
    have i₂ := mem_of_occsCases (x := x) h₂
    grind [occsCases, bindersCases]

theorem mem_of_occsDflt {Γ : List Var} {x : Var} :
    ∀ {dflt : Option Exp}, ScopedDflt Γ dflt → x ∈ occsDflt dflt → x ∈ Γ ∨ x ∈ bindersDflt dflt
  | none, _, hx => by simp [occsDflt] at hx
  | some e, h, hx => Exp.mem_of_occs (x := x) (e := e) h hx

end

/-- A name bound in an expression is not mentioned in a well-scoped neighbour that neither
    binds it nor has it in its context. -/
theorem Exp.not_mem_occs {Γ : List Var} {x : Var} {e : Exp} (h : e.Scoped Γ) (hΓ : x ∉ Γ) (hb : x ∉ e.binders) :
    x ∉ e.occs := fun hx => (Exp.mem_of_occs h hx).elim hΓ hb

/-- The binders of a group other than its names. -/
def innerFB : Lambda → List Var
  | .fb _ params exh body => params ++ (exh ++ body.binders)

def innerFBs : List Lambda → List Var
  | [] => []
  | fb :: fbs => innerFB fb ++ innerFBs fbs

theorem bindersFBs_perm : ∀ fbs : List Lambda, (bindersFBs fbs).Perm (fbs.map Lambda.f ++ innerFBs fbs)
  | [] => .nil
  | .fb f params exh body :: fbs => by
    have ih := bindersFBs_perm fbs
    rw [List.perm_iff_count] at ih ⊢
    intro x
    have := ih x
    simp only [bindersFBs, binders, innerFBs, innerFB, List.map_cons, f_fb, List.count_append,
      List.count_cons, List.cons_append] at this ⊢
    omega

theorem mem_bindersFBs {x : Var} {fbs : List Lambda} :
    x ∈ bindersFBs fbs ↔ x ∈ fbs.map Lambda.f ∨ x ∈ innerFBs fbs := by
  rw [(bindersFBs_perm fbs).mem_iff, List.mem_append]

theorem nodup_bindersFBs {fbs : List Lambda} :
    (bindersFBs fbs).Nodup ↔ (fbs.map Lambda.f ++ innerFBs fbs).Nodup := (bindersFBs_perm fbs).nodup_iff

theorem Lambda.binders_eq (fb : Lambda) : fb.binders = fb.f :: innerFB fb := by
  cases fb
  rfl

theorem not_mem_occs_inner {Γ : List Var} {x : Var} {fb : Lambda} (h : fb.Scoped Γ) (hΓ : x ∉ Γ)
    (hb : x ∉ innerFB fb) : x ∉ fb.occs := by
  cases fb with
  | fb f params exh body =>
    simp only [innerFB, List.mem_append, not_or] at hb
    exact Exp.not_mem_occs h (by simp [hΓ, hb]) hb.2.2

theorem not_mem_occsFBs_inner {Γ : List Var} {x : Var} (hΓ : x ∉ Γ) :
    ∀ {fbs : List Lambda}, ScopedFBs Γ fbs → x ∉ innerFBs fbs → x ∉ occsFBs fbs
  | [], _, _ => List.not_mem_nil
  | fb :: fbs, ⟨h₁, h₂⟩, hb => by
    simp only [innerFBs, occsFBs, List.mem_append, not_or] at hb ⊢
    exact ⟨not_mem_occs_inner h₁ hΓ hb.1, not_mem_occsFBs_inner hΓ h₂ hb.2⟩

end Manticore.Bom
