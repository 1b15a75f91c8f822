/-
  Manticore.BomOpt.DeadFunsProofs — when dead-function elimination is safe.

  Deleting a nested dead group lowers use counts that the counters of the enclosing groups have
  been compared with, so a group with uses left outside can pass the test (`isDead`). The
  pass is safe exactly when, wherever a group outside removed code passes the test, the uses
  of its members deleted inside its own bodies are no more than the uses the walk did not count
  there or dropped from the scope (`BalancedExp`).

  Proved:
  - `balanced_iff`: balanced expressions are those whose removed names are not used any more;
  - `prune_scoped`, `same_prune`: the result is then well scoped and runs in step with the
    original, which only makes the removed groups besides;
  - `sound_iff_balanced`: the pass is sound on a module exactly when its counts are balanced.
-/

import Manticore.Bom.Agree
import Manticore.BomOpt.DeadFunsCounts

namespace Manticore.Bom.DeadFuns

open Transition
open List (nil_subset append_subset mem_append cons_subset mem_cons count_pos_iff count_append nodup_append Subset
  nodup_cons Forall₂ find?)
open Exp (binders occs not_mem_occs)

variable {K : List Var}

mutual

/-- The names of the groups the pass removes, those inside removed code left out. -/
def removed (u : Var → Int) : Exp → List Var
  | .let_ _ e₁ e₂ => removed u e₁ ++ removed u e₂
  | .stmt _ _ e => removed u e
  | .fun_ fbs e =>
    if deadGroup u ((prune u e).2 ++ (pruneFBs u fbs).2) (countedFBs fbs) fbs then fbs.map Lambda.f ++ removed u e
    else removedFBs u fbs ++ removed u e
  | .cont fb e =>
    if deadGroup u (pruneFB u fb).2 (countedFB fb) [fb] then fb.f :: removed u e
    else removedFB u fb ++ removed u e
  | .if_ _ e₁ e₂ => removed u e₁ ++ removed u e₂
  | .case_ _ cases dflt => removedCases u cases ++ removedDflt u dflt
  | .apply _ _ _ | .throw _ _ | .ret _ | .hlop _ _ _ => []

def removedFB (u : Var → Int) : Lambda → List Var
  | .fb _ _ _ body => removed u body

def removedFBs (u : Var → Int) : List Lambda → List Var
  | [] => []
  | fb :: fbs => removedFB u fb ++ removedFBs u fbs

def removedCases (u : Var → Int) : List (Pat × Exp) → List Var
  | [] => []
  | (_, e) :: cases => removed u e ++ removedCases u cases

def removedDflt (u : Var → Int) : Option Exp → List Var
  | none => []
  | some e => removed u e

end

/-- The uses of `f` in the bodies of a group that the walk does not count. -/
def uncounted (fbs : List Lambda) (f : Var) : Nat := (occsFBs fbs).count f - (countedFBs fbs).count f

mutual

/-- Where a group passes the test, the uses of a member deleted inside the bodies are no more than
    those not counted there or dropped from the scope. Removed bodies are not looked at. -/
def BalancedExp (u : Var → Int) : Exp → Prop
  | .let_ _ e₁ e₂ => BalancedExp u e₁ ∧ BalancedExp u e₂
  | .stmt _ _ e => BalancedExp u e
  | .fun_ fbs e => BalancedExp u e ∧
    if deadGroup u ((prune u e).2 ++ (pruneFBs u fbs).2) (countedFBs fbs) fbs then
      -- the deletions in the scope precede the test, so only lost uses help
      ∀ f ∈ fbs.map Lambda.f, (pruneFBs u fbs).2.count f ≤ uncounted fbs f + (lost u e).count f
    else BalancedFBs u fbs
  | .cont fb e => BalancedExp u e ∧
    if deadGroup u (pruneFB u fb).2 (countedFB fb) [fb] then
      (pruneFB u fb).2.count fb.f ≤ uncounted [fb] fb.f + ((prune u e).2.count fb.f + (lost u e).count fb.f)
    else BalancedFB u fb
  | .if_ _ e₁ e₂ => BalancedExp u e₁ ∧ BalancedExp u e₂
  | .case_ _ cases dflt => BalancedCases u cases ∧ BalancedDflt u dflt
  | .apply _ _ _ | .throw _ _ | .ret _ | .hlop _ _ _ => True

def BalancedFB (u : Var → Int) : Lambda → Prop
  | .fb _ _ _ body => BalancedExp u body

def BalancedFBs (u : Var → Int) : List Lambda → Prop
  | [] => True
  | fb :: fbs => BalancedFB u fb ∧ BalancedFBs u fbs

def BalancedCases (u : Var → Int) : List (Pat × Exp) → Prop
  | [] => True
  | (_, e) :: cases => BalancedExp u e ∧ BalancedCases u cases

def BalancedDflt (u : Var → Int) : Option Exp → Prop
  | none => True
  | some e => BalancedExp u e

end

/-! ## Removed names -/

mutual

theorem removed_subset (u : Var → Int) : ∀ e : Exp, removed u e ⊆ e.binders
  | .let_ xs e₁ e₂ => by
    have i₁ := removed_subset u e₁
    have i₂ := removed_subset u e₂
    grind [removed, binders]
  | .stmt xs rhs e => by
    have i := removed_subset u e
    grind [removed, binders]
  | .fun_ fbs e => by
    have i₁ := removedFBs_subset u fbs
    have i₂ := removed_subset u e
    have mem := fun x => @mem_bindersFBs x fbs
    grind [removed, binders]
  | .cont fb e => by
    have i₁ := removedFB_subset u fb
    have i₂ := removed_subset u e
    have names := fb.binders_eq
    grind [removed, binders]
  | .if_ c e₁ e₂ => by
    have i₁ := removed_subset u e₁
    have i₂ := removed_subset u e₂
    grind [removed, binders]
  | .case_ y cases dflt => by
    have i₁ := removedCases_subset u cases
    have i₂ := removedDflt_subset u dflt
    grind [removed, binders]
  | .apply f xs ys => nil_subset _
  | .throw k xs => nil_subset _
  | .ret xs => nil_subset _
  | .hlop op xs ys => nil_subset _

theorem removedFB_subset (u : Var → Int) : ∀ fb : Lambda, removedFB u fb ⊆ innerFB fb
  | .fb _ params exh body => by
    have i := removed_subset u body
    grind [removedFB, innerFB]

theorem removedFBs_subset (u : Var → Int) : ∀ fbs : List Lambda, removedFBs u fbs ⊆ innerFBs fbs
  | [] => nil_subset _
  | fb :: fbs => by
    have i₁ := removedFB_subset u fb
    have i₂ := removedFBs_subset u fbs
    grind [removedFBs, innerFBs]

theorem removedCases_subset (u : Var → Int) : ∀ cases : List (Pat × Exp), removedCases u cases ⊆ bindersCases cases
  | [] => nil_subset _
  | (p, e) :: cases => by
    have i₁ := removed_subset u e
    have i₂ := removedCases_subset u cases
    grind [removedCases, bindersCases]

theorem removedDflt_subset (u : Var → Int) : ∀ dflt : Option Exp, removedDflt u dflt ⊆ bindersDflt dflt
  | none => nil_subset _
  | some e => removed_subset u e

end

/-- What a set of removed names has to satisfy at an expression: it has the names removed there, and
    none of them is used in what is kept. -/
structure Fits (u : Var → Int) (K : List Var) (e : Exp) : Prop where
  removed : removed u e ⊆ K
  unused : ∀ x ∈ (prune u e).1.occs, x ∉ K

structure FitsFB (u : Var → Int) (K : List Var) (fb : Lambda) : Prop where
  removed : removedFB u fb ⊆ K
  unused : ∀ x ∈ (pruneFB u fb).1.occs, x ∉ K

structure FitsFBs (u : Var → Int) (K : List Var) (fbs : List Lambda) : Prop where
  removed : removedFBs u fbs ⊆ K
  unused : ∀ x ∈ occsFBs (pruneFBs u fbs).1, x ∉ K

structure FitsCases (u : Var → Int) (K : List Var) (cases : List (Pat × Exp)) : Prop where
  removed : removedCases u cases ⊆ K
  unused : ∀ x ∈ occsCases (pruneCases u cases).1, x ∉ K

structure FitsDflt (u : Var → Int) (K : List Var) (dflt : Option Exp) : Prop where
  removed : removedDflt u dflt ⊆ K
  unused : ∀ x ∈ occsDflt (pruneDflt u dflt).1, x ∉ K

section

variable {u : Var → Int} {K : List Var}

theorem Fits.let_ {xs : List Var} {e₁ e₂ : Exp} (h : Fits u K (.let_ xs e₁ e₂)) : Fits u K e₁ ∧ Fits u K e₂ := by
  obtain ⟨hr, hu⟩ := h
  simp only [DeadFuns.removed, prune, occs, append_subset, mem_append] at hr hu
  exact ⟨⟨hr.1, fun x hx => hu x (.inl hx)⟩, ⟨hr.2, fun x hx => hu x (.inr hx)⟩⟩

theorem Fits.stmt {xs : List Var} {r : Rhs Var} {e : Exp} (h : Fits u K (.stmt xs r e)) :
    (∀ x ∈ r.vars, x ∉ K) ∧ Fits u K e := by
  obtain ⟨hr, hu⟩ := h
  simp only [DeadFuns.removed, prune, occs, mem_append] at hr hu
  exact ⟨fun x hx => hu x (.inl hx), ⟨hr, fun x hx => hu x (.inr hx)⟩⟩

theorem Fits.fun_ {fbs : List Lambda} {e : Exp} (h : Fits u K (.fun_ fbs e)) : Fits u K e ∧
    if deadGroup u ((prune u e).2 ++ (pruneFBs u fbs).2) (countedFBs fbs) fbs then fbs.map Lambda.f ⊆ K
    else FitsFBs u K fbs := by
  obtain ⟨hr, hu⟩ := h
  rw [DeadFuns.removed] at hr
  rw [prune] at hu
  split at hr
  · rename_i hdead
    rw [if_pos hdead] at hu ⊢
    rw [append_subset] at hr
    exact ⟨⟨hr.2, hu⟩, hr.1⟩
  · rename_i hlive
    rw [if_neg hlive] at hu ⊢
    rw [append_subset] at hr
    simp only [occs, mem_append] at hu
    exact ⟨⟨hr.2, fun x hx => hu x (.inr hx)⟩, ⟨hr.1, fun x hx => hu x (.inl hx)⟩⟩

theorem Fits.cont {fb : Lambda} {e : Exp} (h : Fits u K (.cont fb e)) : Fits u K e ∧
    if deadGroup u (pruneFB u fb).2 (countedFB fb) [fb] then fb.f ∈ K else FitsFB u K fb := by
  obtain ⟨hr, hu⟩ := h
  rw [DeadFuns.removed] at hr
  rw [prune] at hu
  split at hr
  · rename_i hdead
    rw [if_pos hdead] at hu ⊢
    rw [cons_subset] at hr
    exact ⟨⟨hr.2, hu⟩, hr.1⟩
  · rename_i hlive
    rw [if_neg hlive] at hu ⊢
    rw [append_subset] at hr
    simp only [occs, mem_append] at hu
    exact ⟨⟨hr.2, fun x hx => hu x (.inr hx)⟩, ⟨hr.1, fun x hx => hu x (.inl hx)⟩⟩

theorem Fits.if_ {c : Cond Var} {e₁ e₂ : Exp} (h : Fits u K (.if_ c e₁ e₂)) :
    (∀ x ∈ c.args, x ∉ K) ∧ Fits u K e₁ ∧ Fits u K e₂ := by
  obtain ⟨hr, hu⟩ := h
  simp only [DeadFuns.removed, prune, occs, append_subset, mem_append] at hr hu
  exact ⟨fun x hx => hu x (.inl hx), ⟨hr.1, fun x hx => hu x (.inr (.inl hx))⟩,
    ⟨hr.2, fun x hx => hu x (.inr (.inr hx))⟩⟩

theorem Fits.case_ {y : Var} {cases : List (Pat × Exp)} {dflt : Option Exp} (h : Fits u K (.case_ y cases dflt)) :
    y ∉ K ∧ FitsCases u K cases ∧ FitsDflt u K dflt := by
  obtain ⟨hr, hu⟩ := h
  simp only [DeadFuns.removed, prune, occs, append_subset, mem_cons, mem_append] at hr hu
  exact ⟨hu y (.inl rfl), ⟨hr.1, fun x hx => hu x (.inr (.inl hx))⟩, ⟨hr.2, fun x hx => hu x (.inr (.inr hx))⟩⟩

theorem FitsFBs.cons {fb : Lambda} {fbs : List Lambda} (h : FitsFBs u K (fb :: fbs)) :
    FitsFB u K fb ∧ FitsFBs u K fbs := by
  obtain ⟨hr, hu⟩ := h
  simp only [DeadFuns.removedFBs, pruneFBs, occsFBs, append_subset, mem_append] at hr hu
  exact ⟨⟨hr.1, fun x hx => hu x (.inl hx)⟩, ⟨hr.2, fun x hx => hu x (.inr hx)⟩⟩

theorem FitsCases.cons {p : Pat} {e : Exp} {cases : List (Pat × Exp)} (h : FitsCases u K ((p, e) :: cases)) :
    Fits u K e ∧ FitsCases u K cases := by
  obtain ⟨hr, hu⟩ := h
  simp only [DeadFuns.removedCases, pruneCases, occsCases, append_subset, mem_append] at hr hu
  exact ⟨⟨hr.1, fun x hx => hu x (.inl hx)⟩, ⟨hr.2, fun x hx => hu x (.inr hx)⟩⟩

theorem FitsDflt.some {e : Exp} (h : FitsDflt u K (some e)) : Fits u K e := ⟨h.removed, h.unused⟩

theorem FitsFB.body {f : Var} {ps xs : List Var} {e : Exp} (h : FitsFB u K (.fb f ps xs e)) : Fits u K e :=
  ⟨h.removed, h.unused⟩

end

/-! ## Scoping of the result -/

/-- The context of the result may lack removed names. -/
def Covers (K Γ Γ' : List Var) : Prop := ∀ x ∈ Γ, x ∈ Γ' ∨ x ∈ K

theorem Covers.append {Γ Γ' : List Var} (h : Covers K Γ Γ') (xs : List Var) : Covers K (xs ++ Γ) (xs ++ Γ') := by
  intro x hx
  rcases mem_append.mp hx with hx | hx
  · exact .inl (List.mem_append_left _ hx)
  · exact (h x hx).imp_left (List.mem_append_right _)

theorem Covers.cons {Γ Γ' : List Var} (h : Covers K Γ Γ') (x : Var) : Covers K (x :: Γ) (x :: Γ') := h.append [x]

/-- A removed group leaves the context of the result as it is. -/
theorem Covers.drop {Γ Γ' xs : List Var} (h : Covers K Γ Γ') (hxs : xs ⊆ K) : Covers K (xs ++ Γ) Γ' := by
  intro x hx
  rcases mem_append.mp hx with hx | hx
  · exact .inr (hxs hx)
  · exact h x hx

theorem Covers.subset {Γ Γ' xs : List Var} (h : Covers K Γ Γ') (hxs : xs ⊆ Γ) (hK : ∀ x ∈ xs, x ∉ K) : xs ⊆ Γ' :=
  fun x hx => (h x (hxs hx)).resolve_right (hK x hx)

mutual

theorem prune_scoped {u : Var → Int} :
    ∀ {e : Exp} {Γ Γ' : List Var}, e.Scoped Γ → Fits u K e → Covers K Γ Γ' → (prune u e).1.Scoped Γ'
  | .let_ xs e₁ e₂, Γ, Γ', ⟨s₁, s₂⟩, hf, hc => by
    obtain ⟨f₁, f₂⟩ := hf.let_
    exact ⟨prune_scoped s₁ f₁ hc, prune_scoped s₂ f₂ (hc.append xs)⟩
  | .stmt xs rhs e, Γ, Γ', ⟨s₁, s₂⟩, hf, hc => by
    obtain ⟨hv, f⟩ := hf.stmt
    exact ⟨hc.subset s₁ hv, prune_scoped s₂ f (hc.append xs)⟩
  | .fun_ fbs e, Γ, Γ', ⟨s₁, s₂⟩, hf, hc => by
    obtain ⟨f₂, f₁⟩ := hf.fun_
    rw [prune]
    split at f₁
    · rename_i hdead
      rw [if_pos hdead]
      exact prune_scoped s₂ f₂ (hc.drop f₁)
    · rename_i hlive
      rw [if_neg hlive]
      refine ⟨?_, ?_⟩ <;> rw [pruneFBs_names]
      · exact pruneFBs_scoped s₁ f₁ (hc.append _)
      · exact prune_scoped s₂ f₂ (hc.append _)
  | .cont fb e, Γ, Γ', ⟨s₁, s₂⟩, hf, hc => by
    obtain ⟨f₂, f₁⟩ := hf.cont
    rw [prune]
    split at f₁
    · rename_i hdead
      rw [if_pos hdead]
      exact prune_scoped s₂ f₂ (hc.drop (cons_subset.mpr ⟨f₁, nil_subset K⟩))
    · rename_i hlive
      rw [if_neg hlive]
      refine ⟨?_, ?_⟩ <;> rw [pruneFB_f]
      · exact pruneFB_scoped s₁ f₁ (hc.cons _)
      · exact prune_scoped s₂ f₂ (hc.cons _)
  | .if_ c e₁ e₂, Γ, Γ', ⟨s, s₁, s₂⟩, hf, hc => by
    obtain ⟨hv, f₁, f₂⟩ := hf.if_
    exact ⟨hc.subset s hv, prune_scoped s₁ f₁ hc, prune_scoped s₂ f₂ hc⟩
  | .case_ y cases dflt, Γ, Γ', ⟨s, s₁, s₂⟩, hf, hc => by
    obtain ⟨hy, f₁, f₂⟩ := hf.case_
    exact ⟨(hc y s).resolve_right hy, pruneCases_scoped s₁ f₁ hc, pruneDflt_scoped s₂ f₂ hc⟩
  | .apply f xs ys, Γ, Γ', ⟨s, s₁, s₂⟩, ⟨_, hu⟩, hc => by
    simp only [prune, occs, mem_cons, mem_append] at hu
    exact ⟨(hc f s).resolve_right (hu f (.inl rfl)), hc.subset s₁ fun x hx => hu x (.inr (.inl hx)),
      hc.subset s₂ fun x hx => hu x (.inr (.inr hx))⟩
  | .throw k xs, Γ, Γ', ⟨s, s₁⟩, ⟨_, hu⟩, hc => by
    simp only [prune, occs, mem_cons] at hu
    exact ⟨(hc k s).resolve_right (hu k (.inl rfl)), hc.subset s₁ fun x hx => hu x (.inr hx)⟩
  | .ret xs, Γ, Γ', s, ⟨_, hu⟩, hc => hc.subset s hu
  | .hlop op xs ys, Γ, Γ', ⟨s₁, s₂⟩, ⟨_, hu⟩, hc => by
    simp only [prune, occs, mem_append] at hu
    exact ⟨hc.subset s₁ fun x hx => hu x (.inl hx), hc.subset s₂ fun x hx => hu x (.inr hx)⟩

theorem pruneFB_scoped {u : Var → Int} :
    ∀ {fb : Lambda} {Γ Γ' : List Var}, fb.Scoped Γ → FitsFB u K fb → Covers K Γ Γ' → (pruneFB u fb).1.Scoped Γ'
  | .fb _ params exh _, _, _, s, hf, hc => prune_scoped s hf.body ((hc.append exh).append params)

theorem pruneFBs_scoped {u : Var → Int} :
    ∀ {fbs : List Lambda} {Γ Γ' : List Var}, ScopedFBs Γ fbs → FitsFBs u K fbs → Covers K Γ Γ' →
      ScopedFBs Γ' (pruneFBs u fbs).1
  | [], _, _, _, _, _ => trivial
  | _ :: _, _, _, ⟨s₁, s₂⟩, hf, hc => ⟨pruneFB_scoped s₁ hf.cons.1 hc, pruneFBs_scoped s₂ hf.cons.2 hc⟩

theorem pruneCases_scoped {u : Var → Int} :
    ∀ {cases : List (Pat × Exp)} {Γ Γ' : List Var}, ScopedCases Γ cases → FitsCases u K cases → Covers K Γ Γ' →
      ScopedCases Γ' (pruneCases u cases).1
  | [], _, _, _, _, _ => trivial
  | (p, _) :: _, _, _, ⟨s₁, s₂⟩, hf, hc =>
    ⟨prune_scoped s₁ hf.cons.1 (hc.append p.binders), pruneCases_scoped s₂ hf.cons.2 hc⟩

theorem pruneDflt_scoped {u : Var → Int} :
    ∀ {dflt : Option Exp} {Γ Γ' : List Var}, ScopedDflt Γ dflt → FitsDflt u K dflt → Covers K Γ Γ' →
      ScopedDflt Γ' (pruneDflt u dflt).1
  | none, _, _, _, _, _ => trivial
  | some _, _, _, s, hf, hc => prune_scoped s hf.some hc

end

/-! ## Balanced counts -/

theorem prune_kept_subset (u : Var → Int) (e : Exp) : (prune u e).1.occs ⊆ e.occs := by
  intro x hx
  have := count_prune u x e
  have := count_pos_iff.mpr hx
  exact count_pos_iff.mp (by omega)

theorem pruneFB_kept_subset (u : Var → Int) (fb : Lambda) : (pruneFB u fb).1.occs ⊆ fb.occs := by
  intro x hx
  have := count_pruneFB u x fb
  have := count_pos_iff.mpr hx
  exact count_pos_iff.mp (by omega)

theorem pruneFBs_kept_subset (u : Var → Int) (fbs : List Lambda) : occsFBs (pruneFBs u fbs).1 ⊆ occsFBs fbs := by
  intro x hx
  have := count_pruneFBs u x fbs
  have := count_pos_iff.mpr hx
  exact count_pos_iff.mp (by omega)

theorem pruneCases_kept_subset (u : Var → Int) (cases : List (Pat × Exp)) :
    occsCases (pruneCases u cases).1 ⊆ occsCases cases := by
  intro x hx
  have := count_pruneCases u x cases
  have := count_pos_iff.mpr hx
  exact count_pos_iff.mp (by omega)

theorem pruneDflt_kept_subset (u : Var → Int) (dflt : Option Exp) :
    occsDflt (pruneDflt u dflt).1 ⊆ occsDflt dflt := by
  intro x hx
  have := count_pruneDflt u x dflt
  have := count_pos_iff.mpr hx
  exact count_pos_iff.mp (by omega)

/-- Two neighbours: neither mentions what the other one binds. -/
structure Apart (bs os bs' os' : List Var) : Prop where
  left : ∀ x ∈ bs, x ∉ os'
  right : ∀ x ∈ bs', x ∉ os

/-- The removed names of neighbours are unused when those of each are. -/
theorem Apart.unused_iff {bs os bs' os' rs rs' ks ks' : List Var} {n : Var → Nat} (h : Apart bs os bs' os')
    (hr : rs ⊆ bs) (hr' : rs' ⊆ bs') (hk : ks ⊆ os) (hk' : ks' ⊆ os') :
    (∀ x ∈ rs ++ rs', x ∉ ks ++ ks' ∧ n x = 0) ↔
      (∀ x ∈ rs, x ∉ ks ∧ n x = 0) ∧ ∀ x ∈ rs', x ∉ ks' ∧ n x = 0 := by
  constructor
  · simp_all
  · rintro ⟨hu, hu'⟩ x hx
    rcases mem_append.mp hx with hx | hx
    · refine (hu x hx).imp_left fun hn hm => ?_
      exact (mem_append.mp hm).elim hn fun hm => h.left x (hr hx) (hk' hm)
    · refine (hu' x hx).imp_left fun hn hm => ?_
      exact (mem_append.mp hm).elim (fun hm => h.right x (hr' hx) (hk hm)) hn

theorem Apart.count_left {bs os bs' os' : List Var} (h : Apart bs os bs' os') {x : Var} (hx : x ∈ bs) :
    (os ++ os').count x = os.count x := by
  rw [count_append, List.count_eq_zero_of_not_mem (h.left x hx), Nat.add_zero]

theorem Apart.count_right {bs os bs' os' : List Var} (h : Apart bs os bs' os') {x : Var} (hx : x ∈ bs') :
    (os ++ os').count x = os'.count x := by
  rw [count_append, List.count_eq_zero_of_not_mem (h.right x hx), Nat.zero_add]

/-- In a group that passes the test the counts are balanced for a member exactly when no use of it
    is kept in the scope: `d` are the scope's uses deleted before the test, `l` those dropped
    otherwise, `k` those kept, `g` those deleted in the bodies. -/
theorem balancedGroup_iff {u : Var → Int} {n : Var → Nat} {fbs : List Lambda} {f : Var} {d l k g : List Var}
    (hu : u f = ((occsFBs fbs).count f + (k.count f + (d.count f + l.count f)) + n f : Nat))
    (hdead : ((countedFBs fbs).count f : Int) = u f - (d ++ g).count f) :
    g.count f ≤ uncounted fbs f + l.count f ↔ f ∉ k ∧ n f = 0 := by
  have hle := countedFBs_le f fbs
  rw [← List.count_eq_zero, uncounted]
  simp only [count_append] at hdead
  omega

mutual

theorem balanced_iff {u : Var → Int} {n : Var → Nat} : ∀ {e : Exp} {Γ : List Var}, e.Scoped Γ → e.binders.Nodup →
    (∀ x ∈ e.binders, x ∉ Γ) → (∀ x ∈ e.binders, u x = (e.occs.count x + n x : Nat)) →
    (BalancedExp u e ↔ ∀ x ∈ removed u e, x ∉ (prune u e).1.occs ∧ n x = 0)
  | .let_ xs e₁ e₂, Γ, ⟨s₁, s₂⟩, hn, hd, hu => by
    simp only [binders, nodup_append, occs] at hn hd hu
    have hap : Apart e₁.binders e₁.occs e₂.binders e₂.occs :=
      ⟨fun x hx => not_mem_occs s₂ (by grind) (by grind), fun x hx => not_mem_occs s₁ (by grind) (by grind)⟩
    have i₁ := balanced_iff (u := u) s₁ (by grind) (by grind)
      (fun x hx => by rw [hu x (by grind), hap.count_left hx])
    have i₂ := balanced_iff (u := u) s₂ (by grind) (by grind)
      (fun x hx => by rw [hu x (by grind), hap.count_right hx])
    rw [BalancedExp, i₁, i₂]
    exact (hap.unused_iff (removed_subset u e₁) (removed_subset u e₂) (prune_kept_subset u e₁)
      (prune_kept_subset u e₂)).symm
  | .stmt xs rhs e, Γ, ⟨s₁, s₂⟩, hn, hd, hu => by
    simp only [binders, nodup_append, occs] at hn hd hu
    have hap : Apart [] rhs.vars e.binders e.occs := ⟨by simp, fun x hx => by grind⟩
    have i := balanced_iff (u := u) s₂ (by grind) (by grind)
      (fun x hx => by rw [hu x (by grind), hap.count_right hx])
    rw [BalancedExp, i]
    have := (hap.unused_iff (n := n) (Subset.refl []) (removed_subset u e) (Subset.refl rhs.vars)
      (prune_kept_subset u e))
    grind [removed, prune, occs]
  | .fun_ fbs e, Γ, ⟨s₁, s₂⟩, hn, hd, hu => by
    simp only [binders, nodup_append, nodup_bindersFBs, mem_bindersFBs, mem_append, occs] at hn hd hu
    have hap : Apart (innerFBs fbs) (occsFBs fbs) e.binders e.occs :=
      ⟨fun x hx => not_mem_occs s₂ (by grind) (by grind), fun x hx hx' => by
        have := mem_of_occsFBs s₁ hx'
        grind [mem_bindersFBs]⟩
    have i₂ := balanced_iff (u := u) s₂ (by grind) (by grind)
      (fun x hx => by rw [hu x (by grind), hap.count_right hx])
    rw [BalancedExp, i₂, removed, prune]
    split
    · rename_i hdead
      have hgroup : ∀ f ∈ fbs.map Lambda.f, ((pruneFBs u fbs).2.count f ≤ uncounted fbs f + (lost u e).count f ↔
          f ∉ (prune u e).1.occs ∧ n f = 0) := by
        intro f hf
        refine balancedGroup_iff (u := u) (d := (prune u e).2) ?_ ?_
        · rw [hu f (by grind), count_append, count_prune u f e]
        · simp only [deadGroup, List.all_eq_true, beq_iff_eq] at hdead
          obtain ⟨fb, hfb, rfl⟩ := List.mem_map.mp hf
          exact hdead fb hfb
      rw [forall₂_congr hgroup]
      grind
    · have i₁ := balancedFBs_iff (u := u) s₁ (by grind) (by grind)
        (fun x hx => by rw [hu x (by grind), hap.count_left hx])
      rw [i₁, and_comm]
      exact (hap.unused_iff (removedFBs_subset u fbs) (removed_subset u e) (pruneFBs_kept_subset u fbs)
        (prune_kept_subset u e)).symm
  | .cont fb e, Γ, ⟨s₁, s₂⟩, hn, hd, hu => by
    simp only [binders, Lambda.binders_eq, nodup_append, mem_append, nodup_cons,
      mem_cons, occs] at hn hd hu
    have hap : Apart (innerFB fb) fb.occs e.binders e.occs :=
      ⟨fun x hx => not_mem_occs s₂ (by grind) (by grind), fun x hx hx' => by
        have := Lambda.mem_of_occs s₁ hx'
        rw [Lambda.binders_eq] at this
        grind⟩
    have i₂ := balanced_iff (u := u) s₂ (by grind) (by grind)
      (fun x hx => by rw [hu x (by grind), hap.count_right hx])
    rw [BalancedExp, i₂, removed, prune]
    split
    · rename_i hdead
      have hgroup : (pruneFB u fb).2.count fb.f ≤
          uncounted [fb] fb.f + ((prune u e).2.count fb.f + (lost u e).count fb.f) ↔
          fb.f ∉ (prune u e).1.occs ∧ n fb.f = 0 := by
        have hcount : u fb.f = ((occsFBs [fb]).count fb.f + ((prune u e).1.occs.count fb.f +
            (([] : List Var).count fb.f + ((prune u e).2 ++ lost u e).count fb.f)) + n fb.f : Nat) := by
          rw [hu fb.f (by grind), count_append, count_prune u fb.f e]
          simp [occsFBs]
        have htest : ((countedFBs [fb]).count fb.f : Int) = u fb.f - ([] ++ (pruneFB u fb).2).count fb.f := by
          simpa [deadGroup, countedFBs] using hdead
        have := balancedGroup_iff hcount htest
        simpa using this
      rw [hgroup]
      grind
    · have i₁ := balancedFB_iff (u := u) s₁ (by grind) (by grind)
        (fun x hx => by rw [hu x (by grind), hap.count_left hx])
      rw [i₁, and_comm]
      exact (hap.unused_iff (removedFB_subset u fb) (removed_subset u e) (pruneFB_kept_subset u fb)
        (prune_kept_subset u e)).symm
  | .if_ c e₁ e₂, Γ, ⟨s, s₁, s₂⟩, hn, hd, hu => by
    simp only [binders, nodup_append, occs, mem_append] at hn hd hu
    have hc : ∀ x, x ∈ e₁.binders ∨ x ∈ e₂.binders → c.args.count x = 0 := by grind
    have hap : Apart e₁.binders e₁.occs e₂.binders e₂.occs :=
      ⟨fun x hx => not_mem_occs s₂ (by grind) (by grind), fun x hx => not_mem_occs s₁ (by grind) (by grind)⟩
    have i₁ := balanced_iff (u := u) s₁ (by grind) (by grind)
      (fun x hx => by rw [hu x (by grind), count_append, hc x (.inl hx), hap.count_left hx, Nat.zero_add])
    have i₂ := balanced_iff (u := u) s₂ (by grind) (by grind)
      (fun x hx => by rw [hu x (by grind), count_append, hc x (.inr hx), hap.count_right hx, Nat.zero_add])
    rw [BalancedExp, i₁, i₂, ← hap.unused_iff (removed_subset u e₁) (removed_subset u e₂) (prune_kept_subset u e₁)
      (prune_kept_subset u e₂)]
    have := removed_subset u e₁
    have := removed_subset u e₂
    grind [removed, prune, occs]
  | .case_ y cases dflt, Γ, ⟨s, s₁, s₂⟩, hn, hd, hu => by
    simp only [binders, nodup_append, occs, mem_append] at hn hd hu
    have hc : ∀ x, x ∈ bindersCases cases ∨ x ∈ bindersDflt dflt → y ≠ x := by grind
    have hap : Apart (bindersCases cases) (occsCases cases) (bindersDflt dflt) (occsDflt dflt) :=
      ⟨fun x hx hx' => by have := mem_of_occsDflt s₂ hx'; grind, fun x hx hx' => by have := mem_of_occsCases s₁ hx'; grind⟩
    have i₁ := balancedCases_iff (u := u) s₁ (by grind) (by grind)
      (fun x hx => by rw [hu x (by grind), List.count_cons_of_ne (hc x (.inl hx)), hap.count_left hx])
    have i₂ := balancedDflt_iff (u := u) s₂ (by grind) (by grind)
      (fun x hx => by rw [hu x (by grind), List.count_cons_of_ne (hc x (.inr hx)), hap.count_right hx])
    rw [BalancedExp, i₁, i₂, ← hap.unused_iff (removedCases_subset u cases) (removedDflt_subset u dflt)
      (pruneCases_kept_subset u cases) (pruneDflt_kept_subset u dflt)]
    have := removedCases_subset u cases
    have := removedDflt_subset u dflt
    grind [removed, prune, occs]
  | .apply f xs ys, Γ, _, _, _, _ => by simp [BalancedExp, removed]
  | .throw k xs, Γ, _, _, _, _ => by simp [BalancedExp, removed]
  | .ret xs, Γ, _, _, _, _ => by simp [BalancedExp, removed]
  | .hlop op xs ys, Γ, _, _, _, _ => by simp [BalancedExp, removed]

theorem balancedFB_iff {u : Var → Int} {n : Var → Nat} : ∀ {fb : Lambda} {Γ : List Var}, fb.Scoped Γ →
    (innerFB fb).Nodup → (∀ x ∈ innerFB fb, x ∉ Γ) → (∀ x ∈ innerFB fb, u x = (fb.occs.count x + n x : Nat)) →
    (BalancedFB u fb ↔ ∀ x ∈ removedFB u fb, x ∉ (pruneFB u fb).1.occs ∧ n x = 0)
  | .fb _ _ _ body, Γ, s, hn, hd, hu => by
    simp only [innerFB, nodup_append, Lambda.occs] at hn hd hu
    exact balanced_iff (u := u) s (by grind) (by grind) (by grind)

theorem balancedFBs_iff {u : Var → Int} {n : Var → Nat} : ∀ {fbs : List Lambda} {Γ : List Var}, ScopedFBs Γ fbs →
    (innerFBs fbs).Nodup → (∀ x ∈ innerFBs fbs, x ∉ Γ) →
    (∀ x ∈ innerFBs fbs, u x = ((occsFBs fbs).count x + n x : Nat)) →
    (BalancedFBs u fbs ↔ ∀ x ∈ removedFBs u fbs, x ∉ occsFBs (pruneFBs u fbs).1 ∧ n x = 0)
  | [], _, _, _, _, _ => by simp [BalancedFBs, removedFBs]
  | fb :: fbs, Γ, ⟨s₁, s₂⟩, hn, hd, hu => by
    simp only [innerFBs, nodup_append, occsFBs] at hn hd hu
    have hap : Apart (innerFB fb) fb.occs (innerFBs fbs) (occsFBs fbs) := by
      refine ⟨fun x hx => ?_, fun x hx => not_mem_occs_inner s₁ (by grind) (by grind)⟩
      exact not_mem_occsFBs_inner (by grind) s₂ (by grind)
    have i₁ := balancedFB_iff (u := u) s₁ (by grind) (by grind)
      (fun x hx => by rw [hu x (by grind), hap.count_left hx])
    have i₂ := balancedFBs_iff (u := u) s₂ (by grind) (by grind)
      (fun x hx => by rw [hu x (by grind), hap.count_right hx])
    rw [BalancedFBs, i₁, i₂]
    exact (hap.unused_iff (removedFB_subset u fb) (removedFBs_subset u fbs) (pruneFB_kept_subset u fb)
      (pruneFBs_kept_subset u fbs)).symm

theorem balancedCases_iff {u : Var → Int} {n : Var → Nat} : ∀ {cases : List (Pat × Exp)} {Γ : List Var},
    ScopedCases Γ cases → (bindersCases cases).Nodup → (∀ x ∈ bindersCases cases, x ∉ Γ) →
    (∀ x ∈ bindersCases cases, u x = ((occsCases cases).count x + n x : Nat)) →
    (BalancedCases u cases ↔ ∀ x ∈ removedCases u cases, x ∉ occsCases (pruneCases u cases).1 ∧ n x = 0)
  | [], _, _, _, _, _ => by simp [BalancedCases, removedCases]
  | (p, e) :: cases, Γ, ⟨s₁, s₂⟩, hn, hd, hu => by
    simp only [bindersCases, nodup_append, occsCases] at hn hd hu
    have hap : Apart e.binders e.occs (bindersCases cases) (occsCases cases) :=
      ⟨fun x hx hx' => by have := mem_of_occsCases s₂ hx'; grind, fun x hx => not_mem_occs s₁ (by grind) (by grind)⟩
    have i₁ := balanced_iff (u := u) s₁ (by grind) (by grind)
      (fun x hx => by rw [hu x (by grind), hap.count_left hx])
    have i₂ := balancedCases_iff (u := u) s₂ (by grind) (by grind)
      (fun x hx => by rw [hu x (by grind), hap.count_right hx])
    rw [BalancedCases, i₁, i₂]
    exact (hap.unused_iff (removed_subset u e) (removedCases_subset u cases) (prune_kept_subset u e)
      (pruneCases_kept_subset u cases)).symm

theorem balancedDflt_iff {u : Var → Int} {n : Var → Nat} : ∀ {dflt : Option Exp} {Γ : List Var},
    ScopedDflt Γ dflt → (bindersDflt dflt).Nodup → (∀ x ∈ bindersDflt dflt, x ∉ Γ) →
    (∀ x ∈ bindersDflt dflt, u x = ((occsDflt dflt).count x + n x : Nat)) →
    (BalancedDflt u dflt ↔ ∀ x ∈ removedDflt u dflt, x ∉ occsDflt (pruneDflt u dflt).1 ∧ n x = 0)
  | none, _, _, _, _, _ => by simp [BalancedDflt, removedDflt]
  | some e, _, s, hn, hd, hu => balanced_iff (e := e) s hn hd hu

end

/-! ## The result runs in step with the original -/

section

variable {u : Var → Int} {K : List Var} {M : Machine}

inductive FrameRel (u : Var → Int) (K : List Var) : Frame → Frame → Prop
  | mk {xs : List Var} {e : Exp} {ρ ρ' : Env} : Fits u K e → Agree (· ∉ K) ρ ρ' →
      FrameRel u K ⟨xs, e, ρ⟩ ⟨xs, (prune u e).1, ρ'⟩

inductive CloRel (u : Var → Int) (K : List Var) : Clo → Clo → Prop
  | fun_ {fb : Lambda} {ρ ρ' : Env} : FitsFB u K fb → Agree (· ∉ K) ρ ρ' →
      CloRel u K (.fun_ fb ρ) (.fun_ (pruneFB u fb).1 ρ')
  | cont {fb : Lambda} {ρ ρ' : Env} {stk stk' : List Frame} : FitsFB u K fb → Agree (· ∉ K) ρ ρ' →
      Forall₂ (FrameRel u K) stk stk' → CloRel u K (.cont fb ρ stk) (.cont (pruneFB u fb).1 ρ' stk')
  | exit : CloRel u K .exit .exit

inductive CtlRel (u : Var → Int) (K : List Var) : Ctl → Ctl → Prop
  | eval {e : Exp} {ρ ρ' : Env} : Fits u K e → Agree (· ∉ K) ρ ρ' → CtlRel u K (.eval e ρ) (.eval (prune u e).1 ρ')
  | deliver {vs : List Val} : Clean (· ∉ K) vs → CtlRel u K (.deliver vs) (.deliver vs)
  | raise {k : Val} {vs : List Val} : Clean (· ∉ K) (k :: vs) → CtlRel u K (.raise k vs) (.raise k vs)

/-- A state of the module and the state of its result: code pointers to removed names exist on one
    side only and are never reached from what is kept. -/
structure StateRel (u : Var → Int) (K : List Var) (s t : State M) : Prop where
  ctl : CtlRel u K s.ctl t.ctl
  stk : Forall₂ (FrameRel u K) s.stk t.stk
  code : ∀ h : Handle, h.name ∉ K → Option.Rel (CloRel u K) (s.code h) (t.code h)
  made : ∀ x, x ∉ K → s.made x = t.made x
  w : s.w = t.w
  holds : ∀ h, M.holds s.w h → h.name ∉ K

theorem find_pruneFBs (n : Var) : ∀ fbs : List Lambda, (pruneFBs u fbs).1.find? (fun fb => fb.f = n) =
    (fbs.find? fun fb => fb.f = n).map fun fb => (pruneFB u fb).1
  | [] => rfl
  | fb :: fbs => by
    have ih := find_pruneFBs n fbs
    rw [pruneFBs, List.find?_cons, List.find?_cons, pruneFB_f]
    split
    · rfl
    · exact ih

theorem FitsFBs.mem {fb : Lambda} : ∀ {fbs : List Lambda}, FitsFBs u K fbs → fb ∈ fbs → FitsFB u K fb
  | _ :: _, h, hm => by
    rcases mem_cons.mp hm with rfl | hm
    · exact h.cons.1
    · exact FitsFBs.mem h.cons.2 hm

theorem StateRel.bindFBs {s t : State M} (h : StateRel u K s t) {ρ ρ' : Env} (ha : Agree (· ∉ K) ρ ρ')
    {fbs fbs' : List Lambda} (hn : fbs'.map Lambda.f = fbs.map Lambda.f) :
    Agree (· ∉ K) (Bom.bindFBs s.made ρ fbs) (Bom.bindFBs t.made ρ' fbs') := by
  intro x hx
  by_cases hxf : x ∈ fbs.map Lambda.f
  · simp only [Bom.bindFBs, hn, if_pos hxf, h.made x hx, true_and]
    intro v hv
    cases hv
    exact clean_code.mpr hx
  · simpa only [Bom.bindFBs, hn, if_neg hxf] using ha x hx

/-- A kept group is made on both sides. -/
theorem StateRel.make {s t : State M} (h : StateRel u K s t) {ρ ρ' : Env} (ha : Agree (· ∉ K) ρ ρ')
    {fbs fbs' : List Lambda} (hfbs : (pruneFBs u fbs).1 = fbs') (hf : FitsFBs u K fbs) {e : Exp} (he : Fits u K e)
    (mk mk' : Env → Lambda → Clo)
    (hmk : ∀ ρ ρ' fb, Agree (· ∉ K) ρ ρ' → FitsFB u K fb → CloRel u K (mk ρ fb) (mk' ρ' (pruneFB u fb).1)) :
    StateRel u K (s.make ρ fbs mk e) (t.make ρ' fbs' mk' (prune u e).1) := by
  have hn : fbs'.map Lambda.f = fbs.map Lambda.f := by rw [← hfbs, pruneFBs_names]
  have hb := h.bindFBs ha hn
  refine ⟨.eval he hb, h.stk, fun k hk => ?_, fun x hx => ?_, h.w, h.holds⟩
  · show Option.Rel _ (addClos s.made s.code _ fbs k) (addClos t.made t.code _ fbs' k)
    unfold addClos
    rw [← hfbs] at hb ⊢
    rw [find_pruneFBs]
    cases hfind : fbs.find? fun fb => fb.f = k.name with
    | none => exact h.code k hk
    | some fb =>
      simp only [Option.map_some, h.made k.name hk]
      by_cases hidx : k.idx = t.made k.name
      · rw [if_pos hidx, if_pos hidx]
        exact .some (hmk _ _ fb hb (hf.mem (List.mem_of_find?_eq_some hfind)))
      · rw [if_neg hidx, if_neg hidx]
        exact h.code k hk
  · show bump s.made fbs x = bump t.made fbs' x
    unfold bump
    rw [hn, h.made x hx]

/-- A removed group is made on one side only. -/
theorem StateRel.drop {s t : State M} (h : StateRel u K s t) {ρ ρ' : Env} (ha : Agree (· ∉ K) ρ ρ')
    {fbs : List Lambda} (hf : fbs.map Lambda.f ⊆ K) {e : Exp} (he : Fits u K e)
    (ht : t.ctl = .eval (prune u e).1 ρ') (mk : Env → Lambda → Clo) : StateRel u K (s.make ρ fbs mk e) t := by
  have hout : ∀ x, x ∉ K → x ∉ fbs.map Lambda.f := fun x hx hm => hx (hf hm)
  refine ⟨?_, h.stk, fun k hk => ?_, fun x hx => ?_, h.w, h.holds⟩
  · rw [ht]
    refine .eval he fun x hx => ?_
    simpa only [Bom.bindFBs, if_neg (hout x hx)] using ha x hx
  · show Option.Rel _ (addClos s.made s.code _ fbs k) (t.code k)
    have hnone : fbs.find? (fun fb => fb.f = k.name) = none := by
      rw [List.find?_eq_none]
      simp_all
    unfold addClos
    rw [hnone]
    exact h.code k hk
  · show bump s.made fbs x = t.made x
    unfold bump
    rw [if_neg (hout x hx), h.made x hx]

/-- The outcomes of a step on both sides. -/
def OutRel (u : Var → Int) (K : List Var) (a b : State M × Option M.E) : Prop := StateRel u K a.1 b.1 ∧ a.2 = b.2

theorem selectArm_rel (v : Val) {dflt : Option Exp} (hd : FitsDflt u K dflt) : ∀ {cases : List (Pat × Exp)},
    FitsCases u K cases → Option.Rel (fun a b => a.1 = b.1 ∧ a.2.1 = b.2.1 ∧ Fits u K a.2.2 ∧ b.2.2 = (prune u a.2.2).1)
      (selectArm v cases dflt) (selectArm v (pruneCases u cases).1 (pruneDflt u dflt).1)
  | [], _ => by
    cases dflt with
    | none => exact .none
    | some e => exact .some ⟨rfl, rfl, hd.some, rfl⟩
  | (p, e) :: cases, hc => by
    obtain ⟨h₁, h₂⟩ := hc.cons
    rw [pruneCases, selectArm, selectArm]
    cases p.select v with
    | none => exact selectArm_rel v hd h₂
    | some xv => exact .some ⟨rfl, rfl, h₁, rfl⟩

theorem applyVal_rel {s t : State M} (h : StateRel u K s t) {f : Val} {vs ks : List Val} (hf : Clean (· ∉ K) [f])
    (hvs : Clean (· ∉ K) vs) (hks : Clean (· ∉ K) ks) :
    Option.Rel (StateRel u K) (applyVal s f vs ks) (applyVal t f vs ks) := by
  cases f with
  | code c =>
    have hc := h.code c (clean_code.mp hf)
    unfold applyVal
    simp only
    cases hs : s.code c with
    | none =>
      rw [hs] at hc
      cases ht : t.code c <;> rw [ht] at hc <;> cases hc
      exact .none
    | some cl =>
      rw [hs] at hc
      cases ht : t.code c with
      | none => rw [ht] at hc; cases hc
      | some cl' =>
        rw [ht] at hc
        cases hc with
        | some hcl =>
          cases hcl with
          | fun_ hfb ha =>
            rename_i fb ρ ρ'
            obtain ⟨f, params, exh, body⟩ := fb
            refine rel_bind (ha.bind hvs) fun ρ₁ ρ₁' h₁ => rel_bind (h₁.bind hks) fun ρ₂ ρ₂' h₂ => .some ?_
            exact ⟨.eval hfb.body h₂, h.stk, h.code, h.made, h.w, h.holds⟩
          | cont | exit => exact .none
  | _ => exact .none

theorem stepEval_rel {s t : State M} (h : StateRel u K s t) : ∀ {e : Exp} {ρ ρ' : Env}, Fits u K e →
    Agree (· ∉ K) ρ ρ' → t.ctl = .eval (prune u e).1 ρ' →
    Option.Rel (OutRel u K) (stepEval s ρ e) (stepEval t ρ' (prune u e).1) ∨
      ∃ ρ₁ e₁ s', stepEval s ρ e = some (s', none) ∧ StateRel u K s' t ∧ s'.ctl = .eval e₁ ρ₁ ∧ sizeOf e₁ < sizeOf e
  | .let_ xs e₁ e₂, ρ, ρ', hf, ha, _ => by
    obtain ⟨f₁, f₂⟩ := hf.let_
    exact .inl (.some ⟨⟨.eval f₁ ha, .cons (.mk f₂ ha) h.stk, h.code, h.made, h.w, h.holds⟩, rfl⟩)
  | .stmt xs rhs e, ρ, ρ', hf, ha, _ => by
    obtain ⟨hv, f⟩ := hf.stmt
    refine .inl (rel_bind (rel_of_eq (ha.rhs hv)) ?_)
    rintro r _ ⟨rfl, hr⟩
    rw [← h.w]
    refine rel_bind (rel_of_eq (p := fun o => Clean (· ∉ K) o.1 ∧ ∀ c, M.holds o.2.1 c → c.name ∉ K)
      ⟨rfl, fun _ ho => evalRhs_clean hr h.holds ho⟩) ?_
    rintro ⟨vs, w, ev⟩ _ ⟨rfl, hvs, hw⟩
    refine rel_bind (ha.bind hvs) fun ρ₁ ρ₁' h₁ => .some ?_
    exact ⟨⟨.eval f h₁, h.stk, h.code, h.made, rfl, hw⟩, rfl⟩
  | .fun_ fbs e, ρ, ρ', hf, ha, ht => by
    obtain ⟨f₂, f₁⟩ := hf.fun_
    rw [prune] at ht ⊢
    split at f₁
    · rename_i hdead
      rw [if_pos hdead] at ht
      exact .inr ⟨_, e, _, rfl, h.drop ha f₁ f₂ ht _, rfl, by decreasing_tactic⟩
    · rename_i hlive
      rw [if_neg hlive]
      refine .inl (.some ⟨?_, rfl⟩)
      exact h.make ha rfl f₁ f₂ (fun ρ fb => .fun_ fb ρ) (fun ρ fb => .fun_ fb ρ) fun _ _ _ ha hf => .fun_ hf ha
  | .cont fb e, ρ, ρ', hf, ha, ht => by
    obtain ⟨f₂, f₁⟩ := hf.cont
    rw [prune] at ht ⊢
    split at f₁
    · rename_i hdead
      rw [if_pos hdead] at ht
      have hK : [fb].map Lambda.f ⊆ K := cons_subset.mpr ⟨f₁, nil_subset K⟩
      exact .inr ⟨_, e, _, rfl, h.drop ha hK f₂ ht _, rfl, by decreasing_tactic⟩
    · rename_i hlive
      rw [if_neg hlive]
      have hfbs : FitsFBs u K [fb] := ⟨by simpa [removedFBs] using f₁.removed, by simpa [pruneFBs, occsFBs] using f₁.unused⟩
      refine .inl (.some ⟨?_, rfl⟩)
      exact h.make ha rfl hfbs f₂ (fun ρ fb => .cont fb ρ s.stk) (fun ρ fb => .cont fb ρ t.stk)
        fun _ _ _ ha hf => .cont hf ha h.stk
  | .if_ c e₁ e₂, ρ, ρ', hf, ha, _ => by
    obtain ⟨hv, f₁, f₂⟩ := hf.if_
    refine .inl (rel_bind (rel_of_eq (ha.get hv)) ?_)
    rintro vs _ ⟨rfl, hvs⟩
    rw [← h.w]
    refine rel_bind (rel_of_eq (p := fun o => ∀ k, M.holds o.2.1 k → k.name ∉ K)
      ⟨rfl, fun o ho k hk => (Machine.evalCond_codes ho hk).elim (hvs k) (h.holds k)⟩) ?_
    rintro ⟨b, w, ev⟩ _ ⟨rfl, hw⟩
    refine .some ⟨⟨?_, h.stk, h.code, h.made, rfl, hw⟩, rfl⟩
    cases b
    · exact .eval f₂ ha
    · exact .eval f₁ ha
  | .case_ y cases dflt, ρ, ρ', hf, ha, _ => by
    obtain ⟨hy, f₁, f₂⟩ := hf.case_
    refine .inl (rel_bind (rel_of_eq (ha y hy)) ?_)
    rintro v _ ⟨rfl, hv⟩
    refine rel_bind (rel_and (selectArm_rel v f₂ f₁) fun a ha => selectArm_clean hv ha) ?_
    rintro ⟨xs, vs, e⟩ ⟨_, _, _⟩ ⟨⟨rfl, rfl, hfe, rfl⟩, hvs⟩
    refine rel_bind (ha.bind hvs) fun ρ₁ ρ₁' h₁ => .some ?_
    exact ⟨⟨.eval hfe h₁, h.stk, h.code, h.made, h.w, h.holds⟩, rfl⟩
  | .apply f xs ys, ρ, ρ', hf, ha, _ => by
    have hu := hf.unused
    simp only [prune, occs, mem_cons, mem_append] at hu
    refine .inl (rel_bind (rel_of_eq (ha f (hu f (.inl rfl)))) ?_)
    rintro v _ ⟨rfl, hv⟩
    refine rel_bind (rel_of_eq (ha.get fun x hx => hu x (.inr (.inl hx)))) ?_
    rintro vs _ ⟨rfl, hvs⟩
    refine rel_bind (rel_of_eq (ha.get fun x hx => hu x (.inr (.inr hx)))) ?_
    rintro ks _ ⟨rfl, hks⟩
    exact rel_bind (applyVal_rel h hv hvs hks) fun s' t' h' => .some ⟨h', rfl⟩
  | .throw k xs, ρ, ρ', hf, ha, _ => by
    have hu := hf.unused
    simp only [prune, occs, mem_cons] at hu
    refine .inl (rel_bind (rel_of_eq (ha k (hu k (.inl rfl)))) ?_)
    rintro v _ ⟨rfl, hv⟩
    refine rel_bind (rel_of_eq (ha.get fun x hx => hu x (.inr hx))) ?_
    rintro vs _ ⟨rfl, hvs⟩
    exact .some ⟨⟨.raise (clean_cons.mpr ⟨hv, hvs⟩), h.stk, h.code, h.made, h.w, h.holds⟩, rfl⟩
  | .ret xs, ρ, ρ', hf, ha, _ => by
    refine .inl (rel_bind (rel_of_eq (ha.get hf.unused)) ?_)
    rintro vs _ ⟨rfl, hvs⟩
    exact .some ⟨⟨.deliver hvs, h.stk, h.code, h.made, h.w, h.holds⟩, rfl⟩
  | .hlop op xs ys, ρ, ρ', hf, ha, _ => by
    have hu := hf.unused
    simp only [prune, occs, mem_append] at hu
    refine .inl (rel_bind (rel_of_eq (ha.get fun x hx => hu x (.inl hx))) ?_)
    rintro vs _ ⟨rfl, hvs⟩
    refine rel_bind (rel_of_eq (ha.get fun x hx => hu x (.inr hx))) ?_
    rintro ks _ ⟨rfl, hks⟩
    rw [← h.w]
    have hcodes : ∀ o, M.hlop op vs ks s.w = some o →
        (∀ c ∈ o.1.codes, c.name ∉ K) ∧ ∀ c, M.holds o.2.1 c → c.name ∉ K := by
      intro o ho
      refine ⟨fun c hc => ?_, fun c hc => ?_⟩
      · rcases M.hlop_codes ho (.inl hc) with hc | hc | hc
        · exact hvs c hc
        · exact hks c hc
        · exact h.holds c hc
      · rcases M.hlop_codes ho (.inr hc) with hc | hc | hc
        · exact hvs c hc
        · exact hks c hc
        · exact h.holds c hc
    refine rel_bind (rel_of_eq ⟨rfl, hcodes⟩) ?_
    rintro ⟨r, w, ev⟩ _ ⟨rfl, hr, hw⟩
    cases r with
    | ret rs => exact .some ⟨⟨.deliver hr, h.stk, h.code, h.made, rfl, hw⟩, rfl⟩
    | throw k rs => exact .some ⟨⟨.raise hr, h.stk, h.code, h.made, rfl, hw⟩, rfl⟩

/-- The size of the expression under control. -/
noncomputable def ctlSize : Ctl → Nat
  | .eval e _ => sizeOf e
  | _ => 0

theorem moveRel_ofOption {a b : Option (State M × Option M.E)} (h : Option.Rel (OutRel u K) a b) :
    MoveRel (StateRel u K) (ofOption a) (ofOption b) := by
  cases h with
  | none => exact .wrong
  | @some x y hxy =>
    obtain ⟨s, ev⟩ := x
    obtain ⟨t, ev'⟩ := y
    obtain ⟨hst, hev⟩ := hxy
    cases hev
    exact .next hst

/-- One step: both sides step alike, or the original makes a removed group. -/
theorem step_rel (s t : State M) (h : StateRel u K s t) : MoveRel (StateRel u K) (step M s) (step M t) ∨
    ∃ s', step M s = .next s' none ∧ StateRel u K s' t ∧ ctlSize s'.ctl < ctlSize s.ctl := by
  obtain ⟨c, stk, code, made, w⟩ := s
  obtain ⟨c', stk', code', made', w'⟩ := t
  cases h.ctl with
  | @eval e ρ ρ' hf ha =>
    rcases stepEval_rel h hf ha rfl with hr | ⟨ρ₁, e₁, s', hs', hR, hctl, hlt⟩
    · exact .inl (moveRel_ofOption hr)
    · refine .inr ⟨s', ?_, hR, ?_⟩
      · show ofOption (stepEval _ ρ e) = _
        rw [hs']
        rfl
      · rw [hctl]
        exact hlt
  | @deliver vs hvs =>
    left
    cases h.stk with
    | nil => exact .halt _
    | cons hfr hstk =>
      cases hfr with
      | mk hf ha =>
        refine moveRel_ofOption (rel_bind (ha.bind hvs) fun ρ₁ ρ₁' h₁ => .some ?_)
        exact ⟨⟨.eval hf h₁, hstk, h.code, h.made, h.w, h.holds⟩, rfl⟩
  | @raise k vs hkv =>
    left
    obtain ⟨hk, hvs⟩ := clean_cons.mp hkv
    cases k with
    | code c =>
      have hc : Option.Rel (CloRel u K) (code c) (code' c) := h.code c (clean_code.mp hk)
      unfold step
      simp only
      revert hc
      generalize code c = o
      generalize code' c = o'
      intro hc
      cases hc with
      | none => exact .wrong
      | some hcl =>
        cases hcl with
        | fun_ => exact .wrong
        | @cont fb ρ ρ' stk stk' hfb ha hstk =>
          obtain ⟨f, params, exh, body⟩ := fb
          refine moveRel_ofOption (rel_bind (ha.bind hvs) fun ρ₁ ρ₁' h₁ => .some ?_)
          exact ⟨⟨.eval hfb.body h₁, hstk, h.code, h.made, h.w, h.holds⟩, rfl⟩
        | exit => exact .halt _
    | _ => exact .wrong

end
/-! ## Modules -/

/-- What removing dead groups promises: the names of the groups removed from what is kept are neither
    used any more nor define an HLOp, the result is well scoped, and it behaves as the original. -/
structure Sound (m m' : Module) : Prop where
  unused : ∀ f ∈ removedFB m.useCount m.body, f ∉ m'.body.occs ∧ f ∉ m'.hlops
  wellScoped : m'.Scoped
  same : m.Same m'

theorem transform_eq {m : Module} (hs : m.Scoped) (hn : m.UniqueBinders) :
    transform m m.useCount = { m with body := (pruneFB m.useCount m.body).1 } := by
  rw [Module.UniqueBinders, Lambda.binders_eq] at hn
  simp only [nodup_append, nodup_cons, mem_cons] at hn
  have h := (doFB_prune (u := m.useCount) [] ⟨m.useCount, fun _ => 0⟩ hs hn.2.1.2
    (fun x hx hm => hn.2.2 x hm x (.inr hx) rfl) (nil_subset _) fun _ _ => rfl).1
  rw [transform, h]

theorem balanced_module_iff {m : Module} (hs : m.Scoped) (hn : m.UniqueBinders) :
    BalancedFB m.useCount m.body ↔
      ∀ f ∈ removedFB m.useCount m.body, f ∉ (pruneFB m.useCount m.body).1.occs ∧ f ∉ m.hlops := by
  rw [Module.UniqueBinders, Lambda.binders_eq] at hn
  simp only [nodup_append, nodup_cons, mem_cons] at hn
  have h := balancedFB_iff (u := m.useCount) (n := fun x => m.hlops.count x) hs hn.2.1.2
    (fun x hx hm => hn.2.2 x hm x (.inr hx) rfl) fun x _ => by rw [Module.useCount]; omega
  simpa only [List.count_eq_zero] using h

/-- A module whose removed names are not used runs in step with the original. -/
theorem same_prune {m : Module} (h : ∀ f ∈ removedFB m.useCount m.body, f ∉ (pruneFB m.useCount m.body).1.occs) :
    m.Same { m with body := (pruneFB m.useCount m.body).1 } := by
  intro M i
  obtain ⟨externs, hlops, ⟨f, params, exh, body⟩⟩ := m
  generalize Module.useCount _ = u at h ⊢
  have hfit : Fits u (removed u body) body := ⟨Subset.refl _, fun x hx hm => h x hm hx⟩
  have hagree : ∀ ρ : Env, (∀ x v, ρ x = some v → ∀ k ∈ v.codes, k.name = x) → Agree (· ∉ removed u body) ρ ρ := by
    intro ρ hρ x hx
    refine ⟨rfl, fun v hv k hk => ?_⟩
    grind [codesOf]
  refine same_of_lockstep (R := StateRel u (removed u body)) step_rel ?_
  refine ⟨.eval hfit (hagree _ ?_), .nil, fun k _ => ?_, fun _ _ => rfl, rfl, fun k hk => absurd hk (i.w_codes k)⟩
  · intro x v hv k hk
    simp only [Module.initEnv] at hv
    split at hv
    · cases hv
      simp only [Val.codes, List.mem_singleton] at hk
      rw [hk]
    · split at hv
      · have : k ∈ codesOf i.args := mem_codesOf.mpr ⟨v, List.mem_of_getElem? hv, hk⟩
        rw [i.args_codes] at this
        cases this
      · split at hv
        · cases hv
          cases hk
        · cases hv
  · show Option.Rel _ (if k.name ∈ exh ∧ k.idx = 0 then some Clo.exit else none)
      (if k.name ∈ exh ∧ k.idx = 0 then some Clo.exit else none)
    split
    · exact .some .exit
    · exact .none

/-- Dead-function elimination is sound exactly for the modules with balanced counts. -/
theorem sound_iff_balanced (m : Module) (hs : m.Scoped) (hn : m.UniqueBinders) :
    Sound m (transform m m.useCount) ↔ BalancedFB m.useCount m.body := by
  rw [transform_eq hs hn, balanced_module_iff hs hn]
  constructor
  · exact fun h => h.unused
  · intro h
    refine ⟨h, ?_, same_prune fun f hf => (h f hf).1⟩
    exact pruneFB_scoped (K := removedFB m.useCount m.body) hs
      ⟨Subset.refl _, fun x hx hm => (h x hm).1 hx⟩ fun x hx => .inl hx

/-- `main z = (fun f x = f x) z`: the only use of `f` is its own. -/
def recursive : Module where
  externs := []
  hlops := []
  body := .fb ⟨0⟩ [⟨1⟩] [⟨2⟩] (.fun_ [.fb ⟨3⟩ [⟨4⟩] [] (.apply ⟨3⟩ [⟨4⟩] [])] (.ret [⟨1⟩]))

theorem recursive_sound : (transform recursive recursive.useCount).body = .fb ⟨0⟩ [⟨1⟩] [⟨2⟩] (.ret [⟨1⟩]) ∧
    Sound recursive (transform recursive recursive.useCount) := by
  refine ⟨by rfl, (sound_iff_balanced recursive ?_ ?_).mpr ?_⟩
  · simp [Module.Scoped, recursive, Lambda.Scoped, Exp.Scoped, ScopedFBs]
  · unfold Module.UniqueBinders
    decide
  · simp [recursive, BalancedFB, BalancedExp, pruneFBs, pruneFB, prune, deadGroup, countedFBs, countedFB, countedExp,
      Module.useCount, Lambda.occs, occs, occsFBs]

/-- `main z = (fun f x = (fun g y = let t = f y in g t) x) in f z`: `g` is dead, and deleting it takes
    the use of `f` in it off the use count of `f` but not off the counter of `f`. -/
def nested : Module where
  externs := []
  hlops := []
  body := .fb ⟨0⟩ [⟨1⟩] [⟨2⟩] (.fun_ [.fb ⟨3⟩ [⟨4⟩] []
      (.fun_ [.fb ⟨5⟩ [⟨6⟩] [] (.let_ [⟨7⟩] (.apply ⟨3⟩ [⟨6⟩] []) (.apply ⟨5⟩ [⟨7⟩] []))]
        (.ret [⟨4⟩]))]
    (.apply ⟨3⟩ [⟨1⟩] []))

/-- The use of `f` that is left is not bound any more. -/
theorem nested_not_sound : nested.Scoped ∧ nested.UniqueBinders ∧
    ¬ (transform nested nested.useCount).Scoped ∧ ¬ Sound nested (transform nested nested.useCount) := by
  have hres : (transform nested nested.useCount).body = .fb ⟨0⟩ [⟨1⟩] [⟨2⟩] (.apply ⟨3⟩ [⟨1⟩] []) := by rfl
  have hbad : ¬ (transform nested nested.useCount).Scoped := by
    rw [Module.Scoped, hres]
    simp [Lambda.Scoped, Exp.Scoped, transform, nested]
  refine ⟨?_, ?_, hbad, fun h => hbad h.wellScoped⟩
  · simp [Module.Scoped, nested, Lambda.Scoped, Exp.Scoped, ScopedFBs]
  · unfold Module.UniqueBinders
    decide

end Manticore.Bom.DeadFuns
