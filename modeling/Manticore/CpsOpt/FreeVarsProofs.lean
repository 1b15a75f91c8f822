/-
  Manticore.CpsOpt.FreeVarsProofs — the recorded set of a group of functions, or of a continuation,
  is exactly what the group needs from outside (`envOfFun_exact`): its free variables, where
  a join point that is bound outside stands for what it needs itself.

  All functions of a group have one set. A function of a group of several may have more
  than its own body needs (`group_env_not_exact`).
-/

import Manticore.CpsOpt.ClassifyContsProofs
import Manticore.CpsOpt.FreeVars

namespace Manticore.CpsOpt.FreeVars

open Cps
open List (mem_cons map_cons mem_cons_of_mem mem_map_of_mem mem_singleton mem_map mem_flatMap mem_cons_self mem_append
  mem_append_right mem_append_left Forall₂ not_mem_nil mem_singleton_self map_map)
open Finset (mem_erase notMem_empty mem_union)
open Function (update update_self update_of_ne)
open Exp (kids binders_eq uses_eq subs_eq)
open ClassifyConts (unique_binder mem_subs_of_kid isJoinCont kindOfCont nodup_body join_sound known_body)

/-! ## What is needed -/

/-- The expressions right below an expression, each with the variables that are bound around it. -/
def boundKids : Exp → List (List Var × Exp)
  | .let_ _ lhs _ e => [(lhs, e)]
  | .fun_ _ fbs e =>
    fbs.map (fun fb => (fb.params ++ (fb.rets ++ fbs.map Lambda.f), fb.body)) ++ [(fbs.map Lambda.f, e)]
  | .cont _ fb e => [(fb.params ++ (fb.rets ++ [fb.f]), fb.body), ([fb.f], e)]
  | .if_ _ _ e₁ e₂ => [([], e₁), ([], e₂)]
  | .switch _ _ cases dflt => (cases.map (·.2) ++ dflt.toList).map fun e => ([], e)
  | .apply _ _ _ _ | .throw _ _ _ => []

/-- `x` occurs free in the expression. -/
inductive Free (x : Var) : Exp → Prop
  | here {e} : x ∈ e.usesHere → Free x e
  | kid {e p} : p ∈ boundKids e → x ∉ p.1 → Free x p.2 → Free x e

/-- `x` occurs free in the lambda, where its own name counts as an occurrence. -/
def FreeIn (x : Var) (fb : Lambda) : Prop := x ∉ fb.params ∧ x ∉ fb.rets ∧ Free x fb.body

/-- The lambdas of a group need `x` from outside: it is free in one of them, or a join point that is needs it.
    C functions are always at hand. -/
inductive Needs (m : Module) (join : Var → Bool) : List Lambda → Var → Prop
  | free {group fb x} : fb ∈ group → FreeIn x fb → x ∉ group.map Lambda.f → join x = false → x ∉ m.externs →
      Needs m join group x
  | join {group fb pt j e x} : fb ∈ group → .cont pt j e ∈ m.body.body.subs → join j.f = true → FreeIn j.f fb →
      j.f ∉ group.map Lambda.f → Needs m join [j] x → Needs m join group x

/-- The expression needs `x` from outside. -/
def NeedsExp (m : Module) (join : Var → Bool) (e : Exp) (x : Var) : Prop :=
  (Free x e ∧ join x = false ∧ x ∉ m.externs) ∨
    ∃ pt j e', .cont pt j e' ∈ m.body.body.subs ∧ join j.f = true ∧ Free j.f e ∧ Needs m join [j] x

theorem needs_iff {m : Module} {join : Var → Bool} {group : List Lambda} {x : Var} :
    Needs m join group x ↔ ∃ fb ∈ group, (x ∉ group.map Lambda.f ∧ FreeIn x fb ∧ join x = false ∧ x ∉ m.externs) ∨
      ∃ pt j e, .cont pt j e ∈ m.body.body.subs ∧ join j.f = true ∧ FreeIn j.f fb ∧ j.f ∉ group.map Lambda.f ∧
        Needs m join [j] x := by
  constructor
  · intro h
    cases h with
    | free h₁ h₂ h₃ h₄ h₅ => exact ⟨_, h₁, Or.inl ⟨h₃, h₂, h₄, h₅⟩⟩
    | join h₁ h₂ h₃ h₄ h₅ h₆ => exact ⟨_, h₁, Or.inr ⟨_, _, _, h₂, h₃, h₄, h₅, h₆⟩⟩
  · intro h
    obtain ⟨fb, hfb, ⟨h₁, h₂, h₃, h₄⟩ | ⟨pt, j, e, h₁, h₂, h₃, h₄, h₅⟩⟩ := h
    · exact .free hfb h₂ h₁ h₃ h₄
    · exact .join hfb h₁ h₂ h₃ h₄ h₅

/-! ## Sets -/

section Sets

variable {externs : List Var} {x : Var}

theorem mem_addVar {fv : Finset Var} {y : Var} : x ∈ addVar externs fv y ↔ x ∈ fv ∨ (x = y ∧ x ∉ externs) := by
  unfold addVar
  by_cases hy : y ∈ externs
  · rw [if_pos (List.contains_iff_mem.2 hy)]
    simp_all
  grind

theorem mem_addVars {fv : Finset Var} {ys : List Var} :
    x ∈ addVars externs fv ys ↔ x ∈ fv ∨ (x ∈ ys ∧ x ∉ externs) := by
  induction ys generalizing fv with
  | nil => simp [addVars]
  | cons y ys ih =>
    show x ∈ addVars externs (addVar externs fv y) ys ↔ _
    rw [ih, mem_addVar, mem_cons, or_assoc, or_and_right]

theorem mem_removes {s : Finset Var} {ys : List Var} : x ∈ removes s ys ↔ x ∈ s ∧ x ∉ ys := by
  induction ys generalizing s with
  | nil => simp [removes]
  | cons y ys ih =>
    show x ∈ removes (remove s y) ys ↔ _
    rw [ih, remove, mem_erase, mem_cons, not_or]
    grind

theorem setFVs_apply {fbs : List Lambda} {env : Finset Var} {T : Table} :
    setFVs fbs env T x = if x ∈ fbs.map Lambda.f then env else T x := by
  induction fbs generalizing T with
  | nil => rfl
  | cons fb fbs ih =>
    show setFVs fbs env (update T fb.f env) x = _
    rw [ih, map_cons]
    by_cases hx : x ∈ fbs.map Lambda.f
    · rw [if_pos hx, if_pos (mem_cons_of_mem _ hx)]
    grind

end Sets

/-! ## Lists of expressions -/

section Lists

variable {externs : List Var} {join : Var → Bool}

/-- The expressions one after the other, with the set of each. -/
def analAll (externs : List Var) (join : Var → Bool) : List Exp → Table → List (Finset Var) × Table
  | [], T => ([], T)
  | e :: es, T =>
    let r := analExp externs join e T
    let rs := analAll externs join es r.2
    (r.1 :: rs.1, rs.2)

theorem analFBs_eq (fbs : List Lambda) (fv : Finset Var) (T : Table) :
    (analFBs externs join fbs fv T).2 = (analAll externs join (fbs.map Lambda.body) T).2 ∧
      ∀ x, x ∈ (analFBs externs join fbs fv T).1 ↔ x ∈ fv ∨
        ∃ p ∈ fbs.zip (analAll externs join (fbs.map Lambda.body) T).1, x ∈ p.2 ∧
          ¬ ((x ∈ p.1.params ∨ x ∈ p.1.rets) ∧ x ∉ externs) := by
  induction fbs generalizing fv T with
  | nil => exact ⟨rfl, fun x => by simp [analFBs]⟩
  | cons fb fbs ih =>
    obtain ⟨h₁, h₂⟩ := ih ((analFB externs join fb T).1 ∪ fv) (analFB externs join fb T).2
    have hfb : (analFB externs join fb T).2 = (analExp externs join fb.body T).2 ∧
        ∀ x, x ∈ (analFB externs join fb T).1 ↔ x ∈ (analExp externs join fb.body T).1 ∧
          ¬ ((x ∈ fb.params ∨ x ∈ fb.rets) ∧ x ∉ externs) := by
      cases fb with
      | fb f params rets body =>
        refine ⟨rfl, fun x => ?_⟩
        show x ∈ (analExp externs join body T).1 \ _ ↔ _
        rw [Finset.mem_sdiff, mem_addVars, mem_addVars]
        simp only [notMem_empty, false_or, Lambda.params_fb, Lambda.rets_fb, Lambda.body_fb, or_and_right]
    refine ⟨?_, fun x => ?_⟩
    · show (analFBs externs join fbs _ _).2 = _
      rw [h₁, hfb.1]
      rfl
    · show x ∈ (analFBs externs join fbs _ _).1 ↔ _
      rw [h₂ x, mem_union, hfb.2 x, hfb.1]
      show _ ↔ x ∈ fv ∨ ∃ p ∈ (fb, _) :: fbs.zip _, _
      simp only [mem_cons, exists_eq_or_imp]
      rw [or_comm (b := x ∈ fv), or_assoc]

theorem analCases_eq (cases : List (Nat × Exp)) (fv : Finset Var) (T : Table) :
    (analCases externs join cases fv T).2 = (analAll externs join (cases.map (·.2)) T).2 ∧
      ∀ x, x ∈ (analCases externs join cases fv T).1 ↔ x ∈ fv ∨
        ∃ s ∈ (analAll externs join (cases.map (·.2)) T).1, x ∈ s := by
  induction cases generalizing fv T with
  | nil => exact ⟨rfl, fun x => by simp [analCases, analAll]⟩
  | cons c cases ih =>
    obtain ⟨h₁, h₂⟩ := ih (fv ∪ (analExp externs join c.2 T).1) (analExp externs join c.2 T).2
    refine ⟨h₁, fun x => ?_⟩
    show x ∈ (analCases externs join cases _ _).1 ↔ _
    rw [h₂ x, mem_union]
    show _ ↔ x ∈ fv ∨ ∃ s ∈ (analExp externs join c.2 T).1 :: _, x ∈ s
    simp only [mem_cons, exists_eq_or_imp]
    rw [or_assoc]

theorem analAll_append (es es' : List Exp) (T : Table) :
    analAll externs join (es ++ es') T =
      ((analAll externs join es T).1 ++ (analAll externs join es' (analAll externs join es T).2).1,
        (analAll externs join es' (analAll externs join es T).2).2) := by
  induction es generalizing T with
  | nil => rfl
  | cons e es ih =>
    simp [analAll, ih]

end Lists

/-! ## Scopes -/

theorem map_boundKids (e : Exp) : (boundKids e).map (·.2) = e.kids := by
  cases e <;> simp [boundKids, kids, Function.comp_def]

variable {e : Exp} {p : List Var × Exp} {P : Var → Prop} {Γ : List Var}

theorem mem_kids_of_boundKids (h : p ∈ boundKids e) : p.2 ∈ e.kids := by
  rw [← map_boundKids e]
  exact mem_map_of_mem h

theorem boundKids_bindsHere (h : p ∈ boundKids e) : p.1 ⊆ e.bindsHere := by
  intro x hx
  cases e with
  | let_ pt lhs rhs e =>
    rw [mem_singleton.1 h] at hx
    exact hx
  | fun_ pt fbs e =>
    have hname : x ∈ fbs.map Lambda.f → x ∈ (Exp.fun_ pt fbs e).bindsHere := by
      intro hx
      obtain ⟨fb, hfb, rfl⟩ := mem_map.1 hx
      exact mem_flatMap.2 ⟨fb, hfb, mem_cons_self⟩
    rcases mem_append.1 h with h | h
    · obtain ⟨fb, hfb, rfl⟩ := mem_map.1 h
      simp only [mem_append] at hx
      rcases hx with hx | hx | hx
      · exact mem_flatMap.2 ⟨fb, hfb, by simp [Lambda.bindsHere, hx]⟩
      · exact mem_flatMap.2 ⟨fb, hfb, by simp [Lambda.bindsHere, hx]⟩
      · exact hname hx
    · rw [mem_singleton.1 h] at hx
      exact hname hx
  | cont pt fb e =>
    show x ∈ fb.bindsHere
    rcases mem_cons.1 h with rfl | h
    · grind [Lambda.bindsHere]
    · rw [mem_singleton.1 h] at hx
      simp [Lambda.bindsHere, mem_singleton.1 hx]
  | if_ pt c e₁ e₂ =>
    rcases mem_cons.1 h with rfl | h
    · cases hx
    · rw [mem_singleton.1 h] at hx
      cases hx
  | switch pt y cases dflt =>
    obtain ⟨e', _, rfl⟩ := mem_map.1 h
    cases hx
  | apply | throw => cases h

theorem scoped_boundKids (hs : e.Scoped P Γ) (h : p ∈ boundKids e) : p.2.Scoped P (p.1 ++ Γ) := by
  cases e with
  | let_ pt lhs rhs e =>
    rw [Exp.Scoped] at hs
    rw [mem_singleton.1 h]
    exact hs.2
  | fun_ pt fbs e =>
    rw [Exp.Scoped, scopedFBs_iff] at hs
    rcases mem_append.1 h with h | h
    · grind [Lambda.scoped_iff]
    · rw [mem_singleton.1 h]
      exact hs.2
  | cont pt fb e =>
    rw [Exp.Scoped] at hs
    rcases mem_cons.1 h with rfl | h
    · have := Lambda.scoped_iff.1 hs.1
      simpa [List.append_assoc] using this
    · rw [mem_singleton.1 h]
      exact hs.2
  | if_ pt c e₁ e₂ =>
    rw [Exp.Scoped] at hs
    rcases mem_cons.1 h with rfl | h
    · exact hs.2.1
    · rw [mem_singleton.1 h]
      exact hs.2.2
  | switch pt y cases dflt =>
    rw [Exp.Scoped, scopedCases_iff] at hs
    obtain ⟨e', he', rfl⟩ := mem_map.1 h
    rcases mem_append.1 he' with he' | he'
    · obtain ⟨c, hc, rfl⟩ := mem_map.1 he'
      exact hs.2.1 c hc
    · cases dflt with
      | none => cases he'
      | some d =>
        rw [Option.toList_some, mem_singleton] at he'
        rw [he']
        exact hs.2.2
  | apply | throw => cases h

theorem wf_boundKids (hwf : e.WF P Γ) (h : p ∈ boundKids e) : p.2.WF P (p.1 ++ Γ) := by
  have hn := hwf.nodup
  rw [binders_eq, List.nodup_append] at hn
  have hkid := mem_kids_of_boundKids h
  refine ⟨scoped_boundKids hwf.inScope h, (List.nodup_flatMap.1 hn.2.1).1 p.2 hkid, fun x hx hΓ => ?_⟩
  have hx' : x ∈ e.kids.flatMap Exp.binders := mem_flatMap.2 ⟨p.2, hkid, hx⟩
  rcases mem_append.1 hΓ with hΓ | hΓ
  · exact hn.2.2 x (boundKids_bindsHere h hΓ) x hx' rfl
  · refine hwf.fresh x ?_ hΓ
    rw [binders_eq]
    exact mem_append_right _ hx'

theorem Free.mem_uses {x : Var} (h : Free x e) : x ∈ e.uses := by
  induction h with
  | here h =>
    rw [uses_eq]
    exact mem_append_left _ h
  | kid hp _ _ ih =>
    rw [uses_eq]
    exact mem_append_right _ (mem_flatMap.2 ⟨_, mem_kids_of_boundKids hp, ih⟩)

theorem usesHere_subset (hs : e.Scoped P Γ) : e.usesHere ⊆ Γ := by
  intro x hx
  cases e with
  | let_ | if_ =>
    rw [Exp.Scoped] at hs
    exact hs.1 hx
  | fun_ pt fbs e => cases hx
  | cont pt fb e => cases hx
  | switch pt y cases dflt =>
    rw [Exp.Scoped] at hs
    rw [show x = y from mem_singleton.1 hx]
    exact hs.1
  | apply pt f args rets =>
    rw [Exp.Scoped] at hs
    rcases mem_cons.1 (show x ∈ f :: (args ++ rets) from hx) with hx | hx
    · rw [hx]
      exact hs.1
    grind
  | throw pt k args =>
    rw [Exp.Scoped] at hs
    rcases mem_cons.1 (show x ∈ k :: args from hx) with hx | hx
    · rw [hx]
      exact hs.1
    · exact hs.2 hx

theorem Free.mem_scope {x : Var} (h : Free x e) : ∀ {Γ}, e.Scoped P Γ → x ∈ Γ := by
  induction h with
  | here h => exact fun hs => usesHere_subset hs h
  | kid hp hx _ ih =>
    intro Γ hs
    exact (mem_append.1 (ih (scoped_boundKids hs hp))).resolve_left hx

/-! ## Correctness -/

section Correctness

variable {m : Module} {join : Var → Bool}

/-- What is known of the join points of a module. -/
structure JoinOk (m : Module) (join : Var → Bool) : Prop where
  unique : m.body.body.binders.Nodup
  bound : ∀ x, join x = true → x ∈ m.body.body.contNames
  notArg : ∀ x, join x = true → x ∉ m.body.body.args
  notRec : ∀ pt fb e, .cont pt fb e ∈ m.body.body.subs → join fb.f = true → fb.f ∉ fb.body.uses

/-- The table has the needs of the join points that are in scope and used. -/
def TableOk (m : Module) (join : Var → Bool) (T : Table) (Γ : List Var) (e : Exp) : Prop :=
  ∀ pt j e', .cont pt j e' ∈ m.body.body.subs → join j.f = true → j.f ∈ Γ → j.f ∈ e.uses →
    ∀ x, (x ∈ T j.f ↔ Needs m join [j] x) ∧ (x ∈ T j.f → x ∈ Γ)

/-- The set is what the expression needs, and the table has the needs of all groups in the expression. -/
structure Correct (m : Module) (join : Var → Bool) (Γ : List Var) (e : Exp) (T : Table) (r : Finset Var × Table) :
    Prop where
  mem : ∀ x, x ∈ r.1 ↔ NeedsExp m join e x
  sub : ∀ x ∈ r.1, x ∈ Γ
  keep : ∀ y, y ∉ e.binders → r.2 y = T y
  envs : ∀ e' ∈ e.subs, ∀ fb ∈ e'.fbs, ∀ x, x ∈ r.2 fb.f ↔ Needs m join e'.fbs x

variable {e : Exp} {fb : Lambda} {T : Table} {Γ : List Var} {x : Var} {group : List Lambda} {p : List Var × Exp}
  {P : Var → Prop}

theorem f_mem_bindsHere (h : fb ∈ e.fbs) : fb.f ∈ e.bindsHere := by
  cases e with
  | fun_ pt fbs e => exact mem_flatMap.2 ⟨fb, h, mem_cons_self⟩
  | cont pt fb' e =>
    rw [mem_singleton.1 h]
    exact mem_cons_self
  | _ => cases h

theorem f_mem_binders {e' : Exp} (he : e' ∈ e.subs) (h : fb ∈ e'.fbs) : fb.f ∈ e.binders :=
  mem_flatMap.2 ⟨e', he, f_mem_bindsHere h⟩

theorem TableOk.congr {T' : Table} (h : TableOk m join T Γ e) (hT : ∀ y ∈ Γ, join y = true → T' y = T y) :
    TableOk m join T' Γ e := by
  intro pt j e' he' hj hΓ hu
  rw [hT j.f hΓ hj]
  exact h pt j e' he' hj hΓ hu

/-- A binder of the first expression is none of the second, nor is it in its scope. -/
def Disjoint' (p q : List Var × Exp) : Prop := ∀ x ∈ p.2.binders, x ∉ q.2.binders ∧ x ∉ q.1

theorem analAll_correct {ks : List (List Var × Exp)}
    (hrec : ∀ k ∈ ks, ∀ T, TableOk m join T k.1 k.2 →
      Correct m join k.1 k.2 T (analExp m.externs join k.2 T)) (hapart : ks.Pairwise Disjoint') :
    ∀ T, (∀ k ∈ ks, TableOk m join T k.1 k.2) →
      Forall₂ (fun k s => ∀ x, (x ∈ s ↔ NeedsExp m join k.2 x) ∧ (x ∈ s → x ∈ k.1)) ks
        (analAll m.externs join (ks.map (·.2)) T).1 ∧
      (∀ y, (∀ k ∈ ks, y ∉ k.2.binders) → (analAll m.externs join (ks.map (·.2)) T).2 y = T y) ∧
      ∀ k ∈ ks, ∀ e' ∈ k.2.subs, ∀ fb ∈ e'.fbs, ∀ x,
        x ∈ (analAll m.externs join (ks.map (·.2)) T).2 fb.f ↔ Needs m join e'.fbs x := by
  induction ks with
  | nil => exact fun T _ => ⟨.nil, fun _ _ => rfl, fun k hk => absurd hk not_mem_nil⟩
  | cons k ks ih =>
    intro T hT
    obtain ⟨hk, hks⟩ := List.pairwise_cons.1 hapart
    have hc := hrec k mem_cons_self T (hT k mem_cons_self)
    have hT' : ∀ q ∈ ks, TableOk m join (analExp m.externs join k.2 T).2 q.1 q.2 := by
      intro q hq
      refine (hT q (mem_cons_of_mem _ hq)).congr fun y hy _ => hc.keep y fun hb => ?_
      exact (hk q hq y hb).2 hy
    obtain ⟨h₁, h₂, h₃⟩ := ih (fun q hq => hrec q (mem_cons_of_mem _ hq)) hks _ hT'
    refine ⟨.cons (fun x => ⟨hc.mem x, hc.sub x⟩) h₁, fun y hy => ?_, fun q hq e' he' fb hfb x => ?_⟩
    · show (analAll m.externs join (ks.map (·.2)) _).2 y = T y
      rw [h₂ y fun q hq => hy q (mem_cons_of_mem _ hq), hc.keep y (hy k mem_cons_self)]
    · show x ∈ (analAll m.externs join (ks.map (·.2)) _).2 fb.f ↔ _
      rcases mem_cons.1 hq with rfl | hq
      · rw [h₂ fb.f fun r hr => (hk r hr fb.f (f_mem_binders he' hfb)).1]
        exact hc.envs e' he' fb hfb x
      · exact h₃ q hq e' he' fb hfb x

/-- The union of the sets of some expressions, some elements of each left out. -/
theorem exists_zip_iff {α : Type} {Q : α → Var → Prop} {C : α → Prop} {l : List α} {l' : List (Finset Var)}
    (h : Forall₂ (fun a s => x ∈ s ↔ Q a x) l l') :
    (∃ p ∈ l.zip l', x ∈ p.2 ∧ C p.1) ↔ ∃ a ∈ l, Q a x ∧ C a := by
  induction h with
  | nil => simp
  | @cons a s l l' has _ ih =>
    simp only [List.zip_cons_cons, mem_cons, exists_eq_or_imp]
    rw [ih, has]

theorem exists_mem_iff {α : Type} {Q : α → Var → Prop} {l : List α} {l' : List (Finset Var)}
    (h : Forall₂ (fun a s => x ∈ s ↔ Q a x) l l') : (∃ s ∈ l', x ∈ s) ↔ ∃ a ∈ l, Q a x := by
  induction h with
  | nil => simp
  | @cons a s l l' has _ ih =>
    simp only [mem_cons, exists_eq_or_imp]
    rw [ih, has]

/-! What is needed by the parts of an expression. -/

theorem free_iff : Free x e ↔ x ∈ e.usesHere ∨ ∃ p ∈ boundKids e, x ∉ p.1 ∧ Free x p.2 := by
  constructor
  · intro h
    cases h with
    | here h => exact Or.inl h
    | kid hp hx h => exact Or.inr ⟨_, hp, hx, h⟩
  · intro h
    rcases h with h | ⟨p, hp, hx, h⟩
    · exact .here h
    · exact .kid hp hx h

theorem Needs.not_extern (h : Needs m join group x) : x ∉ m.externs := by
  induction h with
  | free _ _ _ _ h => exact h
  | join _ _ _ _ _ _ ih => exact ih

theorem NeedsExp.not_extern (h : NeedsExp m join e x) : x ∉ m.externs := by
  rcases h with ⟨_, _, h⟩ | ⟨_, _, _, _, _, _, h⟩
  · exact h
  · exact h.not_extern

theorem NeedsExp.kid (h : NeedsExp m join p.2 x) (hp : p ∈ boundKids e) (hx : x ∉ p.1)
    (hj : ∀ y, join y = true → Free y p.2 → y ∉ p.1) : NeedsExp m join e x := by
  rcases h with ⟨h₁, h₂, h₃⟩ | ⟨pt, j, e', h₁, h₂, h₃, h₄⟩
  · exact Or.inl ⟨.kid hp hx h₁, h₂, h₃⟩
  · exact Or.inr ⟨pt, j, e', h₁, h₂, .kid hp (hj j.f h₂ h₃) h₃, h₄⟩

theorem TableOk.mem_scope {e' : Exp} {pt : Ppt} {j : Lambda} (hT : TableOk m join T Γ e) (hs : e.Scoped P Γ)
    (hc : .cont pt j e' ∈ m.body.body.subs) (hj : join j.f = true) (hf : Free j.f e) (h : Needs m join [j] x) :
    x ∈ Γ := by
  obtain ⟨h₁, h₂⟩ := hT pt j e' hc hj (hf.mem_scope hs) hf.mem_uses x
  exact h₂ (h₁.2 h)

theorem NeedsExp.mem_scope (hT : TableOk m join T Γ e) (hs : e.Scoped P Γ) (h : NeedsExp m join e x) : x ∈ Γ := by
  rcases h with ⟨h, _, _⟩ | ⟨pt, j, e', hc, hj, hf, h⟩
  · exact h.mem_scope hs
  · exact hT.mem_scope hs hc hj hf h

theorem not_bindsHere_of_scope (hwf : e.WF P Γ) (hx : x ∈ Γ) : x ∉ e.bindsHere := by
  intro h
  refine hwf.fresh x ?_ hx
  rw [binders_eq]
  exact mem_append_left _ h

/-- What is needed is needed at the root, or by a kid. -/
theorem NeedsExp.cases (hwf : e.WF P Γ) (hT : TableOk m join T Γ e) (h : NeedsExp m join e x) :
    (x ∈ e.usesHere ∧ join x = false) ∨
      (∃ pt j e', .cont pt j e' ∈ m.body.body.subs ∧ join j.f = true ∧ j.f ∈ e.usesHere ∧ Needs m join [j] x) ∨ ∃ p
      ∈ boundKids e, x ∉ p.1 ∧ NeedsExp m join p.2 x := by
  rcases h with ⟨h₁, h₂, h₃⟩ | ⟨pt, j, e', hc, hj, hf, h⟩
  · rcases free_iff.1 h₁ with h | ⟨p, hp, hx, h⟩
    · exact Or.inl ⟨h, h₂⟩
    · exact Or.inr (Or.inr ⟨p, hp, hx, Or.inl ⟨h, h₂, h₃⟩⟩)
  · rcases free_iff.1 hf with hu | ⟨p, hp, hx, hf'⟩
    · exact Or.inr (Or.inl ⟨pt, j, e', hc, hj, hu, h⟩)
    · have hΓ := hT.mem_scope hwf.inScope hc hj hf h
      exact Or.inr (Or.inr ⟨p, hp, fun hb => not_bindsHere_of_scope hwf hΓ (boundKids_bindsHere hp hb),
        Or.inr ⟨pt, j, e', hc, hj, hf', h⟩⟩)

/-- A join point is bound as a continuation only. -/
theorem JoinOk.not_bindsHere (hJ : JoinOk m join) (he : e ∈ m.body.body.subs) (hx : join x = true)
    (hb : x ∈ e.bindsHere) : ∃ pt fb e', e = .cont pt fb e' ∧ x = fb.f := by
  obtain ⟨e', he', hc⟩ := mem_flatMap.1 (hJ.bound x hx)
  cases e' with
  | cont pt fb e' =>
    have hxf : x = fb.f := mem_singleton.1 hc
    have hb' : x ∈ (Exp.cont pt fb e').bindsHere := by
      rw [hxf]
      exact mem_cons_self
    exact ⟨pt, fb, e', unique_binder hJ.unique he he' hb hb', hxf⟩
  | _ => cases hc

/-- A table that is right for an expression is right for a kid, unless the kid is in the scope of a join point. -/
theorem TableOk.kid (hT : TableOk m join T Γ e) (hp : p ∈ boundKids e)
    (hj : ∀ y, join y = true → y ∈ p.2.uses → y ∉ p.1) : TableOk m join T (p.1 ++ Γ) p.2 := by
  intro pt j e' hc hjoin hΓ hu x
  have hjΓ : j.f ∈ Γ := (mem_append.1 hΓ).resolve_left (hj j.f hjoin hu)
  have huse : j.f ∈ e.uses := by
    rw [uses_eq]
    exact mem_append_right _ (mem_flatMap.2 ⟨p.2, mem_kids_of_boundKids hp, hu⟩)
  obtain ⟨h₁, h₂⟩ := hT pt j e' hc hjoin hjΓ huse x
  exact ⟨h₁, fun h => mem_append_right _ (h₂ h)⟩

/-- The kids of a well-formed expression have no binders in common. -/
theorem boundKids_apart (hwf : e.WF P Γ) : ((boundKids e).map fun p => (p.1 ++ Γ, p.2)).Pairwise Disjoint' := by
  have hn := hwf.nodup
  rw [binders_eq, List.nodup_append] at hn
  have hpair : (boundKids e).Pairwise fun p q => List.Disjoint p.2.binders q.2.binders := by
    have h := (List.nodup_flatMap.1 hn.2.1).2
    rw [← map_boundKids e, List.pairwise_map] at h
    exact h
  rw [List.pairwise_map]
  refine hpair.imp_of_mem ?_
  intro p q hp hq hd x hx
  have hx' : x ∈ e.kids.flatMap Exp.binders := mem_flatMap.2 ⟨p.2, mem_kids_of_boundKids hp, hx⟩
  refine ⟨fun h => hd hx h, fun h => ?_⟩
  rcases mem_append.1 h with h | h
  · exact hn.2.2 x (boundKids_bindsHere hq h) x hx' rfl
  · refine hwf.fresh x ?_ h
    rw [binders_eq]
    exact mem_append_right _ hx'

/-- What an expression that binds no join point needs. -/
theorem needsExp_iff (hwf : e.WF P Γ) (hT : TableOk m join T Γ e) (hj : ∀ y ∈ e.bindsHere, join y = false)
    (hargs : ∀ y ∈ e.argsHere, join y = false) :
    NeedsExp m join e x ↔ (x ∈ e.argsHere ∧ x ∉ m.externs) ∨
      (∃ k, e.called = some k ∧ ((x = k ∧ join k = false ∧ x ∉ m.externs) ∨ ∃ pt j e', .cont pt j e' ∈ m.body.body.subs ∧ join j.f = true ∧ j.f = k ∧ Needs m join [j] x))
      ∨ ∃ p ∈ boundKids e, x ∉ p.1 ∧ NeedsExp m join p.2 x := by
  have hmem : ∀ y, y ∈ e.usesHere ↔ e.called = some y ∨ y ∈ e.argsHere := by
    intro y
    rw [Exp.usesHere, mem_append, Option.mem_toList]
  constructor
  · intro h
    have hext := h.not_extern
    rcases h.cases hwf hT with ⟨hu, hx⟩ | ⟨pt, j, e', hc, hjoin, hu, h⟩ | h
    · grind
    · grind
    · exact Or.inr (Or.inr h)
  · intro h
    rcases h with ⟨ha, hext⟩ | ⟨k, hk, h⟩ | ⟨p, hp, hx, h⟩
    · exact Or.inl ⟨.here ((hmem x).2 (Or.inr ha)), hargs x ha, hext⟩
    · rcases h with ⟨rfl, hx, hext⟩ | ⟨pt, j, e', hc, hjoin, rfl, h⟩
      · exact Or.inl ⟨.here ((hmem x).2 (Or.inl hk)), hx, hext⟩
      · exact Or.inr ⟨pt, j, e', hc, hjoin, .here ((hmem j.f).2 (Or.inl hk)), h⟩
    · refine h.kid hp hx fun y hy _ hb => ?_
      rw [hj y (boundKids_bindsHere hp hb)] at hy
      cases hy

/-- What a lambda of a group binds around its body. -/
def boundIn (group : List Lambda) (fb : Lambda) : List Var := fb.params ++ (fb.rets ++ group.map Lambda.f)

theorem not_mem_boundIn : x ∉ boundIn group fb ↔ x ∉ fb.params ∧ x ∉ fb.rets ∧ x ∉ group.map Lambda.f := by
  rw [boundIn, mem_append, mem_append, not_or, not_or]

/-- What a group of lambdas needs, from what their bodies need. -/
theorem needs_group_iff
    (hb : ∀ fb ∈ group, ∀ pt j e, .cont pt j e ∈ m.body.body.subs → join j.f = true → Free j.f fb.body → j.f ∉ boundIn group fb ∧ (Needs m join [j] x → x ∉ boundIn group fb))
    : Needs m join group x ↔ ∃ fb ∈ group, x ∉ boundIn group fb ∧ NeedsExp m join fb.body x := by
  rw [needs_iff]
  refine exists_congr fun fb => and_congr_right fun hfb => ?_
  constructor
  · rintro (⟨hx, ⟨h₁, h₂, h₃⟩, hj, hext⟩ | ⟨pt, j, e, hc, hj, ⟨h₁, h₂, h₃⟩, hf, h⟩)
    · exact ⟨not_mem_boundIn.2 ⟨h₁, h₂, hx⟩, Or.inl ⟨h₃, hj, hext⟩⟩
    · exact ⟨(hb fb hfb pt j e hc hj h₃).2 h, Or.inr ⟨pt, j, e, hc, hj, h₃, h⟩⟩
  · rintro ⟨hx, ⟨h₁, hj, hext⟩ | ⟨pt, j, e, hc, hj, hf, h⟩⟩
    · obtain ⟨hp, hr, hg⟩ := not_mem_boundIn.1 hx
      exact Or.inl ⟨hg, ⟨hp, hr, h₁⟩, hj, hext⟩
    · obtain ⟨hp, hr, hg⟩ := not_mem_boundIn.1 (hb fb hfb pt j e hc hj hf).1
      exact Or.inr ⟨pt, j, e, hc, hj, ⟨hp, hr, hf⟩, hg, h⟩

/-- What the lambdas that the root of an expression binds need. -/
theorem needs_fbs_iff (hwf : e.WF P Γ) (hT : TableOk m join T Γ e)
    (hk : ∀ fb ∈ group, (boundIn group fb, fb.body) ∈ boundKids e)
    (hj : ∀ fb ∈ group, ∀ y, join y = true → Free y fb.body → y ∉ boundIn group fb) :
    Needs m join group x ↔ ∃ fb ∈ group, x ∉ boundIn group fb ∧ NeedsExp m join fb.body x := by
  refine needs_group_iff fun fb hfb pt j e' hcont hjoin hf => ?_
  have hnot := hj fb hfb j.f hjoin hf
  refine ⟨hnot, fun h hb => ?_⟩
  have hΓ := hT.mem_scope hwf.inScope hcont hjoin (.kid (hk fb hfb) hnot hf) h
  exact not_bindsHere_of_scope hwf hΓ (boundKids_bindsHere (hk fb hfb) hb)

/-- The set that `analFBs` or `analFB` gives for the lambdas that the root of an expression binds. -/
theorem mem_fbEnv (hwf : e.WF P Γ) (hT : TableOk m join T Γ e)
    (hk : ∀ fb ∈ group, (boundIn group fb, fb.body) ∈ boundKids e)
    (hj : ∀ fb ∈ group, ∀ y, join y = true → Free y fb.body → y ∉ boundIn group fb)
    (hsets : Forall₂ (fun fb s => ∀ x, x ∈ s ↔ NeedsExp m join fb.body x) group (analAll m.externs join (group.map Lambda.body) T).1)
    (x : Var) : x ∈ removes (analFBs m.externs join group ∅ T).1 (group.map Lambda.f) ↔ Needs m join group x := by
  rw [mem_removes, (analFBs_eq group ∅ T).2 x, needs_fbs_iff hwf hT hk hj,
    exists_zip_iff (Q := fun fb x => NeedsExp m join fb.body x)
      (C := fun fb => ¬ ((x ∈ fb.params ∨ x ∈ fb.rets) ∧ x ∉ m.externs)) (hsets.imp fun _ _ h => h x)]
  constructor
  · rintro ⟨h | ⟨fb, hfb, h, hpr⟩, hx⟩
    · exact absurd h (notMem_empty x)
    · have hpr' : ¬ (x ∈ fb.params ∨ x ∈ fb.rets) := fun h' => hpr ⟨h', h.not_extern⟩
      rw [not_or] at hpr'
      exact ⟨fb, hfb, not_mem_boundIn.2 ⟨hpr'.1, hpr'.2, hx⟩, h⟩
  grind [not_mem_boundIn]

/-! The constructors, one after the other. -/

/-- The kids are analyzed correctly. -/
def KidsOk (m : Module) (join : Var → Bool) (Γ : List Var) (e : Exp) : Prop :=
  ∀ p ∈ boundKids e, ∀ T, TableOk m join T (p.1 ++ Γ) p.2 →
    Correct m join (p.1 ++ Γ) p.2 T (analExp m.externs join p.2 T)

theorem JoinOk.args (hJ : JoinOk m join) (he : e ∈ m.body.body.subs) : ∀ y ∈ e.argsHere, join y = false := by
  intro y hy
  by_contra hj
  rw [Bool.not_eq_false] at hj
  exact hJ.notArg y hj (mem_flatMap.2 ⟨e, he, hy⟩)

theorem JoinOk.binds (hJ : JoinOk m join) (he : e ∈ m.body.body.subs) (hc : e.contHere = []) :
    ∀ y ∈ e.bindsHere, join y = false := by
  intro y hy
  by_contra hj
  rw [Bool.not_eq_false] at hj
  obtain ⟨pt, fb, e', rfl, _⟩ := hJ.not_bindsHere he hj hy
  cases hc

/-- A table that is right for an expression that binds no join point is right for its kids. -/
theorem tableOk_kids (hT : TableOk m join T Γ e) (hj : ∀ y ∈ e.bindsHere, join y = false) (hp : p ∈ boundKids e) :
    TableOk m join T (p.1 ++ Γ) p.2 := by
  refine hT.kid hp fun y hy _ hb => ?_
  rw [hj y (boundKids_bindsHere hp hb)] at hy
  cases hy

variable {P : Var → Prop} {Γ : List Var} {T : Table}

variable {pt : Ppt} {e : Exp}

theorem let_correct {lhs : List Var} {rhs : Rhs Var} (hJ : JoinOk m join)
    (he : .let_ pt lhs rhs e ∈ m.body.body.subs) (hwf : (Exp.let_ pt lhs rhs e).WF P Γ)
    (hT : TableOk m join T Γ (.let_ pt lhs rhs e)) (hkids : KidsOk m join Γ (.let_ pt lhs rhs e)) :
    Correct m join Γ (.let_ pt lhs rhs e) T (analExp m.externs join (.let_ pt lhs rhs e) T) := by
  have hbinds := hJ.binds he rfl
  have hargs := hJ.args he
  have hp : (lhs, e) ∈ boundKids (.let_ pt lhs rhs e) := mem_singleton_self _
  have hc := hkids _ hp T (tableOk_kids hT hbinds hp)
  have hmem : ∀ x, x ∈ (analExp m.externs join (.let_ pt lhs rhs e) T).1 ↔
      NeedsExp m join (.let_ pt lhs rhs e) x := by
    intro x
    show x ∈ removes (addVars m.externs (analExp m.externs join e T).1 rhs.vars) lhs ↔ _
    rw [mem_removes, mem_addVars, hc.mem x, needsExp_iff hwf hT hbinds hargs]
    constructor
    · rintro ⟨h | h, hx⟩
      · exact Or.inr (Or.inr ⟨_, hp, hx, h⟩)
      · exact Or.inl h
    · rintro (⟨h, hext⟩ | ⟨k, hk, _⟩ | ⟨p, hp', hx, h⟩)
      · have hΓ : x ∈ Γ := usesHere_subset hwf.inScope h
        exact ⟨Or.inr ⟨h, hext⟩, not_bindsHere_of_scope hwf hΓ⟩
      · cases hk
      · rw [mem_singleton.1 hp'] at hx h
        exact ⟨Or.inl h, hx⟩
  refine ⟨hmem, fun x hx => ((hmem x).1 hx).mem_scope hT hwf.inScope, fun y hy => ?_, fun e' he' => ?_⟩
  · refine hc.keep y fun hb => hy ?_
    rw [binders_eq]
    exact mem_append_right _ (mem_flatMap.2 ⟨e, mem_singleton_self _, hb⟩)
  · rcases mem_cons.1 he' with rfl | he'
    · intro fb hfb
      cases hfb
    · exact hc.envs e' he'

/-- The lambdas that the root of an expression binds, one after the other. -/
theorem bodies_correct (hwf : e.WF P Γ) (hT : TableOk m join T Γ e) (hkids : KidsOk m join Γ e)
    {group : List Lambda} (hk : ∀ fb ∈ group, (boundIn group fb, fb.body) ∈ boundKids e)
    (hj : ∀ fb ∈ group, ∀ y, join y = true → y ∈ fb.body.uses → y ∉ boundIn group fb)
    (hapart : (group.map fun fb => (boundIn group fb ++ Γ, fb.body)).Pairwise Disjoint') :
    (∀ x, x ∈ removes (analFBs m.externs join group ∅ T).1 (group.map Lambda.f) ↔ Needs m join group x) ∧
      (∀ y, (∀ fb ∈ group, y ∉ fb.body.binders) → (analFBs m.externs join group ∅ T).2 y = T y) ∧ ∀ fb ∈ group, ∀ e'
      ∈ fb.body.subs, ∀ fb' ∈ e'.fbs, ∀ x, x ∈ (analFBs m.externs join group ∅ T).2 fb'.f ↔ Needs m join e'.fbs x :=
      by
  have hmap : (group.map fun fb => (boundIn group fb ++ Γ, fb.body)).map (·.2) = group.map Lambda.body := by
    rw [map_map]
    rfl
  obtain ⟨hsets, hkeep, henvs⟩ := @analAll_correct m join _ (fun k hk' T' hT' => by
    obtain ⟨fb, hfb, rfl⟩ := mem_map.1 hk'
    exact hkids _ (hk fb hfb) T' hT') hapart T fun k hk' => by
      obtain ⟨fb, hfb, rfl⟩ := mem_map.1 hk'
      exact hT.kid (hk fb hfb) (hj fb hfb)
  rw [hmap] at hsets hkeep henvs
  rw [(analFBs_eq group ∅ T).1]
  refine ⟨?_, fun y hy => hkeep y fun k hk' => ?_, fun fb hfb => ?_⟩
  · refine mem_fbEnv hwf hT hk (fun fb hfb y hy hf => hj fb hfb y hy hf.mem_uses) ?_
    exact (List.forall₂_map_left_iff.1 hsets).imp fun fb s h x => (h x).1
  · obtain ⟨fb, hfb, rfl⟩ := mem_map.1 hk'
    exact hy fb hfb
  · exact henvs _ (mem_map_of_mem hfb)

/-- What an expression that binds lambdas needs. -/
theorem needs_or_iff {e₀ : Exp} {group : List Lambda}
    (hb : boundKids e = group.map (fun fb => (boundIn group fb, fb.body)) ++ [(group.map Lambda.f, e₀)])
    (hn : ∀ x, Needs m join group x ↔ ∃ fb ∈ group, x ∉ boundIn group fb ∧ NeedsExp m join fb.body x) (x : Var) :
    (∃ p ∈ boundKids e, x ∉ p.1 ∧ NeedsExp m join p.2 x) ↔ (NeedsExp m join e₀ x ∨ Needs m join group x) ∧ x ∉
      group.map Lambda.f := by
  rw [hb, hn]
  constructor
  · grind [not_mem_boundIn]
  · rintro ⟨h | ⟨fb, hfb, hx, h⟩, hname⟩
    · exact ⟨_, mem_append_right _ (mem_singleton_self _), hname, h⟩
    · exact ⟨_, mem_append_left _ (mem_map_of_mem hfb), hx, h⟩

theorem fun_correct {fbs : List Lambda} (hJ : JoinOk m join) (he : .fun_ pt fbs e ∈ m.body.body.subs)
    (hwf : (Exp.fun_ pt fbs e).WF P Γ) (hT : TableOk m join T Γ (.fun_ pt fbs e))
    (hkids : KidsOk m join Γ (.fun_ pt fbs e)) :
    Correct m join Γ (.fun_ pt fbs e) T (analExp m.externs join (.fun_ pt fbs e) T) := by
  have hbinds := hJ.binds he rfl
  have hnojoin : ∀ p ∈ boundKids (.fun_ pt fbs e), ∀ y, join y = true → y ∉ p.1 := by
    intro p hp y hy hb
    rw [hbinds y (boundKids_bindsHere hp hb)] at hy
    cases hy
  -- the bodies
  have hk : ∀ fb ∈ fbs, (boundIn fbs fb, fb.body) ∈ boundKids (.fun_ pt fbs e) := fun fb hfb =>
    mem_append_left _ (mem_map_of_mem hfb)
  have hapart := boundKids_apart hwf
  rw [boundKids, List.map_append, map_map, List.pairwise_append] at hapart
  obtain ⟨hbodies, _, hcross⟩ := hapart
  obtain ⟨hfbEnv, hkeep, henvs⟩ := bodies_correct hwf hT hkids hk (fun fb hfb y hy _ => hnojoin _ (hk fb hfb) y hy) hbodies
  have hneeds := fun x => needs_fbs_iff (x := x) hwf hT hk fun fb hfb y hy _ => hnojoin _ (hk fb hfb) y hy
  -- the scope of the functions
  have hp : (fbs.map Lambda.f, e) ∈ boundKids (.fun_ pt fbs e) := mem_append_right _ (mem_singleton_self _)
  have hT₂ : TableOk m join (setFVs fbs (removes (analFBs m.externs join fbs ∅ T).1 (fbs.map Lambda.f))
      (analFBs m.externs join fbs ∅ T).2) (fbs.map Lambda.f ++ Γ) e := by
    refine (tableOk_kids hT hbinds hp).congr fun y hy hjoin => ?_
    rw [setFVs_apply, if_neg (hnojoin _ hp y hjoin)]
    refine hkeep y fun fb hfb hb => ?_
    exact (hcross _ (mem_map_of_mem hfb) _ (mem_singleton_self _) y hb).2 hy
  have hfresh : ∀ y ∈ fbs.map Lambda.f, y ∉ e.binders := fun y hy hb =>
    (wf_boundKids hwf hp).fresh y hb (mem_append_left _ hy)
  have hc := hkids _ hp _ hT₂
  have hmem : ∀ x, x ∈ (analExp m.externs join (.fun_ pt fbs e) T).1 ↔
      NeedsExp m join (.fun_ pt fbs e) x := by
    intro x
    show x ∈ removes (_ ∪ _) (fbs.map Lambda.f) ↔ _
    rw [mem_removes, mem_union, hc.mem x, hfbEnv x, needsExp_iff hwf hT hbinds (hJ.args he),
      needs_or_iff rfl hneeds x]
    constructor
    · intro h
      exact Or.inr (Or.inr h)
    · rintro (⟨h, _⟩ | ⟨k, hk, _⟩ | h)
      · cases h
      · cases hk
      · exact h
  refine ⟨hmem, fun x hx => ((hmem x).1 hx).mem_scope hT hwf.inScope, fun y hy => ?_, fun e' he' => ?_⟩
  · show (analExp m.externs join e _).2 y = T y
    rw [binders_eq, mem_append, not_or] at hy
    have hkid : ∀ e' ∈ (Exp.fun_ pt fbs e).kids, y ∉ e'.binders := fun e' he' hb =>
      hy.2 (mem_flatMap.2 ⟨e', he', hb⟩)
    have hname : y ∉ fbs.map Lambda.f := fun h => hy.1 (boundKids_bindsHere hp h)
    rw [hc.keep y (hkid e (mem_kids_of_boundKids hp)), setFVs_apply, if_neg hname]
    exact hkeep y fun fb hfb => hkid fb.body (mem_kids_of_boundKids (hk fb hfb))
  · intro fb hfb x
    show x ∈ (analExp m.externs join e _).2 fb.f ↔ _
    rw [subs_eq, mem_cons, kids, List.flatMap_append, mem_append, List.flatMap_singleton] at he'
    rcases he' with rfl | he' | he'
    · have hname : fb.f ∈ fbs.map Lambda.f := mem_map_of_mem hfb
      rw [hc.keep fb.f (hfresh fb.f hname), setFVs_apply, if_pos hname]
      exact hfbEnv x
    · obtain ⟨e₁, he₁, he'⟩ := mem_flatMap.1 he'
      obtain ⟨fb', hfb', rfl⟩ := mem_map.1 he₁
      have hbind := f_mem_binders he' hfb
      obtain ⟨hnot, hnot'⟩ := hcross _ (mem_map_of_mem hfb') _ (mem_singleton_self _) fb.f hbind
      rw [hc.keep fb.f hnot, setFVs_apply, if_neg fun h => hnot' (mem_append_left _ h)]
      exact henvs fb' hfb' e' he' fb hfb x
    · exact hc.envs e' he' fb hfb x

theorem analExp_cont (externs : List Var) (pt : Ppt) (fb : Lambda) (e : Exp) (T : Table) :
    let r := analFBs externs join [fb] ∅ T
    let env := removes r.1 [fb.f]
    analExp externs join (.cont pt fb e) T =
      (remove (env ∪ (analExp externs join e (update r.2 fb.f env)).1) fb.f,
        (analExp externs join e (update r.2 fb.f env)).2) := by
  have hset : (analFBs externs join [fb] ∅ T).1 = (analFB externs join fb T).1 := Finset.union_empty _
  simp only [hset]
  rfl

theorem cont_correct {fb : Lambda} (hJ : JoinOk m join) (he : .cont pt fb e ∈ m.body.body.subs)
    (hwf : (Exp.cont pt fb e).WF P Γ) (hT : TableOk m join T Γ (.cont pt fb e))
    (hkids : KidsOk m join Γ (.cont pt fb e)) :
    Correct m join Γ (.cont pt fb e) T (analExp m.externs join (.cont pt fb e) T) := by
  -- the body
  have hk : ∀ fb' ∈ [fb], (boundIn [fb] fb', fb'.body) ∈ boundKids (.cont pt fb e) := by
    intro fb' hfb'
    rw [mem_singleton.1 hfb']
    exact mem_cons_self
  have hjoin : ∀ y, join y = true → y ∈ (Exp.cont pt fb e).bindsHere → y = fb.f := by
    intro y hy hb
    obtain ⟨pt', fb', e', heq, hyf⟩ := hJ.not_bindsHere he hy hb
    cases heq
    exact hyf
  have hj : ∀ fb' ∈ [fb], ∀ y, join y = true → y ∈ fb'.body.uses → y ∉ boundIn [fb] fb' := by
    intro fb' hfb' y hy hu hb
    have hyf := hjoin y hy (boundKids_bindsHere (hk fb' hfb') hb)
    rw [mem_singleton.1 hfb'] at hu
    exact hJ.notRec pt fb e he (hyf ▸ hy) (hyf ▸ hu)
  have hapart := boundKids_apart hwf
  rw [boundKids, map_cons, List.pairwise_cons] at hapart
  obtain ⟨hfbEnv, hkeep, henvs⟩ := bodies_correct hwf hT hkids hk hj (List.pairwise_singleton _ _)
  have hneeds := fun x => needs_fbs_iff (x := x) hwf hT hk fun fb hfb y hy hf => hj fb hfb y hy hf.mem_uses
  -- the scope of the continuation
  have hp : ([fb.f], e) ∈ boundKids (.cont pt fb e) := mem_cons_of_mem _ (mem_singleton_self _)
  have hcross := hapart.1 _ (mem_singleton_self _)
  have hself : ∀ pt' j e', .cont pt' j e' ∈ m.body.body.subs → j.f = fb.f → j = fb := by
    intro pt' j e' hc hf
    have hb : fb.f ∈ (Exp.cont pt' j e').bindsHere := hf ▸ mem_cons_self
    cases unique_binder hJ.unique hc he hb mem_cons_self
    rfl
  have hkeepΓ : ∀ y ∈ Γ, (analFBs m.externs join [fb] ∅ T).2 y = T y := by
    intro y hy
    refine hkeep y fun fb' hfb' hb => ?_
    rw [mem_singleton.1 hfb'] at hb
    exact (hcross y hb).2 (mem_append_right _ hy)
  rw [analExp_cont]
  generalize hr : analFBs m.externs join [fb] ∅ T = r at hfbEnv hkeep henvs hkeepΓ
  generalize henv : removes r.1 ([fb].map Lambda.f) = env at hfbEnv
  rw [show removes r.1 [fb.f] = env from henv]
  have hneedsΓ : ∀ x, Needs m join [fb] x → x ∈ Γ ∧ x ≠ fb.f ∧ NeedsExp m join (.cont pt fb e) x := by
    intro x h
    obtain ⟨fb', hfb', hx, hbody⟩ := (hneeds x).1 h
    have hn := hbody.kid (hk fb' hfb') hx fun y hy hf => hj fb' hfb' y hy hf.mem_uses
    exact ⟨hn.mem_scope hT hwf.inScope, fun hxf => (not_mem_boundIn.1 hx).2.2 (hxf ▸ mem_singleton_self _), hn⟩
  have hT₂ : TableOk m join (update r.2 fb.f env) ([fb.f] ++ Γ) e := by
    intro pt' j e' hc hjoin' hΓ hu x
    by_cases hjf : j.f = fb.f
    · rw [hself pt' j e' hc hjf, update_self, hfbEnv x]
      exact ⟨Iff.rfl, fun h => mem_append_right _ (hneedsΓ x h).1⟩
    · have hjΓ : j.f ∈ Γ := (mem_append.1 hΓ).resolve_left fun h => hjf (mem_singleton.1 h)
      have hu' : j.f ∈ (Exp.cont pt fb e).uses := by
        rw [uses_eq]
        exact mem_append_right _ (mem_flatMap.2 ⟨e, mem_kids_of_boundKids hp, hu⟩)
      obtain ⟨h₁, h₂⟩ := hT pt' j e' hc hjoin' hjΓ hu' x
      rw [update_of_ne hjf, hkeepΓ j.f hjΓ]
      exact ⟨h₁, fun h => mem_append_right _ (h₂ h)⟩
  have hc := hkids _ hp _ hT₂
  have hmem : ∀ x, x ∈ remove (env ∪ (analExp m.externs join e (update r.2 fb.f env)).1) fb.f ↔
      NeedsExp m join (.cont pt fb e) x := by
    intro x
    rw [remove, mem_erase, mem_union, hfbEnv x, hc.mem x]
    constructor
    · rintro ⟨hx, h | ⟨h₁, h₂, h₃⟩ | ⟨pt', j, e', hcont, hjoin', hf, h⟩⟩
      · exact (hneedsΓ x h).2.2
      · exact Or.inl ⟨.kid hp (fun h => hx (mem_singleton.1 h)) h₁, h₂, h₃⟩
      · by_cases hjf : j.f = fb.f
        · rw [hself pt' j e' hcont hjf] at h
          exact (hneedsΓ x h).2.2
        · exact Or.inr ⟨pt', j, e', hcont, hjoin', .kid hp (fun h => hjf (mem_singleton.1 h)) hf, h⟩
    · intro h
      rcases h.cases hwf hT with ⟨hu, _⟩ | ⟨_, _, _, _, _, hu, _⟩ | h
      · cases hu
      · cases hu
      · obtain ⟨h, hx⟩ := (needs_or_iff rfl hneeds x).1 h
        exact ⟨fun hxf => hx (hxf ▸ mem_singleton_self _), h.symm⟩
  have hfresh : fb.f ∉ e.binders := fun hb => (wf_boundKids hwf hp).fresh fb.f hb mem_cons_self
  refine ⟨hmem, fun x hx => ((hmem x).1 hx).mem_scope hT hwf.inScope, fun y hy => ?_, fun e' he' => ?_⟩
  · show (analExp m.externs join e _).2 y = T y
    rw [binders_eq, mem_append, not_or] at hy
    have hkid : ∀ e' ∈ (Exp.cont pt fb e).kids, y ∉ e'.binders := fun e' he' hb =>
      hy.2 (mem_flatMap.2 ⟨e', he', hb⟩)
    have hyf : y ≠ fb.f := fun h => hy.1 (h ▸ mem_cons_self)
    rw [hc.keep y (hkid e (mem_kids_of_boundKids hp)), update_of_ne hyf]
    refine hkeep y fun fb' hfb' => ?_
    exact hkid fb'.body (mem_kids_of_boundKids (hk fb' hfb'))
  · intro fb₁ hfb₁ x
    show x ∈ (analExp m.externs join e _).2 fb₁.f ↔ _
    rw [subs_eq, mem_cons, kids, List.flatMap_cons, List.flatMap_singleton, mem_append] at he'
    rcases he' with rfl | he' | he'
    · rw [mem_singleton.1 hfb₁, hc.keep fb.f hfresh, update_self]
      exact hfbEnv x
    · obtain ⟨hnot, hnot'⟩ := hcross fb₁.f (f_mem_binders he' hfb₁)
      have hne : fb₁.f ≠ fb.f := fun h => hnot' (mem_append_left _ (mem_singleton.2 h))
      rw [hc.keep fb₁.f hnot, update_of_ne hne]
      exact henvs fb (mem_singleton_self _) e' he' fb₁ hfb₁ x
    · exact hc.envs e' he' fb₁ hfb₁ x

/-- An expression with the branches `l`. -/
theorem branches_correct {l : List Exp} {s : Finset Var} (hJ : JoinOk m join) (he : e ∈ m.body.body.subs)
    (hwf : e.WF P Γ) (hT : TableOk m join T Γ e) (hkids : KidsOk m join Γ e)
    (hl : boundKids e = l.map fun e => ([], e)) (hbinds : e.bindsHere = []) (hcalled : e.called = none)
    (hfbs : e.fbs = []) (hs : ∀ x, x ∈ s ↔ ∃ s' ∈ (analAll m.externs join l T).1, x ∈ s')
    (hr : analExp m.externs join e T = (addVars m.externs s e.argsHere, (analAll m.externs join l T).2)) :
    Correct m join Γ e T (analExp m.externs join e T) := by
  have hno : ∀ y ∈ e.bindsHere, join y = false := by
    rw [hbinds]
    exact fun y hy => absurd hy not_mem_nil
  have hk : ∀ e' ∈ l, ([], e') ∈ boundKids e := by
    intro e' he'
    rw [hl]
    exact mem_map_of_mem he'
  have hkid : ∀ e' ∈ l, e' ∈ e.kids := fun e' he' => mem_kids_of_boundKids (hk e' he')
  have hks : ∀ k ∈ l.map (fun e => (Γ, e)), ∃ e' ∈ l, (Γ, e') = k := fun k hk => mem_map.1 hk
  have hmap : (l.map fun e => (Γ, e)).map (·.2) = l := by
    rw [map_map]
    exact List.map_id l
  have hapart := boundKids_apart hwf
  rw [hl, map_map] at hapart
  obtain ⟨hsets, hkeep, henvs⟩ := @analAll_correct m join _ (fun k hk' T' hT' => by
    obtain ⟨e', he', rfl⟩ := hks k hk'
    exact hkids _ (hk e' he') T' hT') hapart T fun k hk' => by
      obtain ⟨e', he', rfl⟩ := hks k hk'
      exact tableOk_kids hT hno (hk e' he')
  rw [show l.map ((fun p : List Var × Exp => (p.1 ++ Γ, p.2)) ∘ fun e => ([], e)) = l.map fun e => (Γ, e) from rfl]
    at hsets hkeep henvs
  rw [hmap] at hsets hkeep henvs
  have hmem : ∀ x, x ∈ addVars m.externs s e.argsHere ↔ NeedsExp m join e x := by
    intro x
    rw [mem_addVars, hs x, needsExp_iff hwf hT hno (hJ.args he), hcalled, hl,
      exists_mem_iff (Q := fun e x => NeedsExp m join e x)
        ((List.forall₂_map_left_iff.1 hsets).imp fun e s h => (h x).1)]
    constructor
    · rintro (⟨e', he', h⟩ | h)
      · exact Or.inr (Or.inr ⟨_, mem_map_of_mem he', not_mem_nil, h⟩)
      · exact Or.inl h
    · rintro (h | ⟨k, hk, _⟩ | ⟨p, hp, _, h⟩)
      · exact Or.inr h
      · cases hk
      · obtain ⟨e', he', rfl⟩ := mem_map.1 hp
        exact Or.inl ⟨e', he', h⟩
  rw [hr]
  refine ⟨hmem, fun x hx => ((hmem x).1 hx).mem_scope hT hwf.inScope, fun y hy => ?_, fun e' he' => ?_⟩
  · refine hkeep y fun k hk' hb => hy ?_
    obtain ⟨e', he', rfl⟩ := hks k hk'
    rw [binders_eq]
    exact mem_append_right _ (mem_flatMap.2 ⟨e', hkid e' he', hb⟩)
  · rw [subs_eq, ← map_boundKids, hl, map_map, mem_cons] at he'
    rcases he' with rfl | he'
    · rw [hfbs]
      exact fun fb hfb => absurd hfb not_mem_nil
    · obtain ⟨e₁, he₁, he'⟩ := mem_flatMap.1 he'
      obtain ⟨e₂, he₂, rfl⟩ := mem_map.1 he₁
      exact henvs (Γ, e₂) (mem_map_of_mem he₂) e' he'

theorem switch_correct {y : Var} {cases : List (Nat × Exp)} {dflt : Option Exp} (hJ : JoinOk m join)
    (he : .switch pt y cases dflt ∈ m.body.body.subs) (hwf : (Exp.switch pt y cases dflt).WF P Γ)
    (hT : TableOk m join T Γ (.switch pt y cases dflt)) (hkids : KidsOk m join Γ (.switch pt y cases dflt)) :
    Correct m join Γ (.switch pt y cases dflt) T (analExp m.externs join (.switch pt y cases dflt) T) := by
  obtain ⟨htable, hset⟩ := @analCases_eq m.externs join cases ∅ T
  refine branches_correct hJ he hwf hT hkids (l := cases.map (·.2) ++ dflt.toList) rfl rfl rfl rfl (s :=
    (analDflt m.externs join dflt (analCases m.externs join cases ∅ T).1 (analCases m.externs join cases ∅ T).2).1) ?_ ?_
  · intro x
    rw [analAll_append, ← htable]
    simp only [mem_append, or_and_right, exists_or]
    cases dflt with
    | none =>
      show x ∈ (analCases m.externs join cases ∅ T).1 ↔ _
      rw [hset x]
      simp [analAll]
    | some e =>
      show x ∈ (analCases m.externs join cases ∅ T).1 ∪ _ ↔ _
      rw [mem_union, hset x]
      simp [analAll]
  · rw [analAll_append, ← htable]
    cases dflt <;> rfl

theorem if_correct {c : Cond Var} {e₁ e₂ : Exp} (hJ : JoinOk m join) (he : .if_ pt c e₁ e₂ ∈ m.body.body.subs)
    (hwf : (Exp.if_ pt c e₁ e₂).WF P Γ) (hT : TableOk m join T Γ (.if_ pt c e₁ e₂))
    (hkids : KidsOk m join Γ (.if_ pt c e₁ e₂)) :
    Correct m join Γ (.if_ pt c e₁ e₂) T (analExp m.externs join (.if_ pt c e₁ e₂) T) := by
  refine branches_correct hJ he hwf hT hkids (l := [e₁, e₂]) rfl rfl rfl rfl (s := (analExp m.externs join e₁ T).1 ∪
    (analExp m.externs join e₂ (analExp m.externs join e₁ T).2).1) (fun x => ?_) rfl
  simp [analAll]

/-- An expression that ends a path. -/
theorem leaf_correct {s : Finset Var} (hwf : e.WF P Γ) (hT : TableOk m join T Γ e) (hleaf : e.kids = [])
    (hfbs : e.fbs = []) (hr : analExp m.externs join e T = (s, T)) (hmem : ∀ x, x ∈ s ↔ NeedsExp m join e x) :
    Correct m join Γ e T (analExp m.externs join e T) := by
  rw [hr]
  refine ⟨hmem, fun x hx => ((hmem x).1 hx).mem_scope hT hwf.inScope, fun y _ => rfl, fun e' he' => ?_⟩
  rw [subs_eq, hleaf] at he'
  rw [mem_singleton.1 he', hfbs]
  exact fun fb hfb => absurd hfb not_mem_nil

theorem apply_correct {f : Var} {args rets : List Var} (hJ : JoinOk m join)
    (he : .apply pt f args rets ∈ m.body.body.subs) (hf : join f = false) (hwf : (Exp.apply pt f args rets).WF P Γ)
    (hT : TableOk m join T Γ (.apply pt f args rets)) :
    Correct m join Γ (.apply pt f args rets) T (analExp m.externs join (.apply pt f args rets) T) := by
  refine leaf_correct hwf hT rfl rfl rfl fun x => ?_
  rw [mem_addVars, needsExp_iff hwf hT (fun _ hy => absurd hy not_mem_nil) (hJ.args he)]
  show _ ∨ x ∈ f :: (args ++ rets) ∧ _ ↔ (x ∈ args ++ rets ∧ _) ∨ _
  constructor
  · rintro (h | ⟨h, hext⟩)
    · exact absurd h (notMem_empty x)
    · rcases mem_cons.1 h with rfl | h
      · exact Or.inr (Or.inl ⟨x, rfl, Or.inl ⟨rfl, hf, hext⟩⟩)
      · exact Or.inl ⟨h, hext⟩
  · rintro (⟨h, hext⟩ | ⟨k, hk, h⟩ | ⟨p, hp, _⟩)
    · exact Or.inr ⟨mem_cons_of_mem _ h, hext⟩
    · cases hk
      grind
    · cases hp

theorem throw_correct {k : Var} {args : List Var} (hJ : JoinOk m join) (he : .throw pt k args ∈ m.body.body.subs)
    (hwf : (Exp.throw pt k args).WF P Γ) (hT : TableOk m join T Γ (.throw pt k args)) :
    Correct m join Γ (.throw pt k args) T (analExp m.externs join (.throw pt k args) T) := by
  refine leaf_correct hwf hT rfl rfl rfl fun x => ?_
  rw [needsExp_iff hwf hT (fun _ hy => absurd hy not_mem_nil) (hJ.args he)]
  have hk : k ∈ (Exp.throw pt k args).usesHere := mem_cons_self
  show _ ↔ (x ∈ args ∧ _) ∨ _
  by_cases hj : join k = true
  · obtain ⟨e', he', hx⟩ := mem_flatMap.1 (hJ.bound k hj)
    cases e' with
    | cont pt' j e' =>
      have hkj : k = j.f := mem_singleton.1 hx
      subst hkj
      have hTj := (hT pt' j e' he' hj (usesHere_subset hwf.inScope hk) (Free.here hk).mem_uses x).1
      rw [if_pos hj, mem_union, mem_addVars, hTj]
      constructor
      · rintro ((h | h) | h)
        · exact absurd h (notMem_empty x)
        · exact Or.inl h
        · exact Or.inr (Or.inl ⟨j.f, rfl, Or.inr ⟨pt', j, e', he', hj, rfl, h⟩⟩)
      · rintro (h | ⟨k, hk, h⟩ | ⟨p, hp, _⟩)
        · exact Or.inl (Or.inr h)
        · cases hk
          rcases h with ⟨_, hnot, _⟩ | ⟨pt₁, j₁, e₁, h₁, _, hf, h⟩
          · rw [hj] at hnot
            cases hnot
          · have hb : j.f ∈ (Exp.cont pt₁ j₁ e₁).bindsHere := hf ▸ mem_cons_self
            cases unique_binder hJ.unique h₁ he' hb mem_cons_self
            exact Or.inr h
        · cases hp
    | _ => cases hx
  · rw [if_neg hj, mem_addVar, mem_addVars]
    rw [Bool.not_eq_true] at hj
    constructor
    · rintro ((h | h) | ⟨rfl, h⟩)
      · exact absurd h (notMem_empty x)
      · exact Or.inl h
      · exact Or.inr (Or.inl ⟨x, rfl, Or.inl ⟨rfl, hj, h⟩⟩)
    · rintro (h | ⟨k, hk, h⟩ | ⟨p, hp, _⟩)
      · exact Or.inl (Or.inr h)
      · cases hk
        grind
      · cases hp

/-- The sets of an expression, and of all groups in it. -/
theorem analExp_correct (hJ : JoinOk m join) (e : Exp) : ∀ Γ T, e ∈ m.body.body.subs →
    e.WF (· ∈ m.contNames) Γ → TableOk m join T Γ e → Correct m join Γ e T (analExp m.externs join e T) := by
  induction e using Exp.induct with
  | h e ih =>
    intro Γ T he hwf hT
    have hkids : KidsOk m join Γ e := fun p hp T' hT' =>
      ih p.2 (mem_kids_of_boundKids hp) _ T' (Exp.subs_trans he (mem_subs_of_kid
        (mem_kids_of_boundKids hp) (Exp.self_mem_subs _))) (wf_boundKids hwf hp) hT'
    cases e with
    | let_ pt lhs rhs e => exact let_correct hJ he hwf hT hkids
    | fun_ pt fbs e => exact fun_correct hJ he hwf hT hkids
    | cont pt fb e => exact cont_correct hJ he hwf hT hkids
    | if_ pt c e₁ e₂ => exact if_correct hJ he hwf hT hkids
    | switch pt y cases dflt => exact switch_correct hJ he hwf hT hkids
    | apply pt f args rets =>
      have hs := hwf.inScope
      rw [Exp.Scoped] at hs
      have hf : join f = false := by
        by_contra hj
        rw [Bool.not_eq_false] at hj
        exact hs.2.1 (hJ.bound f hj)
      exact apply_correct hJ he hf hwf hT
    | throw pt k args => exact throw_correct hJ he hwf hT

end Correctness

/-! ## Modules -/

section Modules

variable {cnt : Counts} {m : Module} {enableFlg : Bool}

theorem contNames_of_isJoinCont {x : Var} (h : isJoinCont enableFlg cnt m x = true) :
    x ∈ m.contNames := by
  by_contra hx
  have hkind := (Bool.and_eq_true_iff.1 h).2
  rw [kindOfCont, if_neg fun h => hx (List.contains_iff_mem.1 h)] at hkind
  by_cases hp : m.paramNames.contains x = true
  · rw [if_pos hp] at hkind
    cases hkind
  · rw [if_neg hp] at hkind
    cases hkind

/-- What the classification promises. -/
theorem joinOk_isJoinCont (hwf : m.WellFormed) (hcnt : cnt.Accurate m) :
    JoinOk m (isJoinCont enableFlg cnt m) := by
  refine ⟨nodup_body hwf, fun x hx => contNames_of_isJoinCont hx, fun x hx => ?_, fun pt fb e he hj => ?_⟩
  · obtain ⟨e, he, hc⟩ := mem_flatMap.1 (contNames_of_isJoinCont hx)
    cases e with
    | cont pt fb e =>
      rw [mem_singleton.1 hc] at hx ⊢
      exact (join_sound hwf hcnt he hx).2.1
    | _ => cases hc
  · exact (join_sound hwf hcnt he hj).1

/-- The body of the module. -/
theorem body_correct (hwf : m.WellFormed) (hcnt : cnt.Accurate m) :
    Correct m (isJoinCont enableFlg cnt m) (m.body.params ++ (m.body.rets ++ (m.body.f :: m.externs)))
      m.body.body (fun _ => ∅)
      (analExp m.externs (isJoinCont enableFlg cnt m) m.body.body fun _ => ∅) := by
  have hbody := (known_body hwf hcnt).wf
  rw [show (fun x => (m.contNames.contains x) = true) = (· ∈ m.contNames) from
    funext fun x => propext List.contains_iff_mem] at hbody
  refine analExp_correct (joinOk_isJoinCont hwf hcnt) _ _ _ (Exp.self_mem_subs _) hbody ?_
  -- no continuation is in scope at the root
  intro pt j e he hj hΓ
  exact absurd hΓ (hbody.fresh j.f (f_mem_binders he (mem_singleton_self j)))

theorem analyze_ok_iff {join : Var → Bool} {T : Table} :
    analyze join m = .ok T ↔ (∀ x ∈ (analExp m.externs join m.body.body fun _ => ∅).1,
      (x ∈ m.body.params ∨ x ∈ m.body.rets) ∧ x ∉ m.externs) ∧
        T = (analExp m.externs join m.body.body fun _ => ∅).2 := by
  have hfb : analFB m.externs join m.body (fun _ => ∅) =
      ((analExp m.externs join m.body.body fun _ => ∅).1 \
        addVars m.externs (addVars m.externs ∅ m.body.params) m.body.rets,
        (analExp m.externs join m.body.body fun _ => ∅).2) := by
    cases m.body
    rfl
  have hset : (analFB m.externs join m.body fun _ => ∅).1 = ∅ ↔
      ∀ x ∈ (analExp m.externs join m.body.body fun _ => ∅).1,
        (x ∈ m.body.params ∨ x ∈ m.body.rets) ∧ x ∉ m.externs := by
    rw [hfb, Finset.sdiff_eq_empty_iff_subset]
    refine forall₂_congr fun x _ => ?_
    rw [mem_addVars, mem_addVars, or_and_right]
    simp only [notMem_empty, false_or]
  unfold analyze
  grind

theorem cont_uses_subset {pt : Ppt} {j : Lambda} {e : Exp} (hc : .cont pt j e ∈ m.body.body.subs) :
    j.body.uses ⊆ m.body.body.uses := by
  intro y hy
  obtain ⟨e', he', hy⟩ := mem_flatMap.1 hy
  have hbody : j.body ∈ (Exp.cont pt j e).kids := mem_cons_self
  exact mem_flatMap.2 ⟨e', Exp.subs_trans hc (mem_subs_of_kid hbody he'), hy⟩

/-- What is needed is used somewhere. -/
theorem Needs.mem_uses {join : Var → Bool} {group : List Lambda} {x : Var} (h : Needs m join group x) :
    (∀ fb ∈ group, fb.body.uses ⊆ m.body.body.uses) → x ∈ m.body.body.uses := by
  induction h with
  | free hfb hf _ _ _ => exact fun hg => hg _ hfb hf.2.2.mem_uses
  | @join group fb pt j e x hfb hc _ _ _ _ ih =>
    grind [cont_uses_subset]

end Modules

/-- The recorded set of the functions of a group, or of a continuation, is what the group needs from outside. -/
theorem envOfFun_exact {cnt : Counts} {m : Module} {enableFlg : Bool} (hwf : m.WellFormed) (hcnt : cnt.Accurate m) :
    (∀ pt fb e, .cont pt fb e ∈ m.body.body.subs → isJoinCont enableFlg cnt m fb.f = true →
      fb.f ∉ fb.body.uses ∧ fb.f ∉ m.body.body.args ∧
        ClassifyConts.ThrowsOnly (fun x => isJoinCont enableFlg cnt m x = true) fb.f e) ∧
    (∀ T, analyze (isJoinCont enableFlg cnt m) m = .ok T → ∀ e ∈ m.body.body.subs, ∀ fb ∈ e.fbs, ∀ x,
      x ∈ envOfFun T fb.f ↔ Needs m (isJoinCont enableFlg cnt m) e.fbs x) ∧
    (m.body.f ∉ m.body.body.uses → ∃ T, analyze (isJoinCont enableFlg cnt m) m = .ok T) := by
  have hc := @body_correct cnt m enableFlg hwf hcnt
  refine ⟨fun pt fb e he hj => join_sound hwf hcnt he hj, fun T hT e he fb hfb x => ?_, fun hf => ?_⟩
  · rw [(analyze_ok_iff.1 hT).2]
    exact hc.envs e he fb hfb x
  · refine ⟨_, analyze_ok_iff.2 ⟨fun x hx => ?_, rfl⟩⟩
    have hneed := (hc.mem x).1 hx
    have hext := hneed.not_extern
    have huse : x ∈ m.body.body.uses := by
      rcases hneed with ⟨h, _, _⟩ | ⟨pt, j, e, he, _, _, h⟩
      · exact h.mem_uses
      · refine h.mem_uses fun fb hfb => ?_
        rw [mem_singleton.1 hfb]
        exact cont_uses_subset he
    have hΓ := hc.sub x hx
    rw [mem_append, mem_append, mem_cons] at hΓ
    grind

/-- `fun f (x / k) = throw k (a) and g (y / k) = throw k (b)` and a join point, in the scope of `a` and `b`. -/
def groupModule : Module :=
  ⟨[], .fb ⟨0⟩ [⟨1⟩, ⟨2⟩] [⟨3⟩]
    (.fun_ 0 [.fb ⟨4⟩ [⟨5⟩] [⟨6⟩] (.throw 1 ⟨6⟩ [⟨1⟩]), .fb ⟨7⟩ [⟨8⟩] [⟨9⟩] (.throw 2 ⟨9⟩ [⟨2⟩])]
      (.cont 3 (.fb ⟨10⟩ [⟨11⟩] [] (.throw 4 ⟨3⟩ [⟨11⟩]))
        (.if_ 5 ⟨.isBoxed, [⟨1⟩]⟩ (.throw 6 ⟨10⟩ [⟨1⟩]) (.apply 7 ⟨4⟩ [⟨2⟩] [⟨3⟩]))))⟩

theorem groupModule_wellFormed : groupModule.WellFormed := by
  refine ⟨?_, by decide⟩
  simp [groupModule, Lambda.Scoped, Exp.Scoped, ScopedFBs, Module.contNames, Exp.contNames, Exp.subs, subsFBs,
    Lambda.subs, Exp.contHere]

example : isJoinCont true groupModule.census groupModule ⟨10⟩ = true := by decide

theorem envOfFun_exact_group : ∃ T,
    analyze (isJoinCont true groupModule.census groupModule) groupModule = .ok T ∧
      ∀ e ∈ groupModule.body.body.subs, ∀ fb ∈ e.fbs, ∀ x, x ∈ envOfFun T fb.f ↔
        Needs groupModule (isJoinCont true groupModule.census groupModule) e.fbs x := by
  obtain ⟨_, henv, hok⟩ := @envOfFun_exact _ _ true groupModule_wellFormed groupModule.census_accurate
  obtain ⟨T, hT⟩ := hok (by decide)
  exact ⟨T, hT, henv T hT⟩

/-- The set of `f` has `b`, which only the body of `g` needs. -/
theorem group_env_not_exact : groupModule.WellFormed ∧ groupModule.census.Accurate groupModule ∧ ∃ T,
    analyze (isJoinCont true groupModule.census groupModule) groupModule = .ok T ∧
      ∃ e ∈ groupModule.body.body.subs, ∃ fb ∈ e.fbs, ∃ x, x ∈ envOfFun T fb.f ∧
        ¬ Needs groupModule (isJoinCont true groupModule.census groupModule) [fb] x := by
  refine ⟨groupModule_wellFormed, groupModule.census_accurate, _, analyze_ok_iff.2 ⟨by decide, rfl⟩, _,
    mem_cons_self, _, mem_cons_self, ⟨2⟩, by decide, fun h => ?_⟩
  obtain ⟨fb, hfb, ⟨_, hf, _, _⟩ | ⟨pt, j, e, _, hj, hf, _⟩⟩ := needs_iff.1 h
  · rw [mem_singleton.1 hfb] at hf
    exact absurd hf.2.2.mem_uses (by decide)
  · rw [mem_singleton.1 hfb] at hf
    have huse := hf.2.2.mem_uses
    have hnone : ∀ x ∈ (Exp.throw 1 ⟨6⟩ [⟨1⟩]).uses,
        isJoinCont true groupModule.census groupModule x = false := by decide
    rw [hnone j.f huse] at hj
    cases hj

end Manticore.CpsOpt.FreeVars
