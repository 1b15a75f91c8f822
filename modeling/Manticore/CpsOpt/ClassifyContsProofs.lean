/-
  Manticore.CpsOpt.ClassifyContsProofs — a continuation that the analysis marks as a join point is not
  recursive, and every use of it is a throw that is reached from its binding without
  entering a function or a continuation that is no join point (`join_sound`).

  A variable that an expression neither binds nor has as an argument keeps its kind, and its
  use sites grow by the sites in the expression (`analExp_keeps`). When the scope of a
  continuation ends, all continuations bound in it have got their final kinds, so a site
  that passes `checkUse` is linked to the binding by join points only.
-/

import Manticore.CpsOpt.ClassifyConts

namespace Manticore.CpsOpt.ClassifyConts

open Cps
open Function (update_of_ne update_self)
open List (map_append mem_cons_of_mem mem_append_left mem_cons_self mem_append mem_singleton_self not_mem_nil mem_cons
  mem_singleton mem_flatMap mem_append_right mem_map nodup_append nodup_flatMap append_nil)
open Exp (kids contHere contNames_eq args_eq subs_eq binders_eq called)

/-- Every use of `k` in the expression is the target of a throw that is reached without entering a function, or a
    continuation that is no join point. -/
inductive ThrowsOnly (join : Var → Prop) (k : Var) : Exp → Prop
  | let_ {pt lhs rhs e} : k ∉ rhs.vars → ThrowsOnly join k e → ThrowsOnly join k (.let_ pt lhs rhs e)
  | fun_ {pt fbs e} : (∀ fb ∈ fbs, k ∉ fb.body.uses) → ThrowsOnly join k e → ThrowsOnly join k (.fun_ pt fbs e)
  | joinCont {pt fb e} : join fb.f → ThrowsOnly join k fb.body → ThrowsOnly join k e →
      ThrowsOnly join k (.cont pt fb e)
  | cont {pt fb e} : k ∉ fb.body.uses → ThrowsOnly join k e → ThrowsOnly join k (.cont pt fb e)
  | if_ {pt c e₁ e₂} : k ∉ c.args → ThrowsOnly join k e₁ → ThrowsOnly join k e₂ → ThrowsOnly join k (.if_ pt c e₁ e₂)
  | switch {pt x cases dflt} : k ≠ x → (∀ c ∈ cases, ThrowsOnly join k c.2) → (∀ e ∈ dflt, ThrowsOnly join k e) →
      ThrowsOnly join k (.switch pt x cases dflt)
  | apply {pt f args rets} : k ≠ f → k ∉ args → k ∉ rets → ThrowsOnly join k (.apply pt f args rets)
  | throw {pt k' args} : k ∉ args → ThrowsOnly join k (.throw pt k' args)

/-! ## Contexts -/

/-- The expressions right below an expression in the context `c`, with their contexts. -/
def ctxKids (c : Var) : Exp → List (Var × Exp)
  | .let_ _ _ _ e => [(c, e)]
  | .fun_ _ fbs e => fbs.map (fun fb => (fb.f, fb.body)) ++ [(c, e)]
  | .cont _ fb e => [(fb.f, fb.body), (c, e)]
  | .if_ _ _ e₁ e₂ => [(c, e₁), (c, e₂)]
  | .switch _ _ cases dflt => (cases.map (·.2) ++ dflt.toList).map fun e => (c, e)
  | .apply _ _ _ _ | .throw _ _ _ => []

theorem map_ctxKids (c : Var) (e : Exp) : (ctxKids c e).map (·.2) = e.kids := by
  cases e <;> simp [ctxKids, kids, Function.comp_def]

theorem mem_kids_of_ctxKids {c : Var} {e : Exp} {p : Var × Exp} (h : p ∈ ctxKids c e) : p.2 ∈ e.kids := by
  rw [← map_ctxKids c e]
  exact List.mem_map_of_mem h

/-- There is a throw to `k` in the context `u`, in the expression with the context `c`. -/
inductive Site (k : Var) : Var → Exp → Var → Prop
  | here {c pt args} : Site k c (.throw pt k args) c
  | kid {c e u p} : p ∈ ctxKids c e → Site k p.1 p.2 u → Site k c e u

/-- The continuation `f` is bound in the context `o`, in the expression with the context `c`. -/
inductive Link (f o : Var) : Var → Exp → Prop
  | here {pt fb e} : fb.f = f → Link f o o (.cont pt fb e)
  | kid {c e p} : p ∈ ctxKids c e → Link f o p.1 p.2 → Link f o c e

section

variable {isCont : Var → Bool} {cnt : Counts}

/-- What `analExp` does at the root of an expression that binds no continuation. -/
def analHere (isCont : Var → Bool) (c : Var) : Exp → Props → Props
  | .let_ _ _ rhs _, s => rhs.vars.foldl (doArg isCont) s
  | .apply _ _ args _, s => args.foldl (doArg isCont) s
  | .throw _ k args, s => args.foldl (doArg isCont) (addUse c k s)
  | _, s => s

theorem analFBs_eq (fbs : List Lambda) (s : Props) :
    analFBs isCont cnt fbs s = (fbs.map fun fb => (fb.f, fb.body)).foldl (fun s p => analExp isCont cnt p.1 p.2 s) s := by
  induction fbs generalizing s with
  | nil => rfl
  | cons fb fbs ih =>
    cases fb
    rw [analFBs, ih]
    rfl

theorem analCases_eq (c : Var) (cases : List (Nat × Exp)) (s : Props) :
    analCases isCont cnt c cases s = (cases.map (·.2)).foldl (fun s e => analExp isCont cnt c e s) s := by
  induction cases generalizing s with
  | nil => rfl
  | cons p cases ih =>
    cases p
    rw [analCases, ih]
    rfl

variable {c : Var} {e : Exp} {pt : Ppt} {fb : Lambda} {k : Var} {s s' : Props} {x f : Var} {l : List (Var × Exp)}
  {e' : Exp} {σ : Props} {o : Var} {Γ : List Var}

/-- The analysis goes from kid to kid, unless a continuation is bound. -/
theorem analExp_eq (h : e.contHere = []) (s : Props) :
    analExp isCont cnt c e s = (ctxKids c e).foldl (fun s p => analExp isCont cnt p.1 p.2 s)
      (analHere isCont c e s) := by
  cases e with
  | cont pt fb e => cases h
  | fun_ pt fbs e =>
    rw [analExp, analFBs_eq, ctxKids, List.foldl_append]
    rfl
  | switch pt x cases dflt =>
    simp only [analExp, analCases_eq, ctxKids, List.foldl_map, map_append, List.foldl_append]
    cases dflt <;> rfl
  | _ => rfl

theorem analExp_cont (s : Props) :
    analExp isCont cnt c (.cont pt fb e) s = checkJoin c fb.f
      (analExp isCont cnt c e (checkRec fb.f (analExp isCont cnt fb.f fb.body (initCont cnt c fb.f s)))) := by
  cases fb
  rfl

/-! ## What is kept -/

/-- The kind of `k` is as before, and its use sites have grown by those of `S`. -/
structure Keeps (k : Var) (S : Var → Prop) (s s' : Props) : Prop where
  kind : s'.kind k = s.kind k
  uses : ∀ r, s.uses k = some r → ∃ r', s'.uses k = some r' ∧ ∀ u, u ∈ r' ↔ u ∈ r ∨ S u

theorem Keeps.refl (k : Var) (s : Props) : Keeps k (fun _ => False) s s :=
  ⟨rfl, fun r h => ⟨r, h, fun u => by simp⟩⟩

theorem Keeps.trans {S S' : Var → Prop} {s'' : Props} (h : Keeps k S s s') (h' : Keeps k S' s' s'') :
    Keeps k (fun u => S u ∨ S' u) s s'' := by
  refine ⟨h'.kind.trans h.kind, fun r hr => ?_⟩
  obtain ⟨r₁, hr₁, h₁⟩ := h.uses r hr
  obtain ⟨r₂, hr₂, h₂⟩ := h'.uses r₁ hr₁
  exact ⟨r₂, hr₂, fun u => by rw [h₂, h₁, or_assoc]⟩

theorem Keeps.congr {S S' : Var → Prop} (h : Keeps k S s s') (hS : ∀ u, S u ↔ S' u) : Keeps k S' s s' := by
  refine ⟨h.kind, fun r hr => ?_⟩
  obtain ⟨r', hr', h'⟩ := h.uses r hr
  exact ⟨r', hr', fun u => by rw [h', hS]⟩

/-- Nothing about `k` has changed. -/
theorem Keeps.of_eq (hk : s'.kind k = s.kind k) (hu : s'.uses k = s.uses k) : Keeps k (fun _ => False) s s' := by
  refine ⟨hk, fun r hr => ⟨r, hu.trans hr, fun u => by simp⟩⟩

theorem markAsOther_keeps (h : k ≠ x) (s : Props) : Keeps k (fun _ => False) s (markAsOther x s) := by
  unfold markAsOther
  split
  · exact Keeps.refl k s
  · exact Keeps.of_eq (update_of_ne h _ _) (update_of_ne h _ _)

theorem clrUses_keeps (h : k ≠ x) (s : Props) : Keeps k (fun _ => False) s (clrUses x s) :=
  Keeps.of_eq rfl (update_of_ne h _ _)

theorem doArgs_keeps {xs : List Var} (h : k ∉ xs) (s : Props) :
    Keeps k (fun _ => False) s (xs.foldl (doArg isCont) s) := by
  induction xs generalizing s with
  | nil => exact Keeps.refl k s
  | cons x xs ih =>
    have hx : Keeps k (fun _ => False) s (doArg isCont s x) := by
      grind [doArg, markAsOther_keeps, Keeps.refl]
    exact (hx.trans (ih (fun h' => h (mem_cons_of_mem _ h')) _)).congr fun u => by simp

theorem addUse_keeps (k x c : Var) (s : Props) : Keeps k (fun u => k = x ∧ u = c) s (addUse c x s) := by
  unfold addUse
  split
  · rename_i hx
    refine ⟨rfl, fun r hr => ⟨r, hr, fun u => ?_⟩⟩
    have hne : k ≠ x := fun h => by
      rw [h, hx] at hr
      cases hr
    simp [hne]
  · rename_i r₀ hx
    refine ⟨rfl, fun r hr => ?_⟩
    by_cases hkx : k = x
    · grind
    · exact ⟨r, (update_of_ne hkx _ _).trans hr, fun u => by simp [hkx]⟩

theorem initCont_keeps (h : k ≠ f) (c : Var) (s : Props) : Keeps k (fun _ => False) s (initCont cnt c f s) := by
  unfold initCont
  dsimp only
  split
  · exact Keeps.of_eq (update_of_ne h _ _) (update_of_ne h _ _)
  · exact Keeps.of_eq (update_of_ne h _ _) rfl

theorem checkRec_keeps (h : k ≠ f) (s : Props) : Keeps k (fun _ => False) s (checkRec f s) := by
  unfold checkRec
  split
  · exact Keeps.refl k s
  · exact markAsOther_keeps h s

theorem checkJoin_keeps (h : k ≠ f) (c : Var) (s : Props) : Keeps k (fun _ => False) s (checkJoin c f s) := by
  unfold checkJoin
  split
  · split
    · exact clrUses_keeps h s
    · exact ((markAsOther_keeps h s).trans (clrUses_keeps h _)).congr fun u => by simp
  · exact Keeps.refl k s

theorem analHere_keeps (h : k ∉ e.argsHere) (s : Props) :
    Keeps k (fun u => e.contHere = [] ∧ (∃ pt args, e = .throw pt k args) ∧ u = c) s (analHere isCont c e s) := by
  cases e with
  | let_ pt lhs rhs e => exact (doArgs_keeps h s).congr fun u => by simp
  | apply pt f args rets =>
    exact (doArgs_keeps (fun h' => h (mem_append_left _ h')) s).congr fun u => by simp
  | throw pt x args =>
    refine ((addUse_keeps k x c s).trans (doArgs_keeps h _)).congr fun u => ?_
    constructor
    · intro h'
      rcases h' with ⟨rfl, hu⟩ | h'
      · exact ⟨rfl, ⟨pt, args, rfl⟩, hu⟩
      · exact absurd h' id
    simp_all
  | _ => exact (Keeps.refl k s).congr fun u => by simp [contHere]

/-- One expression after the other. -/
theorem foldl_keeps {k : Var} {l : List (Var × Exp)} (h : ∀ p ∈ l, ∀ s, Keeps k (Site k p.1 p.2) s
    (analExp isCont cnt p.1 p.2 s)) (s : Props) :
    Keeps k (fun u => ∃ p ∈ l, Site k p.1 p.2 u) s (l.foldl (fun s p => analExp isCont cnt p.1 p.2 s) s) := by
  induction l generalizing s with
  | nil => exact (Keeps.refl k s).congr fun u => by simp
  | cons p l ih =>
    refine ((h p mem_cons_self s).trans (ih (fun q hq => h q (mem_cons_of_mem _ hq)) _)).congr fun u => ?_
    simp

theorem site_iff {k c u : Var} {e : Exp} :
    Site k c e u ↔ ((∃ pt args, e = .throw pt k args) ∧ u = c) ∨ ∃ p ∈ ctxKids c e, Site k p.1 p.2 u := by
  constructor
  · intro h
    cases h with
    | here => exact Or.inl ⟨⟨_, _, rfl⟩, rfl⟩
    | kid hp hs => exact Or.inr ⟨_, hp, hs⟩
  · intro h
    rcases h with ⟨⟨pt, args, rfl⟩, rfl⟩ | ⟨p, hp, hs⟩
    · exact Site.here
    · exact Site.kid hp hs

theorem not_mem_of_kid (he : e' ∈ e.kids) (hc : k ∉ e.contNames) (ha : k ∉ e.args) :
    k ∉ e'.contNames ∧ k ∉ e'.args := by
  rw [contNames_eq, mem_append, not_or] at hc
  rw [args_eq, mem_append, not_or] at ha
  simp_all

/-- A variable that is neither bound as a continuation nor an argument keeps its kind. -/
theorem analExp_keeps {k : Var} (e : Exp) : ∀ c s, k ∉ e.contNames → k ∉ e.args →
    Keeps k (Site k c e) s (analExp isCont cnt c e s) := by
  induction e using Exp.induct with
  | h e ih =>
    intro c s hc ha
    have hkids : ∀ p ∈ ctxKids c e, ∀ s, Keeps k (Site k p.1 p.2) s (analExp isCont cnt p.1 p.2 s) := by
      intro p hp s
      have hp' := mem_kids_of_ctxKids hp
      obtain ⟨hc', ha'⟩ := not_mem_of_kid hp' hc ha
      exact ih p.2 hp' p.1 s hc' ha'
    by_cases hcont : e.contHere = []
    · rw [analExp_eq hcont]
      have hhere : k ∉ e.argsHere := fun h => ha (by rw [args_eq]; exact mem_append_left _ h)
      refine ((analHere_keeps hhere s).trans (foldl_keeps hkids _)).congr fun u => ?_
      rw [site_iff]
      simp [hcont]
    · cases e with
      | cont pt fb e =>
        have hkf : k ≠ fb.f := fun h => hc (by
          rw [contNames_eq, h]
          exact mem_append_left _ (mem_singleton_self _))
        rw [analExp_cont]
        refine (((((initCont_keeps hkf c s).trans (hkids (fb.f, fb.body) (by simp [ctxKids]) _)).trans
          (checkRec_keeps hkf _)).trans (hkids (c, e) (by simp [ctxKids]) _)).trans
          (checkJoin_keeps hkf c _)).congr fun u => ?_
        rw [@site_iff k c u (.cont pt fb e)]
        simp [ctxKids]
      | _ => exact absurd rfl hcont

/-! ## No new join points -/

/-- `x` is no join point unless it was one. -/
def NoNewJoin (x : Var) (s s' : Props) : Prop := s'.kind x = some .joinCont → s.kind x = some .joinCont

theorem markAsOther_noNewJoin (x k : Var) (s : Props) : NoNewJoin x s (markAsOther k s) := by
  intro h
  rw [markAsOther_kind] at h
  by_cases hx : x = k
  · subst hx
    rw [update_self] at h
    cases h
  · rwa [update_of_ne hx] at h

theorem doArgs_noNewJoin (x : Var) (xs : List Var) (s : Props) : NoNewJoin x s (xs.foldl (doArg isCont) s) := by
  induction xs generalizing s with
  | nil => exact id
  | cons y xs ih =>
    intro h
    have h' := ih _ h
    unfold doArg at h'
    split at h'
    · exact markAsOther_noNewJoin x y s h'
    · exact h'

theorem analHere_noNewJoin (x c : Var) (e : Exp) (s : Props) : NoNewJoin x s (analHere isCont c e s) := by
  cases e with
  | let_ | apply => exact doArgs_noNewJoin x _ s
  | throw pt k args =>
    intro h
    have h' := doArgs_noNewJoin x _ _ h
    unfold addUse at h'
    split at h' <;> exact h'
  | _ => exact id

theorem checkRec_noNewJoin (x f : Var) (s : Props) : NoNewJoin x s (checkRec f s) := by
  unfold checkRec
  split
  · exact id
  · exact markAsOther_noNewJoin x f s

theorem checkJoin_noNewJoin (x c f : Var) (s : Props) : NoNewJoin x s (checkJoin c f s) := by
  unfold checkJoin
  split
  · split
    · exact id
    · exact markAsOther_noNewJoin x f s
  · exact id

/-- A continuation can only be a join point when all its uses are throws. -/
theorem initCont_noNewJoin (h : (initCont cnt c f s).kind x = some .joinCont) :
    (x = f ∧ cnt.use f = cnt.app f) ∨ (x ≠ f ∧ s.kind x = some .joinCont) := by
  unfold initCont at h
  by_cases hx : x = f
  · subst hx
    left
    by_cases hc : cnt.use x = cnt.app x
    · exact ⟨rfl, hc⟩
    · rw [if_neg hc, markAsReturn_kind, update_self] at h
      cases h
  · right
    refine ⟨hx, ?_⟩
    by_cases hc : cnt.use f = cnt.app f
    · rwa [if_pos hc, markAsJoin_kind, update_of_ne hx] at h
    · rwa [if_neg hc, markAsReturn_kind, update_of_ne hx] at h

theorem foldl_noNewJoin (h : ∀ p ∈ l, ∀ s, NoNewJoin x s (analExp isCont cnt p.1 p.2 s)) (s : Props) :
    NoNewJoin x s (l.foldl (fun s p => analExp isCont cnt p.1 p.2 s) s) := by
  induction l generalizing s with
  | nil => exact id
  | cons p l ih =>
    intro hx
    exact h p mem_cons_self s (ih (fun q hq => h q (mem_cons_of_mem _ hq)) _ hx)

theorem analExp_noNewJoin (e : Exp) : ∀ c s, x ∉ e.contNames → NoNewJoin x s (analExp isCont cnt c e s) := by
  induction e using Exp.induct with
  | h e ih =>
    intro c s hc hx
    have hkids : ∀ p ∈ ctxKids c e, ∀ s, NoNewJoin x s (analExp isCont cnt p.1 p.2 s) := by
      intro p hp s
      have hp' := mem_kids_of_ctxKids hp
      grind [contNames_eq]
    by_cases hcont : e.contHere = []
    · rw [analExp_eq hcont] at hx
      exact analHere_noNewJoin x c e s (foldl_noNewJoin hkids _ hx)
    · cases e with
      | cont pt fb e =>
        rw [analExp_cont] at hx
        have h₁ := checkJoin_noNewJoin _ _ _ _ hx
        have h₂ := hkids (c, e) (by simp [ctxKids]) _ h₁
        have h₃ := hkids (fb.f, fb.body) (by simp [ctxKids]) _ (checkRec_noNewJoin _ _ _ h₂)
        rcases initCont_noNewJoin h₃ with ⟨rfl, _⟩ | ⟨_, h⟩
        · refine absurd ?_ hc
          rw [contNames_eq]
          exact mem_append_left _ (mem_singleton_self _)
        · exact h
      | _ => exact absurd rfl hcont

/-! ## The outer contexts -/

@[simp] theorem markAsOther_outer (k : Var) (s : Props) : (markAsOther k s).outer = s.outer := by
  unfold markAsOther
  split <;> rfl

@[simp] theorem addUse_outer (c k : Var) (s : Props) : (addUse c k s).outer = s.outer := by
  unfold addUse
  split <;> rfl

@[simp] theorem checkRec_outer (f : Var) (s : Props) : (checkRec f s).outer = s.outer := by
  unfold checkRec
  split
  · rfl
  · exact markAsOther_outer f s

@[simp] theorem checkJoin_outer (c f : Var) (s : Props) : (checkJoin c f s).outer = s.outer := by
  unfold checkJoin
  split
  · split
    · rfl
    · exact markAsOther_outer f s
  · rfl

@[simp] theorem initCont_outer (c f : Var) (s : Props) : (initCont cnt c f s).outer = (f, c) :: s.outer := by
  unfold initCont
  dsimp only
  split <;> rfl

theorem doArgs_outer (xs : List Var) (s : Props) : (xs.foldl (doArg isCont) s).outer = s.outer := by
  induction xs generalizing s with
  | nil => rfl
  | cons x xs ih =>
    rw [List.foldl_cons, ih]
    unfold doArg
    split
    · exact markAsOther_outer x s
    · rfl

theorem analHere_outer (c : Var) (e : Exp) (s : Props) : (analHere isCont c e s).outer = s.outer := by
  cases e with
  | let_ | apply => exact doArgs_outer _ s
  | throw pt k args => exact (doArgs_outer _ _).trans (addUse_outer c k s)
  | _ => rfl

/-- The table has grown by the continuations of `e`, in the context `c`. -/
def Grown (e : Exp) (c : Var) (s s' : Props) : Prop :=
  ∃ l, s'.outer = l ++ s.outer ∧ (l.map (·.1)).Perm e.contNames ∧ ∀ f o, Link f o c e → (f, o) ∈ l

theorem foldl_grown (h : ∀ p ∈ l, ∀ s, Grown p.2 p.1 s (analExp isCont cnt p.1 p.2 s)) (s : Props) :
    ∃ l', (l.foldl (fun s p => analExp isCont cnt p.1 p.2 s) s).outer = l' ++ s.outer ∧ (l'.map (·.1)).Perm
      (l.flatMap fun p => p.2.contNames) ∧ ∀ p ∈ l, ∀ f o, Link f o p.1 p.2 → (f, o) ∈ l' := by
  induction l generalizing s with
  | nil => exact ⟨[], rfl, .refl _, fun _ hp => absurd hp not_mem_nil⟩
  | cons p l ih =>
    obtain ⟨l₁, h₁, hp₁, hlink₁⟩ := h p mem_cons_self s
    obtain ⟨l₂, h₂, hp₂, hlink₂⟩ := ih (fun q hq => h q (mem_cons_of_mem _ hq)) (analExp isCont cnt p.1 p.2 s)
    refine ⟨l₂ ++ l₁, ?_, ?_, fun q hq f o hl => ?_⟩
    · rw [List.foldl_cons, h₂, h₁, List.append_assoc]
    · rw [map_append, List.flatMap_cons]
      exact (hp₂.append hp₁).trans List.perm_append_comm
    grind

theorem flatMap_ctxKids (c : Var) (e : Exp) : ((ctxKids c e).flatMap fun p => p.2.contNames) = e.kids.flatMap Exp.contNames := by
  rw [← map_ctxKids c e, List.flatMap_map]

theorem analExp_grown (e : Exp) : ∀ c s, Grown e c s (analExp isCont cnt c e s) := by
  induction e using Exp.induct with
  | h e ih =>
    intro c s
    have hkids : ∀ p ∈ ctxKids c e, ∀ s, Grown p.2 p.1 s (analExp isCont cnt p.1 p.2 s) := fun p hp s =>
      ih p.2 (mem_kids_of_ctxKids hp) p.1 s
    by_cases hcont : e.contHere = []
    · obtain ⟨l, hl, hp, hlink⟩ := foldl_grown hkids (analHere isCont c e s)
      refine ⟨l, ?_, ?_, fun f o h => ?_⟩
      · rw [analExp_eq hcont, hl, analHere_outer]
      · rw [contNames_eq, hcont, List.nil_append, ← flatMap_ctxKids c e]
        exact hp
      · cases h with
        | here => cases hcont
        | kid hp h => exact hlink _ hp f o h
    · cases e with
      | cont pt fb e =>
        obtain ⟨l₁, h₁, hp₁, hlink₁⟩ := hkids (fb.f, fb.body) (by simp [ctxKids]) (initCont cnt c fb.f s)
        obtain ⟨l₂, h₂, hp₂, hlink₂⟩ := hkids (c, e) (by simp [ctxKids])
          (checkRec fb.f (analExp isCont cnt fb.f fb.body (initCont cnt c fb.f s)))
        refine ⟨l₂ ++ (l₁ ++ [(fb.f, c)]), ?_, ?_, fun f o h => ?_⟩
        · rw [analExp_cont, checkJoin_outer, h₂, checkRec_outer, h₁, initCont_outer]
          simp
        · rw [contNames_eq]
          grind [contHere, kids]
        · cases h with
          | here hf =>
            rw [hf]
            simp
          | kid hp h =>
            rcases mem_cons.1 hp with rfl | hp
            · simp [hlink₁ f o h]
            · rw [mem_singleton.1 hp] at h
              simp [hlink₂ f o h]
      | _ => exact absurd rfl hcont

/-! ## Sites that pass the check -/

/-- `checkUse` comes to `u` at some place of the table, and is satisfied. -/
def Up (σ : Props) (o u : Var) : Prop := ∃ rest, rest <:+ σ.outer ∧ checkUse (kindOf σ) o rest u = true

/-- A context that passes is the one that is looked for, or a join point whose outer context passes. -/
theorem Up.cases {u : Var} (h : Up σ o u) :
    u = o ∨ (kindOf σ u = .joinCont ∧ ∃ c, (u, c) ∈ σ.outer ∧ Up σ o c) := by
  obtain ⟨rest, hsuf, hchk⟩ := h
  induction rest with
  | nil => exact Or.inl (of_decide_eq_true hchk).symm
  | cons p rest ih =>
    obtain ⟨k, c⟩ := p
    have hrest : rest <:+ σ.outer := (List.suffix_cons _ _).trans hsuf
    rw [checkUse] at hchk
    split at hchk
    · rename_i hou
      exact Or.inl hou.symm
    · split at hchk
      · rename_i hku
        subst hku
        rw [Bool.and_eq_true, beq_iff_eq] at hchk
        exact Or.inr ⟨hchk.1, c, hsuf.subset mem_cons_self, rest, hrest, hchk.2⟩
      · exact ih hrest hchk

/-- What the state says about an expression in the scope of a continuation, when the uses of the continuation are
    checked: `o` is the context that binds it, and `c` that of the expression. -/
structure Inside (σ : Props) (o c : Var) (e : Exp) : Prop where
  keys : (σ.outer.map (·.1)).Nodup
  links : ∀ f c', Link f c' c e → (f, c') ∈ σ.outer
  notOuter : o ∉ e.binders
  funs : ∀ pt fbs e', .fun_ pt fbs e' ∈ e.subs → ∀ fb ∈ fbs, kindOf σ fb.f ≠ .joinCont

theorem mem_subs_of_kid {e'' : Exp} (he : e' ∈ e.kids) (h : e'' ∈ e'.subs) : e'' ∈ e.subs := by
  rw [subs_eq]
  exact mem_cons_of_mem _ (mem_flatMap.2 ⟨e', he, h⟩)

theorem mem_binders_of_kid (he : e' ∈ e.kids) (h : x ∈ e'.binders) : x ∈ e.binders := by
  rw [binders_eq]
  exact mem_append_right _ (mem_flatMap.2 ⟨e', he, h⟩)

theorem mem_binders_of_here (h : x ∈ e.bindsHere) : x ∈ e.binders := by
  rw [binders_eq]
  exact mem_append_left _ h

theorem Inside.kid {σ : Props} {o c : Var} {e : Exp} (h : Inside σ o c e) {p : Var × Exp} (hp : p ∈ ctxKids c e) :
    Inside σ o p.1 p.2 := by
  have hp' := mem_kids_of_ctxKids hp
  exact ⟨h.keys, fun f c' hl => h.links f c' (Link.kid hp hl), fun ho => h.notOuter (mem_binders_of_kid hp' ho),
    fun pt fbs e' he' => h.funs pt fbs e' (mem_subs_of_kid hp' he')⟩

theorem mem_unique {l : List (Var × Var)} (h : (l.map (·.1)).Nodup) {y y' : Var} (hy : (x, y) ∈ l)
    (hy' : (x, y') ∈ l) : y = y' := by
  have := List.inj_on_of_nodup_map h hy hy' rfl
  exact (Prod.mk.inj this).2

/-- Where a function body has a site that passes, the function would. -/
theorem not_up_of_fun {fbs : List Lambda} (h : Inside σ o c (.fun_ pt fbs e)) (hfb : fb ∈ fbs) : ¬ Up σ o fb.f := by
  intro hup
  rcases hup.cases with ho | ⟨hj, _⟩
  · refine h.notOuter (mem_binders_of_here ?_)
    rw [← ho]
    exact mem_flatMap.2 ⟨fb, hfb, mem_cons_self⟩
  · exact h.funs pt fbs e (Exp.self_mem_subs _) fb hfb hj

/-- A continuation whose body has a site that passes is a join point, and its context passes. -/
theorem up_of_cont (h : Inside σ o c (.cont pt fb e)) (hup : Up σ o fb.f) :
    kindOf σ fb.f = .joinCont ∧ Up σ o c := by
  rcases hup.cases with ho | ⟨hj, c', hc', hup'⟩
  · refine absurd (mem_binders_of_here ?_) h.notOuter
    rw [← ho]
    exact mem_cons_self
  · have hc : c' = c := mem_unique h.keys hc' (h.links fb.f c (Link.here rfl))
    exact ⟨hj, hc ▸ hup'⟩

theorem up_of_site {u : Var} (hs : Site k c e u) : Inside σ o c e → Up σ o u → Up σ o c := by
  induction hs with
  | here => exact fun _ h => h
  | @kid c e u p hp _ ih =>
    intro h hu
    have hup := ih (h.kid hp) hu
    cases e with
    | fun_ pt fbs e =>
      rcases mem_append.1 hp with hp | hp
      · grind [not_up_of_fun]
      · rw [mem_singleton.1 hp] at hup
        exact hup
    | cont pt fb e =>
      rcases mem_cons.1 hp with rfl | hp
      · exact (up_of_cont h hup).2
      · rw [mem_singleton.1 hp] at hup
        exact hup
    | let_ pt lhs rhs e =>
      rw [mem_singleton.1 hp] at hup
      exact hup
    | if_ pt cond e₁ e₂ =>
      rcases mem_cons.1 hp with rfl | hp
      · exact hup
      · rw [mem_singleton.1 hp] at hup
        exact hup
    | switch pt x cases dflt =>
      obtain ⟨e', _, rfl⟩ := mem_map.1 hp
      exact hup
    | apply | throw => cases hp

/-- A continuation that is no argument and is never thrown to is not used. -/
theorem not_mem_uses {P : Var → Prop} (hk : P k) :
    ∀ {c Γ}, e.Scoped P Γ → k ∉ e.args → (∀ u, ¬ Site k c e u) → k ∉ e.uses := by
  induction e using Exp.induct with
  | h e ih =>
    intro c Γ hsc ha hs hu
    rw [Exp.uses_eq, mem_append] at hu
    rw [args_eq, mem_append, not_or] at ha
    rcases hu with hu | hu
    · unfold Exp.usesHere at hu
      rcases mem_append.1 hu with hu | hu
      · cases e with
        | apply pt f args rets =>
          rw [Exp.Scoped] at hsc
          have hkf : k = f := by simpa [called] using hu
          exact hsc.2.1 (hkf ▸ hk)
        | throw pt x args =>
          have hkx : k = x := by simpa [called] using hu
          subst hkx
          exact hs c Site.here
        | _ => cases hu
      · exact ha.1 hu
    · obtain ⟨e', he', hu⟩ := mem_flatMap.1 hu
      obtain ⟨Γ', hsc', _, _⟩ := hsc.kid he'
      rw [← map_ctxKids c e] at he'
      obtain ⟨p, hp, rfl⟩ := mem_map.1 he'
      have hp' := mem_kids_of_ctxKids hp
      have hnone : ∀ u, ¬ Site k p.1 p.2 u := fun u hsite => hs u (Site.kid hp hsite)
      exact ih p.2 hp' hsc' (fun h => ha.2 (mem_flatMap.2 ⟨p.2, hp', h⟩)) hnone hu

/-- The continuations that the state has as join points. -/
def IsJoin (σ : Props) (x : Var) : Prop := kindOf σ x = .joinCont

/-- If all sites of `k` pass the check then its uses are throws in the activation of the binding. -/
theorem throwsOnly_of_up {P : Var → Prop} (hk : P k) :
    ∀ {c Γ}, Inside σ o c e → e.Scoped P Γ → k ∉ e.args → (∀ u, Site k c e u → Up σ o u) → ThrowsOnly
      (IsJoin σ) k e := by
  induction e using Exp.induct with
  | h e ih =>
    intro c Γ hin hsc ha hs
    have hargs : k ∉ e.argsHere := fun h => ha (by rw [args_eq]; exact mem_append_left _ h)
    have hkid : ∀ p ∈ ctxKids c e, k ∉ p.2.args ∧ ∃ Γ', p.2.Scoped P Γ' := by
      intro p hp
      have hp' := mem_kids_of_ctxKids hp
      obtain ⟨Γ', hsc', _, _⟩ := hsc.kid hp'
      grind [args_eq]
    have hkids : ∀ p ∈ ctxKids c e, ThrowsOnly (IsJoin σ) k p.2 := by
      intro p hp
      obtain ⟨ha', Γ', hsc'⟩ := hkid p hp
      exact ih p.2 (mem_kids_of_ctxKids hp) (hin.kid hp) hsc' ha' fun u hsite => hs u (Site.kid hp hsite)
    cases e with
    | let_ pt lhs rhs e => exact .let_ hargs (hkids (c, e) (by simp [ctxKids]))
    | fun_ pt fbs e =>
      refine .fun_ (fun fb hfb => ?_) (hkids (c, e) (by simp [ctxKids]))
      have hp : (fb.f, fb.body) ∈ ctxKids c (.fun_ pt fbs e) :=
        mem_append_left _ (mem_map.2 ⟨fb, hfb, rfl⟩)
      obtain ⟨ha', Γ', hsc'⟩ := hkid _ hp
      exact not_mem_uses hk hsc' ha' fun u hsite =>
        not_up_of_fun hin hfb (up_of_site hsite (hin.kid hp) (hs u (Site.kid hp hsite)))
    | cont pt fb e =>
      have hp : (fb.f, fb.body) ∈ ctxKids c (.cont pt fb e) := mem_cons_self
      have he := hkids (c, e) (by simp [ctxKids])
      by_cases hj : kindOf σ fb.f = .joinCont
      · exact .joinCont hj (hkids _ hp) he
      · refine .cont ?_ he
        obtain ⟨ha', Γ', hsc'⟩ := hkid _ hp
        exact not_mem_uses hk hsc' ha' fun u hsite =>
          hj (up_of_cont hin (up_of_site hsite (hin.kid hp) (hs u (Site.kid hp hsite)))).1
    | if_ pt cond e₁ e₂ =>
      exact .if_ hargs (hkids (c, e₁) (by simp [ctxKids])) (hkids (c, e₂) (by simp [ctxKids]))
    | switch pt x cases dflt =>
      refine .switch (fun h => hargs (by rw [h]; exact mem_singleton_self _)) (fun b hb => ?_) fun e he => ?_
      · exact hkids (c, b.2) (mem_map.2 ⟨b.2, mem_append_left _ (mem_map.2 ⟨b, hb, rfl⟩), rfl⟩)
      · exact hkids (c, e) (mem_map.2 ⟨e, mem_append_right _ (Option.mem_toList.2 he), rfl⟩)
    | apply pt f args rets =>
      rw [Exp.Scoped] at hsc
      refine .apply (fun h => hsc.2.1 (h ▸ hk)) (fun h => hargs ?_) fun h => hargs ?_
      · exact mem_append_left _ h
      · exact mem_append_right _ h
    | throw pt x args => exact .throw hargs

/-! ## Soundness -/

/-- What is promised of a continuation that is a join point. -/
structure JoinAt (cnt : Counts) (join : Var → Prop) (fb : Lambda) (e : Exp) : Prop where
  counts : cnt.use fb.f = cnt.app fb.f
  notRec : fb.f ∉ fb.body.uses
  throws : ThrowsOnly join fb.f e

/-- Every join point that is bound in the expression keeps the promise. -/
def Sound (cnt : Counts) (join : Var → Prop) (e : Exp) : Prop :=
  ∀ pt fb e', .cont pt fb e' ∈ e.subs → join fb.f → JoinAt cnt join fb e'

theorem ThrowsOnly.congr {join join' : Var → Prop} (h : ThrowsOnly join k e) :
    (∀ x ∈ e.contNames, join x → join' x) → ThrowsOnly join' k e := by
  have hkid : ∀ {e e' : Exp}, e' ∈ e.kids → (∀ x ∈ e.contNames, join x → join' x) →
      ∀ x ∈ e'.contNames, join x → join' x := by
    grind [contNames_eq]
  induction h with
  | let_ hx _ ih => exact fun hj => .let_ hx (ih (hkid (by simp [kids]) hj))
  | fun_ hx _ ih => exact fun hj => .fun_ hx (ih (hkid (by simp [kids]) hj))
  | joinCont hf _ _ ih₁ ih₂ =>
    refine fun hj => .joinCont (hj _ ?_ hf) (ih₁ (hkid (by simp [kids]) hj)) (ih₂ (hkid (by simp [kids]) hj))
    rw [contNames_eq]
    exact mem_append_left _ (mem_singleton_self _)
  | cont hx _ ih => exact fun hj => .cont hx (ih (hkid (by simp [kids]) hj))
  | if_ hx _ _ ih₁ ih₂ =>
    exact fun hj => .if_ hx (ih₁ (hkid (by simp [kids]) hj)) (ih₂ (hkid (by simp [kids]) hj))
  | switch hx _ _ ih₁ ih₂ =>
    refine fun hj => .switch hx (fun c hc => ih₁ c hc (hkid ?_ hj)) fun e he => ih₂ e he (hkid ?_ hj)
    · exact mem_append_left _ (mem_map.2 ⟨c, hc, rfl⟩)
    · exact mem_append_right _ (Option.mem_toList.2 he)
  | apply h₁ h₂ h₃ => exact fun _ => .apply h₁ h₂ h₃
  | throw hx => exact fun _ => .throw hx

theorem mem_contNames (h : .cont pt fb e' ∈ e.subs) : fb.f ∈ e.contNames :=
  mem_flatMap.2 ⟨_, h, mem_singleton_self _⟩

theorem contNames_subset (h : e' ∈ e.subs) (hx : x ∈ e'.contNames) : x ∈ e.contNames := by
  obtain ⟨e'', he'', hx⟩ := mem_flatMap.1 hx
  exact mem_flatMap.2 ⟨e'', Exp.subs_trans h he'', hx⟩

/-- What is known of join points stays true while the continuations of the expression keep their kinds. -/
theorem Sound.congr (h : Sound cnt (IsJoin s) e) (hk : ∀ x ∈ e.contNames, s'.kind x = s.kind x) :
    Sound cnt (IsJoin s') e := by
  have hjoin : ∀ x ∈ e.contNames, IsJoin s' x ↔ IsJoin s x := by
    intro x hx
    unfold IsJoin kindOf
    rw [hk x hx]
  intro pt fb e' he' hf
  obtain ⟨h₁, h₂, h₃⟩ := h pt fb e' he' ((hjoin fb.f (mem_contNames he')).1 hf)
  have hsub : e' ∈ e.subs := Exp.subs_trans he' (mem_subs_of_kid (by simp [kids]) e'.self_mem_subs)
  exact ⟨h₁, h₂, h₃.congr fun x hx hj => (hjoin x (contNames_subset hsub hx)).2 hj⟩

/-- What is known of an expression in the context `c` before it is analyzed. -/
structure Known (isCont : Var → Bool) (cnt : Counts) (Γ : List Var) (c : Var) (e : Exp) : Prop where
  wf : e.WF (fun x => isCont x = true) Γ
  ctx : c ∉ e.binders
  conts : ∀ x ∈ e.contNames, isCont x = true
  funs : ∀ pt fbs e', .fun_ pt fbs e' ∈ e.subs → ∀ fb ∈ fbs, isCont fb.f = false
  args : ∀ k ∈ e.contNames, cnt.use k = cnt.app k → k ∉ e.args

theorem Known.kid {Γ : List Var} {c : Var} {e : Exp} (h : Known isCont cnt Γ c e) {p : Var × Exp}
    (hp : p ∈ ctxKids c e) : ∃ Γ', Known isCont cnt Γ' p.1 p.2 := by
  have hp' := mem_kids_of_ctxKids hp
  obtain ⟨Γ', hwf, _, _⟩ := h.wf.kid hp'
  have hconts : ∀ x ∈ p.2.contNames, x ∈ e.contNames := by
    intro x hx
    rw [contNames_eq]
    exact mem_append_right _ (mem_flatMap.2 ⟨p.2, hp', hx⟩)
  have hctx : p.1 = c ∨ p.1 ∈ e.bindsHere := by
    cases e with
    | fun_ pt fbs e =>
      rcases mem_append.1 hp with hp | hp
      · obtain ⟨fb, hfb, rfl⟩ := mem_map.1 hp
        exact Or.inr (mem_flatMap.2 ⟨fb, hfb, mem_cons_self⟩)
      · rw [mem_singleton.1 hp]
        exact Or.inl rfl
    | cont pt fb e =>
      rcases mem_cons.1 hp with rfl | hp
      · exact Or.inr mem_cons_self
      · rw [mem_singleton.1 hp]
        exact Or.inl rfl
    | let_ pt lhs rhs e =>
      rw [mem_singleton.1 hp]
      exact Or.inl rfl
    | if_ pt cond e₁ e₂ =>
      rcases mem_cons.1 hp with rfl | hp
      · exact Or.inl rfl
      · rw [mem_singleton.1 hp]
        exact Or.inl rfl
    | switch pt x cases dflt =>
      obtain ⟨e', _, rfl⟩ := mem_map.1 hp
      exact Or.inl rfl
    | apply | throw => cases hp
  refine ⟨Γ', hwf, fun hc => ?_, fun x hx => h.conts x (hconts x hx),
    fun pt fbs e' he' => h.funs pt fbs e' (mem_subs_of_kid hp' he'), fun k hk hc ha => ?_⟩
  · rcases hctx with hcc | hcc
    · exact h.ctx (hcc ▸ mem_binders_of_kid hp' hc)
    · have hn := h.wf.nodup
      rw [binders_eq, nodup_append] at hn
      exact hn.2.2 p.1 hcc p.1 (mem_flatMap.2 ⟨p.2, hp', hc⟩) rfl
  · refine h.args k (hconts k hk) hc ?_
    rw [args_eq]
    exact mem_append_right _ (mem_flatMap.2 ⟨p.2, hp', ha⟩)

/-- A continuation of the one expression is neither bound nor an argument in the other. -/
def Apart (p q : Var × Exp) : Prop := ∀ x ∈ p.2.contNames, x ∉ q.2.contNames ∧ x ∉ q.2.args

theorem Known.apart (h : Known isCont cnt Γ c e) : (ctxKids c e).Pairwise Apart := by
  have hn := h.wf.nodup
  rw [binders_eq, nodup_append] at hn
  have hdisj := (nodup_flatMap.1 hn.2.1).2
  rw [← map_ctxKids c e, List.pairwise_map] at hdisj
  refine hdisj.imp_of_mem ?_
  intro p q hp hq hpq x hx
  have hxp : x ∈ p.2.binders := Exp.mem_binders_of_contNames hx
  refine ⟨fun hxq => hpq hxp (Exp.mem_binders_of_contNames hxq), fun hxq => ?_⟩
  obtain ⟨Γ', hwf, _, hΓ'⟩ := h.wf.kid (mem_kids_of_ctxKids hq)
  have hxe : x ∈ e.kids.flatMap Exp.binders := mem_flatMap.2 ⟨p.2, mem_kids_of_ctxKids hp, hxp⟩
  rcases hwf.inScope.uses x (Exp.mem_uses_of_args hxq) with h' | h'
  · rcases hΓ' x h' with h' | h'
    · exact h.wf.fresh x (by rw [binders_eq]; exact mem_append_right _ hxe) h'
    · exact hn.2.2 x h' x hxe rfl
  · exact hpq hxp h'

/-- The state before the expressions with the continuations `xs` are analyzed. -/
structure Ready (isCont : Var → Bool) (xs : List Var) (s : Props) : Prop where
  joins : ∀ x, s.kind x = some .joinCont → isCont x = true
  keys : (xs ++ s.outer.map (·.1)).Nodup

theorem Ready.step {xs : List Var} {s : Props} {c : Var} {e : Exp} (h : Ready isCont (e.contNames ++ xs) s)
    (hc : ∀ x ∈ e.contNames, isCont x = true) : Ready isCont xs (analExp isCont cnt c e s) := by
  refine ⟨fun x hx => ?_, ?_⟩
  · by_cases hxe : x ∈ e.contNames
    · exact hc x hxe
    · exact h.joins x (analExp_noNewJoin e c s hxe hx)
  · obtain ⟨l, hl, hp, _⟩ := @analExp_grown isCont cnt e c s
    rw [hl, map_append]
    have hperm : (xs ++ (l.map (·.1) ++ s.outer.map (·.1))).Perm (e.contNames ++ xs ++ s.outer.map (·.1)) := by
      rw [← List.append_assoc]
      exact ((List.Perm.append_left xs hp).trans List.perm_append_comm).append_right _
    exact hperm.nodup_iff.2 h.keys

theorem isJoin_iff : IsJoin s x ↔ s.kind x = some .joinCont := by
  unfold IsJoin kindOf
  cases h : s.kind x with
  | none => simp
  | some k => simp

theorem Ready.of_outer {xs ys : List Var} {s s' : Props} (h : Ready isCont (xs ++ ys) s)
    (hj : ∀ x, NoNewJoin x s s') (ho : s'.outer = s.outer) : Ready isCont xs s' ∧ Ready isCont ys s' := by
  have hjoins : ∀ x, s'.kind x = some .joinCont → isCont x = true := fun x hx => h.joins x (hj x hx)
  have hkeys := h.keys
  rw [← ho] at hkeys
  refine ⟨⟨hjoins, hkeys.sublist ?_⟩, ⟨hjoins, hkeys.sublist ?_⟩⟩
  · exact (List.sublist_append_left _ _).append_right _
  · exact (List.sublist_append_right _ _).append_right _

theorem foldl_sound (happ : l.Pairwise Apart) (hconts : ∀ p ∈ l, ∀ x ∈ p.2.contNames, isCont x = true)
    (h : ∀ p ∈ l, ∀ s, Ready isCont p.2.contNames s → Sound cnt (IsJoin (analExp isCont cnt p.1 p.2 s)) p.2) :
    ∀ s, Ready isCont (l.flatMap fun p => p.2.contNames) s → ∀ p ∈ l, Sound cnt
      (IsJoin (l.foldl (fun s p => analExp isCont cnt p.1 p.2 s) s)) p.2 := by
  induction l with
  | nil => exact fun _ _ _ hp => absurd hp not_mem_nil
  | cons p l ih =>
    intro s hs q hq
    rw [List.flatMap_cons] at hs
    obtain ⟨hpl, hl⟩ := List.pairwise_cons.1 happ
    rcases mem_cons.1 hq with rfl | hq
    · have hsound := h q mem_cons_self s (hs.of_outer (fun _ => id) rfl).1
      refine hsound.congr fun x hx => ?_
      -- the later expressions leave the continuations of `q` alone
      have hkeep := @foldl_keeps isCont cnt x l (fun r hr s =>
        analExp_keeps r.2 r.1 s (hpl r hr x hx).1 (hpl r hr x hx).2) (analExp isCont cnt q.1 q.2 s)
      exact hkeep.kind
    · exact ih hl (fun r hr => hconts r (mem_cons_of_mem _ hr)) (fun r hr => h r (mem_cons_of_mem _ hr)) _
        (hs.step (hconts p mem_cons_self)) q hq

theorem kind_checkJoin_of_ne (h : x ≠ f) : (checkJoin c f s).kind x = s.kind x :=
  (checkJoin_keeps h c s).kind

/-- A continuation is a join point at the end only if its uses pass the check. -/
theorem join_of_checkJoin (h : IsJoin (checkJoin c f s) f) :
    s.kind f = some .joinCont ∧ ∀ u ∈ usesOf s f, checkUse (kindOf s) c s.outer u = true := by
  unfold checkJoin at h
  split at h
  · rename_i hj
    refine ⟨isJoin_iff.1 hj, ?_⟩
    by_cases hall : (usesOf s f).all (checkUse (kindOf s) c s.outer) = true
    · exact List.all_eq_true.1 hall
    · rw [if_neg hall, isJoin_iff, clrUses_kind, markAsOther_kind, update_self] at h
      cases h
  · rename_i hj
    exact absurd h hj

/-- The state when the body of a continuation that stays a join point has been analyzed. -/
theorem uses_of_checkRec (h : (checkRec f s).kind f = some .joinCont) : usesOf s f = [] ∧ checkRec f s = s := by
  unfold checkRec at h ⊢
  by_cases hu : (usesOf s f).isEmpty = true
  · rw [if_pos hu]
    exact ⟨List.isEmpty_iff.1 hu, rfl⟩
  · rw [if_neg hu, markAsOther_kind, update_self] at h
    cases h

theorem contNames_cont : (Exp.cont pt fb e).contNames = fb.f :: (fb.body.contNames ++ e.contNames) := by
  rw [contNames_eq]
  simp [contHere, kids]

/-- The states before the body of a continuation and before its scope are analyzed. -/
theorem ready_cont (hk : Known isCont cnt Γ c (.cont pt fb e)) (hs : Ready isCont (Exp.cont pt fb e).contNames s) :
    (fb.f ∉ fb.body.contNames ∧ fb.f ∉ e.contNames) ∧ Ready isCont fb.body.contNames (initCont cnt c fb.f s) ∧ Ready
      isCont e.contNames (analExp isCont cnt fb.f fb.body (initCont cnt c fb.f s)) := by
  have hkeys := hs.keys
  rw [contNames_cont] at hkeys
  have hready : Ready isCont (fb.body.contNames ++ e.contNames) (initCont cnt c fb.f s) := by
    refine ⟨fun x hx => ?_, ?_⟩
    · rcases initCont_noNewJoin hx with h | h
      · rw [h.1]
        exact hk.conts _ (by rw [contNames_cont]; exact mem_cons_self)
      · exact hs.joins x h.2
    · rw [initCont_outer]
      exact List.perm_middle.nodup_iff.2 hkeys
  obtain ⟨Γ', hk'⟩ := hk.kid (p := (fb.f, fb.body)) mem_cons_self
  refine ⟨?_, (hready.of_outer (fun _ => id) rfl).1, hready.step hk'.conts⟩
  have h := (List.nodup_cons.1 hkeys).1
  simp only [List.append_eq, mem_append, not_or] at h
  exact ⟨h.1.1, h.1.2⟩

/-- The continuation of the root, once its scope has been analyzed. -/
theorem joinAt_of_join (hk : Known isCont cnt Γ c (.cont pt fb e))
    (hs : Ready isCont (Exp.cont pt fb e).contNames s) (hj : IsJoin (analExp isCont cnt c (.cont pt fb e) s) fb.f) :
    JoinAt cnt (IsJoin (analExp isCont cnt c (.cont pt fb e) s)) fb e := by
  obtain ⟨s₁, hs₁⟩ : ∃ s₁, s₁ = initCont cnt c fb.f s := ⟨_, rfl⟩
  obtain ⟨s₂, hs₂⟩ : ∃ s₂, s₂ = analExp isCont cnt fb.f fb.body s₁ := ⟨_, rfl⟩
  obtain ⟨s₄, hs₄⟩ : ∃ s₄, s₄ = analExp isCont cnt c e (checkRec fb.f s₂) := ⟨_, rfl⟩
  have heq : analExp isCont cnt c (.cont pt fb e) s = checkJoin c fb.f s₄ := by
    rw [analExp_cont, hs₄, hs₂, hs₁]
  rw [heq] at hj ⊢
  have hbody : (fb.f, fb.body) ∈ ctxKids c (.cont pt fb e) := mem_cons_self
  have hrest : (c, e) ∈ ctxKids c (.cont pt fb e) := by simp [ctxKids]
  obtain ⟨Γb, hkb⟩ := hk.kid hbody
  obtain ⟨Γe, hke⟩ := hk.kid hrest
  have hfe : fb.f ∈ (Exp.cont pt fb e).contNames := by
    rw [contNames_cont]
    exact mem_cons_self
  have hfc : isCont fb.f = true := hk.conts _ hfe
  obtain ⟨hfnot, _, hready₂⟩ := ready_cont hk hs
  rw [← hs₁, ← hs₂] at hready₂
  obtain ⟨hj₄, hchk⟩ := join_of_checkJoin hj
  have hj₃ : (checkRec fb.f s₂).kind fb.f = some .joinCont := analExp_noNewJoin e c _ hfnot.2 (hs₄ ▸ hj₄)
  obtain ⟨hu₂, hrec⟩ := uses_of_checkRec hj₃
  rw [hrec] at hj₃ hs₄
  have hj₁ : s₁.kind fb.f = some .joinCont := analExp_noNewJoin fb.body fb.f _ hfnot.1 (hs₂ ▸ hj₃)
  have hcount : cnt.use fb.f = cnt.app fb.f := by
    rw [hs₁] at hj₁
    rcases initCont_noNewJoin hj₁ with h | h
    · exact h.2
    · exact absurd rfl h.1
  have hargs : fb.f ∉ fb.body.args ∧ fb.f ∉ e.args := by
    have h := hk.args fb.f hfe hcount
    rw [args_eq] at h
    simpa [Exp.argsHere, kids] using h
  have huses₁ : s₁.uses fb.f = some [] := by
    rw [hs₁]
    unfold initCont
    rw [if_pos hcount]
    exact update_self _ _ _
  obtain ⟨r₂, hr₂, hsites₂⟩ := (hs₂ ▸ @analExp_keeps isCont cnt fb.f fb.body fb.f s₁ hfnot.1
    hargs.1).uses [] huses₁
  have hr₂nil : r₂ = [] := by
    unfold usesOf at hu₂
    rw [hr₂] at hu₂
    exact hu₂
  subst hr₂nil
  obtain ⟨r₄, hr₄, hsites₄⟩ := (hs₄ ▸ @analExp_keeps isCont cnt fb.f e c s₂ hfnot.2 hargs.2).uses [] hr₂
  -- the state after the scope
  have hready₄ : Ready isCont [] s₄ := by
    rw [← append_nil e.contNames] at hready₂
    rw [hs₄]
    exact hready₂.step hke.conts
  obtain ⟨l, hl, _, hlinks⟩ := @analExp_grown isCont cnt e c s₂
  have hinside : Inside s₄ c c e := by
    refine ⟨hready₄.keys, fun f o hlink => ?_, hke.ctx, fun pt fbs e' he' fb' hfb' h => ?_⟩
    · rw [hs₄, hl]
      exact mem_append_left _ (hlinks f o hlink)
    · have h' := hready₄.joins _ (isJoin_iff.1 h)
      rw [hke.funs pt fbs e' he' fb' hfb'] at h'
      cases h'
  have hthrows : ThrowsOnly (IsJoin s₄) fb.f e := by
    refine throwsOnly_of_up (P := fun x => isCont x = true) hfc hinside hke.wf.inScope hargs.2 fun u hu => ?_
    refine ⟨s₄.outer, List.suffix_refl _, hchk u ?_⟩
    unfold usesOf
    rw [hr₄]
    exact (hsites₄ u).2 (Or.inr hu)
  refine ⟨hcount, ?_, hthrows.congr fun x hx hxj => ?_⟩
  · refine not_mem_uses (P := fun x => isCont x = true) hfc (c := fb.f) hkb.wf.inScope hargs.1 fun u hu => ?_
    exact absurd ((hsites₂ u).2 (Or.inr hu)) not_mem_nil
  grind [isJoin_iff, kind_checkJoin_of_ne]

/-- The continuations below the root keep the kinds they have got. -/
theorem cont_kids_sound (hk : Known isCont cnt Γ c (.cont pt fb e))
    (hs : Ready isCont (Exp.cont pt fb e).contNames s)
    (hkids : ∀ p ∈ ctxKids c (.cont pt fb e), ∀ s, Ready isCont p.2.contNames s → Sound cnt (IsJoin (analExp isCont cnt p.1 p.2 s)) p.2)
    : ∀ p ∈ ctxKids c (.cont pt fb e), Sound cnt (IsJoin (analExp isCont cnt c (.cont pt fb e) s)) p.2 := by
  obtain ⟨hfnot, hready₁, hready₂⟩ := ready_cont hk hs
  have hready₃ := (@Ready.of_outer isCont _ [] _ _ (by rwa [append_nil]) (fun x => checkRec_noNewJoin x fb.f _)
    (checkRec_outer fb.f _)).1
  have hapart : Apart (fb.f, fb.body) (c, e) :=
    (List.pairwise_cons.1 (show ([(fb.f, fb.body), (c, e)] : List (Var × Exp)).Pairwise Apart from hk.apart)).1 (c, e)
      (mem_singleton_self _)
  intro p hp
  rcases mem_cons.1 hp with rfl | hp
  · refine (hkids _ mem_cons_self _ hready₁).congr fun x hx => ?_
    have hxf : x ≠ fb.f := fun h => hfnot.1 (h ▸ hx)
    have hkeep := @analExp_keeps isCont cnt x e c
      (checkRec fb.f (analExp isCont cnt fb.f fb.body (initCont cnt c fb.f s))) (hapart x hx).1 (hapart x hx).2
    rw [analExp_cont, kind_checkJoin_of_ne hxf, hkeep.kind, (checkRec_keeps hxf _).kind]
  · rw [mem_singleton.1 hp]
    refine (hkids (c, e) (by simp [ctxKids]) _ hready₃).congr fun x hx => ?_
    have hxf : x ≠ fb.f := fun h => hfnot.2 (h ▸ hx)
    rw [analExp_cont, kind_checkJoin_of_ne hxf]

theorem analExp_sound (e : Exp) : ∀ c Γ s, Known isCont cnt Γ c e → Ready isCont e.contNames s →
    Sound cnt (IsJoin (analExp isCont cnt c e s)) e := by
  induction e using Exp.induct with
  | h e ih =>
    intro c Γ s hk hs
    have hkids : ∀ p ∈ ctxKids c e, ∀ s, Ready isCont p.2.contNames s →
        Sound cnt (IsJoin (analExp isCont cnt p.1 p.2 s)) p.2 := by
      intro p hp s hs
      obtain ⟨Γ', hk'⟩ := hk.kid hp
      exact ih p.2 (mem_kids_of_ctxKids hp) p.1 Γ' s hk' hs
    have hconts : ∀ p ∈ ctxKids c e, ∀ x ∈ p.2.contNames, isCont x = true := by
      intro p hp
      obtain ⟨Γ', hk'⟩ := hk.kid hp
      exact hk'.conts
    have hbelow : ∀ {σ : Props}, (∀ p ∈ ctxKids c e, Sound cnt (IsJoin σ) p.2) →
        ∀ pt fb e', .cont pt fb e' ∈ e.kids.flatMap Exp.subs → IsJoin σ fb.f → JoinAt cnt (IsJoin σ) fb e' := by
      intro σ h pt fb e' he'
      obtain ⟨e'', he'', hmem⟩ := mem_flatMap.1 he'
      rw [← map_ctxKids c e] at he''
      obtain ⟨p, hp, rfl⟩ := mem_map.1 he''
      exact h p hp pt fb e' hmem
    by_cases hcont : e.contHere = []
    · have hs' : Ready isCont ((ctxKids c e).flatMap fun p => p.2.contNames) (analHere isCont c e s) := by
        rw [flatMap_ctxKids]
        rw [contNames_eq, hcont, List.nil_append] at hs
        have hs₀ : Ready isCont (e.kids.flatMap Exp.contNames ++ []) s := by rwa [append_nil]
        exact (hs₀.of_outer (fun x => analHere_noNewJoin x c e s) (analHere_outer c e s)).1
      rw [analExp_eq hcont]
      intro pt fb e' he' hf
      rw [subs_eq] at he'
      rcases mem_cons.1 he' with rfl | he'
      · cases hcont
      · exact hbelow (foldl_sound hk.apart hconts hkids _ hs') pt fb e' he' hf
    · cases e with
      | cont pt₀ fb₀ e₀ =>
        intro pt fb e' he' hf
        rw [subs_eq] at he'
        rcases mem_cons.1 he' with heq | he'
        · cases heq
          exact joinAt_of_join hk hs hf
        · exact hbelow (cont_kids_sound hk hs hkids) pt fb e' he' hf
      | _ => exact absurd rfl hcont

end

/-! ## Modules -/

/-- A variable is bound at one place only. -/
theorem unique_binder {e e₁ e₂ : Exp} (h : e.binders.Nodup) (h₁ : e₁ ∈ e.subs) (h₂ : e₂ ∈ e.subs) {x : Var}
    (hx₁ : x ∈ e₁.bindsHere) (hx₂ : x ∈ e₂.bindsHere) : e₁ = e₂ := by
  by_contra hne
  have hpair := (nodup_flatMap.1 h).2
  have hsymm : Std.Symm (Function.onFun List.Disjoint Exp.bindsHere) := ⟨fun _ _ h _ hx hx' => h hx' hx⟩
  exact hpair.forall h₁ h₂ hne hx₁ hx₂

theorem nodup_contNames {e : Exp} (h : e.binders.Nodup) : e.contNames.Nodup := by
  obtain ⟨h₁, h₂⟩ := nodup_flatMap.1 h
  have hsub : ∀ {e : Exp} {x : Var}, x ∈ e.contHere → x ∈ e.bindsHere := by
    intro e x hx
    cases e with
    | cont pt fb e =>
      rw [mem_singleton.1 hx]
      exact mem_cons_self
    | _ => cases hx
  refine nodup_flatMap.2 ⟨fun e' _ => ?_, h₂.imp fun hd x hx hx' => hd (hsub hx) (hsub hx')⟩
  cases e' <;> simp [contHere]

theorem contNames_ne_fun {e : Exp} (h : e.binders.Nodup) {pt : Ppt} {fbs : List Lambda} {e' : Exp}
    (he' : .fun_ pt fbs e' ∈ e.subs) {fb : Lambda} (hfb : fb ∈ fbs) : fb.f ∉ e.contNames := by
  intro hc
  obtain ⟨e'', he'', hx⟩ := mem_flatMap.1 hc
  have hfun : fb.f ∈ (Exp.fun_ pt fbs e').bindsHere := mem_flatMap.2 ⟨fb, hfb, mem_cons_self⟩
  cases e'' with
  | cont pt' fb' e'' =>
    have hcont : fb.f ∈ (Exp.cont pt' fb' e'').bindsHere := by
      rw [mem_singleton.1 hx]
      exact mem_cons_self
    cases unique_binder h he' he'' hfun hcont
  | _ => cases hx

section Modules

variable {cnt : Counts} {m : Module}

theorem nodup_body (h : m.WellFormed) : m.body.body.binders.Nodup :=
  (nodup_append.1 (nodup_append.1 h.unique).2.1).2.1

/-- The body of a well-formed module. -/
theorem known_body (hwf : m.WellFormed) (hcnt : cnt.Accurate m) :
    Known (fun x => m.contNames.contains x) cnt (m.body.params ++ (m.body.rets ++ (m.body.f :: m.externs))) m.body.f
      m.body.body := by
  have hn := nodup_body hwf
  have hu := hwf.unique
  unfold Module.binders at hu
  rw [nodup_append, nodup_append] at hu
  have hisCont : (fun x => (m.contNames.contains x) = true) = fun x => x ∈ m.contNames := by
    funext x
    simp
  have hfresh : ∀ x ∈ m.body.body.binders, x ∉ m.externs ∧ x ∉ m.body.bindsHere := by
    grind
  refine ⟨⟨?_, hn, fun x hx h => ?_⟩, fun h => ?_, fun x hx => ?_, fun pt fbs e he fb hfb => ?_, fun k _ hc hk => ?_⟩
  · rw [hisCont]
    exact Lambda.scoped_iff.1 hwf.inScope
  · obtain ⟨h₁, h₂⟩ := hfresh x hx
    unfold Lambda.bindsHere at h₂
    grind
  · exact (hfresh _ h).2 mem_cons_self
  · exact List.contains_iff_mem.2 hx
  · have hne : fb.f ∉ m.contNames := contNames_ne_fun hn he hfb
    simpa using hne
  · rw [hcnt.use, hcnt.app] at hc
    grind

theorem analyze_eq : analyze cnt m =
    analExp (fun x => m.contNames.contains x) cnt m.body.f m.body.body Props.init := by
  unfold analyze
  cases m.body
  rfl

theorem ready_init (hwf : m.WellFormed) : Ready (fun x => m.contNames.contains x) m.body.body.contNames Props.init := by
  refine ⟨fun x hx => ?_, ?_⟩
  · cases hx
  show (m.body.body.contNames ++ []).Nodup
  rw [append_nil]
  exact nodup_contNames (nodup_body hwf)

theorem isJoinCont_iff {x : Var} :
    isJoinCont true cnt m x = true ↔ IsJoin (analyze cnt m) x := by
  unfold isJoinCont kindOfCont IsJoin
  by_cases hc : m.contNames.contains x = true
  · rw [if_pos hc]
    simp
  · have hnot : ¬ IsJoin (analyze cnt m) x := by
      intro h
      rw [analyze_eq, isJoin_iff] at h
      have h' := analExp_noNewJoin m.body.body m.body.f Props.init (fun h' => hc (List.contains_iff_mem.2 h')) h
      cases h'
    unfold IsJoin at hnot
    rw [if_neg hc]
    by_cases hp : m.paramNames.contains x = true
    · rw [if_pos hp]
      simp [hnot]
    · rw [if_neg hp]
      simp [hnot]

/-- A join point is not recursive, and its uses are throws in the activation that binds it. -/
theorem join_sound (hwf : m.WellFormed) (hcnt : cnt.Accurate m) {enableFlg : Bool} {pt : Ppt} {fb : Lambda} {e : Exp}
    (he : .cont pt fb e ∈ m.body.body.subs) (hj : isJoinCont enableFlg cnt m fb.f = true) :
    fb.f ∉ fb.body.uses ∧ fb.f ∉ m.body.body.args ∧ ThrowsOnly (fun x => isJoinCont enableFlg cnt m x = true) fb.f e := by
  have hflg : enableFlg = true := (Bool.and_eq_true_iff.1 hj).1
  subst hflg
  have hsound := analExp_sound m.body.body m.body.f _ Props.init (known_body hwf hcnt) (ready_init hwf)
  rw [← analyze_eq] at hsound
  obtain ⟨hc, hrec, hthrows⟩ := hsound pt fb e he (isJoinCont_iff.1 hj)
  refine ⟨hrec, fun ha => ?_, hthrows.congr fun x _ hx => isJoinCont_iff.2 hx⟩
  rw [hcnt.use, hcnt.app] at hc
  exact List.count_eq_zero.1 (show m.body.body.args.count fb.f = 0 by omega) ha

end Modules

end Manticore.CpsOpt.ClassifyConts
