/-
  Manticore.Typechecker.UnifyProofs — what unification answers.

  From every acyclic state `uni` returns, and its outcome is described by the valuations
  that the states allow (`Outcome`): on success the new state allows only valuations of
  the old one, every one that gives the two types the same value among them, and under
  these the two types agree; on failure no valuation of the old state gives them the same
  value, unless an unconstrained variable takes an equality type.

  Two exceptions stand in `Agree`: an error type agrees with every type, and two distinct
  variables of the class `Eq` may be left apart (the last branch of `unifyMV` answers true
  and assigns nothing).
-/

import Manticore.Typechecker.Solutions

namespace Manticore.Typechecker

open Fuel
open Finset (mem_filter mem_coe mem_insert mem_union)
open Ty (metas substL_eq parts)
open Store (assign_self assign_of_ne)

/-! ## Classes -/

section
variable {q : TyCon → Bool} {V : Valuation}

variable {c : TyClass} {t : Ty}

attribute [local simp] TyClass.le InClass

theorem inClass_con (hc : c ≠ .eq) {args : List Ty} {tyc : TyCon} :
    InClass q V c (.conTy args tyc) ↔ isClass (.conTy args tyc) c.members = true := by
  cases c <;> simp_all [InClass, isClass]

theorem isClass_iff (hc : c ≠ .eq) (ht : ∀ m, t ≠ .metaTy m) :
    InClass q V c (t.subst V.ty) ↔ isClass t c.members = true := by
  cases t with
  | metaTy m => exact absurd rfl (ht m)
  | conTy args tyc => exact inClass_con hc
  | _ => cases c <;> simp_all [InClass, isClass, Ty.subst]

theorem TyClass.le_trans {a b : TyClass} (h : a.le b = true) (h' : b.le c = true) : a.le c = true := by
  cases a <;> cases b <;> cases c <;> revert h h' <;> decide

theorem TyClass.members_mono {c' : TyClass} (h : c.le c' = true) (hc : c' ≠ .eq) :
    ∀ tyc ∈ c.members, tyc ∈ c'.members := by
  cases c <;> cases c' <;> revert h hc <;> decide

theorem TyClass.members_order (c : TyClass) : ∀ tyc ∈ c.members, tyc ∈ orderClass := by
  cases c <;> decide

theorem InClass.isEq (hq : ∀ tyc ∈ orderClass, q tyc = true) (h : InClass q V c t) : IsEq q V t := by
  by_cases hc : c = .eq
  · subst hc
    exact h
  · cases t with
    | conTy args tyc => exact hq tyc (c.members_order tyc (by cases c <;> simp_all [InClass]))
    | metaTy m =>
      grind [InClass, IsEq]
    | _ => cases c <;> simp_all [InClass]

theorem InClass.mono {c' : TyClass} (hq : ∀ tyc ∈ orderClass, q tyc = true) (hle : c.le c' = true)
    (h : InClass q V c t) : InClass q V c' t := by
  by_cases hc : c' = .eq
  · subst hc
    exact h.isEq hq
  have hc1 : c ≠ .eq := by
    rintro rfl
    cases c' <;> simp_all [TyClass.le]
  have hmem := TyClass.members_mono hle hc
  cases t with
  | conTy args tyc => cases c <;> cases c' <;> simp_all [InClass]
  | metaTy m =>
    grind [InClass, TyClass.le_trans]
  | _ => cases c <;> simp_all [InClass]

/-- No type is both in `Int` and in `Float`. -/
theorem InClass.int_float (h : InClass q V .int t) (h' : InClass q V .float t) : False := by
  cases t with
  | conTy args tyc =>
    have hdis : ∀ tyc ∈ intClass, tyc ∉ floatClass := by decide
    exact hdis tyc h h'
  | metaTy m =>
    obtain ⟨c, hc, hle⟩ := h
    obtain ⟨c', hc', hle'⟩ := h'
    rw [hc] at hc'
    cases hc'
    cases c <;> simp_all [TyClass.le]
  | _ => exact h

end

/-! ## Equality types -/

variable {s : Store} {S : Set Meta} {m : Meta} {t : Ty} {V : Valuation} {r : Meta → Nat} {u : Ty} {s' : Store}
  {t1 t2 : Ty}

theorem Occurs.mem (hS : Closed s S) (h : Occurs s m t) (ht : t.Within S) : m ∈ S := by
  induction h with
  | here => exact ht m (by simp [metas])
  | inst h _ ih => exact ih fun x hx => hS _ (ht _ (by simp [metas])) _ h x hx
  | part hu _ ih => exact ih (ht.parts hu)

/-- A type that passed the test is an equality type under every valuation that is right
    about its variables. -/
theorem EqTy.isEq (h : EqTy s t) (hV : ∀ m', m' ≠ m → Sat s V m') (hm : ∀ t', s.info m ≠ .inst t')
    (ho : ¬ Occurs s m t) : IsEq s.isEqTyc V (t.subst V.ty) := by
  induction h with
  | error => trivial
  | @inst m' t' h _ ih =>
    have hne : m' ≠ m := fun he => hm _ (he ▸ h)
    have hs := hV m' hne
    simp only [Sat, h] at hs
    rw [Ty.subst, hs]
    exact ih fun ho' => ho (.inst h ho')
  | @cls m' c h =>
    have hne : m' ≠ m := by
      rintro rfl
      exact ho (.here hm)
    have hs := hV m' hne
    simp only [Sat, h] at hs
    exact hs.isEq s.basis_eq
  | con h => exact h
  | tuple h ih =>
    simp only [Ty.subst, substL_eq, IsEq, areEq_iff, List.mem_map, forall_exists_index, and_imp]
    rintro _ t' ht rfl
    exact ih t' ht fun ho' => ho (.part (by exact ht) ho')

/-- A type that failed the test has an unconstrained variable in the way. -/
theorem exists_univ_of_not_eqTy (hr : Ranked s r) (hV : Solves s V) (t : Ty) (h : ¬ EqTy s t)
    (he : IsEq s.isEqTyc V (t.subst V.ty)) :
    ∃ u d, Occurs s u t ∧ s.info u = .univ d ∧ IsEq s.isEqTyc V (V.ty u) := by
  induction t using Smaller.ind (r := r) with
  | h t ih =>
    cases t with
    | errorTy => exact absurd .error h
    | varTy => exact he.elim
    | funTy => exact he.elim
    | conTy args tyc => exact absurd (.con he) h
    | tupleTy tys =>
      obtain ⟨t, ht, hn⟩ : ∃ t ∈ tys, ¬ EqTy s t := by
        by_contra hc
        simp only [not_exists, not_and, not_not] at hc
        exact h (.tuple hc)
      simp only [Ty.subst, substL_eq, IsEq, areEq_iff, List.mem_map, forall_exists_index, and_imp] at he
      obtain ⟨u, d, ho, hu, hue⟩ := ih t (.parts ht) hn (he _ t ht rfl)
      exact ⟨u, d, .part (by exact ht) ho, hu, hue⟩
    | metaTy m =>
      cases hi : s.info m with
      | univ d => exact ⟨m, d, .here (by simp [hi]), hi, he⟩
      | cls c => exact absurd (.cls hi) h
      | inst ty =>
        rw [Ty.subst, hV.inst hi] at he
        obtain ⟨u, d, ho, hu, hue⟩ := ih ty (.inst hr hi) (fun h' => h (.inst hi h')) he
        exact ⟨u, d, .inst hi ho, hu, hue⟩

/-! ## The occurs check -/

theorem Ty.subst_parts (f : Meta → Ty) (h : u ∈ t.parts) : u.subst f ∈ (t.subst f).parts := by
  cases t with
  | conTy args _ | tupleTy args =>
    rw [Ty.subst, substL_eq]
    exact List.mem_map_of_mem (show u ∈ args from h)
  | funTy t1 t2 => rcases List.mem_pair.1 h with rfl | rfl <;> simp [Ty.subst, parts]
  | _ => cases h

/-- The value of a variable inside a type is smaller than the type's. -/
theorem Occurs.size_le (hV : Solves s V) (h : Occurs s m t) : sizeOf (V.ty m) ≤ sizeOf (t.subst V.ty) := by
  induction h with
  | here => exact Nat.le_refl _
  | inst h _ ih =>
    rw [Ty.subst, hV.inst h]
    exact ih
  | @part t u hu _ ih =>
    have := Ty.sizeOf_parts (Ty.subst_parts V.ty hu)
    omega

theorem Occurs.ne (hV : Solves s V) (ht : ∀ m', t ≠ .metaTy m') (h : Occurs s m t) : V.ty m ≠ t.subst V.ty := by
  obtain ⟨u, hu, ho⟩ := (occurs_parts ht).1 h
  have hle := ho.size_le hV
  have := Ty.sizeOf_parts (Ty.subst_parts V.ty hu)
  intro he
  rw [← he] at this
  omega

/-! ## Outcomes -/

/-- What unification does to a state whose variables of interest are `S`. -/
structure Advance (S : Set Meta) (s s' : Store) : Prop where
  isEqTyc : s'.isEqTyc = s.isEqTyc
  kind : ∀ m, (s'.info m).kind = (s.info m).kind ∨ (s'.info m).kind = none
  /-- Either nothing was bound, or a variable of `S` was. -/
  progress : ((∀ m, (s'.info m).kind = (s.info m).kind) ∧ ∀ r, Ranked s r → Ranked s' r) ∨
    (∃ m ∈ S, (s.info m).kind ≠ none ∧ (s'.info m).kind = none) ∧ Acyclic s'
  closed : Closed s S → Closed s' S
  solves : ∀ V, Solves s' V → Solves s V

theorem Compress.advance (h : Compress s s') (S : Set Meta) : Advance S s s' :=
  ⟨h.isEqTyc, fun m => .inl (h.kind m), .inl ⟨h.kind, h.ranked⟩, h.closed S, fun V => (h.solves V).1⟩

theorem Advance.trans  {t u : Store} (h : Advance S s t) (h' : Advance S t u) : Advance S s u where
  isEqTyc := h'.isEqTyc.trans h.isEqTyc
  kind m := by
    rcases h'.kind m with e | e
    · rw [e]
      exact h.kind m
    · exact .inr e
  progress := by
    rcases h.progress with ⟨hk, hr⟩ | ⟨⟨m, hm, hs, ht⟩, r, hr⟩
    · rcases h'.progress with ⟨hk', hr'⟩ | ⟨⟨m, hm, ht, hu⟩, ha⟩
      · exact .inl ⟨fun m => (hk' m).trans (hk m), fun r hs => hr' r (hr r hs)⟩
      · exact .inr ⟨⟨m, hm, hk m ▸ ht, hu⟩, ha⟩
    · refine .inr ⟨⟨m, hm, hs, ?_⟩, ?_⟩
      · rcases h'.kind m with e | e
        · rw [e, ht]
        · exact e
      · rcases h'.progress with ⟨-, hr'⟩ | ⟨-, ha⟩
        · exact ⟨r, hr' r hr⟩
        · exact ha
  closed hS := h'.closed (h.closed hS)
  solves V hV := h.solves V (h'.solves V hV)

theorem Advance.acyclic (h : Advance S s s') (ha : Acyclic s) : Acyclic s' := by
  obtain ⟨r, hr⟩ := ha
  rcases h.progress with ⟨-, hr'⟩ | ⟨-, ha⟩
  · exact ⟨r, hr' r hr⟩
  · exact ha

/-- A cell that holds a variable holds the same kind of variable before. -/
theorem Advance.kind_some (h : Advance S s s') {k : Option TyClass} (hm : (s'.info m).kind = some k) :
    (s.info m).kind = some k := by
  rcases h.kind m with e | e
  · rw [← e, hm]
  · rw [e] at hm
    cases hm

/-- Two values agree: they are equal, up to error types and up to the values of variables
    of `S` that both have the class `Eq` in `s`. -/
inductive Agree (S : Set Meta) (s : Store) (V : Valuation) : Ty → Ty → Prop
  | refl (t : Ty) : Agree S s V t t
  | errorLeft (t : Ty) : Agree S s V .errorTy t
  | errorRight (t : Ty) : Agree S s V t .errorTy
  | eqVars {m1 m2 : Meta} : m1 ∈ S → m2 ∈ S → (s.info m1).kind = some (some .eq) → (s.info m2).kind = some (some .eq) →
      Agree S s V (V.ty m1) (V.ty m2)
  | con {tys1 tys2 : List Ty} (tyc : TyCon) : tys1.length = tys2.length →
      (∀ p ∈ tys1.zip tys2, Agree S s V p.1 p.2) → Agree S s V (.conTy tys1 tyc) (.conTy tys2 tyc)
  | fun_ {t1 t2 u1 u2 : Ty} : Agree S s V t1 u1 → Agree S s V t2 u2 → Agree S s V (.funTy t1 t2) (.funTy u1 u2)
  | tuple {tys1 tys2 : List Ty} : tys1.length = tys2.length →
      (∀ p ∈ tys1.zip tys2, Agree S s V p.1 p.2) → Agree S s V (.tupleTy tys1) (.tupleTy tys2)

theorem Agree.symm (h : Agree S s V t u) : Agree S s V u t := by
  have hswap : ∀ {as bs : List Ty} {p : Ty × Ty}, p ∈ bs.zip as → (p.2, p.1) ∈ as.zip bs := by
    intro as bs p hp
    rw [← List.zip_swap]
    exact List.mem_map_of_mem (f := Prod.swap) hp
  induction h with
  | refl t => exact .refl t
  | errorLeft t => exact .errorRight t
  | errorRight t => exact .errorLeft t
  | eqVars hS1 hS2 h1 h2 => exact .eqVars hS2 hS1 h2 h1
  | con tyc hl _ ih => exact .con tyc hl.symm fun p hp => ih _ (hswap hp)
  | fun_ _ _ ih1 ih2 => exact .fun_ ih1 ih2
  | tuple hl _ ih => exact .tuple hl.symm fun p hp => ih _ (hswap hp)

theorem Agree.mono {S' : Set Meta} (h : Agree S' s' V t u)
    (hk : ∀ m ∈ S', ∀ k, (s'.info m).kind = some k → m ∈ S ∧ (s.info m).kind = some k) : Agree S s V t u := by
  induction h with
  | refl t => exact .refl t
  | errorLeft t => exact .errorLeft t
  | errorRight t => exact .errorRight t
  | eqVars hS1 hS2 h1 h2 => exact .eqVars (hk _ hS1 _ h1).1 (hk _ hS2 _ h2).1 (hk _ hS1 _ h1).2 (hk _ hS2 _ h2).2
  | con tyc hl _ ih => exact .con tyc hl ih
  | fun_ _ _ ih1 ih2 => exact .fun_ ih1 ih2
  | tuple hl _ ih => exact .tuple hl ih

/-- The one way in which a valuation may give both types the same value although
    unification fails: an unconstrained variable takes an equality type while some variable
    has the class `Eq`. -/
def Blocked (S : Set Meta) (s : Store) (V : Valuation) : Prop :=
  (∃ m ∈ S, (s.info m).kind = some (some .eq)) ∧
    ∃ u ∈ S, (s.info u).kind = some none ∧ IsEq s.isEqTyc V (V.ty u)

theorem Blocked.mono (h : Blocked S s' V) (ha : Advance S s s') : Blocked S s V := by
  obtain ⟨⟨m, hm, hk⟩, u, hu, hk', he⟩ := h
  exact ⟨⟨m, hm, ha.kind_some hk⟩, u, hu, ha.kind_some hk', ha.isEqTyc ▸ he⟩

/-- The outcome of unifying two types. -/
structure Outcome (S : Set Meta) (s : Store) (t1 t2 : Ty) (s' : Store) (b : Bool) : Prop where
  advance : Advance S s s'
  sound : b = true → ∀ V, Solves s' V → Agree S s V (t1.subst V.ty) (t2.subst V.ty)
  complete : b = true → ∀ V, Solves s V → t1.subst V.ty = t2.subst V.ty → Solves s' V
  fails : b = false → ∀ V, Solves s V → t1.subst V.ty = t2.subst V.ty → Blocked S s V

theorem Outcome.symm    {b : Bool} (h : Outcome S s t1 t2 s' b) :
    Outcome S s t2 t1 s' b where
  advance := h.advance
  sound hb V hV := (h.sound hb V hV).symm
  complete hb V hV he := h.complete hb V hV he.symm
  fails hb V hV he := h.fails hb V hV he.symm

/-- Compression first, on types of the same value. -/
theorem Outcome.after  {s1 : Store} {u1 u2 : Ty} {b : Bool} (hc : Compress s s1)
    (h1 : ∀ V, Solves s1 V → t1.subst V.ty = u1.subst V.ty) (h2 : ∀ V, Solves s1 V → t2.subst V.ty = u2.subst V.ty)
    (h : Outcome S s1 u1 u2 s' b) : Outcome S s t1 t2 s' b where
  advance := (hc.advance S).trans h.advance
  sound hb V hV := by
    have hV1 := h.advance.solves V hV
    rw [h1 V hV1, h2 V hV1]
    exact (h.sound hb V hV).mono fun m hm _ hk => ⟨hm, (hc.advance S).kind_some hk⟩
  complete hb V hV he := by
    have hV1 := (hc.solves V).2 hV
    exact h.complete hb V hV1 (by rw [← h1 V hV1, ← h2 V hV1, he])
  fails hb V hV he := by
    have hV1 := (hc.solves V).2 hV
    exact (h.fails hb V hV1 (by rw [← h1 V hV1, ← h2 V hV1, he])).mono (hc.advance S)

/-- Nothing to do. -/
theorem Outcome.true_of_agree
    (h : ∀ V, Solves s V → Agree S s V (t1.subst V.ty) (t2.subst V.ty)) : Outcome S s t1 t2 s true where
  advance := (Compress.refl s).advance S
  sound _ := h
  complete _ _ hV _ := hV
  fails hb := nomatch hb

theorem Outcome.false_of_ne
    (h : ∀ V, Solves s V → t1.subst V.ty = t2.subst V.ty → Blocked S s V) : Outcome S s t1 t2 s false where
  advance := (Compress.refl s).advance S
  sound hb := nomatch hb
  complete hb := nomatch hb
  fails _ := h

/-! ## Binding a variable -/

theorem occurs_of_mem_metas {m' : Meta} (hm : m' ∈ t.metas) (h : Occurs s m (.metaTy m')) : Occurs s m t := by
  induction t using Ty.ind with
  | metaTy x =>
    rw [metas, List.mem_singleton] at hm
    exact hm ▸ h
  | conTy args _ ih =>
    simp only [metas, Ty.mem_metasL] at hm
    obtain ⟨t, ht, hm⟩ := hm
    exact .part (show t ∈ (Ty.conTy args _).parts from ht) (ih t ht hm)
  | tupleTy tys ih =>
    simp only [metas, Ty.mem_metasL] at hm
    obtain ⟨t, ht, hm⟩ := hm
    exact .part (show t ∈ (Ty.tupleTy tys).parts from ht) (ih t ht hm)
  | funTy t1 t2 ih1 ih2 =>
    rw [metas, List.mem_append] at hm
    rcases hm with hm | hm
    · exact .part (by simp [parts]) (ih1 hm)
    · exact .part (by simp [parts]) (ih2 hm)
  | errorTy | varTy => simp [metas] at hm

/-- A variable bound to a type that it does not occur in makes no cycle: everything that
    leads to it moves up. -/
theorem acyclic_assign (ha : Acyclic s) (hm : ∀ u, s.info m ≠ .inst u) (ho : ¬ Occurs s m t) :
    Acyclic (s.assign m (.inst t)) := by
  classical
  obtain ⟨r, hr⟩ := ha
  refine ⟨fun x => if Occurs s m (.metaTy x) then r x + t.height r + 1 else r x, fun x u hx y hy => ?_⟩
  show (if Occurs s m (.metaTy y) then r y + t.height r + 1 else r y) <
    if Occurs s m (.metaTy x) then r x + t.height r + 1 else r x
  by_cases he : x = m
  · subst he
    rw [assign_self] at hx
    cases hx
    rw [if_neg fun h => ho (occurs_of_mem_metas hy h), if_pos (.here hm)]
    have := Ty.height_le_iff.1 (Nat.le_refl (t.height r)) y hy
    omega
  · rw [assign_of_ne _ he] at hx
    have hlt := hr x u hx y hy
    by_cases hy' : Occurs s m (.metaTy y)
    · rw [if_pos hy', if_pos (.inst hx (occurs_of_mem_metas hy hy'))]
      omega
    · rw [if_neg hy']
      split <;> omega

theorem outcome_bind (ha : Acyclic s) (hS : m ∈ S) (ht : t.Within S) (hm : ∀ u, s.info m ≠ .inst u)
    (ho : ¬ Occurs s m t)
    (hcls : ∀ c, s.info m = .cls c → ∀ V : Valuation, (∀ m', m' ≠ m → Sat s V m') → InClass s.isEqTyc V c (t.subst V.ty))
    : Outcome S s (.metaTy m) t (s.assign m (.inst t)) true := by
  have hother : ∀ V m', m' ≠ m → (Sat (s.assign m (.inst t)) V m' ↔ Sat s V m') := by
    intro V m' hne
    rw [Sat, Sat, assign_of_ne _ hne]
    rfl
  have hsolves : ∀ V, Solves (s.assign m (.inst t)) V → Solves s V := by
    intro V hV m'
    by_cases he : m' = m
    · subst he
      cases hi : s.info m' with
      | univ d => simp [Sat, hi]
      | inst u => exact absurd hi (hm u)
      | cls c =>
        simp only [Sat, hi]
        rw [hV.inst (assign_self _ _ _)]
        exact hcls c hi V fun x hx => (hother V x hx).1 (hV x)
    · exact (hother V m' he).1 (hV m')
  constructor
  · refine ⟨rfl, fun m' => ?_, .inr ⟨⟨m, hS, not_inst_iff.1 hm, by simp [MetaInfo.kind]⟩, acyclic_assign ha hm ho⟩,
      fun hcl m' hm' u hu x hx => ?_, hsolves⟩
    · by_cases he : m' = m
      · subst he
        exact .inr (by simp [MetaInfo.kind])
      · exact .inl (by rw [assign_of_ne _ he])
    · by_cases he : m' = m
      · subst he
        rw [assign_self] at hu
        cases hu
        exact ht x hx
      · rw [assign_of_ne _ he] at hu
        exact hcl m' hm' u hu x hx
  · intro _ V hV
    rw [Ty.subst, hV.inst (assign_self _ _ _)]
    exact .refl _
  · intro _ V hV he m'
    by_cases hne : m' = m
    · subst hne
      simp only [Sat, assign_self]
      exact he
    · exact (hother V m' hne).2 (hV m')
  · exact by rintro ⟨⟩

/-! ## Two variables -/

/-- Whatever `m'` may stand for, `m` may. -/
def Wider (s : Store) (m m' : Meta) : Prop := ∀ c, s.info m = .cls c → ∃ c', s.info m' = .cls c' ∧ c'.le c = true

theorem outcome_bind_meta (ha : Acyclic s) {m' : Meta} (hS : m ∈ S) (hS' : m' ∈ S) (hm : ∀ u, s.info m ≠ .inst u)
    (hm' : ∀ u, s.info m' ≠ .inst u) (hne : m ≠ m') (hw : Wider s m m') :
    Outcome S s (.metaTy m) (.metaTy m') (s.assign m (.inst (.metaTy m'))) true := by
  refine outcome_bind ha hS ?_ hm (fun ho => hne ((occurs_meta hm').1 ho)) fun c hc V hV => ?_
  · intro x hx
    rw [metas, List.mem_singleton] at hx
    exact hx ▸ hS'
  · obtain ⟨c', hc', hle⟩ := hw c hc
    have hs := hV m' (Ne.symm hne)
    simp only [Sat, hc'] at hs
    exact hs.mono s.basis_eq hle

/-- The four things that `unifyMV` can do. -/
theorem unifyMV_cases (rc : Bool) {s : St} {m1 m2 : Meta} (h1 : ∀ u, s.store.info m1 ≠ .inst u)
    (h2 : ∀ u, s.store.info m2 ≠ .inst u) :
    unifyMV rc s m1 m2 = .ok (assignMV rc s m1 (.inst (.metaTy m2)), true) ∧ Wider s.store m1 m2 ∨
    unifyMV rc s m1 m2 = .ok (assignMV rc s m2 (.inst (.metaTy m1)), true) ∧ Wider s.store m2 m1 ∨
    unifyMV rc s m1 m2 = .ok (s, false) ∧
      (s.store.info m1 = .cls .int ∧ s.store.info m2 = .cls .float ∨
        s.store.info m1 = .cls .float ∧ s.store.info m2 = .cls .int) ∨
    unifyMV rc s m1 m2 = .ok (s, true) ∧ s.store.info m1 = .cls .eq ∧ s.store.info m2 = .cls .eq := by
  cases hi1 : s.store.info m1 with
  | inst u => exact absurd hi1 (h1 u)
  | univ d1 =>
    grind [unifyMV, Wider]
  | cls c1 =>
    cases hi2 : s.store.info m2 with
    | inst u => exact absurd hi2 (h2 u)
    | univ d2 =>
      right; left
      simp [unifyMV, hi1, hi2, Wider]
    | cls c2 => cases c1 <;> cases c2 <;> simp [unifyMV, hi1, hi2, Wider, TyClass.le]

theorem unifyMV_outcome (rc : Bool) {s : St} (ha : Acyclic s.store) {m1 m2 : Meta} (hS1 : m1 ∈ S) (hS2 : m2 ∈ S)
    (h1 : ∀ u, s.store.info m1 ≠ .inst u) (h2 : ∀ u, s.store.info m2 ≠ .inst u) (hne : m1 ≠ m2) :
    ∃ s' b, unifyMV rc s m1 m2 = .ok (s', b) ∧ Outcome S s.store (.metaTy m1) (.metaTy m2) s'.store b := by
  rcases unifyMV_cases rc h1 h2 with ⟨h, hw⟩ | ⟨h, hw⟩ | ⟨h, hc⟩ | ⟨h, hc1, hc2⟩
  · exact ⟨_, _, h, outcome_bind_meta ha hS1 hS2 h1 h2 hne hw⟩
  · exact ⟨_, _, h, (outcome_bind_meta ha hS2 hS1 h2 h1 (Ne.symm hne) hw).symm⟩
  · refine ⟨_, _, h, .false_of_ne fun V hV he => ?_⟩
    simp only [Ty.subst] at he
    have hs1 := hV m1
    have hs2 := hV m2
    rcases hc with ⟨hc1, hc2⟩ | ⟨hc1, hc2⟩
    · simp only [Sat, hc1] at hs1
      simp only [Sat, hc2, ← he] at hs2
      exact (hs1.int_float hs2).elim
    · simp only [Sat, hc1] at hs1
      simp only [Sat, hc2, ← he] at hs2
      exact (hs2.int_float hs1).elim
  · exact ⟨_, _, h, .true_of_agree fun V _ => .eqVars hS1 hS2 (by rw [hc1]; rfl) (by rw [hc2]; rfl)⟩

/-! ## A variable and a type -/

theorem unifyWithMV_outcome (rc : Bool) {s : St} (ha : Acyclic s.store) (hS : m ∈ S) (hcl : Closed s.store S)
    (htS : t.Within S) (hm : ∀ u, s.store.info m ≠ .inst u) (ht : ∀ m', t ≠ .metaTy m') :
    ∃ s' b, Returns (fun n => unifyWithMV rc n s t m) (s', b) ∧ Outcome S s.store (.metaTy m) t s'.store b := by
  obtain ⟨r, hr⟩ := ha
  obtain ⟨s1, b, hret, hc, hb⟩ := occursIn_returns hr (m := m) t
  have hr1 := hc.ranked r hr
  have hm1 : ∀ u, s1.info m ≠ .inst u := hc.not_inst.2 hm
  have hocc : ∀ V, Solves s1 V → b = true → (Ty.metaTy m).subst V.ty ≠ t.subst V.ty := fun V hV hb' =>
    ((hc.occurs m t).2 (hb.1 hb')).ne hV ht
  -- assigning the variable in a state that a compression of the first one leads to
  have hbind : ∀ s2, Compress s.store s2 → b = false →
      (∀ c, s2.info m = .cls c → ∀ V : Valuation, (∀ m', m' ≠ m → Sat s2 V m') → InClass s2.isEqTyc V c (t.subst V.ty)) →
      Outcome S s.store (.metaTy m) t (s2.assign m (.inst t)) true := by
    intro s2 hc2 hb' hcls
    have hno : ¬ Occurs s2 m t := fun ho => by
      have := hb.2 ((hc2.occurs m t).1 ho)
      rw [hb'] at this
      cases this
    exact Outcome.after hc2 (fun _ _ => rfl) (fun _ _ => rfl)
      (outcome_bind ⟨r, hc2.ranked r hr⟩ hS htS (hc2.not_inst.2 hm) hno hcls)
  have hfalse : (∀ V, Solves s1 V → (Ty.metaTy m).subst V.ty = t.subst V.ty → Blocked S s1 V) →
      Outcome S s.store (.metaTy m) t s1 false := fun h =>
    Outcome.after hc (fun _ _ => rfl) (fun _ _ => rfl) (.false_of_ne h)
  cases hi : s.store.info m with
  | inst u => exact absurd hi (hm u)
  | univ d =>
    cases b with
    | true =>
      refine ⟨{ s with store := s1 }, false, ?_, hfalse fun V hV he => absurd he (hocc V hV rfl)⟩
      simp only [unifyWithMV, hi]
      exact hret.bind (.pure _)
    | false =>
      obtain ⟨s2, hret2, hc2⟩ := @adjustDepth_returns rc d { s with store := s1 } r hr1 t
      refine ⟨assignMV rc s2 m (.inst t), true, ?_, hbind s2.store (hc.trans hc2) rfl fun c h => ?_⟩
      · simp only [unifyWithMV, hi]
        exact hret.bind (hret2.bind (.pure _))
      · have hk := (hc.trans hc2).kind m
        rw [hi, h] at hk
        cases hk
  | cls c =>
    have hi1 : s1.info m = .cls c := by
      have hk := hc.kind m
      rw [hi] at hk
      cases h : s1.info m <;> rw [h] at hk <;> cases hk
      rfl
    cases b with
    | true =>
      refine ⟨{ s with store := s1 }, false, ?_, hfalse fun V hV he => absurd he (hocc V hV rfl)⟩
      simp only [unifyWithMV, hi]
      exact hret.bind (.pure _)
    | false =>
      by_cases hce : c = .eq
      · subst hce
        obtain ⟨b2, hret2, hb2⟩ := isEqualityType_returns hr1 t
        cases b2 with
        | true =>
          refine ⟨assignMV rc { s with store := s1 } m (.inst t), true, ?_, hbind s1 hc rfl fun c h V hV => ?_⟩
          · simp only [unifyWithMV, hi]
            exact hret.bind (hret2.bind (.pure _))
          · rw [hi1] at h
            cases h
            refine (hb2.1 rfl).isEq hV hm1 fun ho => ?_
            cases hb.2 ((hc.occurs m t).1 ho)
        | false =>
          refine ⟨{ s with store := s1 }, false, ?_, hfalse fun V hV he => ?_⟩
          · simp only [unifyWithMV, hi]
            exact hret.bind (hret2.bind (.pure _))
          · have hs := hV m
            simp only [Sat, hi1] at hs
            rw [Ty.subst] at he
            have hne : ¬ EqTy s1 t := fun h => Bool.noConfusion (hb2.2 h)
            obtain ⟨u, d, ho, hu, hue⟩ := exists_univ_of_not_eqTy hr1 hV t hne (he ▸ hs)
            exact ⟨⟨m, hS, by rw [hi1]; rfl⟩, u, ho.mem (hc.closed S hcl) htS, by rw [hu]; rfl, hue⟩
      · have hret' : Returns (fun n => unifyWithMV rc n s t m)
            (if isClass t c.members = true then (assignMV rc { s with store := s1 } m (.inst t), true)
              else ({ s with store := s1 }, false)) := by
          simp only [unifyWithMV, hi]
          refine hret.bind ?_
          cases c <;> first | exact absurd rfl hce | exact .ite _ _ _
        by_cases ht' : isClass t c.members = true
        · rw [if_pos ht'] at hret'
          refine ⟨_, _, hret', hbind s1 hc rfl fun c' h V _ => ?_⟩
          rw [hi1] at h
          cases h
          exact (isClass_iff hce ht).2 ht'
        · rw [if_neg ht'] at hret'
          refine ⟨_, _, hret', hfalse fun V hV he => absurd ((isClass_iff (q := s1.isEqTyc) (V := V) hce ht).1 ?_) ht'⟩
          have hs := hV m
          simp only [Sat, hi1] at hs
          exact he ▸ hs

/-! ## Two types -/

/-- How many variables of `S` are left to bind. -/
def unbound (S : Finset Meta) (s : Store) : Nat := (S.filter fun m => (s.info m).kind ≠ none).card

theorem Advance.unbound_le {S : Finset Meta} (h : Advance ↑S s s') :
    (unbound S s' = unbound S s ∧ ∀ r, Ranked s r → Ranked s' r) ∨ unbound S s' < unbound S s ∧ Acyclic s' := by
  rcases h.progress with ⟨hk, hr⟩ | ⟨⟨m, hm, hs, hs'⟩, ha⟩
  · left
    exact ⟨by simp only [unbound, hk], hr⟩
  · right
    refine ⟨Finset.card_lt_card ⟨fun x hx => ?_, fun hsub => ?_⟩, ha⟩
    · rw [mem_filter] at hx ⊢
      refine ⟨hx.1, fun h0 => ?_⟩
      rcases h.kind x with e | e
      · exact hx.2 (e.trans h0)
      · exact hx.2 e
    · have := hsub (mem_filter.2 ⟨hm, hs⟩)
      exact (mem_filter.1 this).2 hs'

/-- The outcome of unifying two lists. -/
structure OutcomeL (S : Set Meta) (s : Store) (ts us : List Ty) (s' : Store) (b : Bool) : Prop where
  advance : Advance S s s'
  sound : b = true → ts.length = us.length ∧
    ∀ V, Solves s' V → ∀ p ∈ ts.zip us, Agree S s V (p.1.subst V.ty) (p.2.subst V.ty)
  complete : b = true → ∀ V, Solves s V → ts.map (Ty.subst V.ty) = us.map (Ty.subst V.ty) → Solves s' V
  fails : b = false → ∀ V, Solves s V → ts.map (Ty.subst V.ty) = us.map (Ty.subst V.ty) → Blocked S s V

theorem allEq_outcome {f : Nat → St → Ty → Ty → Except Failure (St × Bool)} {ts us : List Ty} {s : St}
    (h : ∀ t ∈ ts, ∀ u ∈ us, ∀ s1 : St, Advance S s.store s1.store → ∃ s2 b, Returns (fun n => f n s1 t u) (s2, b) ∧ Outcome S s1.store t u s2.store b)
    : ∃ s' b, Returns (fun n => allEq (f n) s ts us) (s', b) ∧ OutcomeL S s.store ts us s'.store b := by
  induction ts generalizing us s with
  | nil =>
    cases us with
    | nil =>
      exact ⟨s, true, .pure _, (Compress.refl _).advance S, fun _ => ⟨rfl, by simp⟩, fun _ _ hV _ => hV,
        fun hb => nomatch hb⟩
    | cons u us =>
      exact ⟨s, false, .pure _, (Compress.refl _).advance S, fun hb => (nomatch hb), fun hb => (nomatch hb),
        fun _ _ _ he => by simp at he⟩
  | cons t ts ih =>
    cases us with
    | nil =>
      exact ⟨s, false, .pure _, (Compress.refl _).advance S, fun hb => (nomatch hb), fun hb => (nomatch hb),
        fun _ _ _ he => by simp at he⟩
    | cons u us =>
      obtain ⟨s1, b, hret, ho⟩ := h t List.mem_cons_self u List.mem_cons_self s ((Compress.refl _).advance S)
      cases b with
      | false =>
        refine ⟨s1, false, hret.bind (.pure _), ho.advance, fun hb => (nomatch hb), fun hb => (nomatch hb),
          fun _ V hV he => ?_⟩
        simp only [List.map_cons, List.cons.injEq] at he
        exact ho.fails rfl V hV he.1
      | true =>
        obtain ⟨s2, b2, hret2, ho2⟩ := @ih us s1 fun t' ht u' hu s1' ha =>
          h t' (List.mem_cons_of_mem _ ht) u' (List.mem_cons_of_mem _ hu) s1' (ho.advance.trans ha)
        refine ⟨s2, b2, hret.bind hret2, ho.advance.trans ho2.advance, fun hb => ?_, fun hb V hV he => ?_,
          fun hb V hV he => ?_⟩
        · obtain ⟨hl, hag⟩ := ho2.sound hb
          refine ⟨by simp [hl], fun V hV p hp => ?_⟩
          rw [List.zip_cons_cons, List.mem_cons] at hp
          rcases hp with rfl | hp
          · exact ho.sound rfl V (ho2.advance.solves V hV)
          · exact (hag V hV p hp).mono fun m hm _ hk => ⟨hm, ho.advance.kind_some hk⟩
        · simp only [List.map_cons, List.cons.injEq] at he
          exact ho2.complete hb V (ho.complete rfl V hV he.1) he.2
        · simp only [List.map_cons, List.cons.injEq] at he
          exact (ho2.fails hb V (ho.complete rfl V hV he.1) he.2).mono ho.advance

theorem zip_subst {ts us : List Ty} {P : Ty → Ty → Prop} (h : ∀ p ∈ ts.zip us, P (p.1.subst V.ty) (p.2.subst V.ty))
    : ∀ p ∈ (ts.map (Ty.subst V.ty)).zip (us.map (Ty.subst V.ty)), P p.1 p.2 := by
  rw [List.zip_map]
  intro p hp
  obtain ⟨p', hp', rfl⟩ := List.mem_map.1 hp
  exact h p' hp'

theorem OutcomeL.con {S : Set Meta} {s s' : Store} {ts us : List Ty} {b : Bool} (h : OutcomeL S s ts us s' b)
    (tyc : TyCon) : Outcome S s (.conTy ts tyc) (.conTy us tyc) s' b := by
  refine ⟨h.advance, fun hb V hV => ?_, fun hb V hV he => ?_, fun hb V hV he => ?_⟩
  · obtain ⟨hl, hag⟩ := h.sound hb
    simp only [Ty.subst, substL_eq]
    exact .con tyc (by simp [hl]) (zip_subst (hag V hV))
  · simp only [Ty.subst, substL_eq, Ty.conTy.injEq, and_true] at he
    exact h.complete hb V hV he
  · simp only [Ty.subst, substL_eq, Ty.conTy.injEq, and_true] at he
    exact h.fails hb V hV he

theorem OutcomeL.tuple {S : Set Meta} {s s' : Store} {ts us : List Ty} {b : Bool} (h : OutcomeL S s ts us s' b) :
    Outcome S s (.tupleTy ts) (.tupleTy us) s' b := by
  refine ⟨h.advance, fun hb V hV => ?_, fun hb V hV he => ?_, fun hb V hV he => ?_⟩
  · obtain ⟨hl, hag⟩ := h.sound hb
    simp only [Ty.subst, substL_eq]
    exact .tuple (by simp [hl]) (zip_subst (hag V hV))
  · simp only [Ty.subst, substL_eq, Ty.tupleTy.injEq] at he
    exact h.complete hb V hV he
  · simp only [Ty.subst, substL_eq, Ty.tupleTy.injEq] at he
    exact h.fails hb V hV he

theorem fun_outcome {f : Nat → St → Ty → Ty → Except Failure (St × Bool)} {u1 u2 : Ty} {s : St}
    (h1 : ∀ s1 : St, Advance S s.store s1.store → ∃ s2 b, Returns (fun n => f n s1 t1 u1) (s2, b) ∧ Outcome S s1.store t1 u1 s2.store b)
    (h2 : ∀ s1 : St, Advance S s.store s1.store → ∃ s2 b, Returns (fun n => f n s1 t2 u2) (s2, b) ∧ Outcome S s1.store t2 u2 s2.store b)
    :
    ∃ s' b, Returns (fun n => do let (s1, b) ← f n s t1 u1 if b then f n s1 t2 u2 else .ok (s1, false)) (s', b) ∧
      Outcome S s.store (.funTy t1 t2) (.funTy u1 u2) s'.store b := by
  obtain ⟨s1, b, hret, ho⟩ := h1 s ((Compress.refl _).advance S)
  cases b with
  | false =>
    refine ⟨s1, false, hret.bind (.pure _), ho.advance, fun hb => (nomatch hb), fun hb => (nomatch hb), fun _ V hV he => ?_⟩
    exact ho.fails rfl V hV (Ty.funTy.inj he).1
  | true =>
    obtain ⟨s2, b2, hret2, ho2⟩ := h2 s1 ho.advance
    refine ⟨s2, b2, hret.bind hret2, ho.advance.trans ho2.advance, fun hb V hV => ?_, fun hb V hV he => ?_,
      fun hb V hV he => ?_⟩
    · exact .fun_ (ho.sound rfl V (ho2.advance.solves V hV)) ((ho2.sound hb V hV).mono fun m hm _ hk => ⟨hm, ho.advance.kind_some hk⟩)
    · exact ho2.complete hb V (ho.complete rfl V hV (Ty.funTy.inj he).1) (Ty.funTy.inj he).2
    · exact (ho2.fails hb V (ho.complete rfl V hV (Ty.funTy.inj he).1) (Ty.funTy.inj he).2).mono ho.advance

/-- From every acyclic state unification returns, with the outcome described above. The
    induction is on the number of variables left to bind, then on the first type. -/
theorem uni_returns (rc : Bool) (S : Finset Meta) (k : Nat) (s : St) (r : Meta → Nat) (t1 t2 : Ty)
    (hr : Ranked s.store r) (hcl : Closed s.store ↑S) (h1 : t1.Within ↑S) (h2 : t2.Within ↑S)
    (hk : unbound S s.store = k) :
    ∃ s' b, Returns (fun n => uni rc n s t1 t2) (s', b) ∧ Outcome ↑S s.store t1 t2 s'.store b := by
  induction k using Nat.strong_induction_on generalizing s r t1 t2 with
  | _ k ihk =>
    induction t1 using Smaller.ind (r := r) generalizing s t2 with
    | h t1 iht =>
      obtain ⟨st1, u1, hret1, hp1⟩ := prune_returns hr t1
      have hr1 := hp1.compress.ranked r hr
      obtain ⟨st2, u2, hret2, hp2⟩ := prune_returns hr1 t2
      have hc := hp1.compress.trans hp2.compress
      have hr2 := hc.ranked r hr
      have hcl2 := hc.closed _ hcl
      have hu1 : u1.Within ↑S := hp1.within hcl h1
      have hu2 : u2.Within ↑S := hp2.within (hp1.compress.closed _ hcl) h2
      have hhead1 : ∀ m, u1 = .metaTy m → ∀ u, st2.info m ≠ .inst u := fun m he =>
        hp2.compress.not_inst.2 (hp1.head m he)
      have hk2 : unbound S st2 = k := by simp only [unbound, hc.kind, ← hk]
      -- it remains to treat the two pruned types
      suffices h : ∃ s' b, Returns (fun n => uni rc (n + 1) s t1 t2) (s', b) ∧ Outcome ↑S st2 u1 u2 s'.store b by
        obtain ⟨s', b, hret, ho⟩ := h
        exact ⟨s', b, hret.succ, ho.after hc
          (fun V hV => hp1.value ((hp2.compress.solves V).1 hV)) fun V hV => hp2.value hV⟩
      have hsub : ∀ u ∈ u1.parts, ∀ v ∈ u2.parts, ∀ s1 : St, Advance ↑S st2 s1.store →
          ∃ s2 b, Returns (fun n => uni rc n s1 u v) (s2, b) ∧ Outcome ↑S s1.store u v s2.store b := by
        intro u hu v hv s1 ha
        rcases ha.unbound_le with ⟨hle, hrk⟩ | ⟨hlt, r', hr'⟩
        · exact iht u (hp1.smaller hr hu) s1 v (hrk r hr2) (ha.closed hcl2) (hu1.parts hu) (hu2.parts hv)
            (hle.trans hk2)
        · exact ihk _ (hk2 ▸ hlt) s1 r' u v hr' (ha.closed hcl2) (hu1.parts hu) (hu2.parts hv) rfl
      have hclash : (∀ V, Solves st2 V → u1.subst V.ty ≠ u2.subst V.ty) →
          Outcome ↑S st2 u1 u2 st2 false := fun h => .false_of_ne fun V hV he => absurd he (h V hV)
      have hagree : (∀ V, Solves st2 V → Agree ↑S st2 V (u1.subst V.ty) (u2.subst V.ty)) →
          Outcome ↑S st2 u1 u2 st2 true := .true_of_agree
      have hbind : Acyclic st2 := ⟨r, hr2⟩
      have herror : u2 = .errorTy →
          ∃ s' b, Returns (fun n => uni rc (n + 1) s t1 t2) (s', b) ∧ Outcome ↑S st2 u1 u2 s'.store b := by
        rintro rfl
        refine ⟨{ s with store := st2 }, true, ?_, hagree fun V _ => .errorRight _⟩
        cases u1 <;> exact hret1.bind (hret2.bind (.pure _))
      have hmeta {m2 : Meta} : (∀ m, u1 ≠ .metaTy m) ∧ u1 ≠ .errorTy → u2 = .metaTy m2 →
          ∃ s' b, Returns (fun n => uni rc (n + 1) s t1 t2) (s', b) ∧ Outcome ↑S st2 u1 u2 s'.store b := by
        rintro ⟨hne, hne'⟩ rfl
        obtain ⟨s', b, h, ho⟩ := unifyWithMV_outcome rc (s := { s with store := st2 }) hbind
          (hu2 m2 (by simp [metas])) hcl2 hu1 (hp2.head m2 rfl) hne
        refine ⟨s', b, ?_, ho.symm⟩
        cases u1 with
        | errorTy => exact absurd rfl hne'
        | metaTy m => exact absurd rfl (hne m)
        | _ => exact hret1.bind (hret2.bind h)
      cases u1 with
      | errorTy =>
        refine ⟨{ s with store := st2 }, true, ?_, hagree fun V _ => .errorLeft _⟩
        simp only [uni]
        exact hret1.bind (hret2.bind (.pure _))
      | metaTy m1 =>
        have hm1 : m1 ∈ (↑S : Set Meta) := hu1 m1 (by simp [metas])
        cases u2 with
        | errorTy => exact herror rfl
        | metaTy m2 =>
          have hm2 : m2 ∈ (↑S : Set Meta) := hu2 m2 (by simp [metas])
          by_cases he : m1 = m2
          · refine ⟨{ s with store := st2 }, true, ?_, hagree fun V _ => he ▸ .refl _⟩
            simp only [uni]
            refine hret1.bind (hret2.bind ?_)
            simp only [if_pos he]
            exact .pure _
          · obtain ⟨s', b, h, ho⟩ := unifyMV_outcome rc (s := { s with store := st2 }) hbind hm1 hm2
              (hhead1 m1 rfl) (hp2.head m2 rfl) he
            refine ⟨s', b, ?_, ho⟩
            simp only [uni]
            refine hret1.bind (hret2.bind ?_)
            simp only [if_neg he, h]
            exact .pure _
        | _ =>
          obtain ⟨s', b, h, ho⟩ := unifyWithMV_outcome rc (s := { s with store := st2 }) hbind hm1 hcl2 hu2
            (hhead1 m1 rfl) (by simp)
          refine ⟨s', b, ?_, ho⟩
          simp only [uni]
          exact hret1.bind (hret2.bind h)
      | varTy v1 =>
        cases u2 with
        | errorTy => exact herror rfl
        | metaTy m2 => exact hmeta (by simp) rfl
        | varTy v2 =>
          refine ⟨{ s with store := st2 }, decide (v1 = v2), ?_, ?_⟩
          · simp only [uni]
            exact hret1.bind (hret2.bind (.pure _))
          · by_cases he : v1 = v2
            · rw [decide_eq_true he]
              exact hagree fun V _ => he ▸ .refl _
            · rw [decide_eq_false he]
              exact hclash fun V _ h => he (Ty.varTy.inj h)
        | _ =>
          refine ⟨{ s with store := st2 }, false, ?_, hclash fun V _ => by simp [Ty.subst]⟩
          simp only [uni]
          exact hret1.bind (hret2.bind (.pure _))
      | conTy as c1 =>
        cases u2 with
        | errorTy => exact herror rfl
        | metaTy m2 => exact hmeta (by simp) rfl
        | conTy bs c2 =>
          by_cases he : c1 = c2
          · subst he
            obtain ⟨s', b, h, ho⟩ := allEq_outcome (s := { s with store := st2 }) hsub
            refine ⟨s', b, ?_, ho.con c1⟩
            simp only [uni]
            refine hret1.bind (hret2.bind ?_)
            simp only [if_true]
            exact h
          · refine ⟨{ s with store := st2 }, false, ?_, hclash fun V _ h => ?_⟩
            · simp only [uni]
              refine hret1.bind (hret2.bind ?_)
              simp only [if_neg he]
              exact .pure _
            · simp only [Ty.subst, Ty.conTy.injEq] at h
              exact he h.2
        | _ =>
          refine ⟨{ s with store := st2 }, false, ?_, hclash fun V _ => by simp [Ty.subst]⟩
          simp only [uni]
          exact hret1.bind (hret2.bind (.pure _))
      | funTy a1 a2 =>
        cases u2 with
        | errorTy => exact herror rfl
        | metaTy m2 => exact hmeta (by simp) rfl
        | funTy b1 b2 =>
          obtain ⟨s', b, h, ho⟩ := fun_outcome (s := { s with store := st2 })
            (hsub a1 (by simp [parts]) b1 (by simp [parts])) (hsub a2 (by simp [parts]) b2 (by simp [parts]))
          refine ⟨s', b, ?_, ho⟩
          simp only [uni]
          exact hret1.bind (hret2.bind h)
        | _ =>
          refine ⟨{ s with store := st2 }, false, ?_, hclash fun V _ => by simp [Ty.subst]⟩
          simp only [uni]
          exact hret1.bind (hret2.bind (.pure _))
      | tupleTy as =>
        cases u2 with
        | errorTy => exact herror rfl
        | metaTy m2 => exact hmeta (by simp) rfl
        | tupleTy bs =>
          obtain ⟨s', b, h, ho⟩ := allEq_outcome (s := { s with store := st2 }) hsub
          refine ⟨s', b, ?_, ho.tuple⟩
          simp only [uni]
          exact hret1.bind (hret2.bind h)
        | _ =>
          refine ⟨{ s with store := st2 }, false, ?_, hclash fun V _ => by simp [Ty.subst]⟩
          simp only [uni]
          exact hret1.bind (hret2.bind (.pure _))

/-! ## The variables in sight -/

theorem Ty.mem_metas_iff (ht : ∀ m, t ≠ .metaTy m) : m ∈ t.metas ↔ ∃ u ∈ t.parts, m ∈ u.metas := by
  cases t with
  | metaTy m' => exact absurd rfl (ht m')
  | _ => simp [metas, parts]

/-- Finitely many variables matter for a type, and those left to bind occur in it. -/
theorem exists_scope (hr : Ranked s r) (t : Ty) :
    ∃ F : Finset Meta, Closed s ↑F ∧ t.Within ↑F ∧ ∀ m ∈ F, (s.info m).kind ≠ none → Occurs s m t := by
  classical
  induction t using Smaller.ind (r := r) with
  | h t ih =>
    by_cases ht : ∃ m, t = .metaTy m
    · obtain ⟨m, rfl⟩ := ht
      by_cases hm : ∃ u, s.info m = .inst u
      · obtain ⟨u, hm⟩ := hm
        obtain ⟨F, hcl, hw, ho⟩ := ih u (.inst hr hm)
        refine ⟨insert m F, fun x hx v hv y hy => ?_, fun x hx => ?_, fun x hx hk => ?_⟩
        · rw [mem_coe, mem_insert] at hx ⊢
          right
          rcases hx with rfl | hx
          · rw [hm] at hv
            cases hv
            exact hw y hy
          · exact hcl x hx v hv y hy
        · rw [metas, List.mem_singleton] at hx
          simp [hx]
        · rw [mem_insert] at hx
          rcases hx with rfl | hx
          · exact absurd (MetaInfo.kind_eq_none.2 ⟨u, hm⟩) hk
          · exact .inst hm (ho x hx hk)
      · refine ⟨{m}, fun x hx v hv => ?_, fun x hx => ?_, fun x hx _ => ?_⟩
        · rw [mem_coe, Finset.mem_singleton] at hx
          exact absurd ⟨v, hx ▸ hv⟩ hm
        · rw [metas, List.mem_singleton] at hx
          simp [hx]
        · rw [Finset.mem_singleton] at hx
          subst hx
          exact .here fun u hu => hm ⟨u, hu⟩
    · have hne : ∀ m, t ≠ .metaTy m := fun m he => ht ⟨m, he⟩
      have hlist : ∀ us : List Ty, (∀ u ∈ us, u ∈ t.parts) →
          ∃ F : Finset Meta, Closed s ↑F ∧ (∀ u ∈ us, u.Within ↑F) ∧
            ∀ m ∈ F, (s.info m).kind ≠ none → Occurs s m t := by
        intro us
        induction us with
        | nil => exact fun _ => ⟨∅, fun x hx => by simp at hx, by simp, by simp⟩
        | cons u us ihu =>
          intro hus
          obtain ⟨F, hcl, hw, ho⟩ := ih u (.parts (hus u List.mem_cons_self))
          obtain ⟨G, hclG, hwG, hoG⟩ := ihu fun v hv => hus v (List.mem_cons_of_mem _ hv)
          refine ⟨F ∪ G, fun x hx v hv y hy => ?_, fun v hv x hx => ?_, fun x hx hk => ?_⟩
          · rw [mem_coe, mem_union] at hx ⊢
            exact hx.imp (fun hx => hcl x hx v hv y hy) fun hx => hclG x hx v hv y hy
          · rw [mem_coe, mem_union]
            rcases List.mem_cons.1 hv with rfl | hv
            · exact .inl (hw x hx)
            · exact .inr (hwG v hv x hx)
          · rcases mem_union.1 hx with hx | hx
            · exact .part (hus u List.mem_cons_self) (ho x hx hk)
            · exact hoG x hx hk
      obtain ⟨F, hcl, hw, ho⟩ := hlist t.parts fun _ h => h
      refine ⟨F, hcl, fun x hx => ?_, ho⟩
      obtain ⟨u, hu, hx⟩ := (Ty.mem_metas_iff hne).1 hx
      exact hw u hu x hx

theorem exists_scope_two (hr : Ranked s r) (t1 t2 : Ty) :
    ∃ F : Finset Meta, Closed s ↑F ∧ t1.Within ↑F ∧ t2.Within ↑F ∧ ∀ m ∈ F, (s.info m).kind ≠ none → Occurs s m t1 ∨
      Occurs s m t2 := by
  obtain ⟨F, hcl, hw, ho⟩ := exists_scope hr (.funTy t1 t2)
  refine ⟨F, hcl, hw.parts (by simp [parts]), hw.parts (by simp [parts]), fun m hm hk => ?_⟩
  obtain ⟨u, hu, h⟩ := (occurs_parts (by simp)).1 (ho m hm hk)
  rcases List.mem_pair.1 hu with rfl | rfl
  · exact .inl h
  · exact .inr h

/-! ## The substitution of a state -/

/-- The substitution that prunes every instantiated variable away. -/
def Resolved (s : Store) (f : Meta → Ty) : Prop :=
  ∀ m, f m = match s.info m with | .inst t => t.subst f | _ => .metaTy m

/-- The classes recorded in the state. -/
def Store.classes (s : Store) (m : Meta) : Option TyClass := match s.info m with | .cls c => some c | _ => none

theorem Ty.subst_congr {f g : Meta → Ty} (h : ∀ m ∈ t.metas, f m = g m) : t.subst f = t.subst g := by
  induction t using Ty.ind with
  | metaTy m => exact h m (by simp [metas])
  | conTy args tyc ih =>
    simp only [Ty.subst, substL_eq, Ty.conTy.injEq, and_true]
    refine List.map_congr_left fun u hu => ih u hu fun m hm => h m ?_
    exact Ty.metas_parts (t := .conTy args tyc) hu hm
  | tupleTy tys ih =>
    simp only [Ty.subst, substL_eq, Ty.tupleTy.injEq]
    refine List.map_congr_left fun u hu => ih u hu fun m hm => h m ?_
    exact Ty.metas_parts (t := .tupleTy tys) hu hm
  | funTy t1 t2 ih1 ih2 =>
    grind [Ty.subst, metas]
  | errorTy => rfl
  | varTy => rfl

/-- The substitution, unfolded `k` times. -/
def unfolded (s : Store) : Nat → Meta → Ty
  | 0, m => .metaTy m
  | k + 1, m => match s.info m with | .inst t => t.subst (unfolded s k) | _ => .metaTy m

theorem unfolded_stable (hr : Ranked s r) {k k' : Nat} (hk : r m < k) (hk' : r m < k') :
    unfolded s k m = unfolded s k' m := by
  induction k generalizing k' m with
  | zero => omega
  | succ k ih =>
    obtain ⟨k', rfl⟩ : ∃ j, k' = j + 1 := ⟨k' - 1, by omega⟩
    cases hi : s.info m with
    | inst t =>
      simp only [unfolded, hi]
      refine Ty.subst_congr fun m' hm' => ?_
      have := hr m t hi m' hm'
      exact ih (by omega) (by omega)
    | _ => simp only [unfolded, hi]

theorem exists_resolved (ha : Acyclic s) : ∃ f, Resolved s f := by
  obtain ⟨r, hr⟩ := ha
  refine ⟨fun m => unfolded s (r m + 1) m, fun m => ?_⟩
  cases hi : s.info m with
  | inst t =>
    simp only [unfolded, hi]
    refine Ty.subst_congr fun m' hm' => ?_
    have := hr m t hi m' hm'
    show unfolded s (r m) m' = unfolded s (r m' + 1) m'
    exact unfolded_stable hr this (Nat.lt_succ_self _)
  | _ => simp only [unfolded, hi]

/-- It solves the state, every variable left being of the class recorded for it. -/
theorem Resolved.solves {f : Meta → Ty} (h : Resolved s f) : Solves s ⟨f, s.classes⟩ := by
  intro m
  have hm := h m
  cases hi : s.info m with
  | univ d => simp [Sat, hi]
  | inst t =>
    rw [hi] at hm
    simpa only [Sat, hi] using hm
  | cls c =>
    rw [hi] at hm
    simp only [Sat, hi, hm]
    have hc : s.classes m = some c := by simp [Store.classes, hi]
    cases c <;> simp [InClass, IsEq, hc, TyClass.le]

/-- One variable of class `Eq`, all others unconstrained. -/
def eqStore : Store := ⟨fun m => if m = ⟨0⟩ then .cls .eq else .univ 1, fun _ => true, fun _ _ => rfl⟩

theorem eqStore_acyclic : Acyclic eqStore := by
  refine ⟨fun _ => 0, fun m t h => ?_⟩
  simp only [eqStore] at h
  split at h <;> cases h

end Manticore.Typechecker
