/-
  Manticore.Match.Specialise — the row loops of match-check.sml on a well-typed matrix.

  `s_rows`, `sK_rows`, `sL_rows`, `sT_rows`, `breakTups_rows` and `d_rows`: on a column of
  the right type each loop answers, and what it answers is the matrix specialised by a head,
  or the default matrix. `TupleWilds` is what `sT` needs of the wildcards of a column, and
  `BreakWilds` what `breakTups` needs.
-/

import Manticore.Match.Useful

namespace Manticore.Match.MatchCheck

open Fuel
open Typechecker (Ty TyVar TyCon Failure prune unitTy)

/-! ## Annotations -/

section

variable {D : Data} {st : Typechecker.Store}

mutual

/-- A declared type annotates its instances. -/
theorem annot_applySubst (f : TyVar → Ty) : ∀ ty : Ty, metaFree ty = true → Annot st ty (applySubst f ty)
  | .errorTy, _ => .errorTy _
  | .metaTy _, h => by cases h
  | .varTy tv, _ => .varTy tv _
  | .conTy args tyc, _ => .conTy args tyc _
  | .funTy ty1 ty2, _ => .funTy ty1 ty2 _
  | .tupleTy tys, h => by
    rw [applySubst]
    exact .tupleTy (length_applySubsts f tys).symm (annot_applySubsts f tys h)

theorem annot_applySubsts (f : TyVar → Ty) : ∀ tys : List Ty, metaFrees tys = true →
    ∀ q ∈ tys.zip (applySubsts f tys), Annot st q.1 q.2
  | [], _, q, hq => nomatch hq
  | ty :: tys, h, q, hq => by
    rw [metaFrees, Bool.and_eq_true] at h
    rw [applySubsts, List.zip_cons_cons] at hq
    obtain rfl | hq := List.mem_cons.1 hq
    · exact annot_applySubst f ty h.1
    · exact annot_applySubsts f tys h.2 q hq

theorem length_applySubsts (f : TyVar → Ty) : ∀ tys : List Ty, (applySubsts f tys).length = tys.length
  | [] => rfl
  | _ :: tys => by rw [applySubsts, List.length_cons, length_applySubsts f tys, List.length_cons]

end

theorem Annot.tuple_inv {tys : List Ty} {t : Ty} (h : Annot st (.tupleTy tys) t) :
    ∃ ts, t = .tupleTy ts ∧ List.Forall₂ (Annot st) tys ts := by
  cases h with
  | tupleTy hlen hall => exact ⟨_, rfl, List.forall₂_iff_zip.2 ⟨hlen, fun hq => hall _ hq⟩⟩

/-- Wildcards with the annotations fit the types. -/
theorem wilds_fit {tys ts : List Ty} (h : List.Forall₂ (Annot st) tys ts) : VecFits D st (tys.map .wildPat) ts := by
  induction h with
  | nil => exact .nil
  | cons ha _ ih => exact .cons (.wildPat ha) ih

theorem conWilds_fit {K : Context} {args : List Ty} {tyc : TyCon} {l : List DCon} {c : DCon} {ts' : List Ty}
    (hl : K.data.cons tyc = some l) (hc : c ∈ l) (hh : HeadTy K.data (.conTy args tyc) (.con c) ts') :
    VecFits K.data K.store (conWilds c) ts' := by
  unfold conWilds
  cases hh with
  | con _ _ hn =>
    rw [Data.argTypeOf, Option.map_eq_none_iff] at hn
    rw [hn]
    exact .nil
  | conApp _ _ hs =>
    obtain ⟨ty, hty, rfl⟩ := Option.map_eq_some_iff.1 hs
    rw [hty]
    exact .cons (.wildPat (annot_applySubst _ ty (K.declared tyc l hl c hc ty hty))) .nil

theorem vecWeight_conWilds (c : DCon) : vecWeight (conWilds c) = 0 := by
  unfold conWilds
  split <;> rfl

theorem matches_conWilds {K : Context} {args : List Ty} {tyc : TyCon} {l : List DCon} {c : DCon} {ts' : List Ty}
    (hl : K.data.cons tyc = some l) (hc : c ∈ l) (hh : HeadTy K.data (.conTy args tyc) (.con c) ts') {ws : List Value}
    (hws : Typed K.data ws ts') : Matches (conWilds c) ws := by
  have hlen := (conWilds_fit hl hc hh).length_eq.trans hws.length_eq.symm
  unfold conWilds at hlen ⊢
  split at hlen
  · rw [List.length_eq_zero_iff.1 hlen.symm]
    exact .nil
  · next ty hty =>
    have := @matches_wilds ws [ty] hlen
    simpa [hty] using this

end

/-! ## Cells -/

section

variable {D : Data} {st : Typechecker.Store} {P : Value → List Value → Prop} {ts' : List Ty}

/-- A row is left out when no value in question matches the cell. -/
theorem Cell.skip {q : Pat} (h : ∀ w ws, P w ws → Typed D ws ts' → accepts q w = false) : Cell D st P ts' q none where
  fits := fun _ h => nomatch h
  agrees := fun w ws hP hws => by simp [h w ws hP hws]
  smaller := fun _ h => nomatch h

/-- A wildcard makes way for wildcards. -/
theorem Cell.wild {ty : Ty} {qs : List Pat} (hfit : VecFits D st qs ts') (hm : ∀ ws, Typed D ws ts' → Matches qs ws)
    (hw : vecWeight qs = 0) : Cell D st P ts' (.wildPat ty) (some qs) where
  fits := fun _ h => by cases h; exact hfit
  agrees := fun w ws _ hws => by simpa using hm ws hws
  smaller := fun _ h => by cases h; simp [weight, hw]

theorem Cell.wild_nil {ty : Ty} : Cell D st P [] (.wildPat ty) (some []) :=
  .wild .nil (fun ws hws => by cases hws; exact .nil) rfl

/-- A constant that the value in question is. -/
theorem Cell.const {k : Const} (h : ∀ w ws, P w ws → Typed D ws [] → accepts (.constPat k) w = true) :
    Cell D st P [] (.constPat k) (some []) where
  fits := fun _ h => by cases h; exact .nil
  agrees := fun w ws hP hws => by
    have hnil := List.length_eq_zero_iff.1 hws.length_eq
    subst hnil
    simp [h w [] hP hws]
  smaller := fun _ h => by cases h; simp [weight, vecWeight]

theorem Cell.tuple {ps : List Pat} {ts : List Ty} (h : VecFits D st ps ts) :
    Cell D st (Splits .tuple) ts (.tuplePat ps) (some ps) where
  fits := fun _ h' => by cases h'; exact h
  agrees := fun w ws hP _ => by
    cases hP
    simp [accepts_tuplePat]
  smaller := fun _ h => by cases h; simp [weight]

theorem Cell.conApp {c c' : DCon} {tys : List Ty} {p : Pat} {t : Ty} (h : Fit D st p t) (hc : c' = c) :
    Cell D st (Splits (.con c)) [t] (.conPat c' tys p) (some [p]) where
  fits := fun _ h' => by cases h'; exact .cons h .nil
  agrees := fun w ws hP hws => by
    subst hc
    cases hP with
    | con => cases hws
    | conApp _ x => simp [accepts_conPat, DCon.same_refl]
  smaller := fun _ h => by cases h; simp [weight, vecWeight]

end

/-! ## Comparing types -/

/-- The types of literals. -/
inductive Atom : Ty → Prop
  | conTy (tyc : TyCon) : Atom (.conTy [] tyc)
  | unit : Atom unitTy

variable {t : Ty} {st : Typechecker.Store} {ty1 ty2 : Ty}

theorem LitTy.atom {D : Data} {l : Literal} (h : LitTy D l t) : Atom t := by
  obtain ⟨tyc, rfl, -⟩ := h.con
  exact .conTy tyc

theorem prune_atom {ty : Ty} (h : Stands st ty t) (ht : Atom t) :
    ∃ st', Returns (fun n => prune n st ty) (st', t) := by
  induction h with
  | refl t =>
    cases ht with
    | conTy | unit => exact ⟨st, .succ (.pure _)⟩
  | @inst mv ty t hmv _ ih =>
    obtain ⟨st', hret⟩ := ih ht
    refine ⟨st'.assign mv (.inst t), .succ ?_⟩
    simp only [prune, hmv]
    exact hret.bind (.pure _)

theorem same_atom {t1 t2 : Ty} (h1 : Stands st ty1 t1) (ht1 : Atom t1) (h2 : Stands st ty2 t2) (ht2 : Atom t2) :
    ∃ b, Returns (fun n => same n st ty1 ty2) b ∧ (b = true ↔ t1 = t2) := by
  obtain ⟨_, hret1⟩ := prune_atom h1 ht1
  obtain ⟨_, hret2⟩ := prune_atom h2 ht2
  cases ht1 with
  | conTy tyc1 =>
    cases ht2 with
    | conTy tyc2 =>
      refine ⟨decide (tyc1 = tyc2), .succ (hret1.bind (hret2.bind ?_)), by simp⟩
      by_cases heq : tyc1 = tyc2 <;> simp [heq, allEqM] <;> exact .pure _
    | unit => exact ⟨false, .succ (hret1.bind (hret2.bind (.pure _))), by simp [unitTy]⟩
  | unit =>
    cases ht2 with
    | conTy tyc2 => exact ⟨false, .succ (hret1.bind (hret2.bind (.pure _))), by simp [unitTy]⟩
    | unit => exact ⟨true, .succ (hret1.bind (hret2.bind (.pure _))), by simp⟩

theorem same_true (h1 : Stands st ty1 t) (h2 : Stands st ty2 t) (ht : Atom t) :
    Returns (fun n => same n st ty1 ty2) true := by
  obtain ⟨b, hret, hb⟩ := same_atom h1 ht h2 ht
  rwa [hb.2 rfl] at hret

theorem same_false {t1 t2 : Ty} (h1 : Stands st ty1 t1) (ht1 : Atom t1) (h2 : Stands st ty2 t2) (ht2 : Atom t2)
    (hne : t1 ≠ t2) : Returns (fun n => same n st ty1 ty2) false := by
  grind [same_atom]

/-! ## The loops -/

section

variable {K : Context} {t : Ty} {ts ts' : List Ty} {p : PatMat}

/-- A loop on a matrix whose first column has a type. -/
theorem rows_of {R : Pat → Option (List Pat) → Prop} (whence : String)
    (cell : Nat → Pat → Except Failure (Option (List Pat))) (hp : MatFits K.data K.store p (t :: ts))
    (h : ∀ q ps, q :: ps ∈ p → Fit K.data K.store q t → ∃ o, Returns (fun n => cell n q) o ∧ R q o) :
    ∃ p', Returns (fun n => rowLoop whence (cell n) p) p' ∧ Rows R p p' := by
  refine rowLoop_returns fun row hrow => ?_
  cases row with
  | nil => cases hp [] hrow
  | cons q ps => exact ⟨q, ps, rfl, h q ps hrow (List.forall₂_cons.1 (hp _ hrow)).1⟩

/-- A loop that needs no fuel. -/
theorem pureRows_of {R : Pat → Option (List Pat) → Prop} (whence : String) (cell : Pat → Except Failure (Option (List Pat)))
    (hp : MatFits K.data K.store p (t :: ts))
    (h : ∀ q ps, q :: ps ∈ p → Fit K.data K.store q t → ∃ o, cell q = .ok o ∧ R q o) :
    ∃ p', rowLoop whence cell p = .ok p' ∧ Rows R p p' := by
  obtain ⟨p', hret, hr⟩ := rows_of whence (fun _ => cell) hp fun q ps hmem hq => by
    obtain ⟨o, heq, hR⟩ := h q ps hmem hq
    exact ⟨o, heq ▸ .pure o, hR⟩
  exact ⟨p', hret.of_const, hr⟩

variable {q : Pat} {args : List Ty} {tyc : TyCon} {l : List DCon} {c : DCon} {ty : Ty}

theorem fit_datatype (hq : Fit K.data K.store q (.conTy args tyc)) (hl : K.data.cons tyc = some l) :
    (∃ c tys p t', q = .conPat c tys p ∧ c ∈ l ∧ K.data.argTypeOf c args = some t' ∧ Fit K.data K.store p t') ∨
      (∃ c tys, q = .constPat (.dConst c tys) ∧ c ∈ l ∧ K.data.argTypeOf c args = none) ∨ ∃ ty, q = .wildPat ty :=
      by
  cases hq with
  | conPat hl' hc hs hp =>
    rw [hl] at hl'
    cases hl'
    exact .inl ⟨_, _, _, _, rfl, hc, hs, hp⟩
  | dConst hl' hc hn =>
    rw [hl] at hl'
    cases hl'
    exact .inr (.inl ⟨_, _, rfl, hc, hn⟩)
  | wildPat => exact .inr (.inr ⟨_, rfl⟩)
  | lConst hlit _ => exact absurd hl (hlit.flat.not_datatype ·)

theorem not_same {c' : DCon} (hl : K.data.cons tyc = some l) (hc : c ∈ l) (hc' : c' ∈ l) (hne : c ≠ c') :
    c.same c' = false := by
  rw [← Bool.not_eq_true, same_iff hl hc hc']
  exact hne

theorem s_rows (hl : K.data.cons tyc = some l) (hc : c ∈ l) (hh : HeadTy K.data (.conTy args tyc) (.con c) ts')
    (hp : MatFits K.data K.store p (.conTy args tyc :: ts)) :
    ∃ p', s c p = .ok p' ∧ Rows (Cell K.data K.store (Splits (.con c)) ts') p p' := by
  refine pureRows_of _ _ hp fun q ps _ hq => ?_
  obtain ⟨c', tys, p', t', rfl, hc', hs, hp'⟩ | ⟨c', tys, rfl, hc', hn⟩ | ⟨ty, rfl⟩ := fit_datatype hq hl
  · by_cases hcc : c = c'
    · subst hcc
      obtain rfl : ts' = [t'] := by
        cases hh with
        | con _ _ hn => rw [hs] at hn; cases hn
        | conApp _ _ hs' => rw [hs] at hs'; cases hs'; rfl
      refine ⟨some [p'], ?_, .conApp hp' rfl⟩
      cases hp' <;> simp [sCell, DCon.same_refl]
    · have hne := not_same hl hc hc' hcc
      refine ⟨none, by simp [sCell, hne], .skip fun w ws hs _ => ?_⟩
      cases hs with
      | con => simp [accepts]
      | conApp => simp [accepts, DCon.same_comm c', hne]
  · by_cases hcc : c = c'
    · subst hcc
      obtain rfl : ts' = [] := by
        cases hh with
        | con => rfl
        | conApp _ _ hs' => rw [hn] at hs'; cases hs'
      refine ⟨some [], by simp [sCell, DCon.same_refl], .const fun w ws hs hws => ?_⟩
      cases hs with
      | con => simp [accepts, DCon.same_refl]
      | conApp => cases hws
    · have hne := not_same hl hc hc' hcc
      refine ⟨none, by simp [sCell, hne], .skip fun w ws hs _ => ?_⟩
      cases hs with
      | con => simp [accepts, DCon.same_comm c', hne]
      | conApp => simp [accepts]
  · exact ⟨some (conWilds c), rfl, .wild (conWilds_fit hl hc hh) (fun ws hws => matches_conWilds hl hc hh hws)
      (vecWeight_conWilds c)⟩

theorem sK_rows (tys : List Ty) (hl : K.data.cons tyc = some l) (hc : c ∈ l)
    (hp : MatFits K.data K.store p (.conTy args tyc :: ts)) :
    ∃ p', Returns (fun n => sK K n (.dConst c tys) p) p' ∧ Rows (Cell K.data K.store (Splits (.con c)) []) p p' :=
      by
  obtain ⟨p', heq, hr⟩ := pureRows_of (R := Cell K.data K.store (Splits (.con c)) []) "sK" (sKCell c) hp
    fun q ps _ hq => by
      obtain ⟨c', tys, p', t', rfl, hc', hs, hp'⟩ | ⟨c', tys, rfl, hc', hn'⟩ | ⟨ty, rfl⟩ := fit_datatype hq hl
      · refine ⟨none, rfl, .skip fun w ws hs' hws => ?_⟩
        cases hs' with
        | con => simp [accepts]
        | conApp => cases hws
      · by_cases hcc : c = c'
        · subst hcc
          refine ⟨some [], by simp [sKCell, DCon.same_refl], .const fun w ws hs hws => ?_⟩
          cases hs with
          | con => simp [accepts, DCon.same_refl]
          | conApp => cases hws
        · have hne := not_same hl hc hc' hcc
          refine ⟨none, by simp [sKCell, hne], .skip fun w ws hs _ => ?_⟩
          cases hs with
          | con => simp [accepts, DCon.same_comm c', hne]
          | conApp => simp [accepts]
      · exact ⟨some [], rfl, .wild_nil⟩
  refine ⟨p', ?_, hr⟩
  show Returns (fun _ => rowLoop "sK" (sKCell c) p) p'
  rw [heq]
  exact .pure p'

/-- A pattern of a literal's type. -/
theorem fit_lit {l : Literal} (hq : Fit K.data K.store q t) (ht : LitTy K.data l t) :
    (∃ l' ty, q = .constPat (.lConst l' ty) ∧ LitTy K.data l' t ∧ Stands K.store ty t) ∨ ∃ ty, q = .wildPat ty := by
  obtain ⟨tyc, rfl, hn, -⟩ := ht.con
  cases hq with
  | conPat hl => rw [hn] at hl; cases hl
  | dConst hl => rw [hn] at hl; cases hl
  | wildPat => exact .inr ⟨_, rfl⟩
  | lConst hlit hst => exact .inl ⟨_, _, rfl, hlit, hst⟩

theorem sL_rows {l : Literal} (hlit : LitTy K.data l t) (hst : Stands K.store ty t)
    (hp : MatFits K.data K.store p (t :: ts)) :
    ∃ p', Returns (fun n => sL K n l ty p) p' ∧ Rows (Cell K.data K.store (Splits (.lit l)) []) p p' := by
  refine rows_of _ _ hp fun q ps _ hq => ?_
  obtain ⟨l', ty', rfl, hlit', hst'⟩ | ⟨ty', rfl⟩ := fit_lit hq hlit
  · have hsame := same_true hst hst' hlit.atom
    by_cases hl : l = l'
    · subst hl
      refine ⟨some [], hsame.bind ?_, .const fun w ws hs _ => ?_⟩
      · simpa using Returns.pure _
      · cases hs
        simp [accepts]
    · refine ⟨none, hsame.bind ?_, .skip fun w ws hs _ => ?_⟩
      · simpa [hl] using Returns.pure _
      · cases hs
        simp [accepts, Ne.symm hl]
  · exact ⟨some [], .pure _, .wild_nil⟩

/-- A pattern of the unit type. -/
theorem fit_unit (hq : Fit K.data K.store q unitTy) :
    q = .tuplePat [] ∨ (∃ ty, q = .constPat (.lConst unitLit ty) ∧ Stands K.store ty unitTy) ∨ ∃ ty, q =
      .wildPat ty := by
  unfold unitTy at hq
  cases hq with
  | tuplePat hlen => exact .inl (by rw [List.length_eq_zero_iff.1 hlen])
  | wildPat => exact .inr (.inr ⟨_, rfl⟩)
  | lConst hlit _ =>
    obtain ⟨tyc, h, -⟩ := hlit.con
    cases h
  | unit hst => exact .inr (.inl ⟨_, rfl, hst⟩)

theorem sL_unit_rows (hst : Stands K.store ty unitTy) (hp : MatFits K.data K.store p (unitTy :: ts)) :
    ∃ p', Returns (fun n => sL K n unitLit ty p) p' ∧ Rows (Cell K.data K.store (Splits .tuple) []) p p' := by
  refine rows_of _ _ hp fun q ps _ hq => ?_
  obtain rfl | ⟨ty', rfl, hst'⟩ | ⟨ty', rfl⟩ := fit_unit hq
  · exact ⟨some [], (same_true hst (.refl _) .unit).bind (.pure _), .tuple .nil⟩
  · refine ⟨some [], (same_true hst hst' .unit).bind (.pure _), .const fun w ws hs hws => ?_⟩
    cases hs
    cases hws
    simp [accepts]
  · exact ⟨some [], .pure _, .wild_nil⟩

/-- The wildcards of the first column are annotated with a tuple type or a meta variable. -/
def TupleWilds (p : PatMat) : Prop :=
  ∀ ty ps, .wildPat ty :: ps ∈ p → (∃ tys, ty = .tupleTy tys) ∨ ∃ mv, ty = .metaTy mv

/-- The first column has no unit literals. -/
def NoUnitLit (p : PatMat) : Prop := ∀ k ps, .constPat k :: ps ∉ p

theorem fit_tuple (hq : Fit K.data K.store q (.tupleTy ts')) (hne : ∀ k, q ≠ .constPat k) :
    (∃ ps, q = .tuplePat ps ∧ VecFits K.data K.store ps ts') ∨ ∃ ty, q = .wildPat ty ∧ Annot K.store ty
      (.tupleTy ts') := by
  cases hq with
  | tuplePat hlen hall => exact .inl ⟨_, rfl, List.forall₂_iff_zip.2 ⟨hlen, fun hq => hall _ hq⟩⟩
  | wildPat ha => exact .inr ⟨_, rfl, ha⟩
  | lConst | unit => exact absurd rfl (hne _)

theorem Cell.wilds {P : Value → List Value → Prop} {tys : List Ty} (h : List.Forall₂ (Annot K.store) tys ts') :
    Cell K.data K.store P ts' (.wildPat ty) (some (tys.map .wildPat)) :=
  .wild (wilds_fit h) (fun _ hws => matches_wilds (h.length_eq.trans hws.length_eq.symm)) (vecWeight_wilds tys)

theorem sT_rows {tys : List Ty} (hty : List.Forall₂ (Annot K.store) tys ts') (hw : TupleWilds p) (hu : NoUnitLit p)
    (hp : MatFits K.data K.store p (.tupleTy ts' :: ts)) :
    ∃ p', sT tys p = .ok p' ∧ Rows (Cell K.data K.store (Splits .tuple) ts') p p' := by
  refine pureRows_of _ _ hp fun q ps hmem hq => ?_
  obtain ⟨rs, rfl, hrs⟩ | ⟨ty, rfl, ha⟩ := fit_tuple hq (by rintro k rfl; exact hu k ps hmem)
  · exact ⟨some rs, by simp [sTCell, hrs.length_eq, hty.length_eq], .tuple hrs⟩
  · obtain ⟨tys', rfl⟩ | ⟨mv, rfl⟩ := hw ty ps hmem
    · obtain ⟨_, heq, hall⟩ := ha.tuple_inv
      cases heq
      exact ⟨_, by simp [sTCell, hall.length_eq, hty.length_eq], .wilds hty⟩
    · exact ⟨_, rfl, .wilds hty⟩

/-- The wildcards of the first column are annotated with a tuple type or an instance that is one. -/
def BreakWilds (st : Typechecker.Store) (p : PatMat) : Prop :=
  ∀ ty ps, .wildPat ty :: ps ∈ p →
    ∃ tys, ty = .tupleTy tys ∨ ∃ mv, ty = .metaTy mv ∧ st.info mv = .inst (.tupleTy tys)

theorem breakTups_rows (hw : BreakWilds K.store p) (hu : NoUnitLit p)
    (hp : MatFits K.data K.store p (.tupleTy ts' :: ts)) :
    ∃ p', breakTups K.store p = .ok p' ∧ Rows (Cell K.data K.store (Splits .tuple) ts') p p' := by
  refine pureRows_of _ _ hp fun q ps hmem hq => ?_
  obtain ⟨rs, rfl, hrs⟩ | ⟨ty, rfl, ha⟩ := fit_tuple hq (by rintro k rfl; exact hu k ps hmem)
  · exact ⟨some rs, rfl, .tuple hrs⟩
  · obtain ⟨tys, rfl | ⟨mv, rfl, hmv⟩⟩ := hw ty ps hmem
    · obtain ⟨_, heq, hall⟩ := ha.tuple_inv
      cases heq
      exact ⟨_, rfl, .wilds hall⟩
    · cases ha with
      | metaTy ha =>
        obtain ⟨_, heq, hall⟩ := (ha _ hmv).tuple_inv
        cases heq
        exact ⟨some (tys.map .wildPat), by simp [breakCell, hmv], .wilds hall⟩

theorem d_rows (hp : MatFits K.data K.store p (t :: ts)) :
    ∃ p', d p = .ok p' ∧ Rows (DefaultCell K.data K.store p) p p' := by
  refine pureRows_of _ _ hp fun q ps hmem hq => ?_
  have hskip (h : weight q ≠ 0) : DefaultCell K.data K.store p q none :=
    ⟨.skip fun w ws hr _ => hr.2 q ps hmem h, fun h => absurd rfl h⟩
  cases hq with
  | wildPat => exact ⟨some [], rfl, .wild_nil, fun _ w => accepts_wildPat _ w⟩
  | conPat | tuplePat | dConst | lConst | unit => exact ⟨none, rfl, hskip (by simp [weight])⟩

end

end Manticore.Match.MatchCheck
