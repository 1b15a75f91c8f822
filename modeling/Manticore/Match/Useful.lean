/-
  Manticore.Match.Useful — what the questions of match-check.sml mean: pattern vectors,
  the value vectors that they match, and the specialisation of a matrix by a head.

  `Useful` and `Exhaustive` are the meanings of `u` and `i`. `Fit` types a pattern without
  variables; an annotation of a wildcard may be less instantiated than the type of its
  column (`Annot`). `Rows` relates a matrix to the result of a row loop on it, and
  `Cell` says what a loop may do to a cell so that the matrix is specialised by a head.
-/

import Manticore.Match.Matrix
import Manticore.Match.MatchCheck

namespace Manticore.Match.MatchCheck

open Fuel
open Typechecker (Ty TyVar TyCon Meta Failure unitTy stringTyc)

variable {ws : List Value}

/-! ## Matching -/

mutual

/-- Does the pattern match the value? The unit literal and the empty tuple are one value. -/
def accepts : Pat → Value → Bool
  | .varPat _, _ => true
  | .wildPat _, _ => true
  | .conPat c _ p, .conApp c' v => c.same c' && accepts p v
  | .tuplePat ps, .tuple vs => acceptsAll ps vs
  | .constPat (.dConst c _), .con c' => c.same c'
  | .constPat (.lConst l _), .lit l' => decide (l = l')
  | .constPat (.lConst l _), .tuple [] => decide (l = unitLit)
  | _, _ => false

def acceptsAll : List Pat → List Value → Bool
  | [], [] => true
  | p :: ps, v :: vs => accepts p v && acceptsAll ps vs
  | _, _ => false

end

/-- The pattern vector matches the value vector. -/
abbrev Matches (v : List Pat) (vals : List Value) : Prop := List.Forall₂ (fun p w => accepts p w = true) v vals

abbrev Typed (D : Data) (vals : List Value) (ts : List Ty) : Prop := List.Forall₂ (HasTy D) vals ts

/-- Some row matches the values. -/
def Covered (p : PatMat) (vals : List Value) : Prop := ∃ row ∈ p, Matches row vals

/-- Some values are matched by `v` and by no row of `p`. -/
def Useful (D : Data) (p : PatMat) (v : List Pat) (ts : List Ty) : Prop :=
  ∃ vals, Typed D vals ts ∧ Matches v vals ∧ ¬ Covered p vals

/-- Every value vector is matched by a row of `p`. -/
def Exhaustive (D : Data) (p : PatMat) (ts : List Ty) : Prop := ∀ vals, Typed D vals ts → Covered p vals

variable {ps : List Pat} {w : Value}

attribute [local simp] accepts

theorem acceptsAll_iff {vs : List Value} : acceptsAll ps vs = true ↔ Matches ps vs := by
  induction ps generalizing vs with
  | nil => cases vs <;> simp [acceptsAll]
  | cons p ps ih => cases vs <;> simp [acceptsAll, ih]

@[simp] theorem accepts_wildPat (ty : Ty) (w : Value) : accepts (.wildPat ty) w = true := by simp [accepts]

theorem accepts_conPat {c : DCon} {tys : List Ty} {p : Pat} :
    accepts (.conPat c tys p) w = true ↔ ∃ c' x, w = .conApp c' x ∧ c.same c' = true ∧ accepts p x = true := by
  cases w <;> simp [accepts]

theorem accepts_tuplePat : accepts (.tuplePat ps) w = true ↔ ∃ ws, w = .tuple ws ∧ Matches ps ws := by
  cases w <;> simp [accepts, acceptsAll_iff]

theorem accepts_dConst {c : DCon} {tys : List Ty} :
    accepts (.constPat (.dConst c tys)) w = true ↔ ∃ c', w = .con c' ∧ c.same c' = true := by
  cases w <;> simp [accepts]

theorem accepts_lConst {l : Literal} {ty : Ty} :
    accepts (.constPat (.lConst l ty)) w = true ↔ w = .lit l ∨ (w = .tuple [] ∧ l = unitLit) := by
  cases w with
  | tuple vs => cases vs <;> simp [accepts]
  | lit l' => simp [accepts, eq_comm]
  | _ => simp [accepts]

theorem matches_wilds {ts : List Ty} (h : ts.length = ws.length) : Matches (ts.map .wildPat) ws := by
  induction ts generalizing ws with
  | nil =>
    cases ws with
    | nil => exact .nil
    | cons => cases h
  | cons t ts ih =>
    cases ws with
    | nil => cases h
    | cons w ws => exact .cons (accepts_wildPat t w) (ih (Nat.succ.inj h))

theorem matches_cons {p : Pat} :
    Matches (p :: ps) (w :: ws) ↔ accepts p w = true ∧ Matches ps ws :=
  List.forall₂_cons

theorem matches_append {qs : List Pat} {vs : List Value} (h : ps.length = vs.length) :
    Matches (ps ++ qs) (vs ++ ws) ↔ Matches ps vs ∧ Matches qs ws :=
  forall₂_append h

/-! ## Typing -/

/-- A type reaches its head-normal form through instantiated meta variables. -/
inductive Stands (st : Typechecker.Store) : Ty → Ty → Prop
  | refl (t : Ty) : Stands st t t
  | inst {mv : Meta} {ty t : Ty} : st.info mv = .inst ty → Stands st ty t → Stands st (.metaTy mv) t

/-- An annotation that is a tuple type is one of the right length, all the way down. -/
inductive Annot (st : Typechecker.Store) : Ty → Ty → Prop
  | tupleTy {tys ts : List Ty} : tys.length = ts.length → (∀ q ∈ tys.zip ts, Annot st q.1 q.2) →
      Annot st (.tupleTy tys) (.tupleTy ts)
  | metaTy {mv : Meta} {t : Ty} : (∀ ty, st.info mv = .inst ty → Annot st ty t) → Annot st (.metaTy mv) t
  | varTy (tv : TyVar) (t : Ty) : Annot st (.varTy tv) t
  | conTy (args : List Ty) (tyc : TyCon) (t : Ty) : Annot st (.conTy args tyc) t
  | funTy (ty1 ty2 t : Ty) : Annot st (.funTy ty1 ty2) t
  | errorTy (t : Ty) : Annot st .errorTy t

/-- The literals of a type. -/
inductive LitTy (D : Data) : Literal → Ty → Prop
  | int (n : Int) {tyc : TyCon} : tyc ∈ Typechecker.intClass → D.cons tyc = none → LitTy D (.int n) (.conTy [] tyc)
  | float (f : FloatLit) {tyc : TyCon} : tyc ∈ Typechecker.floatClass → D.cons tyc = none →
      LitTy D (.float f) (.conTy [] tyc)
  | char (c : Nat) {tyc : TyCon} : tyc ∈ [Typechecker.charTyc, Typechecker.runeTyc] → D.cons tyc = none →
      LitTy D (.char c) (.conTy [] tyc)
  | string (s : String) : D.cons stringTyc = none → LitTy D (.string s) (.conTy [] stringTyc)

/-- A pattern without variables and a type. -/
inductive Fit (D : Data) (st : Typechecker.Store) : Pat → Ty → Prop
  | conPat {c : DCon} {tys : List Ty} {p : Pat} {args : List Ty} {tyc : TyCon} {l : List DCon} {t : Ty} :
      D.cons tyc = some l → c ∈ l → D.argTypeOf c args = some t → Fit D st p t →
      Fit D st (.conPat c tys p) (.conTy args tyc)
  | tuplePat {ps : List Pat} {ts : List Ty} : ps.length = ts.length → (∀ q ∈ ps.zip ts, Fit D st q.1 q.2) →
      Fit D st (.tuplePat ps) (.tupleTy ts)
  | wildPat {ty t : Ty} : Annot st ty t → Fit D st (.wildPat ty) t
  | dConst {c : DCon} {tys args : List Ty} {tyc : TyCon} {l : List DCon} : D.cons tyc = some l → c ∈ l →
      D.argTypeOf c args = none → Fit D st (.constPat (.dConst c tys)) (.conTy args tyc)
  | lConst {l : Literal} {ty t : Ty} : LitTy D l t → Stands st ty t → Fit D st (.constPat (.lConst l ty)) t
  | unit {ty : Ty} : Stands st ty unitTy → Fit D st (.constPat (.lConst unitLit ty)) unitTy

abbrev VecFits (D : Data) (st : Typechecker.Store) (v : List Pat) (ts : List Ty) : Prop := List.Forall₂ (Fit D st) v ts

/-- A matrix whose columns have the types. -/
def MatFits (D : Data) (st : Typechecker.Store) (p : PatMat) (ts : List Ty) : Prop := ∀ row ∈ p, VecFits D st row ts

variable {D : Data} {st : Typechecker.Store}

theorem LitTy.flat {l : Literal} {t : Ty} (h : LitTy D l t) : D.Flat t := by
  cases h <;> assumption

theorem LitTy.con {l : Literal} {t : Ty} (h : LitTy D l t) :
    ∃ tyc, t = .conTy [] tyc ∧ D.cons tyc = none ∧ tyc ≠ boolTyc := by
  cases h with
  | int _ hc hn | float _ hc hn | char _ hc hn => exact ⟨_, rfl, hn, by rintro rfl; exact absurd hc (by decide)⟩
  | string s hn => exact ⟨_, rfl, hn, by decide⟩

theorem LitTy.ne_unit {l : Literal} {t : Ty} (h : LitTy D l t) : l ≠ unitLit := by
  cases h <;> simp [unitLit]

/-! ## Heads -/

inductive Head where
  | con (c : DCon)
  | lit (l : Literal)
  | tuple

/-- The value has the head and these parts. -/
inductive Splits : Head → Value → List Value → Prop
  | con (c : DCon) : Splits (.con c) (.con c) []
  | conApp (c : DCon) (x : Value) : Splits (.con c) (.conApp c x) [x]
  | lit (l : Literal) : Splits (.lit l) (.lit l) []
  | tuple (ws : List Value) : Splits .tuple (.tuple ws) ws

/-- A head of the values of a type, and the types of the parts. -/
inductive HeadTy (D : Data) : Ty → Head → List Ty → Prop
  | con {c : DCon} {args : List Ty} {tyc : TyCon} {l : List DCon} : D.cons tyc = some l → c ∈ l →
      D.argTypeOf c args = none → HeadTy D (.conTy args tyc) (.con c) []
  | conApp {c : DCon} {args : List Ty} {tyc : TyCon} {l : List DCon} {t : Ty} : D.cons tyc = some l → c ∈ l →
      D.argTypeOf c args = some t → HeadTy D (.conTy args tyc) (.con c) [t]
  | lit {l : Literal} {t : Ty} : LitTy D l t → HeadTy D t (.lit l) []
  | tuple (ts : List Ty) : HeadTy D (.tupleTy ts) .tuple ts

theorem HeadTy.typed {t : Ty} {h : Head} {ts' : List Ty} (hh : HeadTy D t h ts') {w : Value}
    (hs : Splits h w ws) : HasTy D w t ↔ Typed D ws ts' := by
  cases hh with
  | con hl hc hn =>
    cases hs with
    | con => exact ⟨fun _ => .nil, fun _ => .con hl hc hn⟩
    | conApp c x =>
      refine ⟨fun hw => ?_, fun hw => by cases hw⟩
      cases hw with
      | conApp hl' hc' hn' => rw [hn] at hn'; cases hn'
      | flat hf => exact absurd hl (hf.not_datatype · )
  | conApp hl hc hs' =>
    cases hs with
    | con =>
      refine ⟨fun hw => ?_, fun hw => by cases hw⟩
      cases hw with
      | con hl' hc' hn' => rw [hs'] at hn'; cases hn'
      | flat hf => exact absurd hl (hf.not_datatype · )
    | conApp c x =>
      refine ⟨fun hw => ?_, fun hw => ?_⟩
      · cases hw with
        | conApp hl' hc' hn' hx =>
          rw [hs'] at hn'
          cases hn'
          exact .cons hx .nil
        | flat hf => exact absurd hl (hf.not_datatype · )
      · cases hw with
        | cons hx hnil => exact .conApp hl hc hs' hx
  | lit hl =>
    cases hs
    exact ⟨fun _ => .nil, fun _ => .flat hl.flat⟩
  | tuple ts =>
    cases hs
    rw [show Typed D ws ts' ↔ _ from List.forall₂_iff_zip]
    constructor
    · rintro (_ | _ | ⟨hlen, hall⟩ | hf)
      · exact ⟨hlen, fun hm => hall _ hm⟩
      · exact hf.elim
    · exact fun ⟨hlen, hall⟩ => .tuple hlen fun q hq => hall hq

/-! ## Row loops -/

/-- What a row loop answers: rows are left out, or their first cells make way. -/
inductive Rows (R : Pat → Option (List Pat) → Prop) : PatMat → PatMat → Prop
  | nil : Rows R [] []
  | keep {q : Pat} {qs ps : List Pat} {p p' : PatMat} : R q (some qs) → Rows R p p' → Rows R ((q :: ps) :: p) ((qs ++ ps) :: p')
  | skip {q : Pat} {ps : List Pat} {p p' : PatMat} : R q none → Rows R p p' → Rows R ((q :: ps) :: p) p'

theorem rowLoop_returns {R : Pat → Option (List Pat) → Prop} {whence : String}
    {cell : Nat → Pat → Except Failure (Option (List Pat))} {p : PatMat}
    (h : ∀ row ∈ p, ∃ q ps, row = q :: ps ∧ ∃ o, Returns (fun n => cell n q) o ∧ R q o) :
    ∃ p', Returns (fun n => rowLoop whence (cell n) p) p' ∧ Rows R p p' := by
  induction p with
  | nil => exact ⟨[], .pure _, .nil⟩
  | cons row p ih =>
    obtain ⟨p', hret', hrows⟩ := ih fun row hrow => h row (List.mem_cons_of_mem _ hrow)
    obtain ⟨q, ps, rfl, o, hret, hR⟩ := h row List.mem_cons_self
    cases o with
    | none => exact ⟨p', hret.bind hret', .skip hR hrows⟩
    | some qs => exact ⟨(qs ++ ps) :: p', hret.bind (hret'.bind (.pure _)), .keep hR hrows⟩

mutual

/-- The constructors of a pattern; wildcards weigh nothing. -/
def weight : Pat → Nat
  | .conPat _ _ p => weight p + 1
  | .tuplePat ps => vecWeight ps + 1
  | .varPat _ => 0
  | .wildPat _ => 0
  | .constPat _ => 1

def vecWeight : List Pat → Nat
  | [] => 0
  | p :: ps => weight p + vecWeight ps

end

def matWeight (p : PatMat) : Nat := (p.map vecWeight).sum

theorem vecWeight_append (ps qs : List Pat) : vecWeight (ps ++ qs) = vecWeight ps + vecWeight qs := by
  induction ps with
  | nil => simp [vecWeight]
  | cons p ps ih => simp only [List.cons_append, vecWeight, ih]; omega

theorem vecWeight_wilds (ts : List Ty) : vecWeight (ts.map .wildPat) = 0 := by
  induction ts with
  | nil => rfl
  | cons t ts ih => simp [vecWeight, weight, ih]

/-- What a loop may do to a cell so that the values related by `P` to their parts agree. -/
structure Cell (D : Data) (st : Typechecker.Store) (P : Value → List Value → Prop) (ts' : List Ty) (q : Pat)
    (o : Option (List Pat)) : Prop where
  fits : ∀ qs, o = some qs → VecFits D st qs ts'
  agrees : ∀ w ws, P w ws → Typed D ws ts' → (accepts q w = true ↔ ∃ qs, o = some qs ∧ Matches qs ws)
  smaller : ∀ qs, o = some qs → vecWeight qs ≤ weight q ∧ (weight q ≠ 0 → vecWeight qs < weight q)

section

variable {P : Value → List Value → Prop} {t : Ty} {ts' ts : List Ty} {p p' : PatMat}

theorem Rows.fits (h : Rows (Cell D st P ts') p p') (hp : MatFits D st p (t :: ts)) : MatFits D st p' (ts' ++ ts) := by
  induction h with
  | nil => exact fun row hrow => nomatch hrow
  | keep hc _ ih =>
    obtain ⟨hrow, hp⟩ := List.forall_mem_cons.1 hp
    cases hrow with
    | cons _ hps => exact List.forall_mem_cons.2 ⟨List.rel_append (hc.fits _ rfl) hps, ih hp⟩
  | skip _ _ ih => exact ih (List.forall_mem_cons.1 hp).2

theorem covered_cons {row : List Pat} {vals : List Value} :
    Covered (row :: p) vals ↔ Matches row vals ∨ Covered p vals := by
  simp [Covered]

/-- The values that have the head are covered when their parts are. -/
theorem Rows.covered (h : Rows (Cell D st P ts') p p') {w : Value} {vs : List Value} (hP : P w ws)
    (hws : Typed D ws ts') : Covered p (w :: vs) ↔ Covered p' (ws ++ vs) := by
  induction h with
  | nil => simp [Covered]
  | keep hc _ ih =>
    have hlen := ((hc.fits _ rfl).length_eq).trans hws.length_eq.symm
    rw [covered_cons, covered_cons, ih, matches_cons, matches_append hlen, hc.agrees w ws hP hws]
    simp
  | skip hc _ ih =>
    rw [covered_cons, ih, matches_cons, hc.agrees w ws hP hws]
    simp

theorem Rows.weight_le (h : Rows (Cell D st P ts') p p') : matWeight p' ≤ matWeight p := by
  induction h with
  | nil => exact Nat.le_refl _
  | keep hc _ ih =>
    have := (hc.smaller _ rfl).1
    simp only [matWeight, List.map_cons, List.sum_cons, vecWeight, vecWeight_append] at ih ⊢
    omega
  | skip _ _ ih =>
    simp only [matWeight, List.map_cons, List.sum_cons] at ih ⊢
    omega

/-- A cell with a constructor makes the matrix smaller. -/
theorem Rows.weight_lt (h : Rows (Cell D st P ts') p p') {q : Pat} {ps : List Pat} (hmem : q :: ps ∈ p)
    (hw : weight q ≠ 0) : matWeight p' < matWeight p := by
  induction h with
  | nil => cases hmem
  | keep hc hr ih =>
    have hle := hr.weight_le
    have hcell := hc.smaller _ rfl
    grind [matWeight, vecWeight, vecWeight_append]
  | skip _ hr ih =>
    have hle := hr.weight_le
    grind [matWeight, vecWeight]

end

/-! ## Usefulness by heads -/

theorem HeadTy.build {t : Ty} {h : Head} {ts' : List Ty} (hh : HeadTy D t h ts') (hws : Typed D ws ts') :
    ∃ w, Splits h w ws := by
  cases hh with
  | con =>
    cases hws
    exact ⟨_, .con _⟩
  | conApp =>
    obtain _ | ⟨_, hnil⟩ := hws
    cases hnil
    exact ⟨_, .conApp _ _⟩
  | lit =>
    cases hws
    exact ⟨_, .lit _⟩
  | tuple => exact ⟨_, .tuple _⟩

/-- Usefulness by values whose first component has the head. -/
def UsefulAt (D : Data) (h : Head) (p : PatMat) (v : List Pat) (ts : List Ty) : Prop :=
  ∃ w ws vs, Splits h w ws ∧ Typed D (w :: vs) ts ∧ Matches v (w :: vs) ∧ ¬ Covered p (w :: vs)

/-- The values that no cell of the first column inspects, with no parts. -/
def Rest (p : PatMat) (w : Value) (ws : List Value) : Prop :=
  ws = [] ∧ ∀ q ps, q :: ps ∈ p → weight q ≠ 0 → accepts q w = false

section

variable {t : Ty} {h : Head} {ts' ts : List Ty} {p p' : PatMat} {q : Pat} {qs : List Pat}

theorem usefulAt_iff (hh : HeadTy D t h ts') (hr : Rows (Cell D st (Splits h) ts') p p') {qs' : List Pat}
    (hq : Cell D st (Splits h) ts' q (some qs')) :
    UsefulAt D h p (q :: qs) (t :: ts) ↔ Useful D p' (qs' ++ qs) (ts' ++ ts) := by
  have hlen := (hq.fits _ rfl).length_eq
  constructor
  · rintro ⟨w, ws, vs, hs, htyped, hm, hc⟩
    obtain ⟨hw, hvs⟩ := List.forall₂_cons.1 htyped
    have hws := (hh.typed hs).1 hw
    obtain ⟨hqw, hqs⟩ := matches_cons.1 hm
    obtain ⟨_, heq, hm'⟩ := (hq.agrees w ws hs hws).1 hqw
    cases heq
    exact ⟨ws ++ vs, List.rel_append hws hvs, (matches_append (hlen.trans hws.length_eq.symm)).2 ⟨hm', hqs⟩,
      fun hcov => hc ((hr.covered hs hws).2 hcov)⟩
  · rintro ⟨vals, htyped, hm, hc⟩
    obtain ⟨ws, vs, hws, hvs, rfl⟩ : ∃ ws vs, Typed D ws ts' ∧ Typed D vs ts ∧ vals = ws ++ vs :=
      ⟨_, _, List.forall₂_take_append vals ts' ts htyped, List.forall₂_drop_append vals ts' ts htyped,
        (List.take_append_drop _ _).symm⟩
    obtain ⟨w, hs⟩ := hh.build hws
    obtain ⟨hm', hqs⟩ := (matches_append (hlen.trans hws.length_eq.symm)).1 hm
    exact ⟨w, ws, vs, hs, .cons ((hh.typed hs).2 hws) hvs,
      matches_cons.2 ⟨(hq.agrees w ws hs hws).2 ⟨_, rfl, hm'⟩, hqs⟩, fun hcov => hc ((hr.covered hs hws).1 hcov)⟩

/-- Every value of the first column has one of the heads. -/
theorem useful_iff_heads {H : List Head}
    (hall : ∀ w, HasTy D w t → accepts q w = true → ∃ h ∈ H, ∃ ws, Splits h w ws) :
    Useful D p (q :: qs) (t :: ts) ↔ ∃ h ∈ H, UsefulAt D h p (q :: qs) (t :: ts) := by
  constructor
  · rintro ⟨vals, htyped, hm, hc⟩
    cases htyped with
    | @cons w _ vs _ hw hvs =>
      obtain ⟨h, hmem, ws, hs⟩ := hall w hw (matches_cons.1 hm).1
      exact ⟨h, hmem, w, ws, vs, hs, .cons hw hvs, hm, hc⟩
  · rintro ⟨h, _, w, _, vs, _, htyped, hm, hc⟩
    exact ⟨w :: vs, htyped, hm, hc⟩

/-- Every value that `q` matches has the head. -/
theorem useful_head (hh : HeadTy D t h ts') (hr : Rows (Cell D st (Splits h) ts') p p') {qs' : List Pat}
    (hq : Cell D st (Splits h) ts' q (some qs')) (hall : ∀ w, HasTy D w t → accepts q w = true → ∃ ws, Splits h w ws) :
    Useful D p (q :: qs) (t :: ts) ↔ Useful D p' (qs' ++ qs) (ts' ++ ts) := by
  have hheads : Useful D p (q :: qs) (t :: ts) ↔ ∃ h' ∈ [h], UsefulAt D h' p (q :: qs) (t :: ts) :=
    useful_iff_heads fun w hw hm => ⟨h, List.mem_singleton_self h, hall w hw hm⟩
  rw [hheads, ← usefulAt_iff hh hr hq]
  simp

/-- What the loop of the default matrix does to a cell. -/
structure DefaultCell (D : Data) (st : Typechecker.Store) (p : PatMat) (q : Pat) (o : Option (List Pat)) : Prop where
  cell : Cell D st (Rest p) [] q o
  all : o ≠ none → ∀ w, accepts q w = true

theorem Rows.mono {R R' : Pat → Option (List Pat) → Prop} (h : Rows R p p') (hR : ∀ q o, R q o → R' q o) : Rows R' p p' := by
  induction h with
  | nil => exact .nil
  | keep hc _ ih => exact .keep (hR _ _ hc) ih
  | skip hc _ ih => exact .skip (hR _ _ hc) ih

theorem Rows.default (h : Rows (DefaultCell D st p) p p') : Rows (Cell D st (Rest p) []) p p' :=
  h.mono fun _ _ hc => hc.cell

/-- The rows of the default matrix match whatever comes first. -/
theorem covered_of_default {p₀ : PatMat} (h : Rows (DefaultCell D st p₀) p p') {vs : List Value} (w : Value)
    (hc : Covered p' vs) : Covered p (w :: vs) := by
  induction h with
  | nil =>
    obtain ⟨_, hmem, _⟩ := hc
    cases hmem
  | keep hcell _ ih =>
    have hnil := List.length_eq_zero_iff.1 (hcell.cell.fits _ rfl).length_eq
    subst hnil
    obtain hm | hc := covered_cons.1 hc
    · exact covered_cons.2 (.inl (matches_cons.2 ⟨hcell.all (by simp) w, hm⟩))
    · exact covered_cons.2 (.inr (ih hc))
  | skip _ _ ih => exact covered_cons.2 (.inr (ih hc))

theorem useful_default (h : Rows (DefaultCell D st p) p p') (hq : ∀ w, accepts q w = true)
    (hrest : ∃ w, HasTy D w t ∧ Rest p w []) : Useful D p (q :: qs) (t :: ts) ↔ Useful D p' qs ts := by
  constructor
  · rintro ⟨vals, htyped, hm, hc⟩
    cases htyped with
    | @cons w _ vs _ hw hvs =>
      exact ⟨vs, hvs, (matches_cons.1 hm).2, fun hcov => hc (covered_of_default h w hcov)⟩
  · rintro ⟨vs, hvs, hm, hc⟩
    obtain ⟨w, hw, hrest⟩ := hrest
    exact ⟨w :: vs, .cons hw hvs, matches_cons.2 ⟨hq w, hm⟩, fun hcov => hc ((h.default.covered hrest .nil).1 hcov)⟩

end

end Manticore.Match.MatchCheck
