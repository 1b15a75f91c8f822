/-
  Manticore.Match.Usefulness — `u` and `redundant` of match-check.sml.

  `USub` relates a question to those that `u` asks in its turn and `UNode` is what a question
  must be like for `u` to treat its first column as what it is; `Clear` says so of every
  question that comes up. `u_returns` is proved by one step (`u_step`) and induction on the
  constructors of the matrix, then on the size of the vector.
-/

import Manticore.Match.Columns
import Manticore.Match.Rules

namespace Manticore.Match.MatchCheck

open Fuel
open Typechecker (Ty unitTy)

/-! ## Questions -/

/-- The annotation is not one that `u` takes apart. -/
def PlainWild (ty : Ty) : Prop := ∀ t ts, ty ≠ .tupleTy (t :: ts)

/-- The wildcards of a tuple column say so. -/
def UNode (K : Context) (p : PatMat) : List Pat → Prop
  | .tuplePat _ :: _ => TupleWilds p ∧ NoUnitLit p
  | .wildPat (.tupleTy (_ :: _)) :: _ => BreakWilds K.store p
  | .wildPat _ :: _ => NoTuple p
  | _ => True

/-- The questions that `u` reduces a question to. -/
inductive USub (K : Context) : PatMat × List Pat → PatMat × List Pat → Prop
  | conPat {c : DCon} {tys : List Ty} {r : Pat} {qs : List Pat} {p p' : PatMat} : s c p = .ok p' →
      USub K (p, .conPat c tys r :: qs) (p', r :: qs)
  | constPat {k : Const} {qs : List Pat} {p p' : PatMat} : Returns (fun n => sK K n k p) p' →
      USub K (p, .constPat k :: qs) (p', qs)
  | tuplePat {rs qs : List Pat} {p p' : PatMat} : sT (typeOfPats K rs) p = .ok p' →
      USub K (p, .tuplePat rs :: qs) (p', rs ++ qs)
  | tupleTy {t : Ty} {ts : List Ty} {qs : List Pat} {p p' : PatMat} : breakTups K.store p = .ok p' →
      USub K (p, .wildPat (.tupleTy (t :: ts)) :: qs) (p', (t :: ts).map .wildPat ++ qs)
  | lit {ty ty' : Ty} {sigma : List Literal} {l : Literal} {qs : List Pat} {p p' : PatMat} : PlainWild ty →
      Returns (fun n => firstColLits K n none [] p) (ty', sigma) → Returns (fun n => completeLits K n ty' sigma) true →
      l ∈ sigma → Returns (fun n => sL K n l ty' p) p' → USub K (p, .wildPat ty :: qs) (p', qs)
  | con {ty : Ty} {sigma : List DCon} {c : DCon} {qs : List Pat} {p p' : PatMat} : PlainWild ty →
      firstColContainsLits p = false → firstColCons [] p = .ok sigma → completeCons K.data sigma = .ok true →
      c ∈ sigma → s c p = .ok p' → USub K (p, .wildPat ty :: qs) (p', conWilds c ++ qs)
  | litDefault {ty ty' : Ty} {sigma : List Literal} {qs : List Pat} {p p' : PatMat} : PlainWild ty →
      Returns (fun n => firstColLits K n none [] p) (ty', sigma) → Returns (fun n => completeLits K n ty' sigma) false →
      d p = .ok p' → USub K (p, .wildPat ty :: qs) (p', qs)
  | conDefault {ty : Ty} {sigma : List DCon} {qs : List Pat} {p p' : PatMat} : PlainWild ty →
      firstColContainsLits p = false → firstColCons [] p = .ok sigma → completeCons K.data sigma = .ok false →
      d p = .ok p' → USub K (p, .wildPat ty :: qs) (p', qs)

/-- In no question that comes up does a wildcard hide a tuple column. -/
def Clear (K : Context) (p : PatMat) (v : List Pat) : Prop :=
  ∀ q, Relation.ReflTransGen (USub K) (p, v) q → UNode K q.1 q.2

theorem Clear.node {K : Context} {p : PatMat} {v : List Pat} (h : Clear K p v) : UNode K p v := h (p, v) .refl

theorem Clear.sub {K : Context} {p p' : PatMat} {v v' : List Pat} (h : Clear K p v) (hs : USub K (p, v) (p', v')) :
    Clear K p' v' := fun q hq => h q (.head hs hq)

/-! ## Sizes -/

mutual

def tySize : Ty → Nat
  | .tupleTy tys => tySizes tys + 1
  | _ => 0

def tySizes : List Ty → Nat
  | [] => 0
  | ty :: tys => tySize ty + 1 + tySizes tys

end

mutual

def patSize : Pat → Nat
  | .conPat _ _ p => patSize p + 1
  | .tuplePat ps => vecSize ps + 1
  | .varPat _ => 1
  | .wildPat ty => tySize ty + 1
  | .constPat _ => 1

def vecSize : List Pat → Nat
  | [] => 0
  | p :: ps => patSize p + vecSize ps

end

theorem vecSize_append (ps qs : List Pat) : vecSize (ps ++ qs) = vecSize ps + vecSize qs := by
  induction ps with
  | nil => simp [vecSize]
  | cons p ps ih => simp only [List.cons_append, vecSize, ih]; omega

theorem vecSize_wilds (ts : List Ty) : vecSize (ts.map .wildPat) = tySizes ts := by
  induction ts with
  | nil => rfl
  | cons t ts ih => simp only [List.map_cons, vecSize, patSize, tySizes, ih]

theorem patSize_pos (q : Pat) : 0 < patSize q := by cases q <;> simp [patSize]

/-! ## One step -/

/-- `u` answers the question. -/
def Answers (K : Context) (p : PatMat) (v : List Pat) (ts : List Ty) : Prop :=
  ∃ b, Returns (fun n => u K n p v) b ∧ (b = true ↔ Useful K.data p v ts)

/-- Every type has a value. -/
def AllInhabited (D : Data) : Prop := ∀ t, ∃ w, HasTy D w t

section

variable {K : Context}

theorem Stands.annot {st : Typechecker.Store} {ty t t' : Ty} (h : Stands st ty t) (ht : Annot st t t') : Annot st ty t' := by
  induction h with
  | refl => exact ht
  | inst hmv _ ih =>
    refine .metaTy fun ty' hmv' => ?_
    rw [hmv] at hmv'
    cases hmv'
    exact ih ht

mutual

theorem typeOfPat_annot {q : Pat} {t : Ty} (h : Fit K.data K.store q t) : Annot K.store (typeOfPat K q) t := by
  cases h with
  | conPat =>
    rw [typeOfPat, resultTypeOf, inst, applySubst]
    exact .conTy _ _ _
  | tuplePat hlen hall =>
    rw [typeOfPat]
    have hps := typeOfPats_annot (List.forall₂_iff_zip.2 ⟨hlen, fun hq => hall _ hq⟩)
    obtain ⟨hlen', hall'⟩ := List.forall₂_iff_zip.1 hps
    exact .tupleTy hlen' fun q hq => hall' hq
  | wildPat ha => exact ha
  | dConst _ _ hn =>
    rw [Data.argTypeOf, Option.map_eq_none_iff] at hn
    rw [typeOfPat, typeOf, hn]
    simp only [resultTypeOf, inst, applySubst]
    exact .conTy _ _ _
  | lConst hlit hst =>
    obtain ⟨tyc, rfl, -⟩ := hlit.con
    exact hst.annot (.conTy _ _ _)
  | unit hst => exact hst.annot (.tupleTy rfl fun q hq => nomatch hq)

theorem typeOfPats_annot {qs : List Pat} {ts : List Ty} (h : VecFits K.data K.store qs ts) :
    List.Forall₂ (Annot K.store) (typeOfPats K qs) ts := by
  cases h with
  | nil => exact .nil
  | cons hq hqs => exact .cons (typeOfPat_annot hq) (typeOfPats_annot hqs)

end

theorem instances {ps : List Pat} {ts : List Ty} (hlen : ps.length = ts.length)
    (h : ∀ q ∈ ps.zip ts, ∃ w, HasTy K.data w q.2 ∧ accepts q.1 w = true) : ∃ ws, Typed K.data ws ts ∧ Matches ps ws := by
  induction ps generalizing ts with
  | nil =>
    cases ts with
    | nil => exact ⟨[], .nil, .nil⟩
    | cons => cases hlen
  | cons p ps ih =>
    cases ts with
    | nil => cases hlen
    | cons t ts =>
      obtain ⟨hp, hps⟩ := List.forall_mem_cons.1 h
      obtain ⟨w, hw, hm⟩ := hp
      obtain ⟨ws, hws, hms⟩ := ih (Nat.succ.inj hlen) hps
      exact ⟨w :: ws, .cons hw hws, .cons hm hms⟩

/-- Where every type has a value, so does every pattern. -/
theorem fit_instance (hin : AllInhabited K.data) {q : Pat} {t : Ty} (h : Fit K.data K.store q t) :
    ∃ w, HasTy K.data w t ∧ accepts q w = true := by
  induction h with
  | @conPat c _ _ _ _ _ _ hl hc hs _ ih =>
    obtain ⟨w, hw, hm⟩ := ih
    exact ⟨.conApp c w, .conApp hl hc hs hw, accepts_conPat.2 ⟨c, w, rfl, DCon.same_refl c, hm⟩⟩
  | @tuplePat ps ts hlen _ ih =>
    obtain ⟨ws, hws, hm⟩ := instances hlen ih
    exact ⟨.tuple ws, ((HeadTy.tuple ts).typed (.tuple ws)).2 hws, accepts_tuplePat.2 ⟨ws, rfl, hm⟩⟩
  | @wildPat ty t _ =>
    obtain ⟨w, hw⟩ := hin t
    exact ⟨w, hw, accepts_wildPat ty w⟩
  | @dConst c _ _ _ _ hl hc hn => exact ⟨.con c, .con hl hc hn, accepts_dConst.2 ⟨c, rfl, DCon.same_refl c⟩⟩
  | @lConst l _ _ hlit _ => exact ⟨.lit l, .flat hlit.flat, accepts_lConst.2 (.inl rfl)⟩
  | unit => exact ⟨.tuple [], .tuple rfl (fun q hq => nomatch hq), accepts_lConst.2 (.inr ⟨rfl, rfl⟩)⟩

theorem fits_instance (hin : AllInhabited K.data) {v : List Pat} {ts : List Ty} (h : VecFits K.data K.store v ts) :
    ∃ vals, Typed K.data vals ts ∧ Matches v vals := by
  induction h with
  | nil => exact ⟨[], .nil, .nil⟩
  | cons hq _ ih =>
    obtain ⟨w, hw, hm⟩ := fit_instance hin hq
    obtain ⟨ws, hws, hms⟩ := ih
    exact ⟨w :: ws, .cons hw hws, .cons hm hms⟩

/-! ## One step -/

/-- The answers to the questions below this one. -/
def Below (K : Context) (p : PatMat) (v : List Pat) : Prop :=
  ∀ p' v' ts', USub K (p, v) (p', v') → MatFits K.data K.store p' ts' → VecFits K.data K.store v' ts' →
    matWeight p' < matWeight p ∨ (matWeight p' ≤ matWeight p ∧ vecSize v' < vecSize v) → Answers K p' v' ts'
theorem head_inhabited (hin : AllInhabited K.data) {t : Ty} {h : Head} {ts' : List Ty} (hh : HeadTy K.data t h ts') :
    ∃ w ws, Splits h w ws ∧ HasTy K.data w t := by
  obtain ⟨ws, hws⟩ : ∃ ws, Typed K.data ws ts' := by
    clear hh
    induction ts' with
    | nil => exact ⟨[], .nil⟩
    | cons t ts ih =>
      obtain ⟨w, hw⟩ := hin t
      obtain ⟨ws, hws⟩ := ih
      exact ⟨w :: ws, .cons hw hws⟩
  obtain ⟨w, hs⟩ := hh.build hws
  exact ⟨w, ws, hs, (hh.typed hs).2 hws⟩

/-- A wildcard is shorter than what follows it. -/
theorem vecSize_tail (ty : Ty) (qs : List Pat) : vecSize qs < vecSize (.wildPat ty :: qs) := by
  have := patSize_pos (.wildPat ty)
  rw [vecSize]
  omega

section

variable {p : PatMat} {ty t : Ty} {qs : List Pat} {ts : List Ty}

/-- What `wild` answers for a wildcard and the vector after it. -/
def WildAnswers (K : Context) (p : PatMat) (ty : Ty) (qs : List Pat) (ts : List Ty) : Prop :=
  ∃ b, Returns (fun n => wild K n (u K n) p qs) b ∧ (b = true ↔ Useful K.data p (.wildPat ty :: qs) ts)

theorem firstColContainsLits_false (h : colLits p = []) : firstColContainsLits p = false := by
  rw [← Bool.not_eq_true, firstColContainsLits_iff]
  exact not_not.2 h

/-- A column of wildcards. -/
theorem wild_of_nothing (hin : AllInhabited K.data) (hty : PlainWild ty) (ht : NoTuple p) (hlits : colLits p = [])
    (hcs : colCons p = []) (hp : MatFits K.data K.store p (t :: ts)) (hqs : VecFits K.data K.store qs ts)
    (hb : Below K p (.wildPat ty :: qs)) : WildAnswers K p ty qs (t :: ts) := by
  have hno := firstColContainsLits_false hlits
  have hcons := firstColCons_eq (matFits_ne hp) []
  rw [hcs] at hcons
  obtain ⟨p', hd, hr⟩ := d_rows hp
  obtain ⟨w, hw⟩ := hin t
  have hrest : Rest p w [] := ⟨rfl, fun q ps hmem hq => by
    obtain ⟨ty, rfl⟩ := wild_of_bare hp hlits hcs ht hmem
    exact absurd rfl hq⟩
  obtain ⟨b, hret, hb'⟩ := hb p' qs ts (.conDefault hty hno hcons rfl hd) (hr.default.fits hp) hqs
    (.inr ⟨hr.default.weight_le, vecSize_tail ty qs⟩)
  refine ⟨b, ?_, by rw [hb', useful_default hr (accepts_wildPat ty) ⟨w, hw, hrest⟩]⟩
  simpa [wild, hno, hcons, completeCons, hd, ok_bind] using hret

/-- A column of constructors. -/
theorem wild_of_cons (hin : AllInhabited K.data) (hty : PlainWild ty) (hlits : colLits p = []) (hcs : colCons p ≠ [])
    (hp : MatFits K.data K.store p (t :: ts)) (hqs : VecFits K.data K.store qs ts)
    (hb : Below K p (.wildPat ty :: qs)) : WildAnswers K p ty qs (t :: ts) := by
  have hno := firstColContainsLits_false hlits
  have hcons := firstColCons_eq (matFits_ne hp) []
  obtain ⟨args, tyc, l, rfl, hl, hsub⟩ := datatype_of hp hcs
  obtain ⟨hset, hmem⟩ := foldl_addCon hl hsub ⟨by simp, .nil⟩
  obtain ⟨b, hcomp, hb'⟩ := completeCons_iff hl hset
  cases b with
  | true =>
    have hall := (hb'.1 rfl).2
    obtain ⟨q, ps, hq, hw⟩ := exists_weight_of_con hcs
    obtain ⟨b, hret, hiff⟩ := exists_returns
      (P := fun c => UsefulAt K.data (.con c) p (.wildPat ty :: qs) (.conTy args tyc :: ts))
      (f := fun n c => do u K n (← s c p) (conWilds c ++ qs)) fun c (hc : c ∈ (colCons p).foldl addCon []) => by
        have hcl := hset.sub c hc
        obtain ⟨ts', hh⟩ := headTy_con args hl hcl
        obtain ⟨p', hs, hr⟩ := s_rows hl hcl hh hp
        have hcell : Cell K.data K.store (Splits (.con c)) ts' (.wildPat ty) (some (conWilds c)) :=
          .wild (conWilds_fit hl hcl hh) (fun ws hws => matches_conWilds hl hcl hh hws) (vecWeight_conWilds c)
        obtain ⟨b, hret, hiff⟩ := hb p' _ _ (.con hty hno hcons hcomp hc hs) (hr.fits hp)
          (List.rel_append (conWilds_fit hl hcl hh) hqs) (.inl (hr.weight_lt hq hw))
        exact ⟨b, by simpa [hs, ok_bind] using hret, by rw [hiff, usefulAt_iff hh hr hcell]⟩
    refine ⟨b, ?_, ?_⟩
    · simpa [wild, hno, hcons, hcomp, ok_bind] using hret
    · rw [hiff, useful_iff_heads (H := ((colCons p).foldl addCon []).map .con) fun w hw _ => by
        grind [split_datatype]]
      simp
  | false =>
    have hmiss : ∃ c ∈ l, c ∉ colCons p := by
      have hne : (colCons p).foldl addCon [] ≠ [] := by
        obtain ⟨c, hc⟩ := List.exists_mem_of_ne_nil _ hcs
        exact List.ne_nil_of_mem ((hmem c).2 (.inr hc))
      by_contra hno
      simp_all
    obtain ⟨c, hc, hmiss⟩ := hmiss
    obtain ⟨p', hd, hr⟩ := d_rows hp
    obtain ⟨ts', hh⟩ := headTy_con args hl hc
    obtain ⟨w, ws, hs, hw⟩ := head_inhabited hin hh
    obtain ⟨b, hret, hiff⟩ := hb p' qs ts (.conDefault hty hno hcons hcomp hd) (hr.default.fits hp) hqs
      (.inr ⟨hr.default.weight_le, vecSize_tail ty qs⟩)
    refine ⟨b, ?_, by rw [hiff, useful_default hr (accepts_wildPat ty) ⟨w, hw, rest_of_con hl hp hc hmiss hs⟩]⟩
    simpa [wild, hno, hcons, hcomp, hd, ok_bind] using hret

/-- A column of literals or of units. -/
theorem wild_of_lits (hty : PlainWild ty) (hlits : colLits p ≠ []) (hp : MatFits K.data K.store p (t :: ts))
    (hqs : VecFits K.data K.store qs ts) (hb : Below K p (.wildPat ty :: qs)) : WildAnswers K p ty qs (t :: ts) := by
  have hyes := firstColContainsLits_iff.2 hlits
  have hcol := litCol_of hp hlits
  obtain ⟨ty', hcollits, hst⟩ := firstColLits_returns hp hcol none (by simp) (.inr hlits) []
  obtain ⟨l, hlit⟩ | rfl := hcol
  · have hcomp := completeLits_lit hlit hst ((colLits p).foldl litSetAdd [])
    obtain ⟨p', hd, hr⟩ := d_rows hp
    obtain ⟨b, hret, hiff⟩ := hb p' qs ts (.litDefault hty hcollits hcomp hd) (hr.default.fits hp) hqs
      (.inr ⟨hr.default.weight_le, vecSize_tail ty qs⟩)
    refine ⟨b, ?_, by rw [hiff, useful_default hr (accepts_wildPat ty) ⟨.other 0, .flat hlit.flat, rest_other hlit hp⟩]⟩
    simp only [wild, hyes, if_true, hd, ok_bind]
    exact hcollits.bind (hcomp.bind hret)
  · rw [foldl_unit (colLits_unit hp) (.inl rfl) (.inr hlits)] at hcollits
    have hcomp := completeLits_unit (K := K) hst
    obtain ⟨p', hs, hr⟩ := sL_unit_rows hst hp
    obtain ⟨b, hret, hiff⟩ := hb p' qs ts (.lit hty hcollits hcomp (by decide) hs) (hr.fits hp) hqs
      (.inr ⟨hr.weight_le, vecSize_tail ty qs⟩)
    have hcell : Cell K.data K.store (Splits .tuple) [] (.wildPat ty) (some []) := .wild_nil
    have hhead : Useful K.data p (.wildPat ty :: qs) (unitTy :: ts) ↔ Useful K.data p' ([] ++ qs) ([] ++ ts) :=
      useful_head (.tuple []) hr hcell fun w hw _ => split_tuple hw
    refine ⟨b, ?_, hiff.trans hhead.symm⟩
    simp only [wild, hyes, if_true]
    refine hcollits.bind (hcomp.bind ?_)
    have hrun : Returns (fun n => do u K n (← sL K n unitLit ty' p) qs) b := hs.bind hret
    cases b with
    | true | false => exact hrun.bind (.pure _)

theorem wild_returns (hin : AllInhabited K.data) (hty : PlainWild ty) (ht : NoTuple p)
    (hp : MatFits K.data K.store p (t :: ts)) (hqs : VecFits K.data K.store qs ts)
    (hb : Below K p (.wildPat ty :: qs)) : WildAnswers K p ty qs (t :: ts) := by
  by_cases hlits : colLits p = []
  · by_cases hcs : colCons p = []
    · exact wild_of_nothing hin hty ht hlits hcs hp hqs hb
    · exact wild_of_cons hin hty hlits hcs hp hqs hb
  · exact wild_of_lits hty hlits hp hqs hb

end

variable {p : PatMat} {ts : List Ty} {v qs : List Pat}

theorem dim_width (hp : MatFits K.data K.store p ts) (hne : p ≠ []) : (dim p).1 = ts.length := by
  cases p with
  | nil => exact absurd rfl hne
  | cons row p => exact (hp row List.mem_cons_self).length_eq

theorem noUnitLit_of_tuple {t : Ty} {ts' : List Ty} (hp : MatFits K.data K.store p (.tupleTy (t :: ts') :: ts)) :
    NoUnitLit p := by
  intro k ps hmem
  obtain ⟨hq, -⟩ := List.forall₂_cons.1 (hp _ hmem)
  cases hq with
  | lConst hlit =>
    obtain ⟨_, h, -⟩ := hlit.con
    cases h

/-- No rows. -/
theorem u_nil (hin : AllInhabited K.data) (hv : VecFits K.data K.store v ts) : Answers K [] v ts := by
  refine ⟨true, .succ (.pure _), ?_⟩
  obtain ⟨vals, htyped, hm⟩ := fits_instance hin hv
  exact ⟨fun _ => ⟨vals, htyped, hm, fun ⟨_, h, _⟩ => nomatch h⟩, fun _ => rfl⟩

/-- A first cell whose values have one head. -/
theorem u_of_head {p' : PatMat} {q : Pat} {t : Ty} {qs' : List Pat} {ts' : List Ty} {h : Head}
    (hqs : VecFits K.data K.store qs ts) (hp : MatFits K.data K.store p (t :: ts)) (hb : Below K p (q :: qs))
    (hh : HeadTy K.data t h ts') (hr : Rows (Cell K.data K.store (Splits h) ts') p p')
    (hq : Cell K.data K.store (Splits h) ts' q (some qs'))
    (hall : ∀ w, HasTy K.data w t → accepts q w = true → ∃ ws, Splits h w ws)
    (hsub : USub K (p, q :: qs) (p', qs' ++ qs)) (hsize : vecSize qs' < patSize q)
    (hret : ∀ b, Returns (fun n => u K n p' (qs' ++ qs)) b → Returns (fun n => u K n p (q :: qs)) b) :
    Answers K p (q :: qs) (t :: ts) := by
  have hlt : vecSize (qs' ++ qs) < vecSize (q :: qs) := by
    rw [vecSize_append, vecSize]
    omega
  obtain ⟨b, hb', hiff⟩ := hb p' _ _ hsub (hr.fits hp) (List.rel_append (hq.fits _ rfl) hqs) (.inr ⟨hr.weight_le, hlt⟩)
  exact ⟨b, hret b hb', by rw [hiff, useful_head hh hr hq hall]⟩

theorem noTuple_of_node {ty : Ty} (hty : PlainWild ty) (h : UNode K p (.wildPat ty :: qs)) : NoTuple p := by
  cases ty with
  | tupleTy tys =>
    cases tys with
    | nil => exact h
    | cons t ts => exact absurd rfl (hty t ts)
  | _ => exact h

theorem u_wild {ty : Ty} (hty : PlainWild ty) (h0 : (dim p).1 ≠ 0)
    (hlen : ¬ (dim p).1 ≠ (Pat.wildPat ty :: qs).length) {n : Nat} :
    u K (n + 1) p (.wildPat ty :: qs) = wild K n (u K n) p qs := by
  cases ty with
  | tupleTy tys =>
    cases tys with
    | nil => simp only [u, h0, hlen, if_false]
    | cons t ts => exact absurd rfl (hty t ts)
  | _ => simp only [u, h0, hlen, if_false]

theorem u_step (hin : AllInhabited K.data) (hp : MatFits K.data K.store p ts) (hv : VecFits K.data K.store v ts)
    (hnode : UNode K p v) (hb : Below K p v) : Answers K p v ts := by
  by_cases hne : p = []
  · subst hne
    exact u_nil hin hv
  have hwidth := dim_width hp hne
  cases hv with
  | nil =>
    obtain ⟨row, hrow⟩ := List.exists_mem_of_ne_nil p hne
    have hlength : (dim p).2 ≠ 0 := by cases p <;> simp [dim] at hne ⊢
    have hno : ¬ Useful K.data p [] [] := by
      rintro ⟨vals, htyped, _, hc⟩
      have hrow' := hp row hrow
      cases htyped
      cases hrow'
      exact hc ⟨[], hrow, .nil⟩
    refine ⟨false, .succ ?_, by simpa using hno⟩
    simp only [u, show (dim p).1 = 0 from hwidth, if_true, hlength, decide_false]
    exact .pure _
  | @cons q t qs ts hq hqs =>
    have h0 : (dim p).1 ≠ 0 := by rw [hwidth]; simp
    have hlen : ¬ (dim p).1 ≠ (q :: qs).length := by simp [hwidth, hqs.length_eq]
    cases hq with
    | @conPat c tys r args tyc l t' hl hc hs hr' =>
      obtain ⟨p', heq, hr⟩ := s_rows hl hc (.conApp hl hc hs) hp
      refine u_of_head hqs hp hb (.conApp hl hc hs) hr (.conApp hr' rfl) (fun w hw hm => ?_) (.conPat heq)
        (by simp [patSize, vecSize]) fun b hret => .succ ?_
      · obtain ⟨c', x, rfl, hsame, -⟩ := accepts_conPat.1 hm
        obtain ⟨c'', hc'', _, hsplit⟩ := split_datatype hl hw
        cases hsplit
        rw [(same_iff hl hc hc'').1 hsame]
        exact ⟨_, .conApp _ _⟩
      · simp only [u, h0, hlen, if_false, heq, ok_bind]
        exact hret
    | @dConst c tys args tyc l hl hc hn =>
      obtain ⟨p', heq, hr⟩ := sK_rows tys hl hc hp
      have hcell : Cell K.data K.store (Splits (.con c)) [] (.constPat (.dConst c tys)) (some []) := .const fun w ws hs hws => by
        cases hs with
        | con => simp [accepts, DCon.same_refl]
        | conApp => cases hws
      refine u_of_head hqs hp hb (.con hl hc hn) hr hcell (fun w hw hm => ?_) (.constPat heq) (by simp [patSize, vecSize])
        fun b hret => .succ ?_
      · obtain ⟨c', rfl, hsame⟩ := accepts_dConst.1 hm
        obtain ⟨c'', hc'', _, hsplit⟩ := split_datatype hl hw
        cases hsplit
        rw [(same_iff hl hc hc'').1 hsame]
        exact ⟨_, .con _⟩
      · simp only [u, h0, hlen, if_false]
        exact heq.bind hret
    | @lConst l ty _ hlit hst =>
      obtain ⟨p', heq, hr⟩ := sL_rows hlit hst hp
      have hcell : Cell K.data K.store (Splits (.lit l)) [] (.constPat (.lConst l ty)) (some []) := .const fun w ws hs _ => by
        cases hs
        simp [accepts]
      refine u_of_head hqs hp hb (.lit hlit) hr hcell (fun w hw hm => ?_) (.constPat heq) (by simp [patSize, vecSize])
        fun b hret => .succ ?_
      · obtain rfl | ⟨rfl, hl⟩ := accepts_lConst.1 hm
        · exact ⟨[], .lit l⟩
        · exact absurd hl hlit.ne_unit
      · simp only [u, h0, hlen, if_false]
        exact heq.bind hret
    | @unit ty hst =>
      obtain ⟨p', heq, hr⟩ := sL_unit_rows hst hp
      have hcell : Cell K.data K.store (Splits .tuple) [] (.constPat (.lConst unitLit ty)) (some []) :=
        .const fun w ws hs hws => by
          cases hs
          cases hws
          simp [accepts]
      refine u_of_head hqs hp hb (.tuple []) hr hcell (fun w hw _ => split_tuple hw) (.constPat heq)
        (by simp [patSize, vecSize]) fun b hret => .succ ?_
      simp only [u, h0, hlen, if_false]
      exact heq.bind hret
    | @tuplePat rs ts' hrlen hall =>
      have hrs : VecFits K.data K.store rs ts' := List.forall₂_iff_zip.2 ⟨hrlen, fun hq => hall _ hq⟩
      obtain ⟨p', heq, hr⟩ := sT_rows (typeOfPats_annot hrs) hnode.1 hnode.2 hp
      refine u_of_head hqs hp hb (.tuple ts') hr (.tuple hrs) (fun w hw _ => split_tuple hw) (.tuplePat heq)
        (by simp [patSize]) fun b hret => .succ ?_
      simpa only [u, h0, hlen, if_false, heq, ok_bind] using hret
    | @wildPat ty _ ha =>
      by_cases hty : PlainWild ty
      · obtain ⟨b, hret, hiff⟩ := wild_returns hin hty (noTuple_of_node hty hnode) hp hqs hb
        exact ⟨b, .succ (hret.congr fun n => u_wild hty h0 hlen), hiff⟩
      · obtain ⟨t₀, tys, rfl⟩ : ∃ t₀ tys, ty = .tupleTy (t₀ :: tys) := by
          simpa [PlainWild] using hty
        obtain ⟨ts', rfl, hall⟩ := ha.tuple_inv
        obtain ⟨t', ts', rfl⟩ : ∃ t' ts'', ts' = t' :: ts'' := by
          cases hall
          exact ⟨_, _, rfl⟩
        obtain ⟨p', heq, hr⟩ := breakTups_rows hnode (noUnitLit_of_tuple hp) hp
        refine u_of_head hqs hp hb (.tuple _) hr (.wilds hall) (fun w hw _ => split_tuple hw) (.tupleTy heq) ?_
          fun b hret => .succ ?_
        · rw [vecSize_wilds, patSize, tySize]
          omega
        · simpa only [u, h0, hlen, if_false, heq, ok_bind] using hret

/-! ## All questions -/

/-- `u` answers every question that is clear. -/
theorem u_returns (hin : AllInhabited K.data) (hp : MatFits K.data K.store p ts) (hv : VecFits K.data K.store v ts)
    (hc : Clear K p v) : Answers K p v ts := by
  induction hm : matWeight p using Nat.strong_induction_on generalizing p v ts with
  | _ m ihm =>
    induction hn : vecSize v using Nat.strong_induction_on generalizing p v ts with
    | _ n ihn =>
      refine u_step hin hp hv hc.node fun p' v' ts' hsub hp' hv' hlt => ?_
      obtain hlt | ⟨hle, hlt⟩ := hlt
      · exact ihm _ (hm ▸ hlt) hp' hv' (hc.sub hsub) rfl
      · obtain heq | hlt' := Nat.eq_or_lt_of_le hle
        · exact ihn _ (hn ▸ hlt) hp' hv' (hc.sub hsub) (heq.trans hm) rfl
        · exact ihm _ (hm ▸ hlt') hp' hv' (hc.sub hsub) rfl

end

/-! ## Rules -/

mutual

theorem accepts_elimVarPat (K : Context) : ∀ (p : Pat) (w : Value), accepts (elimVarPat K p) w = accepts p w
  | .conPat c ts p, w => by
    rw [elimVarPat]
    cases w with
    | conApp c' x => rw [accepts, accepts, accepts_elimVarPat K p x]
    | _ => simp [accepts]
  | .tuplePat ps, w => by
    rw [elimVarPat]
    cases w with
    | tuple ws => rw [accepts, accepts, acceptsAll_elimVarPats K ps ws]
    | _ => simp [accepts]
  | .varPat x, w => by simp [elimVarPat, accepts]
  | .wildPat ty, w => by rw [elimVarPat]
  | .constPat k, w => by rw [elimVarPat]

theorem acceptsAll_elimVarPats (K : Context) : ∀ (ps : List Pat) (ws : List Value),
    acceptsAll (elimVarPats K ps) ws = acceptsAll ps ws
  | [], ws => by rw [elimVarPats]
  | p :: ps, ws => by
    rw [elimVarPats]
    cases ws with
    | nil => simp [acceptsAll]
    | cons w ws => rw [acceptsAll, acceptsAll, accepts_elimVarPat K p w, acceptsAll_elimVarPats K ps ws]

end

section

variable {E : Type} {K : Context}

def ruleRow (K : Context) (m : Rule E) : List Pat := [elimVarPat K (patOf m)]

/-- Some value gets past the patterns of the rules before and matches the rule. -/
def Reached (D : Data) (t : Ty) (pre : List (Rule E)) (m : Rule E) : Prop :=
  ∃ w, HasTy D w t ∧ accepts (patOf m) w = true ∧ ∀ m' ∈ pre, accepts (patOf m') w = false

/-- Some value gets past the unguarded rules before and matches the rule. -/
def Selected (D : Data) (t : Ty) (pre : List (Rule E)) (m : Rule E) : Prop :=
  ∃ w, HasTy D w t ∧ accepts (patOf m) w = true ∧ ∀ m' ∈ pre, m'.cond = none → accepts (patOf m') w = false

/-- All rules of the list satisfy `Q` after those before them. -/
def Throughout (Q : List (Rule E) → Rule E → Prop) (ms : List (Rule E)) : Prop :=
  ∀ pre m post, ms = pre ++ m :: post → Q pre m

/-- The answer is the first rule that does not satisfy `Q`. -/
def Reports (K : Context) (Q : List (Rule E) → Rule E → Prop) (ms : List (Rule E)) (o : Option (List Pat)) : Prop :=
  (o = none ∧ Throughout Q ms) ∨
  ∃ pre m post, ms = pre ++ m :: post ∧ o = some (ruleRow K m) ∧ ¬ Q pre m ∧ Throughout Q pre

variable {m : Rule E} {t : Ty} {pre : List (Rule E)}

theorem matches_ruleRow {w : Value} : Matches (ruleRow K m) [w] ↔ accepts (patOf m) w = true := by
  rw [ruleRow, matches_cons, accepts_elimVarPat]
  simp

theorem useful_iff_reached : Useful K.data (pre.map (ruleRow K)) (ruleRow K m) [t] ↔ Reached K.data t pre m := by
  have hcov (w : Value) : Covered (pre.map (ruleRow K)) [w] ↔ ∃ m' ∈ pre, accepts (patOf m') w = true := by
    simp [Covered, matches_ruleRow]
  constructor
  · rintro ⟨vals, htyped, hm, hc⟩
    obtain _ | ⟨hw, hnil⟩ := htyped
    cases hnil
    refine ⟨_, hw, matches_ruleRow.1 hm, fun m' hm' => ?_⟩
    rw [← Bool.not_eq_true]
    exact fun h => hc ((hcov _).2 ⟨m', hm', h⟩)
  · rintro ⟨w, hw, hm, hpre⟩
    refine ⟨[w], .cons hw .nil, matches_ruleRow.2 hm, fun hc => ?_⟩
    obtain ⟨m', hm', h⟩ := (hcov w).1 hc
    rw [hpre m' hm'] at h
    cases h

theorem Throughout.snoc {Q : List (Rule E) → Rule E → Prop} (h : Throughout Q pre) (hm : Q pre m) :
    Throughout Q (pre ++ [m]) := by
  intro pre' m' post' heq
  obtain rfl | ⟨post, x, rfl⟩ := List.eq_nil_or_concat post'
  · obtain ⟨hpre, hlast⟩ := List.append_inj' heq rfl
    cases hlast
    rwa [← hpre]
  · refine h pre' m' post ?_
    grind [List.append_inj']

/-- The loop from a prefix on whose rules are all reached. -/
theorem redundantLoop_returns (ms : List (Rule E)) (hpre : Throughout (Reached K.data t) pre)
    (h : ∀ pre' m post, ms = pre' ++ m :: post → Throughout (Reached K.data t) (pre ++ pre') → Answers K ((pre ++ pre').map (ruleRow K)) (ruleRow K m) [t])
    :
    ∃ o, Returns (fun n => redundantLoop (u K n) (pre.map (ruleRow K)) (ms.map (ruleRow K))) o ∧ Reports K
      (Reached K.data t) (pre ++ ms) o := by
  induction ms generalizing pre with
  | nil => exact ⟨none, .pure _, .inl ⟨rfl, by simpa using hpre⟩⟩
  | cons m ms ih =>
    obtain ⟨b, hret, hb⟩ := h [] m ms rfl (by simpa using hpre)
    rw [List.append_nil] at hret hb
    rw [useful_iff_reached] at hb
    cases b with
    | true =>
      obtain ⟨o, hret', ho⟩ := ih (hpre.snoc (hb.1 rfl)) fun pre' m' post heq hth => by
        have := h (m :: pre') m' post (by rw [heq]; rfl) (by simpa using hth)
        simpa using this
      refine ⟨o, hret.bind ?_, by simpa using ho⟩
      simpa using hret'
    | false =>
      have hno : ¬ Reached K.data t pre m := fun hr => Bool.noConfusion (hb.2 hr)
      exact ⟨some (ruleRow K m), hret.bind (.pure _), .inr ⟨pre, m, ms, rfl, rfl, hno, hpre⟩⟩

/-- The rules that a check of the list asks about, each with those before it, are clear. -/
def ClearRules (K : Context) (t : Ty) (ms : List (Rule E)) : Prop :=
  ∀ pre m post, ms = pre ++ m :: post → pre ≠ [] → Throughout (Reached K.data t) pre →
    Clear K (pre.map (ruleRow K)) (ruleRow K m)

/-- A rule that the rules before it cover is covered by the unguarded ones of them, at least
    where it is the first. -/
def GuardsDecideNothing (D : Data) (t : Ty) (ms : List (Rule E)) : Prop :=
  ∀ pre m post, ms = pre ++ m :: post → Throughout (Reached D t) pre → ¬ Reached D t pre m → ¬ Selected D t pre m

theorem Reached.selected {D : Data} (h : Reached D t pre m) : Selected D t pre m := by
  obtain ⟨w, hw, hm, hpre⟩ := h
  exact ⟨w, hw, hm, fun m' hm' _ => hpre m' hm'⟩

theorem redundant_returns (hin : AllInhabited K.data) {ms : List (Rule E)}
    (hms : ∀ m ∈ ms, Fit K.data K.store (elimVarPat K (patOf m)) t) (hc : ClearRules K t ms) :
    ∃ o, Returns (fun n => redundant K n (ms.map (ruleRow K))) o ∧ Reports K (Reached K.data t) ms o := by
  have hrows (l : List (Rule E)) (hl : ∀ m ∈ l, m ∈ ms) : MatFits K.data K.store (l.map (ruleRow K)) [t] := by
    intro row hrow
    obtain ⟨m, hm, rfl⟩ := List.mem_map.1 hrow
    exact .cons (hms m (hl m hm)) .nil
  have hnil : Throughout (Reached K.data t) ([] : List (Rule E)) := fun pre m post heq => by simp at heq
  cases ms with
  | nil => exact ⟨none, .pure _, .inl ⟨rfl, hnil⟩⟩
  | cons m ms =>
    have hfirst : Throughout (Reached K.data t) [m] := by
      obtain ⟨w, hw, hm⟩ := fit_instance hin (hms m List.mem_cons_self)
      rw [accepts_elimVarPat] at hm
      exact hnil.snoc ⟨w, hw, hm, fun m' hm' => nomatch hm'⟩
    cases ms with
    | nil => exact ⟨none, .pure _, .inl ⟨rfl, hfirst⟩⟩
    | cons m' ms =>
      have hloop := redundantLoop_returns (m' :: ms) hfirst fun pre x post heq hth => by
        have hsplit : m :: m' :: ms = (m :: pre) ++ x :: post := by rw [heq]; rfl
        refine u_returns hin (hrows (m :: pre) fun y hy => ?_) ?_ (hc (m :: pre) x post hsplit (by simp) hth)
        · rw [hsplit]
          exact List.mem_append_left _ hy
        · refine .cons (hms x ?_) .nil
          rw [hsplit]
          simp
      simp only [List.map_cons, List.map_nil, List.singleton_append] at hloop
      exact hloop

end

/-! ## Options -/

def optionContext : Context where
  data := optionData
  store := ⟨fun _ => .univ 0, fun _ => true, fun _ _ => rfl⟩
  varTy _ := intTy
  minInt := -2 ^ 62
  maxInt := 2 ^ 62 - 1
  declared tyc l hl c hc ty hty := by
    simp only [optionData] at hl
    split at hl
    · cases hl
      simp only [List.mem_cons, List.not_mem_nil, or_false] at hc
      obtain rfl | rfl := hc
      · cases hty
      · cases hty
        rfl
    · cases hl

mutual

theorem option_inhabited : ∀ t : Ty, ∃ w, HasTy optionData w t
  | .tupleTy ts => by
    obtain ⟨ws, hws⟩ := options_inhabited ts
    exact ⟨.tuple ws, ((HeadTy.tuple ts).typed (.tuple ws)).2 hws⟩
  | .conTy args tyc => by
    by_cases h : tyc = optionTyc
    · subst h
      exact ⟨.con noneCon, .con (l := [noneCon, someCon]) rfl (by simp) rfl⟩
    · exact ⟨.other 0, .flat (by simp [Data.Flat, optionData, h])⟩
  | .errorTy => ⟨.other 0, .flat trivial⟩
  | .metaTy _ => ⟨.other 0, .flat trivial⟩
  | .varTy _ => ⟨.other 0, .flat trivial⟩
  | .funTy _ _ => ⟨.other 0, .flat trivial⟩

theorem options_inhabited : ∀ ts : List Ty, ∃ ws, Typed optionData ws ts
  | [] => ⟨[], .nil⟩
  | t :: ts => by
    obtain ⟨w, hw⟩ := option_inhabited t
    obtain ⟨ws, hws⟩ := options_inhabited ts
    exact ⟨w :: ws, .cons hw hws⟩

end

/-- The pattern `NONE` of an option of integers. -/
def nonePat : Pat := .constPat (.dConst noneCon [intTy])

def optionTy (t : Ty) : Ty := .conTy [t] optionTyc

theorem nonePat_fit : Fit optionContext.data optionContext.store nonePat (optionTy intTy) :=
  .dConst (l := [noneCon, someCon]) rfl (by simp) rfl

theorem nonePat_clear : Clear optionContext [[nonePat]] [nonePat] := by
  intro q hq
  obtain rfl | ⟨q', hsub, hq⟩ := hq.cases_head
  · trivial
  · cases hsub with
    | constPat =>
      obtain rfl | ⟨_, hsub, _⟩ := hq.cases_head
      · trivial
      · cases hsub

/-- `of NONE => 0 | NONE => 1`. -/
def noneRules : List (Rule Nat) := [.patMatch nonePat 0, .patMatch nonePat 1]

def pairTy : Ty := .tupleTy [intTy, intTy]

/-- `of SOME (_, _) => a | NONE => b` of an option of pairs. -/
def pairMatrix : PatMat :=
  [[.conPat someCon [pairTy] (.tuplePat [.wildPat intTy, .wildPat intTy])], [.constPat (.dConst noneCon [pairTy])]]

end Manticore.Match.MatchCheck
