/-
  Manticore.Match.Columns — the sets of constructors and literals of a first column.

  `firstColCons_eq` and `firstColLits_returns` say which sets the traversals answer,
  `completeCons_iff` when they are complete, and `unrepresented` that an incomplete set of
  constructors leaves one out.
-/

import Manticore.Match.Specialise

namespace Manticore.Match.MatchCheck

open Fuel
open Typechecker (Ty TyCon unitTy)
open List (forall_mem_cons mem_cons_self getElem_of_mem mem_filterMap forall₂_cons)

/-! ## Sets -/

section

variable {α κ : Type} {cmp : α → α → Ordering}

theorem mem_addBy {x z : α} {l : List α} (h : ∀ y ∈ l, cmp x y = .eq → x = y) : z ∈ addBy cmp x l ↔ z = x ∨ z ∈ l := by
  induction l with
  | nil => simp [addBy]
  | cons y ys ih =>
    obtain ⟨hy, hys⟩ := forall_mem_cons.1 h
    grind [addBy]

/-- Insertion by a key keeps a list sorted. -/
theorem sorted_addBy [LinearOrder κ] {key : α → κ} {x : α} {l : List α} (h : ∀ y ∈ l, cmp x y = compare (key x) (key y))
    (hs : l.Pairwise fun a b => key a < key b) :
    (addBy cmp x l).Pairwise (fun a b => key a < key b) ∧ ∀ z ∈ addBy cmp x l, z = x ∨ z ∈ l := by
  induction l with
  | nil => simp [addBy]
  | cons y ys ih =>
    obtain ⟨hy, hys⟩ := forall_mem_cons.1 h
    grind [List.pairwise_cons, addBy, compare_gt_iff_gt]

end

/-! ## Constructors -/

/-- The constructors of the first column. -/
def colCons (p : PatMat) : List DCon :=
  p.filterMap fun
    | .conPat c _ _ :: _ => some c
    | .constPat (.dConst c _) :: _ => some c
    | _ => none

def addCon (acc : List DCon) (c : DCon) : List DCon := addBy compareCon c acc

theorem firstColCons_eq {p : PatMat} (hp : [] ∉ p) (acc : List DCon) :
    firstColCons acc p = .ok ((colCons p).foldl addCon acc) := by
  induction p generalizing acc with
  | nil => rfl
  | cons row p ih =>
    have hp' : [] ∉ p := fun h => hp (List.mem_cons_of_mem _ h)
    cases row with
    | nil => exact absurd mem_cons_self hp
    | cons q ps =>
      cases q with
      | constPat k => cases k <;> simp [firstColCons, colCons, ih hp', addCon]
      | _ => simp [firstColCons, colCons, ih hp', addCon]

section

variable {D : Data} {tyc : TyCon} {l : List DCon}

theorem compareCon_eq (hl : D.cons tyc = some l) {c c' : DCon} (hc : c ∈ l) (hc' : c' ∈ l) :
    compareCon c c' = compare c.id c'.id := by
  obtain ⟨i, hi, rfl⟩ := getElem_of_mem hc
  obtain ⟨j, hj, rfl⟩ := getElem_of_mem hc'
  unfold compareCon
  rw [(D.ids tyc l hl i hi).2, (D.ids tyc l hl j hj).2]
  split <;> simp_all

theorem eq_of_id (hl : D.cons tyc = some l) {c c' : DCon} (hc : c ∈ l) (hc' : c' ∈ l) (h : c.id = c'.id) : c = c' := by
  obtain ⟨i, hi, rfl⟩ := getElem_of_mem hc
  obtain ⟨j, hj, rfl⟩ := getElem_of_mem hc'
  rw [(D.ids tyc l hl i hi).1, (D.ids tyc l hl j hj).1] at h
  subst h
  rfl

/-- A sorted set of constructors of the datatype. -/
structure ConSet (l : List DCon) (sigma : List DCon) : Prop where
  sub : ∀ c ∈ sigma, c ∈ l
  sorted : sigma.Pairwise fun a b => a.id < b.id

theorem ConSet.nodup {sigma : List DCon} (h : ConSet l sigma) : sigma.Nodup :=
  h.sorted.imp fun {a b} hlt heq => by
    rw [heq] at hlt
    exact Nat.lt_irrefl _ hlt

theorem foldl_addCon (hl : D.cons tyc = some l) {cs acc : List DCon} (hcs : ∀ c ∈ cs, c ∈ l) (hacc : ConSet l acc) :
    ConSet l (cs.foldl addCon acc) ∧ ∀ c, c ∈ cs.foldl addCon acc ↔ c ∈ acc ∨ c ∈ cs := by
  induction cs generalizing acc with
  | nil => exact ⟨hacc, by simp⟩
  | cons c cs ih =>
    obtain ⟨hc, hcs⟩ := forall_mem_cons.1 hcs
    have hmem (z : DCon) : z ∈ addCon acc c ↔ z = c ∨ z ∈ acc := mem_addBy fun y hy heq => by
      rw [compareCon_eq hl hc (hacc.sub y hy), compare_eq_iff_eq] at heq
      exact eq_of_id hl hc (hacc.sub y hy) heq
    have hacc' : ConSet l (addCon acc c) :=
      ⟨fun z hz => ((hmem z).1 hz).elim (fun h => h ▸ hc) (hacc.sub z),
        (sorted_addBy (fun y hy => compareCon_eq hl hc (hacc.sub y hy)) hacc.sorted).1⟩
    obtain ⟨hset, hiff⟩ := ih hcs hacc'
    grind

theorem nodup_cons (hl : D.cons tyc = some l) : l.Nodup := by
  rw [List.nodup_iff_injective_getElem]
  intro i j hij
  have hi := (D.ids tyc l hl i i.2).1
  rw [show l[i.1] = l[j.1] from hij, (D.ids tyc l hl j j.2).1] at hi
  exact Fin.ext hi.symm

/-- The set is complete when it is not empty and has every constructor. -/
theorem completeCons_iff (hl : D.cons tyc = some l) {sigma : List DCon} (h : ConSet l sigma) :
    ∃ b, completeCons D sigma = .ok b ∧ (b = true ↔ sigma ≠ [] ∧ ∀ c ∈ l, c ∈ sigma) := by
  cases sigma with
  | nil => exact ⟨false, rfl, by simp⟩
  | cons c cs =>
    have howner : c.owner = tyc := by
      obtain ⟨i, hi, heq⟩ := getElem_of_mem (h.sub c mem_cons_self)
      rw [← heq]
      exact (D.ids tyc l hl i hi).2
    have hsub : (c :: cs).Subperm l := h.nodup.subperm h.sub
    refine ⟨l.length == (c :: cs).length, by simp [completeCons, nConsOf, howner, hl, ok_bind], ?_⟩
    rw [beq_iff_eq]
    constructor
    · exact fun hlen => ⟨by simp, fun x hx => (hsub.perm_of_length_le hlen.le).mem_iff.2 hx⟩
    · exact fun ⟨_, hall⟩ => Nat.le_antisymm ((nodup_cons hl).subperm hall).length_le hsub.length_le

/-- An incomplete set leaves a constructor out. -/
theorem unrepresentedCons_ok (hl : D.cons tyc = some l) {sigma : List DCon} (h : ConSet l sigma) (hne : sigma ≠ [])
    (hmiss : ∃ c ∈ l, c ∉ sigma) :
    ∃ c cs, unrepresentedCons D sigma = .ok (c :: cs) ∧ c ∈ l ∧ c ∉ sigma := by
  cases sigma with
  | nil => exact absurd rfl hne
  | cons c₀ sigma =>
    have howner : c₀.owner = tyc := by
      obtain ⟨i, hi, heq⟩ := getElem_of_mem (h.sub c₀ mem_cons_self)
      rw [← heq]
      exact (D.ids tyc l hl i hi).2
    have hall : ∀ c, c ∈ allCons D tyc ↔ c ∈ l := fun c => by
      have hfold : ConSet l (l.foldl addCon []) ∧ ∀ c, c ∈ l.foldl addCon [] ↔ c ∈ [] ∨ c ∈ l :=
        foldl_addCon hl (fun c hc => hc) ⟨by simp, .nil⟩
      have := hfold.2 c
      simpa [allCons, hl, show addCon = fun acc c => addBy compareCon c acc from rfl] using this
    have hmem : ∀ c, c ∈ (allCons D tyc).filter (fun c' => !(c₀ :: sigma).any c'.same) ↔ c ∈ l ∧ c ∉ c₀ :: sigma := by
      intro c
      rw [List.mem_filter, hall]
      refine and_congr_right fun hc => ?_
      rw [Bool.not_eq_true', ← Bool.not_eq_true, List.any_eq_true]
      refine not_congr ⟨fun ⟨x, hx, hs⟩ => ?_, fun hx => ⟨c, hx, DCon.same_refl c⟩⟩
      rw [(same_iff hl hc (h.sub x hx)).1 hs]
      exact hx
    obtain ⟨c, hc, hn⟩ := hmiss
    cases heq : (allCons D tyc).filter (fun c' => !(c₀ :: sigma).any c'.same) with
    | nil =>
      have := (hmem c).2 ⟨hc, hn⟩
      rw [heq] at this
      cases this
    | cons c' cs =>
      have := (hmem c').1 (heq ▸ mem_cons_self)
      exact ⟨c', cs, by rw [unrepresentedCons, howner, heq], this⟩

end

/-! ## Literals -/

theorem cmpDigits_eq {l1 l2 : List Nat} (h : cmpDigits l1 l2 = .eq) : l1 = l2 := by
  induction l1 generalizing l2 with
  | nil =>
    cases l2 with
    | nil => rfl
    | cons => cases h
  | cons d1 r1 ih =>
    cases l2 with
    | nil => cases h
    | cons d2 r2 =>
      grind [cmpDigits]

theorem compareFloat_eq {f1 f2 : FloatLit} (h : compareFloat f1 f2 = .eq) : f1 = f2 := by
  obtain ⟨n1, d1, e1⟩ := f1
  obtain ⟨n2, d2, e2⟩ := f2
  cases n1 <;> cases n2
  · grind [compareFloat, cmpDigits_eq]
  · cases h
  · cases h
  · grind [compareFloat, cmpDigits_eq]

theorem compareLit_eq {l1 l2 : Literal} (h : compareLit l1 l2 = .eq) : l1 = l2 := by
  cases l1 <;> cases l2 <;> simp only [compareLit, rank] at h <;>
    first
      | rw [Std.LawfulEqOrd.eq_of_compare h]
      | rw [compareFloat_eq h]
      | exact absurd h (by decide)

/-- The literals of the first column. -/
def colLits (p : PatMat) : List Literal :=
  p.filterMap fun
    | .constPat (.lConst l _) :: _ => some l
    | .tuplePat [] :: _ => some unitLit
    | _ => none

attribute [local simp] colCons colLits

theorem mem_foldl_litSetAdd {ls acc : List Literal} {l : Literal} : l ∈ ls.foldl litSetAdd acc ↔ l ∈ acc ∨ l ∈ ls := by
  induction ls generalizing acc with
  | nil => simp
  | cons x ls ih =>
    rw [List.foldl_cons, ih, litSetAdd, mem_addBy fun y _ h => compareLit_eq h, List.mem_cons]
    tauto

theorem firstColContainsLits_iff {p : PatMat} : firstColContainsLits p = true ↔ colLits p ≠ [] := by
  induction p with
  | nil => simp [firstColContainsLits, colLits]
  | cons row p ih =>
    unfold firstColContainsLits colLits at ih ⊢
    rw [List.any_cons, Bool.or_eq_true, ih, List.filterMap_cons]
    split <;> split <;> simp_all

section

variable {K : Context} {t : Ty} {ts : List Ty} {p : PatMat}

/-- The type of a column of literals. -/
def LitCol (D : Data) (t : Ty) : Prop := (∃ l, LitTy D l t) ∨ t = unitTy

theorem litCol_of (hp : MatFits K.data K.store p (t :: ts)) (h : colLits p ≠ []) : LitCol K.data t := by
  obtain ⟨l, hl⟩ := List.exists_mem_of_ne_nil _ h
  obtain ⟨row, hrow, heq⟩ := mem_filterMap.1 hl
  have hfit := hp row hrow
  split at heq
  next =>
    obtain ⟨hq, -⟩ := forall₂_cons.1 hfit
    cases hq with
    | lConst hlit => exact .inl ⟨_, hlit⟩
    | unit => exact .inr rfl
  next =>
    obtain ⟨hq, -⟩ := forall₂_cons.1 hfit
    cases hq with
    | tuplePat hlen => exact .inr (by rw [List.length_eq_zero_iff.1 hlen.symm, unitTy])
  next => cases heq

/-- The literals of the first column, as a set, and their type. -/
theorem firstColLits_returns (hp : MatFits K.data K.store p (t :: ts)) (ht : LitCol K.data t) (optTy : Option Ty)
    (ho : ∀ ty, optTy = some ty → Stands K.store ty t) (hne : optTy ≠ none ∨ colLits p ≠ []) (acc : List Literal) :
    ∃ ty, Returns (fun n => firstColLits K n optTy acc p) (ty, (colLits p).foldl litSetAdd acc) ∧
      Stands K.store ty t := by
  induction p generalizing optTy acc with
  | nil =>
    cases optTy with
    | none => exact absurd rfl (hne.resolve_right (by simp [colLits]))
    | some ty => exact ⟨ty, .pure _, ho ty rfl⟩
  | cons row p ih =>
    obtain ⟨hrow, hp'⟩ := forall_mem_cons.1 hp
    have hconst {l : Literal} {ty : Ty} {ps : List Pat} (hst : Stands K.store ty t) :
        ∃ ty', Returns (fun n => firstColLits K n optTy acc ((.constPat (.lConst l ty) :: ps) :: p))
          (ty', (colLits ((.constPat (.lConst l ty) :: ps) :: p)).foldl litSetAdd acc) ∧ Stands K.store ty' t := by
      refine ih hp' (some (optTy.getD ty)) (fun ty' heq => ?_) (.inl (by simp)) (litSetAdd acc l)
      cases heq
      cases optTy with
      | none => exact hst
      | some ty' => exact ho ty' rfl
    have hwild {ty : Ty} {ps : List Pat} (hne : optTy ≠ none ∨ colLits ((.wildPat ty :: ps) :: p) ≠ []) :
        ∃ ty', Returns (fun n => firstColLits K n optTy acc ((.wildPat ty :: ps) :: p))
          (ty', (colLits ((.wildPat ty :: ps) :: p)).foldl litSetAdd acc) ∧ Stands K.store ty' t :=
      ih hp' optTy ho hne acc
    cases hrow with
    | @cons q _ ps _ hq hps =>
      obtain ⟨l, hlit⟩ | rfl := ht
      · obtain ⟨l', ty, rfl, -, hst⟩ | ⟨ty, rfl⟩ := fit_lit hq hlit
        · exact hconst hst
        · exact hwild hne
      · obtain rfl | ⟨ty, rfl, hst⟩ | ⟨ty, rfl⟩ := fit_unit hq
        · cases optTy with
          | none => exact ih hp' (some unitTy) (fun ty heq => by cases heq; exact .refl _) (.inl (by simp)) (litSetAdd acc unitLit)
          | some ty =>
            obtain ⟨ty', hret, hst⟩ := ih hp' (some ty) ho (.inl (by simp)) (litSetAdd acc unitLit)
            exact ⟨ty', (same_true (ho ty rfl) (.refl _) .unit).bind hret, hst⟩
        · exact hconst hst
        · exact hwild hne

/-- The set of the literals of a column of units. -/
theorem foldl_unit {ls acc : List Literal} (h : ∀ l ∈ ls, l = unitLit) (hacc : acc = [] ∨ acc = [unitLit])
    (hne : acc ≠ [] ∨ ls ≠ []) : ls.foldl litSetAdd acc = unitLitSet := by
  induction ls generalizing acc with
  | nil =>
    obtain rfl | rfl := hacc
    · simp at hne
    · rfl
  | cons l ls ih =>
    obtain ⟨rfl, h'⟩ := forall_mem_cons.1 h
    refine ih h' (.inr ?_) (.inl ?_) <;> obtain rfl | rfl := hacc <;> decide

theorem colLits_unit (hp : MatFits K.data K.store p (unitTy :: ts)) : ∀ l ∈ colLits p, l = unitLit := by
  intro l hl
  obtain ⟨row, hrow, heq⟩ := mem_filterMap.1 hl
  have hfit := hp row hrow
  grind [forall₂_cons, fit_unit]

/-- The literals of a column are complete for the unit type only. -/
theorem completeLits_lit {ty : Ty} {l : Literal} (hlit : LitTy K.data l t) (hst : Stands K.store ty t)
    (sigma : List Literal) : Returns (fun n => completeLits K n ty sigma) false := by
  obtain ⟨tyc, rfl, -, hne⟩ := hlit.con
  have h1 := same_false (.refl unitTy) .unit hst (.conTy tyc) (by simp [unitTy])
  have h2 := same_false (.refl boolTy) (.conTy boolTyc) hst (.conTy tyc) (by simpa [boolTy] using hne.symm)
  exact h1.bind (h2.bind (.pure _))

theorem completeLits_unit {ty : Ty} (hst : Stands K.store ty unitTy) :
    Returns (fun n => completeLits K n ty unitLitSet) true :=
  (same_true (.refl unitTy) hst .unit).bind (by simpa using Returns.pure true)

/-! ## Columns -/

/-- The first column has no tuple but the empty one. -/
def NoTuple (p : PatMat) : Prop := ∀ r rs ps, .tuplePat (r :: rs) :: ps ∉ p

variable {t : Ty} {ts : List Ty} {p : PatMat} {D : Data} {tyc : TyCon} {l : List DCon} {w : Value}

theorem matFits_ne (hp : MatFits K.data K.store p (t :: ts)) : [] ∉ p := by
  intro h
  cases hp [] h

/-- The cells of a column without literals, constructors and tuples are wildcards. -/
theorem wild_of_bare (hp : MatFits K.data K.store p (t :: ts)) (hl : colLits p = []) (hc : colCons p = [])
    (ht : NoTuple p) {q : Pat} {ps : List Pat} (hmem : q :: ps ∈ p) : ∃ ty, q = .wildPat ty := by
  have hl' := (List.filterMap_eq_nil_iff.1 hl) _ hmem
  have hc' := (List.filterMap_eq_nil_iff.1 hc) _ hmem
  obtain ⟨hq, -⟩ := forall₂_cons.1 (hp _ hmem)
  cases hq with
  | wildPat => exact ⟨_, rfl⟩
  | @tuplePat rs _ _ _ =>
    cases rs with
    | nil => cases hl'
    | cons r rs => exact absurd hmem (ht r rs ps)
  | conPat | dConst => cases hc'
  | lConst | unit => cases hl'

theorem exists_weight_of_con (h : colCons p ≠ []) : ∃ q ps, q :: ps ∈ p ∧ weight q ≠ 0 := by
  obtain ⟨c, hc⟩ := List.exists_mem_of_ne_nil _ h
  obtain ⟨row, hrow, heq⟩ := mem_filterMap.1 hc
  grind [weight]

theorem exists_weight_of_lit (h : colLits p ≠ []) : ∃ q ps, q :: ps ∈ p ∧ weight q ≠ 0 := by
  obtain ⟨l, hl⟩ := List.exists_mem_of_ne_nil _ h
  obtain ⟨row, hrow, heq⟩ := mem_filterMap.1 hl
  grind [weight]

theorem colLits_litTy {l₀ : Literal} (hlit : LitTy K.data l₀ t) (hp : MatFits K.data K.store p (t :: ts)) :
    ∀ l ∈ colLits p, LitTy K.data l t := by
  intro l hl
  obtain ⟨row, hrow, heq⟩ := mem_filterMap.1 hl
  have hfit := hp row hrow
  grind [forall₂_cons, fit_lit]

/-- No cell of a column of literals matches a value that is not a literal. -/
theorem rest_other {l : Literal} (hlit : LitTy K.data l t) (hp : MatFits K.data K.store p (t :: ts)) {n : Nat} :
    Rest p (.other n) [] := by
  refine ⟨rfl, fun q ps hmem hq => ?_⟩
  obtain ⟨hfit, -⟩ := forall₂_cons.1 (hp _ hmem)
  obtain ⟨l', ty, rfl, -, -⟩ | ⟨ty, rfl⟩ := fit_lit hfit hlit
  · simp [accepts]
  · exact absurd rfl hq

/-- A column with a constructor has a datatype. -/
theorem datatype_of (hp : MatFits K.data K.store p (t :: ts)) (hc : colCons p ≠ []) :
    ∃ args tyc l, t = .conTy args tyc ∧ K.data.cons tyc = some l ∧ ∀ c ∈ colCons p, c ∈ l := by
  have hmem : ∀ c ∈ colCons p, ∃ args tyc l, t = .conTy args tyc ∧ K.data.cons tyc = some l ∧ c ∈ l := by
    intro c hc
    obtain ⟨row, hrow, heq⟩ := mem_filterMap.1 hc
    have hfit := hp row hrow
    split at heq
    next =>
      obtain ⟨hq, -⟩ := forall₂_cons.1 hfit
      cases heq
      cases hq with
      | conPat hl hc => exact ⟨_, _, _, rfl, hl, hc⟩
    next =>
      obtain ⟨hq, -⟩ := forall₂_cons.1 hfit
      cases heq
      cases hq with
      | dConst hl hc => exact ⟨_, _, _, rfl, hl, hc⟩
    next => cases heq
  obtain ⟨c, hc⟩ := List.exists_mem_of_ne_nil _ hc
  grind

theorem headTy_con (args : List Ty) {c : DCon} (hl : D.cons tyc = some l) (hc : c ∈ l) :
    ∃ ts', HeadTy D (.conTy args tyc) (.con c) ts' := by
  cases h : D.argTypeOf c args with
  | none => exact ⟨[], .con hl hc h⟩
  | some t => exact ⟨[t], .conApp hl hc h⟩

/-- A value of a datatype has one of its constructors. -/
theorem split_datatype {args : List Ty} (hl : D.cons tyc = some l) (hw : HasTy D w (.conTy args tyc)) :
    ∃ c ∈ l, ∃ ws, Splits (.con c) w ws := by
  cases hw with
  | con hl' hc =>
    rw [hl] at hl'
    cases hl'
    exact ⟨_, hc, _, .con _⟩
  | conApp hl' hc =>
    rw [hl] at hl'
    cases hl'
    exact ⟨_, hc, _, .conApp _ _⟩
  | flat hf => exact (hf.not_datatype hl).elim

theorem split_tuple (hw : HasTy D w (.tupleTy ts)) : ∃ ws, Splits .tuple w ws := by
  cases hw with
  | tuple => exact ⟨_, .tuple _⟩
  | flat hf => exact hf.elim

/-- A cell of a datatype's column matches values of its own constructor only. -/
theorem rest_of_con {args : List Ty} (hl : K.data.cons tyc = some l)
    (hp : MatFits K.data K.store p (.conTy args tyc :: ts)) {c : DCon} (hc : c ∈ l) (hmiss : c ∉ colCons p)
    {ws : List Value} (hs : Splits (.con c) w ws) : Rest p w [] := by
  refine ⟨rfl, fun q ps hmem hq => ?_⟩
  obtain ⟨hfit, -⟩ := forall₂_cons.1 (hp _ hmem)
  have hcol {c' : DCon} (h : c' ∈ colCons p) (hc' : c' ∈ l) : c'.same c = false :=
    not_same hl hc' hc fun heq => hmiss (heq ▸ h)
  obtain ⟨c', tys, p', t', rfl, hc', -, -⟩ | ⟨c', tys, rfl, hc', -⟩ | ⟨ty, rfl⟩ := fit_datatype hfit hl
  · have := hcol (mem_filterMap.2 ⟨_, hmem, rfl⟩) hc'
    cases hs <;> simp [accepts, this]
  · have := hcol (mem_filterMap.2 ⟨_, hmem, rfl⟩) hc'
    cases hs <;> simp [accepts, this]
  · exact absurd rfl hq

end

end Manticore.Match.MatchCheck
