/-
  Manticore.Match.Inexhaustive — `i` and `inexhaustive` of match-check.sml.

  `ISub` relates a matrix with the types of its columns to those that `i` searches in its
  turn, and `INode` is what a matrix must be like for `i` to treat its first column as what it
  is; `ClearMat` says so of every matrix that comes up. `Found` is what an answer means. The
  proof goes as for `u`: one step for each kind of column, then induction.
-/

import Manticore.Match.Usefulness

namespace Manticore.Match.MatchCheck

open Fuel
open Typechecker (Ty TyCon Failure unitTy intTyc stringTyc)
open List (map_cons forall₂_cons rel_append mem_cons_self length_cons)

/-! ## Literals that are missing -/

section

variable {K : Context}

variable {ns : List Int} {l : Literal} {ls : List Literal}

theorem gap_spec {max : Int} {m k : Int} (hs : (m :: ns).Pairwise (· < ·)) (h : gap max (m :: ns) = .ok (some k)) :
    m < k ∧ k ∉ m :: ns := by
  induction ns generalizing m with
  | nil =>
    grind [gap]
  | cons n ns ih =>
    grind [List.pairwise_cons, gap]

theorem missingInt_spec {k : Int} (hs : ns.Pairwise (· < ·)) (h : missingInt K ns = .ok (some k)) : k ∉ ns := by
  cases ns with
  | nil => simp
  | cons m ns =>
    simp only [missingInt, missingIntegral] at h
    split at h
    next =>
      grind [List.pairwise_cons]
    next => exact (gap_spec hs h).2

theorem missingFrom_spec {s : List Literal} {i : Nat} {t : String} (h : missingFrom s i t = some l) :
    l ∉ s ∧ ∃ t', l = .string t' := by
  induction i generalizing t with
  | zero => cases h
  | succ i ih =>
    grind [missingFrom]

/-- A set of integer literals is a sorted list of integers. -/
theorem foldl_ints (xs acc : List Int) (hs : acc.Pairwise (· < ·)) :
    ∃ ns : List Int, (xs.map .int).foldl litSetAdd (acc.map .int) = ns.map .int ∧ ns.Pairwise (· < ·) := by
  induction xs generalizing acc with
  | nil => exact ⟨acc, rfl, hs⟩
  | cons x xs ih =>
    have hadd (l : List Int) : litSetAdd (l.map .int) (.int x) = (addBy compare x l).map .int := by
      unfold litSetAdd
      induction l with
      | nil => rfl
      | cons y l ihl =>
        simp only [map_cons, addBy, compareLit]
        split <;> simp_all
    obtain ⟨ns, heq, hns⟩ := ih (addBy compare x acc) (sorted_addBy (fun _ _ => rfl) hs).1
    exact ⟨ns, by rw [map_cons, List.foldl_cons, hadd, heq], hns⟩

theorem toInt_ok {n m : Int} (h : toInt K (.int n) = .ok m) : m = n := by
  simp only [toInt] at h
  split at h
  · cases h
    rfl
  · cases h

theorem mapM_toInt {ms : List Int} (h : (ns.map .int).mapM (toInt K) = .ok ms) : ms = ns := by
  induction ns generalizing ms with
  | nil =>
    cases h
    rfl
  | cons n ns ih =>
    rw [map_cons, List.mapM_cons] at h
    cases hn : toInt K (.int n) with
    | error e =>
      rw [hn] at h
      cases h
    | ok m =>
      rw [hn, ok_bind] at h
      cases hns : (ns.map .int).mapM (toInt K) with
      | error e =>
        rw [hns] at h
        cases h
      | ok ms' =>
        rw [hns, ok_bind] at h
        cases h
        rw [toInt_ok hn, ih hns]

theorem ints_of (h : ∀ l ∈ ls, ∃ n, l = .int n) : ∃ xs : List Int, ls = xs.map .int := by
  induction ls with
  | nil => exact ⟨[], rfl⟩
  | cons l ls ih =>
    obtain ⟨⟨n, rfl⟩, hls⟩ := List.forall_mem_cons.1 h
    obtain ⟨xs, rfl⟩ := ih hls
    exact ⟨n :: xs, rfl⟩

/-- The next integer is not one of the set. -/
theorem nextInt_spec (hls : ∀ l ∈ ls, ∃ n, l = .int n) (h : nextInt K (ls.foldl litSetAdd []) = .ok (some l)) :
    (∃ n, l = .int n) ∧ l ∉ ls := by
  obtain ⟨xs, rfl⟩ := ints_of hls
  obtain ⟨ns, heq, hs⟩ := foldl_ints xs [] .nil
  have hmem (l : Literal) : l ∈ ns.map .int ↔ l ∈ xs.map .int := by
    rw [← heq, mem_foldl_litSetAdd]
    simp
  rw [List.map_nil] at heq
  rw [heq, nextInt] at h
  cases hms : (ns.map .int).mapM (toInt K) with
  | error e =>
    rw [hms] at h
    cases h
  | ok ms =>
    rw [hms, ok_bind, mapM_toInt hms] at h
    cases hk : missingInt K ns with
    | error e =>
      rw [hk] at h
      cases h
    | ok k =>
      rw [hk, ok_bind] at h
      obtain ⟨n, rfl, rfl⟩ := Option.map_eq_some_iff.1 (Except.ok.inj h)
      grind [missingInt_spec]

/-- A literal that `unrepresentedLit` answers is a new one of the type. -/
theorem unrepresentedLit_spec {ty ty' t : Ty} {l₀ : Literal} (hl₀ : LitTy K.data l₀ t) (hst : Stands K.store ty t)
    (hls : ∀ l ∈ ls, LitTy K.data l t)
    (h : Returns (fun n => unrepresentedLit K n ty (ls.foldl litSetAdd [])) (some (.constPat (.lConst l ty')))) :
    LitTy K.data l t ∧ Stands K.store ty' t ∧ l ∉ ls := by
  obtain ⟨tyc, rfl, hn, hne⟩ := hl₀.con
  have hbool := same_false (.refl boolTy) (.conTy boolTyc) hst (.conTy tyc) (by simpa [boolTy] using hne.symm)
  obtain ⟨b, hint, hb⟩ := same_atom (.refl intTy) (.conTy intTyc) hst (.conTy tyc)
  cases b with
  | true =>
    obtain rfl : intTyc = tyc := by simpa [intTy] using hb.1 rfl
    have hlits : ∀ l ∈ ls, ∃ n, l = .int n := fun l hl => by
      generalize ht : Ty.conTy [] intTyc = t at hls
      cases hls l hl with
      | int n => exact ⟨n, rfl⟩
      | float _ hc | char _ hc =>
        cases ht
        exact absurd hc (by decide)
      | string => cases ht
    cases hnext : nextInt K (ls.foldl litSetAdd []) with
    | error e =>
      have := (hint.of_bind (hbool.of_bind h)).of_const
      simp only [hnext] at this
      cases this
    | ok o =>
      have := (hint.of_bind (hbool.of_bind h)).of_const
      simp only [hnext] at this
      cases o with
      | none => cases this
      | some l' =>
        cases this
        obtain ⟨⟨n, rfl⟩, hmem⟩ := nextInt_spec hlits hnext
        exact ⟨.int n (by decide) hn, hst, hmem⟩
  | false =>
    obtain ⟨b, hstring, hb⟩ := same_atom (.refl stringTy) (.conTy stringTyc) hst (.conTy tyc)
    have h := hint.of_bind (hbool.of_bind h)
    cases b with
    | true =>
      obtain rfl : stringTyc = tyc := by simpa [stringTy] using hb.1 rfl
      have := (hstring.of_bind h).of_const
      cases hm : missingString (ls.foldl litSetAdd []) with
      | none =>
        rw [hm] at this
        cases this
      | some l' =>
        rw [hm] at this
        cases this
        obtain ⟨hmem, t', rfl⟩ := missingFrom_spec hm
        exact ⟨.string t' hn, hst, fun hl => hmem (mem_foldl_litSetAdd.2 (.inr hl))⟩
    | false =>
      have hunit := same_false (.refl unitTy) .unit hst (.conTy tyc) (by simp [unitTy])
      have := (hunit.of_bind (hstring.of_bind h)).of_const
      cases this

end

/-! ## Searches -/

/-- Every value vector that starts with a value of the constructor is covered. -/
def HeadCovered (D : Data) (p : PatMat) (ts : List Ty) (c : DCon) : Prop :=
  ∀ w ws vs, Splits (.con c) w ws → Typed D (w :: vs) ts → Covered p (w :: vs)

/-- Every value vector that starts with a value no cell inspects is covered. -/
def RestCovered (D : Data) (p : PatMat) (ts : List Ty) : Prop :=
  ∀ w vs, Rest p w [] → Typed D (w :: vs) ts → Covered p (w :: vs)

/-- `i` sees the first column as what it is, and has a witness where it needs one. -/
structure INode (K : Context) (p : PatMat) (ts : List Ty) : Prop where
  nonempty : p ≠ []
  /-- The wildcards of a tuple column say so. -/
  tuple : firstColTupleTy K p = .ok true → TupleWilds p
  noTuple : firstColTupleTy K p = .ok false → NoTuple p
  /-- A literal is known for the rest of a column of literals, where it is needed. -/
  lit : firstColTupleTy K p = .ok false → ∀ ty sigma, Returns (fun n => firstColLits K n none [] p) (ty, sigma) →
    Returns (fun n => completeLits K n ty sigma) false →
    RestCovered K.data p ts ∨
      ∃ l ty', Returns (fun n => unrepresentedLit K n ty sigma) (some (.constPat (.lConst l ty')))
  /-- The first row of a column of constructors has a type that `i` knows. -/
  conTy : firstColContainsLits p = false → colCons p ≠ [] →
    (∃ args tyc, firstColTy K p = .ok (.conTy args tyc)) ∨ ∃ mv, firstColTy K p = .ok (.metaTy mv)
  /-- The witness is not below a nullary constructor of a complete column. -/
  nullary : firstColContainsLits p = false → ∀ sigma, firstColCons [] p = .ok sigma →
    completeCons K.data sigma = .ok true → ∀ pre c post, sigma = pre ++ c :: post →
    (∀ c' ∈ pre, HeadCovered K.data p ts c') → c.argTy = none → HeadCovered K.data p ts c

/-- The matrices that `i` searches after a matrix. -/
inductive ISub (K : Context) : PatMat × List Ty → PatMat × List Ty → Prop
  | tuple {p p' : PatMat} {tys ts' ts : List Ty} : firstColTupleTy K p = .ok true → firstColTy K p = .ok (.tupleTy tys) →
      sT tys p = .ok p' → ISub K (p, .tupleTy ts' :: ts) (p', ts' ++ ts)
  | lit {p p' : PatMat} {ty t : Ty} {ts : List Ty} {sigma : List Literal} {l : Literal} :
      firstColTupleTy K p = .ok false → Returns (fun n => firstColLits K n none [] p) (ty, sigma) →
      Returns (fun n => completeLits K n ty sigma) true → l ∈ sigma → Returns (fun n => sL K n l ty p) p' →
      ISub K (p, t :: ts) (p', ts)
  | litDefault {p p' : PatMat} {ty t : Ty} {ts : List Ty} {sigma : List Literal} : firstColTupleTy K p = .ok false →
      Returns (fun n => firstColLits K n none [] p) (ty, sigma) → Returns (fun n => completeLits K n ty sigma) false →
      d p = .ok p' → p' ≠ [] → ISub K (p, t :: ts) (p', ts)
  | con {p p' : PatMat} {t : Ty} {ts' ts : List Ty} {pre post : List DCon} {c : DCon} : firstColTupleTy K p = .ok false →
      firstColContainsLits p = false → firstColCons [] p = .ok (pre ++ c :: post) →
      completeCons K.data (pre ++ c :: post) = .ok true → (∀ c' ∈ pre, HeadCovered K.data p (t :: ts) c') →
      HeadTy K.data t (.con c) ts' → s c p = .ok p' → ISub K (p, t :: ts) (p', ts' ++ ts)
  | conDefault {p p' : PatMat} {t : Ty} {ts : List Ty} {sigma : List DCon} : firstColTupleTy K p = .ok false →
      firstColContainsLits p = false → firstColCons [] p = .ok sigma → completeCons K.data sigma = .ok false →
      d p = .ok p' → ISub K (p, t :: ts) (p', ts)

/-- Every matrix with columns that comes up is one that `i` sees as what it is. -/
def ClearMat (K : Context) (p : PatMat) (ts : List Ty) : Prop :=
  ∀ q, Relation.ReflTransGen (ISub K) (p, ts) q → q.2 ≠ [] → INode K q.1 q.2

theorem ClearMat.sub {K : Context} {p p' : PatMat} {ts ts' : List Ty} (h : ClearMat K p ts)
    (hs : ISub K (p, ts) (p', ts')) : ClearMat K p' ts' := fun q hq => h q (.head hs hq)

/-- No row of the matrix matches an instance of the vector. -/
def Unmatched (D : Data) (p : PatMat) (ts : List Ty) (w : List Pat) : Prop :=
  ∀ vals, Typed D vals ts → Matches w vals → ¬ Covered p vals

/-- What an answer means. -/
structure Found (K : Context) (p : PatMat) (ts : List Ty) (o : Option (List Pat)) : Prop where
  none : o = none → Exhaustive K.data p ts
  some : ∀ w, o = some w → VecFits K.data K.store w ts ∧ Unmatched K.data p ts w

/-- `i` answers. -/
def SearchAnswers (K : Context) (p : PatMat) (ts : List Ty) : Prop :=
  ∃ o, Returns (fun n => i K n p ts.length) o ∧ Found K p ts o

section

variable {K : Context} {p p' : PatMat} {t : Ty} {ts' ts : List Ty}

theorem headCovered_iff {c : DCon} (hh : HeadTy K.data t (.con c) ts')
    (hr : Rows (Cell K.data K.store (Splits (.con c)) ts') p p') :
    HeadCovered K.data p (t :: ts) c ↔ Exhaustive K.data p' (ts' ++ ts) := by
  constructor
  · intro h vals htyped
    obtain ⟨ws, vs, hws, hvs, rfl⟩ : ∃ ws vs, Typed K.data ws ts' ∧ Typed K.data vs ts ∧ vals = ws ++ vs :=
      ⟨_, _, List.forall₂_take_append vals ts' ts htyped, List.forall₂_drop_append vals ts' ts htyped,
        (List.take_append_drop _ _).symm⟩
    obtain ⟨w, hs⟩ := hh.build hws
    exact (hr.covered hs hws).1 (h w ws vs hs (.cons ((hh.typed hs).2 hws) hvs))
  · intro h w ws vs hs htyped
    obtain ⟨hw, hvs⟩ := forall₂_cons.1 htyped
    have hws := (hh.typed hs).1 hw
    exact (hr.covered hs hws).2 (h _ (rel_append hws hvs))

/-- All values of the column have the head. -/
theorem exhaustive_of_head {h : Head} (hh : HeadTy K.data t h ts')
    (hr : Rows (Cell K.data K.store (Splits h) ts') p p') (hall : ∀ w, HasTy K.data w t → ∃ ws, Splits h w ws)
    (he : Exhaustive K.data p' (ts' ++ ts)) : Exhaustive K.data p (t :: ts) := by
  intro vals htyped
  cases htyped with
  | @cons w _ vs _ hw hvs =>
    obtain ⟨ws, hs⟩ := hall w hw
    have hws := (hh.typed hs).1 hw
    exact (hr.covered hs hws).2 (he _ (rel_append hws hvs))

/-- A witness below a head, with the head put back. -/
theorem unmatched_of_head {h : Head} {q : Pat} {qs v : List Pat} (hh : HeadTy K.data t h ts')
    (hr : Rows (Cell K.data K.store (Splits h) ts') p p')
    (hq : ∀ w, HasTy K.data w t → accepts q w = true → ∃ ws, Splits h w ws ∧ Matches qs ws)
    (hu : Unmatched K.data p' (ts' ++ ts) (qs ++ v)) : Unmatched K.data p (t :: ts) (q :: v) := by
  intro vals htyped hm hc
  cases htyped with
  | @cons w _ vs _ hw hvs =>
    obtain ⟨hqw, hv⟩ := matches_cons.1 hm
    obtain ⟨ws, hs, hqs⟩ := hq w hw hqw
    have hws := (hh.typed hs).1 hw
    exact hu _ (rel_append hws hvs) (rel_append hqs hv) ((hr.covered hs hws).1 hc)

theorem exhaustive_of_default (hr : Rows (DefaultCell K.data K.store p) p p') (he : Exhaustive K.data p' ts) :
    Exhaustive K.data p (t :: ts) := by
  intro vals htyped
  cases htyped with
  | @cons w _ vs _ hw hvs => exact covered_of_default hr w (he vs hvs)

theorem unmatched_of_default {q : Pat} {v : List Pat} (hr : Rows (DefaultCell K.data K.store p) p p')
    (hq : ∀ w, HasTy K.data w t → accepts q w = true → Rest p w [])
    (hu : Unmatched K.data p' ts v) : Unmatched K.data p (t :: ts) (q :: v) := by
  intro vals htyped hm hc
  cases htyped with
  | @cons w _ vs _ hw hvs =>
    obtain ⟨hqw, hv⟩ := matches_cons.1 hm
    exact hu vs hvs hv ((hr.default.covered (hq w hw hqw) .nil).1 hc)

end

/-! ## Kinds of columns -/

/-- The size of the first row. -/
def firstSize : PatMat → Nat
  | [] => 0
  | row :: _ => vecSize row

/-- The answers to the searches after this one. -/
def BelowMat (K : Context) (p : PatMat) (ts : List Ty) : Prop :=
  ∀ p' ts', ISub K (p, ts) (p', ts') → MatFits K.data K.store p' ts' →
    matWeight p' < matWeight p ∨ (matWeight p' ≤ matWeight p ∧ firstSize p' < firstSize p) → SearchAnswers K p' ts'

theorem rowLoop_first {whence : String} {cell : Pat → Except Failure (Option (List Pat))} {q : Pat} {ps qs : List Pat}
    {pss p' : PatMat} (h : rowLoop whence cell ((q :: ps) :: pss) = .ok p') (hq : cell q = .ok (some qs)) :
    ∃ pss', p' = (qs ++ ps) :: pss' := by
  rw [rowLoop, hq, ok_bind] at h
  cases hrest : rowLoop whence cell pss with
  | error e =>
    simp only [hrest] at h
    cases h
  | ok pss' =>
    simp only [hrest, ok_bind] at h
    cases h
    exact ⟨pss', rfl⟩

section

variable {K : Context} {p : PatMat} {t : Ty} {ts : List Ty}

theorem firstColTy_ok (hp : MatFits K.data K.store p (t :: ts)) (hne : p ≠ []) :
    ∃ q ps pss, p = (q :: ps) :: pss ∧ Fit K.data K.store q t ∧ firstColTy K p = .ok (typeOfPat K q) := by
  cases p with
  | nil => exact absurd rfl hne
  | cons row pss =>
    have hrow := hp row mem_cons_self
    cases hrow with
    | cons hq _ => exact ⟨_, _, pss, rfl, hq, rfl⟩

theorem firstColTupleTy_ok (hp : MatFits K.data K.store p (t :: ts)) (hne : p ≠ []) :
    ∃ b, firstColTupleTy K p = .ok b ∧ (b = true → ∃ t₀ tys, firstColTy K p = .ok (.tupleTy (t₀ :: tys))) := by
  obtain ⟨q, ps, pss, rfl, -, heq⟩ := firstColTy_ok hp hne
  rw [firstColTupleTy, heq, ok_bind]
  cases typeOfPat K q with
  | tupleTy tys =>
    cases tys with
    | nil => exact ⟨false, rfl, by simp⟩
    | cons t₀ tys => exact ⟨true, rfl, fun _ => ⟨t₀, tys, rfl⟩⟩
  | _ => exact ⟨false, rfl, by simp⟩

variable {tys : List Ty} {ty : Ty} {args : List Ty} {tyc : TyCon} {c : DCon}

/-- Taking tuples apart makes the matrix smaller, or else the first row. -/
theorem sT_smaller {ts' : List Ty} {q : Pat} {ps : List Pat} {pss p' : PatMat}
    (hq : Fit K.data K.store q (.tupleTy ts')) (hu : NoUnitLit ((q :: ps) :: pss))
    (hty : typeOfPat K q = .tupleTy tys) (hs : sT tys ((q :: ps) :: pss) = .ok p')
    (hr : Rows (Cell K.data K.store (Splits .tuple) ts') ((q :: ps) :: pss) p') :
    matWeight p' < matWeight ((q :: ps) :: pss) ∨
      (matWeight p' ≤ matWeight ((q :: ps) :: pss) ∧ firstSize p' < firstSize ((q :: ps) :: pss)) := by
  obtain ⟨rs, rfl, -⟩ | ⟨ty, rfl, -⟩ := fit_tuple hq (by rintro k rfl; exact hu k ps mem_cons_self)
  · exact .inl (hr.weight_lt mem_cons_self (by simp [weight]))
  · refine .inr ⟨hr.weight_le, ?_⟩
    obtain rfl : ty = .tupleTy tys := hty
    obtain ⟨pss', rfl⟩ := rowLoop_first hs (show sTCell tys (.wildPat (.tupleTy tys)) = .ok (some (tys.map .wildPat)) by simp [sTCell])
    simp only [firstSize, vecSize, vecSize_append, vecSize_wilds, patSize, tySize]
    omega

theorem tupleOf_ok {qs v : List Pat} {n : Nat} (h : qs.length = n) : tupleOf n (qs ++ v) = .ok (.tuplePat qs :: v) := by
  subst h
  simp [tupleOf]

theorem iTuple_returns (hp : MatFits K.data K.store p (t :: ts)) (hnode : INode K p (t :: ts))
    (htup : firstColTupleTy K p = .ok true) (hb : BelowMat K p (t :: ts)) :
    ∃ o, Returns (fun n => iTuple K (i K n) p (t :: ts).length) o ∧ Found K p (t :: ts) o := by
  obtain ⟨b, heq, hty⟩ := firstColTupleTy_ok hp hnode.nonempty
  rw [htup] at heq
  cases heq
  obtain ⟨t₀, tys, hcol⟩ := hty rfl
  obtain ⟨q, ps, pss, rfl, hq, hcol'⟩ := firstColTy_ok hp hnode.nonempty
  rw [hcol] at hcol'
  have hqty : typeOfPat K q = .tupleTy (t₀ :: tys) := (Except.ok.inj hcol').symm
  have hannot := typeOfPat_annot hq
  rw [hqty] at hannot
  obtain ⟨ts', rfl, hall⟩ := hannot.tuple_inv
  obtain ⟨t₁, ts', rfl⟩ : ∃ t₁ ts'', ts' = t₁ :: ts'' := by
    cases hall
    exact ⟨_, _, rfl⟩
  have hu := noUnitLit_of_tuple hp
  obtain ⟨p', hs, hr⟩ := sT_rows hall (hnode.tuple htup) hu hp
  obtain ⟨o, hret, hfound⟩ := hb p' _ (.tuple htup hcol hs) (hr.fits hp) (sT_smaller hq hu hqty hs hr)
  have hlen : (t₀ :: tys).length + (Ty.tupleTy (t₁ :: ts') :: ts).length - 1 = (t₁ :: ts' ++ ts).length := by
    rw [hall.length_eq, List.length_append, length_cons (a := Ty.tupleTy (t₁ :: ts'))]
    omega
  cases o with
  | none =>
    refine ⟨none, ?_, ⟨fun _ => ?_, by simp⟩⟩
    · simp only [iTuple, hcol, hs, ok_bind, hlen]
      exact hret.bind (.pure _)
    · exact exhaustive_of_head (.tuple _) hr (fun w hw => split_tuple hw) (hfound.none rfl)
  | some w =>
    obtain ⟨hfit, hun⟩ := hfound.some w rfl
    obtain ⟨qs, v, hqs, hv, rfl⟩ : ∃ qs v, VecFits K.data K.store qs (t₁ :: ts') ∧ VecFits K.data K.store v ts ∧ w = qs ++ v :=
      ⟨_, _, List.forall₂_take_append w _ ts hfit, List.forall₂_drop_append w _ ts hfit, (List.take_append_drop _ _).symm⟩
    refine ⟨some (.tuplePat qs :: v), ?_, ⟨by simp, ?_⟩⟩
    · simp only [iTuple, hcol, hs, ok_bind, hlen]
      refine hret.bind ?_
      simp only [tupleOf_ok (hqs.length_eq.trans hall.length_eq.symm), ok_bind]
      exact .pure _
    · rintro _ ⟨⟩
      obtain ⟨hlen', hall'⟩ := List.forall₂_iff_zip.1 hqs
      refine ⟨.cons (.tuplePat hlen' fun q hq => hall' hq) hv, unmatched_of_head (.tuple _) hr (fun w hw hm => ?_) hun⟩
      obtain ⟨ws, rfl, hqs'⟩ := accepts_tuplePat.1 hm
      exact ⟨ws, .tuple ws, hqs'⟩

/-- A column of units. -/
theorem iLits_unit (hp : MatFits K.data K.store p (unitTy :: ts)) (htup : firstColTupleTy K p = .ok false)
    (hlits : colLits p ≠ []) (hcol : Returns (fun n => firstColLits K n none [] p) (ty, unitLitSet))
    (hst : Stands K.store ty unitTy) (hb : BelowMat K p (unitTy :: ts)) :
    ∃ o, Returns (fun n => iLits K n (i K n) p (unitTy :: ts).length) o ∧ Found K p (unitTy :: ts) o := by
  have hcomp := completeLits_unit (K := K) hst
  obtain ⟨p', hs, hr⟩ := sL_unit_rows hst hp
  obtain ⟨q, ps, hmem, hw⟩ := exists_weight_of_lit hlits
  obtain ⟨o, hret, hfound⟩ := hb p' ts (.lit htup hcol hcomp (by decide) hs) (hr.fits hp) (.inl (hr.weight_lt hmem hw))
  cases o with
  | none =>
    refine ⟨none, ?_, ⟨fun _ => exhaustive_of_head (.tuple []) hr (fun w hw => split_tuple hw) (hfound.none rfl), by simp⟩⟩
    exact hcol.bind (hcomp.bind (hs.bind (hret.bind (.pure _))))
  | some w =>
    obtain ⟨hfit, hun⟩ := hfound.some w rfl
    refine ⟨some (.constPat (.lConst unitLit ty) :: w), hcol.bind (hcomp.bind (hs.bind (hret.bind (.pure _)))), ⟨by simp, ?_⟩⟩
    rintro _ ⟨⟩
    refine ⟨.cons (.unit hst) hfit, @unmatched_of_head _ _ _ _ _ _ _ _ [] _ (.tuple []) hr (fun w hw _ => ?_) hun⟩
    obtain ⟨ws, hsplit⟩ := split_tuple hw
    have hws := ((HeadTy.tuple []).typed hsplit).1 hw
    cases hws
    exact ⟨[], hsplit, .nil⟩

/-- A literal that no cell of the column is. -/
theorem rest_of_lit {l : Literal} (hlit : LitTy K.data l t) (hp : MatFits K.data K.store p (t :: ts))
    (hl : l ∉ colLits p) {w : Value} (hm : accepts (.constPat (.lConst l ty)) w = true) : Rest p w [] := by
  obtain rfl | ⟨-, h⟩ := accepts_lConst.1 hm
  · refine ⟨rfl, fun q ps hmem hq => ?_⟩
    obtain ⟨hfit, -⟩ := forall₂_cons.1 (hp _ hmem)
    obtain ⟨l', ty', rfl, -, -⟩ | ⟨ty', rfl⟩ := fit_lit hfit hlit
    · have hne : l' ≠ l := fun h => hl (h ▸ List.mem_filterMap.2 ⟨_, hmem, rfl⟩)
      simp [accepts, hne]
    · exact absurd rfl hq
  · exact absurd h hlit.ne_unit

/-- A column of literals of other types. -/
theorem iLits_lit (hin : AllInhabited K.data) {l₀ : Literal} (hlit : LitTy K.data l₀ t)
    (hp : MatFits K.data K.store p (t :: ts)) (hnode : INode K p (t :: ts)) (htup : firstColTupleTy K p = .ok false)
    (hlits : colLits p ≠ [])
    (hcol : Returns (fun n => firstColLits K n none [] p) (ty, (colLits p).foldl litSetAdd []))
    (hst : Stands K.store ty t) (hb : BelowMat K p (t :: ts)) :
    ∃ o, Returns (fun n => iLits K n (i K n) p (t :: ts).length) o ∧ Found K p (t :: ts) o := by
  have hcomp := completeLits_lit hlit hst ((colLits p).foldl litSetAdd [])
  obtain ⟨p', hd, hr⟩ := d_rows hp
  -- the rest of the column has a literal, unless the default matrix is exhaustive
  have hknown {v : List Pat} (hv : VecFits K.data K.store v ts) (hu : Unmatched K.data p' ts v) :
      ∃ l ty', Returns (fun n => unrepresentedLit K n ty ((colLits p).foldl litSetAdd [])) (some (.constPat (.lConst l ty'))) ∧
        LitTy K.data l t ∧ Stands K.store ty' t ∧ l ∉ colLits p := by
    obtain hrest | ⟨l, ty', hret⟩ := hnode.lit htup ty _ hcol hcomp
    · obtain ⟨vs, hvs, hm⟩ := fits_instance hin hv
      have hother := rest_other (n := 0) hlit hp
      have hc := hrest (.other 0) vs hother (.cons (.flat hlit.flat) hvs)
      exact absurd ((hr.default.covered hother .nil).1 hc) (hu vs hvs hm)
    · exact ⟨l, ty', hret, unrepresentedLit_spec hlit hst (colLits_litTy hlit hp) hret⟩
  cases p' with
  | nil =>
    obtain ⟨q, ps, pss, rfl, -, -⟩ := firstColTy_ok hp hnode.nonempty
    have hps := (forall₂_cons.1 (hp _ mem_cons_self)).2
    have hu : Unmatched K.data [] ts ps := fun vals _ _ ⟨_, hmem, _⟩ => nomatch hmem
    obtain ⟨l, ty', hret, hlit', hst', hl⟩ := hknown hps hu
    refine ⟨some (.constPat (.lConst l ty') :: ps), ?_, ⟨by simp, ?_⟩⟩
    · refine hcol.bind (hcomp.bind ?_)
      simp only [hd, ok_bind, restFirstRow]
      exact hret.bind (.pure _)
    · rintro _ ⟨⟩
      exact ⟨.cons (.lConst hlit' hst') hps, unmatched_of_default hr (fun w _ hm => rest_of_lit hlit' hp hl hm) hu⟩
  | cons row pss =>
    obtain ⟨q, ps, hmem, hw⟩ := exists_weight_of_lit hlits
    obtain ⟨o, hret, hfound⟩ := hb (row :: pss) ts (.litDefault htup hcol hcomp hd (by simp)) (hr.default.fits hp)
      (.inl (hr.default.weight_lt hmem hw))
    cases o with
    | none =>
      refine ⟨none, ?_, ⟨fun _ => exhaustive_of_default hr (hfound.none rfl), by simp⟩⟩
      refine hcol.bind (hcomp.bind ?_)
      simp only [hd, ok_bind]
      exact hret.bind (.pure _)
    | some v =>
      obtain ⟨hv, hu⟩ := hfound.some v rfl
      obtain ⟨l, ty', hret', hlit', hst', hl⟩ := hknown hv hu
      refine ⟨some (.constPat (.lConst l ty') :: v), ?_, ⟨by simp, ?_⟩⟩
      · refine hcol.bind (hcomp.bind ?_)
        simp only [hd, ok_bind]
        exact hret.bind (hret'.bind (.pure _))
      · rintro _ ⟨⟩
        exact ⟨.cons (.lConst hlit' hst') hv, unmatched_of_default hr (fun w _ hm => rest_of_lit hlit' hp hl hm) hu⟩

theorem HeadTy.arity {D : Data} {ts' : List Ty} (h : HeadTy D (.conTy args tyc) (.con c) ts') :
    ts'.length = if c.argTy.isSome then 1 else 0 := by
  cases h with
  | con _ _ hn => rw [Option.map_eq_none_iff.1 hn]; rfl
  | conApp _ _ hs =>
    obtain ⟨ty, hty, -⟩ := Option.map_eq_some_iff.1 hs
    rw [hty]
    rfl

theorem iLits_returns (hin : AllInhabited K.data) (hp : MatFits K.data K.store p (t :: ts)) (hnode : INode K p (t :: ts))
    (htup : firstColTupleTy K p = .ok false) (hlits : colLits p ≠ []) (hb : BelowMat K p (t :: ts)) :
    ∃ o, Returns (fun n => iLits K n (i K n) p (t :: ts).length) o ∧ Found K p (t :: ts) o := by
  have hcol := litCol_of hp hlits
  obtain ⟨ty, hret, hst⟩ := firstColLits_returns hp hcol none (by simp) (.inr hlits) []
  obtain ⟨l, hlit⟩ | rfl := hcol
  · exact iLits_lit hin hlit hp hnode htup hlits hret hst hb
  grind [foldl_unit, colLits_unit, iLits_unit]

/-- The loop over the constructors, from a prefix whose values are covered. -/
theorem iConLoop_returns (hin : AllInhabited K.data) {args tys : List Ty} {tyc : TyCon} {l pre cs : List DCon}
    (hl : K.data.cons tyc = some l) (hp : MatFits K.data K.store p (.conTy args tyc :: ts))
    (hnode : INode K p (.conTy args tyc :: ts)) (htup : firstColTupleTy K p = .ok false)
    (hno : firstColContainsLits p = false) (hcons : firstColCons [] p = .ok (pre ++ cs))
    (hcomp : completeCons K.data (pre ++ cs) = .ok true) (hcs : colCons p ≠ []) (hsub : ∀ c ∈ cs, c ∈ l)
    (hpre : ∀ c ∈ pre, HeadCovered K.data p (.conTy args tyc :: ts) c) (hb : BelowMat K p (.conTy args tyc :: ts)) :
    ∃ o, Returns (fun n => iConLoop (i K n) p (ts.length + 1) tys cs) o ∧
      (o = none → ∀ c ∈ cs, HeadCovered K.data p (.conTy args tyc :: ts) c) ∧
      ∀ w, o = some w → VecFits K.data K.store w (.conTy args tyc :: ts) ∧ Unmatched K.data p (.conTy args tyc :: ts) w := by
  induction cs generalizing pre with
  | nil => exact ⟨none, .pure _, by simp, by simp⟩
  | cons c cs ih =>
    have hc := hsub c mem_cons_self
    obtain ⟨ts', hh⟩ := headTy_con args hl hc
    obtain ⟨p', hs, hr⟩ := s_rows hl hc hh hp
    obtain ⟨q, ps, hmem, hw⟩ := exists_weight_of_con hcs
    obtain ⟨o, hret, hfound⟩ := hb p' _ (.con htup hno hcons hcomp hpre hh hs) (hr.fits hp) (.inl (hr.weight_lt hmem hw))
    have hlen : (if c.argTy.isSome then 1 else 0) + (ts.length + 1) - 1 = (ts' ++ ts).length := by
      rw [List.length_append, hh.arity]
      omega
    cases o with
    | none =>
      have hcov := (headCovered_iff hh hr).2 (hfound.none rfl)
      obtain ⟨o, hret', hnone, hsome⟩ := @ih (pre ++ [c]) (by simpa using hcons) (by simpa using hcomp)
        (fun c' hc' => hsub c' (List.mem_cons_of_mem _ hc')) (fun c' hc' => by
          grind)
      refine ⟨o, ?_, fun ho => List.forall_mem_cons.2 ⟨hcov, hnone ho⟩, hsome⟩
      simp only [iConLoop, hs, ok_bind, hlen]
      exact hret.bind hret'
    | some v =>
      obtain ⟨hfit, hun⟩ := hfound.some v rfl
      cases hh with
      | con _ _ hn =>
        have hnull : c.argTy = none := Option.map_eq_none_iff.1 hn
        have hcov := hnode.nullary hno _ hcons hcomp pre c cs rfl hpre hnull
        obtain ⟨vals, htyped, hm⟩ := fits_instance hin hfit
        exact absurd ((headCovered_iff (.con hl hc hn) hr).1 hcov vals htyped) (hun vals htyped hm)
      | conApp _ _ hs' =>
        obtain _ | @⟨q, _, v, _, hq, hv⟩ := hfit
        refine ⟨some (.conPat c tys q :: v), ?_, by simp, ?_⟩
        · simp only [iConLoop, hs, ok_bind, hlen]
          exact hret.bind (.pure _)
        · rintro _ ⟨⟩
          have hhead : HeadTy K.data (.conTy args tyc) (.con c) _ := .conApp hl hc hs'
          refine ⟨.cons (.conPat hl hc hs' hq) hv, @unmatched_of_head _ _ _ _ _ _ _ _ [q] _ hhead hr (fun w hw hm => ?_) hun⟩
          obtain ⟨c', x, rfl, hsame, hx⟩ := accepts_conPat.1 hm
          obtain ⟨c'', hc'', _, hsplit⟩ := split_datatype hl hw
          cases hsplit
          rw [(same_iff hl hc hc'').1 hsame]
          exact ⟨[x], .conApp _ x, .cons hx .nil⟩

theorem mkConPat_fit {l : List DCon} (hl : K.data.cons tyc = some l) (hc : c ∈ l) :
    Fit K.data K.store (mkConPat c tys) (.conTy args tyc) := by
  cases hty : c.argTy with
  | none =>
    rw [mkConPat, hty]
    exact .dConst hl hc (Option.map_eq_none_iff.2 hty)
  | some ty =>
    rw [mkConPat, hty]
    exact .conPat hl hc (Option.map_eq_some_iff.2 ⟨ty, hty, rfl⟩)
      (.wildPat (annot_applySubst _ ty (K.declared tyc l hl c hc ty hty)))

/-- The values of the pattern have its constructor. -/
theorem mkConPat_split {l : List DCon} (hl : K.data.cons tyc = some l) (hc : c ∈ l) {w : Value}
    (hw : HasTy K.data w (.conTy args tyc)) (hm : accepts (mkConPat c tys) w = true) :
    ∃ ws, Splits (.con c) w ws := by
  obtain ⟨c'', hc'', ws, hsplit⟩ := split_datatype hl hw
  have heq : c = c'' := by
    unfold mkConPat at hm
    split at hm
    · obtain ⟨c', rfl, hsame⟩ := accepts_dConst.1 hm
      cases hsplit
      exact (same_iff hl hc hc'').1 hsame
    · obtain ⟨c', x, rfl, hsame, -⟩ := accepts_conPat.1 hm
      cases hsplit
      exact (same_iff hl hc hc'').1 hsame
  exact ⟨ws, heq ▸ hsplit⟩

/-- A column of constructors. -/
theorem iCons_returns (hin : AllInhabited K.data) (hp : MatFits K.data K.store p (t :: ts)) (hnode : INode K p (t :: ts))
    (htup : firstColTupleTy K p = .ok false) (hlits : colLits p = []) (hcs : colCons p ≠ [])
    (hb : BelowMat K p (t :: ts)) :
    ∃ o, Returns (fun n => iCons K (i K n) p (t :: ts).length) o ∧ Found K p (t :: ts) o := by
  have hno := firstColContainsLits_false hlits
  obtain ⟨args, tyc, l, rfl, hl, hsub⟩ := datatype_of hp hcs
  obtain ⟨hset, hmem⟩ := foldl_addCon hl hsub ⟨by simp, .nil⟩
  have hcons := firstColCons_eq (matFits_ne hp) []
  obtain ⟨b, hcomp, hb'⟩ := completeCons_iff hl hset
  obtain ⟨tys, hty⟩ : ∃ tys, firstColArgs K p = .ok tys := by
    unfold firstColArgs
    obtain ⟨args', tyc', hty⟩ | ⟨mv, hty⟩ := hnode.conTy hno hcs
    · exact ⟨args', by rw [hty]; rfl⟩
    · exact ⟨[], by rw [hty]; rfl⟩
  cases b with
  | true =>
    have hall := (hb'.1 rfl).2
    obtain ⟨o, hret, hnone, hsome⟩ := @iConLoop_returns _ _ _ hin args tys tyc l [] _ hl hp hnode htup hno hcons hcomp hcs
      hset.sub (by simp) hb
    refine ⟨o, ?_, ⟨fun ho => ?_, hsome⟩⟩
    · simp only [iCons, hcons, hty, ok_bind, hcomp, if_true]
      exact hret
    · intro vals htyped
      cases htyped with
      | @cons w _ vs _ hw hvs =>
        obtain ⟨c, hc, ws, hs⟩ := split_datatype hl hw
        exact hnone ho c (hall c hc) w ws vs hs (.cons hw hvs)
  | false =>
    have hne : (colCons p).foldl addCon [] ≠ [] := by
      obtain ⟨c, hc⟩ := List.exists_mem_of_ne_nil _ hcs
      exact List.ne_nil_of_mem ((hmem c).2 (.inr hc))
    have hmiss : ∃ c ∈ l, c ∉ (colCons p).foldl addCon [] := by
      by_contra hno
      push Not at hno
      exact Bool.noConfusion (hb'.2 ⟨hne, hno⟩)
    obtain ⟨c, cs, hun, hc, hc'⟩ := unrepresentedCons_ok hl hset hne hmiss
    have hfresh : c ∉ colCons p := fun h => hc' ((hmem c).2 (.inr h))
    obtain ⟨p', hd, hr⟩ := d_rows hp
    obtain ⟨q, ps, hqmem, hw⟩ := exists_weight_of_con hcs
    obtain ⟨o, hret, hfound⟩ := hb p' ts (.conDefault htup hno hcons hcomp hd) (hr.default.fits hp)
      (.inl (hr.default.weight_lt hqmem hw))
    cases o with
    | none =>
      refine ⟨none, ?_, ⟨fun _ => exhaustive_of_default hr (hfound.none rfl), by simp⟩⟩
      simp only [iCons, hcons, hty, ok_bind, hcomp, Bool.false_eq_true, if_false, hd]
      exact hret.bind (.pure _)
    | some v =>
      obtain ⟨hv, hu⟩ := hfound.some v rfl
      refine ⟨some (mkConPat c tys :: v), ?_, ⟨by simp, ?_⟩⟩
      · simp only [iCons, hcons, hty, ok_bind, hcomp, Bool.false_eq_true, if_false, hd]
        refine hret.bind ?_
        simp only [hun, ok_bind]
        exact .pure _
      · rintro _ ⟨⟩
        refine ⟨.cons (mkConPat_fit hl hc) hv, unmatched_of_default hr (fun w hw hm => ?_) hu⟩
        obtain ⟨ws, hs⟩ := mkConPat_split hl hc hw hm
        exact rest_of_con hl hp hc hfresh hs

/-- A column of wildcards. -/
theorem iVars_returns (hp : MatFits K.data K.store p (t :: ts)) (hnode : INode K p (t :: ts))
    (htup : firstColTupleTy K p = .ok false) (hlits : colLits p = []) (hcs : colCons p = []) (hb : BelowMat K p (t :: ts)) :
    ∃ o, Returns (fun n => iVars K (i K n) p (t :: ts).length) o ∧ Found K p (t :: ts) o := by
  have hno := firstColContainsLits_false hlits
  have hcons := firstColCons_eq (matFits_ne hp) []
  rw [hcs] at hcons
  have hwild {q : Pat} {ps : List Pat} (hmem : q :: ps ∈ p) := wild_of_bare hp hlits hcs (hnode.noTuple htup) hmem
  obtain ⟨p', hd, hr⟩ := d_rows hp
  obtain ⟨q, ps, pss, rfl, hq, hcol⟩ := firstColTy_ok hp hnode.nonempty
  obtain ⟨ty, rfl⟩ := hwild mem_cons_self
  have hsmall : firstSize p' < firstSize ((.wildPat ty :: ps) :: pss) := by
    obtain ⟨pss', rfl⟩ := rowLoop_first hd (show dCell (.wildPat ty) = .ok (some []) from rfl)
    exact vecSize_tail ty ps
  obtain ⟨o, hret, hfound⟩ := hb p' ts (.conDefault htup hno hcons rfl hd) (hr.default.fits hp)
    (.inr ⟨hr.default.weight_le, hsmall⟩)
  cases o with
  | none =>
    refine ⟨none, ?_, ⟨fun _ => exhaustive_of_default hr (hfound.none rfl), by simp⟩⟩
    simp only [iVars, hcol, ok_bind, hd]
    exact hret.bind (.pure _)
  | some v =>
    obtain ⟨hv, hu⟩ := hfound.some v rfl
    refine ⟨some (.wildPat ty :: v), ?_, ⟨by simp, ?_⟩⟩
    · simp only [iVars, hcol, ok_bind, hd]
      exact hret.bind (.pure _)
    · rintro _ ⟨⟩
      refine ⟨.cons hq hv, unmatched_of_default hr (fun w _ _ => ⟨rfl, fun q ps hmem hq' => ?_⟩) hu⟩
      obtain ⟨ty', rfl⟩ := hwild hmem
      exact absurd rfl hq'

theorem firstColContainsCons_iff : firstColContainsCons p = true ↔ colCons p ≠ [] := by
  induction p with
  | nil => simp [firstColContainsCons, colCons]
  | cons row p ih =>
    unfold firstColContainsCons colCons at ih ⊢
    rw [List.any_cons, Bool.or_eq_true, ih, List.filterMap_cons]
    split <;> split <;> simp_all

theorem i_step (hin : AllInhabited K.data) (hp : MatFits K.data K.store p ts) (hnode : ts ≠ [] → INode K p ts)
    (hb : BelowMat K p ts) : SearchAnswers K p ts := by
  cases ts with
  | nil =>
    by_cases hne : p = []
    · subst hne
      refine ⟨some [], .succ (.pure _), ⟨by simp, ?_⟩⟩
      rintro _ ⟨⟩
      exact ⟨.nil, fun vals _ _ ⟨_, hmem, _⟩ => nomatch hmem⟩
    · obtain ⟨row, hrow⟩ := List.exists_mem_of_ne_nil p hne
      have hlength : (dim p).2 > 0 := by cases p <;> simp [dim] at hne ⊢
      refine ⟨none, .succ ?_, ⟨fun _ vals htyped => ?_, by simp⟩⟩
      · simp only [i, List.length_nil, if_true, hlength]
        exact .pure _
      · have hrow' := hp row hrow
        cases htyped
        cases hrow'
        exact ⟨[], hrow, .nil⟩
  | cons t ts =>
    have hnode := hnode (by simp)
    obtain ⟨b, htup, -⟩ := firstColTupleTy_ok hp hnode.nonempty
    cases b with
    | true =>
      obtain ⟨o, hret, hfound⟩ := iTuple_returns hp hnode htup hb
      refine ⟨o, .succ ?_, hfound⟩
      simp only [i, length_cons, Nat.add_one_ne_zero, if_false, htup, ok_bind, if_true]
      exact hret
    | false =>
      by_cases hlits : colLits p = []
      · have hno := firstColContainsLits_false hlits
        by_cases hcs : colCons p = []
        · obtain ⟨o, hret, hfound⟩ := iVars_returns hp hnode htup hlits hcs hb
          have hnoCons : firstColContainsCons p = false := by
            rw [← Bool.not_eq_true, firstColContainsCons_iff]
            exact not_not.2 hcs
          refine ⟨o, .succ ?_, hfound⟩
          simp only [i, length_cons, Nat.add_one_ne_zero, if_false, htup, ok_bind, Bool.false_eq_true, hno, hnoCons]
          exact hret
        · obtain ⟨o, hret, hfound⟩ := iCons_returns hin hp hnode htup hlits hcs hb
          refine ⟨o, .succ ?_, hfound⟩
          simp only [i, length_cons, Nat.add_one_ne_zero, if_false, htup, ok_bind, Bool.false_eq_true, hno,
            firstColContainsCons_iff.2 hcs, if_true]
          exact hret
      · have hyes := firstColContainsLits_iff.2 hlits
        obtain ⟨o, hret, hfound⟩ := iLits_returns hin hp hnode htup hlits hb
        refine ⟨o, .succ ?_, hfound⟩
        simp only [i, length_cons, Nat.add_one_ne_zero, if_false, htup, ok_bind, Bool.false_eq_true, hyes, if_true]
        exact hret

/-- `i` answers for every matrix that is clear. -/
theorem i_returns (hin : AllInhabited K.data) (hp : MatFits K.data K.store p ts) (hc : ClearMat K p ts) :
    SearchAnswers K p ts := by
  induction hm : matWeight p using Nat.strong_induction_on generalizing p ts with
  | _ m ihm =>
    induction hn : firstSize p using Nat.strong_induction_on generalizing p ts with
    | _ n ihn =>
      refine i_step hin hp (fun hne => hc (p, ts) .refl hne) fun p' ts' hsub hp' hlt => ?_
      obtain hlt | ⟨hle, hlt⟩ := hlt
      · exact ihm _ (hm ▸ hlt) hp' (hc.sub hsub) rfl
      · obtain heq | hlt' := Nat.eq_or_lt_of_le hle
        · exact ihn _ (hn ▸ hlt) hp' (hc.sub hsub) (heq.trans hm) rfl
        · exact ihm _ (hm ▸ hlt') hp' (hc.sub hsub) rfl

/-- The answer for a matrix with rows. -/
theorem inexhaustive_returns (hin : AllInhabited K.data) (hne : p ≠ []) (hp : MatFits K.data K.store p ts)
    (hc : ClearMat K p ts) :
    ∃ o, Returns (fun n => inexhaustive K n p) o ∧ (o = none ↔ Exhaustive K.data p ts) ∧
      ∀ w, o = some w → VecFits K.data K.store w ts ∧ Unmatched K.data p ts w := by
  obtain ⟨o, hret, hfound⟩ := i_returns hin hp hc
  refine ⟨o, ?_, ⟨hfound.none, fun he => ?_⟩, hfound.some⟩
  · rw [← dim_width hp hne] at hret
    exact hret
  · cases o with
    | none => rfl
    | some w =>
      obtain ⟨hfit, hun⟩ := hfound.some w rfl
      obtain ⟨vals, htyped, hm⟩ := fits_instance hin hfit
      exact absurd (he vals htyped) (hun vals htyped hm)

end

/-! ## Rules -/

section

variable {E : Type} {K : Context}

/-- Every value of the type is matched by some unguarded rule. -/
def RulesExhaustive (D : Data) (t : Ty) (ms : List (Rule E)) : Prop :=
  ∀ w, HasTy D w t → ∃ m ∈ ms, m.cond = none ∧ accepts (patOf m) w = true

theorem covered_rules {ms : List (Rule E)} {w : Value} :
    Covered (ms.map (ruleRow K)) [w] ↔ ∃ m ∈ ms, accepts (patOf m) w = true := by
  simp [Covered, matches_ruleRow]

theorem exhaustive_rules {t : Ty} {ms : List (Rule E)} :
    Exhaustive K.data (ms.map (ruleRow K)) [t] ↔ ∀ w, HasTy K.data w t → ∃ m ∈ ms, accepts (patOf m) w = true := by
  constructor
  · exact fun h w hw => covered_rules.1 (h [w] (.cons hw .nil))
  · intro h vals htyped
    obtain _ | ⟨hw, hnil⟩ := htyped
    cases hnil
    exact covered_rules.2 (h _ hw)

end

/-! ## Options -/

theorem noneMatrix_clear : ClearMat optionContext [[nonePat]] [optionTy intTy] := by
  have hnolits : ¬ ∃ r, Returns (fun n => firstColLits optionContext n none [] [[nonePat]]) r := by
    rintro ⟨r, hr⟩
    cases hr.of_const
  have hcons : firstColCons [] [[nonePat]] = .ok [noneCon] := rfl
  have hcomp : completeCons optionContext.data [noneCon] = .ok false := rfl
  intro q hq hne
  obtain rfl | ⟨q', hsub, hq⟩ := hq.cases_head
  · constructor
    case nonempty => simp
    case tuple => exact fun h => by cases h
    case noTuple => exact fun _ r rs ps h => by simp [nonePat] at h
    case lit => exact fun _ ty sigma hret => absurd ⟨_, hret⟩ hnolits
    case conTy => exact fun _ _ => .inl ⟨_, _, rfl⟩
    grind
  · cases hsub with
    | lit _ hret | litDefault _ hret => exact absurd ⟨_, hret⟩ hnolits
    | con _ _ hsigma hc =>
      rw [hcons] at hsigma
      rw [← Except.ok.inj hsigma] at hc
      cases hc
    | conDefault =>
      obtain rfl | ⟨_, hsub, _⟩ := hq.cases_head
      · exact absurd rfl hne
      · cases hsub

/-- `of (NONE, NONE) => a` of a pair of options. -/
def nonePairMatrix : PatMat := [[.tuplePat [nonePat, nonePat]]]

end Manticore.Match.MatchCheck
