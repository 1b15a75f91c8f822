/-
  Manticore.BomOpt.LiteralCaseCorrect — for which labels the conversion of a case on raw literals executes the action
  of the case whose label equals the argument.

  - `correct_linear`: fewer than three labels are tested one by one, at any type.
  - `correct_ints`: three integer labels or more are found exactly when they increase as signed words.
  - `convert_floats`: three float labels or more make the conversion raise.
  - `literalCase_correct_iff` puts these together; `literalCase_wraps` is the least failing list.
-/

import Manticore.BomOpt.LiteralCaseProofs

namespace Manticore.Bom.LiteralCase

open CaseSimplify TGen Transition
open List (mem_singleton map_cons map_map map_id length_map mem_map_of_mem mem_map pairwise_map)

/-! ## What the conversion is for -/

/-- The evaluation of `e` silently comes to that of `act`, on the same stack. What was there below `lim` is untouched. -/
def Selects (M : Machine) (lim : Nat) (ρ : Env) (e act : Exp) : Prop :=
  ∀ stk code made w, ∃ n ρ' code' made',
    Run (step M) n ⟨.eval e ρ, stk, code, made, w⟩ [] ⟨.eval act ρ', stk, code', made', w⟩ ∧
      (∀ x, x.stamp < lim → ρ' x = ρ x ∧ made' x = made x) ∧ ∀ h, h.name.stamp < lim → code' h = code h

/-- Equality at a type. -/
def eqPrim : Ty → CondOp
  | .raw .int => .i32Eq
  | .raw .long => .i64Eq
  | .raw .float => .f32Eq
  | _ => .f64Eq

/-- The arguments of a type. -/
def IsArg : Ty → Val → Prop
  | .raw .int, v | .raw .long, v => ∃ a, v = .lit (.int a)
  | _, v => ∃ f, v = .lit (.float f)

def Equals (M : Machine) (ty : Ty) (v : Val) (l : Literal) : Prop := M.test (eqPrim ty) [v, .lit l] = some true

instance (M : Machine) (ty : Ty) (v : Val) (l : Literal) : Decidable (Equals M ty v l) :=
  inferInstanceAs (Decidable (_ = _))

/-- The action of a case whose label equals the argument, or the default when no label does. -/
def Wanted (M : Machine) (ty : Ty) (v : Val) (arcs : List (Literal × Exp)) (optDflt : Option Exp) (act : Exp) : Prop :=
  (∃ arc ∈ arcs, Equals M ty v arc.1 ∧ act = arc.2) ∨ (∀ arc ∈ arcs, ¬ Equals M ty v arc.1) ∧ optDflt = some act

/-- Whatever the actions, the conversion of a case with these labels does not raise and selects the wanted action. -/
def Correct (ty : Ty) (ls : List Literal) (hasDflt : Bool) : Prop :=
  ∀ (arg : Var) (arcs : List (Literal × Exp)) (optDflt : Option Exp) (st : TVars),
    arcs.map Prod.fst = ls → optDflt.isSome = hasDflt → arg.stamp < st.next →
      ∃ e st', literalCase ty arg arcs optDflt st = some (e, st') ∧ ∀ M v ρ, IsArg ty v → ρ arg = some v →
        ∃ act, Wanted M ty v arcs optDflt act ∧ Selects M st.next ρ e act

/-- Different integers, as words. -/
def DistinctWords (w : Nat) (ls : List Literal) : Prop :=
  ∃ is : List Int, ls = is.map .int ∧ is.Pairwise fun a b => sval w a ≠ sval w b

/-- Pairwise distinct labels of one type. Enumerations are not converted. -/
def Labels : Ty → List Literal → Prop
  | .raw .int, ls => DistinctWords 32 ls
  | .raw .long, ls => DistinctWords 64 ls
  | .raw .float, ls | .raw .double, ls => ∃ fs : List FloatLit, ls = fs.map .float ∧ fs.Nodup
  | .enum _, _ => False
  | _, ls => ls.Nodup

/-- The labels increase as signed words too. -/
def Increasing (w : Nat) (ls : List Literal) : Prop :=
  ∀ a b : Int, .int a ∈ ls → .int b ∈ ls → a < b → sval w a < sval w b

/-- The labels that the conversion handles. -/
def Handled : Ty → List Literal → Prop
  | .raw .int, ls => ls.length < 3 ∨ Increasing 32 ls
  | .raw .long, ls => ls.length < 3 ∨ Increasing 64 ls
  | .raw .float, ls | .raw .double, ls => ls.length < 3
  | _, _ => False

/-! ## Runs to an action -/

section

variable {M : Machine} {lim lim' : Nat} {ρ ρ' : Env} {e e' act : Exp}

theorem Comes.selects (h : Comes M lim ρ e act) : Selects M lim ρ e act := by
  intro stk code made w
  obtain ⟨ρ', hagree, hrun⟩ := h
  obtain ⟨n, hn⟩ := hrun stk code made w
  exact ⟨n, ρ', code, made, hn, fun x hx => ⟨hagree x hx, rfl⟩, fun _ _ => rfl⟩

/-- Returning one of two variables from the same place, they have the same value. -/
theorem Selects.ret_unique {x y : Var} {u v : Val} (hx : Selects M lim ρ e (.ret [x]))
    (hy : Selects M lim ρ e (.ret [y])) (w : M.W) (hxl : x.stamp < lim) (hyl : y.stamp < lim) (hu : ρ x = some u)
    (hv : ρ y = some v) : u = v := by
  obtain ⟨n, ρ₁, code₁, made₁, hn, hagree₁, -⟩ := hx [] (fun _ => none) (fun _ => 0) w
  obtain ⟨m, ρ₂, code₂, made₂, hm, hagree₂, -⟩ := hy [] (fun _ => none) (fun _ => 0) w
  have hget₁ : ρ₁.get [x] = some [u] := by simp [Env.get, (hagree₁ x hxl).1, hu]
  have hget₂ : ρ₂.get [y] = some [v] := by simp [Env.get, (hagree₂ y hyl).1, hv]
  obtain ⟨-, heq⟩ := (hn.append (.one (step_ret hget₁))).stop_unique (hm.append (.one (step_ret hget₂)))
    (by rintro _ _ ⟨⟩) (by rintro _ _ ⟨⟩)
  simp_all

end

section

variable {M : Machine} {ρ : Env} {k : Var} {e default act : Exp}

/-- The environment, the code and the counts under the continuation of the default. -/
def dfltEnv (k : Var) (default : Exp) (ρ : Env) (made : Var → Nat) : Env := bindFBs made ρ [.fb k [] [] default]

def dfltCode (k : Var) (default : Exp) (ρ : Env) (stk : List Frame) (code : Handle → Option Clo) (made : Var → Nat) :
    Handle → Option Clo :=
  addClos made code (fun fb => .cont fb (dfltEnv k default ρ made) stk) [.fb k [] [] default]

theorem dfltEnv_same (made : Var → Nat) : dfltEnv k default ρ made k = some (.code ⟨k, made k⟩) :=
  if_pos List.mem_cons_self

theorem dfltEnv_of_ne {x : Var} (made : Var → Nat) (h : x ≠ k) : dfltEnv k default ρ made x = ρ x :=
  if_neg fun hx => h (mem_singleton.mp hx)

theorem dfltCode_same (stk : List Frame) (code : Handle → Option Clo) (made : Var → Nat) :
    dfltCode k default ρ stk code made ⟨k, made k⟩ = some (.cont (.fb k [] [] default) (dfltEnv k default ρ made) stk) := by
  simp [dfltCode, addClos, Lambda.f]

theorem dfltCode_of_ne {h : Handle} (stk : List Frame) (code : Handle → Option Clo) (made : Var → Nat)
    (hh : h.name ≠ k) : dfltCode k default ρ stk code made h = code h := by
  unfold dfltCode addClos
  rw [List.find?_eq_none.mpr]
  intro fb hfb
  rw [mem_singleton.mp hfb]
  simpa only [decide_eq_true_eq] using fun heq => hh heq.symm

theorem ne_of_stamp_lt {x : Var} (h : x.stamp < k.stamp) : x ≠ k := by
  intro heq
  rw [heq] at h
  exact Nat.lt_irrefl _ h

/-- What the continuation adds has its own name. -/
theorem dflt_agree (stk : List Frame) (code : Handle → Option Clo) (made : Var → Nat) :
    (∀ x, x.stamp < k.stamp → dfltEnv k default ρ made x = ρ x ∧ bump made [.fb k [] [] default] x = made x) ∧
      ∀ h, h.name.stamp < k.stamp → dfltCode k default ρ stk code made h = code h :=
  ⟨fun _ hx => ⟨dfltEnv_of_ne made (ne_of_stamp_lt hx), if_neg fun h => ne_of_stamp_lt hx (mem_singleton.mp h)⟩,
    fun _ hh => dfltCode_of_ne stk code made (ne_of_stamp_lt hh)⟩

/-- A search below the continuation of the default. -/
theorem run_cont (h : ∀ made, Comes M (k.stamp + 1) (dfltEnv k default ρ made) e act) (stk : List Frame)
    (code : Handle → Option Clo) (made : Var → Nat) (w : M.W) : ∃ n ρ',
      Run (step M) n ⟨.eval (.cont (.fb k [] [] default) e) ρ, stk, code, made, w⟩ []
        ⟨.eval act ρ', stk, dfltCode k default ρ stk code made, bump made [.fb k [] [] default], w⟩ ∧
      ∀ x, x.stamp < k.stamp + 1 → ρ' x = dfltEnv k default ρ made x := by
  obtain ⟨ρ', hagree, hrun⟩ := h made
  obtain ⟨n, hn⟩ := hrun stk (dfltCode k default ρ stk code made) (bump made [.fb k [] [] default]) w
  have hstep : step M ⟨.eval (.cont (.fb k [] [] default) e) ρ, stk, code, made, w⟩ =
      .next ⟨.eval e (dfltEnv k default ρ made), stk, dfltCode k default ρ stk code made,
        bump made [.fb k [] [] default], w⟩ none := rfl
  exact ⟨_, ρ', .step hstep hn, hagree⟩

theorem selects_cont (h : ∀ made, Comes M (k.stamp + 1) (dfltEnv k default ρ made) e act) :
    Selects M k.stamp ρ (.cont (.fb k [] [] default) e) act := by
  intro stk code made w
  obtain ⟨n, ρ', hn, hagree⟩ := run_cont h stk code made w
  obtain ⟨henv, hcode⟩ := @dflt_agree ρ k default stk code made
  grind

/-- A search that throws to the default's continuation goes on with the default. -/
theorem selects_default (h : ∀ made, Comes M (k.stamp + 1) (dfltEnv k default ρ made) e (.throw k [])) :
    Selects M k.stamp ρ (.cont (.fb k [] [] default) e) default := by
  intro stk code made w
  obtain ⟨n, ρ', hn, hagree⟩ := run_cont h stk code made w
  have hk : ρ' k = some (.code ⟨k, made k⟩) := (hagree k (Nat.lt_succ_self _)).trans (dfltEnv_same made)
  have hthrow := @step_throw M ρ' stk (dfltCode k default ρ stk code made) (bump made [.fb k [] [] default]) w k [] _ []
    hk rfl
  have hraise := @step_raise M _ _ stk _ (bump made [.fb k [] [] default]) w _ _ _ _
    (@dfltCode_same ρ k default stk code made) (Env.bind_nil _)
  obtain ⟨henv, hcode⟩ := @dflt_agree ρ k default stk code made
  exact ⟨_, _, _, _, hn.append (.step hthrow (.one hraise)), henv, hcode⟩

end

/-! ## Labels as literals -/

section

variable {L : Type} {lit : L → Literal} {proj : Literal → Option L}

def withLits (lit : L → Literal) (arcs : List (L × Exp)) : List (Literal × Exp) := arcs.map fun arc => (lit arc.1, arc.2)

theorem projArcs_withLits (h : ∀ l, proj (lit l) = some l) (arcs : List (L × Exp)) :
    projArcs proj (withLits lit arcs) = some arcs := by
  induction arcs with
  | nil => rfl
  | cons arc arcs ih =>
    unfold projArcs withLits at *
    rw [map_cons, List.mapM_cons, ih, h]
    rfl

theorem exists_withLits {ls : List L} {arcs : List (Literal × Exp)} (h : arcs.map Prod.fst = ls.map lit) :
    ∃ arcs', arcs = withLits lit arcs' ∧ arcs'.map Prod.fst = ls := by
  induction ls generalizing arcs with
  | nil => exact ⟨[], List.map_eq_nil_iff.mp h, rfl⟩
  | cons l ls ih =>
    obtain ⟨arc, arcs, rfl, hl, hls⟩ := List.map_eq_cons_iff.mp h
    obtain ⟨arcs', rfl, rfl⟩ := ih hls
    refine ⟨(l, arc.2) :: arcs', ?_, rfl⟩
    unfold withLits
    rw [map_cons, ← hl]

theorem withLits_fst (arcs : List (L × Exp)) : (withLits lit arcs).map Prod.fst = (arcs.map Prod.fst).map lit := by
  rw [withLits, map_map, map_map]
  rfl

/-- The literals of a type are converted by a domain. -/
def ConvertedBy (ty : Ty) (C : CaseDomain L) (lit : L → Literal) : Prop :=
  ∀ arg arcs default, literalCase ty arg (withLits lit arcs) (some default) = convert C arg arcs default

theorem convertedBy {ty : Ty} {C : CaseDomain L} (proj : Literal → Option L) (hproj : ∀ l, proj (lit l) = some l)
    (h : ∀ arg arcs default, literalCase ty arg arcs (some default) =
      TGen.ofOption (projArcs proj arcs) >>= fun arcs => convert C arg arcs default) : ConvertedBy ty C lit := by
  intro arg arcs default
  rw [h, projArcs_withLits hproj]
  rfl

end

theorem literalCase_int : ConvertedBy (.raw .int) I32Tst .int :=
  convertedBy projInt (fun _ => rfl) fun _ _ _ => rfl

theorem literalCase_long : ConvertedBy (.raw .long) I64Tst .int :=
  convertedBy projInt (fun _ => rfl) fun _ _ _ => rfl

theorem literalCase_float : ConvertedBy (.raw .float) F32Tst .float :=
  convertedBy projFloat (fun _ => rfl) fun _ _ _ => rfl

theorem literalCase_double : ConvertedBy (.raw .double) F64Tst .float :=
  convertedBy projFloat (fun _ => rfl) fun _ _ _ => rfl

/-- Without a default the conversion raises. -/
theorem not_correct_of_dflt {ty : Ty} {ls : List Literal} : ¬ Correct ty ls false := by
  intro h
  obtain ⟨e, st', he, -⟩ := h ⟨0⟩ (ls.map fun l => (l, .ret [])) none ⟨1, fun _ => .any⟩
    (by rw [map_map]; exact map_id _) rfl Nat.zero_lt_one
  cases ty <;> cases he

section

variable {L : Type} {C : CaseDomain L} {lit : L → Literal} {ty : Ty} {ls : List L}

/-- The statement about a domain's conversion. -/
def ConvertCorrect (C : CaseDomain L) (lit : L → Literal) (ty : Ty) (ls : List L) : Prop :=
  ∀ (arg : Var) (arcs : List (L × Exp)) (default : Exp) (st : TVars), arcs.map Prod.fst = ls → arg.stamp < st.next →
    ∃ e st', convert C arg arcs default st = some (e, st') ∧ ∀ M v ρ, IsArg ty v → ρ arg = some v →
      ∃ act, Wanted M ty v (withLits lit arcs) (some default) act ∧ Selects M st.next ρ e act

theorem correct_iff_convert (hC : ConvertedBy ty C lit) :
    Correct ty (ls.map lit) true ↔ ConvertCorrect C lit ty ls := by
  constructor
  · intro h arg arcs default st hls harg
    rw [← hC]
    exact h arg (withLits lit arcs) (some default) st (by rw [withLits_fst, hls]) rfl harg
  · intro h arg arcs optDflt st hls hdflt harg
    obtain ⟨arcs', rfl, hls'⟩ := exists_withLits hls
    obtain ⟨default, rfl⟩ := Option.isSome_iff_exists.mp hdflt
    rw [hC]
    exact h arg arcs' default st hls' harg

/-! ## Fewer than three labels -/

theorem sort_perm (arcs : List (L × Exp)) : (sort C arcs).Perm arcs := List.mergeSort_perm _ _

theorem convert_few {arg : Var} {arcs : List (L × Exp)} {default : Exp} (h : arcs.length < 3) :
    convert C arg arcs default = genLinearSearch C arg default (sort C arcs) := by
  have hlen := (sort_perm (C := C) arcs).length_eq
  have hnum : decide ((sort C arcs).length ≥ minBinSearchNum) = false := decide_eq_false (by unfold minBinSearchNum; omega)
  unfold convert
  simp only [hnum, Bool.false_and, Bool.false_eq_true, if_false]

theorem correct_linear (hC : C.genEqTest = genNumOrdTest ty lit (eqPrim ty)) (h : ls.length < 3)
    (htest : ∀ (M : Machine) v l, IsArg ty v → l ∈ ls → ∃ b, M.test (eqPrim ty) [v, .lit (lit l)] = some b) :
    ConvertCorrect C lit ty ls := by
  intro arg arcs default st hls harg
  subst hls
  rw [length_map] at h
  obtain ⟨e, st', he, -, hdec⟩ := @genLinearSearch_eq arg L C ty lit _ hC default (sort C arcs) st
  refine ⟨e, st', by rw [convert_few h, he], fun M v ρ hv hρ => ?_⟩
  have hmem : ∀ p, p ∈ sort C arcs ↔ p ∈ arcs := fun p => (sort_perm arcs).mem_iff
  have heq : ∀ p ∈ arcs, M.test (eqPrim ty) [v, .lit (lit p.1)] =
      some (decide (Equals M ty v (lit p.1))) := by
    intro p hp
    obtain ⟨b, hb⟩ := htest M v p.1 hv (mem_map_of_mem hp)
    by_cases hE : Equals M ty v (lit p.1)
    · rw [decide_eq_true hE]
      exact hE
    · rw [decide_eq_false hE, hb]
      cases b with
      | true => exact absurd hb hE
      | false => rfl
  have hsel := (hdec M st.next v (fun l => decide (Equals M ty v (lit l))) harg (Nat.le_refl _)
    (fun p hp => heq p ((hmem p).mp hp)) ρ hρ).selects
  refine ⟨_, ?_, hsel⟩
  rcases firstOf_wanted (fun l => decide (Equals M ty v (lit l))) default (sort C arcs) with ⟨p, hp, ht, hact⟩ | ⟨hnone, hact⟩
  · exact .inl ⟨_, mem_map_of_mem ((hmem p).mp hp), of_decide_eq_true ht, hact⟩
  · refine .inr ⟨fun arc harc => ?_, congrArg some hact.symm⟩
    obtain ⟨p, hp, rfl⟩ := mem_map.mp harc
    exact of_decide_eq_false (hnone p ((hmem p).mpr hp))

/-! ## Three labels or more -/

theorem convert_many {arg : Var} {arcs : List (L × Exp)} {default : Exp} {st : TVars} (h : 3 ≤ arcs.length) :
    ∃ st₁ : TVars, st₁.next = st.next + 1 ∧ convert C arg arcs default st =
      (gen C arg (.throw ⟨st.next⟩ []) (sort C arcs).length ⟨none, none⟩ (sort C arcs) st₁).bind fun r =>
        some (.cont (.fb ⟨st.next⟩ [] [] default) r.1, r.2) := by
  have hlen := (sort_perm (C := C) arcs).length_eq
  have hnum : decide ((sort C arcs).length ≥ minBinSearchNum) = true := decide_eq_true (by unfold minBinSearchNum; omega)
  refine ⟨⟨st.next + 1, fun y => if y = ⟨st.next⟩ then .cont [] else st.typeOf y⟩, rfl, ?_⟩
  unfold convert
  simp only [hnum, useBinarySearch, Bool.and_self, if_true]
  rfl

/-- Where there is no three-way test, the conversion raises. -/
theorem convert_floats (hC : C.genCmpTest = fun _ _ _ _ _ => TGen.fail) {arg : Var} {arcs : List (L × Exp)}
    {default : Exp} {st : TVars} (h : 3 ≤ arcs.length) : convert C arg arcs default st = none := by
  have hlen := (sort_perm (C := C) arcs).length_eq
  obtain ⟨st₁, -, hconv⟩ := @convert_many L C arg arcs default st h
  have hmid : (sort C arcs).length / 2 < (sort C arcs).length := by omega
  obtain ⟨lhs, ⟨key, act⟩, rhs, hs⟩ := split_some [] hmid
  rw [hconv, gen_split (by omega) (fun h2 => by omega) hs, hC]
  show Option.bind (Option.bind (gen C arg _ _ _ _ st₁) fun r => Option.bind (gen C arg _ _ _ _ r.2) fun _ => none) _ = none
  simp

theorem not_correct_floats (hC : C.genCmpTest = fun _ _ _ _ _ => TGen.fail) (h : 3 ≤ ls.length) :
    ¬ ConvertCorrect C lit ty ls := by
  intro hcor
  obtain ⟨e, st', he, -⟩ := hcor ⟨0⟩ (ls.map fun l => (l, .ret [])) (.ret []) ⟨1, fun _ => .any⟩
    (by rw [map_map]; exact map_id _) Nat.zero_lt_one
  rw [convert_floats hC (by rwa [length_map])] at he
  cases he

end

/-! ## Three integer labels or more -/

section

variable {w : Nat} {ty cty : Ty} {lt eq : CondOp} {ls : List Int}

theorem convert_ints (hT : WordTests w lt eq) {arg : Var} {arcs : List (Int × Exp)} {default : Exp} {st : TVars}
    (harg : arg.stamp < st.next) (h : 3 ≤ arcs.length) : ∃ e st' f,
      convert (intTst cty lt eq) arg arcs default st = some (e, st') ∧
      Plan w (intTst cty lt eq) (.throw ⟨st.next⟩ []) ⟨none, none⟩ (sort (intTst cty lt eq) arcs) f ∧
      ∀ M a ρ, ρ arg = some (.lit (.int a)) → Selects M st.next ρ e (f a) ∧
        (f a = .throw ⟨st.next⟩ [] → Selects M st.next ρ e default) := by
  obtain ⟨st₁, hnext, hconv⟩ := @convert_many Int (intTst cty lt eq) arg arcs default st h
  obtain ⟨e, st', f, he, -, hplan, hdec⟩ := gen_plan cty hT arg (.throw ⟨st.next⟩ [])
    (sort (intTst cty lt eq) arcs) ⟨none, none⟩ st₁
  rw [he] at hconv
  refine ⟨_, st', f, hconv, hplan, fun M a ρ hρ => ?_⟩
  have hcomes : ∀ made, Comes M (st.next + 1) (dfltEnv ⟨st.next⟩ default ρ made) e (f a) := fun made =>
    hdec M (st.next + 1) a (by omega) (Nat.le_of_eq hnext.symm) _
      ((dfltEnv_of_ne made (ne_of_stamp_lt harg)).trans hρ)
  refine ⟨selects_cont hcomes, fun hthrow => ?_⟩
  rw [hthrow] at hcomes
  exact selects_default hcomes

/-- Sorting puts labels that differ as words into increasing order. -/
theorem sort_increases {arcs : List (Int × Exp)} (hd : arcs.Pairwise fun p q => sval w p.1 ≠ sval w q.1) :
    (sort (intTst cty lt eq) arcs).Pairwise fun p q => p.1 < q.1 := by
  have hle := @List.pairwise_mergeSort (Int × Exp) (fun a b => !(intTst cty lt eq).greater a.1 b.1)
    (fun a b c hab hbc => by
      simp only [intTst, gt_iff_lt, Bool.not_eq_true', decide_eq_false_iff_not, Int.not_lt] at hab hbc ⊢
      exact Int.le_trans hab hbc)
    (fun a b => by
      simp only [intTst, gt_iff_lt, Bool.or_eq_true, Bool.not_eq_true', decide_eq_false_iff_not, Int.not_lt]
      exact Int.le_total a.1 b.1) arcs
  have hne := ((sort_perm (C := intTst cty lt eq) arcs).pairwise_iff fun {p q} h => Ne.symm h).mpr hd
  refine (hle.and hne).imp fun {p q} h => ?_
  obtain ⟨h1, h2⟩ := h
  simp only [intTst, gt_iff_lt, Bool.not_eq_true', decide_eq_false_iff_not, Int.not_lt] at h1
  grind

theorem sorted_sort {arcs : List (Int × Exp)} (hd : arcs.Pairwise fun p q => sval w p.1 ≠ sval w q.1) :
    Sorted ⟨none, none⟩ (sort (intTst cty lt eq) arcs) :=
  ⟨sort_increases hd, fun _ h => (nomatch h), fun _ h => (nomatch h)⟩

theorem within_all (a : Int) : Within w ⟨none, none⟩ a := ⟨fun _ h => (nomatch h), fun _ h => (nomatch h)⟩

theorem correct_ints (hT : WordTests w lt eq) (heq : eqPrim ty = eq) (hint : ∀ v, IsArg ty v → ∃ a, v = .lit (.int a))
    (hd : ls.Pairwise fun a b => sval w a ≠ sval w b) (h3 : 3 ≤ ls.length)
    (hinc : ∀ a ∈ ls, ∀ b ∈ ls, a < b → sval w a < sval w b) : ConvertCorrect (intTst cty lt eq) .int ty ls := by
  intro arg arcs default st hls harg
  subst hls
  obtain ⟨e, st', f, he, hplan, hsel⟩ := @convert_ints w cty lt eq hT arg arcs default st harg
    (by rwa [length_map] at h3)
  have hd' : arcs.Pairwise fun p q => sval w p.1 ≠ sval w q.1 :=
    (pairwise_map (R := fun a b => sval w a ≠ sval w b)).mp hd
  have hmem : ∀ p, p ∈ sort (intTst cty lt eq) arcs ↔ p ∈ arcs := fun p => (sort_perm arcs).mem_iff
  have hw : (sort (intTst cty lt eq) arcs).Pairwise fun p q => sval w p.1 < sval w q.1 :=
    (sort_increases hd').imp_of_mem fun {p q} hp hq h =>
      hinc _ (mem_map_of_mem ((hmem p).mp hp)) _ (mem_map_of_mem ((hmem q).mp hq)) h
  refine ⟨e, st', he, fun M v ρ hv hρ => ?_⟩
  obtain ⟨a, rfl⟩ := hint v hv
  obtain ⟨hact, hdflt⟩ := hsel M a ρ hρ
  have hequals : ∀ b : Int, Equals M ty (.lit (.int a)) (.int b) ↔ sval w b = sval w a := by
    intro b
    unfold Equals
    rw [heq, hT.eq, Option.some.injEq, decide_eq_true_eq]
    exact eq_comm
  rcases hplan.picks (sorted_sort hd') hw (fun p _ => within_all p.1) (within_all a) with ⟨p, hp, hpa, hf⟩ | ⟨hnone, hf⟩
  · exact ⟨f a, .inl ⟨_, mem_map_of_mem ((hmem p).mp hp), (hequals p.1).mpr hpa, hf⟩, hact⟩
  · refine ⟨default, .inr ⟨fun arc harc => ?_, rfl⟩, hdflt hf⟩
    obtain ⟨p, hp, rfl⟩ := mem_map.mp harc
    exact fun h => hnone p ((hmem p).mpr hp) ((hequals p.1).mp h)

/-- A case on these labels that tells its actions apart: the `i`-th one returns the `i`-th variable. -/
def returning (ls : List Int) : List (Int × Exp) := ls.zipIdx.map fun p => (p.1, .ret [⟨p.2⟩])

theorem returning_fst (ls : List Int) : (returning ls).map Prod.fst = ls := by
  rw [returning, map_map]
  exact List.zipIdx_map_fst 0 ls

theorem returning_nodup (ls : List Int) : ((returning ls).map Prod.snd).Nodup := by
  rw [returning, map_map]
  have hnodup : ((ls.zipIdx.map Prod.snd).map fun i => Exp.ret [⟨i⟩]).Nodup := by
    rw [List.zipIdx_map_snd]
    refine List.Nodup.map (fun i j h => ?_) List.nodup_range'
    simpa only [Exp.ret.injEq, List.cons.injEq, Var.mk.injEq, and_true] using h
  rwa [map_map] at hnodup

theorem mem_returning {p : Int × Exp} (h : p ∈ returning ls) : ∃ i < ls.length, p.2 = .ret [⟨i⟩] := by
  obtain ⟨q, hq, rfl⟩ := mem_map.mp h
  have hlt := List.snd_lt_of_mem_zipIdx hq
  exact ⟨q.2, by simpa only [Nat.add_zero] using hlt, rfl⟩

/-- A conversion that is right selects the action of each label. -/
theorem finds_labels (hT : WordTests w lt eq) (heq : eqPrim ty = eq) (hint : ∀ a, IsArg ty (.lit (.int a)))
    (hd : ls.Pairwise fun a b => sval w a ≠ sval w b) (h3 : 3 ≤ ls.length)
    (h : ConvertCorrect (intTst cty lt eq) .int ty ls) : ∃ f, (∀ p ∈ returning ls, f p.1 = p.2) ∧
      Plan w (intTst cty lt eq) (.throw ⟨ls.length + 2⟩ []) ⟨none, none⟩ (sort (intTst cty lt eq) (returning ls)) f := by
  have hlen : (returning ls).length = ls.length := by
    rw [returning, length_map, List.length_zipIdx]
  obtain ⟨e, st', he, hright⟩ := h ⟨ls.length + 1⟩ (returning ls) (.ret [⟨ls.length⟩]) ⟨ls.length + 2, fun _ => .any⟩
    (returning_fst ls) (Nat.lt_succ_self _)
  obtain ⟨e', st'', f, he', hplan, hsel⟩ := @convert_ints w cty lt eq hT ⟨ls.length + 1⟩ (returning ls)
    (.ret [⟨ls.length⟩]) ⟨ls.length + 2, fun _ => .any⟩ (Nat.lt_succ_self _) (by rwa [hlen])
  rw [he] at he'
  cases he'
  refine ⟨f, fun p hp => ?_, hplan⟩
  -- run the case on the label itself, with variables whose values tell them apart
  let ρ : Env := fun x => if x = ⟨ls.length + 1⟩ then some (.lit (.int p.1)) else some (.addr x.stamp)
  have hvar : ∀ i ≤ ls.length, ρ ⟨i⟩ = some (.addr i) := by
    intro i hi
    refine if_neg fun heq => ?_
    rw [Var.mk.injEq] at heq
    omega
  obtain ⟨act, hwanted, hact⟩ := hright .bare (.lit (.int p.1)) ρ (hint p.1) (if_pos rfl)
  obtain ⟨hf, hdflt⟩ := hsel .bare p.1 ρ (if_pos rfl)
  have hdist : (returning ls).Pairwise fun p q => sval w p.1 ≠ sval w q.1 := by
    rw [← returning_fst ls] at hd
    exact (pairwise_map (R := fun a b => sval w a ≠ sval w b)).mp hd
  have hequals : ∀ b : Int, Equals .bare ty (.lit (.int p.1)) (.int b) ↔ sval w p.1 = sval w b := by
    intro b
    unfold Equals
    rw [heq, hT.eq, Option.some.injEq, decide_eq_true_eq]
  have hown : act = p.2 := by
    rcases hwanted with ⟨arc, harc, he, rfl⟩ | ⟨hnone, -⟩
    · obtain ⟨q, hq, rfl⟩ := mem_map.mp harc
      by_contra hne
      have hpq : p ≠ q := fun h => hne (by rw [h])
      have hsymm : Std.Symm fun p q : Int × Exp => sval w p.1 ≠ sval w q.1 := ⟨fun _ _ h => Ne.symm h⟩
      exact hdist.forall hp hq hpq ((hequals q.1).mp he)
    · exact absurd ((hequals p.1).mpr rfl) (hnone _ (mem_map_of_mem hp))
  rw [hown] at hact
  obtain ⟨i, hi, hpi⟩ := mem_returning hp
  rw [hpi] at hact ⊢
  rcases hplan.mem p.1 with hthrow | hmem
  · -- the default returns another variable
    have hval := hact.ret_unique (hdflt hthrow) () (by simp only; omega) (by simp only; omega) (hvar i (Nat.le_of_lt hi))
      (hvar _ (Nat.le_refl _))
    simp only [Val.addr.injEq] at hval
    omega
  · obtain ⟨q, hq, hqf⟩ := mem_map.mp hmem
    obtain ⟨j, hj, hqj⟩ := mem_returning ((sort_perm (returning ls)).mem_iff.mp hq)
    rw [← hqf, hqj] at hf ⊢
    have hval := hact.ret_unique hf () (by simp only; omega) (by simp only; omega) (hvar i (Nat.le_of_lt hi))
      (hvar j (Nat.le_of_lt hj))
    simp only [Val.addr.injEq] at hval
    rw [hval]

theorem increasing_of_correct (hT : WordTests w lt eq) (hw2 : 2 ≤ w) (heq : eqPrim ty = eq)
    (hint : ∀ a, IsArg ty (.lit (.int a))) (hd : ls.Pairwise fun a b => sval w a ≠ sval w b) (h3 : 3 ≤ ls.length)
    (h : ConvertCorrect (intTst cty lt eq) .int ty ls) : ∀ a ∈ ls, ∀ b ∈ ls, a < b → sval w a < sval w b := by
  obtain ⟨f, hf, hplan⟩ := finds_labels hT heq hint hd h3 h
  have hperm := sort_perm (C := intTst cty lt eq) (returning ls)
  have hdist : (returning ls).Pairwise fun p q => sval w p.1 ≠ sval w q.1 := by
    rw [← returning_fst ls] at hd
    exact (pairwise_map (R := fun a b => sval w a ≠ sval w b)).mp hd
  have hinc := hplan.increasing hw2 ((hperm.pairwise_iff fun {p q} h => Ne.symm h).mpr hdist)
    ((hperm.map Prod.snd).nodup_iff.mpr (returning_nodup ls))
    (fun hmem => by
      grind [mem_returning])
    (fun p hp => hf p (hperm.mem_iff.mp hp)) fun _ hm => (nomatch hm)
  intro a ha b hb hab
  rw [← returning_fst ls] at ha hb
  obtain ⟨p, hp, rfl⟩ := mem_map.mp ha
  obtain ⟨q, hq, rfl⟩ := mem_map.mp hb
  have hboth := ((@sort_increases w cty lt eq _ hdist).and hinc).imp
    (S := fun p q => (p.1 < q.1 → sval w p.1 < sval w q.1) ∧ (q.1 < p.1 → sval w q.1 < sval w p.1))
    fun {p q} h => ⟨fun _ => h.2, fun hqp => absurd h.1 (by omega)⟩
  exact (hboth.forall_of_forall_of_flip (fun x _ => ⟨fun h => absurd h (Int.lt_irrefl _), fun h => absurd h (Int.lt_irrefl _)⟩)
    (hboth.imp fun h => ⟨h.2, h.1⟩) (hperm.mem_iff.mpr hp) (hperm.mem_iff.mpr hq)).1 hab

end

/-! ## The types -/

section

variable {w : Nat} {lt : CondOp} {ty cty : Ty} {ls : List Literal}

/-- Three labels or more that increase as words, or fewer. -/
theorem correct_ints_iff (hT : WordTests w lt (eqPrim ty)) (hw2 : 2 ≤ w)
    (hC : ConvertedBy ty (intTst cty lt (eqPrim ty)) .int) (hcty : cty = ty)
    (hint : ∀ v, IsArg ty v ↔ ∃ a, v = .lit (.int a)) (h : DistinctWords w ls) :
    Correct ty ls true ↔ ls.length < 3 ∨ Increasing w ls := by
  subst hcty
  obtain ⟨is, rfl, hd⟩ := h
  have hmem : ∀ a, Literal.int a ∈ is.map Literal.int ↔ a ∈ is := fun a =>
    List.mem_map_of_injective fun _ _ h => Literal.int.inj h
  rw [correct_iff_convert hC, length_map]
  have hinc : Increasing w (is.map .int) ↔ ∀ a ∈ is, ∀ b ∈ is, a < b → sval w a < sval w b := by
    grind [Increasing]
  rw [hinc]
  by_cases h3 : is.length < 3
  · refine iff_of_true (correct_linear rfl h3 fun M v l hv hl => ?_) (.inl h3)
    obtain ⟨a, rfl⟩ := (hint v).mp hv
    exact ⟨_, hT.eq M a l⟩
  grind [increasing_of_correct, correct_ints]

theorem correct_floats_iff {C : CaseDomain FloatLit} (hC : ConvertedBy ty C .float)
    (hcmp : C.genCmpTest = fun _ _ _ _ _ => TGen.fail) (heq : C.genEqTest = genNumOrdTest ty .float (eqPrim ty))
    (hty : ty = .raw .float ∨ ty = .raw .double) {fs : List FloatLit} :
    Correct ty (fs.map .float) true ↔ (fs.map Literal.float).length < 3 := by
  rw [correct_iff_convert hC, length_map]
  by_cases h3 : fs.length < 3
  · refine iff_of_true (correct_linear heq h3 fun M v l _ _ => ?_) h3
    rcases hty with rfl | rfl
    · exact ⟨M.fcmp v (.lit (.float l)) == some .eq, rfl⟩
    · exact ⟨M.fcmp v (.lit (.float l)) == some .eq, rfl⟩
  · exact iff_of_false (not_correct_floats hcmp (by omega)) h3

end

theorem not_correct_other {ty : Ty} {ls : List Literal} {b : Bool}
    (h : ∀ arg arcs optDflt, literalCase ty arg arcs optDflt = TGen.fail) : ¬ Correct ty ls b := by
  intro hcor
  obtain ⟨e, st', he, -⟩ := hcor ⟨0⟩ (ls.map fun l => (l, .ret [])) (if b then some (.ret []) else none)
    ⟨1, fun _ => .any⟩ (by rw [map_map]; exact map_id _) (by cases b <;> rfl) Nat.zero_lt_one
  rw [h] at he
  cases he

/-- A case without a default makes the conversion raise, as do three floats or more and the other types. Integers are
found if there are fewer than three or their order is that of the words the tests compare. -/
theorem literalCase_correct_iff (ty : Ty) (ls : List Literal) (hasDflt : Bool) (h : Labels ty ls) :
    Correct ty ls hasDflt ↔ hasDflt = true ∧ Handled ty ls := by
  cases hasDflt with
  | false => exact iff_of_false not_correct_of_dflt fun h => Bool.noConfusion h.1
  | true =>
    rw [eq_self, true_and]
    match ty, h with
    | .raw .int, h => exact correct_ints_iff wordTests_i32 (by decide) literalCase_int rfl (fun _ => Iff.rfl) h
    | .raw .long, h => exact correct_ints_iff wordTests_i64 (by decide) literalCase_long rfl (fun _ => Iff.rfl) h
    | .raw .float, ⟨fs, hls, _⟩ =>
      rw [hls]
      exact correct_floats_iff literalCase_float rfl rfl (.inl rfl)
    | .raw .double, ⟨fs, hls, _⟩ =>
      rw [hls]
      exact correct_floats_iff literalCase_double rfl rfl (.inr rfl)
    | .raw .byte, _ | .raw .short, _ | .raw .vec128, _ =>
      refine iff_of_false (not_correct_other fun arg arcs optDflt => ?_) id
      cases optDflt <;> rfl
    | .any, _ | .tuple _ _, _ | .addr _, _ | .fun_ _ _ _, _ | .cont _, _ | .cfun _ _, _ | .vproc, _ | .deque, _
    | .tyCon _, _ | .parr, _ => exact iff_of_false (not_correct_other fun _ _ _ => rfl) id

/-- Three labels in the middle of the words. -/
theorem literalCase_correct_small :
    Correct (.raw .int) [.int 1, .int 2, .int 5] true ↔ true = true ∧ Handled (.raw .int) [.int 1, .int 2, .int 5] :=
  literalCase_correct_iff _ _ _ ⟨[1, 2, 5], rfl, by decide +kernel⟩

/-- The label 2³² - 1 is the word of -1 and comes last: the case is not right. -/
theorem literalCase_wraps : Labels (.raw .int) [.int 1, .int 2, .int 4294967295] ∧
    ¬ Correct (.raw .int) [.int 1, .int 2, .int 4294967295] true := by
  have hd : DistinctWords 32 [.int 1, .int 2, .int 4294967295] := ⟨[1, 2, 4294967295], rfl, by decide +kernel⟩
  refine ⟨hd, fun h => ?_⟩
  rcases (correct_ints_iff wordTests_i32 (by decide) literalCase_int rfl (fun _ => Iff.rfl) hd).mp h with h | h
  · exact absurd h (by decide)
  · have hlt := h 2 4294967295 (by decide) (by decide) (by decide)
    revert hlt
    decide +kernel

end Manticore.Bom.LiteralCase
