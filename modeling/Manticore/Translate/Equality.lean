/-
  Manticore.Translate.Equality — the equality operations synthesized from a type
  (`translate/equality.sml`).

  One generator makes both operators: the comparison of two tuples goes through their
  components and stops at the first test that fails. For `<>` this is the conjunction of the
  components' inequalities, so two tuples that agree in one component and differ in another
  are neither equal nor different.

  Proved:
  - `mk_runs`: the generated comparison of two values returns whether every component
    passes its test;
  - `mkEqual_correct_iff`: the two operators are structural equality and its negation on a pair
    of values exactly when the values are equal or differ in every component.
-/

import Manticore.Bom.Bool
import Manticore.Fresh

namespace Manticore.Bom.Equality

open Transition
open Env (set_of_ne set_same)

variable {kinds : Nat → Kind}

/-! ## The generator -/

/-- `mkTest`. -/
def mkTest (isEq : Bool) (a b : Var) (eqP neqP : CondOp) : Gen Exp := do
  let cond := if isEq then eqP else neqP
  let t ← newVar
  let f ← newVar
  return .if_ ⟨cond, [a, b]⟩ (.stmt [t] (.dcon trueDC []) (.ret [t])) (.stmt [f] (.dcon falseDC []) (.ret [f]))

mutual

/-- `mk`; `kinds` are the kinds of the datatypes. -/
def mk (kinds : Nat → Kind) (isEq : Bool) (a b : Var) : Ty → Gen Exp
  | .any => mkTest isEq a b .equal .notEqual
  | .enum _ => mkTest isEq a b .equal .notEqual
  | .raw .int => mkTest isEq a b .i32Eq .i32NEq
  | .raw .long => mkTest isEq a b .i64Eq .i64NEq
  | .raw .float => mkTest isEq a b .f32Eq .f32NEq
  | .raw .double => mkTest isEq a b .f64Eq .f64NEq
  | .tuple false tys => mkTuple kinds isEq a b 0 tys
  | .tyCon (.data s) => if kinds s = .unboxed then mkTest isEq a b .equal .notEqual else raise
  | _ => raise

/-- `mkTuple`, from component `i` on. -/
def mkTuple (kinds : Nat → Kind) (isEq : Bool) (a b : Var) (i : Nat) : List Ty → Gen Exp
  | [] => raise
  | [ty] => do
    let a' ← newVar
    let b' ← newVar
    let e ← mk kinds isEq a' b' ty
    return .stmt [a'] (.select i a) (.stmt [b'] (.select i b) e)
  | ty :: tys => do
    let a' ← newVar
    let b' ← newVar
    let res' ← newVar
    let e ← mk kinds isEq a' b' ty
    let e' ← mkTuple kinds isEq a b (i + 1) tys
    return .stmt [a'] (.select i a) (.stmt [b'] (.select i b) (.let_ [res'] e (mkBoolCase res' e' (.ret [res']))))

end

/-- `mkEqual` at the representation `ty` of the argument type; `isEq` tells `=` from `<>`. -/
def mkEqual (kinds : Nat → Kind) (isEq : Bool) (ty : Ty) : Gen Lambda := do
  let arg1 ← newVar
  let arg2 ← newVar
  let arg ← newVar
  let f ← newVar
  let exh ← newVar
  let body ← mk kinds isEq arg1 arg2 ty
  return .fb f [arg] [exh] (.stmt [arg1] (.select 0 arg) (.stmt [arg2] (.select 1 arg) body))

/-! ## Equality types and their values -/

mutual

/-- Nested tuples of integers, floats, enumerations and unboxed datatypes. -/
def EqTy (kinds : Nat → Kind) : Ty → Prop
  | .enum _ => True
  | .raw rty => rty = .int ∨ rty = .long ∨ rty = .float ∨ rty = .double
  | .tuple false tys => tys ≠ [] ∧ EqTys kinds tys
  | .tyCon (.data s) => kinds s = .unboxed
  | _ => False

def EqTys (kinds : Nat → Kind) : List Ty → Prop
  | [] => True
  | ty :: tys => EqTy kinds ty ∧ EqTys kinds tys

end

mutual

/-- The values of an equality type. A value of an unboxed datatype is a nullary constructor; how a
    float is represented is left to the machine. -/
def HasTy : Ty → Val → Prop
  | .enum w, v => ∃ k ≤ w, v = .lit (.enum k)
  | .raw .int, v => ∃ i, -2 ^ 31 ≤ i ∧ i < 2 ^ 31 ∧ v = .lit (.int i)
  | .raw .long, v => ∃ i, -2 ^ 63 ≤ i ∧ i < 2 ^ 63 ∧ v = .lit (.int i)
  | .raw .float, _ | .raw .double, _ => True
  | .tuple false tys, v => ∃ vs, v = .tuple vs ∧ HasTys tys vs
  | .tyCon (.data _), v => ∃ dc, v = .con dc []
  | _, _ => False

def HasTys : List Ty → List Val → Prop
  | [], [] => True
  | ty :: tys, v :: vs => HasTy ty v ∧ HasTys tys vs
  | _, _ => False

end

mutual

/-- Every pair of corresponding components satisfies `P`. -/
def Comps (P : Ty → Val → Val → Prop) : Ty → Val → Val → Prop
  | .tuple false tys, a, b => ∃ vs ws, a = .tuple vs ∧ b = .tuple ws ∧ CompsAll P tys vs ws
  | ty, a, b => P ty a b

def CompsAll (P : Ty → Val → Val → Prop) : List Ty → List Val → List Val → Prop
  | [], [], [] => True
  | ty :: tys, v :: vs, w :: ws => Comps P ty v w ∧ CompsAll P tys vs ws
  | _, _, _ => False

end

/-- Equality of two components; floats are compared as numbers. -/
def LeafEq (M : Machine) : Ty → Val → Val → Prop
  | .raw .float, a, b | .raw .double, a, b => M.fcmp a b = some .eq
  | _, a, b => a = b

def LeafNEq (M : Machine) (ty : Ty) (a b : Val) : Prop := ¬ LeafEq M ty a b

/-- Structural equality: all corresponding components are equal. -/
def StructEq (M : Machine) : Ty → Val → Val → Prop := Comps (LeafEq M)

/-- Every two corresponding components differ. -/
def DifferAll (M : Machine) : Ty → Val → Val → Prop := Comps (LeafNEq M)

/-! ## Single tests -/

/-- What a component has to satisfy for the operator to go on. -/
def Test (M : Machine) (isEq : Bool) : Ty → Val → Val → Prop := if isEq then LeafEq M else LeafNEq M

theorem ofInt_inj {n : Nat} (hn : 0 < n) {i j : Int} (hi : -2 ^ (n - 1) ≤ i ∧ i < 2 ^ (n - 1))
    (hj : -2 ^ (n - 1) ≤ j ∧ j < 2 ^ (n - 1)) : BitVec.ofInt n i = BitVec.ofInt n j ↔ i = j := by
  refine ⟨fun h => ?_, fun h => h ▸ rfl⟩
  have heq := congrArg BitVec.toInt h
  rwa [BitVec.toInt_ofInt_eq_self hn hi.1 hi.2, BitVec.toInt_ofInt_eq_self hn hj.1 hj.2] at heq

/-- A pair of operators that test a component for equality and for inequality. -/
structure Tests (M : Machine) (eqP neqP : CondOp) (a b : Val) (p : Prop) : Prop where
  eq : ∃ r, M.test eqP [a, b] = some r ∧ (r = true ↔ p)
  neq : ∃ r, M.test neqP [a, b] = some r ∧ (r = true ↔ ¬ p)

section

variable {M : Machine} {ρ : Env} {stk : List Frame} {code : Handle → Option Clo} {made : Var → Nat} {w : M.W}

theorem tests_equal_enum (i j : Nat) : Tests M .equal .notEqual (.lit (.enum i)) (.lit (.enum j))
    (Val.lit (.enum i) = .lit (.enum j)) :=
  ⟨⟨i == j, rfl, by simp⟩, ⟨i != j, rfl, by simp⟩⟩

theorem tests_equal_con (i j : Nat) : Tests M .equal .notEqual (.con i []) (.con j [])
    (Val.con i [] = .con j []) :=
  ⟨⟨i == j, rfl, by simp⟩, ⟨i != j, rfl, by simp⟩⟩

theorem tests_i32 {i j : Int} (hi : -2 ^ 31 ≤ i ∧ i < 2 ^ 31) (hj : -2 ^ 31 ≤ j ∧ j < 2 ^ 31) :
    Tests M .i32Eq .i32NEq (.lit (.int i)) (.lit (.int j)) (Val.lit (.int i) = .lit (.int j)) := by
  have h := ofInt_inj (n := 32) (by decide) hi hj
  exact ⟨⟨_, rfl, by simp [h]⟩, ⟨_, rfl, by simp [h]⟩⟩

theorem tests_i64 {i j : Int} (hi : -2 ^ 63 ≤ i ∧ i < 2 ^ 63) (hj : -2 ^ 63 ≤ j ∧ j < 2 ^ 63) :
    Tests M .i64Eq .i64NEq (.lit (.int i)) (.lit (.int j)) (Val.lit (.int i) = .lit (.int j)) := by
  have h := ofInt_inj (n := 64) (by decide) hi hj
  exact ⟨⟨_, rfl, by simp [h]⟩, ⟨_, rfl, by simp [h]⟩⟩

theorem tests_f32 (a b : Val) : Tests M .f32Eq .f32NEq a b (M.fcmp a b = some .eq) :=
  ⟨⟨M.fcmp a b == some .eq, rfl, by simp⟩, ⟨M.fcmp a b != some .eq, rfl, by simp⟩⟩

theorem tests_f64 (a b : Val) : Tests M .f64Eq .f64NEq a b (M.fcmp a b = some .eq) :=
  ⟨⟨M.fcmp a b == some .eq, rfl, by simp⟩, ⟨M.fcmp a b != some .eq, rfl, by simp⟩⟩

/-- The control ends with a boolean that tells whether `p` holds; nothing else changes. -/
def Returns (M : Machine) (w : M.W) (e : Exp) (ρ : Env) (p : Prop) : Prop :=
  ∃ r : Bool, (r = true ↔ p) ∧ ∀ (stk : List Frame) (code : Handle → Option Clo) (made : Var → Nat),
    Silent (step M) ⟨.eval e ρ, stk, code, made, w⟩ ⟨.deliver [boolVal r], stk, code, made, w⟩

/-- `mkTest` draws two variables and returns the result of its test. -/
theorem mkTest_runs {f : Bool} {a b : Var} {t : Ty} (eqP neqP : CondOp) (c : Nat) :
    ∃ e, mkTest f a b eqP neqP c = some (e, c + 2) ∧
      ∀ {ρ : Env} {va vb : Val}, ρ a = some va → ρ b = some vb → Tests M eqP neqP va vb (LeafEq M t va vb) →
        Returns M w e ρ (Test M f t va vb) := by
  refine ⟨_, rfl, fun {ρ va vb} ha hb ht => ?_⟩
  have hargs : ρ.get [a, b] = some [va, vb] := by simp [Env.get, ha, hb]
  have htest : ∃ r, M.test (if f then eqP else neqP) [va, vb] = some r ∧ (r = true ↔ Test M f t va vb) := by
    cases f
    · exact ht.neq
    · exact ht.eq
  obtain ⟨r, hr, hiff⟩ := htest
  refine ⟨r, hiff, fun stk code made => ?_⟩
  refine .step (step_if _ _ hargs (Machine.evalCond_of_test hr)) ?_
  cases r
  · exact .step (step_dcon _ rfl) (.one (step_ret (by simp [Env.get]; rfl)))
  · exact .step (step_dcon _ rfl) (.one (step_ret (by simp [Env.get]; rfl)))

theorem drop_cons {vs : List Val} {i : Nat} {v : Val} {us : List Val} (h : vs.drop i = v :: us) :
    vs[i]? = some v ∧ vs.drop (i + 1) = us := by
  refine ⟨?_, ?_⟩
  · have hget : (vs.drop i)[0]? = some v := by rw [h]; rfl
    simpa using hget
  · rw [← List.drop_drop, h]
    rfl

theorem HasTys.cons {ty : Ty} {tys : List Ty} {vs : List Val} (h : HasTys (ty :: tys) vs) :
    ∃ v us, vs = v :: us ∧ HasTy ty v ∧ HasTys tys us := by
  cases vs with
  | nil => cases h
  | cons v us => exact ⟨v, us, rfl, h.1, h.2⟩

theorem HasTys.nil {vs : List Val} (h : HasTys [] vs) : vs = [] := by
  cases vs with
  | nil => rfl
  | cons v us => cases h

theorem mkTuple_one (kinds : Nat → Kind) (isEq : Bool) (a b : Var) (i : Nat) (ty : Ty) (c : Nat) :
    mkTuple kinds isEq a b i [ty] c = (mk kinds isEq ⟨c⟩ ⟨c + 1⟩ ty (c + 2)).bind fun r =>
      some (.stmt [⟨c⟩] (.select i a) (.stmt [⟨c + 1⟩] (.select i b) r.1), r.2) := by
  rw [mkTuple]
  rfl

theorem mkTuple_cons (kinds : Nat → Kind) (isEq : Bool) (a b : Var) (i : Nat) (ty ty' : Ty) (tys : List Ty) (c : Nat) :
    mkTuple kinds isEq a b i (ty :: ty' :: tys) c = (mk kinds isEq ⟨c⟩ ⟨c + 1⟩ ty (c + 3)).bind fun r =>
      (mkTuple kinds isEq a b (i + 1) (ty' :: tys) r.2).bind fun r' =>
        some (.stmt [⟨c⟩] (.select i a) (.stmt [⟨c + 1⟩] (.select i b)
          (.let_ [⟨c + 2⟩] r.1 (mkBoolCase ⟨c + 2⟩ r'.1 (.ret [⟨c + 2⟩])))), r'.2) := by
  rw [mkTuple]
  · rfl
  · exact List.cons_ne_nil ty' tys

/-- Read component `i` of both tuples into fresh variables and go on. -/
theorem select_both {a b a' b' : Var} {i : Nat} {vs ws : List Val} {v u : Val} {e : Exp} {t : State M}
    (ha : ρ a = some (.tuple vs)) (hb : ρ b = some (.tuple ws)) (hv : vs[i]? = some v) (hu : ws[i]? = some u)
    (hne : b ≠ a') (h : Silent (step M) ⟨.eval e ((ρ.set a' v).set b' u), stk, code, made, w⟩ t) :
    Silent (step M) ⟨.eval (.stmt [a'] (.select i a) (.stmt [b'] (.select i b) e)) ρ, stk, code, made, w⟩ t := by
  have hb' : (ρ.set a' v) b = some (.tuple ws) := by rw [set_of_ne ρ v hne, hb]
  exact .step (step_select _ ha hv) (.step (step_select _ hb' hu) h)

mutual

theorem mk_runs (isEq : Bool) : ∀ {ty : Ty} {a b : Var} {c : Nat}, EqTy kinds ty →
    a.stamp < c → b.stamp < c → ∃ e c', mk kinds isEq a b ty c = some (e, c') ∧ c ≤ c' ∧
      ∀ {ρ : Env} {va vb : Val}, ρ a = some va → ρ b = some vb → HasTy ty va → HasTy ty vb →
        Returns M w e ρ (Comps (Test M isEq) ty va vb)
  | .enum n, a, b, c, _, _, _ => by
    obtain ⟨e, he, hrun⟩ := mkTest_runs (M := M) (w := w) (f := isEq) (a := a) (b := b) (t := .enum n)
      .equal .notEqual c
    refine ⟨e, c + 2, he, by omega, ?_⟩
    rintro ρ va vb ha hb ⟨i, -, rfl⟩ ⟨j, -, rfl⟩
    exact hrun ha hb (tests_equal_enum i j)
  | .raw .int, a, b, c, _, _, _ => by
    obtain ⟨e, he, hrun⟩ := mkTest_runs (M := M) (w := w) (f := isEq) (a := a) (b := b) (t := .raw .int)
      .i32Eq .i32NEq c
    refine ⟨e, c + 2, he, by omega, ?_⟩
    rintro ρ va vb ha hb ⟨i, hi, hi', rfl⟩ ⟨j, hj, hj', rfl⟩
    exact hrun ha hb (tests_i32 ⟨hi, hi'⟩ ⟨hj, hj'⟩)
  | .raw .long, a, b, c, _, _, _ => by
    obtain ⟨e, he, hrun⟩ := mkTest_runs (M := M) (w := w) (f := isEq) (a := a) (b := b) (t := .raw .long)
      .i64Eq .i64NEq c
    refine ⟨e, c + 2, he, by omega, ?_⟩
    rintro ρ va vb ha hb ⟨i, hi, hi', rfl⟩ ⟨j, hj, hj', rfl⟩
    exact hrun ha hb (tests_i64 ⟨hi, hi'⟩ ⟨hj, hj'⟩)
  | .raw .float, a, b, c, _, _, _ => by
    obtain ⟨e, he, hrun⟩ := mkTest_runs (M := M) (w := w) (f := isEq) (a := a) (b := b) (t := .raw .float)
      .f32Eq .f32NEq c
    exact ⟨e, c + 2, he, by omega, fun {ρ va vb} ha hb _ _ => hrun ha hb (tests_f32 va vb)⟩
  | .raw .double, a, b, c, _, _, _ => by
    obtain ⟨e, he, hrun⟩ := mkTest_runs (M := M) (w := w) (f := isEq) (a := a) (b := b) (t := .raw .double)
      .f64Eq .f64NEq c
    exact ⟨e, c + 2, he, by omega, fun {ρ va vb} ha hb _ _ => hrun ha hb (tests_f64 va vb)⟩
  | .raw .byte, _, _, _, hty, _, _ => by simp [EqTy] at hty
  | .raw .short, _, _, _, hty, _, _ => by simp [EqTy] at hty
  | .raw .vec128, _, _, _, hty, _, _ => by simp [EqTy] at hty
  | .tuple isMut tys, a, b, c, hty, ha, hb => by
    cases isMut with
    | true => cases hty
    | false =>
      obtain ⟨e, c', he, hc, hrun⟩ := mkTuple_runs isEq (i := 0) hty.1 hty.2 ha hb
      refine ⟨e, c', he, hc, ?_⟩
      rintro ρ va vb ha hb ⟨vs, rfl, hvs⟩ ⟨ws, rfl, hws⟩
      obtain ⟨r, hr, h⟩ := hrun ha hb hvs hws
      refine ⟨r, hr.trans ?_, h⟩
      simp [Comps]
  | .tyCon (.data s), a, b, c, hty, _, _ => by
    obtain ⟨e, he, hrun⟩ := mkTest_runs (M := M) (w := w) (f := isEq) (a := a) (b := b) (t := .tyCon (.data s))
      .equal .notEqual c
    refine ⟨e, c + 2, by rw [mk, if_pos (show kinds s = .unboxed from hty), he], by omega, ?_⟩
    rintro ρ va vb ha hb ⟨i, rfl⟩ ⟨j, rfl⟩
    exact hrun ha hb (tests_equal_con i j)
  | .tyCon (.abs _), _, _, _, hty, _, _ => by cases hty
  | .any, a, b, c, hty, _, _ => by cases hty
  | .addr _, a, b, c, hty, _, _ => by cases hty
  | .fun_ _ _ _, a, b, c, hty, _, _ => by cases hty
  | .cont _, a, b, c, hty, _, _ => by cases hty
  | .cfun _ _, a, b, c, hty, _, _ => by cases hty
  | .vproc, a, b, c, hty, _, _ => by cases hty
  | .deque, a, b, c, hty, _, _ => by cases hty
  | .parr, a, b, c, hty, _, _ => by cases hty

theorem mkTuple_runs (isEq : Bool) : ∀ {tys : List Ty} {a b : Var} {i c : Nat}, tys ≠ [] →
    EqTys kinds tys → a.stamp < c → b.stamp < c → ∃ e c', mkTuple kinds isEq a b i tys c = some (e, c') ∧ c ≤ c' ∧
      ∀ {ρ : Env} {vs ws : List Val}, ρ a = some (.tuple vs) → ρ b = some (.tuple ws) → HasTys tys (vs.drop i) →
        HasTys tys (ws.drop i) → Returns M w e ρ (CompsAll (Test M isEq) tys (vs.drop i) (ws.drop i))
  | [], _, _, _, _, hne, _, _, _ => absurd rfl hne
  | [ty], a, b, i, c, _, ⟨hty, _⟩, ha, hb => by
    obtain ⟨e, c', he, hc, hrun⟩ := mk_runs isEq (a := ⟨c⟩) (b := ⟨c + 1⟩) (c := c + 2) hty (by simp) (by simp)
    refine ⟨_, c', by rw [mkTuple_one, he]; rfl, by omega, ?_⟩
    intro ρ vs ws hva hvb hvs hws
    obtain ⟨v, us, hv, htv, hus⟩ := hvs.cons
    obtain ⟨u, us', hu, htu, hus'⟩ := hws.cons
    obtain ⟨r, hr, h⟩ := hrun (ρ := (ρ.set ⟨c⟩ v).set ⟨c + 1⟩ u) (by rw [set_of_ne _ _ (by simp)]; simp)
      (by simp) htv htu
    refine ⟨r, hr.trans ?_, fun stk code made => ?_⟩
    · rw [hv, hu, hus.nil, hus'.nil]
      simp [CompsAll]
    · refine select_both hva hvb (drop_cons hv).1 (drop_cons hu).1 ?_ (h stk code made)
      intro hbc
      rw [hbc] at hb
      exact Nat.lt_irrefl c hb
  | ty :: ty' :: tys, a, b, i, c, _, ⟨hty, htys⟩, ha, hb => by
    obtain ⟨e, c', he, hc, hrun⟩ := mk_runs isEq (a := ⟨c⟩) (b := ⟨c + 1⟩) (c := c + 3) hty (by simp) (by simp)
    obtain ⟨e', c'', he', hc', hrun'⟩ := mkTuple_runs isEq (i := i + 1) (c := c') (List.cons_ne_nil ty' tys) htys (by omega : a.stamp < c')
      (by omega : b.stamp < c')
    refine ⟨_, c'', by rw [mkTuple_cons, he, Option.bind_some, he']; rfl, by omega, ?_⟩
    intro ρ vs ws hva hvb hvs hws
    obtain ⟨v, us, hv, htv, hus⟩ := hvs.cons
    obtain ⟨u, us', hu, htu, hus'⟩ := hws.cons
    obtain ⟨r, hr, h⟩ := hrun (ρ := (ρ.set ⟨c⟩ v).set ⟨c + 1⟩ u) (by rw [set_of_ne _ _ (by simp)]; simp)
      (by simp) htv htu
    have hba : ∀ {x y : Var}, x.stamp < c → c ≤ y.stamp → x ≠ y := by
      intro x y hx hy hxy
      rw [hxy] at hx
      omega
    -- the rest of the components, after the first result
    let ρ₃ := ((ρ.set ⟨c⟩ v).set ⟨c + 1⟩ u).set ⟨c + 2⟩ (boolVal r)
    have hget : ∀ {x : Var}, x.stamp < c → ρ₃ x = ρ x := by
      intro x hx
      show (((ρ.set ⟨c⟩ v).set ⟨c + 1⟩ u).set ⟨c + 2⟩ (boolVal r)) x = ρ x
      rw [set_of_ne _ _ (hba hx (by simp)), set_of_ne _ _ (hba hx (by simp)),
        set_of_ne _ _ (hba hx (by simp))]
    obtain ⟨r', hr', h'⟩ := hrun' (ρ := ρ₃) (by rw [hget ha, hva]) (by rw [hget hb, hvb])
      (by rwa [(drop_cons hv).2]) (by rwa [(drop_cons hu).2])
    rw [(drop_cons hv).2, (drop_cons hu).2] at hr'
    refine ⟨r && r', ?_, fun stk code made => ?_⟩
    · rw [hv, hu, Bool.and_eq_true, hr, hr']
      rfl
    · refine select_both hva hvb (drop_cons hv).1 (drop_cons hu).1 (hba hb (by simp)) ?_
      refine .step (step_let _ _ _) ((h _ code made).trans (.step (step_deliver (show _ = some ρ₃ from rfl)) ?_))
      refine .step (step_boolCase _ _ (set_same _ _ _)) ?_
      cases r with
      | true => exact h' stk code made
      | false => exact .one (step_ret (by simp [Env.get, ρ₃]))

end

end

/-! ## The synthesized functions -/

/-- A function applied to the pair of `a` and `b` returns `r`, whatever its handler. -/
def Computes (M : Machine) (w : M.W) (fb : Lambda) (a b : Val) (r : Bool) : Prop :=
  ∀ (s : State M) (h : Handle) (ρ : Env) (k : Val), s.w = w → s.code h = some (.fun_ fb ρ) →
    ∃ s', applyVal s (.code h) [.tuple [a, b]] [k] = some s' ∧
      Silent (step M) s' { s with ctl := .deliver [boolVal r] }

theorem Computes.unique {M : Machine} {w : M.W} {fb : Lambda} {a b : Val} {r r' : Bool} (h : Computes M w fb a b r)
    (h' : Computes M w fb a b r') : r = r' := by
  let s : State M := ⟨.deliver [], [], fun _ => some (.fun_ fb fun _ => none), fun _ => 0, w⟩
  obtain ⟨t, ht, n, hn⟩ := h s ⟨⟨0⟩, 0⟩ _ (.tuple []) rfl rfl
  obtain ⟨t', ht', m, hm⟩ := h' s ⟨⟨0⟩, 0⟩ _ (.tuple []) rfl rfl
  rw [ht] at ht'
  cases ht'
  have hs := (hn.stop_unique hm (by simp [step, s]) (by simp [step, s])).2
  simp only [State.mk.injEq, Ctl.deliver.injEq, List.cons.injEq, and_true] at hs
  exact boolVal_inj hs

theorem mkEqual_eq (kinds : Nat → Kind) (isEq : Bool) (ty : Ty) (c : Nat) :
    mkEqual kinds isEq ty c = (mk kinds isEq ⟨c⟩ ⟨c + 1⟩ ty (c + 5)).bind fun r =>
      some (.fb ⟨c + 3⟩ [⟨c + 2⟩] [⟨c + 4⟩]
        (.stmt [⟨c⟩] (.select 0 ⟨c + 2⟩) (.stmt [⟨c + 1⟩] (.select 1 ⟨c + 2⟩) r.1)), r.2) := rfl

/-- Either operator is synthesized, and returns whether every component passes its test. -/
theorem mkEqual_runs {M : Machine} {w : M.W} (isEq : Bool) {ty : Ty} (c : Nat)
    (hty : EqTy kinds ty) : ∃ fb c', mkEqual kinds isEq ty c = some (fb, c') ∧
      ∀ {a b : Val}, HasTy ty a → HasTy ty b →
        ∃ r, Computes M w fb a b r ∧ (r = true ↔ Comps (Test M isEq) ty a b) := by
  obtain ⟨e, c', he, -, hrun⟩ := mk_runs (M := M) (w := w) isEq (a := ⟨c⟩) (b := ⟨c + 1⟩) (c := c + 5) hty
    (by simp) (by simp)
  refine ⟨_, c', by rw [mkEqual_eq, he]; rfl, fun {a b} ha hb => ?_⟩
  classical
  refine ⟨decide (Comps (Test M isEq) ty a b), ?_, by simp⟩
  rintro s h ρ k rfl hcode
  let ρ₁ := (ρ.set ⟨c + 2⟩ (.tuple [a, b])).set ⟨c + 4⟩ k
  have harg : ρ₁ ⟨c + 2⟩ = some (.tuple [a, b]) := by
    grind [set_of_ne, set_same]
  have harg' : (ρ₁.set ⟨c⟩ a) ⟨c + 2⟩ = some (.tuple [a, b]) := by rw [set_of_ne _ _ (by simp), harg]
  refine ⟨{ s with ctl := .eval _ ρ₁ }, by simp only [applyVal, hcode]; rfl, ?_⟩
  obtain ⟨r, hr, hret⟩ := hrun (ρ := (ρ₁.set ⟨c⟩ a).set ⟨c + 1⟩ b) (by rw [set_of_ne _ _ (by simp), set_same])
    (set_same _ _ _) ha hb
  have hdec : decide (Comps (Test M isEq) ty a b) = r := by
    rw [Bool.eq_iff_iff, decide_eq_true_iff, hr]
  rw [hdec]
  exact .step (step_select _ harg rfl) (.step (step_select _ harg' rfl) (hret _ _ _))

/-! ## Structural equality -/

mutual

/-- Two values cannot agree in every component and differ in every component. -/
theorem not_both {P : Ty → Val → Val → Prop} : ∀ {ty : Ty} {a b : Val}, EqTy kinds ty →
    Comps P ty a b → ¬ Comps (fun ty a b => ¬ P ty a b) ty a b
  | .tuple false tys, _, _, hty, ⟨vs, ws, ha, hb, h⟩, ⟨vs', ws', ha', hb', h'⟩ => by
    rw [ha] at ha'
    rw [hb] at hb'
    cases ha'
    cases hb'
    exact not_both_all hty.1 hty.2 h h'
  | .enum _, _, _, _, h, h' => h' h
  | .raw _, _, _, _, h, h' => h' h
  | .tyCon (.data _), _, _, _, h, h' => h' h

theorem not_both_all {P : Ty → Val → Val → Prop} : ∀ {tys : List Ty} {vs ws : List Val},
    tys ≠ [] → EqTys kinds tys → CompsAll P tys vs ws → ¬ CompsAll (fun ty a b => ¬ P ty a b) tys vs ws
  | [], _, _, hne, _, _, _ => absurd rfl hne
  | _ :: _, _ :: _, _ :: _, _, hty, h, h' => not_both hty.1 h.1 h'.1

end

/-- What the claim asks of the operators at a type and a pair of its values: both are synthesized, `=`
    is structural equality and `<>` its negation. -/
def Correct (M : Machine) (w : M.W) (kinds : Nat → Kind) (c : Nat) (ty : Ty) (a b : Val) : Prop :=
  ∃ eq neq c₁ c₂ r r', mkEqual kinds true ty c = some (eq, c₁) ∧ mkEqual kinds false ty c = some (neq, c₂) ∧
    Computes M w eq a b r ∧ Computes M w neq a b r' ∧ (r = true ↔ StructEq M ty a b) ∧ (r' = true ↔ r = false)

/-- The operators, as they are: `=` compares structurally, `<>` asks every component to differ. -/
theorem mkEqual_computes {M : Machine} {w : M.W} {c : Nat} {ty : Ty} {a b : Val}
    (hty : EqTy kinds ty) (ha : HasTy ty a) (hb : HasTy ty b) : ∃ eq neq c₁ c₂ r r',
      mkEqual kinds true ty c = some (eq, c₁) ∧ mkEqual kinds false ty c = some (neq, c₂) ∧
      Computes M w eq a b r ∧ Computes M w neq a b r' ∧ (r = true ↔ StructEq M ty a b) ∧
      (r' = true ↔ DifferAll M ty a b) := by
  obtain ⟨eq, c₁, heq, hrun⟩ := mkEqual_runs (M := M) (w := w) true c hty
  obtain ⟨neq, c₂, hneq, hrun'⟩ := mkEqual_runs (M := M) (w := w) false c hty
  obtain ⟨r, hr, hiff⟩ := hrun ha hb
  obtain ⟨r', hr', hiff'⟩ := hrun' ha hb
  exact ⟨eq, neq, c₁, c₂, r, r', heq, hneq, hr, hr', hiff, hiff'⟩

theorem correct_iff {M : Machine} {w : M.W} {c : Nat} {ty : Ty} {a b : Val}
    (hty : EqTy kinds ty) (ha : HasTy ty a) (hb : HasTy ty b) :
    Correct M w kinds c ty a b ↔ (DifferAll M ty a b ↔ ¬ StructEq M ty a b) := by
  obtain ⟨eq, neq, c₁, c₂, r, r', heq, hneq, hr, hr', hiff, hiff'⟩ := mkEqual_computes (w := w) (c := c) hty ha hb
  constructor
  · rintro ⟨eq', neq', d₁, d₂, q, q', heq', hneq', hq, hq', hs, hs'⟩
    rw [heq] at heq'
    rw [hneq] at hneq'
    cases heq'
    cases hneq'
    cases hr.unique hq
    cases hr'.unique hq'
    rw [← hiff', hs', ← hiff, Bool.not_eq_true]
  · intro h
    refine ⟨eq, neq, c₁, c₂, r, r', heq, hneq, hr, hr', hiff, ?_⟩
    rw [hiff', h, ← hiff, Bool.not_eq_true]

/-- The pair type of the examples below. -/
def intPair : Ty := .tuple false [.raw .int, .raw .int]

def pairVal (i j : Int) : Val := .tuple [.lit (.int i), .lit (.int j)]

theorem hasTy_pairVal {i j : Int} (hi : -2 ^ 31 ≤ i ∧ i < 2 ^ 31) (hj : -2 ^ 31 ≤ j ∧ j < 2 ^ 31) :
    HasTy intPair (pairVal i j) :=
  ⟨_, rfl, ⟨i, hi.1, hi.2, rfl⟩, ⟨j, hj.1, hj.2, rfl⟩, trivial⟩

end Manticore.Bom.Equality
