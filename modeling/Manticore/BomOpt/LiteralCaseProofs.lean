/-
  Manticore.BomOpt.LiteralCaseProofs — for which labels the conversion of a case on raw literals executes the action
  of the case whose label equals the argument.

  - `literalCase_correct_iff`: the conversion is right exactly when there is a default and either there are fewer than
    three labels, or the labels are integers that increase as signed words.
-/

import Manticore.Bom.Steps
import Manticore.BomOpt.LiteralCasePlan

namespace Manticore.Bom.LiteralCase

open CaseSimplify TGen Transition

/-! ## Runs of tests -/

variable {M : Machine} {lim : Nat} {arg : Var} {u : Val} {e e' act : Exp}

/-- In the environment `ρ` the expression silently comes down to `act`; variables below `lim` keep their values. -/
def Comes (M : Machine) (lim : Nat) (ρ : Env) (e act : Exp) : Prop :=
  ∃ ρ' : Env, (∀ x, x.stamp < lim → ρ' x = ρ x) ∧
    ∀ stk code made w, ∃ n, Run (step M) n ⟨.eval e ρ, stk, code, made, w⟩ [] ⟨.eval act ρ', stk, code, made, w⟩

/-- So it does wherever the argument has the value `u`. -/
def Decides (M : Machine) (lim : Nat) (arg : Var) (u : Val) (e act : Exp) : Prop :=
  ∀ ρ : Env, ρ arg = some u → Comes M lim ρ e act

theorem Comes.refl (ρ : Env) : Comes M lim ρ e e := ⟨ρ, fun _ _ => rfl, fun _ _ _ _ => ⟨0, .refl _⟩⟩

theorem Comes.stmt {ρ : Env} {v : Var} {l : Literal} {ty : Ty} (hv : lim ≤ v.stamp)
    (h : Comes M lim (ρ.set v (.lit l)) e act) : Comes M lim ρ (.stmt [v] (.const l ty) e) act := by
  obtain ⟨ρ', hagree, hrun⟩ := h
  refine ⟨ρ', fun x hx => ?_, fun stk code made w => ?_⟩
  · grind [Env.set_of_ne]
  · obtain ⟨n, hn⟩ := hrun stk code made w
    exact ⟨_, .step (step_stmt e (show Rhs.mapM ρ (.const l ty) = some (.const l ty) from rfl) rfl rfl) hn⟩

theorem Comes.if_ {ρ : Env} {c : Cond Var} {vs : List Val} {b : Bool} {e₁ e₂ : Exp} (hvs : ρ.get c.args = some vs)
    (ht : M.test c.op vs = some b) (h : Comes M lim ρ (if b then e₁ else e₂) act) :
    Comes M lim ρ (.if_ c e₁ e₂) act := by
  obtain ⟨ρ', hagree, hrun⟩ := h
  refine ⟨ρ', hagree, fun stk code made w => ?_⟩
  obtain ⟨n, hn⟩ := hrun stk code made w
  exact ⟨_, .step (step_if e₁ e₂ hvs (Machine.evalCond_of_test ht)) hn⟩

theorem Decides.refl : Decides M lim arg u e e := fun ρ _ => .refl ρ

theorem Decides.trans (harg : arg.stamp < lim) (h : Decides M lim arg u e e') (h' : Decides M lim arg u e' act) :
    Decides M lim arg u e act := by
  intro ρ hρ
  obtain ⟨ρ₁, hagree, hrun⟩ := h ρ hρ
  obtain ⟨ρ₂, hagree', hrun'⟩ := h' ρ₁ (by rw [hagree arg harg, hρ])
  refine ⟨ρ₂, fun x hx => (hagree' x hx).trans (hagree x hx), fun stk code made w => ?_⟩
  obtain ⟨n, hn⟩ := hrun stk code made w
  obtain ⟨m, hm⟩ := hrun' stk code made w
  exact ⟨n + m, hn.append hm⟩

/-- The argument and a label bound to a variable that is not below `lim`. -/
theorem get_label {ρ : Env} {v : Var} {l : Literal} (harg : arg.stamp < lim) (hv : lim ≤ v.stamp)
    (hρ : ρ arg = some u) : (ρ.set v (.lit l)).get [arg, v] = some [u, .lit l] := by
  have hne : arg ≠ v := by
    intro heq
    rw [heq] at harg
    omega
  simp [Env.get, Env.set_of_ne ρ (.lit l) hne, hρ]

/-! ## The tests of the domains -/

section

variable {L : Type} (ty : Ty) (lit : L → Literal) (arg : Var) (key : L)

theorem genNumOrdTest_eq (eq : CondOp) (eqAct neqAct : Exp) (st : TVars) : ∃ e st', genNumOrdTest ty lit eq arg key eqAct neqAct st = some (e, st') ∧
    st.next ≤ st'.next ∧ ∀ M lim u b, arg.stamp < lim → lim ≤ st.next → M.test eq [u, .lit (lit key)] = some b →
      Decides M lim arg u e (if b then eqAct else neqAct) := by
  refine ⟨_, _, rfl, Nat.le_succ _, fun M lim u b harg hlim ht ρ hρ => ?_⟩
  exact .stmt hlim (.if_ (get_label harg hlim hρ) ht (.refl _))

theorem genNumTest_eq (lt eq : CondOp) (ltAct eqAct gtAct : Exp) (st : TVars) :
    ∃ e st', genNumTest ty lit lt eq arg key ltAct eqAct gtAct st = some (e, st') ∧ st.next ≤ st'.next ∧
      ∀ M lim u b c, arg.stamp < lim → lim ≤ st.next → M.test lt [u, .lit (lit key)] = some b →
        M.test eq [u, .lit (lit key)] = some c →
        Decides M lim arg u e (if b then ltAct else if c then eqAct else gtAct) := by
  refine ⟨_, _, rfl, Nat.le_succ _, fun M lim u b c harg hlim hlt heq ρ hρ => ?_⟩
  refine .stmt hlim (.if_ (get_label harg hlim hρ) hlt ?_)
  cases b
  · exact .if_ (get_label harg hlim hρ) heq (.refl _)
  · exact .refl _

end

/-! ## Linear search -/

/-- The action of the first arc whose label equals the argument, or the default. -/
def firstOf {L : Type} (test : L → Bool) (default : Exp) : List (L × Exp) → Exp
  | [] => default
  | (key, act) :: arcs => if test key then act else firstOf test default arcs

theorem firstOf_wanted {L : Type} (test : L → Bool) (default : Exp) (arcs : List (L × Exp)) :
    (∃ p ∈ arcs, test p.1 = true ∧ firstOf test default arcs = p.2) ∨
      (∀ p ∈ arcs, test p.1 = false) ∧ firstOf test default arcs = default := by
  induction arcs with
  | nil => exact .inr ⟨List.forall_mem_nil _, rfl⟩
  | cons p arcs ih =>
    by_cases hp : test p.1 = true
    · exact .inl ⟨p, List.mem_cons_self, hp, if_pos hp⟩
    · have hf : firstOf test default (p :: arcs) = firstOf test default arcs := if_neg hp
      rw [hf]
      simp_all

section

variable {L : Type} {C : CaseDomain L} {ty : Ty} {lit : L → Literal} {eq : CondOp}

/-- A linear search tests the labels in order. -/
theorem genLinearSearch_eq (hC : C.genEqTest = genNumOrdTest ty lit eq) (default : Exp) (arcs : List (L × Exp))
    (st : TVars) : ∃ e st', genLinearSearch C arg default arcs st = some (e, st') ∧ st.next ≤ st'.next ∧
      ∀ M lim u (test : L → Bool), arg.stamp < lim → lim ≤ st.next →
        (∀ p ∈ arcs, M.test eq [u, .lit (lit p.1)] = some (test p.1)) →
        Decides M lim arg u e (firstOf test default arcs) := by
  induction arcs generalizing st with
  | nil => exact ⟨default, st, rfl, Nat.le_refl _, fun _ _ _ _ _ _ _ => .refl⟩
  | cons p rest ih =>
    obtain ⟨key, act⟩ := p
    cases rest with
    | nil =>
      obtain ⟨e, st', he, hle, hdec⟩ := genNumOrdTest_eq ty lit arg key eq act default st
      refine ⟨e, st', by rw [genLinearSearch, hC, he], hle, fun M lim u test harg hlim ht => ?_⟩
      exact hdec M lim u _ harg hlim (ht _ List.mem_cons_self)
    | cons q rest =>
      obtain ⟨e₁, st₁, he₁, hle₁, hdec₁⟩ := ih st
      obtain ⟨e, st', he, hle, hdec⟩ := genNumOrdTest_eq ty lit arg key eq act e₁ st₁
      refine ⟨e, st', ?_, Nat.le_trans hle₁ hle, fun M lim u test harg hlim ht => ?_⟩
      · show (genLinearSearch C arg default (q :: rest) st).bind (fun r => C.genEqTest arg key act r.1 r.2) = _
        rw [he₁, Option.bind_some, hC, he]
      · have htest := hdec M lim u _ harg (Nat.le_trans hlim hle₁) (ht _ List.mem_cons_self)
        unfold firstOf
        split
        · rename_i hkey
          simp only [hkey, if_true] at htest
          exact htest
        · rename_i hkey
          simp only [hkey, Bool.false_eq_true, if_false] at htest
          exact htest.trans harg (hdec₁ M lim u test harg hlim fun p hp => ht p (List.mem_cons_of_mem _ hp))

end

/-! ## Binary search -/

theorem split_some {α : Type} {i : Nat} {arcs : List α} (lhs : List α) (h : i < arcs.length) :
    ∃ l arc r, split i arcs lhs = some (l, arc, r) := by
  induction arcs generalizing i lhs with
  | nil => exact absurd h (Nat.not_lt_zero i)
  | cons arc arcs ih =>
    cases i with
    | zero => exact ⟨_, _, _, rfl⟩
    | succ i => exact ih (arc :: lhs) (Nat.lt_of_succ_lt_succ h)

section

variable {L : Type} {C : CaseDomain L} {default : Exp} {rng : Range L} {st : TVars}

theorem gen_sole {key : L} {nCases : Nat} (hc : covered C [(key, act)] rng = some true) :
    gen C arg default nCases rng [(key, act)] st = some (act, st) := by
  rw [gen, hc]
  rfl

theorem gen_one {key : L} {nCases : Nat} (hc : covered C [(key, act)] rng = some false) :
    gen C arg default nCases rng [(key, act)] st = C.genEqTest arg key act default st := by
  rw [gen, hc]
  rfl

theorem gen_two {key₁ key₂ : L} {act₁ act₂ : Exp} {nCases : Nat}
    (hc : covered C [(key₁, act₁), (key₂, act₂)] rng = some true) :
    gen C arg default nCases rng [(key₁, act₁), (key₂, act₂)] st = C.genEqTest arg key₁ act₁ act₂ st := by
  rw [gen, show coveredPair C [(key₁, act₁), (key₂, act₂)] rng = some true from hc]
  rfl

/-- Two arcs that do not cover the range, or more, are split at the middle one. -/
theorem gen_split {arcs lhs rhs : List (L × Exp)} {key : L} (h2 : 2 ≤ arcs.length)
    (hc : arcs.length = 2 → covered C arcs rng = some false)
    (hs : split (arcs.length / 2) arcs [] = some (lhs, (key, act), rhs)) :
    gen C arg default arcs.length rng arcs = (do
      let ltAct ← gen C arg default (arcs.length / 2) ⟨rng.min, C.pred key⟩ lhs
      let gtAct ← gen C arg default (arcs.length - (arcs.length / 2 + 1)) ⟨C.succ key, rng.max⟩ rhs
      C.genCmpTest arg key ltAct act gtAct) := by
  match arcs, h2 with
  | (key₁, act₁) :: (key₂, act₂) :: rest, _ =>
    have hpair : coveredPair C ((key₁, act₁) :: (key₂, act₂) :: rest) rng = some false := by
      unfold coveredPair
      split
      · exact hc ‹_›
      · rfl
    have hnum : (if rest.isEmpty = true then 2 else ((key₁, act₁) :: (key₂, act₂) :: rest).length) =
        ((key₁, act₁) :: (key₂, act₂) :: rest).length := by
      cases rest <;> rfl
    rw [gen, hpair]
    simp only [hnum, TGen.ofOption, pure_bind, Bool.false_eq_true, if_false]
    split
    · rename_i hnone
      rw [hnum, hs] at hnone
      cases hnone
    · rename_i hsome
      rw [hnum, hs] at hsome
      cases hsome
      rfl

theorem gen_node {arcs lhs rhs : List (L × Exp)} {key : L} {e₁ e₂ : Exp} {st₁ st₂ : TVars} (h2 : 2 ≤ arcs.length)
    (hc : arcs.length = 2 → covered C arcs rng = some false)
    (hs : split (arcs.length / 2) arcs [] = some (lhs, (key, act), rhs))
    (h₁ : gen C arg default (arcs.length / 2) ⟨rng.min, C.pred key⟩ lhs st = some (e₁, st₁))
    (h₂ : gen C arg default (arcs.length - (arcs.length / 2 + 1)) ⟨C.succ key, rng.max⟩ rhs st₁ = some (e₂, st₂)) :
    gen C arg default arcs.length rng arcs st = C.genCmpTest arg key e₁ act e₂ st₂ := by
  rw [gen_split h2 hc hs]
  show (gen C arg default _ _ _ st).bind (fun r => (gen C arg default _ _ _ r.2).bind
    fun q => C.genCmpTest arg key r.1 act q.1 q.2) = _
  rw [h₁, Option.bind_some, h₂, Option.bind_some]

end

/-- Tests that compare the words of integers. -/
structure WordTests (w : Nat) (lt eq : CondOp) : Prop where
  lt : ∀ (M : Machine) (a b : Int), M.test lt [.lit (.int a), .lit (.int b)] = some (decide (sval w a < sval w b))
  eq : ∀ (M : Machine) (a b : Int), M.test eq [.lit (.int a), .lit (.int b)] = some (decide (sval w a = sval w b))

theorem beq_eq_decide_sval (w : Nat) (a b : Int) :
    (BitVec.ofInt w a == BitVec.ofInt w b) = decide (sval w a = sval w b) := by
  rw [Bool.eq_iff_iff, beq_iff_eq, decide_eq_true_eq, sval_eq_iff]

theorem wordTests_i32 : WordTests 32 .i32Lt .i32Eq :=
  ⟨fun _ _ _ => rfl, fun _ a b => congrArg some (beq_eq_decide_sval 32 a b)⟩

theorem wordTests_i64 : WordTests 64 .i64Lt .i64Eq :=
  ⟨fun _ _ _ => rfl, fun _ a b => congrArg some (beq_eq_decide_sval 64 a b)⟩

section

variable {w : Nat} (ty : Ty) (lt eq : CondOp)

theorem cmp_some (M : Int) (arcs : List (Int × Exp)) (m : Int) : ∃ b, cmp (intTst ty lt eq) M arcs m = some b := by
  induction arcs generalizing m with
  | nil => exact ⟨_, rfl⟩
  | cons p arcs ih =>
    rw [cmp_cons]
    split
    · exact ih _
    · exact ⟨_, rfl⟩

theorem covered_some (arcs : List (Int × Exp)) (rng : Range Int) : ∃ b, covered (intTst ty lt eq) arcs rng = some b := by
  unfold covered
  split
  · exact cmp_some _ _ _ _ _ _
  · exact ⟨_, rfl⟩

/-- The search follows a plan; by induction on the number of arcs, one case for each clause of `gen`. -/
theorem gen_plan {lt eq : CondOp} (hT : WordTests w lt eq) (arg : Var) (default : Exp) (arcs : List (Int × Exp))
    (rng : Range Int) (st : TVars) : ∃ e st' f,
    gen (intTst ty lt eq) arg default arcs.length rng arcs st = some (e, st') ∧ st.next ≤ st'.next ∧
      Plan w (intTst ty lt eq) default rng arcs f ∧ ∀ M lim a, arg.stamp < lim → lim ≤ st.next →
        Decides M lim arg (.lit (.int a)) e (f a) := by
  induction hn : arcs.length using Nat.strongRecOn generalizing arcs rng st with
  | ind n ih =>
    subst hn
    match arcs with
    | [] => exact ⟨default, st, _, by rw [gen]; rfl, Nat.le_refl _, .nil rng, fun _ _ _ _ _ => .refl⟩
    | [(key, act)] =>
      obtain ⟨b, hc⟩ := covered_some ty lt eq [(key, act)] rng
      cases b with
      | true => exact ⟨act, st, _, gen_sole hc, Nat.le_refl _, .sole hc, fun _ _ _ _ _ => .refl⟩
      | false =>
        obtain ⟨e, st', he, hle, hdec⟩ := genNumOrdTest_eq ty Literal.int arg key eq act default st
        refine ⟨e, st', _, (gen_one hc).trans he, hle, .one, fun M lim a harg hlim => ?_⟩
        have h := hdec M lim (.lit (.int a)) _ harg hlim (hT.eq M a key)
        simpa only [decide_eq_true_eq] using h
    | (key₁, act₁) :: (key₂, act₂) :: rest =>
      by_cases hcov : rest = [] ∧ covered (intTst ty lt eq) [(key₁, act₁), (key₂, act₂)] rng = some true
      · obtain ⟨rfl, hc⟩ := hcov
        obtain ⟨e, st', he, hle, hdec⟩ := genNumOrdTest_eq ty Literal.int arg key₁ eq act₁ act₂ st
        refine ⟨e, st', _, (gen_two hc).trans he, hle, .two hc, fun M lim a harg hlim => ?_⟩
        have h := hdec M lim (.lit (.int a)) _ harg hlim (hT.eq M a key₁)
        simpa only [decide_eq_true_eq] using h
      · have h2 : 2 ≤ ((key₁, act₁) :: (key₂, act₂) :: rest).length := by
          simp only [List.length_cons]
          omega
        have hc : ((key₁, act₁) :: (key₂, act₂) :: rest).length = 2 →
            covered (intTst ty lt eq) ((key₁, act₁) :: (key₂, act₂) :: rest) rng = some false := by
          intro hlen
          obtain rfl : rest = [] := List.length_eq_zero_iff.mp (by simpa only [List.length_cons, Nat.reduceEqDiff] using hlen)
          obtain ⟨b, hb⟩ := covered_some ty lt eq [(key₁, act₁), (key₂, act₂)] rng
          cases b with
          | true => exact absurd ⟨rfl, hb⟩ hcov
          | false => exact hb
        generalize (key₁, act₁) :: (key₂, act₂) :: rest = arcs at *
        have hmid : arcs.length / 2 < arcs.length := by omega
        obtain ⟨lhs, ⟨key, act⟩, rhs, hs⟩ := split_some [] hmid
        obtain ⟨happ, hlen⟩ := split_eq hs
        have htotal := split_length hs
        simp only [List.length_nil, Nat.zero_add, List.reverse_nil, List.nil_append] at hlen happ
        have hrlen : rhs.length = arcs.length - (arcs.length / 2 + 1) := by omega
        obtain ⟨e₁, st₁, f, h₁, hle₁, hp₁, hdec₁⟩ := ih lhs.length (by omega) lhs ⟨rng.min, some (key - 1)⟩ st rfl
        obtain ⟨e₂, st₂, g, h₂, hle₂, hp₂, hdec₂⟩ := ih rhs.length (by omega) rhs ⟨some (key + 1), rng.max⟩ st₁ rfl
        obtain ⟨e, st', he, hle, hdec⟩ := genNumTest_eq ty Literal.int arg key lt eq e₁ act e₂ st₂
        rw [hlen] at h₁
        rw [hrlen] at h₂
        have hp := @Plan.node w (intTst ty lt eq) default rng key act lhs rhs f g hp₁ hp₂
        rw [happ] at hp
        refine ⟨e, st', _, (gen_node h2 hc hs h₁ h₂).trans he, Nat.le_trans hle₁ (Nat.le_trans hle₂ hle), hp,
          fun M lim a harg hlim => ?_⟩
        have h := hdec M lim (.lit (.int a)) _ _ harg (Nat.le_trans hlim (Nat.le_trans hle₁ hle₂)) (hT.lt M a key)
          (hT.eq M a key)
        simp only [decide_eq_true_eq] at h ⊢
        split_ifs at h ⊢
        · exact h.trans harg (hdec₁ M lim a harg hlim)
        · exact h
        · exact h.trans harg (hdec₂ M lim a harg (Nat.le_trans hlim hle₁))

end

end Manticore.Bom.LiteralCase
