/-
  Manticore.Common.FloatLitOrder — comparing float literals (`common/float-lit.sml`).

  - `normal_of_built`: the literals that can be built are zeros with the exponent 0 and numbers whose first digit is
    not 0.
  - `compareMag_eq`: exponents and digits order the absolute values of two such literals, but for `Exception`.
  - `agree_iff`: `lessThan`, `same` and `compare` agree with the values of two literals exactly when the pair is not
    a number and +inf, two zeros of different sign, a zero and a number of its sign with a negative exponent, or two
    numbers of one sign and exponent of which one has more zeros at its end.
  - `not_agree`: the four cases.
-/

import Manticore.BomOpt.LiteralCase
import Manticore.Common.FloatToBitsProofs

namespace Manticore.FloatLit

open Common.FloatToBits Common.FloatToBits.FloatParams

variable {digits : List ℕ}

/-- The exception `NaN` is `none`; the digits are compared as in `List.collate Int.compare`. -/
def lessThan : FloatLit → FloatLit → Option Bool
  | .qNaN, _ => none
  | _, .qNaN => none
  | _, .negInf => some false
  | .negInf, _ => some true
  | .posInf, _ => some false
  | _, .posInf => some false
  | .flt true _ _, .flt false _ _ => some true
  | .flt false _ _, .flt true _ _ => some false
  | .flt isNeg d₁ e₁, .flt _ d₂ e₂ =>
    if e₁ < e₂ then some !isNeg
    else if e₂ < e₁ then some isNeg
    else match cmpDigits d₁ d₂ with
      | .lt => some !isNeg
      | .eq => some false
      | .gt => some isNeg

def same : FloatLit → FloatLit → Bool
  | .negInf, .negInf => true
  | .posInf, .posInf => true
  | .qNaN, .qNaN => true
  | .flt isNeg₁ digits₁ exp₁, .flt isNeg₂ digits₂ exp₂ => isNeg₁ = isNeg₂ && exp₁ = exp₂ && digits₁ = digits₂
  | _, _ => false

/-- `FloatLit.float`; its `normalize` is `fromDigits`. -/
def float (isNeg : Bool) (whole frac : List Char) (exp : ℤ) : FloatLit :=
  let whole := whole.dropWhile (· = '0')
  let frac := frac.rdropWhile (· = '0')
  fromDigits isNeg ((whole ++ frac).map fun c => c.toNat - '0'.toNat) (exp + whole.length)

def toDigits (n : ℕ) (d : List ℕ) : List ℕ := if n < 10 then n :: d else toDigits (n / 10) (n % 10 :: d)

def fromInt (n : ℤ) : FloatLit :=
  if n = 0 then .flt false [0] 0
  else .flt (n < 0) (toDigits n.natAbs []) (toDigits n.natAbs []).length

/-- What the constructors of literals give. -/
inductive Built : FloatLit → Prop
  | float (isNeg : Bool) {whole frac : List Char} (exp : ℤ) (hwhole : ∀ c ∈ whole, c.isDigit)
      (hfrac : ∀ c ∈ frac, c.isDigit) : Built (float isNeg whole frac exp)
  | fromDigits (isNeg : Bool) {digits : List ℕ} (exp : ℤ) (h : ∀ d ∈ digits, d ≤ 9) :
      Built (fromDigits isNeg digits exp)
  | fromInt (n : ℤ) : Built (fromInt n)
  | posInf : Built .posInf
  | negInf : Built .negInf

def signed (isNeg : Bool) (digits : List ℕ) (exp : ℤ) : ℚ :=
  if isNeg then -literalValue digits exp else literalValue digits exp

/-- The number or infinity that a literal stands for. -/
def value : FloatLit → WithBot (WithTop ℚ)
  | .flt isNeg digits exp => ((signed isNeg digits exp : WithTop ℚ) : WithBot (WithTop ℚ))
  | .posInf => ((⊤ : WithTop ℚ) : WithBot (WithTop ℚ))
  | .negInf => ⊥
  | .qNaN => ⊥

structure Agree (a b : FloatLit) : Prop where
  lessThan : a.lessThan b = some true ↔ a.value < b.value
  same : a.same b = true ↔ a.value = b.value
  compare : a.compare b = .eq ↔ a.value = b.value

/-- A zero and a number below a tenth, or two numbers of which the second has more zeros at its end. -/
def Exception (d₁ : List ℕ) (e₁ : ℤ) (d₂ : List ℕ) (e₂ : ℤ) : Prop :=
  d₁ = [0] ∧ d₂ ≠ [0] ∧ e₂ < 0 ∨ e₁ = e₂ ∧ ∃ k, d₂ = d₁ ++ List.replicate (k + 1) 0

/-- The pairs that are compared as their values are. -/
def Comparable : FloatLit → FloatLit → Prop
  | .flt isNeg₁ d₁ e₁, .flt isNeg₂ d₂ e₂ =>
    if isNeg₁ = isNeg₂ then ¬ Exception d₁ e₁ d₂ e₂ ∧ ¬ Exception d₂ e₂ d₁ e₁ else ¬ (d₁ = [0] ∧ d₂ = [0])
  | .flt .., .posInf => False
  | _, _ => True

/-! ## The normal form -/

/-- A number whose first digit is not 0. -/
def Lead (digits : List ℕ) : Prop := ∃ d r, digits = d :: r ∧ d ≠ 0 ∧ ∀ x ∈ digits, x ≤ 9

def NormalDigits (digits : List ℕ) (exp : ℤ) : Prop := digits = [0] ∧ exp = 0 ∨ Lead digits

def Normal : FloatLit → Prop
  | .flt _ digits exp => NormalDigits digits exp
  | .qNaN => False
  | _ => True

theorem fromDigits_normal (isNeg : Bool) (exp : ℤ) (h : ∀ d ∈ digits, d ≤ 9) :
    Normal (Common.FloatToBits.fromDigits isNeg digits exp) := by
  induction digits generalizing exp with
  | nil => exact .inl ⟨rfl, rfl⟩
  | cons d r ih =>
    rw [Common.FloatToBits.fromDigits]
    split
    · exact ih (exp - 1) fun x hx => h x (List.mem_cons_of_mem _ hx)
    · rename_i hd
      exact .inr ⟨d, r, rfl, hd, h⟩

theorem toDigits_lead {n : ℕ} (hn : n ≠ 0) {d : List ℕ} (hd : ∀ x ∈ d, x ≤ 9) : Lead (toDigits n d) := by
  induction n using Nat.strong_induction_on generalizing d with
  | _ n ih =>
    rw [toDigits]
    split
    · exact ⟨n, d, rfl, hn, List.forall_mem_cons.mpr ⟨by omega, hd⟩⟩
    · exact ih (n / 10) (by omega) (by omega) (List.forall_mem_cons.mpr ⟨by omega, hd⟩)

theorem normal_of_built {lit : FloatLit} (h : Built lit) : Normal lit := by
  cases h with
  | float isNeg exp hwhole hfrac =>
    refine fromDigits_normal isNeg _ ?_
    intro d hd
    obtain ⟨c, hc, rfl⟩ := List.mem_map.mp hd
    have hdigit : c.isDigit := by
      rcases List.mem_append.mp hc with hc | hc
      · exact hwhole c ((List.dropWhile_suffix _).subset hc)
      · exact hfrac c ((List.rdropWhile_prefix _ _).subset hc)
    have hle : c.toNat ≤ '9'.toNat := of_decide_eq_true (Bool.and_eq_true_iff.mp hdigit).2
    exact Nat.sub_le_sub_right hle _
  | fromDigits isNeg exp h => exact fromDigits_normal isNeg exp h
  | fromInt n =>
    unfold fromInt
    split
    · exact .inl ⟨rfl, rfl⟩
    · rename_i hn
      exact .inr (toDigits_lead (Int.natAbs_ne_zero.mpr hn) (by simp))
  | posInf => trivial
  | negInf => trivial

/-! ## Absolute values -/

theorem fraction_nonneg (digits : List ℕ) : 0 ≤ fraction digits := by
  induction digits with
  | nil => exact le_rfl
  | cons d r ih =>
    rw [fraction]
    positivity

theorem fraction_lt_one (h : ∀ d ∈ digits, d ≤ 9) : fraction digits < 1 := by
  induction digits with
  | nil => exact zero_lt_one
  | cons d r ih =>
    have hd : (d : ℚ) ≤ 9 := by exact_mod_cast h d List.mem_cons_self
    have hr := ih fun x hx => h x (List.mem_cons_of_mem _ hx)
    rw [fraction]
    linarith

theorem fraction_append_zeros (digits : List ℕ) (k : ℕ) :
    fraction (digits ++ List.replicate k 0) = fraction digits := by
  induction digits with
  | nil =>
    induction k with
    | zero => rfl
    | succ k ih => simpa [List.replicate_succ, fraction] using ih
  | cons d r ih => rw [List.cons_append, fraction, fraction, ih]

theorem cmpDigits_swap : ∀ d₁ d₂ : List ℕ, cmpDigits d₂ d₁ = (cmpDigits d₁ d₂).swap
  | [], [] => rfl
  | [], _ :: _ => rfl
  | _ :: _, [] => rfl
  | d₁ :: r₁, d₂ :: r₂ => by
    rw [cmpDigits, cmpDigits, ← Nat.compare_swap d₁ d₂, cmpDigits_swap r₁ r₂]
    cases Ord.compare d₁ d₂ <;> rfl

theorem cmpDigits_eq : ∀ {d₁ d₂ : List ℕ}, cmpDigits d₁ d₂ = .eq → d₁ = d₂
  | [], [], _ => rfl
  | d₁ :: r₁, d₂ :: r₂, h => by
    rw [cmpDigits] at h
    cases hd : Ord.compare d₁ d₂ <;> rw [hd] at h
    · cases h
    · rw [Nat.compare_eq_eq.mp hd, cmpDigits_eq h]
    · cases h

/-- Digits that come first are a smaller fraction, or have fewer zeros at the end. -/
theorem cmpDigits_lt : ∀ {d₁ d₂ : List ℕ}, (∀ d ∈ d₁, d ≤ 9) → cmpDigits d₁ d₂ = .lt →
    fraction d₁ < fraction d₂ ∨ ∃ k, d₂ = d₁ ++ List.replicate (k + 1) 0
  | [], d₂ :: r₂, _, _ => by
    by_cases hz : ∃ d ∈ d₂ :: r₂, d ≠ 0
    · exact .inl (fraction_pos.mpr hz)
    · push Not at hz
      exact .inr ⟨r₂.length, List.eq_replicate_of_mem hz⟩
  | d₁ :: r₁, d₂ :: r₂, hle, h => by
    have hr := fun x hx => hle x (List.mem_cons_of_mem d₁ hx)
    rw [cmpDigits] at h
    simp only [fraction]
    cases hd : Ord.compare d₁ d₂ <;> rw [hd] at h
    · have hd' : (d₁ : ℚ) + 1 ≤ d₂ := by exact_mod_cast Nat.compare_eq_lt.mp hd
      have h1 := fraction_lt_one hr
      have h2 := fraction_nonneg r₂
      left
      linarith
    · rw [Nat.compare_eq_eq.mp hd]
      refine (cmpDigits_lt hr h).imp (fun h => by linarith) ?_
      rintro ⟨k, rfl⟩
      exact ⟨k, rfl⟩
    · cases h

/-- The order of exponents and digits. -/
def compareMag (d₁ : List ℕ) (e₁ : ℤ) (d₂ : List ℕ) (e₂ : ℤ) : Ordering :=
  match Ord.compare e₁ e₂ with
  | .eq => cmpDigits d₁ d₂
  | order => order

theorem compareMag_swap (d₁ : List ℕ) (e₁ : ℤ) (d₂ : List ℕ) (e₂ : ℤ) :
    compareMag d₂ e₂ d₁ e₁ = (compareMag d₁ e₁ d₂ e₂).swap := by
  have hswap : Ord.compare e₂ e₁ = (Ord.compare e₁ e₂).swap := (Int.compare_swap ..).symm
  rw [compareMag, compareMag, hswap, cmpDigits_swap d₁ d₂]
  cases Ord.compare e₁ e₂ <;> rfl

theorem Lead.pos (h : Lead digits) (exp : ℤ) : 0 < literalValue digits exp := by
  obtain ⟨d, r, rfl, hd, -⟩ := h
  exact literalValue_pos.mpr ⟨d, List.mem_cons_self, hd⟩

theorem Lead.bounds (h : Lead digits) (exp : ℤ) :
    10 ^ (exp - 1) ≤ literalValue digits exp ∧ literalValue digits exp < 10 ^ exp := by
  obtain ⟨d, r, rfl, hd, hle⟩ := h
  have h10 : (0 : ℚ) < 10 ^ exp := by positivity
  have hd' : (1 : ℚ) ≤ d := by exact_mod_cast Nat.one_le_iff_ne_zero.mpr hd
  have hr := fraction_nonneg r
  have hlt := fraction_lt_one hle
  rw [literalValue, zpow_sub_one₀ (by norm_num)]
  constructor
  · rw [fraction]
    nlinarith
  · nlinarith

theorem literalValue_zero (exp : ℤ) : literalValue [0] exp = 0 := by simp [literalValue, fraction]

theorem Lead.ne_zero (h : Lead digits) : digits ≠ [0] := by
  rintro rfl
  exact (h.pos 0).ne' (literalValue_zero 0)

theorem compareMag_eq {d₁ d₂ : List ℕ} {e₁ e₂ : ℤ} : compareMag d₁ e₁ d₂ e₂ = .eq ↔ d₁ = d₂ ∧ e₁ = e₂ := by
  constructor
  · intro h
    unfold compareMag at h
    cases he : Ord.compare e₁ e₂ <;> simp only [he, reduceCtorEq] at h
    exact ⟨cmpDigits_eq h, Int.compare_eq_eq.mp he⟩
  · rintro ⟨rfl, rfl⟩
    have hd := cmpDigits_swap d₁ d₁
    rw [compareMag, Int.compare_eq_eq.mpr rfl]
    cases h : cmpDigits d₁ d₁ <;> simp [h] at hd ⊢

theorem compareMag_lt {d₁ d₂ : List ℕ} {e₁ e₂ : ℤ} (h₁ : NormalDigits d₁ e₁) (h₂ : NormalDigits d₂ e₂)
    (hex : ¬ Exception d₁ e₁ d₂ e₂) (hex' : ¬ Exception d₂ e₂ d₁ e₁) (h : compareMag d₁ e₁ d₂ e₂ = .lt) :
    literalValue d₁ e₁ < literalValue d₂ e₂ := by
  rcases h₁ with ⟨rfl, rfl⟩ | h₁
  · rcases h₂ with ⟨rfl, rfl⟩ | h₂
    · cases h
    · rw [literalValue_zero]
      exact h₂.pos e₂
  unfold compareMag at h
  rcases lt_trichotomy e₁ e₂ with he | rfl | he
  · rcases h₂ with ⟨rfl, rfl⟩ | h₂
    · exact absurd (.inl ⟨rfl, h₁.ne_zero, he⟩) hex'
    · calc literalValue d₁ e₁ < 10 ^ e₁ := (h₁.bounds e₁).2
        _ ≤ 10 ^ (e₂ - 1) := zpow_le_zpow_right₀ (by norm_num) (by omega)
        _ ≤ literalValue d₂ e₂ := (h₂.bounds e₂).1
  · rw [Int.compare_eq_eq.mpr rfl] at h
    obtain ⟨d, r, rfl, hd, hle⟩ := h₁
    rcases cmpDigits_lt hle h with hlt | hzeros
    · exact mul_lt_mul_of_pos_right hlt (by positivity)
    · exact absurd (.inr ⟨rfl, hzeros⟩) hex
  · rw [Int.compare_eq_gt.mpr he] at h
    cases h

theorem cmpDigits_append (d : List ℕ) (k : ℕ) : cmpDigits d (d ++ List.replicate (k + 1) 0) = .lt := by
  induction d with
  | nil => rfl
  | cons x d ih => simp [cmpDigits, ih]

/-- An exception is put in another order than its values. -/
theorem Exception.order {d₁ d₂ : List ℕ} {e₁ e₂ : ℤ} (h₁ : NormalDigits d₁ e₁) (h₂ : NormalDigits d₂ e₂)
    (h : Exception d₁ e₁ d₂ e₂) : compareMag d₁ e₁ d₂ e₂ ≠ cmp (literalValue d₁ e₁) (literalValue d₂ e₂) := by
  rcases h with ⟨rfl, hne, he⟩ | ⟨rfl, k, rfl⟩
  · obtain rfl : e₁ = 0 := h₁.elim And.right fun h => absurd rfl h.ne_zero
    have hpos := (h₂.resolve_left fun h => hne h.1).pos e₂
    rw [compareMag, Int.compare_eq_gt.mpr he, literalValue_zero, (cmp_eq_lt_iff ..).mpr hpos]
    simp
  · have hval : literalValue (d₁ ++ List.replicate (k + 1) 0) e₁ = literalValue d₁ e₁ := by
      rw [literalValue, fraction_append_zeros, literalValue]
    rw [compareMag, Int.compare_eq_eq.mpr rfl, hval, cmp_self_eq_eq]
    simp [cmpDigits_append]

/-- When exponents and digits give the order of the absolute values. -/
theorem compareMag_iff {d₁ d₂ : List ℕ} {e₁ e₂ : ℤ} (h₁ : NormalDigits d₁ e₁) (h₂ : NormalDigits d₂ e₂) :
    compareMag d₁ e₁ d₂ e₂ = cmp (literalValue d₁ e₁) (literalValue d₂ e₂) ↔
      ¬ Exception d₁ e₁ d₂ e₂ ∧ ¬ Exception d₂ e₂ d₁ e₁ := by
  constructor
  · intro h
    refine ⟨fun hex => hex.order h₁ h₂ h, fun hex => hex.order h₂ h₁ ?_⟩
    rw [compareMag_swap d₁ e₁, h, cmp_swap]
  · rintro ⟨hex, hex'⟩
    cases h : compareMag d₁ e₁ d₂ e₂ with
    | lt => exact ((cmp_eq_lt_iff ..).mpr (compareMag_lt h₁ h₂ hex hex' h)).symm
    | eq =>
      obtain ⟨rfl, rfl⟩ := compareMag_eq.mp h
      exact (cmp_self_eq_eq _).symm
    | gt =>
      have hswap : compareMag d₂ e₂ d₁ e₁ = .lt := by rw [compareMag_swap d₁ e₁, h]; rfl
      exact ((cmp_eq_gt_iff ..).mpr (compareMag_lt h₂ h₁ hex' hex hswap)).symm

/-! ## Literals -/

section Numbers

variable (isNeg : Bool) (d₁ : List ℕ) (e₁ : ℤ) (d₂ : List ℕ) (e₂ : ℤ)

theorem lessThan_flt : lessThan (.flt isNeg d₁ e₁) (.flt isNeg d₂ e₂) = some (match compareMag d₁ e₁ d₂ e₂ with
    | .lt => !isNeg
    | .eq => false
    | .gt => isNeg) := by
  have hloop : lessThan (.flt isNeg d₁ e₁) (.flt isNeg d₂ e₂) = if e₁ < e₂ then some !isNeg
      else if e₂ < e₁ then some isNeg else match cmpDigits d₁ d₂ with
        | .lt => some !isNeg
        | .eq => some false
        | .gt => some isNeg := by cases isNeg <;> rfl
  rw [hloop, compareMag]
  rcases lt_trichotomy e₁ e₂ with he | rfl | he
  · rw [if_pos he, Int.compare_eq_lt.mpr he]
  · rw [if_neg (lt_irrefl _), if_neg (lt_irrefl _), Int.compare_eq_eq.mpr rfl]
    cases cmpDigits d₁ d₂ <;> rfl
  · rw [if_neg (not_lt_of_gt he), if_pos he, Int.compare_eq_gt.mpr he]

theorem same_flt : same (.flt isNeg d₁ e₁) (.flt isNeg d₂ e₂) = true ↔ compareMag d₁ e₁ d₂ e₂ = .eq := by
  simp [same, compareMag_eq, and_comm]

theorem compare_flt : compare (.flt isNeg d₁ e₁) (.flt isNeg d₂ e₂) = compareMag d₁ e₁ d₂ e₂ := by
  cases isNeg <;> rfl

end Numbers

theorem value_lt {n₁ n₂ : Bool} {d₁ d₂ : List ℕ} {e₁ e₂ : ℤ} :
    (flt n₁ d₁ e₁).value < (flt n₂ d₂ e₂).value ↔ signed n₁ d₁ e₁ < signed n₂ d₂ e₂ :=
  WithBot.coe_lt_coe.trans WithTop.coe_lt_coe

theorem value_eq {n₁ n₂ : Bool} {d₁ d₂ : List ℕ} {e₁ e₂ : ℤ} :
    (flt n₁ d₁ e₁).value = (flt n₂ d₂ e₂).value ↔ signed n₁ d₁ e₁ = signed n₂ d₂ e₂ :=
  WithBot.coe_inj.trans WithTop.coe_inj

theorem agree_def (a b : FloatLit) : Agree a b ↔ (a.lessThan b = some true ↔ a.value < b.value) ∧
    (a.same b = true ↔ a.value = b.value) ∧ (a.compare b = .eq ↔ a.value = b.value) :=
  ⟨fun h => ⟨h.1, h.2, h.3⟩, fun h => ⟨h.1, h.2.1, h.2.2⟩⟩

/-- Numbers of one sign are compared as their absolute values are. -/
theorem agree_flt (isNeg : Bool) (d₁ : List ℕ) (e₁ : ℤ) (d₂ : List ℕ) (e₂ : ℤ) :
    Agree (.flt isNeg d₁ e₁) (.flt isNeg d₂ e₂) ↔
      compareMag d₁ e₁ d₂ e₂ = cmp (literalValue d₁ e₁) (literalValue d₂ e₂) := by
  rw [agree_def, lessThan_flt, same_flt, compare_flt, value_lt, value_eq]
  unfold signed
  generalize literalValue d₁ e₁ = m₁, literalValue d₂ e₂ = m₂, compareMag d₁ e₁ d₂ e₂ = o
  rcases lt_trichotomy m₁ m₂ with h | rfl | h
  · rw [(cmp_eq_lt_iff ..).mpr h]
    cases o <;> cases isNeg <;> simp [h, h.ne, not_lt_of_gt h]
  · rw [cmp_self_eq_eq]
    cases o <;> cases isNeg <;> simp
  · rw [(cmp_eq_gt_iff ..).mpr h]
    cases o <;> cases isNeg <;> simp [h, h.ne', not_lt_of_gt h]

theorem literalValue_nonneg (digits : List ℕ) (exp : ℤ) : 0 ≤ literalValue digits exp :=
  mul_nonneg (fraction_nonneg digits) (by positivity)

theorem NormalDigits.zero_iff {exp : ℤ} (h : NormalDigits digits exp) :
    digits = [0] ↔ literalValue digits exp = 0 := by
  constructor
  · rintro rfl
    exact literalValue_zero exp
  · intro hval
    exact (h.resolve_right fun h => (h.pos exp).ne' hval).1

theorem agree_of_normal {a b : FloatLit} (ha : Normal a) (hb : Normal b) : Agree a b ↔ Comparable a b := by
  have hinf (x : ℚ) : ((x : WithTop ℚ) : WithBot (WithTop ℚ)) < ((⊤ : WithTop ℚ) : WithBot (WithTop ℚ)) :=
    WithBot.coe_lt_coe.mpr (WithTop.coe_lt_top x)
  cases a with
  | qNaN => exact ha.elim
  | posInf | negInf =>
    refine iff_of_true ?_ (by cases b <;> trivial)
    cases b with
    | qNaN => exact hb.elim
    | _ => constructor <;> simp [lessThan, same, compare, value]
  | flt n₁ d₁ e₁ =>
    cases b with
    | qNaN => exact hb.elim
    | posInf =>
      refine iff_of_false (fun h => ?_) id
      exact absurd (h.lessThan.mpr (hinf (signed n₁ d₁ e₁))) (by simp [lessThan])
    | negInf =>
      refine iff_of_true ?_ trivial
      constructor <;> simp [lessThan, same, compare, value]
    | flt n₂ d₂ e₂ =>
      by_cases hn : n₁ = n₂
      · subst hn
        rw [agree_flt, Comparable, if_pos rfl, compareMag_iff ha hb]
      · rw [Comparable, if_neg hn, NormalDigits.zero_iff ha, NormalDigits.zero_iff hb, agree_def, value_lt, value_eq]
        have h1 := literalValue_nonneg d₁ e₁
        have h2 := literalValue_nonneg d₂ e₂
        unfold signed
        generalize literalValue d₁ e₁ = m₁ at h1 ⊢
        generalize literalValue d₂ e₂ = m₂ at h2 ⊢
        by_cases hz : m₁ = 0 ∧ m₂ = 0
        · obtain ⟨rfl, rfl⟩ := hz
          cases n₁ <;> cases n₂ <;> simp [same] at hn ⊢
        · have hpos : 0 < m₁ + m₂ := by
            refine lt_of_le_of_ne (add_nonneg h1 h2) fun h => hz ?_
            constructor <;> linarith
          refine iff_of_true ?_ hz
          cases n₁ <;> cases n₂ <;> simp [lessThan, same, compare] at hn ⊢
          · exact ⟨by linarith, fun h => by linarith⟩
          · exact ⟨by linarith, fun h => by linarith⟩

/-- Two literals are compared as their values are exactly when they are not one of the four kinds of pairs. -/
theorem agree_iff {a b : FloatLit} (ha : Built a) (hb : Built b) : Agree a b ↔ Comparable a b :=
  agree_of_normal (normal_of_built ha) (normal_of_built hb)

theorem agree_infinities : Agree .negInf .posInf := (agree_iff .negInf .posInf).mpr trivial

/-- 1 is not below +inf, the zeros differ, 0.01 is below 0, and 10 differs from 0.1e2. -/
theorem not_agree : ¬ Agree (fromInt 1) .posInf ∧
    ¬ Agree (fromInt 0) (Common.FloatToBits.fromDigits true [] 0) ∧
    ¬ Agree (fromInt 0) (Common.FloatToBits.fromDigits false [0, 1] 0) ∧
    ¬ Agree (fromInt 10) (Common.FloatToBits.fromDigits false [1] 2) := by
  have hbuilt {digits : List ℕ} (isNeg : Bool) (exp : ℤ) (h : ∀ d ∈ digits, d ≤ 9) := fromDigits_normal isNeg exp h
  have hint (n : ℤ) := normal_of_built (.fromInt n)
  have h10 : fromInt 10 = .flt false [1, 0] 2 := by
    unfold fromInt toDigits toDigits
    rfl
  refine ⟨?_, ?_, ?_, ?_⟩
  · rw [agree_of_normal (hint 1) (normal_of_built .posInf)]
    exact id
  · rw [agree_of_normal (hint 0) (hbuilt true 0 (by simp))]
    exact fun h => h ⟨rfl, rfl⟩
  · rw [agree_of_normal (hint 0) (hbuilt false 0 (by simp))]
    exact fun h => h.1 (.inl ⟨rfl, by decide, by decide⟩)
  · rw [agree_of_normal (hint 10) (hbuilt false 2 (by simp)), h10]
    exact fun h => h.2 (.inr ⟨rfl, 0, rfl⟩)

end Manticore.FloatLit
