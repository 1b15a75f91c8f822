/-
  Manticore.Common.FloatToBitsProofs — which bit pattern a literal gets.

  Proved, for every format and whatever literals were converted before (`toBits_correct`):
  infinities, the NaN and the zeros get their patterns and classes. Any other literal gets the
  pattern of the number with `significant` digits that is nearest to the scaled literal, the
  greater one of two, when that number is in the normal range, and is refused when it is above or
  below. It is the number nearest to the literal itself when the scaling needs no rounding, and
  when no midpoint between two numbers lies within the error of the scaling.

  `toBits_not_ieee` has what IEEE 754 asks for and the code does not do: ties go away from zero,
  a literal near a midpoint can go to the wrong side, subnormal numbers are not implemented and
  overflow is an exception.
-/

import Manticore.Common.FloatToBitsScale
import Manticore.Common.FloatToBitsPack

namespace Manticore.Common.FloatToBits

open BinaryRounding

/-- A literal that is zero has the digits [0]. -/
def WellFormed : FloatLit → Prop
  | .flt _ digits _ => digits = [0] ∨ ∃ d ∈ digits, d ≠ 0
  | _ => True

/-- `FloatLit.fromDigits`. -/
def fromDigits (isNeg : Bool) : List ℕ → ℤ → FloatLit
  | [], _ => .flt isNeg [0] 0
  | d :: r, exp => if d = 0 then fromDigits isNeg r (exp - 1) else .flt isNeg (d :: r) exp

namespace FloatParams

theorem fraction_pos {digits : List ℕ} : 0 < fraction digits ↔ ∃ d ∈ digits, d ≠ 0 := by
  have hnonneg : ∀ l : List ℕ, 0 ≤ fraction l := by
    intro l
    induction l with
    | nil => exact le_refl _
    | cons d l ih => rw [fraction]; positivity
  induction digits with
  | nil => simp [fraction]
  | cons d digits ih =>
    have h := hnonneg digits
    rw [fraction, div_pos_iff_of_pos_right (by norm_num), List.exists_mem_cons_iff]
    constructor
    · intro hsum
      by_cases hd : d = 0
      · subst hd
        exact .inr (ih.mp (by simpa using hsum))
      · exact .inl hd
    · rintro (hd | hrest)
      · have hd' : (0 : ℚ) < d := by exact_mod_cast Nat.pos_of_ne_zero hd
        linarith
      · have hpos := ih.mpr hrest
        positivity

variable (fp : FloatParams)

/-- The caches after the literals `lits` have been converted. -/
def after (lits : List FloatLit) : Caches := lits.foldl (fun c lit => (fp.toBits c lit).2) fp.caches

theorem whole_pos {digits : List ℕ} (exp : ℤ) (h : ∃ d ∈ digits, d ≠ 0) : 0 < (wholeNumber digits exp).1 := by
  have hpos : 0 < literalValue digits exp := mul_pos (fraction_pos.mpr h) (by positivity)
  rw [← wholeNumber_value] at hpos
  have h10 : (0 : ℚ) < 10 ^ (wholeNumber digits exp).2 := by positivity
  exact_mod_cast (pos_iff_pos_of_mul_pos hpos).mpr h10

theorem toBits_ok {c : Caches} (hc : c.Ok fp) (lit : FloatLit) : (fp.toBits c lit).2.Ok fp := by
  cases lit with
  | posInf => exact hc
  | negInf => exact hc
  | qNaN => exact hc
  | flt isNeg digits exp =>
    grind [toBits, scaled_near]

theorem after_ok (lits : List FloatLit) : (fp.after lits).Ok fp := by
  have hfold : ∀ c : Caches, c.Ok fp → (lits.foldl (fun c lit => (fp.toBits c lit).2) c).Ok fp := by
    induction lits with
    | nil => intro c hc; exact hc
    | cons lit lits ih => intro c hc; exact ih _ (fp.toBits_ok hc lit)
  exact hfold _ fp.caches_ok

/-! ## The nearest number -/

/-- No midpoint lies within the error of the scaling. -/
def Clear (digits : List ℕ) (exp : ℤ) : Prop :=
  ∀ z, Midpoint fp.significant z →
    ¬ ((1 - fp.delta) ^ errors (wholeNumber digits exp).2 * literalValue digits exp ≤ z ∧
      z ≤ (1 + fp.delta) ^ errors (wholeNumber digits exp).2 * literalValue digits exp)

/-- What the code makes of the nearest number `r`. -/
def Outcome (isNeg : Bool) (r : ℚ) : Except Exn (List (BitVec 8) × FloatClass) → Prop
  | .ok (bytes, cls) => cls = .normal ∧ ∃ E T, Pattern fp bytes isNeg E T ∧ 1 ≤ E ∧ E < 2 ^ fp.expWidth - 1 ∧
      r = (2 ^ (fp.significant - 1) + T) * 2 ^ ((E : ℤ) - fp.maxExp - (fp.significant - 1 : ℕ))
  | .error .overflow => 2 ^ (fp.maxExp + 1) ≤ r
  | .error (.fail msg) => msg = "subnormal floats are not yet implemented" ∧ r < 2 ^ fp.minExp
  | .error .domain => False

theorem significant_pos : 1 ≤ fp.significant := by
  have := fp.le_significant
  omega

theorem round_storable {f : Flt} (hf : 0 < f.frac) : fp.Storable (round f (fp.significant + 1)).frac := by
  have hsig := fp.significant_pos
  unfold Storable
  rcases Nat.eq_zero_or_pos (numBitsForInt f.frac + 1 - (fp.significant + 1)) with h | h
  · have hlt : f.frac < 2 ^ fp.significant :=
      (numBits_bounds hf).2.trans_le (Nat.pow_le_pow_right (by norm_num) (by omega))
    rw [round_le hlt hf]
    exact hlt.le
  · rw [round_gt h rfl]
    exact halfUp_le h (too_long hf (by omega) h rfl).2

/-- The scaled literal and the exact one round to the same number. -/
theorem nearest_literal {c : Caches} (hc : c.Ok fp) {digits : List ℕ} {exp : ℤ} (hd : ∃ d ∈ digits, d ≠ 0)
    (h : fp.Exact digits exp ∨ fp.Clear digits exp) :
    NearestAway fp.significant (literalValue digits exp)
      (round (fp.scaled c digits exp).1 (fp.significant + 1)).value := by
  have hwhole := whole_pos exp hd
  obtain ⟨-, hpos, hnear⟩ := scaled_near hc hwhole
  have hsig := fp.significant_pos
  have hround := round_nearest (n := fp.significant + 1) hpos (by omega)
  rw [Nat.add_sub_cancel] at hround
  rcases h with hexact | hclear
  · rwa [scaled_exact hc hwhole hexact] at hround
  · have hr : 0 < (round (fp.scaled c digits exp).1 (fp.significant + 1)).value := by
      have hfrac := round_pos (n := fp.significant + 1) hpos (by omega)
      unfold Flt.value
      positivity
    have hv : 0 ≤ literalValue digits exp := (mul_pos (fraction_pos.mpr hd) (by positivity)).le
    have hself : Near fp.delta (errors (wholeNumber digits exp).2) (literalValue digits exp) (literalValue digits exp) :=
      (Near.refl _).mono fp.delta_nonneg fp.delta_le_one hv (Nat.zero_le _)
    refine hround.of_no_midpoint hsig hr ?_
    rintro z hz ⟨hlo, hhi⟩
    exact hclear z hz ⟨(le_min hself.1 hnear.1).trans hlo, hhi.trans (max_le hself.2 hnear.2)⟩

theorem value_bounds {f : Flt} (hf : 0 < f.frac) :
    2 ^ (f.exp + numBitsForInt f.frac - 1) ≤ f.value ∧ f.value < 2 ^ (f.exp + numBitsForInt f.frac - 1 + 1) := by
  obtain ⟨hlo, hhi⟩ := numBits_bounds hf
  have hbits : 1 ≤ numBitsForInt f.frac := by unfold numBitsForInt; omega
  have h₁ : f.exp + numBitsForInt f.frac - 1 = f.exp + (numBitsForInt f.frac - 1 : ℕ) := by omega
  have h₂ : f.exp + numBitsForInt f.frac - 1 + 1 = f.exp + (numBitsForInt f.frac : ℕ) := by omega
  have hpos := two_zpow_pos f.exp
  rw [h₂, h₁, two_zpow_add_nat, two_zpow_add_nat]
  constructor
  · exact mul_le_mul_of_nonneg_right (by exact_mod_cast hlo) hpos.le
  · exact mul_lt_mul_of_pos_right (by exact_mod_cast hhi) hpos

/-- The last steps of `toBits`, on the rounded number. -/
theorem finish {f : Flt} (hf : 0 < f.frac) (hs : fp.Storable f.frac) (isNeg : Bool) (c : Caches) :
    fp.Outcome isNeg f.value
      (if f.exp + numBitsForInt f.frac - 1 < fp.minExp then
          (.error (.fail "subnormal floats are not yet implemented"), c)
        else if fp.maxExp < f.exp + numBitsForInt f.frac - 1 then (.error .overflow, c)
        else (.ok (fp.pack isNeg (f.exp + numBitsForInt f.frac - 1 + fp.maxExp).toNat f.frac, .normal), c) :
          Except Exn (List (BitVec 8) × FloatClass) × Caches).1 := by
  obtain ⟨hlo, hhi⟩ := value_bounds hf
  have hval := fp.mantissa_value f.exp hf hs
  generalize f.exp + numBitsForInt f.frac - 1 = e at *
  split
  · next hmin => exact ⟨rfl, hhi.trans_le (zpow_le_zpow_right₀ (by norm_num) (by omega))⟩
  · next hmin =>
    split
    · next hmax => exact (zpow_le_zpow_right₀ (by norm_num) (by omega)).trans hlo
    · next hmax =>
      have hw : 2 ^ fp.expWidth = 2 * 2 ^ (fp.expWidth - 1) := by
        have h5 := fp.significant_le
        have h16 := fp.le_width
        rw [← pow_succ']
        congr 1
        unfold expWidth
        omega
      have hmaxExp : fp.maxExp = (2 ^ (fp.expWidth - 1) : ℕ) - 1 := by unfold maxExp; push_cast; rfl
      have hminExp : fp.minExp = 1 - fp.maxExp := rfl
      have hE : ((e + fp.maxExp).toNat : ℤ) = e + fp.maxExp := Int.toNat_of_nonneg (by omega)
      refine ⟨rfl, (e + fp.maxExp).toNat, fp.mantissa f.frac, fp.pack_pattern isNeg (by omega) hs, by omega, by omega, ?_⟩
      rw [hE, Int.add_sub_cancel]
      exact hval

/-! ## Every literal -/

theorem special_lt : fp.specialExp < 2 ^ fp.expWidth := by
  unfold specialExp
  rw [Nat.one_shiftLeft]
  have := Nat.two_pow_pos fp.expWidth
  omega

theorem mantissa_zero : fp.mantissa 0 = 0 := by
  unfold mantissa
  split <;> simp

theorem mantissa_quiet : fp.mantissa 3 = 2 ^ (fp.significant - 2) := by
  have hsig := fp.le_significant
  have hbits : numBitsForInt 3 = 2 := rfl
  have hpow : 2 ^ (fp.significant - 1) = 2 * 2 ^ (fp.significant - 2) := by
    rw [← pow_succ']
    congr 1
    omega
  have hpos := Nat.two_pow_pos (fp.significant - 2)
  rw [mantissa, hbits, if_pos (by omega), hpow, Nat.mod_eq_sub_mod (by omega), Nat.mod_eq_of_lt (by omega)]
  omega

theorem three_storable : fp.Storable 3 := by
  have h : 2 ^ 2 ≤ 2 ^ fp.significant := Nat.pow_le_pow_right (by norm_num) (by have := fp.le_significant; omega)
  unfold Storable
  omega

/-- What `toBits` promises for a literal. A number is scaled to `v'`, which comes from its value
by the errors of the scaling, and gets the pattern of the number nearest to `v'`. -/
def Meets (lit : FloatLit) (res : Except Exn (List (BitVec 8) × FloatClass)) : Prop :=
  match lit with
  | .posInf => ∃ b, res = .ok (b, .inf) ∧ Pattern fp b false fp.specialExp 0
  | .negInf => ∃ b, res = .ok (b, .inf) ∧ Pattern fp b true fp.specialExp 0
  | .qNaN => ∃ b, res = .ok (b, .quietNaN) ∧ Pattern fp b false fp.specialExp (2 ^ (fp.significant - 2))
  | .flt isNeg digits exp =>
    (literalValue digits exp = 0 → ∃ b, res = .ok (b, .zero) ∧ Pattern fp b isNeg 0 0) ∧
      (0 < literalValue digits exp →
        ∃ v' r, Near fp.delta (errors (wholeNumber digits exp).2) v' (literalValue digits exp) ∧
          NearestAway fp.significant v' r ∧ fp.Outcome isNeg r res ∧
          (fp.Exact digits exp ∨ fp.Clear digits exp → NearestAway fp.significant (literalValue digits exp) r))

theorem literalValue_pos {digits : List ℕ} {exp : ℤ} : 0 < literalValue digits exp ↔ ∃ d ∈ digits, d ≠ 0 := by
  have h10 : (0 : ℚ) < 10 ^ exp := by positivity
  rw [literalValue, mul_pos_iff_of_pos_right h10, fraction_pos]

theorem toBits_correct (lits : List FloatLit) (lit : FloatLit) (hlit : WellFormed lit) :
    fp.Meets lit (fp.toBits (fp.after lits) lit).1 := by
  have hc := fp.after_ok lits
  have hzero : fp.Storable 0 := Nat.zero_le _
  cases lit with
  | posInf => exact ⟨_, rfl, fp.mantissa_zero ▸ fp.pack_pattern false fp.special_lt hzero⟩
  | negInf => exact ⟨_, rfl, fp.mantissa_zero ▸ fp.pack_pattern true fp.special_lt hzero⟩
  | qNaN => exact ⟨_, rfl, fp.mantissa_quiet ▸ fp.pack_pattern false fp.special_lt fp.three_storable⟩
  | flt isNeg digits exp =>
    refine ⟨?_, ?_⟩
    · intro hval
      have hdigits : digits = [0] := by
        refine hlit.resolve_right ?_
        intro hd
        exact (literalValue_pos.mpr hd).ne' hval
      refine ⟨_, by rw [toBits, if_pos hdigits], ?_⟩
      have hpack := fp.pack_pattern isNeg (Nat.two_pow_pos fp.expWidth) hzero
      rwa [fp.mantissa_zero] at hpack
    · intro hval
      have hd := literalValue_pos.mp hval
      have hwhole := whole_pos exp hd
      obtain ⟨-, hpos, hnear⟩ := scaled_near hc hwhole
      have hsig := fp.significant_pos
      have hround := round_nearest (n := fp.significant + 1) hpos (by omega)
      rw [Nat.add_sub_cancel] at hround
      have hne : digits ≠ [0] := by
        rintro rfl
        simp at hd
      refine ⟨_, _, hnear, hround, ?_, fp.nearest_literal hc hd⟩
      rw [toBits, if_neg hne, if_neg hwhole.ne']
      exact fp.finish (round_pos hpos (by omega)) (fp.round_storable hpos) isNeg _

/-- The literal 3.0, after a literal of a large power of ten has filled the caches. -/
theorem toBits_correct_three : ∃ v' r, NearestAway 53 v' r ∧
    IEEEFloat64Params.Outcome false r
      (IEEEFloat64Params.toBits (IEEEFloat64Params.after [.flt false [1] 200]) (.flt false [3] 1)).1 := by
  have hlit : WellFormed (.flt false [3] 1) := .inr ⟨3, by decide, by decide⟩
  have h := (toBits_correct IEEEFloat64Params [.flt false [1] 200] (.flt false [3] 1) hlit).2 (by
    norm_num [literalValue, fraction])
  obtain ⟨v', r, -, hr, hout, -⟩ := h
  exact ⟨v', r, hr, hout⟩

/-- The number with these exponent and mantissa fields in the 64-bit format. -/
def double (E T : ℕ) : ℚ := (2 ^ 52 + T) * 2 ^ ((E : ℤ) - 1023 - 52)

/-- 1e23 is half way between two doubles and goes to the one whose last digit is odd; 0.006035
goes to a double that is not the nearest; 1e-310 and 1e400 get no pattern. -/
theorem toBits_not_ieee :
    ((IEEEFloat64Params.toBits IEEEFloat64Params.caches (.flt false [1] 24)).1 =
        .ok ([0x44, 0xb5, 0x2d, 0x02, 0xc7, 0xe1, 0x4a, 0xf7], .normal) ∧
      literalValue [1] 24 - double 0x44b 0x52d02c7e14af6 = double 0x44b 0x52d02c7e14af7 - literalValue [1] 24) ∧
    ((IEEEFloat64Params.toBits IEEEFloat64Params.caches (.flt false [6, 0, 3, 5] (-2))).1 =
        .ok ([0x3f, 0x78, 0xb8, 0x27, 0xfa, 0x1a, 0x0c, 0xf1], .normal) ∧
      |literalValue [6, 0, 3, 5] (-2) - double 0x3f7 0x8b827fa1a0cf2| <
        |literalValue [6, 0, 3, 5] (-2) - double 0x3f7 0x8b827fa1a0cf1|) ∧
    (IEEEFloat64Params.toBits IEEEFloat64Params.caches (.flt false [1] (-309))).1 =
      .error (.fail "subnormal floats are not yet implemented") ∧
    (IEEEFloat64Params.toBits IEEEFloat64Params.caches (.flt false [1] 401)).1 = .error .overflow := by
  refine ⟨⟨by decide +kernel, ?_⟩, ⟨by decide +kernel, ?_⟩, by decide +kernel, by decide +kernel⟩
  · norm_num [literalValue, fraction, double]
  · norm_num [literalValue, fraction, double]

end FloatParams

end Manticore.Common.FloatToBits
