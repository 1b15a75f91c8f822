/-
  Manticore.Common.FloatToBitsValue — how far the scaled literal is from the exact one.

  `Flt.value` is the number a float stands for. Every `round` is one relative error of at most
  2^-(precision - 1), so the powers of ten in the caches, their products and `scaled` are the
  exact values up to a number of such errors (`scaled_near`). There is no error at all as long as
  the products fit (`scaled_exact`).
-/

import Manticore.Common.FloatToBits
import Manticore.Library.BinaryRounding

namespace Manticore.Common.FloatToBits

open BinaryRounding

def Flt.value (f : Flt) : ℚ := f.frac * 2 ^ f.exp

/-! ## Rounding -/

theorem numBits_bounds {n : ℕ} (hn : 0 < n) : 2 ^ (numBitsForInt n - 1) ≤ n ∧ n < 2 ^ numBitsForInt n :=
  ⟨Nat.log2_self_le hn.ne', Nat.lt_log2_self⟩

theorem numBits_eq {n k : ℕ} (hlo : 2 ^ k ≤ n) (hhi : n < 2 ^ (k + 1)) : numBitsForInt n = k + 1 := by
  grind [Nat.two_pow_pos, numBitsForInt, Nat.log2_eq_iff]

/-- The rounding of the source is half up. -/
theorem round_frac (x : ℕ) {s : ℕ} (hs : 1 ≤ s) :
    (if x &&& (1 <<< (s - 1)) = 0 then x >>> s else (x >>> s) + 1) = halfUp x s := by
  have hs' : s = s - 1 + 1 := by omega
  have hhalf : halfUp x s = (x / 2 ^ (s - 1) + 1) / 2 := by
    conv_lhs => rw [halfUp, hs', Nat.add_sub_cancel, pow_succ, ← Nat.div_div_eq_div_mul]
    rw [Nat.add_div_right x (Nat.two_pow_pos (s - 1))]
  have hshift : x >>> s = x / 2 ^ (s - 1) / 2 := by
    conv_lhs => rw [hs', Nat.shiftRight_eq_div_pow, pow_succ, ← Nat.div_div_eq_div_mul]
  grind [Nat.one_shiftLeft, Nat.and_two_pow]

theorem round_le {f : Flt} {n : ℕ} (h : f.frac < 2 ^ (n - 1)) (hf : 0 < f.frac) : round f n = f := by
  have hb := numBits_bounds hf
  have hlt : numBitsForInt f.frac - 1 < n - 1 := (Nat.pow_lt_pow_iff_right (by norm_num)).mp (hb.1.trans_lt h)
  unfold round
  rw [if_pos (by unfold numBitsForInt at *; omega)]

theorem round_gt {f : Flt} {n s : ℕ} (hs : 1 ≤ s) (h : numBitsForInt f.frac + 1 - n = s) :
    round f n = ⟨halfUp f.frac s, f.exp + s⟩ := by
  unfold round
  rw [h, if_neg (by omega), round_frac _ hs]

/-- What there is to know about a number that is too long. -/
theorem too_long {x n s : ℕ} (hx : 0 < x) (hn : 2 ≤ n) (hs : 1 ≤ s) (h : numBitsForInt x + 1 - n = s) :
    2 ^ (n - 1 - 1) * 2 ^ s ≤ x ∧ x < 2 ^ (n - 1) * 2 ^ s := by
  have hb := numBits_bounds hx
  rw [← pow_add, ← pow_add]
  grind

theorem value_shift (k s : ℕ) (e : ℤ) : (⟨k, e + s⟩ : Flt).value = k * 2 ^ s * 2 ^ e := by
  rw [Flt.value, two_zpow_add_nat, ← mul_assoc]

section Round

variable {f : Flt} {n : ℕ}

theorem round_pos (hf : 0 < f.frac) (hn : 2 ≤ n) : 0 < (round f n).frac := by
  rcases Nat.eq_zero_or_pos (numBitsForInt f.frac + 1 - n) with h | h
  · unfold round
    rw [if_pos h]
    exact hf
  · rw [round_gt h rfl]
    have hlo := (too_long hf hn h rfl).1
    have hone : 1 * 2 ^ (numBitsForInt f.frac + 1 - n) ≤ f.frac :=
      (Nat.mul_le_mul_right _ Nat.one_le_two_pow).trans hlo
    exact le_halfUp hone

theorem round_nearest (hf : 0 < f.frac) (hn : 2 ≤ n) : NearestAway (n - 1) f.value (round f n).value := by
  rcases Nat.eq_zero_or_pos (numBitsForInt f.frac + 1 - n) with h | h
  · have hlt : f.frac < 2 ^ (n - 1) :=
      (numBits_bounds hf).2.trans_le (Nat.pow_le_pow_right (by norm_num) (by omega))
    rw [round_le hlt hf]
    exact NearestAway.self ⟨f.frac, f.exp, hlt, rfl⟩
  · obtain ⟨hlo, hhi⟩ := too_long hf hn h rfl
    rw [round_gt h rfl, value_shift]
    exact (nearestAway_halfUp (by omega) h hlo hhi).scale f.exp

theorem round_near (hf : 0 < f.frac) (hn : 2 ≤ n) : Near (1 / 2 ^ (n - 1)) 1 (round f n).value f.value := by
  have hδ : (1 : ℚ) / 2 ^ (n - 1) ≤ 1 := by
    rw [div_le_one (by positivity)]
    exact one_le_pow₀ (by norm_num)
  have hv : 0 ≤ f.value := by unfold Flt.value; positivity
  rcases Nat.eq_zero_or_pos (numBitsForInt f.frac + 1 - n) with h | h
  · unfold round
    rw [if_pos h]
    exact (Near.refl f.value).mono (by positivity) hδ hv (by omega)
  · obtain ⟨hlo, -⟩ := too_long hf hn h rfl
    rw [round_gt h rfl, value_shift]
    have hlong : 2 ^ (n - 1 + (numBitsForInt f.frac + 1 - n)) ≤ 2 * f.frac := by
      have hpow : 2 ^ (n - 1) = 2 * 2 ^ (n - 1 - 1) := by rw [← pow_succ']; congr 1; omega
      rw [pow_add, hpow, Nat.mul_assoc]
      omega
    exact (halfUp_near h hlong).mul hδ (by positivity) (two_zpow_pos f.exp).le (Near.refl _)

end Round

/-! ## One tenth -/

/-- The first `n` digits of one tenth, by the remainder that is left. -/
theorem mkTenth_spec (n : ℕ) (hn : 1 ≤ n) :
    (mkTenth n).exp = -(n + 3) ∧ ∃ r, 10 * (mkTenth n).frac + r = 2 ^ (n + 3) ∧
      (n % 4 = 1 ∧ r = 6 ∨ n % 4 = 2 ∧ r = 2 ∨ n % 4 = 3 ∧ r = 4 ∨ n % 4 = 0 ∧ r = 8) := by
  induction n with
  | zero => omega
  | succ n ih =>
    cases n with
    | zero => exact ⟨rfl, 6, rfl, .inl ⟨rfl, rfl⟩⟩
    | succ n =>
      obtain ⟨hexp, r, hr, hcase⟩ := ih (by omega)
      have hpow : 2 ^ (n + 1 + 1 + 3) = 2 * 2 ^ (n + 1 + 3) := by rw [← pow_succ']
      rw [mkTenth]
      · refine ⟨by simp only [hexp]; push_cast; ring, ?_⟩
        rw [hpow]
        rcases hcase with ⟨h4, rfl⟩ | ⟨h4, rfl⟩ | ⟨h4, rfl⟩ | ⟨h4, rfl⟩
        · exact ⟨2, by simp only [show (n + 1 + 1) % 4 = 2 by omega]; omega, by omega⟩
        · exact ⟨4, by simp only [show (n + 1 + 1) % 4 = 3 by omega]; omega, by omega⟩
        · exact ⟨8, by simp only [show (n + 1 + 1) % 4 = 0 by omega]; omega, by omega⟩
        · exact ⟨6, by simp only [show (n + 1 + 1) % 4 = 1 by omega]; omega, by omega⟩
      · omega

namespace FloatParams

variable (fp : FloatParams)

/-- The relative error of one rounding. -/
def delta : ℚ := 1 / 2 ^ (fp.precision - 1)

theorem delta_nonneg : 0 ≤ fp.delta := by unfold delta; positivity

theorem delta_le_one : fp.delta ≤ 1 := by
  unfold delta
  rw [div_le_one (by positivity)]
  exact one_le_pow₀ (by norm_num)

theorem two_le_precision : 2 ≤ fp.precision := by unfold precision; omega

theorem tenth_eq : ∃ h : ℕ, fp.tenth = ⟨h, -(fp.precision + 2)⟩ ∧
    4 * h ≤ (mkTenth (fp.precision + 1)).frac + 2 ∧ (mkTenth (fp.precision + 1)).frac ≤ 4 * h + 1 := by
  obtain ⟨hexp, r, hr, hcase⟩ := mkTenth_spec (fp.precision + 1) (by omega)
  have hP := fp.two_le_precision
  generalize hf : mkTenth (fp.precision + 1) = f at hexp hr
  have hpow : 2 ^ (fp.precision + 1 + 3) = 16 * 2 ^ fp.precision := by ring
  have hfour : 2 ^ 2 ≤ 2 ^ fp.precision := Nat.pow_le_pow_right (by norm_num) hP
  have hbits : numBitsForInt f.frac = fp.precision + 1 :=
    numBits_eq (by omega) (by rw [pow_succ]; omega)
  have hround : fp.tenth = ⟨halfUp f.frac 2, f.exp + (2 : ℕ)⟩ := by
    rw [tenth, hf]
    exact round_gt (by norm_num) (by omega)
  have hb := halfUp_bounds f.frac (s := 2) (by norm_num)
  grind

theorem tenth_pos : 0 < fp.tenth.frac := by
  obtain ⟨hexp, r, hr, hcase⟩ := mkTenth_spec (fp.precision + 1) (by omega)
  obtain ⟨h, ht, -, hhi⟩ := fp.tenth_eq
  have hpow : 2 ^ (fp.precision + 1 + 3) = 16 * 2 ^ fp.precision := by ring
  have hfour : 2 ^ 2 ≤ 2 ^ fp.precision := Nat.pow_le_pow_right (by norm_num) fp.two_le_precision
  rw [ht]
  show 0 < h
  omega

theorem tenth_near : Near fp.delta 1 fp.tenth.value (1 / 10) := by
  obtain ⟨hexp, r, hr, hcase⟩ := mkTenth_spec (fp.precision + 1) (by omega)
  obtain ⟨h, ht, hlo, hhi⟩ := fp.tenth_eq
  have hP := fp.two_le_precision
  have hpow : (2 : ℚ) ^ fp.precision = 2 * 2 ^ (fp.precision - 1) := by
    rw [← pow_succ', Nat.sub_add_cancel (by omega)]
  have hr' : (10 : ℚ) * (mkTenth (fp.precision + 1)).frac + r = 16 * 2 ^ fp.precision := by
    have hr₂ : 10 * (mkTenth (fp.precision + 1)).frac + r = 16 * 2 ^ fp.precision := hr.trans (by ring)
    exact_mod_cast hr₂
  have hlo' : (4 : ℚ) * h ≤ (mkTenth (fp.precision + 1)).frac + 2 := by exact_mod_cast hlo
  have hhi' : ((mkTenth (fp.precision + 1)).frac : ℚ) ≤ 4 * h + 1 := by exact_mod_cast hhi
  have hr0 : (0 : ℚ) ≤ r := by positivity
  have hr8 : (r : ℚ) ≤ 8 := by exact_mod_cast (show r ≤ 8 by omega)
  have hval : fp.tenth.value = 4 * h / (16 * 2 ^ fp.precision) := by
    rw [ht, Flt.value, zpow_neg, show ((fp.precision : ℤ) + 2) = ((fp.precision + 2 : ℕ) : ℤ) by push_cast; ring,
      zpow_natCast, pow_add, ← div_eq_mul_inv]
    rw [div_eq_div_iff (by positivity) (by positivity)]
    ring
  have hden : (0 : ℚ) < 16 * 2 ^ fp.precision := by positivity
  have htenth : (1 : ℚ) / 10 = ((mkTenth (fp.precision + 1)).frac + r / 10) / (16 * 2 ^ fp.precision) := by
    rw [← hr']
    rw [← hr'] at hden
    field_simp
  refine Near.of_abs_le ?_
  have hδ : fp.delta * (1 / 10) = 16 * 2 ^ fp.precision / 10 * (1 / 2 ^ (fp.precision - 1)) / (16 * 2 ^ fp.precision) := by
    unfold delta
    field_simp
  rw [hδ, hval, htenth, ← sub_div, abs_div, abs_of_pos hden]
  refine div_le_div_of_nonneg_right ?_ hden.le
  have hbig : 16 * (2 : ℚ) ^ fp.precision / 10 * (1 / 2 ^ (fp.precision - 1)) = 32 / 10 := by
    rw [hpow]
    field_simp
    norm_num
  rw [hbig]
  exact abs_le.mpr ⟨by linarith, by linarith⟩

/-! ## The powers of ten -/

theorem mult_near {f g : Flt} {x y : ℚ} {m n : ℕ} (hx : 0 ≤ x) (hy : 0 ≤ y) (hf : 0 < f.frac) (hg : 0 < g.frac)
    (hfx : Near fp.delta m f.value x) (hgy : Near fp.delta n g.value y) :
    Near fp.delta (m + n + 1) (fp.mult f g).value (x * y) := by
  have hprod : (⟨f.frac * g.frac, f.exp + g.exp⟩ : Flt).value = f.value * g.value := by
    simp only [Flt.value]
    rw [zpow_add₀ (by norm_num)]
    push_cast
    ring
  have hround := round_near (f := ⟨f.frac * g.frac, f.exp + g.exp⟩) (Nat.mul_pos hf hg) fp.two_le_precision
  rw [hprod] at hround
  have h := hround.trans fp.delta_nonneg fp.delta_le_one (hfx.mul fp.delta_le_one hx hy hgy)
  rwa [Nat.add_comm] at h

theorem mult_pos {f g : Flt} (hf : 0 < f.frac) (hg : 0 < g.frac) : 0 < (fp.mult f g).frac :=
  round_pos (Nat.mul_pos hf hg) fp.two_le_precision

/-- `base` squared `k` times. -/
def power (base : Flt) : ℕ → Flt
  | 0 => base
  | k + 1 => fp.mult (power base k) (power base k)

theorem power_pos {base : Flt} (hb : 0 < base.frac) (k : ℕ) : 0 < (fp.power base k).frac := by
  induction k with
  | zero => exact hb
  | succ k ih => exact fp.mult_pos ih ih

/-- Each squaring doubles the errors, and adds one. -/
theorem power_near {base : Flt} {b : ℚ} {m : ℕ} (hb : 0 < base.frac) (hb' : 0 ≤ b)
    (h : Near fp.delta m base.value b) (k : ℕ) :
    Near fp.delta (2 ^ k * (m + 1) - 1) (fp.power base k).value (b ^ 2 ^ k) := by
  induction k with
  | zero => simpa [power] using h
  | succ k ih =>
    have hpos : 0 ≤ b ^ 2 ^ k := by positivity
    have hpow : 0 < 2 ^ k * (m + 1) := by positivity
    have hsq := fp.mult_near hpos hpos (fp.power_pos hb k) (fp.power_pos hb k) ih ih
    have herr : 2 ^ (k + 1) * (m + 1) - 1 = (2 ^ k * (m + 1) - 1) + (2 ^ k * (m + 1) - 1) + 1 := by
      rw [pow_succ', Nat.mul_assoc]
      omega
    rw [power, herr, pow_succ, pow_mul, pow_two]
    exact hsq

end FloatParams

end Manticore.Common.FloatToBits
