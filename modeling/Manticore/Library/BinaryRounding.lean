/-
  Manticore.Library.BinaryRounding — rounding of positive numbers to `p` binary digits.

  `Fits p` are the numbers with at most `p` significant digits and any exponent. `halfUp` drops
  the `s` lowest digits of a number and rounds half up, which gives the nearest number that fits,
  the greater one of two (`nearestAway_halfUp`). `Midpoint p` are the points half way between
  neighbours. The number that is nearest to an approximation is nearest to the exact value when
  no midpoint lies between them (`NearestAway.of_no_midpoint`).

  `Near δ n x y` says that `x` comes from `y` by at most `n` relative errors of at most `δ`; the
  errors add up along products and compositions.
-/

import Mathlib

namespace BinaryRounding

/-! ## Relative errors -/

/-- `x` is `y` up to `n` relative errors of at most `δ`. -/
def Near (δ : ℚ) (n : ℕ) (x y : ℚ) : Prop := (1 - δ) ^ n * y ≤ x ∧ x ≤ (1 + δ) ^ n * y

section Near

variable {δ : ℚ} {m n : ℕ} {x y x' y' z : ℚ}

theorem Near.refl (x : ℚ) : Near δ 0 x x := by simp [Near]

theorem Near.mono (hδ : 0 ≤ δ) (hδ' : δ ≤ 1) (hy : 0 ≤ y) (hmn : m ≤ n) (h : Near δ m x y) : Near δ n x y := by
  have hlo : (1 - δ) ^ n ≤ (1 - δ) ^ m := pow_le_pow_of_le_one (by linarith) (by linarith) hmn
  have hhi : (1 + δ) ^ m ≤ (1 + δ) ^ n := pow_le_pow_right₀ (by linarith) hmn
  exact ⟨(mul_le_mul_of_nonneg_right hlo hy).trans h.1, h.2.trans (mul_le_mul_of_nonneg_right hhi hy)⟩

theorem Near.nonneg (hδ' : δ ≤ 1) (hy : 0 ≤ y) (h : Near δ n x y) : 0 ≤ x :=
  (mul_nonneg (pow_nonneg (by linarith) n) hy).trans h.1

theorem Near.trans (hδ : 0 ≤ δ) (hδ' : δ ≤ 1) (h : Near δ m x y) (h' : Near δ n y z) : Near δ (m + n) x z := by
  have hlo : 0 ≤ (1 - δ) ^ m := pow_nonneg (by linarith) m
  have hhi : 0 ≤ (1 + δ) ^ m := pow_nonneg (by linarith) m
  constructor
  · calc (1 - δ) ^ (m + n) * z = (1 - δ) ^ m * ((1 - δ) ^ n * z) := by rw [pow_add]; ring
      _ ≤ (1 - δ) ^ m * y := mul_le_mul_of_nonneg_left h'.1 hlo
      _ ≤ x := h.1
  · calc x ≤ (1 + δ) ^ m * y := h.2
      _ ≤ (1 + δ) ^ m * ((1 + δ) ^ n * z) := mul_le_mul_of_nonneg_left h'.2 hhi
      _ = (1 + δ) ^ (m + n) * z := by rw [pow_add]; ring

theorem Near.mul (hδ' : δ ≤ 1) (hy : 0 ≤ y) (hy' : 0 ≤ y') (h : Near δ m x y) (h' : Near δ n x' y') :
    Near δ (m + n) (x * x') (y * y') := by
  have hlo : 0 ≤ (1 - δ) ^ m := pow_nonneg (by linarith) m
  have hlo' : 0 ≤ (1 - δ) ^ n := pow_nonneg (by linarith) n
  have hx : 0 ≤ x := h.nonneg hδ' hy
  have hx' : 0 ≤ x' := h'.nonneg hδ' hy'
  constructor
  · calc (1 - δ) ^ (m + n) * (y * y') = (1 - δ) ^ m * y * ((1 - δ) ^ n * y') := by rw [pow_add]; ring
      _ ≤ x * x' := mul_le_mul h.1 h'.1 (mul_nonneg hlo' hy') hx
  · calc x * x' ≤ (1 + δ) ^ m * y * ((1 + δ) ^ n * y') := mul_le_mul h.2 h'.2 hx' (hx.trans h.2)
      _ = (1 + δ) ^ (m + n) * (y * y') := by rw [pow_add]; ring

theorem Near.of_abs_le (h : |x - y| ≤ δ * y) : Near δ 1 x y := by
  have habs := abs_le.mp h
  constructor <;> rw [pow_one] <;> linarith

end Near

/-! ## Numbers with `p` digits -/

/-- The numbers `f · 2^e` with `f` of at most `p` binary digits. -/
def Fits (p : ℕ) (x : ℚ) : Prop := ∃ (f : ℕ) (e : ℤ), f < 2 ^ p ∧ x = f * 2 ^ e

/-- The points half way between two neighbours with `p` digits. -/
def Midpoint (p : ℕ) (z : ℚ) : Prop := ∃ (k : ℕ) (e : ℤ), 2 ^ (p - 1) ≤ k ∧ k < 2 ^ p ∧ z = (2 * k + 1) * 2 ^ e

/-- `r` is the number with `p` digits nearest to `x`, the greater of two. -/
structure NearestAway (p : ℕ) (x r : ℚ) : Prop where
  fits : Fits p r
  best : ∀ y, Fits p y → y ≠ r → |x - r| < |x - y| ∨ |x - r| = |x - y| ∧ y < r

theorem two_zpow_pos (e : ℤ) : (0 : ℚ) < 2 ^ e := zpow_pos (by norm_num) e

theorem two_zpow_succ (e : ℤ) : (2 : ℚ) ^ (e + 1) = 2 * 2 ^ e := by
  rw [zpow_add₀ (by norm_num), zpow_one, mul_comm]

theorem two_zpow_add_nat (e : ℤ) (n : ℕ) : (2 : ℚ) ^ (e + n) = 2 ^ n * 2 ^ e := by
  rw [zpow_add₀ (by norm_num), zpow_natCast, mul_comm]

section Fits

variable {p : ℕ} {x y r : ℚ}

theorem Fits.scale (h : Fits p x) (q : ℤ) : Fits p (x * 2 ^ q) := by
  obtain ⟨f, e, hf, rfl⟩ := h
  exact ⟨f, e + q, hf, by rw [zpow_add₀ (by norm_num), mul_assoc]⟩

/-- On a grid a number that fits is a grid point, or below the range in which it needs all its digits. -/
theorem Fits.grid (hp : 1 ≤ p) (h : Fits p y) (q : ℤ) : (∃ n : ℕ, y = n * 2 ^ q) ∨ y < 2 ^ (p - 1) * 2 ^ q := by
  obtain ⟨f, e, hf, rfl⟩ := h
  rcases Int.lt_or_le e q with hlt | hle
  · refine .inr ?_
    have hfq : (f : ℚ) < 2 ^ p := by exact_mod_cast hf
    have hpow : (2 : ℚ) ^ p = 2 * 2 ^ (p - 1) := by
      rw [← pow_succ']
      congr 1
      omega
    have hq : (2 : ℚ) ^ q = 2 * 2 ^ (q - 1) := by rw [← two_zpow_succ]; congr 1; omega
    have he : (2 : ℚ) ^ e ≤ 2 ^ (q - 1) := zpow_le_zpow_right₀ (by norm_num) (by omega)
    calc (f : ℚ) * 2 ^ e ≤ f * 2 ^ (q - 1) := mul_le_mul_of_nonneg_left he (by positivity)
      _ < 2 ^ p * 2 ^ (q - 1) := mul_lt_mul_of_pos_right hfq (two_zpow_pos _)
      _ = 2 ^ (p - 1) * 2 ^ q := by rw [hpow, hq]; ring
  · obtain ⟨n, rfl⟩ : ∃ n : ℕ, e = q + n := ⟨(e - q).toNat, by omega⟩
    refine .inl ⟨f * 2 ^ n, ?_⟩
    rw [two_zpow_add_nat]
    push_cast
    ring

/-- A positive number that fits has all its digits at some exponent. -/
theorem Fits.normal (h : Fits p r) (hr : 0 < r) :
    ∃ (k : ℕ) (e : ℤ), 2 ^ (p - 1) ≤ k ∧ k < 2 ^ p ∧ r = k * 2 ^ e := by
  obtain ⟨f, e, hf, rfl⟩ := h
  have hf0 : f ≠ 0 := by
    rintro rfl
    simp at hr
  have hlog : Nat.log 2 f < p := Nat.log_lt_of_lt_pow hf0 hf
  have hlo : 2 ^ Nat.log 2 f ≤ f := Nat.pow_log_le_self 2 hf0
  have hhi : f < 2 ^ (Nat.log 2 f + 1) := Nat.lt_pow_succ_log_self (by norm_num) f
  have hsplit : 2 ^ (p - 1) = 2 ^ Nat.log 2 f * 2 ^ (p - 1 - Nat.log 2 f) := by
    rw [← pow_add]
    congr 1
    omega
  have hsplit' : 2 ^ p = 2 ^ (Nat.log 2 f + 1) * 2 ^ (p - 1 - Nat.log 2 f) := by
    rw [← pow_add]
    congr 1
    omega
  refine ⟨f * 2 ^ (p - 1 - Nat.log 2 f), e - (p - 1 - Nat.log 2 f : ℕ), ?_, ?_, ?_⟩
  · rw [hsplit]
    exact Nat.mul_le_mul_right _ hlo
  · rw [hsplit']
    exact Nat.mul_lt_mul_of_pos_right hhi (by positivity)
  · have he : e = e - (p - 1 - Nat.log 2 f : ℕ) + (p - 1 - Nat.log 2 f : ℕ) := by omega
    conv_lhs => rw [he, two_zpow_add_nat]
    push_cast
    ring

/-- The next greater number, and the midpoint before it. -/
theorem Fits.exists_succ (hp : 1 ≤ p) (h : Fits p r) (hr : 0 < r) :
    ∃ s, Fits p s ∧ r < s ∧ (∀ y, Fits p y → r < y → s ≤ y) ∧ Midpoint p ((r + s) / 2) := by
  obtain ⟨k, e, hlo, hhi, rfl⟩ := h.normal hr
  have hpos := two_zpow_pos e
  refine ⟨(k + 1) * 2 ^ e, ?_, by linarith, ?_, k, e - 1, hlo, hhi, ?_⟩
  · rcases Nat.lt_or_ge (k + 1) (2 ^ p) with hlt | hge
    · exact ⟨k + 1, e, hlt, by push_cast; ring⟩
    · have hk : (k : ℚ) + 1 = 2 ^ p := by exact_mod_cast (show k + 1 = 2 ^ p by omega)
      exact ⟨1, e + p, Nat.one_lt_two_pow (by omega), by rw [hk, two_zpow_add_nat]; push_cast; ring⟩
  · intro y hy hlt
    rcases hy.grid hp e with ⟨n, rfl⟩ | hsmall
    · have hkn : (k : ℚ) < n := lt_of_mul_lt_mul_right hlt hpos.le
      have hkn' : (k : ℚ) + 1 ≤ n := by exact_mod_cast hkn
      exact mul_le_mul_of_nonneg_right hkn' hpos.le
    · have hlo' : (2 : ℚ) ^ (p - 1) ≤ k := by exact_mod_cast hlo
      have hle := mul_le_mul_of_nonneg_right hlo' hpos.le
      linarith
  · have he : (2 : ℚ) ^ e = 2 * 2 ^ (e - 1) := by rw [← two_zpow_succ]; congr 1; omega
    rw [he]
    ring

/-- The next smaller number, and the midpoint after it. -/
theorem Fits.exists_pred (hp : 1 ≤ p) (h : Fits p r) (hr : 0 < r) :
    ∃ s, Fits p s ∧ s < r ∧ (∀ y, Fits p y → y < r → y ≤ s) ∧ Midpoint p ((r + s) / 2) := by
  -- with the digits of `r` at twice their number when they are the least ones
  have key : ∀ (k : ℕ) (e : ℤ), 2 ^ (p - 1) < k → k ≤ 2 ^ p → r = k * 2 ^ e →
      ∃ s, Fits p s ∧ s < r ∧ (∀ y, Fits p y → y < r → y ≤ s) ∧ Midpoint p ((r + s) / 2) := by
    intro k e hlo hhi hrk
    subst hrk
    have hpos := two_zpow_pos e
    obtain ⟨j, rfl⟩ : ∃ j, k = j + 1 := Nat.exists_eq_succ_of_ne_zero (Nat.ne_of_gt (Nat.zero_lt_of_lt hlo))
    push_cast
    refine ⟨j * 2 ^ e, ⟨j, e, by omega, rfl⟩, by linarith, ?_, j, e - 1, by omega, by omega, ?_⟩
    · intro y hy hlt
      have hjlo : (2 : ℚ) ^ (p - 1) ≤ j := by exact_mod_cast (show 2 ^ (p - 1) ≤ j by omega)
      rcases hy.grid hp e with ⟨n, rfl⟩ | hsmall
      · have hn : (n : ℚ) < j + 1 := lt_of_mul_lt_mul_right hlt hpos.le
        have hnj : n < j + 1 := by exact_mod_cast hn
        have hn' : (n : ℚ) ≤ j := by exact_mod_cast Nat.lt_succ_iff.mp hnj
        exact mul_le_mul_of_nonneg_right hn' hpos.le
      · have hle := mul_le_mul_of_nonneg_right hjlo hpos.le
        linarith
    · have he : (2 : ℚ) ^ e = 2 * 2 ^ (e - 1) := by rw [← two_zpow_succ]; congr 1; omega
      rw [he]
      ring
  obtain ⟨k, e, hlo, hhi, hrk⟩ := h.normal hr
  have hpow : 2 ^ p = 2 * 2 ^ (p - 1) := by rw [← pow_succ']; congr 1; omega
  rcases Nat.lt_or_ge (2 ^ (p - 1)) k with hlt | hge
  · exact key k e hlt hhi.le hrk
  · have hk : k = 2 ^ (p - 1) := by omega
    have he : (2 : ℚ) ^ e = 2 * 2 ^ (e - 1) := by rw [← two_zpow_succ]; congr 1; omega
    refine key (2 ^ p) (e - 1) (by rw [hpow]; have := Nat.two_pow_pos (p - 1); omega) le_rfl ?_
    rw [hrk, he, hpow, hk]
    push_cast
    ring

end Fits

/-! ## The nearest number -/

section Nearest

variable {p : ℕ} {x x' r : ℚ}

theorem NearestAway.self (h : Fits p x) : NearestAway p x x where
  fits := h
  best := by
    grind

theorem NearestAway.le (h : NearestAway p x r) {y : ℚ} (hy : Fits p y) : |x - r| ≤ |x - y| := by
  by_cases hne : y = r
  · rw [hne]
  · exact (h.best y hy hne).elim le_of_lt (fun h => le_of_eq h.1)

theorem NearestAway.scale (h : NearestAway p x r) (q : ℤ) : NearestAway p (x * 2 ^ q) (r * 2 ^ q) where
  fits := h.fits.scale q
  best := by
    intro y hy hne
    have hpos := two_zpow_pos q
    have hcancel : y * 2 ^ (-q) * 2 ^ q = y := by
      rw [mul_assoc, ← zpow_add₀ (by norm_num)]
      simp
    have habs : ∀ a b : ℚ, |a * 2 ^ q - b * 2 ^ q| = |a - b| * 2 ^ q := by
      intro a b
      rw [← sub_mul, abs_mul, abs_of_pos hpos]
    have hne' : y * 2 ^ (-q) ≠ r := by
      rintro rfl
      exact hne hcancel.symm
    rw [← hcancel, habs, habs]
    rcases h.best _ (hy.scale (-q)) hne' with hlt | ⟨heq, hlt⟩
    · exact .inl (mul_lt_mul_of_pos_right hlt hpos)
    · exact .inr ⟨by rw [heq], mul_lt_mul_of_pos_right hlt hpos⟩

/-- What is nearest to an approximation of `x` is nearest to `x`, if no midpoint lies between. -/
theorem NearestAway.of_no_midpoint (hp : 1 ≤ p) (hr : 0 < r) (h : NearestAway p x' r)
    (hmid : ∀ z, Midpoint p z → ¬ (min x x' ≤ z ∧ z ≤ max x x')) : NearestAway p x r where
  fits := h.fits
  best := by
    intro y hy hne
    refine .inl (lt_of_not_ge ?_)
    intro hge
    rcases lt_or_gt_of_ne hne with hlt | hgt
    · obtain ⟨s, hs, hsr, hmax, hm⟩ := h.fits.exists_pred hp hr
      have hys := hmax y hy hlt
      have hle := sq_le_sq.mpr (h.le hs)
      have hle' := sq_le_sq.mpr hge
      refine hmid _ hm ⟨min_le_of_left_le ?_, le_max_of_le_right ?_⟩
      · nlinarith
      · nlinarith
    · obtain ⟨s, hs, hsr, hmin, hm⟩ := h.fits.exists_succ hp hr
      have hys := hmin y hy hgt
      have hle := sq_le_sq.mpr (h.le hs)
      have hle' := sq_le_sq.mpr hge
      refine hmid _ hm ⟨min_le_of_right_le ?_, le_max_of_le_left ?_⟩
      · nlinarith
      · nlinarith

end Nearest

/-! ## Rounding half up -/

/-- `x` without its `s` lowest digits, rounded half up. -/
def halfUp (x s : ℕ) : ℕ := (x + 2 ^ (s - 1)) / 2 ^ s

section HalfUp

variable {x s p : ℕ}

theorem halfUp_bounds (x : ℕ) (hs : 1 ≤ s) :
    2 * (halfUp x s * 2 ^ s) ≤ 2 * x + 2 ^ s ∧ 2 * x < 2 * (halfUp x s * 2 ^ s) + 2 ^ s := by
  have hpow : 2 ^ s = 2 * 2 ^ (s - 1) := by rw [← pow_succ']; congr 1; omega
  have hdiv := Nat.div_add_mod (x + 2 ^ (s - 1)) (2 ^ s)
  have hmod := Nat.mod_lt (x + 2 ^ (s - 1)) (Nat.two_pow_pos s)
  unfold halfUp
  rw [Nat.mul_comm _ (2 ^ s)]
  omega

theorem le_halfUp {n : ℕ} (h : n * 2 ^ s ≤ x) : n ≤ halfUp x s := by
  unfold halfUp
  rw [Nat.le_div_iff_mul_le (Nat.two_pow_pos s)]
  exact h.trans (Nat.le_add_right x _)

theorem halfUp_le {n : ℕ} (hs : 1 ≤ s) (h : x < n * 2 ^ s) : halfUp x s ≤ n := by
  have hb := halfUp_bounds x hs
  by_contra hlt
  have hmul : (n + 1) * 2 ^ s ≤ halfUp x s * 2 ^ s := Nat.mul_le_mul_right _ (by omega)
  rw [Nat.add_mul, Nat.one_mul] at hmul
  omega

theorem halfUp_near (hs : 1 ≤ s) {m : ℕ} (hx : 2 ^ (m + s) ≤ 2 * x) :
    Near (1 / 2 ^ m) 1 (halfUp x s * 2 ^ s) x := by
  refine Near.of_abs_le (abs_le.mpr ?_)
  obtain ⟨hlo, hhi⟩ := halfUp_bounds x hs
  have hlo' : (2 : ℚ) * (halfUp x s * 2 ^ s) ≤ 2 * x + 2 ^ s := by exact_mod_cast hlo
  have hhi' : (2 : ℚ) * x < 2 * (halfUp x s * 2 ^ s) + 2 ^ s := by exact_mod_cast hhi
  have hx' : (2 : ℚ) ^ (m + s) ≤ 2 * x := by exact_mod_cast hx
  have herr : (2 : ℚ) ^ s ≤ 2 * (1 / 2 ^ m * x) := by
    rw [pow_add] at hx'
    have hm : (0 : ℚ) < 2 ^ m := by positivity
    rw [one_div_mul_eq_div, mul_div_assoc', le_div_iff₀ hm, mul_comm]
    exact hx'
  constructor <;> linarith

/-- Rounding half up to `p` digits gives the nearest number with `p` digits. -/
theorem nearestAway_halfUp (hp : 1 ≤ p) (hs : 1 ≤ s) (hlo : 2 ^ (p - 1) * 2 ^ s ≤ x) (hhi : x < 2 ^ p * 2 ^ s) :
    NearestAway p x (halfUp x s * 2 ^ s) := by
  obtain ⟨hb, hb'⟩ := halfUp_bounds x hs
  have hk := le_halfUp hlo
  have hk' := halfUp_le hs hhi
  generalize halfUp x s = k at *
  have hb₁ : (2 : ℚ) * (k * 2 ^ s) ≤ 2 * x + 2 ^ s := by exact_mod_cast hb
  have hb₂ : (2 : ℚ) * x < 2 * (k * 2 ^ s) + 2 ^ s := by exact_mod_cast hb'
  have hD : (0 : ℚ) < 2 ^ s := by positivity
  have grid : ∀ n : ℕ, n ≠ k →
      |(x : ℚ) - k * 2 ^ s| < |(x : ℚ) - n * 2 ^ s| ∨
        |(x : ℚ) - k * 2 ^ s| = |(x : ℚ) - n * 2 ^ s| ∧ (n : ℚ) * 2 ^ s < k * 2 ^ s := by
    intro n hne
    rcases Nat.lt_or_gt_of_ne hne with hlt | hgt
    · have hn : ((n : ℚ) + 1) * 2 ^ s ≤ k * 2 ^ s := mul_le_mul_of_nonneg_right (by exact_mod_cast hlt) hD.le
      have habs : |(x : ℚ) - n * 2 ^ s| = x - n * 2 ^ s := abs_of_nonneg (by linarith)
      have hle : |(x : ℚ) - k * 2 ^ s| ≤ x - n * 2 ^ s := abs_le.mpr ⟨by linarith, by linarith⟩
      rw [habs]
      grind
    · have hn : ((k : ℚ) + 1) * 2 ^ s ≤ n * 2 ^ s := mul_le_mul_of_nonneg_right (by exact_mod_cast hgt) hD.le
      grind
  refine ⟨?_, ?_⟩
  · rcases hk'.lt_or_eq with hlt | heq
    · exact ⟨k, s, hlt, by rw [zpow_natCast]⟩
    · refine ⟨1, p + s, Nat.one_lt_two_pow (by omega), ?_⟩
      rw [heq, zpow_add₀ (by norm_num), zpow_natCast, zpow_natCast]
      push_cast
      ring
  · intro y hy hne
    rcases hy.grid hp s with ⟨n, rfl⟩ | hsmall
    · rw [zpow_natCast] at hne ⊢
      exact grid n (by rintro rfl; exact hne rfl)
    · -- below the least number with `p` digits of this binade, which is a grid point
      rw [zpow_natCast] at hsmall
      have hlo' : (2 : ℚ) ^ (p - 1) * 2 ^ s ≤ x := by exact_mod_cast hlo
      have habs : |(x : ℚ) - y| = x - y := abs_of_nonneg (by linarith)
      have hle : |(x : ℚ) - k * 2 ^ s| ≤ x - 2 ^ (p - 1) * 2 ^ s := by
        by_cases hkp : 2 ^ (p - 1) = k
        · rw [← hkp]
          push_cast
          rw [abs_of_nonneg (by linarith)]
        · have h := grid (2 ^ (p - 1)) hkp
          grind
      refine .inl ?_
      rw [habs]
      linarith

end HalfUp

end BinaryRounding
