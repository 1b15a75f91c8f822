/-
  Manticore.Common.FloatToBitsScale — the powers of ten from the caches, and the scaled literal.

  While `access` fills place `n` of a cache, that place holds lower powers; when it returns,
  every filled place holds its own power again (`Cache.access_ok`), so a call of `toBits` finds
  the same powers whatever calls came before it.
-/

import Manticore.Common.FloatToBitsValue

namespace Manticore.Common.FloatToBits

open BinaryRounding

variable (fp : FloatParams)

/-! ## The caches -/

namespace Cache

/-- Every filled place but one holds the power of its index. -/
structure OkBut (base : Flt) (n : ℕ) (c : Cache) : Prop where
  f0 : c.f0 = base
  rest : ∀ i flt, i ≠ n → c.rest.getD i none = some flt → flt = fp.power base (i + 1)

structure Ok (base : Flt) (c : Cache) : Prop where
  f0 : c.f0 = base
  rest : ∀ i flt, c.rest.getD i none = some flt → flt = fp.power base (i + 1)

theorem getD_none (k i : ℕ) : (List.replicate k (none : Option Flt)).getD i none = none := by
  rw [List.getD_eq_getElem?_getD, List.getElem?_replicate]
  split <;> rfl

theorem new_ok (base : Flt) : (new base).Ok fp base where
  f0 := rfl
  rest := by
    intro i flt h
    simp only [new, getD_none] at h
    cases h

variable {fp} {base : Flt} {c : Cache} {n : ℕ}

theorem Ok.but (h : c.Ok fp base) (n : ℕ) : c.OkBut fp base n := ⟨h.f0, fun i flt _ => h.rest i flt⟩

theorem Ok.grow (h : c.Ok fp base) (sz : ℕ) : (c.grow sz).Ok fp base where
  f0 := h.f0
  rest := by
    intro i flt hi
    rw [Cache.grow] at hi
    rcases Nat.lt_or_ge i c.rest.length with hlt | hge
    · rw [List.getD_append _ _ _ _ hlt] at hi
      exact h.rest i flt hi
    · rw [List.getD_append_right _ _ _ _ hge, getD_none] at hi
      cases hi

theorem update_ne {i : ℕ} {flt : Flt} (hi : i ≠ n) :
    (c.update (n + 1) flt).rest.getD i none = c.rest.getD i none := by
  simp [update, List.getD_eq_getElem?_getD, Ne.symm hi]

theorem update_self {flt flt' : Flt} (h : (c.update (n + 1) flt).rest.getD n none = some flt') : flt' = flt := by
  grind [update]

theorem OkBut.update (h : c.OkBut fp base n) (flt : Flt) : (c.update (n + 1) flt).OkBut fp base n where
  f0 := h.f0
  rest := by
    intro i flt' hi hflt
    rw [update_ne hi] at hflt
    exact h.rest i flt' hi hflt

theorem get_lt (h : c.OkBut fp base n) {i : ℕ} (hi : i ≤ n) :
    (c.get fp (n + 1) i).1 = fp.power base i ∧ (c.get fp (n + 1) i).2.OkBut fp base n := by
  induction i with
  | zero => exact ⟨h.f0, h⟩
  | succ i ih =>
    obtain ⟨hprev, hok⟩ := ih (by omega)
    rw [get]
    cases hrest : c.rest.getD i none with
    | some flt => exact ⟨h.rest i flt (by omega) hrest, h⟩
    | none => exact ⟨by simp only [hprev]; rfl, hok.update _⟩

theorem get_ok (h : c.Ok fp base) : (c.get fp n n).1 = fp.power base n ∧ (c.get fp n n).2.Ok fp base := by
  cases n with
  | zero => exact ⟨h.f0, h⟩
  | succ n =>
    obtain ⟨hprev, hok⟩ := get_lt (h.but n) (Nat.le_refl n)
    rw [get]
    cases hrest : c.rest.getD n none with
    | some flt => exact ⟨h.rest n flt hrest, h⟩
    | none =>
      refine ⟨by simp only [hprev]; rfl, hok.f0, ?_⟩
      intro i flt hflt
      by_cases hi : i = n
      · subst hi
        rw [update_self hflt, hprev]
        rfl
      · rw [update_ne hi] at hflt
        exact hok.rest i flt hi hflt

theorem access_ok (h : c.Ok fp base) (n : ℕ) :
    (c.access fp n).1 = fp.power base n ∧ (c.access fp n).2.Ok fp base := by
  unfold access
  split
  · exact get_ok h
  · exact get_ok (h.grow n)

end Cache

structure Caches.Ok (c : Caches) : Prop where
  pos10 : c.pos10.Ok fp ten
  neg10 : c.neg10.Ok fp fp.tenth

namespace FloatParams

theorem caches_ok : fp.caches.Ok fp := ⟨Cache.new_ok fp ten, Cache.new_ok fp fp.tenth⟩

variable {fp} {c : Caches}

theorem pow10_2_pos (h : c.Ok fp) (p : ℕ) :
    (fp.pow10_2 c (1 * (p + 1 : ℕ))).1 = fp.power ten p ∧ (fp.pow10_2 c (1 * (p + 1 : ℕ))).2.Ok fp := by
  have hacc := Cache.access_ok h.pos10 p
  rw [pow10_2, if_neg (by omega), if_pos (by omega), show ((1 * (p + 1 : ℕ) : ℤ) - 1).toNat = p by omega]
  exact ⟨hacc.1, hacc.2, h.neg10⟩

theorem pow10_2_neg (h : c.Ok fp) (p : ℕ) :
    (fp.pow10_2 c (-1 * (p + 1 : ℕ))).1 = fp.power fp.tenth p ∧ (fp.pow10_2 c (-1 * (p + 1 : ℕ))).2.Ok fp := by
  have hacc := Cache.access_ok h.neg10 p
  rw [pow10_2, if_neg (by omega), if_neg (by omega), show (-(-1 * (p + 1 : ℕ) : ℤ) - 1).toNat = p by omega]
  exact ⟨hacc.1, h.pos10, hacc.2⟩

/-! ## Raising to a power -/

/-- What `raisep` relies on: the powers it asks for are those of `base`, whatever is cached. -/
def Powers (fp : FloatParams) (sign : ℤ) (base : Flt) : Prop :=
  ∀ c, c.Ok fp → ∀ p : ℕ, (fp.pow10_2 c (sign * (p + 1 : ℕ))).1 = fp.power base p ∧
    (fp.pow10_2 c (sign * (p + 1 : ℕ))).2.Ok fp

theorem odd_eq {e : ℕ} (h : e &&& 1 = 1) : e = 2 * (e >>> 1) + 1 := by
  rw [Nat.and_one_is_mod] at h
  rw [Nat.shiftRight_one]
  omega

theorem even_eq {e : ℕ} (h : ¬ e &&& 1 = 1) : e = 2 * (e >>> 1) := by
  rw [Nat.and_one_is_mod] at h
  rw [Nat.shiftRight_one]
  omega

/-- `raisep` multiplies by `base` to the power `e · 2^p`; a factor `base^(2^k)` brings `2^k · (m + 1)` errors. -/
theorem raisep_near {sign : ℤ} {base : Flt} {b : ℚ} {m : ℕ} (hpow : Powers fp sign base) (hb : 0 < base.frac)
    (hb' : 0 ≤ b) (hnear : Near fp.delta m base.value b) (fuel : ℕ) {f : Flt} {x : ℚ} {n e : ℕ} (p : ℕ)
    (hc : c.Ok fp) (hf : 0 < f.frac) (hx : 0 ≤ x) (hfx : Near fp.delta n f.value x) (he : e ≤ fuel) :
    (fp.raisep sign fuel f e (p + 1) c).2.Ok fp ∧ 0 < (fp.raisep sign fuel f e (p + 1) c).1.frac ∧
      Near fp.delta (n + e * 2 ^ p * (m + 1)) (fp.raisep sign fuel f e (p + 1) c).1.value (x * b ^ (e * 2 ^ p)) := by
  induction fuel generalizing f x n e p c with
  | zero =>
    obtain rfl : e = 0 := by omega
    simpa [raisep] using ⟨hc, hf, hfx⟩
  | succ fuel ih =>
    rw [raisep]
    split
    · next h0 =>
      subst h0
      simpa using ⟨hc, hf, hfx⟩
    · next h0 =>
      have hle : e >>> 1 ≤ fuel := by rw [Nat.shiftRight_one]; omega
      split
      · next hodd =>
        have he' := odd_eq hodd
        obtain ⟨hval, hok⟩ := hpow c hc p
        have hpw := fp.power_near hb hb' hnear p
        have hmul := fp.mult_near hx (by positivity) hf (fp.power_pos hb p) hfx hpw
        have hpos := fp.mult_pos hf (fp.power_pos hb p)
        have hrest := ih (p + 1) hok hpos (by positivity) hmul hle
        have hone : 0 < 2 ^ p * (m + 1) := by positivity
        have hcount : n + e * 2 ^ p * (m + 1) =
            n + (2 ^ p * (m + 1) - 1) + 1 + (e >>> 1) * 2 ^ (p + 1) * (m + 1) := by
          have hexp : e * 2 ^ p * (m + 1) = 2 ^ p * (m + 1) + (e >>> 1) * 2 ^ (p + 1) * (m + 1) := by
            conv_lhs => rw [he']
            ring
          omega
        have hpowe : x * b ^ (e * 2 ^ p) = x * b ^ 2 ^ p * b ^ ((e >>> 1) * 2 ^ (p + 1)) := by
          rw [mul_assoc, ← pow_add]
          congr 2
          conv_lhs => rw [he']
          ring
        simp only [hval]
        rw [hcount, hpowe]
        exact hrest
      · next heven =>
        have he' := even_eq heven
        have hrest := ih (p + 1) hc hf hx hfx hle
        have hexp : e * 2 ^ p = (e >>> 1) * 2 ^ (p + 1) := by
          conv_lhs => rw [he']
          ring
        rw [hexp]
        exact hrest

/-- The number of relative errors in a literal scaled by `10^e`. -/
def errors (e : ℤ) : ℕ := if e < 0 then 2 * e.natAbs + 1 else e.natAbs + 1

theorem ten_near (fp : FloatParams) : Near fp.delta 0 ten.value 10 := by
  have h : ten.value = 10 := by norm_num [Flt.value, ten]
  rw [h]
  exact Near.refl 10

theorem raiseToPower_near {f : Flt} {x : ℚ} (hc : c.Ok fp) (hf : 0 < f.frac) (hx : 0 ≤ x)
    (hfx : Near fp.delta 1 f.value x) (e : ℤ) :
    (fp.raiseToPower c f e).2.Ok fp ∧ 0 < (fp.raiseToPower c f e).1.frac ∧
      Near fp.delta (errors e) (fp.raiseToPower c f e).1.value (x * 10 ^ e) := by
  unfold raiseToPower
  split
  · next h0 =>
    subst h0
    simpa [errors] using ⟨hc, hf, hfx⟩
  · next h0 =>
    rcases Int.lt_or_le e 0 with hneg | hpos
    · have hpow : Powers fp (-1) fp.tenth := fun c hc p => pow10_2_neg hc p
      have h := raisep_near hpow fp.tenth_pos (by norm_num) fp.tenth_near e.natAbs 0 hc hf hx hfx (Nat.le_refl _)
      rw [if_pos hneg]
      refine ⟨h.1, h.2.1, ?_⟩
      have hcount : errors e = 1 + e.natAbs * 2 ^ 0 * (1 + 1) := by rw [errors, if_pos hneg]; omega
      have hten : (10 : ℚ) ^ e = (1 / 10) ^ (e.natAbs * 2 ^ 0) := by
        rw [pow_zero, Nat.mul_one, one_div, inv_pow, ← zpow_natCast, ← zpow_neg]
        congr 1
        omega
      rw [hcount, hten]
      exact h.2.2
    · have hpow : Powers fp 1 ten := fun c hc p => pow10_2_pos hc p
      have h := raisep_near hpow (show 0 < ten.frac by decide) (by norm_num) (ten_near fp) e.natAbs 0 hc hf hx
        hfx (Nat.le_refl _)
      rw [if_neg (by omega)]
      refine ⟨h.1, h.2.1, ?_⟩
      have hcount : errors e = 1 + e.natAbs * 2 ^ 0 * (0 + 1) := by rw [errors, if_neg (by omega)]; omega
      have hten : (10 : ℚ) ^ e = 10 ^ (e.natAbs * 2 ^ 0) := by
        rw [pow_zero, Nat.mul_one, ← zpow_natCast]
        congr 1
        omega
      rw [hcount, hten]
      exact h.2.2

/-! ## Powers that need no rounding -/

theorem mult_exact {a k : ℕ} {x y : ℤ} (ha : 0 < a) (hk : 0 < k) (h : a * k < 2 ^ (fp.precision - 1)) :
    fp.mult ⟨a, x⟩ ⟨k, y⟩ = ⟨a * k, x + y⟩ :=
  round_le h (Nat.mul_pos ha hk)

theorem power_ten {k : ℕ} (h : 5 ^ 2 ^ k < 2 ^ (fp.precision - 1)) : fp.power ten k = ⟨5 ^ 2 ^ k, (2 ^ k : ℕ)⟩ := by
  induction k with
  | zero => rfl
  | succ k ih =>
    have hsq : 5 ^ 2 ^ k * 5 ^ 2 ^ k = 5 ^ 2 ^ (k + 1) := by rw [← pow_add, pow_succ, Nat.mul_two]
    have hle : 5 ^ 2 ^ k ≤ 5 ^ 2 ^ (k + 1) := by
      rw [← hsq]
      exact Nat.le_mul_of_pos_left _ (by positivity)
    rw [power, ih (hle.trans_lt h), mult_exact (by positivity) (by positivity) (by rw [hsq]; exact h), hsq]
    congr 1
    push_cast
    ring

theorem raisep_exact (fuel : ℕ) {a e : ℕ} {x : ℤ} (p : ℕ) (hc : c.Ok fp) (ha : 0 < a) (he : e ≤ fuel)
    (h : a * 5 ^ (e * 2 ^ p) < 2 ^ (fp.precision - 1)) :
    (fp.raisep 1 fuel ⟨a, x⟩ e (p + 1) c).1 = ⟨a * 5 ^ (e * 2 ^ p), x + (e * 2 ^ p : ℕ)⟩ := by
  induction fuel generalizing a e x p c with
  | zero =>
    obtain rfl : e = 0 := by omega
    simp [raisep]
  | succ fuel ih =>
    rw [raisep]
    split
    · next h0 =>
      subst h0
      simp
    · next h0 =>
      have hle : e >>> 1 ≤ fuel := by rw [Nat.shiftRight_one]; omega
      split
      · next hodd =>
        have he' := odd_eq hodd
        obtain ⟨hval, hok⟩ := pow10_2_pos hc p
        have hexp : e * 2 ^ p = 2 ^ p + (e >>> 1) * 2 ^ (p + 1) := by
          conv_lhs => rw [he']
          ring
        rw [hexp, pow_add, ← Nat.mul_assoc] at h
        have hhead : a * 5 ^ 2 ^ p < 2 ^ (fp.precision - 1) :=
          (Nat.le_mul_of_pos_right _ (by positivity)).trans_lt h
        have hten : 5 ^ 2 ^ p < 2 ^ (fp.precision - 1) := (Nat.le_mul_of_pos_left _ ha).trans_lt hhead
        simp only [hval, power_ten hten, mult_exact ha (Nat.pow_pos (by norm_num : 0 < 5)) hhead]
        have hfrac : a * 5 ^ 2 ^ p * 5 ^ ((e >>> 1) * 2 ^ (p + 1)) = a * 5 ^ (2 ^ p + (e >>> 1) * 2 ^ (p + 1)) := by
          rw [Nat.mul_assoc, ← pow_add]
        rw [ih (p + 1) hok (by positivity) hle h, hexp, hfrac, Nat.cast_add, ← Int.add_assoc]
      grind [even_eq]

/-! ## The literal -/

/-- The number 0.d0…dn. -/
def fraction : List ℕ → ℚ
  | [] => 0
  | d :: digits => (d + fraction digits) / 10

/-- The exact value of a literal without its sign. -/
def literalValue (digits : List ℕ) (exp : ℤ) : ℚ := fraction digits * 10 ^ exp

theorem wholeNumber_value (digits : List ℕ) (exp : ℤ) :
    ((wholeNumber digits exp).1 : ℚ) * 10 ^ (wholeNumber digits exp).2 = literalValue digits exp := by
  have hfold : ∀ (m : ℕ) (e : ℤ),
      ((digits.foldl (fun x d => (d + 10 * x.1, x.2 - 1)) (m, e)).1 : ℚ) *
        10 ^ (digits.foldl (fun x d => (d + 10 * x.1, x.2 - 1)) (m, e)).2 = (m + fraction digits) * 10 ^ e := by
    induction digits with
    | nil => intro m e; simp [fraction]
    | cons d digits ih =>
      intro m e
      rw [List.foldl_cons, ih, fraction, zpow_sub_one₀ (by norm_num)]
      push_cast
      ring
  simpa [literalValue, wholeNumber] using hfold 0 exp

theorem scaled_near (hc : c.Ok fp) {digits : List ℕ} {exp : ℤ} (h : 0 < (wholeNumber digits exp).1) :
    (fp.scaled c digits exp).2.Ok fp ∧ 0 < (fp.scaled c digits exp).1.frac ∧
      Near fp.delta (errors (wholeNumber digits exp).2) (fp.scaled c digits exp).1.value (literalValue digits exp) := by
  have hval : (⟨(wholeNumber digits exp).1, 0⟩ : Flt).value = (wholeNumber digits exp).1 := by simp [Flt.value]
  have hround := round_near (f := ⟨(wholeNumber digits exp).1, 0⟩) h fp.two_le_precision
  have hpos := round_pos (f := ⟨(wholeNumber digits exp).1, 0⟩) h fp.two_le_precision
  rw [hval] at hround
  rw [← wholeNumber_value]
  exact raiseToPower_near hc hpos (by positivity) hround _

/-- The digits and the power of five fit in the working precision. -/
def Exact (fp : FloatParams) (digits : List ℕ) (exp : ℤ) : Prop :=
  0 ≤ (wholeNumber digits exp).2 ∧
    (wholeNumber digits exp).1 * 5 ^ (wholeNumber digits exp).2.toNat < 2 ^ (fp.precision - 1)

theorem scaled_exact (hc : c.Ok fp) {digits : List ℕ} {exp : ℤ} (h : 0 < (wholeNumber digits exp).1)
    (hexact : fp.Exact digits exp) : (fp.scaled c digits exp).1.value = literalValue digits exp := by
  obtain ⟨hexp, hlt⟩ := hexact
  rw [← wholeNumber_value]
  unfold scaled raiseToPower
  generalize wholeNumber digits exp = w at h hexp hlt
  obtain ⟨a, e⟩ := w
  obtain ⟨n, rfl⟩ := Int.eq_ofNat_of_zero_le hexp
  simp only [Int.toNat_natCast] at hlt
  have ha : a < 2 ^ (fp.precision - 1) := (Nat.le_mul_of_pos_right _ (by positivity)).trans_lt hlt
  have hround : round ⟨a, 0⟩ fp.precision = ⟨a, 0⟩ := round_le ha h
  simp only [hround]
  split
  · next h0 => simp [Flt.value, h0]
  · have hrun : (fp.raisep 1 n ⟨a, 0⟩ n 1 c).1 = ⟨a * 5 ^ (n * 2 ^ 0), 0 + (n * 2 ^ 0 : ℕ)⟩ :=
      raisep_exact n 0 hc h (Nat.le_refl n) (by simpa using hlt)
    rw [if_neg (by omega), Int.natAbs_natCast, hrun]
    have hten : (10 : ℚ) ^ n = 5 ^ n * 2 ^ n := by rw [← mul_pow]; norm_num
    simp only [Flt.value, pow_zero, Nat.mul_one, zero_add, zpow_natCast]
    rw [hten]
    push_cast
    ring

end FloatParams

end Manticore.Common.FloatToBits
