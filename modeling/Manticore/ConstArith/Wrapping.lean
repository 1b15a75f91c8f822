/-
  Manticore.ConstArith.Wrapping — arithmetic on the integers that stand for machine constants
  (`common/constarith/signed-wrapping-arith.sml`, `unsigned-wrapping-arith.sml`, `bitwise-const-arith.sml`), as
  far as the contraction of primitives uses it.

  An integer stands for the word of its residue (`BitVec.ofInt`). Each operation is compared with the operation on
  words:
  - the additive, multiplicative and bitwise operations agree on all integers;
  - `ofInt_sQuot`, `ofInt_sRem` agree on the signed range, `ofInt_uDiv_iff`, `ofInt_uMod_iff`, `ofInt_uShL_iff`
    and `ofInt_uShR_iff` say for which constants of the signed range the others do.
-/

import Mathlib

namespace Manticore.ConstArith

open Int (land xor emod_nonneg emod_eq_of_lt ediv_le_self ediv_nonneg ediv_eq_zero_of_lt ediv_one le_ediv_iff_mul_le
  emod_lt_of_pos)
open BitVec (ofInt getLsbD_not eq_of_getLsbD_eq toNat_ofInt ofInt_add ofInt_neg ofInt_mul toInt intMin ofInt_toInt
  toNat_udiv)

/-! ## `IntInf` -/

def pow2 (w : Nat) : Int := 2 ^ w

/-- `IntInf.<<` and `IntInf.~>>`. -/
def shl (a : Int) (n : Nat) : Int := a * 2 ^ n

def sshr (a : Int) (n : Nat) : Int := a / 2 ^ n

/-- `Word.fromLargeInt`, on words of `wordSize` bits. -/
def fromLargeInt (wordSize : Nat) (b : Int) : Nat := (b % 2 ^ wordSize).toNat

/-- `IntInf.quot` and `IntInf.rem`, which raise `Div`. -/
def quot (a b : Int) : Option Int := if b = 0 then none else some (a.tdiv b)

def rem (a b : Int) : Option Int := if b = 0 then none else some (a.tmod b)

/-! ## `SignedWrappingArith` -/

def sNarrow (wid : Nat) (n : Int) : Int :=
  let limit := pow2 wid
  let n := land n (limit - 1)
  if n < pow2 (wid - 1) then n else n - limit

def sAdd (wid : Nat) (a b : Int) : Int := sNarrow wid (a + b)
def sSub (wid : Nat) (a b : Int) : Int := sNarrow wid (a - b)
def sMul (wid : Nat) (a b : Int) : Int := sNarrow wid (a * b)
def sQuot (wid : Nat) (a b : Int) : Option Int := (quot a b).map (sNarrow wid)
def sRem (wid : Nat) (a b : Int) : Option Int := (rem a b).map (sNarrow wid)
def sNeg (wid : Nat) (a : Int) : Int := sNarrow wid (-a)

/-! ## `UnsignedWrappingArith` -/

def uNarrow (wid : Nat) (n : Int) : Int := land n (pow2 wid - 1)

def uMul (wid : Nat) (a b : Int) : Int := uNarrow wid (a * b)
def uDiv (wid : Nat) (a b : Int) : Option Int := (quot a b).map (uNarrow wid)
def uMod (wid : Nat) (a b : Int) : Option Int := (rem a b).map (uNarrow wid)

def uShL (wordSize wid : Nat) (a b : Int) : Int :=
  if b ≥ wid then 0 else uNarrow wid (shl a (fromLargeInt wordSize b))

def uShR (wordSize wid : Nat) (a b : Int) : Int :=
  if b ≥ wid then 0 else uNarrow wid (sshr a (fromLargeInt wordSize b))

/-! ## `BitwiseConstArith` -/

def narrow (wid : Nat) (n : Int) : Int := land n (pow2 wid - 1)

def bAnd (wid : Nat) (a b : Int) : Int := narrow wid (land a b)
def bOr (wid : Nat) (a b : Int) : Int := narrow wid (Int.lor a b)
def bXor (wid : Nat) (a b : Int) : Int := narrow wid (xor a b)
def bNot (wid : Nat) (a : Int) : Int := narrow wid (xor a (pow2 wid - 1))

/-! ## Words -/

theorem two_pow_pos (w : Nat) : (0 : Int) < 2 ^ w := Int.pow_pos (by decide)

theorem getLsbD_ofInt {w : Nat} (n : Int) (i : Nat) : (ofInt w n).getLsbD i = (decide (i < w) && n.testBit i) := by
  cases n with
  | ofNat n =>
    show (ofInt w (n : Int)).getLsbD i = _
    rw [BitVec.ofInt_natCast, BitVec.getLsbD_ofNat]
    rfl
  | negSucc n =>
    rw [BitVec.ofInt_negSucc_eq_not_ofNat, getLsbD_not, BitVec.getLsbD_ofNat]
    by_cases hi : i < w <;> simp [hi, Int.testBit]

theorem testBit_mask (w i : Nat) : (pow2 w - 1).testBit i = decide (i < w) := by
  have hcast : pow2 w - 1 = ((2 ^ w - 1 : Nat) : Int) := by
    unfold pow2
    rw [Int.natCast_sub Nat.one_le_two_pow]
    norm_cast
  rw [hcast]
  exact Nat.testBit_two_pow_sub_one w i

/-- Narrowing keeps the word. -/
theorem ofInt_land_mask (w : Nat) (n : Int) : ofInt w (land n (pow2 w - 1)) = ofInt w n := by
  apply eq_of_getLsbD_eq
  intro i hi
  rw [getLsbD_ofInt, getLsbD_ofInt, Int.testBit_land, testBit_mask]
  simp [hi]

theorem ofInt_add_pow2 (w : Nat) (n k : Int) : ofInt w (n - k * pow2 w) = ofInt w n := by
  grind [BitVec.eq_of_toNat_eq, toNat_ofInt, pow2, Int.sub_mul_emod_self_right]

theorem ofInt_uNarrow (w : Nat) (n : Int) : ofInt w (uNarrow w n) = ofInt w n := ofInt_land_mask w n

theorem ofInt_narrow (w : Nat) (n : Int) : ofInt w (narrow w n) = ofInt w n := ofInt_land_mask w n

theorem ofInt_sNarrow (w : Nat) (n : Int) : ofInt w (sNarrow w n) = ofInt w n := by
  unfold sNarrow
  simp only
  split
  · exact ofInt_land_mask w n
  · have hsub := ofInt_add_pow2 w (land n (pow2 w - 1)) 1
    rw [Int.one_mul] at hsub
    rw [hsub]
    exact ofInt_land_mask w n

/-! ## Operations that agree on all integers -/

variable {w : Nat}

theorem ofInt_sAdd (a b : Int) : ofInt w (sAdd w a b) = ofInt w a + ofInt w b := by
  rw [sAdd, ofInt_sNarrow, ofInt_add]

theorem ofInt_sNeg (a : Int) : ofInt w (sNeg w a) = -ofInt w a := by
  rw [sNeg, ofInt_sNarrow, ofInt_neg]

theorem ofInt_sSub (a b : Int) : ofInt w (sSub w a b) = ofInt w a - ofInt w b := by
  rw [sSub, ofInt_sNarrow, Int.sub_eq_add_neg, ofInt_add, ofInt_neg, BitVec.sub_eq_add_neg]

theorem ofInt_sMul (a b : Int) : ofInt w (sMul w a b) = ofInt w a * ofInt w b := by
  rw [sMul, ofInt_sNarrow, ofInt_mul]

theorem ofInt_uMul (a b : Int) : ofInt w (uMul w a b) = ofInt w a * ofInt w b := by
  rw [uMul, ofInt_uNarrow, ofInt_mul]

theorem ofInt_bAnd (a b : Int) : ofInt w (bAnd w a b) = ofInt w a &&& ofInt w b := by
  rw [bAnd, ofInt_narrow]
  apply eq_of_getLsbD_eq
  intro i hi
  simp only [BitVec.getLsbD_and, getLsbD_ofInt, Int.testBit_land, hi, decide_true, Bool.true_and]

theorem ofInt_bOr (a b : Int) : ofInt w (bOr w a b) = ofInt w a ||| ofInt w b := by
  rw [bOr, ofInt_narrow]
  apply eq_of_getLsbD_eq
  intro i hi
  simp only [BitVec.getLsbD_or, getLsbD_ofInt, Int.testBit_lor, hi, decide_true, Bool.true_and]

theorem ofInt_bXor (a b : Int) : ofInt w (bXor w a b) = ofInt w a ^^^ ofInt w b := by
  rw [bXor, ofInt_narrow]
  apply eq_of_getLsbD_eq
  intro i hi
  simp only [BitVec.getLsbD_xor, getLsbD_ofInt, Int.testBit_lxor, hi, decide_true, Bool.true_and]

theorem ofInt_bNot (a : Int) : ofInt w (bNot w a) = ~~~ofInt w a := by
  rw [bNot, ofInt_narrow]
  apply eq_of_getLsbD_eq
  intro i hi
  simp only [getLsbD_not, getLsbD_ofInt, Int.testBit_lxor, testBit_mask, hi, decide_true, Bool.true_and,
    Bool.xor_true]

/-! ## Signed division -/

/-- The range of a signed type. -/
def InRange (w : Nat) (n : Int) : Prop := -2 ^ (w - 1) ≤ n ∧ n < 2 ^ (w - 1)

variable {n a b : Int} {wordSize : Nat}

theorem toInt_ofInt (hw : 0 < w) (hn : InRange w n) : (ofInt w n).toInt = n :=
  BitVec.toInt_ofInt_eq_self hw hn.1 hn.2

theorem ofInt_inj (hw : 0 < w) {m : Int} (hm : InRange w m) (hn : InRange w n) :
    ofInt w m = ofInt w n ↔ m = n := by
  constructor
  · intro h
    have hint := congrArg toInt h
    rwa [toInt_ofInt hw hm, toInt_ofInt hw hn] at hint
  · exact congrArg _

theorem inRange_zero (w : Nat) : InRange w 0 := ⟨Int.neg_nonpos_of_nonneg (Int.le_of_lt (two_pow_pos _)), two_pow_pos _⟩

/-- The quotient the machine does not have. -/
def Overflows (w : Nat) (a b : Int) : Prop := a = -2 ^ (w - 1) ∧ b = -1

theorem ofInt_intMin (hw : 0 < w) : ofInt w (-2 ^ (w - 1)) = intMin w := by
  apply BitVec.eq_of_toInt_eq
  have hpos := two_pow_pos (w - 1)
  rw [toInt_ofInt hw ⟨Int.le_refl _, by omega⟩, BitVec.toInt_intMin_of_pos hw]

/-- Division that rounds to zero, where the machine has a quotient. -/
theorem ofInt_sQuot (hw : 0 < w) (ha : InRange w a) (hb : InRange w b) (ho : ¬ Overflows w a b) :
    ofInt w (sNarrow w (a.tdiv b)) = (ofInt w a).sdiv (ofInt w b) := by
  have hne : ofInt w a ≠ intMin w ∨ ofInt w b ≠ -1#w := by
    rw [← not_and_or, ← ofInt_intMin hw]
    rintro ⟨h1, h2⟩
    have hpos := two_pow_pos (w - 1)
    refine ho ⟨(ofInt_inj hw ha ⟨Int.le_refl _, by omega⟩).mp h1, (ofInt_inj hw hb ⟨by omega, by omega⟩).mp ?_⟩
    rw [h2, ofInt_neg]
    rfl
  have hdiv := BitVec.toInt_sdiv_of_ne_or_ne _ _ hne
  rw [toInt_ofInt hw ha, toInt_ofInt hw hb] at hdiv
  rw [ofInt_sNarrow, ← hdiv, ofInt_toInt]

theorem ofInt_sRem (hw : 0 < w) (ha : InRange w a) (hb : InRange w b) :
    ofInt w (sNarrow w (a.tmod b)) = (ofInt w a).srem (ofInt w b) := by
  have hmod := BitVec.toInt_srem (ofInt w a) (ofInt w b)
  rw [toInt_ofInt hw ha, toInt_ofInt hw hb] at hmod
  rw [ofInt_sNarrow, ← hmod, ofInt_toInt]

/-! ## Unsigned division -/

theorem toNat_ofInt_nonneg (h0 : 0 ≤ n) (hlt : n < 2 ^ w) : ((ofInt w n).toNat : Int) = n := by
  rw [toNat_ofInt, Int.toNat_of_nonneg (emod_nonneg _ (Int.natCast_ne_zero.mpr (Nat.two_pow_pos w).ne'))]
  exact emod_eq_of_lt h0 (by exact_mod_cast hlt)

theorem toNat_ofInt_neg (h0 : n < 0) (hge : -2 ^ w ≤ n) : ((ofInt w n).toNat : Int) = n + 2 ^ w := by
  have hadd : ofInt w n = ofInt w (n + 2 ^ w) := by
    have hsub := ofInt_add_pow2 w (n + 2 ^ w) 1
    rw [pow2, Int.one_mul, Int.add_sub_cancel] at hsub
    exact hsub
  rw [hadd]
  exact toNat_ofInt_nonneg (by omega) (by omega)

theorem pow_two_mul (hw : 0 < w) : (2 : Int) ^ w = 2 * 2 ^ (w - 1) := by
  rw [← Int.pow_succ', Nat.sub_add_cancel hw]

theorem eq_iff_toNat {x y : BitVec w} : x = y ↔ (x.toNat : Int) = y.toNat := by
  rw [BitVec.toNat_eq, Int.natCast_inj]

theorem toNat_ofInt_emod (n : Int) : ((ofInt w n).toNat : Int) = n % 2 ^ w := by
  rw [toNat_ofInt, Int.toNat_of_nonneg (emod_nonneg _ (Int.natCast_ne_zero.mpr (Nat.two_pow_pos w).ne'))]
  norm_cast

/-- Constants of the signed range that `uDiv` divides as the machine does: of one sign, or by coincidence. -/
def UDivFits (a b : Int) : Prop :=
  0 ≤ a ∧ 0 < b ∨ a < 0 ∧ b = 1 ∨ 0 ≤ a ∧ b < 0 ∧ a < -b ∨ a < 0 ∧ a = b

theorem ofInt_uDiv_unsigned (ha : 0 ≤ a ∧ a < 2 ^ w) (hb : 0 < b ∧ b < 2 ^ w) :
    ofInt w (uNarrow w (a.tdiv b)) = ofInt w a / ofInt w b := by
  have hq : a / b ≤ a := ediv_le_self _ ha.1
  rw [ofInt_uNarrow, eq_iff_toNat, toNat_udiv, Int.natCast_ediv, toNat_ofInt_nonneg ha.1 ha.2,
    toNat_ofInt_nonneg (Int.le_of_lt hb.1) hb.2, Int.tdiv_eq_ediv_of_nonneg ha.1]
  exact toNat_ofInt_nonneg (ediv_nonneg ha.1 (Int.le_of_lt hb.1)) (by omega)

theorem neg_emod_two_pow {q : Int} (h0 : 0 ≤ q) (hlt : q < 2 ^ w) :
    (-q) % 2 ^ w = if q = 0 then 0 else 2 ^ w - q := by
  split
  case isTrue h => rw [h]; rfl
  case isFalse h =>
    rw [← Int.add_emod_right, emod_eq_of_lt (by omega) (by omega)]
    omega

/-- The machine's quotient of two words, compared with the constant's. -/
theorem ofInt_div_eq_iff {va vb : Int} (ha : ((ofInt w a).toNat : Int) = va)
    (hb : ((ofInt w b).toNat : Int) = vb) :
    ofInt w (uNarrow w n) = ofInt w a / ofInt w b ↔ n % 2 ^ w = va / vb := by
  rw [ofInt_uNarrow, eq_iff_toNat, toNat_udiv, Int.natCast_ediv, ha, hb, toNat_ofInt_emod]

theorem ofInt_mod_eq_iff {va vb : Int} (ha : ((ofInt w a).toNat : Int) = va)
    (hb : ((ofInt w b).toNat : Int) = vb) :
    ofInt w (uNarrow w n) = ofInt w a % ofInt w b ↔ n % 2 ^ w = va % vb := by
  rw [ofInt_uNarrow, eq_iff_toNat, BitVec.toNat_umod, Int.natCast_emod, ha, hb, toNat_ofInt_emod]

theorem ofInt_uDiv_iff (hw : 0 < w) (ha : InRange w a) (hb : InRange w b) (h0 : b ≠ 0) :
    ofInt w (uNarrow w (a.tdiv b)) = ofInt w a / ofInt w b ↔ UDivFits a b := by
  obtain ⟨ha1, ha2⟩ := ha
  obtain ⟨hb1, hb2⟩ := hb
  have hM := two_pow_pos (w - 1)
  have hW := pow_two_mul hw
  unfold UDivFits
  by_cases ha0 : 0 ≤ a
  · by_cases hb0 : 0 < b
    · exact ⟨fun _ => .inl ⟨ha0, hb0⟩, fun _ => ofInt_uDiv_unsigned ⟨ha0, by omega⟩ ⟨hb0, by omega⟩⟩
    · -- the machine's divisor is the larger, so its quotient is 0
      have hq0 : 0 ≤ a / -b := ediv_nonneg ha0 (by omega)
      have hqle : a / -b ≤ a := ediv_le_self _ ha0
      have hlt : a / -b = 0 ↔ a < -b := by
        constructor
        · intro h
          have hspec := Int.lt_ediv_add_one_mul_self a (show 0 < -b by omega)
          rw [h] at hspec
          omega
        · exact fun h => ediv_eq_zero_of_lt ha0 h
      rw [ofInt_div_eq_iff (toNat_ofInt_nonneg ha0 (by omega)) (toNat_ofInt_neg (n := b) (by omega) (by omega)),
        ediv_eq_zero_of_lt ha0 (by omega),
        show a.tdiv b = -(a / -b) by rw [← Int.tdiv_eq_ediv_of_nonneg ha0, Int.tdiv_neg, Int.neg_neg],
        neg_emod_two_pow hq0 (by omega)]
      by_cases hz : a / -b = 0
      · have := hlt.mp hz
        rw [if_pos hz]
        omega
      · have := mt hlt.mpr hz
        rw [if_neg hz]
        omega
  · have hneg : (-a).tdiv (-b) = a.tdiv b := by rw [Int.neg_tdiv_neg]
    by_cases hb0 : 0 < b
    · -- the machine's quotient is at least 1, and with the constant's less than 2 ^ w
      have hq0 : 0 ≤ -a / b := ediv_nonneg (by omega) (by omega)
      have hqle : -a / b ≤ -a := ediv_le_self _ (by omega)
      rw [ofInt_div_eq_iff (toNat_ofInt_neg (n := a) (by omega) (by omega)) (toNat_ofInt_nonneg (n := b) (by omega) (by omega)),
        show a.tdiv b = -(-a / b) by
          rw [← Int.tdiv_eq_ediv_of_nonneg (show 0 ≤ -a by omega), Int.neg_tdiv, Int.neg_neg],
        neg_emod_two_pow hq0 (by omega)]
      by_cases h1 : b = 1
      · rw [h1, ediv_one, ediv_one, if_neg (by omega)]
        omega
      · have hm0 : 1 ≤ (a + 2 ^ w) / b := (le_ediv_iff_mul_le hb0).mpr (by omega)
        have hm2 : (a + 2 ^ w) / b * 2 ≤ a + 2 ^ w :=
          Int.le_trans (Int.mul_le_mul_of_nonneg_left (by omega) (by omega)) (Int.ediv_mul_le _ (by omega))
        have hq2 : -a / b * 2 ≤ -a :=
          Int.le_trans (Int.mul_le_mul_of_nonneg_left (by omega) hq0) (Int.ediv_mul_le _ (by omega))
        split <;> omega
    · rw [ofInt_div_eq_iff (toNat_ofInt_neg (n := a) (by omega) (by omega)) (toNat_ofInt_neg (n := b) (by omega) (by omega)),
        ← hneg, Int.tdiv_eq_ediv_of_nonneg (by omega)]
      have hq0 : 0 ≤ -a / -b := ediv_nonneg (by omega) (by omega)
      have hqle : -a / -b ≤ -a := ediv_le_self _ (by omega)
      rw [emod_eq_of_lt hq0 (by omega)]
      rcases Int.lt_trichotomy a b with hab | hab | hab
      · -- the constant's quotient is at least 1, the machine's is 0
        have h1 : 1 ≤ -a / -b := (le_ediv_iff_mul_le (by omega)).mpr (by omega)
        rw [ediv_eq_zero_of_lt (show 0 ≤ a + 2 ^ w by omega) (by omega)]
        omega
      · rw [hab, Int.ediv_self (by omega), Int.ediv_self (by omega)]
        omega
      · have h1 : 1 ≤ (a + 2 ^ w) / (b + 2 ^ w) := (le_ediv_iff_mul_le (by omega)).mpr (by omega)
        rw [ediv_eq_zero_of_lt (show 0 ≤ -a by omega) (by omega)]
        omega

/-- Constants of the signed range that `uMod` divides as the machine does. -/
def UModFits (w : Nat) (a b : Int) : Prop :=
  0 ≤ a ∧ 0 < b ∨ a < 0 ∧ 0 < b ∧ b ∣ a ∧ b ∣ 2 ^ w ∨ 0 ≤ a ∧ b < 0 ∧ a < -b ∨ a < 0 ∧ a = b

theorem ofInt_uMod_unsigned (ha : 0 ≤ a ∧ a < 2 ^ w) (hb : 0 < b ∧ b < 2 ^ w) :
    ofInt w (uNarrow w (a.tmod b)) = ofInt w a % ofInt w b := by
  have hr0 : 0 ≤ a % b := emod_nonneg _ (by omega)
  have hrlt : a % b < b := emod_lt_of_pos _ hb.1
  rw [ofInt_mod_eq_iff (toNat_ofInt_nonneg ha.1 ha.2) (toNat_ofInt_nonneg (n := b) (by omega) hb.2),
    Int.tmod_eq_emod_of_nonneg ha.1]
  exact emod_eq_of_lt hr0 (by omega)

theorem ofInt_uMod_iff (hw : 0 < w) (ha : InRange w a) (hb : InRange w b) (h0 : b ≠ 0) :
    ofInt w (uNarrow w (a.tmod b)) = ofInt w a % ofInt w b ↔ UModFits w a b := by
  obtain ⟨ha1, ha2⟩ := ha
  obtain ⟨hb1, hb2⟩ := hb
  have hM := two_pow_pos (w - 1)
  have hW := pow_two_mul hw
  unfold UModFits
  by_cases ha0 : 0 ≤ a
  · by_cases hb0 : 0 < b
    · exact ⟨fun _ => .inl ⟨ha0, hb0⟩, fun _ => ofInt_uMod_unsigned ⟨ha0, by omega⟩ ⟨hb0, by omega⟩⟩
    · -- the machine's divisor is the larger, so its remainder is the dividend
      have hr0 : 0 ≤ a % -b := emod_nonneg _ (by omega)
      have hrlt : a % -b < -b := emod_lt_of_pos _ (by omega)
      rw [ofInt_mod_eq_iff (toNat_ofInt_nonneg ha0 (by omega)) (toNat_ofInt_neg (n := b) (by omega) (by omega)),
        emod_eq_of_lt (b := b + 2 ^ w) ha0 (by omega),
        show a.tmod b = a % -b by rw [← Int.tmod_eq_emod_of_nonneg ha0, Int.tmod_neg],
        emod_eq_of_lt hr0 (by omega)]
      constructor
      · intro h
        omega
      · intro h
        exact emod_eq_of_lt ha0 (by omega)
  · by_cases hb0 : 0 < b
    · -- the constant's remainder is 0 or at least half of the words, the machine's is less than the divisor
      have hr0 : 0 ≤ -a % b := emod_nonneg _ (by omega)
      have hrlt : -a % b < b := emod_lt_of_pos _ hb0
      have hm0 : 0 ≤ (a + 2 ^ w) % b := emod_nonneg _ (by omega)
      have hmlt : (a + 2 ^ w) % b < b := emod_lt_of_pos _ hb0
      rw [ofInt_mod_eq_iff (toNat_ofInt_neg (n := a) (by omega) (by omega)) (toNat_ofInt_nonneg (n := b) (by omega) (by omega)),
        show a.tmod b = -(-a % b) by
          rw [← Int.tmod_eq_emod_of_nonneg (show 0 ≤ -a by omega), Int.neg_tmod, Int.neg_neg],
        neg_emod_two_pow hr0 (by omega)]
      have hdvd : b ∣ a ↔ -a % b = 0 := by rw [← Int.dvd_neg, Int.dvd_iff_emod_eq_zero]
      by_cases hz : -a % b = 0
      · have hsum : b ∣ a + 2 ^ w ↔ b ∣ 2 ^ w := Int.dvd_add_right (hdvd.mpr hz)
        rw [if_pos hz, ← hsum, Int.dvd_iff_emod_eq_zero (a := b) (b := a + 2 ^ w), hdvd]
        omega
      · rw [if_neg hz, hdvd]
        omega
    · rw [ofInt_mod_eq_iff (toNat_ofInt_neg (n := a) (by omega) (by omega)) (toNat_ofInt_neg (n := b) (by omega) (by omega))]
      have hr0 : 0 ≤ -a % -b := emod_nonneg _ (by omega)
      have hrlt : -a % -b < -b := emod_lt_of_pos _ (by omega)
      rw [show a.tmod b = -(-a % -b) by
        rw [← Int.tmod_eq_emod_of_nonneg (show 0 ≤ -a by omega), Int.tmod_neg, Int.neg_tmod, Int.neg_neg],
        neg_emod_two_pow hr0 (by omega)]
      rcases Int.lt_trichotomy a b with hab | hab | hab
      · rw [emod_eq_of_lt (show 0 ≤ a + 2 ^ w by omega) (by omega)]
        split <;> omega
      · rw [hab, Int.emod_self, Int.emod_self, if_pos rfl]
        omega
      · have hm : (a + 2 ^ w) % (b + 2 ^ w) = a - b := by
          rw [← Int.sub_emod_right, show a + 2 ^ w - (b + 2 ^ w) = a - b by omega]
          exact emod_eq_of_lt (by omega) (by omega)
        rw [hm, emod_eq_of_lt (show 0 ≤ -a by omega) (by omega), if_neg (by omega)]
        omega

/-! ## Shifts -/

/-- A word as wide as `w` holds a count taken modulo `w`. -/
theorem emod_toNat {m n : Nat} (h : n ∣ 2 ^ m) : (b % 2 ^ m).toNat % n = (b % n).toNat := by
  rcases Nat.eq_zero_or_pos n with rfl | hn
  · simp at h
  have hdvd : (n : Int) ∣ 2 ^ m := by exact_mod_cast h
  have hm0 : 0 ≤ b % 2 ^ m := emod_nonneg _ (by have := two_pow_pos m; omega)
  have hn0 : 0 ≤ b % n := emod_nonneg _ (by omega)
  apply Int.natCast_inj.mp
  rw [Int.natCast_emod, Int.toNat_of_nonneg hm0, Int.toNat_of_nonneg hn0, Int.emod_emod_of_dvd _ hdvd]

theorem ofInt_shl (a : Int) (n : Nat) : ofInt w (shl a n) = ofInt w a <<< n := by
  rw [shl, ofInt_mul, BitVec.shiftLeft_eq_mul_twoPow]
  congr 1
  grind [BitVec.eq_of_toNat_eq, toNat_ofInt, BitVec.toNat_twoPow, Int.toNat_natCast]

/-- A left shift agrees when the count is a count of the machine, or when all bits are shifted out. -/
def UShLFits (wordSize w : Nat) (a b : Int) : Prop :=
  b < w ∧ fromLargeInt wordSize b < w ∨ (2 : Int) ^ w ∣ a * 2 ^ (b % w).toNat

theorem shiftLeft_eq_zero_iff (a : Int) (n : Nat) : ofInt w a <<< n = 0#w ↔ (2 : Int) ^ w ∣ a * 2 ^ n := by
  rw [← ofInt_shl, eq_iff_toNat, toNat_ofInt_emod, Int.dvd_iff_emod_eq_zero]
  simp [shl]

theorem ofInt_uShL_iff (hword : w ∣ 2 ^ wordSize) (a b : Int) :
    ofInt w (uShL wordSize w a b) = ofInt w a <<< (b % w).toNat ↔ UShLFits wordSize w a b := by
  have hcount := emod_toNat (b := b) hword
  unfold UShLFits
  rw [← shiftLeft_eq_zero_iff]
  unfold uShL
  split
  case isTrue h =>
    rw [show ofInt w 0 = 0#w from rfl, eq_comm]
    simp_all
  case isFalse h =>
    rw [ofInt_uNarrow, ofInt_shl]
    by_cases hc : fromLargeInt wordSize b < w
    · have heq : fromLargeInt wordSize b = (b % w).toNat := by
        rw [← hcount]
        exact (Nat.mod_eq_of_lt hc).symm
      exact ⟨fun _ => .inl ⟨by omega, hc⟩, fun _ => by rw [heq]⟩
    · rw [BitVec.shiftLeft_eq_zero (by omega), eq_comm]
      simp [hc]

/-- A right shift of a constant that is not negative agrees when the count is a count of the machine, or when all
    bits are shifted out; of a negative constant of the signed range only when nothing is shifted, or for `-1` when
    the count is a multiple of the width. -/
def UShRFits (wordSize w : Nat) (a b : Int) : Prop :=
  0 ≤ a ∧ a < 2 ^ w ∧ (b < w ∧ fromLargeInt wordSize b < w ∨ a < 2 ^ (b % w).toNat) ∨
    InRange w a ∧ a < 0 ∧ b < w ∧ (fromLargeInt wordSize b = 0 ∨ w ≤ fromLargeInt wordSize b ∧ b % w = 0 ∧ a = -1)

theorem toNat_ushiftRight (a : Int) (n : Nat) {v : Int} (ha : ((ofInt w a).toNat : Int) = v) :
    ((ofInt w a >>> n).toNat : Int) = v / 2 ^ n := by
  rw [BitVec.toNat_ushiftRight, Nat.shiftRight_eq_div_pow, Int.natCast_ediv, ha]
  norm_cast

theorem ediv_eq_zero_iff {d : Int} (h0 : 0 ≤ a) (hd : 0 < d) : a / d = 0 ↔ a < d := by
  constructor
  · intro h
    have hspec := Int.lt_ediv_add_one_mul_self a hd
    rw [h] at hspec
    omega
  · exact ediv_eq_zero_of_lt h0

theorem two_pow_le {m n : Nat} (h : m ≤ n) : (2 : Int) ^ m ≤ 2 ^ n := by exact_mod_cast Nat.pow_le_pow_right (by decide) h

theorem ofInt_uShR_unsigned (hword : w ∣ 2 ^ wordSize) (ha : 0 ≤ a ∧ a < 2 ^ w) (b : Int) :
    ofInt w (uShR wordSize w a b) = ofInt w a >>> (b % w).toNat ↔ b < w ∧ fromLargeInt wordSize b < w
      ∨ a < 2 ^ (b % w).toNat := by
  have hcount := emod_toNat (b := b) hword
  rw [eq_iff_toNat, toNat_ushiftRight a _ (toNat_ofInt_nonneg ha.1 ha.2)]
  unfold uShR
  split
  case isTrue h =>
    rw [show ((ofInt w 0).toNat : Int) = 0 by simp, eq_comm, ediv_eq_zero_iff ha.1 (two_pow_pos _)]
    omega
  case isFalse h =>
    have hq0 : 0 ≤ a / 2 ^ fromLargeInt wordSize b := ediv_nonneg ha.1 (Int.le_of_lt (two_pow_pos _))
    have hqle : a / 2 ^ fromLargeInt wordSize b ≤ a := ediv_le_self _ ha.1
    rw [ofInt_uNarrow, sshr, toNat_ofInt_nonneg hq0 (by omega)]
    by_cases hc : fromLargeInt wordSize b < w
    · have heq : fromLargeInt wordSize b = (b % w).toNat := by
        rw [← hcount]
        exact (Nat.mod_eq_of_lt hc).symm
      exact ⟨fun _ => .inl ⟨by omega, hc⟩, fun _ => by rw [heq]⟩
    · have hbig := two_pow_le (Nat.le_of_not_lt hc)
      rw [ediv_eq_zero_of_lt ha.1 (by omega), eq_comm, ediv_eq_zero_iff ha.1 (two_pow_pos _)]
      omega

theorem ofInt_uShR_neg (hw : 0 < w) (hword : w ∣ 2 ^ wordSize) (ha : InRange w a) (h0 : a < 0) (b : Int) :
    ofInt w (uShR wordSize w a b) = ofInt w a >>> (b % w).toNat ↔ b < w ∧
      (fromLargeInt wordSize b = 0 ∨ w ≤ fromLargeInt wordSize b ∧ b % w = 0 ∧ a = -1) := by
  obtain ⟨ha1, ha2⟩ := ha
  have hM := two_pow_pos (w - 1)
  have hW := pow_two_mul hw
  have hcount := emod_toNat (b := b) hword
  have hlt : (b % w).toNat < w := by
    rw [← hcount]
    exact Nat.mod_lt _ hw
  have hsmall := two_pow_le (show (b % w).toNat ≤ w - 1 by omega)
  have hpos := two_pow_pos (b % w).toNat
  have hnn : 0 ≤ b % w := emod_nonneg _ (by omega)
  -- once a bit is shifted in, the machine's result is less than half of the words
  have hhalf : ∀ n : Nat, 0 < n → (a + 2 ^ w) / 2 ^ n < 2 ^ (w - 1) := by
    intro n hn
    have h2 := two_pow_le (show 1 ≤ n from hn)
    refine Int.ediv_lt_of_lt_mul (two_pow_pos n) ?_
    have hmul := Int.mul_le_mul_of_nonneg_left h2 (Int.le_of_lt hM)
    omega
  rw [eq_iff_toNat, toNat_ushiftRight a _ (toNat_ofInt_neg h0 (by omega))]
  unfold uShR
  split
  case isTrue h =>
    have h1 : 1 ≤ (a + 2 ^ w) / 2 ^ (b % w).toNat := (le_ediv_iff_mul_le hpos).mpr (by omega)
    rw [show ((ofInt w 0).toNat : Int) = 0 by simp]
    omega
  case isFalse h =>
    rw [ofInt_uNarrow, sshr]
    have hneg : a / 2 ^ fromLargeInt wordSize b < 0 := Int.ediv_neg_of_neg_of_pos h0 (two_pow_pos _)
    by_cases hc : fromLargeInt wordSize b < w
    · have heq : fromLargeInt wordSize b = (b % w).toNat := by
        rw [← hcount]
        exact (Nat.mod_eq_of_lt hc).symm
      rcases Nat.eq_zero_or_pos (fromLargeInt wordSize b) with hz | hz
      · rw [← heq, hz, Int.pow_zero, ediv_one, ediv_one, toNat_ofInt_neg h0 (by omega)]
        omega
      · have hge : a ≤ a / 2 ^ fromLargeInt wordSize b := by
          refine (le_ediv_iff_mul_le (two_pow_pos _)).mpr ?_
          have hmul := Int.mul_le_mul_of_nonpos_left (Int.le_of_lt h0) (two_pow_le (Nat.zero_le (fromLargeInt wordSize b)))
          rw [Int.pow_zero, Int.mul_one] at hmul
          exact hmul
        have hq := hhalf _ (heq ▸ hz)
        rw [toNat_ofInt_neg hneg (by omega)]
        omega
    · have hbig := two_pow_le (Nat.le_of_not_lt hc)
      have hq : a / 2 ^ fromLargeInt wordSize b = -1 := by
        have h1 : -1 ≤ a / 2 ^ fromLargeInt wordSize b := (le_ediv_iff_mul_le (two_pow_pos _)).mpr (by omega)
        omega
      rw [hq, toNat_ofInt_neg (by omega) (by omega)]
      by_cases hz : (b % w).toNat = 0
      · rw [hz, Int.pow_zero, ediv_one]
        omega
      · have hq := hhalf _ (Nat.pos_of_ne_zero hz)
        omega

theorem ofInt_uShR_iff (hw : 0 < w) (hword : w ∣ 2 ^ wordSize) (ha : InRange w a) (b : Int) :
    ofInt w (uShR wordSize w a b) = ofInt w a >>> (b % w).toNat ↔ UShRFits wordSize w a b := by
  have hlt : a < 2 ^ w := by
    have hW := pow_two_mul hw
    have hpos := two_pow_pos (w - 1)
    have h2 := ha.2
    omega
  grind [UShRFits, ofInt_uShR_neg, ofInt_uShR_unsigned]

end Manticore.ConstArith
