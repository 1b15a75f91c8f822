/-
  Manticore.Common.FloatToBitsPack — the layout of the bits in the bytes.

  The bits are numbered from the sign on, [s | E | b_1 b_2 ... b_{p-1}]. `pack` puts the sign into
  bit 0, the biased exponent into the next `expWidth` bits and the digits of the fraction after
  its leading one into the rest (`pack_bit`, `pack_pattern`).
-/

import Manticore.Common.FloatToBitsValue

namespace Manticore.Common.FloatToBits

/-- The bit `j` of the representation, from the sign on. -/
def bitAt (bytes : List (BitVec 8)) (j : ℕ) : Bool := (bytes.getD (j / 8) 0).getLsbD (7 - j % 8)

/-- The representation with this sign, exponent field and mantissa field. -/
structure Pattern (fp : FloatParams) (bytes : List (BitVec 8)) (isNeg : Bool) (E T : ℕ) : Prop where
  length : bytes.length = fp.numBytes
  exp_lt : E < 2 ^ fp.expWidth
  mant_lt : T < 2 ^ (fp.significant - 1)
  sign : bitAt bytes 0 = isNeg
  exp : ∀ j, 1 ≤ j → j ≤ fp.expWidth → bitAt bytes j = E.testBit (fp.expWidth - j)
  mant : ∀ j, fp.expWidth < j → j < fp.width → bitAt bytes j = T.testBit (fp.width - 1 - j)

/-! ## The bits of one byte -/

/-- The bit `k` of a number from its leading bit on. -/
def msb (frac k : ℕ) : Bool := decide (k < numBitsForInt frac) && frac.testBit (numBitsForInt frac - 1 - k)

theorem and_two_pow_eq_zero (frac a : ℕ) : (frac &&& 2 ^ a = 0) ↔ frac.testBit a = false := by
  rw [Nat.and_two_pow]
  cases frac.testBit a <;> simp

theorem two_pow_shiftRight_one (a : ℕ) : 2 ^ (a + 1) >>> 1 = 2 ^ a := by
  rw [Nat.shiftRight_one, pow_succ, Nat.mul_div_cancel _ (by norm_num)]

theorem getBits_zero (frac i bit bits : ℕ) : getBits frac i 0 bit bits = bits := by
  cases i <;> simp [getBits]

/-- `getBits` from the bit `a` of the fraction into the bits below `i`. -/
theorem getBits_testBit (frac i a bits j : ℕ) :
    (getBits frac i (2 ^ a) (2 ^ (i - 1)) bits).testBit j =
      (bits.testBit j || (decide (j < i) && decide (i ≤ a + j + 1) && frac.testBit (a + j + 1 - i))) := by
  induction i generalizing a bits with
  | zero => simp [getBits]
  | succ i ih =>
    rw [getBits, if_pos (Nat.two_pow_pos a), Nat.add_sub_cancel]
    have hbits : ∀ j, (if frac &&& 2 ^ a = 0 then bits else bits ||| 2 ^ i).testBit j =
        (bits.testBit j || (decide (j = i) && frac.testBit a)) := by
      intro j
      cases hbit : frac.testBit a with
      | false => rw [if_pos ((and_two_pow_eq_zero frac a).mpr hbit)]; simp
      | true =>
        rw [if_neg (by rw [and_two_pow_eq_zero, hbit]; simp), Nat.testBit_or, Nat.testBit_two_pow]
        simp [eq_comm]
    cases a with
    | zero =>
      rw [pow_zero, show (1 : ℕ) >>> 1 = 0 by rfl, getBits_zero]
      have h := hbits j
      rw [pow_zero] at h
      rw [h]
      by_cases hj : j = i
      · subst hj; simp
      grind
    | succ a =>
      have hbit : 2 ^ i >>> 1 = 2 ^ (i - 1) ∨ i = 0 := by
        cases i with
        | zero => exact .inr rfl
        | succ i => exact .inl (two_pow_shiftRight_one i)
      rw [two_pow_shiftRight_one]
      rcases hbit with hbit | rfl
      · rw [hbit, ih, hbits]
        by_cases hj : j = i
        · subst hj
          simp
        grind
      · rw [getBits, hbits]
        by_cases hj : j = 0
        · subst hj; simp
        · simp [hj]

theorem w2b_bit (w j : ℕ) : (w2b w).getLsbD j = (decide (j < 8) && w.testBit j) := by
  rw [w2b, BitVec.getLsbD_ofNat]

theorem makebits_bit (frac start : ℕ) {width j : ℕ} (hj : j < 8) :
    (makebits frac start width).getLsbD j = (decide (j < width) && msb frac (start + (width - 1 - j))) := by
  unfold makebits
  split
  · next h0 =>
    subst h0
    simp [msb]
  · rw [w2b_bit, Nat.one_shiftLeft, Nat.one_shiftLeft, Nat.shiftRight_eq_div_pow]
    rcases Nat.lt_or_ge (numBitsForInt frac - 1) start with hlt | hge
    · have hzero : 2 ^ (numBitsForInt frac - 1) / 2 ^ start = 0 :=
        Nat.div_eq_of_lt (Nat.pow_lt_pow_right (by norm_num) hlt)
      grind [getBits_zero, msb]
    · rw [Nat.pow_div hge (by norm_num), getBits_testBit]
      grind [numBitsForInt, msb]

/-! ## The bytes together -/

theorem orb_length (bytes : List (BitVec 8)) (i : ℕ) (b : BitVec 8) : (orb bytes i b).length = bytes.length :=
  List.length_set

theorem orb_bit {bytes : List (BitVec 8)} {i j : ℕ} (b : BitVec 8) (hj : j / 8 < bytes.length) :
    bitAt (orb bytes i b) j = (bitAt bytes j || (decide (i = j / 8) && b.getLsbD (7 - j % 8))) := by
  grind [bitAt, orb]

/-- Several pieces, one after the other. -/
theorem orbs_bit {β : Type} (pieces : List β) (byte : β → ℕ) (b : β → BitVec 8) (bytes : List (BitVec 8)) {j : ℕ}
    (hj : j / 8 < bytes.length) :
    (pieces.foldl (fun bytes p => orb bytes (byte p) (b p)) bytes).length = bytes.length ∧
      bitAt (pieces.foldl (fun bytes p => orb bytes (byte p) (b p)) bytes) j =
        (bitAt bytes j || pieces.any fun p => decide (byte p = j / 8) && (b p).getLsbD (7 - j % 8)) := by
  induction pieces generalizing bytes with
  | nil => simp
  | cons p pieces ih =>
    grind [orb_length, orb_bit]

namespace FloatParams

variable (fp : FloatParams)

theorem expWidth_add : fp.expWidth + fp.significant = fp.width := by
  have := fp.significant_le
  have := fp.le_width
  unfold expWidth
  omega

theorem numBytes_mul : 8 * fp.numBytes = fp.width := by
  have := fp.width_mod
  unfold numBytes
  omega

/-- The exponent's bytes hold the exponent after the sign. -/
theorem exp_bits (E j : ℕ) :
    ((List.range fp.numExpBytes).any fun i => decide (i = j / 8) &&
      (w2b (E <<< fp.expShift >>> (8 * (fp.numExpBytes - i - 1)))).getLsbD (7 - j % 8)) =
      (decide (j ≤ fp.expWidth) && E.testBit (fp.expWidth - j)) := by
  have hN : fp.expWidth + 1 ≤ 8 * fp.numExpBytes := by unfold numExpBytes; omega
  have hshift : fp.expShift = 8 * fp.numExpBytes - (fp.expWidth + 1) := rfl
  by_cases hj : j / 8 < fp.numExpBytes
  · have hbit : (w2b (E <<< fp.expShift >>> (8 * (fp.numExpBytes - j / 8 - 1)))).getLsbD (7 - j % 8) =
        (decide (j ≤ fp.expWidth) && E.testBit (fp.expWidth - j)) := by
      rw [w2b_bit, Nat.testBit_shiftRight, Nat.testBit_shiftLeft]
      grind
    rw [← hbit, Bool.eq_iff_iff]
    simp only [List.any_eq_true, List.mem_range, Bool.and_eq_true, decide_eq_true_eq]
    simp [hj]
  grind

/-- The mantissa's bytes hold the digits after the leading one, behind the exponent. -/
theorem mant_bits (frac : ℕ) {j : ℕ} (hj : j < fp.width) :
    (fp.fracLayout.any fun p => decide (p.byte = j / 8) && (makebits frac p.start p.width).getLsbD (7 - j % 8)) =
      (decide (fp.expWidth < j) && msb frac (j - fp.expWidth)) := by
  have hsum := fp.expWidth_add
  have hbytes := fp.numBytes_mul
  have hsig := fp.le_significant
  have hN : fp.numMantBytes = (fp.significant + 6) / 8 := rfl
  have hfirst : fp.numBytes - fp.numMantBytes = (fp.expWidth + 1) / 8 := by omega
  have h8 : 7 - j % 8 < 8 := by omega
  rw [Bool.eq_iff_iff]
  simp only [fracLayout, List.any_map, List.any_eq_true, List.mem_range, Function.comp_apply, Bool.and_eq_true,
    decide_eq_true_eq, hfirst]
  constructor
  · rintro ⟨i, hi, hp⟩
    cases i with
    | zero =>
      obtain ⟨hbyte, hbit⟩ := hp
      simp only [makebits_bit frac 1 h8, Bool.and_eq_true, decide_eq_true_eq] at hbit
      grind
    | succ i =>
      obtain ⟨hbyte, hbit⟩ := hp
      simp only [makebits_bit frac _ h8, Bool.and_eq_true, decide_eq_true_eq] at hbit
      grind
  · rintro ⟨hlt, hbit⟩
    obtain ⟨i, hi⟩ : ∃ i, j / 8 = (fp.expWidth + 1) / 8 + i := ⟨j / 8 - (fp.expWidth + 1) / 8, by omega⟩
    refine ⟨i, by omega, ?_⟩
    cases i with
    | zero =>
      have hpos : 1 + (8 - (fp.expWidth + 1) % 8 - 1 - (7 - j % 8)) = j - fp.expWidth := by omega
      simp only [makebits_bit frac 1 h8, Bool.and_eq_true, decide_eq_true_eq, hpos]
      exact ⟨by omega, by omega, hbit⟩
    | succ i =>
      have hpos : 8 - (fp.expWidth + 1) % 8 + 1 + i * 8 + (8 - 1 - (7 - j % 8)) = j - fp.expWidth := by omega
      simp only [makebits_bit frac _ h8, Bool.and_eq_true, decide_eq_true_eq, hpos]
      exact ⟨by omega, by omega, hbit⟩

theorem sign_bit (isNeg : Bool) {j : ℕ} (hj : j < fp.width) :
    bitAt (if isNeg then (List.replicate fp.numBytes (0 : BitVec 8)).set 0 0x80 else List.replicate fp.numBytes 0) j =
      (decide (j = 0) && isNeg) := by
  have hbytes := fp.numBytes_mul
  have hlt : j / 8 < fp.numBytes := by omega
  cases isNeg with
  | false => simp [bitAt, List.getD_eq_getElem?_getD, hlt]
  | true =>
    by_cases h8 : j / 8 = 0
    · have hsmall : j < 8 := by omega
      have hn : 0 < fp.numBytes := by omega
      simp only [if_true, bitAt, h8, List.getD_eq_getElem?_getD, List.getElem?_set_self, List.length_replicate, hn,
        Option.getD_some, Bool.and_true]
      revert hsmall
      clear h8 hlt hj
      revert j
      decide
    · have h0 : j ≠ 0 := by omega
      simp [bitAt, List.getD_eq_getElem?_getD, Ne.symm h8, hlt, h0]

theorem sign_length (isNeg : Bool) :
    (if isNeg then (List.replicate fp.numBytes (0 : BitVec 8)).set 0 0x80 else List.replicate fp.numBytes 0).length =
      fp.numBytes := by
  cases isNeg <;> simp

theorem pack_bit (isNeg : Bool) (E frac : ℕ) {j : ℕ} (hj : j < fp.width) :
    (fp.pack isNeg E frac).length = fp.numBytes ∧
      bitAt (fp.pack isNeg E frac) j = ((decide (j = 0) && isNeg) ||
        (decide (j ≤ fp.expWidth) && E.testBit (fp.expWidth - j)) ||
        (decide (fp.expWidth < j) && msb frac (j - fp.expWidth))) := by
  have hbytes := fp.numBytes_mul
  have hlen := fp.sign_length isNeg
  obtain ⟨hlen', hexp⟩ := orbs_bit (List.range fp.numExpBytes) id
    (fun i => w2b (E <<< fp.expShift >>> (8 * (fp.numExpBytes - i - 1)))) _ (j := j) (by rw [hlen]; omega)
  simp only [id, hlen] at hlen' hexp
  obtain ⟨hlen'', hmant⟩ := orbs_bit fp.fracLayout (·.byte) (fun p => makebits frac p.start p.width) _ (j := j)
    (by rw [hlen']; omega)
  refine ⟨hlen''.trans hlen', ?_⟩
  rw [pack, hmant, hexp, fp.sign_bit isNeg hj, fp.exp_bits, fp.mant_bits frac hj]

/-- The digits of a fraction after its leading one, in the width of the mantissa field. -/
def mantissa (frac : ℕ) : ℕ :=
  if numBitsForInt frac ≤ fp.significant then frac * 2 ^ (fp.significant - numBitsForInt frac) % 2 ^ (fp.significant - 1)
  else 0

/-- A fraction that `pack` can store: one of at most `significant` digits, or the next power of two. -/
def Storable (frac : ℕ) : Prop := frac ≤ 2 ^ fp.significant

theorem msb_eq {frac k : ℕ} (hfrac : fp.Storable frac) (hk : 1 ≤ k) (hk' : k < fp.significant) :
    msb frac k = (fp.mantissa frac).testBit (fp.significant - 1 - k) := by
  unfold msb mantissa
  split
  · next hle =>
    grind
  · next hgt =>
    -- a carry into a new digit: all digits but the leading one are zero
    have hpos : 0 < frac := by
      rcases Nat.eq_zero_or_pos frac with rfl | h
      · have := fp.le_significant
        have : numBitsForInt 0 = 1 := rfl
        omega
      · exact h
    have hb := numBits_bounds hpos
    have hge : 2 ^ fp.significant ≤ frac :=
      (Nat.pow_le_pow_right (by norm_num) (by omega)).trans hb.1
    have heq : frac = 2 ^ fp.significant := Nat.le_antisymm hfrac hge
    have hbits : numBitsForInt frac = fp.significant + 1 := by
      rw [heq]
      exact numBits_eq (Nat.le_refl _) (Nat.pow_lt_pow_right (by norm_num) (by omega))
    grind

theorem mantissa_lt (frac : ℕ) : fp.mantissa frac < 2 ^ (fp.significant - 1) := by
  unfold mantissa
  split
  · exact Nat.mod_lt _ (Nat.two_pow_pos _)
  · exact Nat.two_pow_pos _

/-- What `pack` returns. -/
theorem pack_pattern (isNeg : Bool) {E frac : ℕ} (hE : E < 2 ^ fp.expWidth) (hfrac : fp.Storable frac) :
    Pattern fp (fp.pack isNeg E frac) isNeg E (fp.mantissa frac) where
  length := (fp.pack_bit isNeg E frac (j := 0) (by have := fp.le_width; omega)).1
  exp_lt := hE
  mant_lt := fp.mantissa_lt frac
  sign := by
    have h := (fp.pack_bit isNeg E frac (j := 0) (by have := fp.le_width; omega)).2
    rw [h, Nat.sub_zero, Nat.testBit_lt_two_pow hE]
    simp
  exp := by
    intro j h₁ hj
    have hsum := fp.expWidth_add
    have hsig := fp.le_significant
    have h := (fp.pack_bit isNeg E frac (j := j) (by omega)).2
    grind
  mant := by
    intro j hlt hj
    have hsum := fp.expWidth_add
    have h := (fp.pack_bit isNeg E frac hj).2
    have h₀ : j ≠ 0 := by omega
    have h₁ : ¬ j ≤ fp.expWidth := by omega
    have h₂ : fp.width - 1 - j = fp.significant - 1 - (j - fp.expWidth) := by omega
    rw [h, h₂, ← fp.msb_eq hfrac (by omega) (by omega)]
    simp [h₀, h₁, hlt]

/-- The number a positive fraction stands for, by its mantissa field. -/
theorem mantissa_value {frac : ℕ} (e : ℤ) (hpos : 0 < frac) (hfrac : fp.Storable frac) :
    (frac : ℚ) * 2 ^ e =
      (2 ^ (fp.significant - 1) + fp.mantissa frac) * 2 ^ (e + numBitsForInt frac - 1 - (fp.significant - 1 : ℕ)) := by
  have hsig := fp.le_significant
  have hb := numBits_bounds hpos
  unfold mantissa
  split
  · next hle =>
    have hsplit : 2 ^ (numBitsForInt frac - 1) * 2 ^ (fp.significant - numBitsForInt frac) = 2 ^ (fp.significant - 1) := by
      rw [← pow_add]
      congr 1
      unfold numBitsForInt at *
      omega
    have hsplit' : 2 ^ numBitsForInt frac * 2 ^ (fp.significant - numBitsForInt frac) = 2 * 2 ^ (fp.significant - 1) := by
      rw [← pow_add, ← pow_succ']
      congr 1
      omega
    have hlo := Nat.mul_le_mul_right (2 ^ (fp.significant - numBitsForInt frac)) hb.1
    have hhi := Nat.mul_lt_mul_of_pos_right hb.2 (Nat.two_pow_pos (fp.significant - numBitsForInt frac))
    rw [hsplit] at hlo
    rw [hsplit'] at hhi
    have hmod : 2 ^ (fp.significant - 1) +
        frac * 2 ^ (fp.significant - numBitsForInt frac) % 2 ^ (fp.significant - 1) =
        frac * 2 ^ (fp.significant - numBitsForInt frac) := by
      rw [Nat.mod_eq_sub_mod hlo, Nat.mod_eq_of_lt (by omega)]
      omega
    have hmod' : (2 : ℚ) ^ (fp.significant - 1) +
        (frac * 2 ^ (fp.significant - numBitsForInt frac) % 2 ^ (fp.significant - 1) : ℕ) =
        frac * 2 ^ (fp.significant - numBitsForInt frac) := by
      exact_mod_cast congrArg (Nat.cast (R := ℚ)) hmod
    have he : e = e + numBitsForInt frac - 1 - (fp.significant - 1 : ℕ) +
        (fp.significant - numBitsForInt frac : ℕ) := by omega
    rw [hmod']
    conv_lhs => rw [he, BinaryRounding.two_zpow_add_nat]
    ring
  · next hgt =>
    have hge : 2 ^ fp.significant ≤ frac := (Nat.pow_le_pow_right (by norm_num) (by omega)).trans hb.1
    have heq : frac = 2 ^ fp.significant := Nat.le_antisymm hfrac hge
    have hbits : numBitsForInt frac = fp.significant + 1 := by
      rw [heq]
      exact numBits_eq (Nat.le_refl _) (Nat.pow_lt_pow_right (by norm_num) (by omega))
    have he : e + (fp.significant + 1 : ℕ) - 1 - (fp.significant - 1 : ℕ) = e + (1 : ℕ) := by omega
    have hpow : (2 : ℚ) ^ fp.significant = 2 * 2 ^ (fp.significant - 1) := by
      rw [← pow_succ']
      congr 1
      omega
    rw [hbits, he, BinaryRounding.two_zpow_add_nat, heq]
    push_cast
    rw [hpow]
    ring

end FloatParams

end Manticore.Common.FloatToBits
