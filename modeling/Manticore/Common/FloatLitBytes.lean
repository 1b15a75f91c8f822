/-
  Manticore.Common.FloatLitBytes — the pickles of float literals (`toBytes` and `fromBytes` of `common/float-lit.sml`).

  The pickle is the sign, a byte for each digit and the four low bytes of the exponent. The host's default words and
  ints have `w` bits.
  - `fromBytes_toBytes_iff`: with digits 0 to 9 and an exponent that is an int of the host and fits in 32 bits, a
    literal comes back when it has a digit, and on a host of 63-bit words when its exponent is not negative.
  - `negative_exponent_lost`: there the four bytes are read as an unsigned number.
-/

import Manticore.Machine

namespace Manticore.FloatLit

open BitVec (ofInt ofNat)

/-- `byte` of `toBytes`. -/
def expByte {w : ℕ} (exp : BitVec w) (i : ℕ) : BitVec 8 := (exp >>> (8 * i)).setWidth 8

def toBytes (w : ℕ) : FloatLit → List (BitVec 8)
  | .posInf => [2]
  | .negInf => [3]
  | .qNaN => [4]
  | .flt isNeg digits exp =>
    let sign : BitVec 8 := if isNeg then 1 else 0
    let exp := ofInt w exp
    sign :: (digits.map (ofNat 8) ++ [expByte exp 0, expByte exp 1, expByte exp 2, expByte exp 3])

/-- `error` of `fromBytes`. -/
def bogus {α : Type} : Except String α := .error "Bogus real-literal pickle"

def fromBytes (w : ℕ) (v : List (BitVec 8)) : Except String FloatLit :=
  let sub i := v.getD i 0
  if v.length = 1 then
    match (sub 0).toNat with
    | 2 => .ok .posInf
    | 3 => .ok .negInf
    | 4 => .ok .qNaN
    | _ => bogus
  else
    let ndigits := v.length - 5
    -- also for fewer than five bytes, where the source's `ndigits` is negative
    if ndigits < 1 then bogus else do
      let isNeg ← match (sub 0).toNat with
        | 0 => .ok false
        | 1 => .ok true
        | _ => bogus
      let digit i := (sub (i + 1)).toNat
      let byte i : BitVec w := (sub (ndigits + 1 + i)).setWidth w <<< (8 * i)
      let exp := (byte 3 ||| (byte 2 ||| (byte 1 ||| byte 0))).toInt
      .ok (.flt isNeg ((List.range ndigits).map digit) exp)

/-- Digits 0 to 9, and an exponent that is an int of the host and fits in 32 bits. -/
def Pickled (w : ℕ) : FloatLit → Prop
  | .flt _ digits exp =>
    (∀ d ∈ digits, d ≤ 9) ∧ (-2 ^ (w - 1) ≤ exp ∧ exp < 2 ^ (w - 1)) ∧ -2 ^ 31 ≤ exp ∧ exp < 2 ^ 31
  | _ => True

/-- Some digit, which every constructor of literals sees to, and no sign to extend. -/
def Kept (w : ℕ) : FloatLit → Prop
  | .flt _ digits exp => digits ≠ [] ∧ (w = 63 → 0 ≤ exp)
  | _ => True

/-! ## The exponent -/

/-- Four bytes hold the low 32 bits of a word. -/
theorem bytes_word {w : ℕ} (x : BitVec w) :
    (expByte x 3).setWidth w <<< (8 * 3) ||| ((expByte x 2).setWidth w <<< (8 * 2) |||
      ((expByte x 1).setWidth w <<< (8 * 1) ||| (expByte x 0).setWidth w <<< (8 * 0))) =
    (x.setWidth 32).setWidth w := by
  apply BitVec.eq_of_getLsbD_eq
  intro i hi
  simp only [expByte, BitVec.getLsbD_or, BitVec.getLsbD_shiftLeft, BitVec.getLsbD_setWidth, BitVec.getLsbD_ushiftRight,
    hi, decide_true, Bool.true_and]
  by_cases h8 : i < 8
  · simp [show i < 32 by omega, show i < 24 by omega, show i < 16 by omega, h8, hi]
  by_cases h16 : i < 16
  · simp [show i < 32 by omega, show i < 24 by omega, h8, h16, show i - 8 < 8 by omega, show i - 8 < w by omega,
      show 8 + (i - 8) = i by omega]
  by_cases h24 : i < 24
  · simp [show i < 32 by omega, h24, h8, h16, show ¬ i - 8 < 8 by omega, show i - 16 < 8 by omega,
      show i - 16 < w by omega, show 16 + (i - 16) = i by omega]
  · have hiff : i - 24 < 8 ↔ i < 32 := by omega
    simp [h24, h8, h16, show ¬ i - 8 < 8 by omega, show ¬ i - 16 < 8 by omega, hiff, show i - 24 < w by omega,
      show 24 + (i - 24) = i by omega]

/-- What is read back of an exponent. -/
theorem word_toInt {w : ℕ} (hw : w = 31 ∨ w = 32 ∨ w = 63) {exp : ℤ} (hint : -2 ^ (w - 1) ≤ exp ∧ exp < 2 ^ (w - 1))
    (h32 : -2 ^ 31 ≤ exp ∧ exp < 2 ^ 31) :
    (((ofInt w exp).setWidth 32).setWidth w).toInt = exp ↔ (w = 63 → 0 ≤ exp) := by
  by_cases h63 : w = 63
  · subst h63
    have hnat : (((ofInt 63 exp).setWidth 32).setWidth 63).toNat = (exp % 2 ^ 63).toNat % 2 ^ 32 := by
      simp only [BitVec.toNat_setWidth, BitVec.toNat_ofInt]
      omega
    rw [BitVec.toInt_eq_toNat_of_lt (by omega), hnat]
    omega
  · have hle : w ≤ 32 := by omega
    rw [BitVec.setWidth_setWidth_of_le _ hle, BitVec.setWidth_eq]
    refine iff_of_true (BitVec.toInt_ofInt_eq_self (by omega) hint.1 hint.2) fun h => absurd h h63

/-! ## The round trip -/

/-- What is read of a sign, digits and four bytes. -/
theorem fromBytes_parts (w : ℕ) (isNeg : Bool) {digits : List ℕ} (hdigits : ∀ d ∈ digits, d ≤ 9) (hne : digits ≠ [])
    (b₀ b₁ b₂ b₃ : BitVec 8) :
    fromBytes w ((if isNeg then 1 else 0) :: (digits.map (ofNat 8) ++ [b₀, b₁, b₂, b₃])) =
      .ok (.flt isNeg digits (b₃.setWidth w <<< (8 * 3) ||| (b₂.setWidth w <<< (8 * 2) |||
        (b₁.setWidth w <<< (8 * 1) ||| b₀.setWidth w <<< (8 * 0)))).toInt) := by
  have hpos : 0 < digits.length := List.length_pos_iff.mpr hne
  have hread (es : List (BitVec 8)) : (List.range digits.length).map
      (fun i => ((digits.map (ofNat 8) ++ es)[i]?.getD 0#8).toNat) = digits := by
    refine List.ext_getElem (by simp) fun i hi hi' => ?_
    have hd := hdigits _ (List.getElem_mem hi')
    simp [hi', List.getElem?_append_left]
    omega
  cases isNeg <;>
    (simp [fromBytes, hpos.ne', hread, -BitVec.toInt_or]; rfl)

/-- On hosts of 31-, 32- and 63-bit words, a pickle is read back as its literal exactly when the literal has a digit
and no sign of an exponent is to be extended. -/
theorem fromBytes_toBytes_iff {w : ℕ} (hw : w = 31 ∨ w = 32 ∨ w = 63) {lit : FloatLit} (hlit : Pickled w lit) :
    fromBytes w (toBytes w lit) = .ok lit ↔ Kept w lit := by
  cases lit with
  | posInf | negInf | qNaN => exact iff_of_true rfl trivial
  | flt isNeg digits exp =>
    obtain ⟨hdigits, hint, h32⟩ := hlit
    by_cases hne : digits = []
    · subst hne
      have hbogus : fromBytes w (toBytes w (.flt isNeg [] exp)) = bogus := rfl
      exact iff_of_false (by simp [hbogus, bogus]) fun h => h.1 rfl
    · rw [toBytes, fromBytes_parts w isNeg hdigits hne, bytes_word, Kept, ← word_toInt hw hint h32]
      simp [hne]

theorem fromBytes_toBytes_one : (31 = 31 ∨ 31 = 32 ∨ 31 = 63) ∧ Pickled 31 (.flt false [1] (-1)) ∧
    fromBytes 31 (toBytes 31 (.flt false [1] (-1))) = .ok (.flt false [1] (-1)) := by
  have hlit : Pickled 31 (.flt false [1] (-1)) := by simp [Pickled]
  exact ⟨by decide, hlit, (fromBytes_toBytes_iff (by decide) hlit).mpr ⟨by decide, by decide⟩⟩

/-- 0.01, pickled with 63-bit words, is read back with another exponent. -/
theorem negative_exponent_lost : Pickled 63 (.flt false [1] (-1)) ∧
    fromBytes 63 (toBytes 63 (.flt false [1] (-1))) = .ok (.flt false [1] 4294967295) ∧
    fromBytes 63 (toBytes 63 (.flt false [1] (-1))) ≠ .ok (.flt false [1] (-1)) := by
  refine ⟨by simp [Pickled], by decide, by decide⟩

end Manticore.FloatLit
