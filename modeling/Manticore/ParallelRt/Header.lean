/-
  Manticore.ParallelRt.Header — header words of heap objects and the tests of the collectors on
  words (`include/header-bits.h`, `gc/gc-inline.h`, `include/heap.h`).

  A header is a length, the number of a table entry, and a tag bit. A forwarding pointer has the
  tag bit clear. Lengths are read back as a C `int`, numbers as 15 bits.
  - `getID_mixedHdr`, `getLength_mixedHdr`: what is read back from a header whose number fits.
  - `getID_lt`: a number read back fits, whatever was written.
  - `isForwardPtr_makeForwardPtr`, `getForwardPtr_makeForwardPtr`: forwarding pointers.
-/

import Mathlib

namespace Manticore.ParallelRt

open BitVec (ofNat toNat_and eq_of_getLsbD_eq getLsbD_and getLsbD_or getLsbD_shiftLeft toNat_ofNat)

/-- `Word_t`, `Addr_t` and `Value_t`. -/
abbrev Word := BitVec 64

/-! ## Headers -/

def fwdPtrTagBits : Nat := 3
def fwdPtrTag : Word := 0
def fwdPtrTagMask : Word := 7
def tableTagBits : Nat := 1
def tableTag : Word := 1
def tableLenId : Nat := 15
def vecTagBits : Nat := 1
def rawTagBits : Nat := 0

/-- `MIXED_HDR`. -/
def mixedHdr (id len : Nat) : Word :=
  (ofNat 64 len <<< (tableLenId + tableTagBits)) ||| (ofNat 64 id <<< tableTagBits) ||| tableTag

/-- `VEC_HDR`. -/
def vecHdr (len : Nat) : Word := mixedHdr vecTagBits len

/-- `RAW_HDR`. -/
def rawHdr (len : Nat) : Word := mixedHdr rawTagBits len

def getID (hdr : Word) : Nat := ((hdr >>> tableTagBits) &&& 0x7FFF#64).toNat

/-- The shifted header as a C `int`. -/
def getLength (hdr : Word) : Int := ((hdr >>> (tableLenId + tableTagBits)).setWidth 32).toInt

def isForwardPtr (hdr : Word) : Bool := hdr &&& fwdPtrTagMask == fwdPtrTag

def getForwardPtr (hdr : Word) : Word := hdr >>> fwdPtrTagBits

def makeForwardPtr (fp : Word) : Word := fp <<< fwdPtrTagBits

def isPtr (v : Word) : Bool := v &&& 3#64 == 0#64

def isNoPtr (hdr : Word) : Bool := hdr &&& 1#64 == tableTag

def isMixedHdr (hdr : Word) : Bool := decide (vecTagBits < getID hdr) && isNoPtr hdr

def isVectorHdr (hdr : Word) : Bool := getID hdr == vecTagBits && isNoPtr hdr

def isRawHdr (hdr : Word) : Bool := getID hdr == rawTagBits && isNoPtr hdr

/-! ## Reading back -/

theorem getID_lt (hdr : Word) : getID hdr < 2 ^ tableLenId := by
  unfold getID
  rw [toNat_and]
  exact Nat.lt_of_le_of_lt Nat.and_le_right (by decide)

theorem getID_mixedHdr (id len : Nat) : getID (mixedHdr id len) = id % 2 ^ tableLenId := by
  have hbits : ((mixedHdr id len) >>> tableTagBits) &&& 0x7FFF#64 = ofNat 64 id &&& 0x7FFF#64 := by
    apply eq_of_getLsbD_eq
    intro i hi
    have hmask : Nat.testBit 0x7FFF i = decide (i < 15) := Nat.testBit_two_pow_sub_one 15 i
    simp only [mixedHdr, tableTagBits, tableLenId, tableTag, getLsbD_and, BitVec.getLsbD_ushiftRight,
      getLsbD_or, getLsbD_shiftLeft, BitVec.getLsbD_ofNat, hmask]
    by_cases h : i < 15
    · grind
    · simp [h]
  unfold getID
  rw [hbits, toNat_and, toNat_ofNat, toNat_ofNat, show 0x7FFF % 2 ^ 64 = 2 ^ 15 - 1 from rfl,
    Nat.and_two_pow_sub_one_eq_mod, Nat.mod_mod_of_dvd _ (by decide)]
  rfl

theorem getLength_mixedHdr {id : Nat} (hid : id < 2 ^ tableLenId) (len : Nat) :
    getLength (mixedHdr id len) = (ofNat 32 len).toInt := by
  have hbits : ((mixedHdr id len) >>> (tableLenId + tableTagBits)).setWidth 32 = ofNat 32 len := by
    apply eq_of_getLsbD_eq
    intro i hi
    have hbit : Nat.testBit id (15 + i) = false :=
      Nat.testBit_lt_two_pow (Nat.lt_of_lt_of_le hid (Nat.pow_le_pow_right (by decide) (by unfold tableLenId; omega)))
    have h64 : i < 64 := by omega
    have h16 : 16 + i < 64 := by omega
    simp only [mixedHdr, tableTagBits, tableLenId, tableTag, BitVec.getLsbD_setWidth, BitVec.getLsbD_ushiftRight,
      getLsbD_or, getLsbD_shiftLeft, BitVec.getLsbD_ofNat]
    simp [hi, h64, h16, hbit, show 16 + i - 1 = 15 + i by omega]
  unfold getLength
  rw [hbits]

/-- A length is read back as itself exactly when it fits an `int`. -/
theorem toInt_ofNat_eq_iff (n : Nat) : (ofNat 32 n).toInt = n ↔ n < 2 ^ 31 := by
  constructor
  · grind
  · intro h
    rw [BitVec.toInt_eq_toNat_bmod, toNat_ofNat, Int.bmod_def]
    omega

/-! ## Forwarding pointers -/

theorem isForwardPtr_makeForwardPtr (fp : Word) : isForwardPtr (makeForwardPtr fp) = true := by
  unfold isForwardPtr makeForwardPtr fwdPtrTagMask fwdPtrTag fwdPtrTagBits
  rw [beq_iff_eq]
  apply eq_of_getLsbD_eq
  intro i hi
  rw [getLsbD_and, getLsbD_shiftLeft]
  by_cases h : i < 3
  · simp [h]
  · have hmask : BitVec.getLsbD (7 : Word) i = false := by
      show Nat.testBit 7 i = false
      exact Nat.testBit_lt_two_pow (Nat.lt_of_lt_of_le (by decide) (Nat.pow_le_pow_right (n := 2) (by decide) (by omega : 3 ≤ i)))
    rw [hmask]
    simp

/-- An address below `2 ^ 61` is read back. -/
theorem getForwardPtr_makeForwardPtr {q : Nat} (hq : q < 2 ^ 61) :
    (getForwardPtr (makeForwardPtr (ofNat 64 q))).toNat = q := by
  unfold getForwardPtr makeForwardPtr fwdPtrTagBits
  rw [BitVec.toNat_ushiftRight, BitVec.toNat_shiftLeft, toNat_ofNat, Nat.shiftLeft_eq, Nat.shiftRight_eq_div_pow]
  omega

end Manticore.ParallelRt
