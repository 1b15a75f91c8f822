/-
  Manticore.Common.FloatToBits — the bit patterns of floating-point literals
  (tools/mc/common/float-to-bits-fn.sml).

  A literal has the value 0.d0…dn · 10^exp. `toBits` reads its digits as a whole number, scales
  it by a power of ten and rounds to the digits of the format. The scaling is done in floats of
  `precision` - 1 binary digits; `round (f, n)` keeps n - 1 digits and rounds half up. The powers
  10^(2^k) and 10^-(2^k) are kept in two caches, which the calls share.

  Words and ints are numbers without bound here. The exponent fields of the supported formats
  have at most 23 bits, so no word overflows in `pack`.
-/

import Manticore.Machine

namespace Manticore.Common.FloatToBits

/-- `IEEE_FLOAT_PARAMS`, with the checks of the functor. -/
structure FloatParams where
  width : Nat
  significant : Nat
  le_width : 16 ≤ width
  width_mod : width % 8 = 0
  le_significant : 11 ≤ significant
  significant_le : significant ≤ width - 5
  expWidth_le : width - significant ≤ 23

def IEEEFloat16Params : FloatParams := ⟨16, 11, by decide, by decide, by decide, by decide, by decide⟩
def IEEEFloat32Params : FloatParams := ⟨32, 24, by decide, by decide, by decide, by decide, by decide⟩
def IEEEFloat64Params : FloatParams := ⟨64, 53, by decide, by decide, by decide, by decide, by decide⟩
def IEEEFloat128Params : FloatParams := ⟨128, 113, by decide, by decide, by decide, by decide, by decide⟩
def IEEEFloat256Params : FloatParams := ⟨256, 237, by decide, by decide, by decide, by decide, by decide⟩

/-- `IEEEReal.float_class`. -/
inductive FloatClass where
  | quietNaN | inf | zero | normal | subnormal
  deriving DecidableEq, Repr

inductive Exn where
  | fail (msg : String)
  | overflow
  /-- `IntInf.log2` of a number that is not positive. -/
  | domain
  deriving DecidableEq, Repr

/-- A piece of the mantissa: its byte, its first bit and its number of bits. -/
structure Piece where
  byte : Nat
  start : Nat
  width : Nat
  deriving DecidableEq, Repr

/-- `float`: a whole fraction and an exponent of two. -/
structure Flt where
  frac : Nat
  exp : Int
  deriving DecidableEq, Repr

def numBitsForInt (n : Nat) : Nat := Nat.log2 n + 1

def round (float : Flt) (n : Nat) : Flt :=
  let shift := numBitsForInt float.frac + 1 - n
  if shift = 0 then float
  else
    { frac := if float.frac &&& (1 <<< (shift - 1)) = 0 then float.frac >>> shift else (float.frac >>> shift) + 1
      exp := float.exp + shift }

def ten : Flt := ⟨5, 1⟩

/-- `mk` of `tenth`: the first `n` binary digits of one tenth, for `n` at least 1. -/
def mkTenth : Nat → Flt
  | 0 | 1 => ⟨1, -4⟩
  | n + 1 =>
    let f := mkTenth n
    let tenthBit := match (n + 1) % 4 with
      | 1 | 2 => 1
      | _ => 0
    ⟨2 * f.frac + tenthBit, f.exp - 1⟩

namespace FloatParams

variable (fp : FloatParams)

def expWidth : Nat := fp.width - fp.significant
def maxExp : Int := 2 ^ (fp.expWidth - 1) - 1
def minExp : Int := 1 - fp.maxExp
def numBytes : Nat := fp.width / 8
def numMantBytes : Nat := (fp.significant + 6) / 8
def numExpBytes : Nat := (fp.expWidth + 8) / 8
def expShift : Nat := 8 * fp.numExpBytes - (fp.expWidth + 1)

def fracLayout : List Piece :=
  let firstByte := fp.numBytes - fp.numMantBytes
  let firstBitWidth := 8 - (fp.expWidth + 1) % 8
  (List.range fp.numMantBytes).map fun
    | 0 => ⟨firstByte, 1, firstBitWidth⟩
    | i + 1 => ⟨firstByte + (i + 1), firstBitWidth + 1 + i * 8, 8⟩

def precision : Nat := fp.significant + fp.expWidth + 4

def tenth : Flt := round (mkTenth (fp.precision + 1)) fp.precision

def mult (f₁ f₂ : Flt) : Flt := round ⟨f₁.frac * f₂.frac, f₁.exp + f₂.exp⟩ fp.precision

end FloatParams

/-! ## The powers of ten -/

/-- `cache`: an array whose first element is always there. -/
structure Cache where
  f0 : Flt
  rest : List (Option Flt)
  deriving DecidableEq, Repr

namespace Cache

def new (f0 : Flt) : Cache := ⟨f0, List.replicate 15 none⟩

def length (c : Cache) : Nat := c.rest.length + 1

def grow (c : Cache) (sz : Nat) : Cache :=
  { c with rest := c.rest ++ List.replicate (max (sz + 1) (2 * c.length) - c.length) none }

/-- `Array.update (arr, n, SOME flt)`. -/
def update (c : Cache) (n : Nat) (flt : Flt) : Cache := { c with rest := c.rest.set (n - 1) (some flt) }

/-- `get` within `access (cache, n)`; what it computes goes to place `n`. -/
def get (fp : FloatParams) (n : Nat) : Nat → Cache → Flt × Cache
  | 0, c => (c.f0, c)
  | i + 1, c =>
    match c.rest.getD i none with
    | some flt => (flt, c)
    | none =>
      let (prev, c) := get fp n i c
      let flt := fp.mult prev prev
      (flt, c.update n flt)

def access (fp : FloatParams) (c : Cache) (n : Nat) : Flt × Cache :=
  if n < c.length then c.get fp n n else (c.grow n).get fp n n

end Cache

/-- `pos10` and `neg10`. -/
structure Caches where
  pos10 : Cache
  neg10 : Cache
  deriving DecidableEq, Repr

namespace FloatParams

variable (fp : FloatParams)

def caches : Caches := ⟨.new ten, .new fp.tenth⟩

def pow10_2 (c : Caches) (n : Int) : Flt × Caches :=
  if n = 0 then (⟨1, 0⟩, c)
  else if n > 0 then
    let (f, pos10) := c.pos10.access fp (n - 1).toNat
    (f, { c with pos10 })
  else
    let (f, neg10) := c.neg10.access fp (-n - 1).toNat
    (f, { c with neg10 })

/-- `raisep`; the first argument bounds the number of rounds. -/
def raisep (sign : Int) : Nat → Flt → Nat → Nat → Caches → Flt × Caches
  | 0, f, _, _, c => (f, c)
  | fuel + 1, f, e, p, c =>
    if e = 0 then (f, c)
    else if e &&& 1 = 1 then
      let (g, c) := fp.pow10_2 c (sign * p)
      raisep sign fuel (fp.mult f g) (e >>> 1) (p + 1) c
    else raisep sign fuel f (e >>> 1) (p + 1) c

def raiseToPower (c : Caches) (f : Flt) (e : Int) : Flt × Caches :=
  if e = 0 then (f, c)
  else fp.raisep (if e < 0 then -1 else 1) e.natAbs f e.natAbs 1 c

end FloatParams

/-! ## The bytes -/

def w2b (w : Nat) : BitVec 8 := BitVec.ofNat 8 w

/-- `getBits` of `makebits`. -/
def getBits (frac : Nat) : Nat → Nat → Nat → Nat → Nat
  | 0, _, _, bits => bits
  | i + 1, fracBit, bit, bits =>
    if 0 < fracBit then
      getBits frac i (fracBit >>> 1) (bit >>> 1) (if frac &&& fracBit = 0 then bits else bits ||| bit)
    else bits

def makebits (frac start width : Nat) : BitVec 8 :=
  if frac = 0 then 0
  else
    let highBit := 1 <<< (numBitsForInt frac - 1)
    w2b (getBits frac width (highBit >>> start) (1 <<< (width - 1)) 0)

/-- `orb (i, b)`. -/
def orb (bytes : List (BitVec 8)) (i : Nat) (b : BitVec 8) : List (BitVec 8) :=
  bytes.set i (bytes.getD i 0 ||| b)

namespace FloatParams

variable (fp : FloatParams)

def pack (isNeg : Bool) (exp frac : Nat) : List (BitVec 8) :=
  let bytes := List.replicate fp.numBytes 0
  let bytes := if isNeg then bytes.set 0 0x80 else bytes
  let alignedExp := exp <<< fp.expShift
  let bytes := (List.range fp.numExpBytes).foldl
    (fun bytes i => orb bytes i (w2b (alignedExp >>> (8 * (fp.numExpBytes - i - 1))))) bytes
  fp.fracLayout.foldl (fun bytes p => orb bytes p.byte (makebits frac p.start p.width)) bytes

def specialExp : Nat := 1 <<< fp.expWidth - 1

def posInf : List (BitVec 8) := fp.pack false fp.specialExp 0
def negInf : List (BitVec 8) := fp.pack true fp.specialExp 0
def quietNaN : List (BitVec 8) := fp.pack false fp.specialExp 3

/-- The digits as a whole number, and the exponent of ten that goes with it. -/
def wholeNumber (digits : List Nat) (exp : Int) : Nat × Int :=
  digits.foldl (fun (m, e) d => (d + 10 * m, e - 1)) (0, exp)

/-- The literal in base 2, before the last rounding. -/
def scaled (c : Caches) (digits : List Nat) (exp : Int) : Flt × Caches :=
  let (frac_10, exp_10) := wholeNumber digits exp
  fp.raiseToPower c (round ⟨frac_10, 0⟩ fp.precision) exp_10

def toBits (c : Caches) (lit : FloatLit) : Except Exn (List (BitVec 8) × FloatClass) × Caches :=
  match lit with
  | .posInf => (.ok (fp.posInf, .inf), c)
  | .negInf => (.ok (fp.negInf, .inf), c)
  | .qNaN => (.ok (fp.quietNaN, .quietNaN), c)
  | .flt isNeg digits exp =>
    if digits = [0] then (.ok (fp.pack isNeg 0 0, .zero), c)
    else if (wholeNumber digits exp).1 = 0 then (.error .domain, c)
    else
      let (flt, c) := fp.scaled c digits exp
      let ⟨frac, exp⟩ := round flt (fp.significant + 1)
      let exp := exp + numBitsForInt frac - 1
      let biasedExp := (exp + fp.maxExp).toNat
      if exp < fp.minExp then (.error (.fail "subnormal floats are not yet implemented"), c)
      else if fp.maxExp < exp then (.error .overflow, c)
      else (.ok (fp.pack isNeg biasedExp frac, .normal), c)

end FloatParams

end Manticore.Common.FloatToBits
