import MessageCatalog.Number.Ratio

namespace MessageCatalog.Number

-- A sign, 11 bits of exponent and 52 bits of fraction.
structure Binary64 where
  bits : UInt64
  deriving DecidableEq

namespace Binary64

def fractionBits : Nat := 52

-- The weights of the lowest bit of the exponent and of the sign.
def exponentWeight : Nat := 0x10000000000000

def signWeight : Nat := 0x8000000000000000

-- The exponent field of what is not finite.
def specialField : Nat := 0x7ff

def lowestExponent : Int := -1074

def signBit (x : Binary64) : Bool :=
  signWeight ≤ x.bits.toNat

def exponentField (x : Binary64) : Nat :=
  x.bits.toNat % signWeight / exponentWeight

def fraction (x : Binary64) : Nat :=
  x.bits.toNat % exponentWeight

def isFinite (x : Binary64) : Bool :=
  x.exponentField < specialField

def isNaN (x : Binary64) : Bool :=
  x.exponentField = specialField ∧ x.fraction ≠ 0

def significand (x : Binary64) : Nat :=
  if x.exponentField = 0 then x.fraction else exponentWeight + x.fraction

def exponent (x : Binary64) : Int :=
  lowestExponent + (x.exponentField - 1 : Nat)

-- The absolute value of a finite number, `significand * 2 ^ exponent`.
def magnitude (x : Binary64) : Ratio :=
  (Ratio.ofNat x.significand).scale .two x.exponent

-- Below zero. Neither a zero nor a NaN is.
def isNegative (x : Binary64) : Bool :=
  x.signBit ∧ ¬x.isNaN ∧ (x.exponentField, x.fraction) ≠ (0, 0)

def infinityBits : Nat :=
  specialField * exponentWeight

def signed (negative : Bool) (bits : Nat) : Binary64 where
  bits := .ofNat (if negative then signWeight + bits else bits)

-- The exponent at which a positive quotient has as many bits as a significand may have.
def exponentFor (r : Ratio) : Int :=
  max lowestExponent (r.order .two - fractionBits)

-- The nearest number with a sign and an absolute value. A half goes to the even neighbour, and
-- what is too large becomes infinite.
def ofRatio (negative : Bool) (r : Ratio) : Binary64 :=
  if r.num = 0 then
    signed negative 0
  else
    let e := exponentFor r
    let significand := (r.scale .two (-e)).round
    signed negative (min infinityBits ((e - lowestExponent).toNat * exponentWeight + significand))

def ofInt (n : Int) : Binary64 :=
  ofRatio (n < 0) (.ofNat n.natAbs)

def zero : Binary64 :=
  ofInt 0

def nan : Binary64 :=
  signed false (infinityBits + exponentWeight / 2)

-- The number with the bits of a 32-bit one: a sign, 8 bits of exponent and 23 of fraction.
def ofBits32 (bits : UInt32) : Binary64 :=
  let negative : Bool := 0x80000000 ≤ bits.toNat
  let exponentField := bits.toNat % 0x80000000 / 0x800000
  let fraction := bits.toNat % 0x800000
  if exponentField = 0xff then
    if fraction = 0 then signed negative infinityBits else nan
  else
    let significand := if exponentField = 0 then fraction else 0x800000 + fraction
    ofRatio negative ((Ratio.ofNat significand).scale .two ((exponentField - 1 : Nat) - 149))

-- Cut toward zero and kept within 64 bits. A NaN gives zero.
def toInt64 (x : Binary64) : Int64 :=
  if x.isNaN then
    0
  else if ¬x.isFinite then
    if x.signBit then Int64.minValue else Int64.maxValue
  else if x.signBit then
    Int64.ofInt (max Int64.minValue.toInt (-x.magnitude.floor))
  else
    Int64.ofInt (min Int64.maxValue.toInt x.magnitude.floor)

end Binary64

end MessageCatalog.Number
