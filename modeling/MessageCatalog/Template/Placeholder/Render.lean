import MessageCatalog.Template.Argument
import MessageCatalog.Template.Placeholder.Basic

namespace MessageCatalog

open Number

structure Rendering where
  sign : List Char
  body : List Char
  deriving DecidableEq

namespace Rendering

def length (r : Rendering) : Nat :=
  r.sign.length + r.body.length

-- Fills up to a width, counted in characters. Zeros stand between the sign and the body, and on
-- the right blanks stand for them.
def fill (r : Rendering) (f : Flags) (width : Nat) : List Char :=
  let missing := width - r.length
  if f.left then
    r.sign ++ r.body ++ List.replicate missing (if f.pad = '0' then ' ' else f.pad)
  else if f.pad = '0' then
    r.sign ++ List.replicate missing '0' ++ r.body
  else
    List.replicate missing f.pad ++ r.sign ++ r.body

end Rendering

def Flags.sign (f : Flags) (negative : Bool) : List Char :=
  if negative then ['-'] else if f.plus then ['+'] else []

-- The character with a code point, if there is one.
def characterText (n : Int64) : List Char :=
  if 0 ≤ n.toInt ∧ n.toInt.toNat.isValidChar then [Char.ofNat n.toInt.toNat] else []

-- The shortest numeral of an integer read as an unsigned one.
def unsignedText (base : Nat) (n : Int64) : List Char :=
  Nat.toDigits base n.toUInt64.toNat

def upperIf (upper : Bool) (text : List Char) : List Char :=
  if upper then text.map Char.toUpper else text

-- Scientific notation of the absolute value. The names of values that are not finite keep their
-- case.
def exponentText (precision : Nat) (upper : Bool) (x : Binary64) : List Char :=
  if x.isFinite then
    let s := x.magnitude.scientific precision
    s.mantissa ++ (if upper then 'E' else 'e') :: s.exponentText
  else
    x.specialText

def fixedText (precision : Nat) (x : Binary64) : List Char :=
  if x.isFinite then x.magnitude.fixed precision else x.specialText

-- The absolute value with at most `digits` significant digits and no zeros at the end, in
-- scientific notation when its exponent is below -4 or not below the number of digits. If not, the
-- value is rounded again, to as many decimals as leave that number of digits.
def generalText (digits : Nat) (upper : Bool) (x : Binary64) : List Char :=
  if x.isFinite then
    let s := x.magnitude.scientific (digits - 1)
    if s.exponent < -4 ∨ digits ≤ s.exponent then
      stripZeros s.mantissa ++ (if upper then 'E' else 'e') :: s.exponentText
    else
      stripZeros (x.magnitude.fixed (digits - 1 - s.exponent).toNat)
  else
    upperIf upper x.specialText

namespace Placeholder

-- Decimals, or significant digits, when no precision is given.
def defaultPrecision : Nat := 6

def precisionOrDefault (p : Placeholder) : Nat :=
  p.precision.getD defaultPrecision

def rendering (p : Placeholder) (a : Argument) : Rendering :=
  match p.conversion with
  | .text              => unsigned (p.precision.elim a.display (a.display.take ·))
  | .character         => unsigned (characterText a.toInt64)
  | .decimal           => signedInt a.toInt64.toInt
  | .integer           => signedInt a.toInt64.toInt
  | .unsigned          => unsigned (unsignedText 10 a.toInt64)
  | .binary            => unsigned (unsignedText 2 a.toInt64)
  | .octal             => unsigned (unsignedText 8 a.toInt64)
  | .hexadecimal upper => unsigned (upperIf upper (unsignedText 16 a.toInt64))
  | .fixed _           => signed (fixedText p.precisionOrDefault)
  | .exponent upper    => signed (exponentText p.precisionOrDefault upper)
  | .general upper     => signed (generalText (max 1 p.precisionOrDefault) upper)
where
  unsigned (body : List Char) : Rendering := { sign := [], body }
  signedInt (n : Int) : Rendering :=
    { sign := p.flags.sign (n < 0), body := Nat.toDigits 10 n.natAbs }
  signed (body : Binary64 → List Char) : Rendering :=
    { sign := p.flags.sign a.toBinary64.isNegative, body := body a.toBinary64 }

def render (p : Placeholder) (a : Argument) : List Char :=
  (p.rendering a).fill p.flags p.width

end Placeholder

end MessageCatalog
