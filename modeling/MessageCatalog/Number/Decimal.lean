import MessageCatalog.Number.Ratio
import MessageCatalog.Text.Blank
import MessageCatalog.Text.Digits

namespace MessageCatalog.Number

open Text

-- `n * 10 ^ -places`, with all of its decimals.
def withPoint (places n : Nat) : List Char :=
  let digits := (decimal n).leftpad (places + 1) '0'
  if places = 0 then
    digits
  else
    digits.take (digits.length - places) ++ '.' :: digits.drop (digits.length - places)

-- Without the zeros that end the decimals, and without a point that ends the text.
def stripZeros (text : List Char) : List Char :=
  if '.' ∈ text then
    trimEnd (· = '.') (trimEnd (· = '0') text)
  else
    text

-- The number `digits * 10 ^ (exponent - places)`.
structure Scientific where
  places : Nat
  digits : Nat
  exponent : Int
  deriving DecidableEq

namespace Scientific

-- The digits with the point after the first.
def mantissa (s : Scientific) : List Char :=
  withPoint s.places s.digits

-- The sign of an exponent is always written.
def exponentText (s : Scientific) : List Char :=
  (if s.exponent < 0 then '-' else '+') :: decimal s.exponent.natAbs

end Scientific

namespace Ratio

def fixed (r : Ratio) (places : Nat) : List Char :=
  withPoint places (r.scale .ten places).round

-- Rounded to `places + 1` significant digits. Zero has the exponent 0.
def scientific (r : Ratio) (places : Nat) : Scientific :=
  let e := if r.num = 0 then 0 else r.order .ten
  let digits := (r.scale .ten (places - e)).round
  if digits < Radix.ten.power (places + 1) then
    { places, digits, exponent := e }
  else
    { places, digits := digits / 10, exponent := e + 1 }

end Ratio

end MessageCatalog.Number
