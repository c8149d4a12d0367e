import MessageCatalog.Number.Binary64
import MessageCatalog.Text.Blank
import MessageCatalog.Text.Digits

namespace MessageCatalog.Number

open Text

-- A sign and decimal digits, with those after the point apart. Any of them may be missing.
structure Numeral where
  negative : Bool
  whole : List Char
  decimals : List Char
  deriving DecidableEq

namespace Numeral

def readSign : List Char → Bool × List Char
  | '-' :: cs => (true, cs)
  | '+' :: cs => (false, cs)
  | cs        => (false, cs)

-- The numeral at the start of a text.
def read (text : List Char) : Numeral :=
  let (negative, cs) := readSign (trimStart isWhite text)
  { negative, whole := cs.takeWhile Char.isDigit, decimals := decimals (cs.dropWhile Char.isDigit) }
where
  decimals : List Char → List Char
    | '.' :: cs => cs.takeWhile Char.isDigit
    | _         => []

-- The number before the point.
def toInt (n : Numeral) : Int :=
  if n.negative then -decimalValue n.whole else decimalValue n.whole

-- The number before the point, or zero when 64 bits do not hold it.
def toInt64 (n : Numeral) : Int64 :=
  if Int64.minValue.toInt ≤ n.toInt ∧ n.toInt ≤ Int64.maxValue.toInt then
    Int64.ofInt n.toInt
  else
    0

-- The nearest binary number. Without any digit it is zero.
def toBinary64 (n : Numeral) : Binary64 :=
  let digits := n.whole ++ n.decimals
  if digits = [] then
    .zero
  else
    .ofRatio n.negative ((Ratio.ofNat (decimalValue digits)).scale .ten (-n.decimals.length))

end Numeral

end MessageCatalog.Number
