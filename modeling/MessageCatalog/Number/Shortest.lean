import MessageCatalog.Number.Binary64
import MessageCatalog.Number.Decimal

namespace MessageCatalog.Number

open Text

-- The reals between two bounds, which belong to it when it is closed.
structure Interval where
  low : Ratio
  high : Ratio
  closed : Bool

def Interval.contains (i : Interval) (r : Ratio) : Bool :=
  if i.closed then i.low ≤ r ∧ r ≤ i.high else i.low < r ∧ r < i.high

namespace Binary64

-- The reals that round to a positive number. Below a power of two numbers lie twice as dense.
def interval (x : Binary64) : Interval where
  low := (Ratio.ofNat (4 * x.significand - lowGap)).scale .two (x.exponent - 2)
  high := (Ratio.ofNat (4 * x.significand + 2)).scale .two (x.exponent - 2)
  closed := x.significand % 2 = 0
where
  lowGap : Nat := if x.fraction = 0 ∧ 1 < x.exponentField then 1 else 2

-- The nearer of the two neighbours of a number on the grid of the multiples of `10 ^ unit`, if it
-- reads back, or else the other one, if that does. Halfway the upper one is the nearer.
def onGrid (x : Binary64) (unit : Int) : Option Nat :=
  let r := x.magnitude.scale .ten (-unit)
  let below := r.floor
  let above := r.floor + 1
  let candidates := if r.half = .lt then [below, above] else [above, below]
  candidates.find? fun n => x.interval.contains ((Ratio.ofNat n).scale .ten unit)

-- Seventeen digits are enough for every number.
def mostDigits : Nat := 17

-- The digits of the shortest text that reads back, and the power of ten of the last one. Of the
-- texts of this length it is the one nearest to the number.
def shortest (x : Binary64) : Nat × Int :=
  let order := x.magnitude.order .ten
  let grid (count : Nat) : Option (Nat × Int) :=
    let unit := order - count
    (x.onGrid unit).map (·, unit)
  (List.range mostDigits).findSome? grid |>.getD (0, 0)

-- The shortest digits of a finite number in positional notation.
def positional (x : Binary64) : List Char :=
  if x.significand = 0 then
    ['0']
  else
    let (digits, unit) := x.shortest
    if 0 ≤ unit then
      decimal digits ++ List.replicate unit.toNat '0'
    else
      stripZeros (withPoint (-unit).toNat digits)

-- What stands for the absolute value of a number that is not finite.
def specialText (x : Binary64) : List Char :=
  if x.isNaN then ['N', 'a', 'N'] else ['i', 'n', 'f']

-- The text of a number. Zero keeps its sign, and a NaN has none.
def text (x : Binary64) : List Char :=
  let body := if x.isFinite then x.positional else x.specialText
  if x.signBit ∧ ¬x.isNaN then '-' :: body else body

end Binary64

end MessageCatalog.Number
