import MessageCatalog.Number.Numeral
import MessageCatalog.Number.Shortest

namespace MessageCatalog

open Number

-- The types of integers. A size is as wide as the widest of them.
inductive IntegerType
  | i8 | i16 | i32 | i64 | isize
  | u8 | u16 | u32 | u64 | usize
  deriving DecidableEq

namespace IntegerType

def low : IntegerType → Int
  | i8          => Int8.minValue.toInt
  | i16         => Int16.minValue.toInt
  | i32         => Int32.minValue.toInt
  | i64 | isize => Int64.minValue.toInt
  | _           => 0

def high : IntegerType → Int
  | i8          => Int8.maxValue.toInt
  | i16         => Int16.maxValue.toInt
  | i32         => Int32.maxValue.toInt
  | i64 | isize => Int64.maxValue.toInt
  | u8          => UInt8.size - 1
  | u16         => UInt16.size - 1
  | u32         => UInt32.size - 1
  | u64 | usize => UInt64.size - 1

end IntegerType

-- An integer of a type.
structure Integer (t : IntegerType) where
  value : Int
  low_le : t.low ≤ value
  le_high : value ≤ t.high

namespace Integer

variable {t : IntegerType}

theorem minValue_le (n : Integer t) : Int64.minValue.toInt ≤ n.value :=
  Int.le_trans (by cases t <;> decide) n.low_le

-- The same integer, for types in which none is too large.
def fitted (n : Integer t) (h : t.high ≤ Int64.maxValue.toInt) : Int64 :=
  .ofIntLE n.value n.minValue_le (Int.le_trans n.le_high h)

-- The greatest integer instead of one that is too large.
def saturated (n : Integer t) : Int64 :=
  if h : n.value ≤ Int64.maxValue.toInt then
    .ofIntLE n.value n.minValue_le h
  else
    .maxValue

-- The lowest 64 bits.
def wrapped (n : Integer t) : Int64 :=
  .ofInt n.value

end Integer

-- Each kind of argument can stand where another one is asked for: a text is read for the number at
-- its start, and a number is shown as text.
inductive Argument
  | int (value : Int64)
  | float (value : Binary64)
  | text (value : String)
  deriving DecidableEq

namespace Argument

def ofInteger : {t : IntegerType} → Integer t → Argument
  | .i8, n | .i16, n | .i32, n | .i64, n | .u8, n | .u16, n | .u32, n => .int (n.fitted (by decide))
  | .u64, n | .usize, n                                               => .int n.saturated
  | .isize, n                                                         => .int n.wrapped

-- An integer of any size, kept within 64 bits.
def ofInt (n : Int) : Argument :=
  .int (.ofInt (max Int64.minValue.toInt (min Int64.maxValue.toInt n)))

-- The count that an argument stands for.
def count? : Argument → Option Int64
  | int n => some n
  | _     => none

def toInt64 : Argument → Int64
  | int n   => n
  | float x => x.toInt64
  | text s  => (Numeral.read s.toList).toInt64

def toBinary64 : Argument → Binary64
  | int n   => .ofInt n.toInt
  | float x => x
  | text s  => (Numeral.read s.toList).toBinary64

def display : Argument → List Char
  | int n   => (toString n.toInt).toList
  | float x => x.text
  | text s  => s.toList

end Argument

end MessageCatalog
