namespace MessageCatalog

-- The ways to show an argument. Some have two letters, which differ in the case of their output
-- or not at all.
inductive Conversion
  | text
  | character
  | decimal
  | integer
  | unsigned
  | binary
  | octal
  | hexadecimal (upper : Bool)
  | fixed (upper : Bool)
  | exponent (upper : Bool)
  | general (upper : Bool)
  deriving DecidableEq

namespace Conversion

def letter : Conversion → Char
  | text              => 's'
  | character         => 'c'
  | decimal           => 'd'
  | integer           => 'i'
  | unsigned          => 'u'
  | binary            => 'b'
  | octal             => 'o'
  | hexadecimal false => 'x'
  | hexadecimal true  => 'X'
  | fixed false       => 'f'
  | fixed true        => 'F'
  | exponent false    => 'e'
  | exponent true     => 'E'
  | general false     => 'g'
  | general true      => 'G'

def all : List Conversion :=
  [text, character, decimal, integer, unsigned, binary, octal, hexadecimal false, hexadecimal true,
    fixed false, fixed true, exponent false, exponent true, general false, general true]

theorem mem_all (c : Conversion) : c ∈ all := by
  cases c <;> first | decide | (rename_i upper; cases upper <;> decide)

def ofLetter? (letter : Char) : Option Conversion :=
  all.find? (·.letter = letter)

@[simp]
theorem ofLetter?_letter (c : Conversion) : ofLetter? c.letter = some c := by
  cases c <;> first | rfl | (rename_i upper; cases upper <;> rfl)

end Conversion

structure Flags where
  left : Bool := false
  plus : Bool := false
  pad : Char := ' '
  deriving DecidableEq

-- Arguments are numbered from 1. Without a number, placeholders take one argument after the
-- other.
structure Placeholder where
  argument : Option Nat
  flags : Flags
  width : Nat
  precision : Option Nat
  conversion : Conversion
  deriving DecidableEq

-- The greatest argument number, width and precision.
def Placeholder.limit : Nat := 4096

end MessageCatalog
