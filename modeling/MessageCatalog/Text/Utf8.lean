import MessageCatalog.Bytes

namespace MessageCatalog.Text.Utf8

-- A sequence that has begun: the value of its bits so far, the range in which its next byte has to
-- lie, and the number of bytes after that one.
structure Pending where
  value : Nat
  low : UInt8
  high : UInt8
  more : Nat
  deriving DecidableEq

-- What the first byte of a sequence of several bytes begins. The ranges leave out the encodings
-- that are too long, those of surrogates and those above U+10FFFF.
def lead? (b : UInt8) : Option Pending :=
  if 0xc2 ≤ b ∧ b ≤ 0xdf then some ⟨b.toNat - 0xc0, 0x80, 0xbf, 0⟩
  else if b = 0xe0 then some ⟨0x0, 0xa0, 0xbf, 1⟩
  else if b = 0xed then some ⟨0xd, 0x80, 0x9f, 1⟩
  else if 0xe1 ≤ b ∧ b ≤ 0xef then some ⟨b.toNat - 0xe0, 0x80, 0xbf, 1⟩
  else if b = 0xf0 then some ⟨0x0, 0x90, 0xbf, 2⟩
  else if 0xf1 ≤ b ∧ b ≤ 0xf3 then some ⟨b.toNat - 0xf0, 0x80, 0xbf, 2⟩
  else if b = 0xf4 then some ⟨0x4, 0x80, 0x8f, 2⟩
  else none

-- The characters that end with a byte, where `none` stands for an ill-formed part, and what is
-- pending after it.
abbrev Step := List (Option Char) × Option Pending

def first (b : UInt8) : Step :=
  if b < 0x80 then
    ([some (Char.ofNat b.toNat)], none)
  else
    match lead? b with
    | some p => ([], p)
    | none   => ([none], none)

def Pending.next (p : Pending) (b : UInt8) : Step :=
  if p.low ≤ b ∧ b ≤ p.high then
    let value := 64 * p.value + (b.toNat - 0x80)
    match p.more with
    | 0        => ([some (Char.ofNat value)], none)
    | more + 1 => ([], some ⟨value, 0x80, 0xbf, more⟩)
  else
    (none :: (first b).1, (first b).2)

def next : Option Pending → UInt8 → Step
  | none, b   => first b
  | some p, b => p.next b

-- The characters of some bytes, where `none` stands for an ill-formed part.
def scan (pending : Option Pending) : Bytes → List (Option Char)
  | []      => if pending = none then [] else [none]
  | b :: bs => (next pending b).1 ++ scan (next pending b).2 bs

-- Each ill-formed part is replaced by one of these.
def replacement : Char :=
  '\ufffd'

def decode (bytes : Bytes) : String :=
  String.ofList ((scan none bytes).map (·.getD replacement))

def isWellFormed (bytes : Bytes) : Bool :=
  (scan none bytes).all Option.isSome

end MessageCatalog.Text.Utf8
