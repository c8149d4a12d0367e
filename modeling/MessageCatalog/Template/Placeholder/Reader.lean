import MessageCatalog.Outcome
import MessageCatalog.Template.Placeholder.Basic
import MessageCatalog.Text.Cursor
import MessageCatalog.Text.Digits

namespace MessageCatalog

open Text

-- What is wrong with a placeholder.
inductive Flaw
  | argumentTooLarge
  | argumentZero
  | missingPad
  | widthTooLarge
  | precisionTooLarge
  | unknownConversion
  | missingConversion
  deriving DecidableEq

def Flaw.text : Flaw → String
  | argumentTooLarge  => "argument number too large"
  | argumentZero      => "argument number must be greater than zero"
  | missingPad        => "missing padding character"
  | widthTooLarge     => "width too large"
  | precisionTooLarge => "precision too large"
  | unknownConversion => "unknown conversion"
  | missingConversion => "missing conversion"

namespace Placeholder

-- Reads a number, if there is one.
def readNumber (flaw : Flaw) (c : Cursor) : Except Flaw (Option Nat × Cursor) :=
  match c.run Char.isDigit with
  | []     => .ok (none, c)
  | digits =>
    if decimalValue digits ≤ limit then
      .ok (decimalValue digits, c.skip digits.length)
    else
      .error flaw

-- Reads a number that a dollar sign follows. Other digits are left for the flags and the width.
def readArgument (c : Cursor) : Except Flaw (Option Nat × Cursor) :=
  match (c.skipRun Char.isDigit).rest with
  | '$' :: _ => do
    match ← readNumber .argumentTooLarge c with
    | (some 0, _)  => .error .argumentZero
    | (some n, c') => .ok (n, c'.skip 1)
    | (none, _)    => .ok (none, c)
  | _ => .ok (none, c)

-- Reads flags for as long as there are any. The last one of a kind counts.
def readFlags (f : Flags) (offset : Nat) : List Char → Except Flaw (Flags × Cursor)
  | '-' :: cs       => readFlags { f with left := true } (offset + 1) cs
  | '+' :: cs       => readFlags { f with plus := true } (offset + 1) cs
  | ' ' :: cs       => readFlags { f with pad := ' ' } (offset + 1) cs
  | '0' :: cs       => readFlags { f with pad := '0' } (offset + 1) cs
  | '\'' :: c :: cs => readFlags { f with pad := c } (offset + 1 + c.utf8Size) cs
  | ['\'']          => .error .missingPad
  | cs              => .ok (f, ⟨offset, cs⟩)

-- Reads a point and a precision, which is 0 when no digits follow the point.
def readPrecision (c : Cursor) : Except Flaw (Option Nat × Cursor) :=
  match c.rest with
  | '.' :: _ => do
    let (n, c) ← readNumber .precisionTooLarge (c.skip 1)
    return (n.getD 0, c)
  | _ => .ok (none, c)

def readConversion (c : Cursor) : Except Flaw (Conversion × Cursor) :=
  match c.rest with
  | []          => .error .missingConversion
  | letter :: _ =>
    match Conversion.ofLetter? letter with
    | none            => .error .unknownConversion
    | some conversion => .ok (conversion, c.skip 1)

-- The placeholder at a cursor that stands behind the percent sign.
def read (c : Cursor) : Except Flaw (Placeholder × Cursor) := do
  let (argument, c) ← readArgument c
  let (flags, c) ← readFlags {} c.offset c.rest
  let (width, c) ← readNumber .widthTooLarge c
  let (precision, c) ← readPrecision c
  let (conversion, c) ← readConversion c
  return ({ argument, flags, width := width.getD 0, precision, conversion }, c)

section Length

variable {c c' : Cursor} {n : Option Nat}

theorem length_le_of_readNumber {flaw : Flaw} (h : readNumber flaw c = .ok (n, c')) :
    c'.rest.length ≤ c.rest.length := by
  grind [readNumber, Cursor.length_rest_skip_le]

theorem length_le_of_readArgument (h : readArgument c = .ok (n, c')) :
    c'.rest.length ≤ c.rest.length := by
  unfold readArgument at h
  split at h
  case h_1 =>
    obtain ⟨⟨m, d⟩, hd, h⟩ := Outcome.bind_eq_ok.mp h
    grind [length_le_of_readNumber hd, Cursor.length_rest_skip_le]
  case h_2 => grind

theorem length_le_of_readFlags {f f' : Flags} {offset : Nat} {cs : List Char}
    (h : readFlags f offset cs = .ok (f', c')) : c'.rest.length ≤ cs.length := by
  fun_induction readFlags f offset cs <;> grind

theorem length_le_of_readPrecision (h : readPrecision c = .ok (n, c')) :
    c'.rest.length ≤ c.rest.length := by
  unfold readPrecision at h
  split at h
  case h_1 =>
    obtain ⟨⟨m, d⟩, hd, h⟩ := Outcome.bind_eq_ok.mp h
    obtain ⟨-, rfl⟩ := Prod.mk.inj (Outcome.pure_eq_ok.mp h)
    exact Nat.le_trans (length_le_of_readNumber hd) (Cursor.length_rest_skip_le ..)
  case h_2 => grind

theorem length_le_of_readConversion {k : Conversion} (h : readConversion c = .ok (k, c')) :
    c'.rest.length ≤ c.rest.length := by
  grind [readConversion, Cursor.length_rest_skip_le]

theorem length_le_of_read {p : Placeholder} (h : read c = .ok (p, c')) :
    c'.rest.length ≤ c.rest.length := by
  obtain ⟨⟨_, _⟩, h₁, h⟩ := Outcome.bind_eq_ok.mp h
  obtain ⟨⟨_, _⟩, h₂, h⟩ := Outcome.bind_eq_ok.mp h
  obtain ⟨⟨_, _⟩, h₃, h⟩ := Outcome.bind_eq_ok.mp h
  obtain ⟨⟨_, _⟩, h₄, h⟩ := Outcome.bind_eq_ok.mp h
  obtain ⟨⟨_, _⟩, h₅, h⟩ := Outcome.bind_eq_ok.mp h
  obtain ⟨-, rfl⟩ := Prod.mk.inj (Outcome.pure_eq_ok.mp h)
  calc
    _ ≤ _ := length_le_of_readConversion h₅
    _ ≤ _ := length_le_of_readPrecision h₄
    _ ≤ _ := length_le_of_readNumber h₃
    _ ≤ _ := length_le_of_readFlags h₂
    _ ≤ _ := length_le_of_readArgument h₁

end Length

end Placeholder

end MessageCatalog
