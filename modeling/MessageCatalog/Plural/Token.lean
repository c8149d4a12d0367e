import MessageCatalog.Plural.Expr
import MessageCatalog.Plural.Fault
import MessageCatalog.Text.Blank
import MessageCatalog.Text.Digits

namespace MessageCatalog.Plural

open Text

inductive Lexeme
  | count
  | number (value : Literal)
  | openParen
  | closeParen
  | question
  | colon
  | not
  | operator (op : BinaryOp)
  deriving DecidableEq

def BinaryOp.text : BinaryOp → List Char
  | or           => ['|', '|']
  | and          => ['&', '&']
  | equal        => ['=', '=']
  | notEqual     => ['!', '=']
  | less         => ['<']
  | lessEqual    => ['<', '=']
  | greater      => ['>']
  | greaterEqual => ['>', '=']
  | add          => ['+']
  | subtract     => ['-']
  | multiply     => ['*']
  | divide       => ['/']
  | modulo       => ['%']

namespace Lexeme

def text : Lexeme → List Char
  | count       => ['n']
  | number v    => decimal v.toNat
  | openParen   => ['(']
  | closeParen  => [')']
  | question    => ['?']
  | colon       => [':']
  | not         => ['!']
  | operator op => op.text

-- The lexemes of one spelling each. A longer spelling comes before the shorter one it extends.
def spelled : List Lexeme :=
  [count, openParen, closeParen, question, colon, operator .or, operator .and, operator .equal,
    operator .notEqual, operator .lessEqual, operator .greaterEqual, not, operator .less,
    operator .greater, operator .add, operator .subtract, operator .multiply, operator .divide,
    operator .modulo]

-- The lexeme at the start of a text, and its length.
def read (cs : List Char) : Except Reason (Lexeme × Nat) :=
  match cs.takeWhile Char.isDigit with
  | [] =>
    match spelled.find? (·.text.isPrefixOf cs) with
    | some l => .ok (l, l.text.length)
    | none   => .error .unexpectedCharacter
  | digits =>
    if h : decimalValue digits < literalBound then
      .ok (number ⟨decimalValue digits, h⟩, digits.length)
    else
      .error .numberTooLarge

theorem length_text_pos (l : Lexeme) : 0 < l.text.length := by
  cases l
  case number     => exact Nat.length_toDigits_pos
  case operator o => cases o <;> decide
  all_goals decide

theorem length_pos_of_read {cs : List Char} {l : Lexeme} {length : Nat}
    (h : read cs = .ok (l, length)) : 0 < length := by
  unfold read at h
  split at h
  case h_1 =>
    split at h
    case h_1 =>
      obtain ⟨-, rfl⟩ := Prod.mk.inj (Except.ok.inj h)
      exact length_text_pos _
    case h_2 => cases h
  case h_2 digits =>
    split at h
    case isTrue =>
      obtain ⟨-, rfl⟩ := Prod.mk.inj (Except.ok.inj h)
      exact List.length_pos_iff.mpr digits
    case isFalse => cases h

end Lexeme

structure Token where
  lexeme : Lexeme
  offset : Nat
  deriving DecidableEq

-- The tokens of a text that starts at an offset. Lexemes and blanks are ASCII.
def Token.scan (offset : Nat) : List Char → Except Fault (List Token)
  | [] => .ok []
  | c :: cs =>
    if isBlank c then
      scan (offset + 1) cs
    else
      match _h : Lexeme.read (c :: cs) with
      | .error reason        => .error ⟨reason, offset⟩
      | .ok (lexeme, length) => do
        let ts ← scan (offset + length) ((c :: cs).drop length)
        return ⟨lexeme, offset⟩ :: ts
termination_by cs => cs.length
decreasing_by
  · exact Nat.lt_succ_self _
  · have := Lexeme.length_pos_of_read _h
    simp only [List.length_drop, List.length_cons]
    omega

end MessageCatalog.Plural
