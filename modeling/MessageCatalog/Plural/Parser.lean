import MessageCatalog.Plural.Assembly
import MessageCatalog.Plural.Token

namespace MessageCatalog.Plural

-- What reading the start of `ts` gave: code that ends in the step `root`, and the tokens left.
structure Parsed (ts : List Token) where
  root : Nat
  assembly : Assembly
  rest : List Token
  rest_lt : rest.length < ts.length

-- Where the next token stands, or where the text ends.
def Token.nextOffset (last : Nat) : List Token → Nat
  | []     => last
  | t :: _ => t.offset

namespace Parsed

variable {ts : List Token}

theorem tail_lt (p : Parsed ts) {t : Token} {us : List Token} (h : p.rest = t :: us) :
    us.length < ts.length := by
  have := p.rest_lt
  simp only [h, List.length_cons] at this
  omega

-- The same result, for tokens that `ts` is a later part of.
def widen (p : Parsed ts) {us : List Token} (h : ts.length ≤ us.length) : Parsed us :=
  { p with rest_lt := Nat.lt_of_lt_of_le p.rest_lt h }

def leave (p : Parsed ts) : Parsed ts :=
  { p with assembly := p.assembly.leave }

-- Appends a step that combines what has been read.
def add (p : Parsed ts) (s : Step) (offset : Nat) : Except Fault (Parsed ts) := do
  let (root, assembly) ← p.assembly.add s offset
  return { p with root, assembly }

-- Applies an operator, if there is one, to what has been read.
def apply (p : Parsed ts) (op? : Option UnaryOp) (offset : Nat) : Except Fault (Parsed ts) :=
  match op? with
  | none    => return p
  | some op => p.add (.unary op p.root) offset

-- Passes over a token after what has been read, which itself followed the token `t`.
def close (p : Parsed ts) {t u : Token} {us : List Token} (h : p.rest = u :: us) :
    Parsed (t :: ts) :=
  { p with rest := us, rest_lt := Nat.lt_succ_of_lt (p.tail_lt h) }

-- Appends a leaf, the first of the tokens.
def leaf (s : Step) (t : Token) (ts : List Token) (a : Assembly) :
    Except Fault (Parsed (t :: ts)) := do
  let (root, assembly) ← a.add s t.offset
  return { root, assembly, rest := ts, rest_lt := by simp }

end Parsed

-- What stands before an operand and applies to it. The operator `+` leaves no step.
def Lexeme.unary? : Lexeme → Option (Option UnaryOp)
  | not                => some (some .not)
  | operator .subtract => some (some .negate)
  | operator .add      => some none
  | _                  => none

namespace Parser

-- expression ::= binary ['?' expression ':' expression]
-- binary     ::= tiers of left associative operators over unary
-- unary      ::= ('!' | '-' | '+')* term
-- term       ::= 'n' | literal | '(' expression ')'
--
-- Every reader leaves fewer tokens than it was given, which is why reading ends.
mutual

def expression (last : Nat) (ts : List Token) (a : Assembly) : Except Fault (Parsed ts) := do
  let a ← a.enter (Token.nextOffset last ts)
  let test ← binary last BinaryOp.tiers ts a
  match h : test.rest with
  | ⟨.question, offset⟩ :: us =>
    let whenTrue ← expression last us test.assembly
    match h' : whenTrue.rest with
    | ⟨.colon, _⟩ :: vs =>
      let whenFalse ← expression last vs whenTrue.assembly
      let p ← whenFalse.add (.conditional test.root whenTrue.root whenFalse.root) offset
      return p.leave.widen (Nat.le_of_lt (Nat.lt_trans (whenTrue.tail_lt h') (test.tail_lt h)))
    | vs => throw ⟨.missingColon, Token.nextOffset last vs⟩
  | _ => return test.leave
termination_by (ts.length, BinaryOp.tiers + 3)
decreasing_by
  · exact .right _ (by decide)
  · exact .left _ _ (test.tail_lt h)
  · exact .left _ _ (Nat.lt_trans (whenTrue.tail_lt h') (test.tail_lt h))

-- Reads an operand of the operators beyond the first `tiers` tiers.
def binary (last : Nat) (tiers : Nat) (ts : List Token) (a : Assembly) : Except Fault (Parsed ts) :=
  match tiers with
  | 0        => unary last ts a
  | tier + 1 => do
    let left ← binary last tier ts a
    operators last tier left
termination_by (ts.length, tiers + 2)
decreasing_by
  · exact .right _ (by simp)
  · exact .right _ (by simp)
  · exact .left _ _ left.rest_lt

-- Reads on from `left` for as long as operators of one tier follow.
def operators (last : Nat) (tier : Nat) {ts : List Token} (left : Parsed ts) :
    Except Fault (Parsed ts) :=
  match h : left.rest with
  | ⟨.operator op, offset⟩ :: us =>
    if op.tier = tier then do
      let right ← binary last tier us left.assembly
      let p ← right.add (.binary op left.root right.root) offset
      operators last tier (p.widen (Nat.le_of_lt (left.tail_lt h)))
    else
      return left
  | _ => return left
termination_by (left.rest.length, 0)
decreasing_by
  · exact .left _ _ (by simp [h])
  · exact .left _ _ (by rw [h]; exact Nat.lt_succ_of_lt p.rest_lt)

def unary (last : Nat) (ts : List Token) (a : Assembly) : Except Fault (Parsed ts) :=
  match ts with
  | [] => throw ⟨.unexpectedEnd, last⟩
  | t :: us =>
    match t.lexeme.unary? with
    | none => term last t us a
    | some op? => do
      let p ← unary last us (← a.enter t.offset)
      let p ← p.apply op? t.offset
      return p.leave.widen (by simp)
termination_by (ts.length, 1)
decreasing_by
  · exact .right _ (by decide)
  · exact .left _ _ (by simp)

def term (last : Nat) (t : Token) (us : List Token) (a : Assembly) :
    Except Fault (Parsed (t :: us)) :=
  match t.lexeme with
  | .count => Parsed.leaf .count t us a
  | .number v => Parsed.leaf (.literal v) t us a
  | .openParen => do
    let p ← expression last us a
    match h : p.rest with
    | ⟨.closeParen, _⟩ :: vs => return p.close h
    | vs => throw ⟨.missingParenthesis, Token.nextOffset last vs⟩
  | _ => throw ⟨.unexpectedToken, t.offset⟩
termination_by (us.length + 1, 0)
decreasing_by exact .left _ _ (by simp)

end

end Parser

end MessageCatalog.Plural
