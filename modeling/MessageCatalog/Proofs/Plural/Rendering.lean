import MessageCatalog.Proofs.Plural.Language
import MessageCatalog.Proofs.Plural.Spacing

namespace MessageCatalog.Plural

-- An expression together with the parentheses around its parts.
inductive Writing
  | count
  | literal (value : Literal)
  | unary (op : UnaryOp) (operand : Writing)
  | binary (op : BinaryOp) (left right : Writing)
  | conditional (test whenTrue whenFalse : Writing)
  | parentheses (inner : Writing)

def UnaryOp.lexeme : UnaryOp → Lexeme
  | not    => .not
  | negate => .operator .subtract

-- The precedence of C, in which looser operators have higher numbers. What is in parentheses has 0,
-- an operator before its operand has 1, and a conditional comes last, after `||`.
def BinaryOp.looseness : BinaryOp → Nat
  | multiply | divide | modulo                => 2
  | add | subtract                            => 3
  | less | lessEqual | greater | greaterEqual => 4
  | equal | notEqual                          => 5
  | and                                       => 6
  | or                                        => 7

theorem BinaryOp.looseness_eq (op : BinaryOp) : op.looseness = op.level + 2 := by
  cases op <;> rfl

namespace Writing

def expr : Writing → Expr
  | count             => .count
  | literal v         => .literal v
  | unary op w        => .unary op w.expr
  | binary op l r     => .binary op l.expr r.expr
  | conditional t a b => .conditional t.expr a.expr b.expr
  | parentheses w     => w.expr

def lexemes : Writing → List Lexeme
  | count             => [.count]
  | literal v         => [.number v]
  | unary op w        => op.lexeme :: w.lexemes
  | binary op l r     => l.lexemes ++ .operator op :: r.lexemes
  | conditional t a b => t.lexemes ++ .question :: (a.lexemes ++ .colon :: b.lexemes)
  | parentheses w     => .openParen :: w.lexemes ++ [.closeParen]

-- The number of constructs that are open at the deepest place: parentheses, branches of
-- conditionals, and operators before their operand.
def opened : Writing → Nat
  | count | literal _ => 0
  | unary _ w         => w.opened + 1
  | binary _ l r      => max l.opened r.opened
  | conditional t a b => max t.opened (max (a.opened + 1) (b.opened + 1))
  | parentheses w     => w.opened + 1

def looseness : Writing → Nat
  | count | literal _ | parentheses _ => 0
  | unary _ _                         => 1
  | binary op _ _                     => op.looseness
  | conditional _ _ _                 => 8

-- The parentheses that C needs are there. Binary operators are left associative, conditionals are
-- right associative, and any expression can stand between `?` and `:`.
inductive Legal : Writing → Prop
  | count : Legal .count
  | literal (v : Literal) : Legal (.literal v)
  | unary (op : UnaryOp) {w : Writing} (operand : w.Legal) (tight : w.looseness ≤ 1) :
      Legal (.unary op w)
  | binary {op : BinaryOp} {l r : Writing} (left : l.Legal) (right : r.Legal)
      (tight : l.looseness ≤ op.looseness) (tighter : r.looseness < op.looseness) :
      Legal (.binary op l r)
  | conditional {t a b : Writing} (test : t.Legal) (whenTrue : a.Legal) (whenFalse : b.Legal)
      (tight : t.looseness ≤ BinaryOp.or.looseness) : Legal (.conditional t a b)
  | parentheses {w : Writing} (inner : w.Legal) : Legal (.parentheses w)

end Writing

namespace Derives

variable {ls : List Lexeme} {e : Expr} {d k k' : Nat}

theorem mono (h : Derives (.binary k) ls e d) (hk : k ≤ k') : Derives (.binary k') ls e d := by
  induction hk
  case refl    => exact h
  case step ih => exact .tighter ih

theorem of_binary_zero (h : Derives (.binary 0) ls e d) : Derives .unary ls e d := by
  cases h
  assumption

end Derives

namespace Writing

variable {w : Writing}

-- The grammar derives a writing in each place where it binds tightly enough.
structure Derived (w : Writing) : Prop where
  operand {levels : Nat} (le : levels ≤ 6) (tight : w.looseness ≤ levels + 1) :
    Derives (.binary levels) w.lexemes w.expr w.opened
  expression : Derives .expression w.lexemes w.expr (w.opened + 1)

theorem derived_of_binary {k : Nat} (h : Derives (.binary k) w.lexemes w.expr w.opened)
    (hk : k ≤ 6) (hw : k ≤ w.looseness - 1) : w.Derived where
  operand _ tight := h.mono (by omega)
  expression      := .plain (h.mono hk)

theorem derived_of_unary (h : Derives .unary w.lexemes w.expr w.opened) : w.Derived :=
  derived_of_binary (.unary h) (Nat.zero_le _) (Nat.zero_le _)

theorem Legal.derived (h : w.Legal) : w.Derived := by
  induction h
  case count          => exact derived_of_unary (.term .count)
  case literal v      => exact derived_of_unary (.term (.literal v))
  case parentheses ih => exact derived_of_unary (.term (.parentheses ih.expression))
  case unary op _ _ tight ih =>
    have hd := ih.operand (Nat.zero_le _) tight |>.of_binary_zero
    cases op
    case not    => exact derived_of_unary (.not hd)
    case negate => exact derived_of_unary (.negate hd)
  case binary op _ _ _ _ tight tighter ihl ihr =>
    have hv := op.level_lt
    have ho := op.looseness_eq
    have hl : Derives (.binary (op.level + 1)) _ _ _ := ihl.operand hv (by omega)
    have hr : Derives (.binary op.level) _ _ _ := ihr.operand (by omega) (by omega)
    refine derived_of_binary (.binary op hl hr) hv ?_
    simp only [looseness]
    omega
  case conditional tight iht iha ihb =>
    have hd := Derives.conditional (iht.operand le_rfl tight) iha.expression ihb.expression
    refine ⟨fun le tight => ?_, ?_⟩
    -- No level is loose enough for a conditional.
    · simp only [looseness] at tight
      omega
    · simpa only [lexemes, expr, opened, Nat.add_max_add_right] using hd

-- Puts a writing between parentheses if it binds too loosely.
def within (bound : Nat) (w : Writing) : Writing :=
  if w.looseness ≤ bound then w else .parentheses w

theorem expr_within (bound : Nat) (w : Writing) : (w.within bound).expr = w.expr := by
  unfold within
  split <;> rfl

theorem looseness_within_le (bound : Nat) (w : Writing) : (w.within bound).looseness ≤ bound := by
  unfold within
  split
  case isTrue h => exact h
  case isFalse  => exact Nat.zero_le bound

theorem Legal.within (h : w.Legal) (bound : Nat) : (w.within bound).Legal := by
  unfold Writing.within
  split
  case isTrue  => exact h
  case isFalse => exact .parentheses h

end Writing

namespace Expr

-- A writing with parentheses only where they are needed.
def write : Expr → Writing
  | count             => .count
  | literal v         => .literal v
  | unary op e        => .unary op (e.write.within 1)
  | binary op l r     =>
    .binary op (l.write.within op.looseness) (r.write.within (op.looseness - 1))
  | conditional t a b => .conditional (t.write.within BinaryOp.or.looseness) a.write b.write

theorem expr_write (e : Expr) : e.write.expr = e := by
  induction e <;> simp_all [write, Writing.expr, Writing.expr_within]

theorem legal_write (e : Expr) : e.write.Legal := by
  induction e
  case count   => exact .count
  case literal => exact .literal _
  case unary op _ ih => exact .unary op (ih.within 1) (Writing.looseness_within_le ..)
  case binary op _ r ihl ihr =>
    have hr := r.write.looseness_within_le (op.looseness - 1)
    have ho := op.looseness_eq
    exact .binary (ihl.within _) (ihr.within _) (Writing.looseness_within_le ..) (by omega)
  case conditional iht iha ihb =>
    exact .conditional (iht.within _) iha ihb (Writing.looseness_within_le ..)

-- Every expression can be written down.
theorem exists_writing (e : Expr) :
    ∃ w : Writing, w.Legal ∧ w.expr = e ∧ ∃ cs, Lexeme.Spaced cs w.lexemes :=
  ⟨e.write, e.legal_write, e.expr_write, _, Lexeme.spaced_text _⟩

end Expr

namespace Program

variable {w : Writing} {cs : List Char}

-- Reading gives code, from which the expression can be told.
theorem parse_writing (legal : w.Legal) (spaced : Lexeme.Spaced cs w.lexemes)
    (opened : w.opened + 1 ≤ 64) (height : w.expr.height ≤ 256) (size : w.expr.size ≤ 65536)
    (offset : Nat) (e : Expr) : parse ⟨offset, cs⟩ = .ok e.program ↔ e = w.expr := by
  have hd := legal.derived.expression
  have hs : Lexeme.Splits (Text.Cursor.rest ⟨offset, cs⟩) w.lexemes :=
    Lexeme.splits_of_spaced hd spaced
  have hf : ({} : Assembly).Fits w.expr (w.opened + 1) := by
    refine ⟨?_, height, ?_⟩
    · rw [Nat.zero_add]
      exact opened
    · rw [List.size_toArray, List.length_nil, Nat.zero_add]
      exact size
  cases parse_of_derives hs hd
  case inl hx =>
    rw [hx.right]
    constructor
    · intro h
      exact (Expr.program_injective (Except.ok.inj h)).symm
    · intro h
      rw [h]
  case inr hx => exact absurd hf hx.left

theorem parse_writing_difference :
    ∃ e : Expr, ∃ w : Writing, w = e.write ∧
      e = .binary .subtract .count (.binary .subtract .count (.literal ⟨2, by decide⟩)) ∧
      w.Legal ∧ Lexeme.Spaced "n-(n- 2)".toList w.lexemes ∧ w.opened + 1 ≤ 64 ∧
      w.expr.height ≤ 256 ∧ w.expr.size ≤ 65536 ∧
      ∀ e', parse ⟨21, "n-(n- 2)".toList⟩ = .ok e'.program ↔ e' = w.expr := by
  let e : Expr := .binary .subtract .count (.binary .subtract .count (.literal ⟨2, by decide⟩))
  have hs : Lexeme.Spaced "n-(n- 2)".toList e.write.lexemes :=
    .word (w := ['n']) (Lexeme.spells_text .count) <|
      .word (w := ['-']) (Lexeme.spells_text (.operator .subtract)) <|
      .word (w := ['(']) (Lexeme.spells_text .openParen) <|
      .word (w := ['n']) (Lexeme.spells_text .count) <|
      .word (w := ['-']) (Lexeme.spells_text (.operator .subtract)) <|
      .blank (by decide) <|
      .word (w := ['2']) (.number (by decide) (List.forall_mem_singleton.mpr rfl) (by decide)) <|
      .word (w := [')']) (Lexeme.spells_text .closeParen) .nil
  have hl := e.legal_write
  exact ⟨e, e.write, rfl, rfl, hl, hs, by decide, by decide, by decide,
    parse_writing hl hs (by decide) (by decide) (by decide) 21⟩

end Program

end MessageCatalog.Plural
