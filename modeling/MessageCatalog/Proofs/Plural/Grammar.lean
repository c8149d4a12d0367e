import MessageCatalog.Plural.Token

namespace MessageCatalog.Plural

-- The binary operators of C in their six levels, of which lower ones bind more tightly.
def BinaryOp.level : BinaryOp → Nat
  | multiply | divide | modulo                => 0
  | add | subtract                            => 1
  | less | lessEqual | greater | greaterEqual => 2
  | equal | notEqual                          => 3
  | and                                       => 4
  | or                                        => 5

theorem BinaryOp.level_lt (op : BinaryOp) : op.level < 6 := by
  cases op <;> decide

theorem BinaryOp.level_eq_tier (op : BinaryOp) : op.level = op.tier := by
  cases op <;> rfl

-- What `binary levels` derives can stand beside an operator that is of none of the first `levels`
-- levels.
inductive Category
  | expression
  | binary (levels : Nat)
  | unary
  | term
  deriving DecidableEq

-- The phrases of a category, with the expression that a phrase stands for and the number of
-- constructs that are open at its deepest place: an expression is open until its end, and an
-- operator before an operand until the end of the operand.
inductive Derives : Category → List Lexeme → Expr → Nat → Prop
  | count : Derives .term [.count] .count 0
  | literal (v : Literal) : Derives .term [.number v] (.literal v) 0
  | parentheses {ls : List Lexeme} {e : Expr} {d : Nat} (inner : Derives .expression ls e d) :
      Derives .term (.openParen :: ls ++ [.closeParen]) e d
  | term {ls : List Lexeme} {e : Expr} {d : Nat} (inner : Derives .term ls e d) :
      Derives .unary ls e d
  | not {ls : List Lexeme} {e : Expr} {d : Nat} (operand : Derives .unary ls e d) :
      Derives .unary (.not :: ls) (.unary .not e) (d + 1)
  | negate {ls : List Lexeme} {e : Expr} {d : Nat} (operand : Derives .unary ls e d) :
      Derives .unary (.operator .subtract :: ls) (.unary .negate e) (d + 1)
  | plus {ls : List Lexeme} {e : Expr} {d : Nat} (operand : Derives .unary ls e d) :
      Derives .unary (.operator .add :: ls) e (d + 1)
  | unary {ls : List Lexeme} {e : Expr} {d : Nat} (inner : Derives .unary ls e d) :
      Derives (.binary 0) ls e d
  | tighter {level : Nat} {ls : List Lexeme} {e : Expr} {d : Nat}
      (inner : Derives (.binary level) ls e d) : Derives (.binary (level + 1)) ls e d
  | binary (op : BinaryOp) {ls rs : List Lexeme} {l r : Expr} {d d' : Nat}
      (left : Derives (.binary (op.level + 1)) ls l d)
      (right : Derives (.binary op.level) rs r d') :
      Derives (.binary (op.level + 1)) (ls ++ .operator op :: rs) (.binary op l r) (max d d')
  | plain {ls : List Lexeme} {e : Expr} {d : Nat}
      (inner : Derives (.binary 6) ls e d) : Derives .expression ls e (d + 1)
  | conditional {ls ms ns : List Lexeme} {t a b : Expr} {d d' d'' : Nat}
      (test : Derives (.binary 6) ls t d) (whenTrue : Derives .expression ms a d')
      (whenFalse : Derives .expression ns b d'') :
      Derives .expression (ls ++ .question :: (ms ++ .colon :: ns)) (.conditional t a b)
        (max d (max d' d'') + 1)

theorem Derives.of_tier {op : BinaryOp} {ls rs : List Lexeme} {l r : Expr} {d d' : Nat}
    (left : Derives (.binary (op.tier + 1)) ls l d) (right : Derives (.binary op.tier) rs r d') :
    Derives (.binary (op.tier + 1)) (ls ++ .operator op :: rs) (.binary op l r) (max d d') := by
  rw [← op.level_eq_tier] at left right ⊢
  exact .binary op left right

namespace Category

-- The lexemes that can stand after a phrase only because the phrase goes on with them.
def continues : Category → Lexeme → Bool
  | expression, .operator _  => true
  | expression, .question    => true
  | binary levels, .operator op => op.level < levels
  | _, _                     => false

def Stops (c : Category) (ts : List Token) : Prop :=
  ∀ t ∈ ts.head?, c.continues t.lexeme = false

-- The category of the first operand of what is left associative.
def first : Category → Category
  | binary (level + 1) => binary level
  | c                  => c

variable {c : Category} {ts : List Token}

theorem stops_nil : c.Stops [] := by
  simp [Stops]

theorem stops_cons {t : Token} : c.Stops (t :: ts) ↔ c.continues t.lexeme = false := by
  simp [Stops]

theorem Stops.mono {c' : Category} (h : c.Stops ts)
    (hc : ∀ l, c'.continues l → c.continues l) : c'.Stops ts := by
  intro t ht
  cases hl : c'.continues t.lexeme
  case false => rfl
  case true  => exact absurd (hc _ hl) (by simp [h t ht])

theorem Stops.first (h : c.Stops ts) : c.first.Stops ts := by
  refine h.mono fun l hl => ?_
  match c, l with
  | .binary (level + 1), .operator op =>
    simp only [Category.first, continues, decide_eq_true_eq] at hl ⊢
    omega
  | .binary 0, _ | .expression, _ | .unary, _ | .term, _ => exact hl

theorem Stops.binary {levels : Nat} (h : Stops .expression ts) : Stops (.binary levels) ts :=
  h.mono fun l hl => by cases l <;> simp_all [continues]

theorem Stops.expression (h : Stops (.binary 6) ts)
    (hq : ∀ offset us, ts ≠ ⟨.question, offset⟩ :: us) : Stops .expression ts := by
  cases ts
  case nil => exact stops_nil
  case cons t us =>
    have ⟨l, offset⟩ := t
    replace h := stops_cons.mp h
    cases l
    case operator op => simp [continues, op.level_lt] at h
    case question    => exact absurd rfl (hq offset us)
    all_goals exact stops_cons.mpr rfl

-- The next level stops at an operator that is of none of the levels so far.
theorem Stops.succ {level : Nat} (h : Stops (.binary level) ts)
    (ht : ∀ op offset us, ts = ⟨.operator op, offset⟩ :: us → op.tier ≠ level) :
    Stops (.binary (level + 1)) ts := by
  cases ts
  case nil => exact stops_nil
  case cons t us =>
    have ⟨l, offset⟩ := t
    replace h := stops_cons.mp h
    cases l
    case operator op =>
      have ht := op.level_eq_tier ▸ ht op offset us rfl
      simp only [continues, decide_eq_false_iff_not] at h
      exact stops_cons.mpr (by simp only [continues, decide_eq_false_iff_not]; omega)
    all_goals exact stops_cons.mpr rfl

theorem stops_term : Stops .term ts := by
  intro t _
  cases h : t.lexeme <;> rfl

theorem stops_unary : Stops .unary ts := by
  intro t _
  cases h : t.lexeme <;> rfl

theorem stops_binary_zero : Stops (.binary 0) ts := by
  intro t _
  cases h : t.lexeme <;> simp [continues]

end Category

end MessageCatalog.Plural
