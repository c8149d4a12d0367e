import Mathlib.Data.Int.ModEq
import MessageCatalog.Proofs.Plural.Meaning

namespace MessageCatalog.Plural

-- The range of values.
def IsValue (x : Int) : Prop :=
  lowest ≤ x ∧ x < literalBound

instance : DecidablePred IsValue :=
  fun _ => inferInstanceAs (Decidable (_ ∧ _))

def UnaryOp.exact : UnaryOp → Int → Int
  | negate, x => -x
  | op, x     => op.denote x

def BinaryOp.exact : BinaryOp → Int → Int → Int
  | add, x, y      => x + y
  | subtract, x, y => x - y
  | multiply, x, y => x * y
  | divide, x, y   => x.tdiv y
  | modulo, x, y   => x.tmod y
  | op, x, y       => op.denote x y

-- What the left operand decides alone. The right one is not evaluated then.
def BinaryOp.decided? : BinaryOp → Int → Option Int
  | and, x => if x = 0 then some 0 else none
  | or, x  => if x = 0 then none else some 1
  | _, _   => none

def BinaryOp.divides : BinaryOp → Bool
  | divide | modulo => true
  | _               => false

namespace Expr

-- All results are exact, those of the operands that are evaluated included, and they are allowed.
-- There is no result of dividing by zero.
inductive Evaluates (allowed : Int → Prop) (n : Int) : Expr → Int → Prop
  | count (result : allowed n) : Evaluates allowed n .count n
  | literal (v : Literal) (result : allowed v.toNat) : Evaluates allowed n (.literal v) v.toNat
  | unary (op : UnaryOp) {e : Expr} {x : Int} (operand : Evaluates allowed n e x)
      (result : allowed (op.exact x)) : Evaluates allowed n (.unary op e) (op.exact x)
  | decided {op : BinaryOp} {l r : Expr} {x z : Int} (left : Evaluates allowed n l x)
      (decided : op.decided? x = some z) (result : allowed z) :
      Evaluates allowed n (.binary op l r) z
  | binary {op : BinaryOp} {l r : Expr} {x y : Int} (left : Evaluates allowed n l x)
      (undecided : op.decided? x = none) (right : Evaluates allowed n r y)
      (divisor : op.divides → y ≠ 0) (result : allowed (op.exact x y)) :
      Evaluates allowed n (.binary op l r) (op.exact x y)
  | whenTrue {t a b : Expr} {x y : Int} (test : Evaluates allowed n t x) (ne : x ≠ 0)
      (branch : Evaluates allowed n a y) : Evaluates allowed n (.conditional t a b) y
  | whenFalse {t a b : Expr} {y : Int} (test : Evaluates allowed n t 0)
      (branch : Evaluates allowed n b y) : Evaluates allowed n (.conditional t a b) y

-- Polynomials in the count.
inductive IsPolynomial : Expr → Prop
  | count : IsPolynomial .count
  | literal (v : Literal) : IsPolynomial (.literal v)
  | negate {e : Expr} (operand : IsPolynomial e) : IsPolynomial (.unary .negate e)
  | binary {op : BinaryOp} {l r : Expr} (ring : op ∈ [.add, .subtract, .multiply])
      (left : IsPolynomial l) (right : IsPolynomial r) : IsPolynomial (.binary op l r)

end Expr

section Range

variable {x y z : Int} {op : BinaryOp}

theorem wrap_of_isValue (h : IsValue x) : wrap x = x := by
  have ⟨hl, hu⟩ := h
  exact Int.bmod_eq_of_le hl hu

theorem UnaryOp.denote_eq_exact {op : UnaryOp} (h : IsValue (op.exact x)) :
    op.denote x = op.exact x := by
  cases op
  case not    => rfl
  case negate => exact wrap_of_isValue h

theorem not_isValue_tdiv : ¬IsValue (lowest.tdiv (-1)) := by
  rintro ⟨-, h⟩
  cases h

theorem BinaryOp.denote_eq_exact (divisor : op.divides → y ≠ 0) (h : IsValue (op.exact x y)) :
    op.denote x y = op.exact x y := by
  cases op
  case add | subtract | multiply => exact wrap_of_isValue h
  case divide =>
    rw [denote, if_neg (divisor rfl), if_neg, exact]
    rintro ⟨rfl, rfl⟩
    exact not_isValue_tdiv h
  case modulo =>
    rw [denote, if_neg (divisor rfl), exact]
    split
    case isTrue hm  => rw [hm.left, hm.right, Int.tmod_neg, Int.tmod_one]
    case isFalse hm => rfl
  all_goals rfl

theorem BinaryOp.denote_of_decided (h : op.decided? x = some z) (y : Int) :
    op.denote x y = z := by
  cases op
  case and | or =>
    rw [decided?] at h
    split at h <;> simp_all [denote]
  all_goals cases h

theorem wrap_modEq (x : Int) : wrap x ≡ x [ZMOD UInt64.size] :=
  Int.bmod_emod ..

end Range

namespace Expr

variable {n x : Int} {e : Expr}

-- By induction on the evaluation, which follows the path that is taken.
theorem denote_of_evaluates (h : e.Evaluates IsValue n x) : e.denote n = x := by
  induction h
  case count | literal => rfl
  case unary result ih => rw [denote, ih, UnaryOp.denote_eq_exact result]
  case decided decided _ ih => rw [denote, ih, BinaryOp.denote_of_decided decided]
  case binary divisor result ihl ihr =>
    rw [denote, ihl, ihr, BinaryOp.denote_eq_exact divisor result]
  case whenTrue ne _ iht iha => rw [denote, iht, if_pos ne, iha]
  case whenFalse iht ihb => rw [denote, iht, if_neg (by simp), ihb]

theorem evaluates_negate {allowed : Int → Prop} {z : Int} :
    (unary .negate e).Evaluates allowed n z ↔
      ∃ x, e.Evaluates allowed n x ∧ allowed (-x) ∧ z = -x := by
  constructor
  · intro h
    cases h
    case unary x result operand => exact ⟨x, operand, result, rfl⟩
  · rintro ⟨x, operand, result, rfl⟩
    exact .unary .negate operand result

-- Without division, both operands of an arithmetic operator are evaluated.
theorem evaluates_ring {allowed : Int → Prop} {op : BinaryOp} {l r : Expr} {z : Int}
    (ring : op ∈ [.add, .subtract, .multiply]) :
    (binary op l r).Evaluates allowed n z ↔
      ∃ x y, l.Evaluates allowed n x ∧ r.Evaluates allowed n y ∧ allowed (op.exact x y) ∧
        z = op.exact x y := by
  have ⟨hd, hv⟩ : (∀ x, op.decided? x = none) ∧ op.divides = false := by
    simp only [List.mem_cons, List.not_mem_nil, or_false] at ring
    rcases ring with rfl | rfl | rfl <;> exact ⟨fun _ => rfl, rfl⟩
  constructor
  · intro h
    cases h
    case decided x _ _ decided            => cases (hd x).symm.trans decided
    case binary x y _ _ result left right => exact ⟨x, y, left, right, result, rfl⟩
  · rintro ⟨x, y, left, right, result, rfl⟩
    exact .binary left (hd x) right (by simp [hv]) result

theorem denote_ring_modEq {op : BinaryOp} (ring : op ∈ [.add, .subtract, .multiply])
    {x x' y y' : Int} (hx : x ≡ x' [ZMOD UInt64.size]) (hy : y ≡ y' [ZMOD UInt64.size]) :
    op.denote x y ≡ op.exact x' y' [ZMOD UInt64.size] := by
  simp only [List.mem_cons, List.not_mem_nil, or_false] at ring
  rcases ring with rfl | rfl | rfl
  · exact (wrap_modEq _).trans (hx.add hy)
  · exact (wrap_modEq _).trans (hx.sub hy)
  · exact (wrap_modEq _).trans (hx.mul hy)

-- A polynomial has one exact value, of any size.
theorem modEq_of_isPolynomial (h : e.IsPolynomial) (n : Int) :
    ∃ x, (∀ z, e.Evaluates (fun _ => True) n z ↔ z = x) ∧ e.denote n ≡ x [ZMOD UInt64.size] := by
  induction h
  case count =>
    refine ⟨n, fun z => ⟨fun h => ?_, fun h => h ▸ .count trivial⟩, rfl⟩
    cases h
    rfl
  case literal v =>
    refine ⟨v.toNat, fun z => ⟨fun h => ?_, fun h => h ▸ .literal v trivial⟩, rfl⟩
    cases h
    rfl
  case negate ih =>
    have ⟨x, hx, hm⟩ := ih
    exact ⟨-x, by simp [evaluates_negate, hx], (wrap_modEq _).trans hm.neg⟩
  case binary op _ _ ring _ _ ihl ihr =>
    have ⟨x, hx, hm⟩ := ihl
    have ⟨y, hy, hm'⟩ := ihr
    exact ⟨op.exact x y, by simp [evaluates_ring ring, hx, hy], denote_ring_modEq ring hm hm'⟩

end Expr

namespace Rule

theorem value_eq_exact {source : String} {r : Rule} (h : parse source = .ok r) :
    (∃ e forms depth, States source forms e depth) ∧
      ∀ e forms depth, States source forms e depth → ∀ n : Int64,
        (∀ x, e.Evaluates IsValue n.toInt x → (r.value n).toInt = x) ∧
        (e.IsPolynomial →
          ∃ x, (∀ z, e.Evaluates (fun _ => True) n.toInt z ↔ z = x) ∧
            (r.value n).toInt ≡ x [ZMOD UInt64.size]) := by
  have ⟨e, depth, hs⟩ := states_of_parse h
  refine ⟨⟨e, r.forms, depth, hs⟩, fun e forms depth hs n => ?_⟩
  have hv : (r.value n).toInt = e.denote n.toInt := by
    rw [value, program_of_states h hs, e.value_program, e.toInt_value]
  exact ⟨fun x hx => hv.trans (Expr.denote_of_evaluates hx),
    fun hp => hv ▸ Expr.modEq_of_isPolynomial hp n.toInt⟩

-- A division by zero that is not reached, and a square that is too large for a value.
theorem value_eq_exact_unreached :
    (∃ r e forms depth, parse "nplurals=2; plural=n==0||9/n;" = .ok r ∧
      States "nplurals=2; plural=n==0||9/n;" forms e depth ∧ e.Evaluates IsValue 0 1 ∧
      (r.value 0).toInt = 1) ∧
    ∃ r e forms depth, parse "nplurals=2; plural=n*n;" = .ok r ∧
      States "nplurals=2; plural=n*n;" forms e depth ∧ e.IsPolynomial ∧
      ∃ x, (∀ z, e.Evaluates (fun _ => True) Int64.maxValue.toInt z ↔ z = x) ∧
        (r.value Int64.maxValue).toInt ≡ x [ZMOD UInt64.size] := by
  constructor
  · let e : Expr := .binary .or (.binary .equal .count (.literal ⟨0, by decide⟩))
      (.binary .divide (.literal ⟨9, by decide⟩) .count)
    have h : parse "nplurals=2; plural=n==0||9/n;" =
        .ok ⟨"nplurals=2; plural=n==0||9/n;", 2, e.program⟩ := by cbv
    obtain ⟨e', depth, hs⟩ := states_of_parse h
    have he : e = e' := Expr.program_injective (program_of_states h hs)
    have hx : e.Evaluates IsValue 0 1 :=
      .decided (.binary (.count (by decide)) rfl (.literal _ (by decide)) (by decide) (by decide))
        rfl (by decide)
    exact ⟨_, e', _, depth, h, hs, he ▸ hx, ((value_eq_exact h).right _ _ _ hs 0).left 1 (he ▸ hx)⟩
  · let e : Expr := .binary .multiply .count .count
    have h : parse "nplurals=2; plural=n*n;" =
        .ok ⟨"nplurals=2; plural=n*n;", 2, e.program⟩ := by cbv
    obtain ⟨e', depth, hs⟩ := states_of_parse h
    have he : e = e' := Expr.program_injective (program_of_states h hs)
    have hp : e.IsPolynomial := .binary (by decide) .count .count
    exact ⟨_, e', _, depth, h, hs, he ▸ hp,
      ((value_eq_exact h).right _ _ _ hs Int64.maxValue).right (he ▸ hp)⟩

end Rule

end MessageCatalog.Plural
