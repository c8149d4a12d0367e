import MessageCatalog.Proofs.Plural.Language

namespace MessageCatalog.Plural

-- The values are the integers from the lowest one up to the one below its negative.
def lowest : Int := -literalBound

-- The value that an integer wraps around to.
def wrap (x : Int) : Int :=
  x.bmod UInt64.size

def UnaryOp.denote : UnaryOp → Int → Int
  | not, x    => if x = 0 then 1 else 0
  | negate, x => wrap (-x)

def BinaryOp.denote : BinaryOp → Int → Int → Int
  | or, x, y           => if x ≠ 0 ∨ y ≠ 0 then 1 else 0
  | and, x, y          => if x ≠ 0 ∧ y ≠ 0 then 1 else 0
  | equal, x, y        => if x = y then 1 else 0
  | notEqual, x, y     => if x ≠ y then 1 else 0
  | less, x, y         => if x < y then 1 else 0
  | lessEqual, x, y    => if x ≤ y then 1 else 0
  | greater, x, y      => if y < x then 1 else 0
  | greaterEqual, x, y => if y ≤ x then 1 else 0
  | add, x, y          => wrap (x + y)
  | subtract, x, y     => wrap (x - y)
  | multiply, x, y     => wrap (x * y)
  | divide, x, y       =>
    if y = 0 then 0 else if x = lowest ∧ y = -1 then lowest else x.tdiv y
  | modulo, x, y       =>
    if y = 0 then 0 else if x = lowest ∧ y = -1 then 0 else x.tmod y

def Expr.denote (n : Int) : Expr → Int
  | count             => n
  | literal v         => v.toNat
  | unary op e        => op.denote (e.denote n)
  | binary op l r     => op.denote (l.denote n) (r.denote n)
  | conditional t a b => if t.denote n ≠ 0 then a.denote n else b.denote n

theorem toInt_truth (b : Bool) : (truth b).toInt = if b then 1 else 0 := by
  cases b <;> rfl

theorem toInt_eq_zero_iff {x : Int64} : x.toInt = 0 ↔ x = 0 := by
  rw [← Int64.toInt_zero, Int64.toInt_inj]

theorem Literal.toInt_value (v : Literal) : v.value.toInt = v.toNat :=
  Int64.toInt_ofNat_of_lt v.toNat_lt

theorem UnaryOp.toInt_apply (op : UnaryOp) (x : Int64) :
    (op.apply x).toInt = op.denote x.toInt := by
  cases op
  case not    => simp [apply, denote, toInt_truth, toInt_eq_zero_iff]
  case negate => exact Int64.toInt_neg x

theorem toInt_eq_lowest_iff {x : Int64} : x.toInt = lowest ↔ x = Int64.minValue := by
  rw [← Int64.toInt_inj]
  rfl

theorem toInt_eq_neg_one_iff {x : Int64} : x.toInt = -1 ↔ x = -1 := by
  rw [← Int64.toInt_inj]
  rfl

-- The only quotient that is too large for a value is that of the lowest value and -1.
theorem toInt_div (x y : Int64) :
    (x / y).toInt =
      if x.toInt = lowest ∧ y.toInt = -1 then lowest else x.toInt.tdiv y.toInt := by
  simp only [toInt_eq_lowest_iff, toInt_eq_neg_one_iff]
  split
  case isTrue h =>
    have ⟨hx, hy⟩ := h
    rw [hx, hy, Int64.minValue_div_neg_one, toInt_eq_lowest_iff]
  case isFalse h =>
    cases Decidable.not_and_iff_or_not.mp h
    case inl hx => exact Int64.toInt_div_of_ne_left x y hx
    case inr hy => exact Int64.toInt_div_of_ne_right x y hy

theorem toInt_mod (x y : Int64) :
    (x % y).toInt = if x.toInt = lowest ∧ y.toInt = -1 then 0 else x.toInt.tmod y.toInt := by
  rw [Int64.toInt_mod]
  split
  case isTrue h  => rw [h.left, h.right, Int.tmod_neg, Int.tmod_one]
  case isFalse h => rfl

theorem BinaryOp.toInt_apply (op : BinaryOp) (x y : Int64) :
    (op.apply x y).toInt = op.denote x.toInt y.toInt := by
  cases op
  case add      => exact Int64.toInt_add x y
  case subtract => exact Int64.toInt_sub x y
  case multiply => exact Int64.toInt_mul x y
  case divide =>
    by_cases hy : y = 0
    case pos => simp [apply, denote, hy]
    case neg => rw [apply, denote, if_neg hy, if_neg (hy ∘ toInt_eq_zero_iff.mp), toInt_div]
  case modulo =>
    by_cases hy : y = 0
    case pos => simp [apply, denote, hy]
    case neg => rw [apply, denote, if_neg hy, if_neg (hy ∘ toInt_eq_zero_iff.mp), toInt_mod]
  all_goals
    simp [apply, denote, toInt_truth, toInt_eq_zero_iff, Int64.toInt_inj, Int64.lt_iff_toInt_lt,
      Int64.le_iff_toInt_le]

namespace Expr

theorem toInt_value (e : Expr) (n : Int64) : (e.value n).toInt = e.denote n.toInt := by
  induction e
  case count => rfl
  case literal v => exact v.toInt_value
  case unary op e ih =>
    rw [value, denote, op.toInt_apply, ih]
  case binary op l r ihl ihr =>
    rw [value, denote, op.toInt_apply, ihl, ihr]
  case conditional t a b iht iha ihb =>
    simp only [value, denote, ← iht, ne_eq, toInt_eq_zero_iff]
    split
    case isTrue  => exact iha
    case isFalse => exact ihb

-- Appends the value of a step to those of the earlier ones.
def compute (n : Int64) (earlier : Array Int64) (s : Step) : Array Int64 :=
  earlier.push (s.value n earlier)

variable {n : Int64} {earlier : Array Int64}

theorem compute_unary (op : UnaryOp) (e : Expr) :
    compute n (e.layOut (value n) earlier) (.unary op (earlier.size + e.size - 1)) =
      (unary op e).layOut (value n) earlier := by
  rw [compute, Step.value, getD_layOut, layOut_unary, value]

theorem compute_binary (op : BinaryOp) (l r : Expr) :
    compute n (r.layOut (value n) (l.layOut (value n) earlier))
        (.binary op (earlier.size + l.size - 1) (earlier.size + l.size + r.size - 1)) =
      (binary op l r).layOut (value n) earlier := by
  have ⟨hl, hr⟩ := @operands_binary _ (value n) earlier l r 0
  rw [compute, Step.value, hl, hr, layOut_binary, value]

theorem compute_conditional (t a b : Expr) :
    compute n (b.layOut (value n) (a.layOut (value n) (t.layOut (value n) earlier)))
        (.conditional (earlier.size + t.size - 1) (earlier.size + t.size + a.size - 1)
          (earlier.size + t.size + a.size + b.size - 1)) =
      (conditional t a b).layOut (value n) earlier := by
  have ⟨ht, ha, hb⟩ := @operands_conditional _ (value n) earlier t a b 0
  rw [compute, Step.value, ht, ha, hb, layOut_conditional, value]

-- The steps of an expression lay out the values of its parts.
theorem foldl_steps (n : Int64) (e : Expr) (earlier : Array Int64) :
    (e.steps earlier.size).foldl (compute n) earlier = e.layOut (value n) earlier := by
  induction e generalizing earlier
  case count | literal =>
    exact Array.toList_inj.mp (by simp [compute, steps, layOut, postorder, Step.value, value])
  case unary op e ih =>
    rw [steps, List.foldl_append, ih]
    exact compute_unary op e
  case binary op l r ihl ihr =>
    have hr := ihr (l.layOut (value n) earlier)
    rw [size_layOut] at hr
    rw [steps, List.foldl_append, List.foldl_append, ihl, hr]
    exact compute_binary op l r
  case conditional t a b iht iha ihb =>
    have ha := iha (t.layOut (value n) earlier)
    have hb := ihb (a.layOut (value n) (t.layOut (value n) earlier))
    rw [size_layOut] at ha
    rw [size_layOut, size_layOut] at hb
    rw [steps, List.foldl_append, List.foldl_append, List.foldl_append, iht, ha, hb]
    exact compute_conditional t a b

theorem value_program (n : Int64) (e : Expr) : e.program.value n = e.value n := by
  have hv : e.program.values n = e.layOut (value n) #[] := by
    rw [← foldl_steps]
    exact List.foldl_toArray ..
  rw [Program.value, hv, back_layOut]
  rfl

end Expr

namespace Rule

-- The code of a rule is that of any expression its text states.
theorem program_of_states {source : String} {r : Rule} (h : parse source = .ok r) {e : Expr}
    {forms depth : Nat} (hs : States source forms e depth) : r.program = e.program := by
  cases parse_of_states hs
  case inl hx => exact congrArg Rule.program (Except.ok.inj (h.symm.trans hx.right))
  case inr hx =>
    have ⟨_, f, hx, _⟩ := hx
    cases h.symm.trans hx

theorem select_eq (r : Rule) (n : Int64) :
    r.select n = if 0 ≤ (r.value n).toInt then some (r.value n).toInt.toNat else none := by
  have hn : r.value n < 0 ↔ ¬0 ≤ (r.value n).toInt := by
    rw [Int64.lt_iff_toInt_lt, Int64.toInt_zero, Int.not_le]
  simp only [select, hn, ite_not]
  rfl

theorem select_eq_denote {source : String} {r : Rule} (h : parse source = .ok r) :
    ∃ e, (∀ e', (∃ forms depth, States source forms e' depth) ↔ e' = e) ∧
      ∀ n : Int64,
        (r.value n).toInt = e.denote n.toInt ∧
        r.select n = if 0 ≤ e.denote n.toInt then some (e.denote n.toInt).toNat else none := by
  have ⟨e, depth, hs⟩ := states_of_parse h
  have hp := program_of_states h hs
  refine ⟨e, fun e' => ⟨?unique, ?stated⟩, fun n => ?means⟩
  case unique =>
    intro ⟨forms, depth', hs'⟩
    exact Expr.program_injective ((program_of_states h hs').symm.trans hp)
  case stated =>
    intro he
    exact ⟨r.forms, depth, he ▸ hs⟩
  case means =>
    have hv : (r.value n).toInt = e.denote n.toInt := by
      rw [value, hp, e.value_program, e.toInt_value]
    exact ⟨hv, hv ▸ r.select_eq n⟩

-- Differences are left associative, and a product binds more tightly.
theorem select_levels :
    ∃ source r e, source = "nplurals=3; plural=n-1-1*2==0?2:n<1&&n||3;" ∧ parse source = .ok r ∧
      e = .conditional
        (.binary .equal
          (.binary .subtract (.binary .subtract .count (.literal ⟨1, by decide⟩))
            (.binary .multiply (.literal ⟨1, by decide⟩) (.literal ⟨2, by decide⟩)))
          (.literal ⟨0, by decide⟩))
        (.literal ⟨2, by decide⟩)
        (.binary .or
          (.binary .and (.binary .less .count (.literal ⟨1, by decide⟩)) .count)
          (.literal ⟨3, by decide⟩)) ∧
      (∀ e', (∃ forms depth, States source forms e' depth) ↔ e' = e) ∧
      (∀ n : Int64,
        (r.value n).toInt = e.denote n.toInt ∧
        r.select n = if 0 ≤ e.denote n.toInt then some (e.denote n.toInt).toNat else none) ∧
      r.select 3 = some 2 := by
  have h : parse "nplurals=3; plural=n-1-1*2==0?2:n<1&&n||3;" =
      .ok ⟨"nplurals=3; plural=n-1-1*2==0?2:n<1&&n||3;", 3, ⟨#[
        .count, .literal ⟨1, by decide⟩, .binary .subtract 0 1, .literal ⟨1, by decide⟩,
        .literal ⟨2, by decide⟩, .binary .multiply 3 4, .binary .subtract 2 5,
        .literal ⟨0, by decide⟩, .binary .equal 6 7, .literal ⟨2, by decide⟩, .count,
        .literal ⟨1, by decide⟩, .binary .less 10 11, .count, .binary .and 12 13,
        .literal ⟨3, by decide⟩, .binary .or 14 15, .conditional 8 9 16]⟩⟩ := by
    cbv
  obtain ⟨e, hu, hv⟩ := select_eq_denote h
  obtain ⟨_, _, hs⟩ := (hu e).mpr rfl
  refine ⟨_, _, e, rfl, h, Expr.program_injective (program_of_states h hs).symm, hu, hv, ?_⟩
  decide

end Rule

end MessageCatalog.Plural
