import MessageCatalog.Proofs.Plural.Phrases

namespace MessageCatalog.Plural

variable {a : Assembly} {f : Fault} {s : Step} {offset : Nat} {ts us vs : List Token}

namespace Assembly

theorem enter_of_lt (h : a.opened < openLimit) (offset : Nat) : a.enter offset = .ok a.deeper :=
  if_neg (by omega)

theorem enter_of_le (h : openLimit ≤ a.opened) (offset : Nat) :
    a.enter offset = .error ⟨.nestedTooDeeply, offset⟩ :=
  if_pos h

-- Only the place that is reported depends on the offset.
theorem add_eq_error (h : a.add s offset = .error f) :
    f.IsLimit ∧ ∀ offset', a.add s offset' = .error ⟨f.reason, offset'⟩ := by
  unfold add at h ⊢
  split at h
  case isTrue hh =>
    cases h
    exact ⟨.inl rfl, fun _ => if_pos hh⟩
  case isFalse hh =>
    split at h
    case isTrue hs =>
      cases h
      exact ⟨.inr rfl, fun _ => by rw [if_neg hh, if_pos hs]⟩
    case isFalse => cases h

end Assembly

theorem Parsed.add_eq_error {p : Parsed ts} (h : p.add s offset = .error f) :
    f.IsLimit ∧ ∀ (ts' : List Token) (p' : Parsed ts') offset', p'.assembly = p.assembly →
      p'.add s offset' = .error ⟨f.reason, offset'⟩ := by
  cases Outcome.bind_eq_error.mp h
  case inr h =>
    have ⟨_, _, h⟩ := h
    cases h
  case inl h =>
    have ⟨hl, h⟩ := Assembly.add_eq_error h
    exact ⟨hl, fun ts' p' offset' hp => by rw [add, hp, h]; rfl⟩

namespace Parser

variable {last : Nat}

-- An expression has been read up to its question mark.
structure Tested (last : Nat) (ts : List Token) (a : Assembly) (x : Parsed ts) (offset : Nat)
    (us : List Token) : Prop where
  opened : a.opened < Assembly.openLimit
  test   : binary last BinaryOp.tiers ts a.deeper = .ok x
  rest   : x.rest = ⟨.question, offset⟩ :: us

-- An expression has been read up to its colon.
structure Branched (last : Nat) (ts : List Token) (a : Assembly) (x : Parsed ts) (offset : Nat)
    (us : List Token) (y : Parsed us) (vs : List Token) : Prop where
  tested   : Tested last ts a x offset us
  whenTrue : expression last us x.assembly = .ok y
  rest     : ∃ offset', y.rest = ⟨.colon, offset'⟩ :: vs

inductive ExpressionFault (last : Nat) (ts : List Token) (a : Assembly) : Fault → Prop
  | enter (ho : Assembly.openLimit ≤ a.opened) :
      ExpressionFault last ts a ⟨.nestedTooDeeply, Token.nextOffset last ts⟩
  | test {f : Fault} (ho : a.opened < Assembly.openLimit)
      (h : binary last BinaryOp.tiers ts a.deeper = .error f) : ExpressionFault last ts a f
  | whenTrue {x : Parsed ts} {offset : Nat} {us : List Token} {f : Fault}
      (hx : Tested last ts a x offset us) (h : expression last us x.assembly = .error f) :
      ExpressionFault last ts a f
  | colon {x : Parsed ts} {offset : Nat} {us : List Token} {y : Parsed us}
      (hx : Tested last ts a x offset us) (hy : expression last us x.assembly = .ok y)
      (hn : ∀ offset' vs, y.rest ≠ ⟨.colon, offset'⟩ :: vs) :
      ExpressionFault last ts a ⟨.missingColon, Token.nextOffset last y.rest⟩
  | whenFalse {x : Parsed ts} {offset : Nat} {us vs : List Token} {y : Parsed us} {f : Fault}
      (hy : Branched last ts a x offset us y vs) (h : expression last vs y.assembly = .error f) :
      ExpressionFault last ts a f
  | conditional {x : Parsed ts} {offset : Nat} {us vs : List Token} {y : Parsed us} {z : Parsed vs}
      {f : Fault} (hy : Branched last ts a x offset us y vs)
      (hz : expression last vs y.assembly = .ok z)
      (h : z.add (.conditional x.root y.root z.root) offset = .error f) :
      ExpressionFault last ts a f

theorem expressionFault_of_error (h : expression last ts a = .error f) :
    ExpressionFault last ts a f := by
  rw [expression] at h
  by_cases ho : a.opened < Assembly.openLimit
  case neg =>
    have ho : Assembly.openLimit ≤ a.opened := by omega
    rw [Assembly.enter_of_le ho] at h
    cases h
    exact .enter ho
  case pos =>
    rw [Assembly.enter_of_lt ho, Outcome.ok_bind] at h
    cases Outcome.bind_eq_error.mp h
    case inl h => exact .test ho h
    case inr h =>
      obtain ⟨x, hx, h⟩ := h
      split at h
      case h_2 => cases h
      case h_1 hr =>
        have hx : Tested last ts a x _ _ := ⟨ho, hx, hr⟩
        cases Outcome.bind_eq_error.mp h
        case inl h => exact .whenTrue hx h
        case inr h =>
          obtain ⟨y, hy, h⟩ := h
          split at h
          case h_2 hn =>
            cases h
            exact .colon hx hy hn
          case h_1 hr' =>
            have hy : Branched last ts a x _ _ y _ := ⟨hx, hy, _, hr'⟩
            cases Outcome.bind_eq_error.mp h
            case inl h => exact .whenFalse hy h
            case inr h =>
              obtain ⟨z, hz, h⟩ := h
              exact .conditional hy hz (Outcome.bind_pure_eq_error.mp h)

-- What is left to read behind the colon.
theorem Branched.expression_eq {x : Parsed ts} {y : Parsed us}
    (h : Branched last ts a x offset us y vs) :
    ∃ hl : vs.length ≤ ts.length, expression last ts a = (do
      let z ← expression last vs y.assembly
      let p ← z.add (.conditional x.root y.root z.root) offset
      return p.leave.widen hl) := by
  have ⟨⟨ho, hx, hr⟩, hy, o', hc⟩ := h
  refine ⟨Nat.le_of_lt (Nat.lt_trans (y.tail_lt hc) (x.tail_lt hr)), ?_⟩
  rw [expression]
  simp only [Assembly.enter_of_lt ho, hx, Outcome.ok_bind]
  split
  case h_2 hn => exact absurd hr (hn _ _)
  case h_1 hr' =>
    cases hr'.symm.trans hr
    simp only [hy, Outcome.ok_bind]
    split
    case h_2 hn => exact absurd hc (hn _ _)
    case h_1 hc' =>
      cases hc'.symm.trans hc
      rfl

theorem error_of_expressionFault (h : ExpressionFault last ts a f) :
    expression last ts a = .error f := by
  cases h
  case enter ho =>
    rw [expression, Assembly.enter_of_le ho]
    rfl
  case test ho h =>
    rw [expression, Assembly.enter_of_lt ho, Outcome.ok_bind, h]
    rfl
  case whenTrue hx h =>
    obtain ⟨ho, hx, hr⟩ := hx
    rw [expression]
    simp only [Assembly.enter_of_lt ho, hx, Outcome.ok_bind]
    split
    case h_2 hn => exact absurd hr (hn _ _)
    case h_1 hr' =>
      cases hr'.symm.trans hr
      rw [h]
      rfl
  case colon hx hy hn =>
    obtain ⟨ho, hx, hr⟩ := hx
    rw [expression]
    simp only [Assembly.enter_of_lt ho, hx, Outcome.ok_bind]
    split
    case h_2 hn => exact absurd hr (hn _ _)
    case h_1 hr' =>
      cases hr'.symm.trans hr
      simp only [hy, Outcome.ok_bind]
      rfl
  case whenFalse hy h =>
    obtain ⟨_, hx⟩ := hy.expression_eq
    rw [hx, h]
    rfl
  case conditional hy hz h =>
    obtain ⟨_, hx⟩ := hy.expression_eq
    rw [hx, hz, Outcome.ok_bind, h]
    rfl

-- One turn of reading on.
theorem operators_eq (last : Nat) {left : Parsed ts} {op : BinaryOp}
    (hr : left.rest = ⟨.operator op, offset⟩ :: us) :
    ∃ hl : us.length ≤ ts.length, operators last op.tier left = (do
      let right ← binary last op.tier us left.assembly
      let p ← right.add (.binary op left.root right.root) offset
      operators last op.tier (p.widen hl)) := by
  refine ⟨Nat.le_of_lt (left.tail_lt hr), ?_⟩
  rw [operators]
  split
  case h_2 hn => exact absurd hr (hn _ _ _)
  case h_1 hr' =>
    cases hr'.symm.trans hr
    rw [if_pos rfl]

end Parser

end MessageCatalog.Plural
