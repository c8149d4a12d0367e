import MessageCatalog.Outcome
import MessageCatalog.Proofs.Plural.Reading

namespace MessageCatalog.Plural

variable {a : Assembly} {e : Expr} {ts us rest : List Token}

-- The productions of the operators that stand before an operand.
theorem Derives.signed {l : Lexeme} {op? : Option UnaryOp} {ls : List Lexeme} {d : Nat}
    (hl : l.unary? = some op?) (h : Derives .unary ls e d) :
    Derives .unary (l :: ls) (e.signed op?) (d + 1) := by
  cases l
  case not         => cases hl; exact .not h
  case operator op => cases op <;> cases hl; exacts [.plus h, .negate h]
  all_goals cases hl

-- A phrase of the category spans `ts` up to `rest`.
def Category.Spans (c : Category) (ts rest : List Token) : Prop :=
  ∃ us e d, ts = us ++ rest ∧ Derives c (us.map Token.lexeme) e d

namespace Category.Spans

variable {t u : Token} {vs : List Token}

theorem imp {c c' : Category} (h : c.Spans ts rest)
    (hd : ∀ ls e d, Derives c ls e d → ∃ d, Derives c' ls e d) : c'.Spans ts rest := by
  have ⟨us, e, d, hts, h⟩ := h
  have ⟨d, h⟩ := hd _ e d h
  exact ⟨us, e, d, hts, h⟩

theorem leaf {e : Expr} (h : Derives .term [t.lexeme] e 0) : Spans .term (t :: us) us :=
  ⟨[t], e, 0, rfl, h⟩

theorem parentheses (ht : t.lexeme = .openParen) (h : Spans .expression us (u :: rest))
    (hu : u.lexeme = .closeParen) : Spans .term (t :: us) rest := by
  have ⟨vs, e, d, hus, h⟩ := h
  refine ⟨t :: vs ++ [u], e, d, by simp [hus], ?_⟩
  have hm : (t :: vs ++ [u]).map Token.lexeme
      = .openParen :: vs.map Token.lexeme ++ [.closeParen] := by simp [ht, hu]
  exact hm ▸ .parentheses h

theorem signed {op? : Option UnaryOp} (ht : t.lexeme.unary? = some op?)
    (h : Spans .unary us rest) : Spans .unary (t :: us) rest := by
  have ⟨vs, e, d, hus, h⟩ := h
  exact ⟨t :: vs, e.signed op?, d + 1, by simp [hus], h.signed ht⟩

theorem binary {op : BinaryOp} (hl : Spans (.binary (op.tier + 1)) ts (u :: us))
    (hu : u.lexeme = .operator op) (hr : Spans (.binary op.tier) us rest) :
    Spans (.binary (op.tier + 1)) ts rest := by
  have ⟨vs, l, d, hts, hl⟩ := hl
  have ⟨ws, r, d', hus, hr⟩ := hr
  refine ⟨vs ++ u :: ws, .binary op l r, max d d', by simp [hts, hus], ?_⟩
  rw [List.map_append, List.map_cons, hu]
  exact .of_tier hl hr

theorem conditional (hx : Spans (.binary BinaryOp.tiers) ts (t :: us)) (ht : t.lexeme = .question)
    (hy : Spans .expression us (u :: vs)) (hu : u.lexeme = .colon)
    (hz : Spans .expression vs rest) : Spans .expression ts rest := by
  have ⟨us₁, x, d, h₁, hx⟩ := hx
  have ⟨us₂, y, d', h₂, hy⟩ := hy
  have ⟨us₃, z, d'', h₃, hz⟩ := hz
  refine ⟨us₁ ++ t :: (us₂ ++ u :: us₃), .conditional x y z, max d (max d' d'') + 1, ?_, ?_⟩
  · simp [h₁, h₂, h₃]
  · simp only [List.map_append, List.map_cons, ht, hu]
    exact .conditional hx hy hz

end Category.Spans

namespace Parsed

-- What has been read is a phrase, and not continued by what is left.
structure Phrase (p : Parsed ts) (c : Category) : Prop where
  spans : c.Spans ts p.rest
  stops : c.Stops p.rest

variable {p q : Parsed ts}

theorem rest_of_add {s : Step} {offset : Nat} (h : p.add s offset = .ok q) : q.rest = p.rest := by
  have ⟨_, _, h⟩ := Outcome.bind_eq_ok.mp h
  cases h
  rfl

theorem rest_of_apply {op? : Option UnaryOp} {offset : Nat} (h : p.apply op? offset = .ok q) :
    q.rest = p.rest := by
  cases op?
  case none    => cases h; rfl
  case some op => exact rest_of_add h

theorem phrase_of_leaf {s : Step} {t : Token} {p : Parsed (t :: us)}
    (h : Parsed.leaf s t us a = .ok p) (hd : Derives .term [t.lexeme] e 0) : p.Phrase .term := by
  have ⟨_, _, h⟩ := Outcome.bind_eq_ok.mp h
  cases h
  exact ⟨.leaf hd, Category.stops_term⟩

end Parsed

namespace Parser

variable {last : Nat}

-- What has been read, if anything has, is a phrase of a category.
abbrev Sound (c : Category) (x : Except Fault (Parsed ts)) : Prop :=
  ∀ p, x = .ok p → p.Phrase c

theorem sound_expression
    (test : ∀ a, Sound (.binary BinaryOp.tiers) (binary last BinaryOp.tiers ts a))
    (whenTrue : ∀ (p : Parsed ts) offset us, p.rest = ⟨.question, offset⟩ :: us →
      Sound .expression (expression last us p.assembly))
    (whenFalse : ∀ (p : Parsed ts) offset us, p.rest = ⟨.question, offset⟩ :: us →
      ∀ (q : Parsed us) offset' vs, q.rest = ⟨.colon, offset'⟩ :: vs →
        Sound .expression (expression last vs q.assembly)) :
    Sound .expression (expression last ts a) := by
  intro p h
  rw [expression] at h
  obtain ⟨a', _, h⟩ := Outcome.bind_eq_ok.mp h
  obtain ⟨t, ht, h⟩ := Outcome.bind_eq_ok.mp h
  have ht := test a' t ht
  split at h
  case h_1 offset us hr =>
    obtain ⟨x, hx, h⟩ := Outcome.bind_eq_ok.mp h
    have hx := whenTrue t offset us hr x hx
    split at h
    case h_1 offset' vs hr' =>
      obtain ⟨y, hy, h⟩ := Outcome.bind_eq_ok.mp h
      have hy := whenFalse t offset us hr x offset' vs hr' y hy
      obtain ⟨q, hq, h⟩ := Outcome.bind_eq_ok.mp h
      cases h
      have hq := Parsed.rest_of_add hq
      have hspans := Category.Spans.conditional (hr ▸ ht.spans) rfl (hr' ▸ hx.spans) rfl hy.spans
      exact ⟨hq.symm ▸ hspans, hq.symm ▸ hy.stops⟩
    case h_2 => cases h
  case h_2 hn =>
    cases h
    exact ⟨ht.spans.imp fun ls e d h => ⟨_, .plain h⟩, ht.stops.expression hn⟩

-- Reading on after `left` keeps the invariant that a phrase of the next tier has been read.
theorem sound_operator {left : Parsed ts} {op : BinaryOp} {offset : Nat}
    (hr : left.rest = ⟨.operator op, offset⟩ :: us)
    (spans : Category.Spans (.binary (op.tier + 1)) ts left.rest)
    (right : Sound (.binary op.tier) (binary last op.tier us left.assembly))
    (next : ∀ q : Parsed us, ∀ hl, Category.Spans (.binary (op.tier + 1)) ts q.rest →
      Category.Stops (.binary op.tier) q.rest →
        Sound (.binary (op.tier + 1)) (operators last op.tier (q.widen hl : Parsed ts))) :
    Sound (.binary (op.tier + 1)) (operators last op.tier left) := by
  intro p h
  rw [operators] at h
  split at h
  case h_2 hn => exact absurd hr (hn op offset us)
  case h_1 op' offset' us' hr' =>
    cases hr'.symm.trans hr
    rw [if_pos rfl] at h
    have ⟨r, hright, h⟩ := Outcome.bind_eq_ok.mp h
    have hright := right r hright
    have ⟨q, hq, h⟩ := Outcome.bind_eq_ok.mp h
    have hq := Parsed.rest_of_add hq
    have hspans := Category.Spans.binary (hr ▸ spans) rfl hright.spans
    exact next q _ (hq.symm ▸ hspans) (hq.symm ▸ hright.stops) p h

-- Without an operator of the tier, a phrase of the next tier ends.
theorem sound_left {left : Parsed ts} {tier : Nat}
    (hn : ∀ op offset us, left.rest = ⟨.operator op, offset⟩ :: us → op.tier ≠ tier)
    (spans : Category.Spans (.binary (tier + 1)) ts left.rest)
    (stops : Category.Stops (.binary tier) left.rest) :
    Sound (.binary (tier + 1)) (operators last tier left) := by
  intro p h
  rw [operators] at h
  split at h
  case h_1 op offset us hr =>
    rw [if_neg (hn op offset us hr)] at h
    cases h
    exact ⟨spans, stops.succ hn⟩
  case h_2 =>
    cases h
    exact ⟨spans, stops.succ hn⟩

theorem sound_signed {t : Token} {op? : Option UnaryOp} (ht : t.lexeme.unary? = some op?)
    (operand : ∀ a, Sound .unary (unary last us a)) :
    Sound .unary (unary last (t :: us) a) := by
  intro p h
  rw [unary, ht] at h
  obtain ⟨a', _, h⟩ := Outcome.bind_eq_ok.mp h
  obtain ⟨q, hq, h⟩ := Outcome.bind_eq_ok.mp h
  have hq := operand a' q hq
  obtain ⟨r, hr, h⟩ := Outcome.bind_eq_ok.mp h
  cases h
  have hr := Parsed.rest_of_apply hr
  exact ⟨hr.symm ▸ .signed ht hq.spans, Category.stops_unary⟩

theorem sound_parentheses {t : Token} (ht : t.lexeme = .openParen)
    (inner : Sound .expression (expression last us a)) : Sound .term (term last t us a) := by
  intro p h
  rw [term, ht] at h
  obtain ⟨q, hq, h⟩ := Outcome.bind_eq_ok.mp h
  have hq := inner q hq
  split at h
  case h_1 offset vs hr =>
    cases h
    exact ⟨.parentheses ht (hr ▸ hq.spans) rfl, Category.stops_term⟩
  case h_2 => cases h

-- By induction on the calls of the mutually recursive readers, one case for each way through them.
theorem phrases (last : Nat) :
    (∀ ts a, Sound .expression (expression last ts a)) ∧
    (∀ tiers ts a, Sound (.binary tiers) (binary last tiers ts a)) ∧
    (∀ tier ts, ∀ left : Parsed ts, Category.Spans (.binary (tier + 1)) ts left.rest →
      Category.Stops (.binary tier) left.rest →
        Sound (.binary (tier + 1)) (operators last tier left)) ∧
    (∀ ts a, Sound .unary (unary last ts a)) ∧
    (∀ t us a, Sound .term (term last t us a)) := by
  apply expression.mutual_induct
    (fun ts a => Sound .expression (expression last ts a))
    (fun tiers ts a => Sound (.binary tiers) (binary last tiers ts a))
    (fun tier ts left => Category.Spans (.binary (tier + 1)) ts left.rest →
      Category.Stops (.binary tier) left.rest →
        Sound (.binary (tier + 1)) (operators last tier left))
    (fun ts a => Sound .unary (unary last ts a))
    (fun t us a => Sound .term (term last t us a))
  case case1 =>
    intro ts a ht hx hy
    exact sound_expression ht hx hy
  case case2 =>
    intro ts a hu p h
    rw [binary] at h
    have hu := hu p h
    exact ⟨hu.spans.imp fun ls e d h => ⟨d, .unary h⟩, Category.stops_binary_zero⟩
  case case3 =>
    intro ts a tier hb ho p h
    rw [binary] at h
    obtain ⟨left, hl, h⟩ := Outcome.bind_eq_ok.mp h
    have hl := hb left hl
    exact ho left (hl.spans.imp fun ls e d h => ⟨d, .tighter h⟩) hl.stops p h
  case case4 =>
    intro ts left op offset us hr hb ho hspans _
    exact sound_operator hr hspans hb fun q _ => ho q
  case case5 =>
    intro tier ts left op offset us hr hne
    refine sound_left fun op' offset' us' h => ?_
    cases hr.symm.trans h
    exact hne
  case case6 =>
    intro tier ts left hn
    exact sound_left fun op offset us h => absurd h (hn op offset us)
  case case7 =>
    intro a p h
    rw [unary] at h
    cases h
  case case8 =>
    intro a t us ht hterm p h
    rw [unary, ht] at h
    have ht := hterm p h
    exact ⟨ht.spans.imp fun ls e d h => ⟨d, .term h⟩, Category.stops_unary⟩
  case case9 =>
    intro a t us op? ht hu
    exact sound_signed ht hu
  case case10 =>
    intro t us a ht p h
    rw [term, ht] at h
    exact Parsed.phrase_of_leaf h (by rw [ht]; exact .count)
  case case11 =>
    intro t us a v ht p h
    rw [term, ht] at h
    exact Parsed.phrase_of_leaf h (by rw [ht]; exact .literal v)
  case case12 =>
    intro t us a ht hx
    exact sound_parentheses ht hx
  case case13 =>
    intro t us a hc hn ho p h
    rw [term] at h
    split at h
    case h_1 ht   => exact absurd ht hc
    case h_2 v ht => exact absurd ht (hn v)
    case h_3 ht   => exact absurd ht ho
    case h_4      => cases h

end Parser

theorem Category.phrase_of_read {c : Category} {last : Nat} {p : Parsed ts}
    (h : c.read last ts a = .ok p) : p.Phrase c := by
  have ⟨he, hb, _, hu, ht⟩ := Parser.phrases last
  match c, ts with
  | .expression, _   => exact he _ _ p h
  | .binary tiers, _ => exact hb _ _ _ p h
  | .unary, _        => exact hu _ _ p h
  | .term, _ :: _    => exact ht _ _ _ p h
  | .term, []        => cases h

end MessageCatalog.Plural
