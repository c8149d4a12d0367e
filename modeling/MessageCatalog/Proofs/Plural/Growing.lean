import MessageCatalog.Proofs.Plural.Phrases

namespace MessageCatalog.Plural

variable {a b c : Assembly} {s : Step} {ts us : List Token} {offset : Nat}

-- Steps and heights have only been appended, as many of the ones as of the others.
structure Assembly.Grows (a b : Assembly) : Prop where
  opened  : b.opened = a.opened
  steps   : a.steps.toList <+: b.steps.toList
  heights : a.heights.toList <+: b.heights.toList
  sizes   : b.heights.size + a.steps.size = a.heights.size + b.steps.size

namespace Assembly

theorem Grows.trans (h : a.Grows b) (h' : b.Grows c) : a.Grows c where
  opened  := h'.opened.trans h.opened
  steps   := h.steps.trans h'.steps
  heights := h.heights.trans h'.heights
  sizes   := by
    have := h.sizes
    have := h'.sizes
    omega

theorem Grows.leave (h : a.deeper.Grows b) : a.Grows b.leave where
  opened  := congrArg (· - 1) h.opened
  steps   := h.steps
  heights := h.heights
  sizes   := h.sizes

theorem deeper_of_enter (h : a.enter offset = .ok b) : b = a.deeper := by
  unfold enter at h
  split at h
  case isTrue  => cases h
  case isFalse => cases h; rfl

theorem grows_of_add {root : Nat} (h : a.add s offset = .ok (root, b)) :
    a.Grows b ∧ root < b.steps.size := by
  unfold add at h
  split at h
  case isTrue => cases h
  case isFalse =>
    split at h
    case isTrue => cases h
    case isFalse =>
      cases h
      refine ⟨⟨rfl, ?_, ?_, ?_⟩, ?_⟩
      · simp
      · simp
      · simp only [Array.size_push]
        omega
      · simp

end Assembly

namespace Parsed

-- What has been read is in the assembly, which has grown.
structure Grown (p : Parsed ts) (a : Assembly) : Prop where
  grows : a.Grows p.assembly
  root  : p.root < p.assembly.steps.size

variable {p q : Parsed ts}

theorem grown_of_add (h : p.add s offset = .ok q) (hp : a.Grows p.assembly) : q.Grown a := by
  obtain ⟨⟨root, b⟩, hb, h⟩ := Outcome.bind_eq_ok.mp h
  cases h
  obtain ⟨hg, hr⟩ := Assembly.grows_of_add hb
  exact ⟨hp.trans hg, hr⟩

theorem Grown.apply {op? : Option UnaryOp} (hp : p.Grown a) (h : p.apply op? offset = .ok q) :
    q.Grown a := by
  cases op?
  case none    => cases h; exact hp
  case some op => exact grown_of_add h hp.grows

theorem grown_of_leaf {t : Token} {p : Parsed (t :: us)} (h : Parsed.leaf s t us a = .ok p) :
    p.Grown a := by
  obtain ⟨⟨root, b⟩, hb, h⟩ := Outcome.bind_eq_ok.mp h
  cases h
  obtain ⟨hg, hr⟩ := Assembly.grows_of_add hb
  exact ⟨hg, hr⟩

theorem Grown.leave (h : p.Grown a.deeper) : p.leave.Grown a :=
  ⟨h.grows.leave, h.root⟩

theorem Grown.widen (h : p.Grown a) (hl : ts.length ≤ us.length) : (p.widen hl).Grown a :=
  ⟨h.grows, h.root⟩

theorem Grown.close {t u : Token} (h : p.Grown a) (hr : p.rest = u :: us) :
    (p.close hr : Parsed (t :: ts)).Grown a :=
  ⟨h.grows, h.root⟩

end Parsed

namespace Parser

variable {last : Nat}

-- What has been read, if anything has, has been added to an assembly.
abbrev Adds (a : Assembly) (x : Except Fault (Parsed ts)) : Prop :=
  ∀ p, x = .ok p → p.Grown a

theorem adds_expression
    (test : ∀ a, Adds a (binary last BinaryOp.tiers ts a))
    (whenTrue : ∀ (p : Parsed ts) offset us, p.rest = ⟨.question, offset⟩ :: us →
      Adds p.assembly (expression last us p.assembly))
    (whenFalse : ∀ (p : Parsed ts) offset us, p.rest = ⟨.question, offset⟩ :: us →
      ∀ (q : Parsed us) offset' vs, q.rest = ⟨.colon, offset'⟩ :: vs →
        Adds q.assembly (expression last vs q.assembly)) :
    Adds a (expression last ts a) := by
  intro p h
  rw [expression] at h
  obtain ⟨b, hb, h⟩ := Outcome.bind_eq_ok.mp h
  cases Assembly.deeper_of_enter hb
  obtain ⟨t, ht, h⟩ := Outcome.bind_eq_ok.mp h
  have ht := test _ t ht
  split at h
  case h_1 offset us hr =>
    obtain ⟨x, hx, h⟩ := Outcome.bind_eq_ok.mp h
    have hx := whenTrue t offset us hr x hx
    split at h
    case h_1 offset' vs hr' =>
      obtain ⟨y, hy, h⟩ := Outcome.bind_eq_ok.mp h
      have hy := whenFalse t offset us hr x offset' vs hr' y hy
      obtain ⟨q, hq, h⟩ := Outcome.bind_eq_ok.mp h
      cases h
      have hg := (ht.grows.trans hx.grows).trans hy.grows
      exact (Parsed.grown_of_add hq hg).leave.widen _
    case h_2 => cases h
  case h_2 =>
    cases h
    exact ht.leave

theorem adds_operators {left : Parsed ts} {op : BinaryOp}
    (hr : left.rest = ⟨.operator op, offset⟩ :: us)
    (right : Adds left.assembly (binary last op.tier us left.assembly))
    (next : ∀ q : Parsed us, ∀ hl, ∀ a, (q.widen hl).Grown a →
      Adds a (operators last op.tier (q.widen hl : Parsed ts)))
    (hl : left.Grown a) : Adds a (operators last op.tier left) := by
  intro p h
  rw [operators] at h
  split at h
  case h_2 hn => exact absurd hr (hn op offset us)
  case h_1 op' offset' us' hr' =>
    cases hr'.symm.trans hr
    rw [if_pos rfl] at h
    obtain ⟨r, hright, h⟩ := Outcome.bind_eq_ok.mp h
    have hright := right r hright
    obtain ⟨q, hq, h⟩ := Outcome.bind_eq_ok.mp h
    exact next q _ a ((Parsed.grown_of_add hq (hl.grows.trans hright.grows)).widen _) p h

theorem adds_left {left : Parsed ts} {tier : Nat}
    (hn : ∀ op offset us, left.rest = ⟨.operator op, offset⟩ :: us → op.tier ≠ tier)
    (hl : left.Grown a) : Adds a (operators last tier left) := by
  intro p h
  rw [operators] at h
  split at h
  case h_1 op offset us hr =>
    rw [if_neg (hn op offset us hr)] at h
    cases h
    exact hl
  case h_2 =>
    cases h
    exact hl

theorem adds_signed {t : Token} {op? : Option UnaryOp} (ht : t.lexeme.unary? = some op?)
    (operand : ∀ a, Adds a (unary last us a)) : Adds a (unary last (t :: us) a) := by
  intro p h
  rw [unary, ht] at h
  obtain ⟨b, hb, h⟩ := Outcome.bind_eq_ok.mp h
  cases Assembly.deeper_of_enter hb
  obtain ⟨q, hq, h⟩ := Outcome.bind_eq_ok.mp h
  obtain ⟨r, hr, h⟩ := Outcome.bind_eq_ok.mp h
  cases h
  exact ((operand _ q hq).apply hr).leave.widen _

theorem adds_parentheses {t : Token} (ht : t.lexeme = .openParen)
    (inner : Adds a (expression last us a)) : Adds a (term last t us a) := by
  intro p h
  rw [term, ht] at h
  obtain ⟨q, hq, h⟩ := Outcome.bind_eq_ok.mp h
  have hq := inner q hq
  split at h
  case h_1 hr => cases h; exact hq.close hr
  case h_2 => cases h

theorem grown (last : Nat) :
    (∀ ts a, Adds a (expression last ts a)) ∧
    (∀ tiers ts a, Adds a (binary last tiers ts a)) ∧
    (∀ tier ts, ∀ left : Parsed ts, ∀ a, left.Grown a → Adds a (operators last tier left)) ∧
    (∀ ts a, Adds a (unary last ts a)) ∧
    (∀ t us a, Adds a (term last t us a)) := by
  apply expression.mutual_induct
    (fun ts a => Adds a (expression last ts a))
    (fun tiers ts a => Adds a (binary last tiers ts a))
    (fun tier ts left => ∀ a, left.Grown a → Adds a (operators last tier left))
    (fun ts a => Adds a (unary last ts a))
    (fun t us a => Adds a (term last t us a))
  case case1 =>
    intro ts a ht hx hy
    exact adds_expression ht hx hy
  case case2 =>
    intro ts a hu p h
    rw [binary] at h
    exact hu p h
  case case3 =>
    intro ts a tier hb ho p h
    rw [binary] at h
    obtain ⟨left, hl, h⟩ := Outcome.bind_eq_ok.mp h
    exact ho left a (hb left hl) p h
  case case4 =>
    intro ts left op offset us hr hb ho a hl
    exact adds_operators hr hb (fun q _ => ho q) hl
  case case5 =>
    intro tier ts left op offset us hr hne a hl
    refine adds_left (fun op' offset' us' h => ?_) hl
    cases hr.symm.trans h
    exact hne
  case case6 =>
    intro tier ts left hn a hl
    exact adds_left (fun op offset us h => absurd h (hn op offset us)) hl
  case case7 =>
    intro a p h
    rw [unary] at h
    cases h
  case case8 =>
    intro a t us ht hterm p h
    rw [unary, ht] at h
    exact hterm p h
  case case9 =>
    intro a t us op? ht hu
    exact adds_signed ht hu
  case case10 =>
    intro t us a ht p h
    rw [term, ht] at h
    exact Parsed.grown_of_leaf h
  case case11 =>
    intro t us a v ht p h
    rw [term, ht] at h
    exact Parsed.grown_of_leaf h
  case case12 =>
    intro t us a ht hx
    exact adds_parentheses ht hx
  case case13 =>
    intro t us a hc hn ho p h
    rw [term] at h
    split at h
    case h_1 ht   => exact absurd ht hc
    case h_2 v ht => exact absurd ht (hn v)
    case h_3 ht   => exact absurd ht ho
    case h_4      => cases h

end Parser

theorem Category.grown_of_read {c : Category} {last : Nat} {p : Parsed ts}
    (h : c.read last ts a = .ok p) : p.Grown a := by
  have ⟨he, hb, _, hu, ht⟩ := Parser.grown last
  match c, ts with
  | .expression, _   => exact he _ _ p h
  | .binary tiers, _ => exact hb _ _ _ p h
  | .unary, _        => exact hu _ _ p h
  | .term, _ :: _    => exact ht _ _ _ p h
  | .term, []        => cases h

end MessageCatalog.Plural
