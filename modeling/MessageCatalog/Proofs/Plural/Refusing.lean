import MessageCatalog.Proofs.Plural.Faults
import MessageCatalog.Proofs.Plural.Prefixes

namespace MessageCatalog.Plural

open Token

variable {a : Assembly} {c c' : Category} {e : Expr} {d i j k m n : Nat} {f : Fault}
  {ts ts' us vs : List Token}

-- The tokens are refused because of the first `m` of them and the one after, and the fault is found
-- with the token at index `i`. Unless a limit was met, the token is the one after, and a phrase can
-- start with the tokens before it.
structure Fails (c : Category) (a : Assembly) (ts : List Token) (f : Fault) (i m : Nat) : Prop where
  error : ∀ last ts', Alike m ts ts' →
    c.read last ts' a = .error ⟨f.reason, nextOffset last (ts'.drop i)⟩
  cause : f.IsLimit ∨ i = m ∧ Viable c ((ts.take i).map lexeme)

def Refuses (c : Category) (a : Assembly) (ts : List Token) (f : Fault) : Prop :=
  ∃ i m, Fails c a ts f i m

-- To read a phrase of `c` is to pass over `n` tokens and then to read a phrase of `c'`.
structure Passes (c : Category) (a : Assembly) (ts : List Token) (n : Nat) (c' : Category)
    (a' : Assembly) : Prop where
  error  : ∀ last ts' f, Alike n ts ts' → c'.read last (ts'.drop n) a' = .error f →
    c.read last ts' a = .error f
  viable : ∀ ls, Viable c' ls → Viable c ((ts.take n).map lexeme ++ ls)

theorem Passes.refuses {a' : Assembly} (h : Passes c a ts n c' a')
    (hf : Refuses c' a' (ts.drop n) f) : Refuses c a ts f := by
  have ⟨i, m, he, hc⟩ := hf
  refine ⟨n + i, n + m, fun last ts' hts => ?_, hc.imp_right fun ⟨him, hv⟩ => ⟨by omega, ?_⟩⟩
  · rw [← List.drop_drop]
    exact h.error last ts' _ (hts.mono (by omega)) (he last _ hts.drop)
  · rw [List.take_add, List.map_append]
    exact h.viable _ hv

namespace Parser

variable {last : Nat}

-- A refusal, if it is one, comes from the first tokens.
abbrev Causal (c : Category) (a : Assembly) (x : Except Fault (Parsed ts)) : Prop :=
  a.Valid → ∀ f, x = .error f → Refuses c a ts f

section Expressions

variable {x : Parsed ts} {y : Parsed us} {offset n' : Nat} {e' : Expr} {d' : Nat}

theorem Tested.exists_follows (h : Tested last ts a x offset us) (ha : a.Valid) :
    ∃ n e d, x.Follows (.binary BinaryOp.tiers) a.deeper n e d ∧ x.assembly.Valid := by
  have ha := ha.deeper h.opened
  have ⟨n, e, d, hx, _⟩ := Parsed.exists_follows (c := .binary BinaryOp.tiers) ha h.test
  exact ⟨n, e, d, hx, hx.valid ha⟩

theorem Tested.drop (h : Tested last ts a x offset us)
    (hx : x.Follows (.binary BinaryOp.tiers) a.deeper n e d) :
    ts.drop n = ⟨.question, offset⟩ :: us :=
  hx.reads.rest.symm.trans h.rest

-- On other tokens the question mark is found in the same place.
theorem Tested.repeats (h : Tested last ts a x offset us)
    (hx : x.Follows (.binary BinaryOp.tiers) a.deeper n e d) (ha : a.Valid)
    (hts : Alike n ts ts') (last' : Nat) :
    ∃ x' : Parsed ts', Tested last' ts' a x' (nextOffset last' (ts'.drop n)) (ts'.drop (n + 1)) ∧
      x.Repeats x' n := by
  have hs : Category.Stops (.binary BinaryOp.tiers) x.rest :=
    h.rest ▸ Category.stops_cons.mpr rfl
  have ⟨x', hx', hp⟩ := hx.repeats hs (ha.deeper h.opened) hts last'
  exact ⟨x', ⟨h.opened, hx', hp.rest.trans (hts.drop_cons (h.drop hx) last')⟩, hp⟩

theorem Branched.exists_follows (h : Branched last ts a x offset us y vs) (ha : a.Valid) :
    ∃ n e d n' e' d', x.Follows (.binary BinaryOp.tiers) a.deeper n e d ∧
      y.Follows .expression x.assembly n' e' d' ∧ y.assembly.Valid := by
  have ⟨n, e, d, hx, ha⟩ := h.tested.exists_follows ha
  have ⟨n', e', d', hy, _⟩ := Parsed.exists_follows (c := .expression) ha h.whenTrue
  exact ⟨n, e, d, n', e', d', hx, hy, hy.valid ha⟩

theorem Branched.drop (h : Branched last ts a x offset us y vs)
    (hx : x.Follows (.binary BinaryOp.tiers) a.deeper n e d)
    (hy : y.Follows .expression x.assembly n' e' d') :
    us = ts.drop (n + 1) ∧ vs = ts.drop (n + 1 + n' + 1) := by
  have ⟨ht, _, _, hr⟩ := h
  obtain rfl := drop_succ (ht.drop hx)
  refine ⟨rfl, ?_⟩
  rw [Nat.add_assoc (n + 1), ← List.drop_drop]
  exact (drop_succ (hy.reads.rest.symm.trans hr)).symm

theorem Branched.repeats (h : Branched last ts a x offset us y vs)
    (hx : x.Follows (.binary BinaryOp.tiers) a.deeper n e d)
    (hy : y.Follows .expression x.assembly n' e' d') (ha : a.Valid)
    (hts : Alike (n + 1 + n') ts ts') (last' : Nat) :
    ∃ (x' : Parsed ts') (y' : Parsed (ts'.drop (n + 1))),
      Branched last' ts' a x' (nextOffset last' (ts'.drop n)) (ts'.drop (n + 1)) y'
        (ts'.drop (n + 1 + n' + 1)) ∧
      x'.root = x.root ∧ y'.root = y.root ∧ y'.assembly = y.assembly := by
  have ⟨ht, _, _, hr⟩ := h
  obtain rfl := drop_succ (ht.drop hx)
  have ⟨x', ht', hpx⟩ := ht.repeats hx ha (hts.mono (by omega)) last'
  have ⟨y', hy', hpy⟩ := hy.repeats hy.stops (hx.valid (ha.deeper ht.opened)) hts.drop last'
  have hc := hpy.rest.trans (hts.drop.drop_cons (hy.reads.rest.symm.trans hr) last')
  rw [List.drop_drop (i := n' + 1), ← Nat.add_assoc] at hc
  exact ⟨x', y', ⟨ht', hpx.assembly.symm ▸ hy', _, hc⟩, hpx.root, hpy.root, hpy.assembly⟩

theorem passes_test (ho : a.opened < Assembly.openLimit) :
    Passes .expression a ts 0 (.binary BinaryOp.tiers) a.deeper where
  error _ _ _ _ h := error_of_expressionFault (.test ho h)
  viable _ h      := h.imp fun _ _ d h => ⟨d + 1, .plain h⟩

theorem Tested.passes (h : Tested last ts a x offset us)
    (hx : x.Follows (.binary BinaryOp.tiers) a.deeper n e d) (ha : a.Valid) :
    Passes .expression a ts (n + 1) .expression x.assembly where
  error last' ts' f hts he := by
    have ⟨x', ht', hp⟩ := h.repeats hx ha (hts.mono (by omega)) last'
    exact error_of_expressionFault (.whenTrue ht' (hp.assembly.symm ▸ he))
  viable ls hv := by
    have hv := hv.whenTrue hx.derives
    simpa [lexemes_take_succ (h.drop hx)] using hv

theorem Tested.refuses (h : Tested last ts a x offset us)
    (hy : expression last us x.assembly = .ok y)
    (hn : ∀ offset' vs, y.rest ≠ ⟨.colon, offset'⟩ :: vs) (ha : a.Valid) (offset' : Nat) :
    Refuses .expression a ts ⟨.missingColon, offset'⟩ := by
  have ⟨n, _, _, hx, ha'⟩ := h.exists_follows ha
  have ⟨n', _, _, hy', _⟩ := Parsed.exists_follows (c := .expression) ha' hy
  obtain rfl := drop_succ (h.drop hx)
  refine ⟨n + 1 + n', n + 1 + n', fun last' ts' hts => ?_, .inr ⟨rfl, ?_⟩⟩
  · have ⟨u, ht', hp⟩ := h.repeats hx ha (hts.mono (by omega)) last'
    have ⟨v, hv, hq⟩ := hy'.repeats hy'.stops ha' hts.drop last'
    have hd : v.rest = ts'.drop (n + 1 + n') := hq.rest.trans List.drop_drop
    rw [← hd]
    refine error_of_expressionFault (.colon ht' (hp.assembly.symm ▸ hv) ?_)
    have hr := Alike.drop (k := 0) hts.drop
    rw [hq.rest]
    exact hr.ne_cons (hy'.reads.rest ▸ hn)
  · rw [List.take_add, List.map_append, lexemes_take_succ (h.drop hx)]
    simpa using (Viable.of_derives hy'.derives).whenTrue hx.derives

theorem Branched.passes (h : Branched last ts a x offset us y vs)
    (hx : x.Follows (.binary BinaryOp.tiers) a.deeper n e d)
    (hy : y.Follows .expression x.assembly n' e' d') (ha : a.Valid) :
    Passes .expression a ts (n + 1 + n' + 1) .expression y.assembly where
  error last' ts' f hts he := by
    have ⟨x', y', hb, _, _, hp⟩ := h.repeats hx hy ha (hts.mono (by omega)) last'
    exact error_of_expressionFault (.whenFalse hb (hp.symm ▸ he))
  viable ls hv := by
    have hv := hv.whenFalse hx.derives hy.derives
    have ⟨_, hc⟩ := h.rest
    obtain rfl := drop_succ (h.tested.drop hx)
    rw [Nat.add_assoc (n + 1), List.take_add, List.map_append, lexemes_take_succ (h.tested.drop hx),
      lexemes_take_succ (hy.reads.rest.symm.trans hc)]
    simpa using hv

theorem Branched.refuses {z : Parsed vs} (h : Branched last ts a x offset us y vs)
    (hz : expression last vs y.assembly = .ok z)
    (he : z.add (.conditional x.root y.root z.root) offset = .error f) (ha : a.Valid) :
    Refuses .expression a ts f := by
  have ⟨n, _, _, n', _, _, hx, hy, ha'⟩ := h.exists_follows ha
  obtain ⟨_, rfl⟩ := h.drop hx hy
  have ⟨n'', _, _, hz, _⟩ := Parsed.exists_follows (c := .expression) ha' hz
  have ⟨hl, he⟩ := Parsed.add_eq_error he
  refine ⟨n, n + 1 + n' + 1 + n'', fun last' ts' hts => ?_, .inl hl⟩
  have ⟨x', y', hb, hpx, hpy, hay⟩ := h.repeats hx hy ha (hts.mono (by omega)) last'
  have ⟨z', hz', hpz⟩ := hz.repeats hz.stops ha' hts.drop last'
  refine error_of_expressionFault (.conditional hb (hay.symm ▸ hz') ?_)
  rw [hpx, hpy, hpz.root]
  exact he _ z' _ hpz.assembly

theorem causal_expression
    (test : ∀ a, Causal (.binary BinaryOp.tiers) a (binary last BinaryOp.tiers ts a))
    (whenTrue : ∀ (p : Parsed ts) offset us, p.rest = ⟨.question, offset⟩ :: us →
      Causal .expression p.assembly (expression last us p.assembly))
    (whenFalse : ∀ (p : Parsed ts) offset us, p.rest = ⟨.question, offset⟩ :: us →
      ∀ (q : Parsed us) offset' vs, q.rest = ⟨.colon, offset'⟩ :: vs →
        Causal .expression q.assembly (expression last vs q.assembly)) :
    Causal .expression a (expression last ts a) := by
  intro ha f h
  cases expressionFault_of_error h
  case enter ho =>
    exact ⟨0, 0, fun _ _ _ => error_of_expressionFault (.enter ho), .inl (.inl rfl)⟩
  case test ho h => exact (passes_test ho).refuses (test _ (ha.deeper ho) f h)
  case whenTrue x offset us hx h =>
    have ⟨n, _, _, hf, ha'⟩ := hx.exists_follows ha
    obtain rfl := drop_succ (hx.drop hf)
    exact (hx.passes hf ha).refuses (whenTrue x offset _ hx.rest ha' f h)
  case colon hx hy hn => exact hx.refuses hy hn ha _
  case whenFalse x offset us vs y hy h =>
    have ⟨n, _, _, n', _, _, hf, hg, ha'⟩ := hy.exists_follows ha
    obtain ⟨_, rfl⟩ := hy.drop hf hg
    have ⟨offset', hr⟩ := hy.rest
    exact (hy.passes hf hg ha).refuses
      (whenFalse x offset us hy.tested.rest y offset' _ hr ha' f h)
  case conditional hy hz h => exact hy.refuses hz h ha

end Expressions

section Operators

variable {left : Parsed ts} {op : BinaryOp} {offset : Nat}

theorem passes_unary : Passes (.binary 0) a ts 0 .unary a where
  error _ _ _ _ h := by
    rw [Category.read, binary]
    exact h
  viable _ h := h.imp fun _ _ d h => ⟨d, .unary h⟩

theorem passes_left {tier : Nat} : Passes (.binary (tier + 1)) a ts 0 (.binary tier) a where
  error last' ts' f _ h := by
    have h : binary last' tier ts' a = .error f := h
    rw [Category.read, binary, h]
    rfl
  viable _ h := h.imp fun _ _ d h => ⟨d, .tighter h⟩

-- On other tokens the operator is found in the same place.
theorem repeats_left (hl : left.Follows (.binary (op.tier + 1)) a n e d)
    (hr : left.rest = ⟨.operator op, offset⟩ :: us) (ha : a.Valid) (hts : Alike n ts ts')
    (last' : Nat) :
    ∃ left' : Parsed ts', left.Repeats left' n ∧
      binary last' (op.tier + 1) ts' a = operators last' op.tier left' ∧
      left'.rest = ⟨.operator op, nextOffset last' (ts'.drop n)⟩ :: ts'.drop (n + 1) := by
  have ⟨left', hx, hp⟩ := hl.resumes ha hts last'
  exact ⟨left', hp, hx, hp.rest.trans (hts.drop_cons (hl.reads.rest.symm.trans hr) last')⟩

theorem passes_right (hl : left.Follows (.binary (op.tier + 1)) a n e d)
    (hr : left.rest = ⟨.operator op, offset⟩ :: us) (ha : a.Valid) :
    Passes (.binary (op.tier + 1)) a ts (n + 1) (.binary op.tier) left.assembly where
  error last' ts' f hts he := by
    have ⟨left', hp, hx, hr'⟩ := repeats_left hl hr ha (hts.mono (by omega)) last'
    have ⟨_, ho⟩ := operators_eq last' hr'
    have he : binary last' op.tier (ts'.drop (n + 1)) left'.assembly = .error f :=
      hp.assembly.symm ▸ he
    exact hx.trans (ho.trans (by rw [he]; rfl))
  viable ls hv := by
    have hv := hv.right hl.derives
    simpa [lexemes_take_succ (hl.reads.rest.symm.trans hr)] using hv

theorem refuses_operator {right : Parsed us} (hl : left.Follows (.binary (op.tier + 1)) a n e d)
    (hr : left.rest = ⟨.operator op, offset⟩ :: us)
    (hx : binary last op.tier us left.assembly = .ok right)
    (he : right.add (.binary op left.root right.root) offset = .error f) (ha : a.Valid) :
    Refuses (.binary (op.tier + 1)) a ts f := by
  obtain rfl := drop_succ (hl.reads.rest.symm.trans hr)
  have ha' := hl.valid ha
  have ⟨n', _, _, hg, hs⟩ := Parsed.exists_follows (c := .binary op.tier) ha' hx
  have ⟨hlimit, he⟩ := Parsed.add_eq_error he
  refine ⟨n, n + 1 + n', fun last' ts' hts => ?_, .inl hlimit⟩
  have ⟨left', hp, hx, hr'⟩ := repeats_left hl hr ha (hts.mono (by omega)) last'
  have ⟨_, ho⟩ := operators_eq last' hr'
  have ⟨right', hy, hq⟩ := hg.repeats hs ha' hts.drop last'
  have hy : binary last' op.tier (ts'.drop (n + 1)) left'.assembly = .ok right' :=
    hp.assembly.symm ▸ hy
  refine hx.trans (ho.trans ?_)
  rw [hy, Outcome.ok_bind, hp.root, hq.root, he _ right' _ hq.assembly]
  rfl

theorem follows_operator {right q : Parsed us} {n' : Nat} {r : Expr} {d' : Nat}
    (hl : left.Follows (.binary (op.tier + 1)) a n e d)
    (hr : left.rest = ⟨.operator op, offset⟩ :: us)
    (hx : right.Follows (.binary op.tier) left.assembly n' r d')
    (hs : Category.Stops (.binary op.tier) right.rest)
    (hq : right.add (.binary op left.root right.root) offset = .ok q) (ha : a.Valid)
    (hle : us.length ≤ ts.length) :
    (q.widen hle).Follows (.binary (op.tier + 1)) a (n + 1 + n') (.binary op e r) (max d d') := by
  obtain rfl := drop_succ (hl.reads.rest.symm.trans hr)
  have ho : a.opened + max d d' ≤ Assembly.openLimit := by
    have := hl.fits.opened
    have := hx.fits.opened
    rw [hl.reads.assembly, Assembly.opened_append] at this
    omega
  have hc : Assembly.Completes a right.assembly (.binary op left.root right.root)
      (.binary op e r) := by
    rw [hl.reads.root, hx.reads.root, hx.reads.assembly, hl.reads.assembly]
    exact Assembly.completes_binary ha op e r
  cases Parsed.settles_add hc ho hx.reads.rest offset
  case inr h =>
    have ⟨_, f, h, _⟩ := h
    cases hq.symm.trans h
  case inl h =>
    have ⟨hf, q', hq', h⟩ := h
    cases hq.symm.trans h
    refine ⟨?_, hf, ⟨hq'.root, hq'.assembly, hq'.rest.trans List.drop_drop⟩, ?_⟩
    · rw [List.take_add, List.map_append, lexemes_take_succ (hl.reads.rest.symm.trans hr)]
      simpa using Derives.of_tier hl.derives hx.derives
    · exact (Parsed.rest_of_add hq).symm ▸ hs

theorem causal_operator (hr : left.rest = ⟨.operator op, offset⟩ :: us)
    (right : Causal (.binary op.tier) left.assembly (binary last op.tier us left.assembly))
    (next : ∀ (q : Parsed us) hle n e d, (q.widen hle).Follows (.binary (op.tier + 1)) a n e d →
      Causal (.binary (op.tier + 1)) a (operators last op.tier (q.widen hle : Parsed ts)))
    (hl : left.Follows (.binary (op.tier + 1)) a n e d) :
    Causal (.binary (op.tier + 1)) a (operators last op.tier left) := by
  intro ha f h
  have ⟨hle, ho⟩ := operators_eq last hr
  rw [ho] at h
  cases Outcome.bind_eq_error.mp h
  case inl h =>
    obtain rfl := drop_succ (hl.reads.rest.symm.trans hr)
    exact (passes_right hl hr ha).refuses (right (hl.valid ha) f h)
  case inr h =>
    have ⟨y, hy, h⟩ := h
    cases Outcome.bind_eq_error.mp h
    case inl h => exact refuses_operator hl hr hy h ha
    case inr h =>
      have ⟨q, hq, h⟩ := h
      have ⟨n', r, d', hx, hs⟩ := Parsed.exists_follows (c := .binary op.tier) (hl.valid ha) hy
      exact next q hle _ _ _ (follows_operator hl hr hx hs hq ha hle) ha f h

end Operators

section Operands

variable {t : Token} {op? : Option UnaryOp}

theorem refuses_nil : Refuses .unary a [] ⟨.unexpectedEnd, last⟩ := by
  refine ⟨0, 0, fun last' ts' hts => ?_, .inr ⟨rfl, Viable.nil _⟩⟩
  rw [hts.nil, Category.read, unary]
  rfl

theorem passes_term (ht : t.lexeme.unary? = none) : Passes .unary a (t :: us) 0 .term a where
  error last' ts' f hts he := by
    obtain ⟨t', us', rfl, hl⟩ := hts.cons
    rw [Category.read, unary, hl, ht]
    exact he
  viable _ h := h.imp fun _ _ d h => ⟨d, .term h⟩

theorem passes_signed (ht : t.lexeme.unary? = some op?) (ho : a.opened < Assembly.openLimit) :
    Passes .unary a (t :: us) 1 .unary a.deeper where
  error last' ts' f hts he := by
    obtain ⟨t', us', rfl, hl⟩ := hts.cons
    have he : unary last' us' a.deeper = .error f := he
    rw [Category.read, unary, hl, ht]
    simp only [Assembly.enter_of_lt ho, Outcome.ok_bind, he]
    rfl
  viable _ h := h.signed ht

theorem refuses_enter (ht : t.lexeme.unary? = some op?) (ho : Assembly.openLimit ≤ a.opened)
    (offset : Nat) : Refuses .unary a (t :: us) ⟨.nestedTooDeeply, offset⟩ := by
  refine ⟨0, 0, fun last' ts' hts => ?_, .inl (.inl rfl)⟩
  obtain ⟨t', us', rfl, hl⟩ := hts.cons
  rw [Category.read, unary, hl, ht]
  simp only [Assembly.enter_of_le ho]
  rfl

theorem refuses_apply {p : Parsed us} {offset : Nat} (ht : t.lexeme.unary? = some op?)
    (ho : a.opened < Assembly.openLimit) (hp : unary last us a.deeper = .ok p)
    (h : p.apply op? offset = .error f) (ha : a.Valid) : Refuses .unary a (t :: us) f := by
  cases op?
  case none => cases h
  case some op =>
    have ⟨n, _, _, hf, hs⟩ := Parsed.exists_follows (c := .unary) (ha.deeper ho) hp
    have ⟨hlimit, he⟩ := Parsed.add_eq_error h
    refine ⟨0, n + 1, fun last' ts' hts => ?_, .inl hlimit⟩
    obtain ⟨t', us', rfl, hl⟩ := hts.cons
    have ⟨p', hp', hq⟩ := hf.repeats hs (ha.deeper ho) hts.tail last'
    have hp' : unary last' us' a.deeper = .ok p' := hp'
    rw [Category.read, unary, hl, ht]
    simp only [Assembly.enter_of_lt ho, Outcome.ok_bind, hp', Parsed.apply, hq.root]
    rw [he _ p' _ hq.assembly]
    rfl

theorem causal_signed (ht : t.lexeme.unary? = some op?)
    (operand : ∀ a, Causal .unary a (unary last us a)) :
    Causal .unary a (unary last (t :: us) a) := by
  intro ha f h
  rw [unary, ht] at h
  by_cases ho : a.opened < Assembly.openLimit
  case neg =>
    have ho : Assembly.openLimit ≤ a.opened := by omega
    simp only [Assembly.enter_of_le ho] at h
    cases h
    exact refuses_enter ht ho _
  case pos =>
    simp only [Assembly.enter_of_lt ho, Outcome.ok_bind] at h
    cases Outcome.bind_eq_error.mp h
    case inl h => exact (passes_signed ht ho).refuses (operand _ (ha.deeper ho) f h)
    case inr h =>
      obtain ⟨p, hp, h⟩ := h
      exact refuses_apply ht ho hp (Outcome.bind_pure_eq_error.mp h) ha

theorem refuses_leaf {s : Step} (h : Parsed.leaf s t us a = .error f)
    (ht : ∀ last (t' : Token) us', t'.lexeme = t.lexeme →
      term last t' us' a = Parsed.leaf s t' us' a) :
    Refuses .term a (t :: us) f := by
  cases Outcome.bind_eq_error.mp h
  case inr h =>
    have ⟨_, _, h⟩ := h
    cases h
  case inl h =>
    have ⟨hl, he⟩ := Assembly.add_eq_error h
    refine ⟨0, 0, fun last' ts' hts => ?_, .inl hl⟩
    obtain ⟨t', us', rfl, hlex⟩ := hts.cons
    refine (ht last' t' us' hlex).trans ?_
    rw [Parsed.leaf, he]
    rfl

theorem passes_parentheses (ht : t.lexeme = .openParen) :
    Passes .term a (t :: us) 1 .expression a where
  error last' ts' f hts he := by
    obtain ⟨t', us', rfl, hl⟩ := hts.cons
    have he : expression last' us' a = .error f := he
    rw [Category.read, term, hl, ht]
    simp only [he]
    rfl
  viable _ h := by
    simpa [ht] using h.parentheses

theorem refuses_parentheses {p : Parsed us} (ht : t.lexeme = .openParen)
    (hp : expression last us a = .ok p)
    (hn : ∀ offset vs, p.rest ≠ ⟨.closeParen, offset⟩ :: vs) (ha : a.Valid) (offset : Nat) :
    Refuses .term a (t :: us) ⟨.missingParenthesis, offset⟩ := by
  have ⟨n, _, _, hf, hs⟩ := Parsed.exists_follows (c := .expression) ha hp
  refine ⟨n + 1, n + 1, fun last' ts' hts => ?_, .inr ⟨rfl, ?_⟩⟩
  · obtain ⟨t', us', rfl, hl⟩ := hts.cons
    have ⟨p', hp', hq⟩ := hf.repeats hs ha hts.tail last'
    have hp' : expression last' us' a = .ok p' := hp'
    have hr := Alike.drop (k := 0) hts.tail
    rw [Category.read, term, hl, ht]
    simp only [hp', Outcome.ok_bind]
    split
    case h_1 hc => exact absurd (hq.rest.symm.trans hc) (hr.ne_cons (hf.reads.rest ▸ hn) _ _)
    case h_2 =>
      rw [hq.rest]
      rfl
  · simpa [ht] using (Viable.of_derives hf.derives).parentheses

theorem causal_parentheses (ht : t.lexeme = .openParen)
    (inner : Causal .expression a (expression last us a)) : Causal .term a (term last t us a) := by
  intro ha f h
  rw [term, ht] at h
  cases Outcome.bind_eq_error.mp h
  case inl h => exact (passes_parentheses ht).refuses (inner ha f h)
  case inr h =>
    obtain ⟨p, hp, h⟩ := h
    split at h
    case h_1 => cases h
    case h_2 hn =>
      cases h
      exact refuses_parentheses ht hp hn ha _

theorem refuses_token (hc : t.lexeme ≠ .count) (hn : ∀ v, t.lexeme ≠ .number v)
    (ho : t.lexeme ≠ .openParen) (offset : Nat) :
    Refuses .term a (t :: us) ⟨.unexpectedToken, offset⟩ := by
  refine ⟨0, 0, fun last' ts' hts => ?_, .inr ⟨rfl, Viable.nil _⟩⟩
  obtain ⟨t', us', rfl, hl⟩ := hts.cons
  rw [Category.read, term, hl]
  split
  case h_1 ht   => exact absurd ht hc
  case h_2 v ht => exact absurd ht (hn v)
  case h_3 ht   => exact absurd ht ho
  case h_4      => rfl

end Operands

-- By induction on the calls of the mutually recursive readers.
theorem causal (last : Nat) :
    (∀ ts a, Causal .expression a (expression last ts a)) ∧
    (∀ tiers ts a, Causal (.binary tiers) a (binary last tiers ts a)) ∧
    (∀ tier ts, ∀ left : Parsed ts, ∀ a n e d, left.Follows (.binary (tier + 1)) a n e d →
      Causal (.binary (tier + 1)) a (operators last tier left)) ∧
    (∀ ts a, Causal .unary a (unary last ts a)) ∧
    (∀ t us a, Causal .term a (term last t us a)) := by
  apply expression.mutual_induct
    (fun ts a => Causal .expression a (expression last ts a))
    (fun tiers ts a => Causal (.binary tiers) a (binary last tiers ts a))
    (fun tier ts left => ∀ a n e d, left.Follows (.binary (tier + 1)) a n e d →
      Causal (.binary (tier + 1)) a (operators last tier left))
    (fun ts a => Causal .unary a (unary last ts a))
    (fun t us a => Causal .term a (term last t us a))
  case case1 =>
    intro ts a ht hx hy
    exact causal_expression ht hx hy
  case case2 =>
    intro ts a hu ha f h
    rw [binary] at h
    exact passes_unary.refuses (hu ha f h)
  case case3 =>
    intro ts a tier hb ho ha f h
    rw [binary] at h
    cases Outcome.bind_eq_error.mp h
    case inl h => exact passes_left.refuses (hb ha f h)
    case inr h =>
      obtain ⟨left, hl, h⟩ := h
      obtain ⟨n, e, d, hl, hs⟩ := Parsed.exists_follows (c := .binary tier) ha hl
      exact ho left a n e d ⟨.tighter hl.derives, hl.fits, hl.reads, hs⟩ ha f h
  case case4 =>
    intro ts left op offset us hr hb ho a n e d hl
    exact causal_operator hr hb (fun q hle n e d hq => ho q a n e d hq) hl
  case case5 =>
    intro tier ts left op offset us hr hne a n e d hl ha f h
    rw [operators] at h
    split at h
    case h_1 hr' =>
      cases hr'.symm.trans hr
      rw [if_neg hne] at h
      cases h
    case h_2 => cases h
  case case6 =>
    intro tier ts left hn a n e d hl ha f h
    rw [operators] at h
    split at h
    case h_1 hr => exact absurd hr (hn _ _ _)
    case h_2    => cases h
  case case7 =>
    intro a ha f h
    rw [unary] at h
    cases h
    exact refuses_nil
  case case8 =>
    intro a t us ht hterm ha f h
    rw [unary, ht] at h
    exact (passes_term ht).refuses (hterm ha f h)
  case case9 =>
    intro a t us op? ht hu
    exact causal_signed ht hu
  case case10 =>
    intro t us a ht ha f h
    rw [term, ht] at h
    exact refuses_leaf h fun last t' us' hl => by rw [term, hl, ht]
  case case11 =>
    intro t us a v ht ha f h
    rw [term, ht] at h
    exact refuses_leaf h fun last t' us' hl => by rw [term, hl, ht]
  case case12 =>
    intro t us a ht hx
    exact causal_parentheses ht hx
  case case13 =>
    intro t us a hc hn ho ha f h
    rw [term] at h
    split at h
    case h_1 ht   => exact absurd ht hc
    case h_2 v ht => exact absurd ht (hn v)
    case h_3 ht   => exact absurd ht ho
    case h_4      =>
      cases h
      exact refuses_token hc hn ho _

theorem refuses_of_error (ha : a.Valid) (h : expression last ts a = .error f) :
    Refuses .expression a ts f :=
  (causal last).1 ts a ha f h

end Parser

end MessageCatalog.Plural
