import MessageCatalog.Plural.Parser
import MessageCatalog.Proofs.Plural.Assembling
import MessageCatalog.Proofs.Plural.Grammar

namespace MessageCatalog.Plural

variable {a b : Assembly} {e e' : Expr} {d d' : Nat} {ts us rest rest' : List Token}

namespace Assembly

-- The assembly inside one more construct.
def deeper (a : Assembly) : Assembly :=
  { a with opened := a.opened + 1 }

theorem Valid.deeper (h : a.Valid) (ho : a.opened < openLimit) : a.deeper.Valid where
  balanced := h.balanced
  opened   := ho

theorem fits_deeper : a.deeper.Fits e d ↔ a.Fits e (d + 1) := by
  constructor
  · intro ⟨ho, hh, hs⟩
    exact ⟨by simp only [Assembly.deeper] at ho; omega, hh, hs⟩
  · intro ⟨ho, hh, hs⟩
    exact ⟨by simp only [Assembly.deeper]; omega, hh, hs⟩

end Assembly

namespace Parsed

-- What has been read after `a` is the expression `e`, and `rest` is left.
structure Reads (p : Parsed ts) (a : Assembly) (e : Expr) (rest : List Token) : Prop where
  root     : p.root = a.rootOf e
  assembly : p.assembly = a.append e
  rest     : p.rest = rest

namespace Reads

variable {p : Parsed ts}

theorem widen (h : p.Reads a e rest) (hl : ts.length ≤ us.length) : (p.widen hl).Reads a e rest :=
  ⟨h.root, h.assembly, h.rest⟩

theorem leave (h : p.Reads a.deeper e rest) : p.leave.Reads a e rest where
  root     := h.root
  assembly := by rw [Parsed.leave, h.assembly]; rfl
  rest     := h.rest

end Reads
end Parsed

-- How reading the expression `e` after `a` ends, with `resume` for what may still be read on. Only
-- an expression that does not fit is refused.
def Reaches (a : Assembly) (e : Expr) (d : Nat) (rest : List Token)
    (resume : Parsed ts → Except Fault (Parsed ts)) (x : Except Fault (Parsed ts)) : Prop :=
  a.Fits e d ∧ (∃ p : Parsed ts, p.Reads a e rest ∧ x = resume p) ∨
    ¬a.Fits e d ∧ ∃ f, x = .error f ∧ f.IsLimit

abbrev Settles (a : Assembly) (e : Expr) (d : Nat) (rest : List Token)
    (x : Except Fault (Parsed ts)) : Prop :=
  Reaches a e d rest .ok x

theorem Settles.of_reads {p : Parsed ts} (h : p.Reads a e rest) (hf : a.Fits e d) :
    Settles a e d rest (.ok p) :=
  .inl ⟨hf, p, h, rfl⟩

section

variable {resume : Parsed us → Except Fault (Parsed us)}

-- A larger expression is read once its first part is, and it does not fit if that part does not.
theorem Settles.bind {x : Except Fault (Parsed ts)} {k : Parsed ts → Except Fault (Parsed us)}
    (hx : Settles a e d rest x) (hf : b.Fits e' d' → a.Fits e d)
    (hk : ∀ p : Parsed ts, p.Reads a e rest → a.Fits e d → Reaches b e' d' rest' resume (k p)) :
    Reaches b e' d' rest' resume (x >>= k) := by
  cases hx
  case inl h =>
    have ⟨hfits, p, hp, hx⟩ := h
    subst hx
    exact hk p hp hfits
  case inr h =>
    have ⟨hfits, f, hx, hl⟩ := h
    subst hx
    exact .inr ⟨mt hf hfits, f, rfl, hl⟩

theorem Reaches.enter {k : Assembly → Except Fault (Parsed us)} (offset : Nat)
    (hk : a.opened < Assembly.openLimit → Reaches a e (d + 1) rest resume (k a.deeper)) :
    Reaches a e (d + 1) rest resume (a.enter offset >>= k) := by
  unfold Assembly.enter
  split
  case isTrue h =>
    have hf : ¬a.Fits e (d + 1) := fun hf => by have := hf.opened; omega
    exact .inr ⟨hf, _, rfl, .inl rfl⟩
  case isFalse h => exact hk (by omega)

end

namespace Parsed

theorem settles_add {p : Parsed ts} {s : Step} (h : Assembly.Completes a p.assembly s e)
    (ho : a.opened + d ≤ Assembly.openLimit) (hr : p.rest = rest) (offset : Nat) :
    Settles a e d rest (p.add s offset) := by
  cases h.add ho offset
  case inl h =>
    have ⟨hf, hx⟩ := h
    refine .inl ⟨hf, { p with root := a.rootOf e, assembly := a.append e }, ⟨rfl, rfl, hr⟩, ?_⟩
    simp [add, hx, bind, Except.bind, pure, Except.pure]
  case inr h =>
    have ⟨hf, f, hx, hl⟩ := h
    exact .inr ⟨hf, f, by simp [add, hx, bind, Except.bind], hl⟩

theorem settles_leaf {t : Token} {s : Step} (h : Assembly.Completes a a s e) (ha : a.Valid) :
    Settles a e 0 ts (Parsed.leaf s t ts a) := by
  cases h.add (d := 0) ha.opened t.offset
  case inl h =>
    have ⟨hf, hx⟩ := h
    exact .inl ⟨hf, ⟨a.rootOf e, a.append e, ts, by simp⟩, ⟨rfl, rfl, rfl⟩, by
      simp [leaf, hx, bind, Except.bind, pure, Except.pure]⟩
  case inr h =>
    have ⟨hf, f, hx, hl⟩ := h
    exact .inr ⟨hf, f, by simp [leaf, hx, bind, Except.bind], hl⟩

end Parsed

namespace Category

-- Reads a phrase of a category.
def read (last : Nat) (ts : List Token) (a : Assembly) : Category → Except Fault (Parsed ts)
  | expression   => Parser.expression last ts a
  | binary tiers => Parser.binary last tiers ts a
  | unary        => Parser.unary last ts a
  | term         =>
    match ts with
    | []      => .error ⟨.unexpectedEnd, last⟩
    | t :: us => Parser.term last t us a

-- Reads on after the first operand of what is left associative.
def resume (last : Nat) (p : Parsed ts) : Category → Except Fault (Parsed ts)
  | binary (tier + 1) => Parser.operators last tier p
  | _                 => .ok p

variable {c : Category} {last : Nat}

theorem resume_of_stops {p : Parsed ts} (h : c.Stops p.rest) : c.resume last p = .ok p := by
  match c with
  | .expression | .binary 0 | .unary | .term => rfl
  | .binary (tier + 1) =>
    rw [resume, Parser.operators]
    split
    case h_1 op offset us hr =>
      have hs := stops_cons.mp (hr ▸ h)
      simp only [continues, decide_eq_false_iff_not] at hs
      rw [if_neg (by have := op.level_eq_tier; omega)]
      rfl
    case h_2 => rfl

end Category

theorem Reaches.settles {c : Category} {last : Nat} {x : Except Fault (Parsed ts)}
    (h : Reaches a e d rest (c.resume last) x) (hs : c.Stops rest) : Settles a e d rest x := by
  cases h
  case inl h =>
    have ⟨hf, p, hp, hx⟩ := h
    exact .inl ⟨hf, p, hp, hx.trans (Category.resume_of_stops (hp.rest.symm ▸ hs))⟩
  case inr h => exact .inr h

-- The expression that an operator before `e` makes of it.
def Expr.signed (e : Expr) : Option UnaryOp → Expr
  | none    => e
  | some op => .unary op e

namespace Parser

variable {last : Nat} {t u : Token}

-- One lemma for each production of the grammar.

theorem settles_count (ht : t.lexeme = .count) (ha : a.Valid) :
    Settles a .count 0 us (term last t us a) := by
  rw [term, ht]
  exact Parsed.settles_leaf a.completes_count ha

theorem settles_literal {v : Literal} (ht : t.lexeme = .number v) (ha : a.Valid) :
    Settles a (.literal v) 0 us (term last t us a) := by
  rw [term, ht]
  exact Parsed.settles_leaf (a.completes_literal v) ha

theorem settles_parentheses (ht : t.lexeme = .openParen) (hu : u.lexeme = .closeParen)
    (hx : Settles a e d (u :: rest) (expression last us a)) :
    Settles a e d rest (term last t us a) := by
  rw [term, ht]
  refine Settles.bind hx id fun p hp hf => ?_
  split
  case h_1 vs hr =>
    obtain ⟨_, hv⟩ := List.cons.inj (hp.rest.symm.trans hr)
    exact Settles.of_reads ⟨hp.root, hp.assembly, hv.symm⟩ hf
  case h_2 hr =>
    obtain ⟨_, offset⟩ := u
    cases hu
    exact absurd hp.rest (hr offset rest)

theorem settles_term (ht : t.lexeme.unary? = none) (hx : Settles a e d rest (term last t us a)) :
    Settles a e d rest (unary last (t :: us) a) := by
  rw [unary, ht]
  exact hx

theorem settles_signed {op? : Option UnaryOp} (ht : t.lexeme.unary? = some op?) (ha : a.Valid)
    (hx : a.opened < Assembly.openLimit →
      Settles a.deeper e d rest (unary last us a.deeper)) :
    Settles a (e.signed op?) (d + 1) rest (unary last (t :: us) a) := by
  rw [unary, ht]
  have hfe : a.Fits (e.signed op?) (d + 1) → a.deeper.Fits e d := fun h => by
    have h := Assembly.fits_deeper.mpr h
    cases op?
    case none => exact h
    case some => exact h.unary
  refine Reaches.enter _ fun ho => Settles.bind (hx ho) hfe fun p hp hf => ?_
  have hq : Settles a.deeper (e.signed op?) d rest (p.apply op? t.offset) := by
    cases op?
    case none    => exact Settles.of_reads hp hf
    case some op =>
      refine Parsed.settles_add ?_ hf.opened hp.rest _
      rw [hp.root, hp.assembly]
      exact Assembly.completes_unary (ha.deeper ho) op e
  exact Settles.bind hq Assembly.fits_deeper.mpr fun q hq hf =>
    Settles.of_reads (hq.leave.widen _) (Assembly.fits_deeper.mp hf)

theorem reaches_tighter {tier : Nat} (hx : Settles a e d rest (binary last tier ts a)) :
    Reaches a e d rest (operators last tier) (binary last (tier + 1) ts a) := by
  rw [binary]
  exact Settles.bind hx id fun p hp hf => .inl ⟨hf, p, hp, rfl⟩

theorem reaches_binary {op : BinaryOp} {l r : Expr} (ha : a.Valid) (hu : u.lexeme = .operator op)
    (hl : Reaches a l d (u :: us) (operators last op.tier) (binary last (op.tier + 1) ts a))
    (hr : Settles (a.append l) r d' rest (binary last op.tier us (a.append l))) :
    Reaches a (.binary op l r) (max d d') rest (operators last op.tier)
      (binary last (op.tier + 1) ts a) := by
  have ⟨_, offset⟩ := u
  cases hu
  cases hl
  case inr h =>
    have ⟨hf, f, hx, hl⟩ := h
    exact .inr ⟨fun h => hf h.binary.left, f, hx, hl⟩
  case inl h =>
    have ⟨hf, p, hp, hx⟩ := h
    rw [hx, operators]
    split
    case h_2 hn => exact absurd hp.rest (hn op offset us)
    case h_1 op' offset' us' hr' =>
      cases hr'.symm.trans hp.rest
      rw [if_pos rfl]
      have hr : Settles (a.append l) r d' rest (binary last op.tier us p.assembly) :=
        hp.assembly ▸ hr
      refine Settles.bind hr (·.binary.right) fun q hq hfq => ?_
      have ho : a.opened + max d d' ≤ Assembly.openLimit := by
        have := hf.opened
        have := hfq.opened
        simp only [Assembly.opened_append] at this
        omega
      have hs : Settles a (.binary op l r) (max d d') rest
          (q.add (.binary op p.root q.root) offset) := by
        refine Parsed.settles_add ?_ ho hq.rest _
        rw [hp.root, hq.root, hq.assembly]
        exact Assembly.completes_binary ha op l r
      exact Settles.bind hs id fun q hq hf => .inl ⟨hf, _, hq.widen _, rfl⟩

theorem settles_plain (hx : a.opened < Assembly.openLimit →
      Settles a.deeper e d rest (binary last BinaryOp.tiers ts a.deeper))
    (hs : Category.expression.Stops rest) : Settles a e (d + 1) rest (expression last ts a) := by
  rw [expression]
  refine Reaches.enter _ fun ho => Settles.bind (hx ho) Assembly.fits_deeper.mpr fun p hp hf => ?_
  split
  case h_1 hr => cases Category.stops_cons.mp ((hp.rest.symm.trans hr) ▸ hs)
  case h_2 => exact Settles.of_reads hp.leave (Assembly.fits_deeper.mp hf)

theorem settles_conditional {x y z : Expr} {d'' : Nat} {vs : List Token} (ha : a.Valid)
    (ht : t.lexeme = .question) (hu : u.lexeme = .colon)
    (hx : a.opened < Assembly.openLimit →
      Settles a.deeper x d (t :: us) (binary last BinaryOp.tiers ts a.deeper))
    (hy : a.opened < Assembly.openLimit →
      Settles (a.deeper.append x) y d' (u :: vs) (expression last us (a.deeper.append x)))
    (hz : a.opened < Assembly.openLimit →
      Settles ((a.deeper.append x).append y) z d'' rest
        (expression last vs ((a.deeper.append x).append y))) :
    Settles a (.conditional x y z) (max d (max d' d'') + 1) rest (expression last ts a) := by
  have ⟨_, offset⟩ := t
  have ⟨_, offset'⟩ := u
  cases ht
  cases hu
  have hf (h : a.Fits (.conditional x y z) (max d (max d' d'') + 1)) :=
    (Assembly.fits_deeper.mpr h).conditional
  rw [expression]
  refine Reaches.enter _ fun ho => Settles.bind (hx ho) (hf · |>.left) fun p hp hfp => ?_
  split
  case h_2 hn => exact absurd hp.rest (hn offset us)
  case h_1 offset₁ us₁ hr =>
    cases hr.symm.trans hp.rest
    have hy : Settles (a.deeper.append x) y d' (⟨.colon, offset'⟩ :: vs)
        (expression last us p.assembly) := hp.assembly ▸ hy ho
    refine Settles.bind hy (hf · |>.right.left) fun q hq hfq => ?_
    split
    case h_2 hn => exact absurd hq.rest (hn offset' vs)
    case h_1 offset₂ vs₂ hr₂ =>
      cases hr₂.symm.trans hq.rest
      have hz : Settles ((a.deeper.append x).append y) z d'' rest
          (expression last vs q.assembly) := hq.assembly ▸ hz ho
      refine Settles.bind hz (hf · |>.right.right) fun r hr hfr => ?_
      have hs : Settles a.deeper (.conditional x y z) (max d (max d' d'')) rest
          (r.add (.conditional p.root q.root r.root) offset) := by
        refine Parsed.settles_add ?_ ?_ hr.rest _
        · rw [hp.root, hq.root, hr.root, hr.assembly]
          exact Assembly.completes_conditional (ha.deeper ho) x y z
        · have := hfp.opened
          have := hfq.opened
          have := hfr.opened
          simp only [Assembly.opened_append] at *
          omega
      exact Settles.bind hs Assembly.fits_deeper.mpr fun q hq hf =>
        Settles.of_reads (hq.leave.widen _) (Assembly.fits_deeper.mp hf)

end Parser

theorem Derives.head_of_term {ls : List Lexeme} (h : Derives .term ls e d) :
    ∃ l ls', ls = l :: ls' ∧ l.unary? = none := by
  cases h
  case count       => exact ⟨_, _, rfl, rfl⟩
  case literal     => exact ⟨_, _, rfl, rfl⟩
  case parentheses => exact ⟨_, _, rfl, rfl⟩

-- How tokens split where their lexemes do.
theorem map_lexeme_eq_append_cons {ls ms : List Lexeme} {l : Lexeme}
    (h : ts.map Token.lexeme = ls ++ l :: ms) :
    ∃ us t vs, ts = us ++ t :: vs ∧ us.map Token.lexeme = ls ∧ t.lexeme = l ∧
      vs.map Token.lexeme = ms := by
  have ⟨us, ws, hts, hus, hws⟩ := List.map_eq_append_iff.mp h
  have ⟨t, vs, hw, ht, hvs⟩ := List.map_eq_cons_iff.mp hws
  exact ⟨us, t, vs, hw ▸ hts, hus, ht, hvs⟩

open Category in
-- By induction on the derivation. The first operand of what is left associative is read before it
-- is known what it is an operand of, and so the statement is one about reading on after it.
theorem reaches_of_derives {c : Category} {ls : List Lexeme} (h : Derives c ls e d) (last : Nat)
    (hts : ts = us ++ rest) (hus : us.map Token.lexeme = ls) (hs : c.first.Stops rest)
    (ha : a.Valid) : Reaches a e d rest (c.resume last) (c.read last ts a) := by
  induction h generalizing ts us rest a
  case count =>
    obtain ⟨t, us', hu, ht, hn⟩ := List.map_eq_cons_iff.mp hus
    cases List.map_eq_nil_iff.mp hn
    subst hu hts
    exact Parser.settles_count ht ha
  case literal v =>
    obtain ⟨t, us', hu, ht, hn⟩ := List.map_eq_cons_iff.mp hus
    cases List.map_eq_nil_iff.mp hn
    subst hu hts
    exact Parser.settles_literal ht ha
  case parentheses ls e d _ hi =>
    obtain ⟨t, ws, hw, ht, hm⟩ := List.map_eq_cons_iff.mp hus
    obtain ⟨us, u, vs, hv, hus, hu, hn⟩ := map_lexeme_eq_append_cons hm
    cases List.map_eq_nil_iff.mp hn
    have hts : ts = t :: (us ++ u :: rest) := by simp [hts, hw, hv]
    subst hts
    have hstop : Stops .expression (u :: rest) := stops_cons.mpr (by rw [hu]; rfl)
    exact Parser.settles_parentheses ht hu (hi rfl hus hstop ha)
  case term h hi =>
    obtain ⟨l, ls', hl, hn⟩ := h.head_of_term
    obtain ⟨t, ws, hw, ht, _⟩ := List.map_eq_cons_iff.mp (hus.trans hl)
    have hx := hi hts hus hs ha
    subst hw hts
    exact Parser.settles_term (ht ▸ hn) hx
  case not hi =>
    obtain ⟨t, ws, hw, ht, hm⟩ := List.map_eq_cons_iff.mp hus
    have ht : t.lexeme.unary? = some (some .not) := by rw [ht]; rfl
    subst hw hts
    exact Parser.settles_signed ht ha fun ho => hi rfl hm hs (ha.deeper ho)
  case negate hi =>
    obtain ⟨t, ws, hw, ht, hm⟩ := List.map_eq_cons_iff.mp hus
    have ht : t.lexeme.unary? = some (some .negate) := by rw [ht]; rfl
    subst hw hts
    exact Parser.settles_signed ht ha fun ho => hi rfl hm hs (ha.deeper ho)
  case plus hi =>
    obtain ⟨t, ws, hw, ht, hm⟩ := List.map_eq_cons_iff.mp hus
    have ht : t.lexeme.unary? = some none := by rw [ht]; rfl
    subst hw hts
    exact Parser.settles_signed ht ha fun ho => hi rfl hm hs (ha.deeper ho)
  case unary hi =>
    have hx := hi hts hus stops_unary ha
    rw [Category.read, Parser.binary]
    exact hx
  case tighter hi =>
    exact Parser.reaches_tighter ((hi hts hus hs.first ha).settles hs)
  case binary op _ _ _ _ _ _ _ _ hl hr =>
    rw [op.level_eq_tier] at hl hr hs ⊢
    obtain ⟨us, u, vs, hv, hus, hu, hvs⟩ := map_lexeme_eq_append_cons hus
    have hts : ts = us ++ u :: (vs ++ rest) := by simp [hts, hv]
    have hstop : Stops (.binary op.tier) (u :: (vs ++ rest)) :=
      stops_cons.mpr (by simp [hu, continues, op.level_eq_tier])
    exact Parser.reaches_binary ha hu (hl hts hus hstop ha)
      ((hr rfl hvs hs.first (ha.append _)).settles hs)
  case plain hi =>
    exact Parser.settles_plain
      (fun ho => (hi hts hus hs.binary.first (ha.deeper ho)).settles hs.binary) hs
  case conditional hx hy hz =>
    obtain ⟨us, t, ws, hw, hus, ht, hws⟩ := map_lexeme_eq_append_cons hus
    obtain ⟨vs, u, ws', hw', hvs, hu, hws'⟩ := map_lexeme_eq_append_cons hws
    have hts : ts = us ++ t :: (vs ++ u :: (ws' ++ rest)) := by simp [hts, hw, hw']
    have ht' : Stops (.binary BinaryOp.tiers) (t :: (vs ++ u :: (ws' ++ rest))) :=
      stops_cons.mpr (by rw [ht]; rfl)
    have hu' : Stops .expression (u :: (ws' ++ rest)) := stops_cons.mpr (by rw [hu]; rfl)
    exact Parser.settles_conditional ha ht hu
      (fun ho => (hx hts hus ht'.first (ha.deeper ho)).settles ht')
      (fun ho => hy rfl hvs hu' ((ha.deeper ho).append _))
      (fun ho => hz rfl hws' hs (((ha.deeper ho).append _).append _))

theorem settles_of_derives {c : Category} (h : Derives c (us.map Token.lexeme) e d) (last : Nat)
    (hts : ts = us ++ rest) (hs : c.Stops rest) (ha : a.Valid) :
    Settles a e d rest (c.read last ts a) :=
  (reaches_of_derives h last hts rfl hs.first ha).settles hs

end MessageCatalog.Plural
