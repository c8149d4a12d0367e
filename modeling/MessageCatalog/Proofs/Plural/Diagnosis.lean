import MessageCatalog.Plural.Rule
import MessageCatalog.Proofs.Plural.Offsets
import MessageCatalog.Proofs.Plural.Refusing

namespace MessageCatalog.Plural

open Token

variable {f : Fault} {i last : Nat} {ts ts' us : List Token}

-- The faults of what is no sentence.
def Reason.ofGrammar : List Reason :=
  [.unexpectedToken, .extraToken, .missingParenthesis, .missingColon, .unexpectedEnd]

theorem Reason.not_isLimit (h : f.reason ∈ ofGrammar) : ¬f.IsLimit := by
  rintro (hf | hf)
  all_goals
    rw [hf] at h
    exact absurd h (by decide)

-- An expression, without regard to the limits.
def Sentence (ls : List Lexeme) : Prop :=
  ∃ e d, Derives .expression ls e d

theorem Token.exists_lexemes (ls : List Lexeme) : ∃ ts : List Token, ts.map lexeme = ls :=
  ⟨ls.map (⟨·, 0⟩), by simp [Function.comp_def]⟩

-- A sentence that goes on from what is viable looks the same up to there.
theorem exists_sentence {t : Token} (ht : ts.drop i = t :: us)
    (h : Viable .expression ((ts.take i ++ [t]).map lexeme)) :
    ∃ ts', Alike i ts ts' ∧ Sentence (ts'.map lexeme) := by
  have ⟨more, e, d, hd⟩ := h
  have ⟨vs, hvs⟩ := exists_lexemes more
  refine ⟨ts.take i ++ [t] ++ vs, ?_, e, d, by rwa [List.map_append, hvs]⟩
  have hi : ts.take i ++ [t] = ts.take (i + 1) := by rw [List.take_add, ht]; rfl
  have hl : (ts.take (i + 1)).length = i + 1 := by
    have := congrArg List.length ht
    rw [List.length_drop, List.length_cons] at this
    exact List.length_take_of_le (by omega)
  rw [Alike, ← List.map_take, ← List.map_take, hi, List.take_left' hl]

namespace Program

-- The code of tokens.
def ofTokens (last : Nat) (ts : List Token) : Except Fault Program := do
  let p ← Parser.expression last ts {}
  match p.rest with
  | []     => return p.assembly.program
  | t :: _ => throw ⟨.extraToken, t.offset⟩

theorem parse_eq (c : Text.Cursor) : parse c = scan c.offset c.rest >>= ofTokens c.last :=
  rfl

theorem ofTokens_of_sentence (h : Sentence (ts.map lexeme)) (hx : ofTokens last ts = .error f) :
    f.IsLimit := by
  have ⟨e, d, hd⟩ := h
  cases settles_of_derives hd last ts.append_nil.symm Category.stops_nil Assembly.valid_empty
  case inl hp =>
    have ⟨_, p, hp, hr⟩ := hp
    have hr : Parser.expression last ts {} = .ok p := hr
    rw [ofTokens, hr, Outcome.ok_bind, hp.rest] at hx
    cases hx
  case inr hp =>
    have ⟨_, g, hr, hl⟩ := hp
    have hr : Parser.expression last ts {} = .error g := hr
    rw [ofTokens, hr] at hx
    cases hx
    exact hl

theorem ofTokens_of_lexemes {p : Program} (h : ofTokens last ts = .ok p)
    (hts : ts.map lexeme = ts'.map lexeme) (last' : Nat) : ofTokens last' ts' = .ok p := by
  obtain ⟨q, hq, h⟩ := Outcome.bind_eq_ok.mp h
  split at h
  case h_2 => cases h
  case h_1 hr =>
    cases h
    have hv := Assembly.valid_empty
    obtain ⟨n, _, _, hf, hs⟩ := Parsed.exists_follows (c := .expression) hv hq
    have hts : Alike n ts ts' := by rw [Alike, hts]
    obtain ⟨q', hq', hp⟩ := hf.repeats hs hv hts last'
    have hq' : Parser.expression last' ts' {} = .ok q' := hq'
    have hd := Alike.drop (k := 0) hts
    rw [← hf.reads.rest, hr] at hd
    rw [ofTokens, hq', Outcome.ok_bind, hp.rest, hd.nil, hp.assembly]
    rfl

theorem ofTokens_eq_error (h : ofTokens last ts = .error f) :
    ∃ i m, (∀ last' ts', Alike m ts ts' →
        ofTokens last' ts' = .error ⟨f.reason, nextOffset last' (ts'.drop i)⟩) ∧
      (f.IsLimit ∨ i = m ∧ Viable .expression ((ts.take i).map lexeme)) := by
  cases Outcome.bind_eq_error.mp h
  case inl h =>
    obtain ⟨i, m, he, hc⟩ := Parser.refuses_of_error Assembly.valid_empty h
    refine ⟨i, m, fun last' ts' hts => ?_, hc⟩
    have he : Parser.expression last' ts' {} = _ := he last' ts' hts
    rw [ofTokens, he]
    rfl
  case inr h =>
    obtain ⟨q, hq, h⟩ := h
    split at h
    case h_1 => cases h
    case h_2 t us hr =>
      cases h
      have hv := Assembly.valid_empty
      obtain ⟨n, _, _, hf, hs⟩ := Parsed.exists_follows (c := .expression) hv hq
      refine ⟨n, n, fun last' ts' hts => ?_, .inr ⟨rfl, .of_derives hf.derives⟩⟩
      obtain ⟨q', hq', hp⟩ := hf.repeats hs hv hts last'
      have hq' : Parser.expression last' ts' {} = .ok q' := hq'
      have hd := hts.drop_cons (hf.reads.rest.symm.trans hr) last'
      rw [ofTokens, hq', Outcome.ok_bind, hp.rest, hd]
      rfl

-- The same error on the same tokens says where it is.
theorem offset_of_ofTokens {m : Nat} (h : ofTokens last ts = .error f)
    (he : ∀ last' ts', Alike m ts ts' →
      ofTokens last' ts' = .error ⟨f.reason, nextOffset last' (ts'.drop i)⟩) :
    f.offset = nextOffset last (ts.drop i) :=
  congrArg Fault.offset (Except.error.inj (h.symm.trans (he last ts rfl)))

variable {c : Text.Cursor}

theorem parse_eq_error_earliest (hs : scan c.offset c.rest = .ok ts) (h : parse c = .error f)
    (hf : f.reason ∈ Reason.ofGrammar) :
    let before := ts.filter (·.offset < f.offset)
    Viable .expression (before.map lexeme) ∧
      ((∃ t after, ts = before ++ t :: after ∧ t.offset = f.offset ∧
          ¬Viable .expression ((before ++ [t]).map lexeme)) ∨
        f.offset = c.last ∧ Viable .expression (ts.map lexeme) ∧ ¬Sentence (ts.map lexeme)) := by
  have hl := Reason.not_isLimit hf
  rw [parse_eq, hs] at h
  have ⟨i, m, he, hc⟩ := ofTokens_eq_error h
  have ⟨him, hv⟩ := hc.resolve_left hl
  subst him
  have ho := offset_of_ofTokens h he
  have hn (ts' : List Token) (hts : Alike i ts ts') : ¬Sentence (ts'.map lexeme) := by
    intro hs
    have hg : Fault.IsLimit ⟨f.reason, _⟩ := ofTokens_of_sentence hs (he c.last ts' hts)
    exact hl hg
  have hb : ts.filter (·.offset < f.offset) = ts.take i := by
    rw [ho]
    exact (placed_of_scan hs).filter_eq_take i
  simp only [hb]
  refine ⟨hv, ?_⟩
  cases hd : ts.drop i
  case cons t after =>
    refine .inl ⟨t, after, by rw [← hd, List.take_append_drop], by rw [ho, hd]; rfl, fun hv => ?_⟩
    have ⟨ts', hts, hs⟩ := exists_sentence hd hv
    exact hn ts' hts hs
  case nil =>
    have ht : ts.take i = ts := by
      have := ts.take_append_drop i
      rwa [hd, List.append_nil] at this
    exact .inr ⟨by rw [ho, hd]; rfl, ht ▸ hv, hn ts rfl⟩

theorem parse_eq_error_earliest_parentheses :
    (parse ⟨3, "n )".toList⟩ = .error ⟨.extraToken, 5⟩ ∧
      Viable .expression [.count] ∧ ¬Viable .expression [.count, .closeParen]) ∧
    parse ⟨3, "( n".toList⟩ = .error ⟨.missingParenthesis, 6⟩ ∧
      Viable .expression [.openParen, .count] ∧ ¬Sentence [.openParen, .count] := by
  constructor
  · have hs : scan 3 "n )".toList = .ok [⟨.count, 3⟩, ⟨.closeParen, 5⟩] := by cbv
    have h : parse ⟨3, "n )".toList⟩ = .error ⟨.extraToken, 5⟩ := by cbv
    obtain ⟨hv, he⟩ := parse_eq_error_earliest (c := ⟨3, "n )".toList⟩) hs h (by decide)
    refine ⟨h, hv, ?_⟩
    cases he
    case inl he =>
      obtain ⟨t, after, ht, _, hn⟩ := he
      cases ht
      exact hn
    case inr he => cases he.left
  · have hs : scan 3 "( n".toList = .ok [⟨.openParen, 3⟩, ⟨.count, 5⟩] := by cbv
    have h : parse ⟨3, "( n".toList⟩ = .error ⟨.missingParenthesis, 6⟩ := by cbv
    obtain ⟨hv, he⟩ := parse_eq_error_earliest (c := ⟨3, "( n".toList⟩) hs h (by decide)
    refine ⟨h, hv, ?_⟩
    cases he
    case inl he =>
      obtain ⟨t, after, ht, _⟩ := he
      cases ht
    case inr he => exact he.right.right

end Program

end MessageCatalog.Plural
