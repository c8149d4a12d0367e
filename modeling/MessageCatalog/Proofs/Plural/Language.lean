import MessageCatalog.Proofs.Plural.Lexing
import MessageCatalog.Proofs.Plural.Phrases
import MessageCatalog.Proofs.Plural.Shape

namespace MessageCatalog.Plural

open Text

variable {c : Cursor} {e : Expr} {d : Nat} {p : Program} {ls : List Lexeme} {source : String}

theorem Assembly.program_append (e : Expr) : (({} : Assembly).append e).program = e.program := by
  simp [Assembly.append, Assembly.program, Expr.program]

namespace Program

theorem parse_of_derives (hs : Lexeme.Splits c.rest ls) (hd : Derives .expression ls e d) :
    ({} : Assembly).Fits e d ∧ parse c = .ok e.program ∨
      ¬({} : Assembly).Fits e d ∧ ∃ f, parse c = .error f ∧ f.IsLimit := by
  obtain ⟨ts, hts, hls⟩ := Token.scan_of_splits hs c.offset
  have hx := settles_of_derives (hls.symm ▸ hd) c.last ts.append_nil.symm Category.stops_nil
    Assembly.valid_empty
  simp only [parse, hts, bind, Except.bind]
  cases hx
  case inl hx =>
    obtain ⟨hf, p, hp, hx⟩ := hx
    have hx : Parser.expression c.last ts {} = .ok p := hx
    refine .inl ⟨hf, ?_⟩
    simp only [hx, hp.rest, hp.assembly, Assembly.program_append]
    rfl
  case inr hx =>
    obtain ⟨hf, f, hx, hl⟩ := hx
    have hx : Parser.expression c.last ts {} = .error f := hx
    exact .inr ⟨hf, f, by simp only [hx], hl⟩

theorem derives_of_parse (h : parse c = .ok p) :
    ∃ ls e d, Lexeme.Splits c.rest ls ∧ Derives .expression ls e d := by
  obtain ⟨ts, hts, h⟩ := Outcome.bind_eq_ok.mp h
  obtain ⟨q, hq, h⟩ := Outcome.bind_eq_ok.mp h
  split at h
  case h_2 => cases h
  case h_1 hr =>
    obtain ⟨us, e, d, hus, hd⟩ := (Parser.phrases c.last).1 ts {} q hq |>.spans
    refine ⟨ts.map Token.lexeme, e, d, Token.splits_of_scan hts, ?_⟩
    rw [hr, List.append_nil] at hus
    exact hus ▸ hd

end Program

namespace Rule

-- The number of forms that a text states and the expression for selecting one, in whose phrase
-- `depth` constructs are open at the deepest place.
inductive States (source : String) : (forms : Nat) → Expr → (depth : Nat) → Prop
  | intro {digits expression : List Char} {ls : List Lexeme} {e : Expr} {depth : Nat}
      (shape : Shape source.toList digits expression) (forms_lt : decimalValue digits < UInt64.size)
      (splits : Lexeme.Splits expression ls) (derives : Derives .expression ls e depth) :
      States source (decimalValue digits) e depth

theorem parse_of_states {forms : Nat} (h : States source forms e d) :
    ({} : Assembly).Fits e d ∧ parse source = .ok ⟨source, forms, e.program⟩ ∨
      ¬({} : Assembly).Fits e d ∧ ∃ f, parse source = .error f ∧ f.IsLimit := by
  have ⟨hshape, hlt, hsplits, hd⟩ := h
  have ⟨c, hc, hr⟩ := split_of_shape hshape hlt
  simp only [parse, hc, bind, Except.bind]
  cases Program.parse_of_derives (hr.symm ▸ hsplits) hd
  case inl hx =>
    have ⟨hf, hx⟩ := hx
    exact .inl ⟨hf, by rw [hx]; rfl⟩
  case inr hx =>
    have ⟨hf, f, hx, hl⟩ := hx
    exact .inr ⟨hf, f, by rw [hx], hl⟩

theorem states_of_parse {r : Rule} (h : parse source = .ok r) :
    ∃ e d, States source r.forms e d := by
  have ⟨(forms, c), hc, h⟩ := Outcome.bind_eq_ok.mp h
  have ⟨p, hp, h⟩ := Outcome.bind_eq_ok.mp h
  cases h
  have ⟨digits, hshape, hv, hlt⟩ := shape_of_split hc
  have ⟨ls, e, d, hs, hd⟩ := Program.derives_of_parse hp
  subst hv
  exact ⟨e, d, .intro hshape hlt hs hd⟩

theorem parse_eq_ok_iff (source : String) (r : Rule) :
    parse source = .ok r ↔
      ∃ e depth, States source r.forms e depth ∧ depth ≤ 64 ∧ e.height ≤ 256 ∧ e.size ≤ 65536 ∧
        r.source = source ∧ r.program = e.program := by
  constructor
  · intro h
    have ⟨e, depth, hs⟩ := states_of_parse h
    cases parse_of_states hs
    case inl hx =>
      have ⟨⟨ho, hh, hz⟩, hx⟩ := hx
      have hr := Except.ok.inj (h.symm.trans hx)
      simp only [Nat.zero_add, List.size_toArray, List.length_nil] at ho hz
      exact ⟨e, depth, hs, ho, hh, hz, congrArg Rule.source hr, congrArg Rule.program hr⟩
    case inr hx =>
      have ⟨_, f, hx, _⟩ := hx
      cases h.symm.trans hx
  · intro ⟨e, depth, hs, ho, hh, hz, hr, hp⟩
    have hf : ({} : Assembly).Fits e depth := by
      refine ⟨?_, hh, ?_⟩
      · rw [Nat.zero_add]
        exact ho
      · rw [List.size_toArray, List.length_nil, Nat.zero_add]
        exact hz
    cases parse_of_states hs
    case inl hx => rw [hx.right, ← hr, ← hp]
    case inr hx => exact absurd hf hx.left

-- An operator of each level, the tightest one innermost, and blanks of several kinds.
theorem parse_levels :
    ∃ source r e depth,
      source = "nplurals=4;\tplural = n*2+1<n ==n&& 0||!n?9223372036854775807:-n ;\n" ∧
      parse source = .ok r ∧ States source r.forms e depth ∧
      e = .conditional
        (.binary .or
          (.binary .and
            (.binary .equal
              (.binary .less
                (.binary .add (.binary .multiply .count (.literal ⟨2, by decide⟩))
                  (.literal ⟨1, by decide⟩))
                .count)
              .count)
            (.literal ⟨0, by decide⟩))
          (.unary .not .count))
        (.literal ⟨9223372036854775807, by decide⟩) (.unary .negate .count) ∧
      depth ≤ 64 ∧ e.height ≤ 256 ∧ e.size ≤ 65536 ∧ r.source = source ∧ r.program = e.program := by
  have h : parse "nplurals=4;\tplural = n*2+1<n ==n&& 0||!n?9223372036854775807:-n ;\n" =
      .ok ⟨"nplurals=4;\tplural = n*2+1<n ==n&& 0||!n?9223372036854775807:-n ;\n", 4, ⟨#[
        .count, .literal ⟨2, by decide⟩, .binary .multiply 0 1, .literal ⟨1, by decide⟩,
        .binary .add 2 3, .count, .binary .less 4 5, .count, .binary .equal 6 7,
        .literal ⟨0, by decide⟩, .binary .and 8 9, .count, .unary .not 11, .binary .or 10 12,
        .literal ⟨9223372036854775807, by decide⟩, .count, .unary .negate 15,
        .conditional 13 14 16]⟩⟩ := by
    cbv
  obtain ⟨e, depth, hs, ho, hh, hz, hr, hp⟩ := (parse_eq_ok_iff ..).mp h
  exact ⟨_, _, e, depth, rfl, h, hs, Expr.program_injective hp.symm, ho, hh, hz, hr, hp⟩

end Rule

end MessageCatalog.Plural
