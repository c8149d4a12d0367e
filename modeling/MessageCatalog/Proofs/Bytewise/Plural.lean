import MessageCatalog.Proofs.Bytewise.Text
import MessageCatalog.Proofs.Plural.Diagnosis

namespace MessageCatalog.Bytewise

open Text Plural

-- The lexeme at an offset, where a byte has been seen, and the number of its bytes. No lexeme has
-- more than two bytes, apart from numbers.
def readLexeme (s : String) (i : Nat) (b : Char) : Guarded Reason (Lexeme × Nat) :=
  if b.isDigit then do
    let count ← countFrom s Char.isDigit i
    let digits ← cut s i (i + count)
    if h : decimalValue digits.toList < literalBound then
      return (.number ⟨decimalValue digits.toList, h⟩, count)
    else
      throw (.error .numberTooLarge)
  else
    match Lexeme.spelled.find? (·.text.isPrefixOf (b :: (byte? s (i + 1)).toList)) with
    | some l => return (l, l.text.length)
    | none   => throw (.error .unexpectedCharacter)

-- The tokens from an offset on of a text that stands at another offset itself.
def scan (s : String) (base i : Nat) : Guarded Fault (List Token) :=
  match _h : byte? s i with
  | none   => return []
  | some b => do
    if isBlank b then
      scan s base (i + 1)
    else
      let (lexeme, length) ← (readLexeme s i b).mapError (Halt.map (⟨·, base + i⟩))
      if 0 < length then
        return ⟨lexeme, base + i⟩ :: (← scan s base (i + length))
      else
        throw (.trap .standstill)
termination_by s.utf8ByteSize - i
decreasing_by
  all_goals have := lt_of_byte? _h
  all_goals omega

section Tokens

variable {s : String} {c : Cursor} {b : Char}

theorem readLexeme_eq (h : c.In s) (hb : byte? s c.offset = some b) :
    readLexeme s c.offset b = lift (Lexeme.read c.rest) := by
  have hrun := h.run_eq_nil_iff utf8Size_of_isDigit hb
  rw [Lexeme.read.eq_def]
  split
  case h_1 hr =>
    have hf : Lexeme.spelled.find? (·.text.isPrefixOf (b :: (byte? s (c.offset + 1)).toList)) =
        Lexeme.spelled.find? (·.text.isPrefixOf c.rest) := by
      refine List.find?_congr fun l hl => ?_
      have table : ∀ l ∈ Lexeme.spelled, l.text ≠ [] ∧ l.text.length ≤ 2 ∧
          l.text.all (·.utf8Size = 1) := by decide
      have ⟨hn, hlen, ha⟩ := table l hl
      rw [Bool.eq_iff_iff, List.isPrefixOf_iff_prefix, List.isPrefixOf_iff_prefix,
        h.isPrefix_iff hb hn hlen (by simpa using ha)]
    rw [readLexeme, if_neg (hrun.mp hr), hf]
    cases Lexeme.spelled.find? (·.text.isPrefixOf c.rest) <;> rfl
  case h_2 hr =>
    rw [readLexeme, if_pos (not_not.mp (hrun.not.mp hr)), h.countFrom utf8Size_of_isDigit,
      Outcome.ok_bind, h.cut_run utf8Size_of_isDigit, Outcome.ok_bind, String.toList_ofList,
      Cursor.run]
    split <;> rfl

theorem scan_eq {base i : Nat} {cs : List Char} (h : (⟨i, cs⟩ : Cursor).In s) :
    scan s base i = lift (Token.scan (base + i) cs) := by
  fun_induction scan s base i generalizing cs
  case case1 i hb =>
    match cs with
    | []     => rw [Token.scan]; rfl
    | _ :: _ =>
      obtain ⟨_, hs, _⟩ := h.byte?_of_cons rfl
      cases hb.symm.trans hs
  case case2 i b hb blank ih =>
    obtain ⟨a, as, hr, ha⟩ := h.rest_of_byte? hb
    cases ha (.inr (utf8Size_of_isBlank blank))
    have hs := Token.skip_blank blank hr ▸ h.skip 1
    rw [show cs = b :: as from hr, Token.scan, if_pos blank, ih hs]
    rfl
  case case3 i b hb blank ih =>
    obtain ⟨a, as, hr, ha⟩ := h.rest_of_byte? hb
    have hn : ¬isBlank a := fun hn => blank (ha (.inl (utf8Size_of_isBlank hn)) ▸ hn)
    have hl := readLexeme_eq h hb
    dsimp only at hr hl
    subst hr
    rw [hl, lift_mapError, Token.scan, if_neg hn]
    split
    case h_1 reason hread => rw [hread]; rfl
    case h_2 lexeme length hread =>
      have hs := Token.skip_of_read (c := ⟨i, a :: as⟩) hread ▸ h.skip length
      have hp := Lexeme.length_pos_of_read hread
      rw [hread, lift_bind, Nat.add_assoc, ← ih length hp hs]
      exact if_pos hp

end Tokens

section Rules

def readForms (c : Cursor) : Guarded Fault (Nat × Cursor) := do
  let c := c.skipRun isBlank
  let rest := String.ofList c.rest
  let count ← countFrom rest Char.isDigit 0
  let digits ← cut rest 0 count
  if digits.toList = [] ∨ Rule.formsBound ≤ decimalValue digits.toList then
    throw (.error ⟨.missingFormsNumber, c.offset⟩)
  else
    let behind ← cut rest count rest.utf8ByteSize
    return (decimalValue digits.toList, ⟨c.offset + count, behind.toList⟩)

def split (text : List Char) : Guarded Fault (Nat × Cursor) := do
  let c ← lift (Rule.expect "nplurals".toList .missingForms (.start text))
  let c ← lift (Rule.expect ['='] .missingFormsSign c)
  let (forms, c) ← readForms c
  let c ← lift (Rule.expect [';'] .missingFormsEnd c)
  if c.run isBlank = [] then
    throw (.error ⟨.missingBlank, c.offset⟩)
  let c ← lift (Rule.expect "plural".toList .missingPlural c)
  let c ← lift (Rule.expect ['='] .missingPluralSign c)
  return (forms, ← lift (Rule.readExpression c))

def parse (source : String) : Guarded Fault Rule := do
  let (forms, expression) ← split source.toList
  let ts ← scan (.ofList expression.rest) expression.offset 0
  let program ← lift (Program.ofTokens expression.last ts)
  return { source, forms, program }

theorem readForms_eq (c : Cursor) : readForms c = lift (Rule.readForms c) := by
  rw [readForms, Rule.readForms]
  generalize c.skipRun isBlank = c
  have h := Cursor.In.start_ofList c.rest
  have hs : Cursor.In ⟨0 + (c.run Char.isDigit).length, _⟩ _ :=
    h.skipRun utf8Size_of_isDigit
  have hcount : countFrom (.ofList c.rest) Char.isDigit 0 =
      (.ok (c.run Char.isDigit).length : Guarded Fault Nat) :=
    h.countFrom utf8Size_of_isDigit
  have hcut : cut (.ofList c.rest) 0 (0 + (c.run Char.isDigit).length) =
      (.ok (.ofList (c.run Char.isDigit)) : Guarded Fault String) :=
    h.cut_run utf8Size_of_isDigit
  have hr : c.skip (c.run Char.isDigit).length = _ :=
    c.skipRun_eq utf8Size_of_isDigit
  have hlast := hs.cut_last (ε := Fault)
  rw [Nat.zero_add] at hcut hlast
  rw [hcount, Outcome.ok_bind, hcut, Outcome.ok_bind, hlast, Outcome.ok_bind,
    String.toList_ofList, String.toList_ofList, hr]
  split <;> rfl

theorem split_eq (text : List Char) : split text = lift (Rule.split text) := by
  refine bind_eq_lift rfl fun c => ?_
  refine bind_eq_lift rfl fun c => ?_
  refine bind_eq_lift (readForms_eq c) fun (forms, c) => ?_
  refine bind_eq_lift rfl fun c => ?_
  dsimp only
  split
  case isTrue  => rfl
  case isFalse =>
    refine bind_eq_lift rfl fun c => ?_
    refine bind_eq_lift rfl fun c => ?_
    exact bind_eq_lift rfl fun c => rfl

theorem parse_eq_lift (source : String) : parse source = lift (Rule.parse source) := by
  refine bind_eq_lift (split_eq _) fun (forms, expression) => ?_
  have h := Cursor.In.start_ofList expression.rest
  refine Eq.trans ?_ (congrArg _ (bind_assoc _ _ _).symm)
  refine bind_eq_lift (scan_eq h) fun ts => ?_
  exact bind_eq_lift rfl fun program => rfl

end Rules

end MessageCatalog.Bytewise
