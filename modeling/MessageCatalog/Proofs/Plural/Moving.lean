import MessageCatalog.Proofs.Plural.Locating

namespace MessageCatalog

open Text

variable {α α' β β' : Type}

namespace Text.Cursor

-- The same cursor in a text that is longer by `k` bytes in front.
def moved (k : Nat) (c : Cursor) : Cursor :=
  { c with offset := c.offset + k }

variable {c : Cursor} {k n : Nat} {p : Char → Bool}

theorem skip_moved : (c.moved k).skip n = (c.skip n).moved k := by
  ext1
  · exact Nat.add_right_comm ..
  · rfl

theorem skipRun_moved : (c.moved k).skipRun p = (c.skipRun p).moved k :=
  skip_moved

theorem last_moved : (c.moved k).last = c.last + k :=
  Nat.add_right_comm ..

-- Blanks in front are passed over together with those that follow them.
theorem skipRun_start {w text : List Char} (hw : ∀ x ∈ w, p x) :
    (start (w ++ text)).skipRun p = ((start text).skipRun p).moved (byteLength w) := by
  have hr : (start (w ++ text)).run p = w ++ (start text).run p := List.takeWhile_append_of_pos hw
  have hs : (start (w ++ text)).skip w.length = (start text).moved (byteLength w) := skip_append rfl
  rw [skipRun, hr, List.length_append, ← skip_skip, hs, skip_moved]
  rfl

end Text.Cursor

namespace Plural

def Fault.moved (k : Nat) (f : Fault) : Fault :=
  { f with offset := f.offset + k }

def Token.moved (k : Nat) (t : Token) : Token :=
  { t with offset := t.offset + k }

-- What becomes of an outcome when the text is longer by `k` bytes in front.
def Outcome.moved (k : Nat) (g : α → α') : Except Fault α → Except Fault α'
  | .ok a    => .ok (g a)
  | .error f => .error (f.moved k)

variable {k : Nat}

theorem Outcome.moved_bind {g : α → α'} {g' : β → β'} {x : Except Fault α}
    {r : α → Except Fault β} {r' : α' → Except Fault β'} (h : ∀ a, r' (g a) = moved k g' (r a)) :
    (moved k g x >>= r') = moved k g' (x >>= r) := by
  cases x
  case error => rfl
  case ok a  => exact h a

theorem Token.scan_moved (offset k : Nat) (cs : List Char) :
    scan (offset + k) cs = Outcome.moved k (List.map (moved k)) (scan offset cs) := by
  fun_induction scan offset cs
  case case1 => rw [scan]; rfl
  case case2 offset c cs hb ih => rw [scan_blank hb, Nat.add_right_comm, ih]
  case case3 offset c cs hb reason hr =>
    rw [scan, if_neg hb]
    split
    case h_1 reason' hr' =>
      cases hr.symm.trans hr'
      rfl
    case h_2 hr' => cases hr.symm.trans hr'
  case case4 offset c cs hb l n hr ih =>
    rw [scan, if_neg hb]
    split
    case h_1 hr' => cases hr.symm.trans hr'
    case h_2 hr' =>
      cases hr.symm.trans hr'
      rw [Nat.add_right_comm, ih]
      exact Outcome.moved_bind fun _ => rfl

theorem Token.nextOffset_moved (last k : Nat) (ts : List Token) :
    nextOffset (last + k) (ts.map (moved k)) = nextOffset last ts + k := by
  cases ts <;> rfl

namespace Program

theorem ofTokens_moved (last k : Nat) (ts : List Token) :
    ofTokens (last + k) (ts.map (Token.moved k)) = Outcome.moved k id (ofTokens last ts) := by
  have hl : ts.map Token.lexeme = (ts.map (Token.moved k)).map Token.lexeme := by
    simp [Function.comp_def, Token.moved]
  cases h : ofTokens last ts
  case ok p    => exact ofTokens_of_lexemes h hl _
  case error f =>
    have ⟨i, m, he, _⟩ := ofTokens_eq_error h
    rw [he _ _ (by rw [Token.Alike, hl]), ← List.map_drop, Token.nextOffset_moved,
      ← offset_of_ofTokens h he]
    rfl

theorem parse_moved (k : Nat) (c : Cursor) : parse (c.moved k) = Outcome.moved k id (parse c) := by
  have hs : Token.scan (c.moved k).offset (c.moved k).rest =
      Outcome.moved k (List.map (Token.moved k)) (Token.scan c.offset c.rest) :=
    Token.scan_moved c.offset k c.rest
  rw [parse_eq, parse_eq, hs, Cursor.last_moved]
  exact Outcome.moved_bind fun ts => ofTokens_moved c.last k ts

end Program

namespace Rule

variable {word : List Char} {reason : Reason} {c : Cursor} {w text : List Char}

theorem expect_moved :
    expect word reason (c.moved k) = Outcome.moved k (·.moved k) (expect word reason c) := by
  simp only [expect, Cursor.skipRun_moved, Cursor.skip_moved]
  have hr : ((c.skipRun isBlank).moved k).rest = (c.skipRun isBlank).rest := rfl
  rw [hr]
  split <;> rfl

theorem expect_start (hw : Blanks w) :
    expect word reason (.start (w ++ text)) =
      Outcome.moved (byteLength w) (·.moved (byteLength w)) (expect word reason (.start text)) := by
  simp only [expect, Cursor.skipRun_start hw, Cursor.skip_moved]
  have hr : ((Cursor.start text |>.skipRun isBlank).moved (byteLength w)).rest =
    (Cursor.start text |>.skipRun isBlank).rest := rfl
  rw [hr]
  split <;> rfl

theorem readForms_moved :
    readForms (c.moved k) = Outcome.moved k (Prod.map id (·.moved k)) (readForms c) := by
  simp only [readForms, Cursor.skipRun_moved, Cursor.skip_moved]
  have hr : ((c.skipRun isBlank).moved k).run Char.isDigit =
    (c.skipRun isBlank).run Char.isDigit := rfl
  rw [hr]
  split <;> rfl

theorem readExpression_moved :
    readExpression (c.moved k) = Outcome.moved k (·.moved k) (readExpression c) := by
  simp only [readExpression, Cursor.last_moved]
  have hr : (c.moved k).rest = c.rest := rfl
  rw [hr]
  split <;> rfl

theorem split_append (hw : Blanks w) (text : List Char) :
    split (w ++ text) =
      Outcome.moved (byteLength w) (Prod.map id (·.moved (byteLength w))) (split text) := by
  unfold split
  rw [expect_start hw]
  refine Outcome.moved_bind fun _ => ?_
  rw [expect_moved]
  refine Outcome.moved_bind fun _ => ?_
  rw [readForms_moved]
  refine Outcome.moved_bind fun (forms, c) => ?_
  simp only [Prod.map, id]
  rw [expect_moved]
  refine Outcome.moved_bind fun c => ?_
  have hr : (c.moved (byteLength w)).run isBlank = c.run isBlank := rfl
  rw [hr]
  split
  case isTrue  => rfl
  case isFalse =>
    rw [expect_moved]
    refine Outcome.moved_bind fun _ => ?_
    rw [expect_moved]
    refine Outcome.moved_bind fun _ => ?_
    rw [readExpression_moved]
    exact Outcome.moved_bind fun _ => rfl

theorem parse_append {w : String} (hw : Blanks w.toList) (source : String) :
    parse (w ++ source) = Outcome.moved w.utf8ByteSize (fun r => { r with source := w ++ source })
      (parse source) := by
  have hb : byteLength w.toList = w.utf8ByteSize := by
    rw [← utf8ByteSize_ofList, String.ofList_toList]
  unfold parse
  rw [String.toList_append, split_append hw, hb]
  refine Outcome.moved_bind fun (forms, c) => ?_
  simp only [Prod.map, id, Program.parse_moved]
  exact Outcome.moved_bind fun _ => rfl

theorem isValid_of_ahead {source : String} {offset : Nat}
    (h : (Cursor.start source.toList).Ahead offset) :
    String.Pos.Raw.IsValid source ⟨offset⟩ := by
  have ⟨n, ho⟩ := h
  refine String.Pos.Raw.isValid_iff_exists_append.mpr
    ⟨String.ofList (source.toList.take n), String.ofList (source.toList.drop n), ?_, ?_⟩
  · rw [← String.ofList_append, List.take_append_drop, String.ofList_toList]
  · rw [ho]
    exact congrArg String.Pos.Raw.mk ((Nat.zero_add _).trans (utf8ByteSize_ofList _).symm)

-- The shape of a rule is recognised when it can be split, and then `e` is its expression.
theorem parse_located (source : String) :
    (∀ f, parse source = .error f →
      f.offset ≤ source.utf8ByteSize ∧ String.Pos.Raw.IsValid source ⟨f.offset⟩ ∧
      ∀ forms e, split source.toList = .ok (forms, e) →
        (∃ before after, source.toList = before ++ e.rest ++ ';' :: after ∧
          e.offset = byteLength before ∧ Blanks after) ∧
        e.offset ≤ f.offset ∧ f.offset ≤ e.last) ∧
    ∀ w : String, (∀ c ∈ w.toList, isBlank c) →
      ((∃ r, parse (w ++ source) = .ok r) ↔ ∃ r, parse source = .ok r) ∧
      (∀ r r', parse source = .ok r → parse (w ++ source) = .ok r' →
        r'.forms = r.forms ∧ ∀ n, r'.value n = r.value n) ∧
      ∀ f, parse source = .error f →
        parse (w ++ source) = .error ⟨f.reason, f.offset + w.utf8ByteSize⟩ := by
  constructor
  · intro f h
    have hv := isValid_of_ahead (ahead_of_parse h)
    refine ⟨hv.le_utf8ByteSize, hv, fun forms e hs => ?_⟩
    have ⟨n, he⟩ := encloses_of_split hs
    have ⟨after, hb, hr⟩ := he.rest
    have ht : source.toList = source.toList.take n ++ e.rest ++ ';' :: after := by
      rw [List.append_assoc, ← hr]
      exact (List.take_append_drop ..).symm
    have ho : e.offset = byteLength (source.toList.take n) := he.offset.trans (Nat.zero_add _)
    have hf := error_of_split hs h
    exact ⟨⟨_, after, ht, ho, hb⟩, (Program.ahead_of_parse hf).le⟩
  · intro w hw
    have hp := parse_append hw source
    cases h : parse source
    case ok r =>
      rw [h] at hp
      refine ⟨⟨fun _ => ⟨r, rfl⟩, fun _ => ⟨_, hp⟩⟩, fun r₁ r₂ h₁ h₂ => ?_, nofun⟩
      cases h₁
      cases hp.symm.trans h₂
      exact ⟨rfl, fun _ => rfl⟩
    case error f =>
      rw [h] at hp
      refine ⟨⟨fun ⟨_, h⟩ => ?_, nofun⟩, nofun, fun g hg => ?_⟩
      · cases hp.symm.trans h
      · cases hg
        exact hp

theorem parse_located_accent :
    (parse "nplurals=2; plural=n+é;" = .error ⟨.unexpectedCharacter, 21⟩ ∧
      split "nplurals=2; plural=n+é;".toList = .ok (2, ⟨19, "n+é".toList⟩) ∧
      String.Pos.Raw.IsValid "nplurals=2; plural=n+é;" ⟨21⟩ ∧ 19 ≤ 21 ∧ 21 ≤ 23 ∧
      parse ("\t " ++ "nplurals=2; plural=n+é;") = .error ⟨.unexpectedCharacter, 23⟩) ∧
    ∃ r r', parse defaultSource = .ok r ∧ parse ("\t " ++ defaultSource) = .ok r' ∧
      r'.forms = r.forms ∧ ∀ n, r'.value n = r.value n := by
  have hw : ∀ c ∈ "\t ".toList, isBlank c := List.all_eq_true.mp rfl
  constructor
  · have h : parse "nplurals=2; plural=n+é;" = .error ⟨.unexpectedCharacter, 21⟩ := by cbv
    have hs : split "nplurals=2; plural=n+é;".toList = .ok (2, ⟨19, "n+é".toList⟩) := by cbv
    obtain ⟨hf, hb⟩ := parse_located "nplurals=2; plural=n+é;"
    obtain ⟨_, hv, hi⟩ := hf _ h
    obtain ⟨_, hl, hu⟩ := hi _ _ hs
    obtain ⟨_, _, hm⟩ := hb "\t " hw
    exact ⟨h, hs, hv, hl, hu, hm _ h⟩
  · obtain ⟨r, h⟩ : ∃ r, parse defaultSource = .ok r := ⟨_, by cbv⟩
    obtain ⟨hs, hm, _⟩ := (parse_located defaultSource).right "\t " hw
    obtain ⟨r', h'⟩ := hs.mpr ⟨r, h⟩
    exact ⟨r, r', h, h', hm r r' h h'⟩

end Rule
end Plural
end MessageCatalog
