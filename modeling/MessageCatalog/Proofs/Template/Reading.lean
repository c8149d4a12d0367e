import MessageCatalog.Proofs.Template.Grammar

namespace MessageCatalog.Placeholder

open Text

variable {offset : Nat} {w rest number width precision : List Char} {argument digits : Option Nat}
  {n : Nat}

theorem skip_append (offset : Nat) (w rest : List Char) :
    Cursor.skip ⟨offset, w ++ rest⟩ w.length = ⟨offset + byteLength w, rest⟩ := by
  simp [Cursor.skip]

theorem run_digits (hw : ∀ c ∈ w, c.isDigit) (hr : ∀ c ∈ rest.head?, ¬c.isDigit) :
    Cursor.run ⟨offset, w ++ rest⟩ Char.isDigit = w :=
  takeWhile_digits hw hr

theorem readNumber_digits (flaw : Flaw) (hw : ∀ c ∈ w, c.isDigit)
    (hr : ∀ c ∈ rest.head?, ¬c.isDigit) :
    readNumber flaw ⟨offset, w ++ rest⟩ =
      if w = [] then
        .ok (none, ⟨offset + byteLength w, rest⟩)
      else if decimalValue w ≤ 4096 then
        .ok (some (decimalValue w), ⟨offset + byteLength w, rest⟩)
      else
        .error flaw := by
  rw [readNumber, run_digits hw hr]
  cases w
  case nil  => simp [byteLength]
  case cons => simp only [skip_append, limit, reduceCtorEq, ↓reduceIte]

theorem skipRun_digits (hw : ∀ c ∈ w, c.isDigit) (hr : ∀ c ∈ rest.head?, ¬c.isDigit) :
    Cursor.skipRun ⟨offset, w ++ rest⟩ Char.isDigit = ⟨offset + byteLength w, rest⟩ := by
  rw [Cursor.skipRun, run_digits hw hr, skip_append]

-- A numeral with a dollar sign is read as an argument number.
theorem readArgument_numeral (hw : IsNumeral w) :
    readArgument ⟨offset, w ++ '$' :: rest⟩ =
      if decimalValue w ≤ 4096 then
        if decimalValue w = 0 then
          .error .argumentZero
        else
          .ok (some (decimalValue w), ⟨offset + byteLength (w ++ ['$']), rest⟩)
      else
        .error .argumentTooLarge := by
  have hr : ∀ c ∈ ('$' :: rest).head?, ¬c.isDigit := by simp
  simp only [readArgument, skipRun_digits hw.digits hr, readNumber_digits _ hw.digits hr,
    if_neg hw.ne_nil]
  by_cases hl : decimalValue w ≤ 4096
  case neg => simp only [if_neg hl]; rfl
  case pos =>
    simp only [if_pos hl, bind, Except.bind]
    cases decimalValue w
    case zero => rfl
    case succ => simp [Cursor.skip, byteLength, Nat.add_assoc]

theorem readArgument_of_leads (h : Leads number argument rest) :
    readArgument ⟨offset, number ++ rest⟩ = .ok (argument, ⟨offset + byteLength number, rest⟩) := by
  cases h.text
  case number w numeral positive small =>
    rw [List.append_assoc, List.singleton_append, readArgument_numeral numeral, if_pos small,
      if_neg (Nat.ne_of_gt positive)]
  case absent =>
    have ⟨w, tail, hcs, hw, hr⟩ := exists_digits rest
    subst hcs
    rw [List.nil_append, readArgument, skipRun_digits hw hr]
    split
    case h_2 => rfl
    case h_1 ht =>
      have hn : w = [] := by
        by_contra hne
        exact h.absent rfl w _ ⟨hne, hw⟩ (congrArg _ ht)
      rw [readNumber_digits _ hw hr, if_pos hn]
      rfl

-- Flags are passed over one by one.
theorem readFlags_texts (f : Flags) (offset : Nat) (fs : List Flag) (rest : List Char) :
    readFlags f offset (Flag.texts fs ++ rest) =
      readFlags (fs.foldl Flag.set f) (offset + byteLength (Flag.texts fs)) rest := by
  induction fs generalizing f offset
  case nil => rfl
  case cons flag fs ih =>
    have hs : readFlags f offset (flag.text ++ (Flag.texts fs ++ rest)) =
        readFlags (flag.set f) (offset + byteLength flag.text) (Flag.texts fs ++ rest) := by
      cases flag
      case quoted pad =>
        have hq : '\''.utf8Size = 1 := rfl
        simp [Flag.text, Flag.set, readFlags, byteLength, hq, Nat.add_assoc]
      all_goals rfl
    simp only [Flag.texts, List.flatMap_cons, List.append_assoc, byteLength_append,
      List.foldl_cons] at ih hs ⊢
    rw [hs, ih, Nat.add_assoc]

theorem readFlags_of_stops (f : Flags) (offset : Nat) (h : ∀ c ∈ rest.head?, ¬Flag.Starts c) :
    readFlags f offset rest = .ok (f, ⟨offset, rest⟩) := by
  fun_cases readFlags f offset rest
  case case7 => rfl
  all_goals exact absurd (Flag.starts_iff.mpr (by simp)) (h _ rfl)

theorem readWidth_of_text (offset : Nat) (h : WidthText width n) (hr : ∀ c ∈ rest.head?, ¬c.isDigit) :
    ∃ m, readNumber .widthTooLarge ⟨offset, width ++ rest⟩ =
        .ok (m, ⟨offset + byteLength width, rest⟩) ∧ m.getD 0 = n := by
  cases h
  case absent => exact ⟨none, by rw [readNumber_digits _ (by simp) hr, if_pos rfl], rfl⟩
  case number numeral head small =>
    refine ⟨some (decimalValue width), ?_, rfl⟩
    rw [readNumber_digits _ numeral.digits hr, if_neg numeral.ne_nil, if_pos small]

-- A point is read with the digits behind it, of which there may be none.
theorem readPrecision_point (offset : Nat) (hw : ∀ c ∈ w, c.isDigit)
    (hr : ∀ c ∈ rest.head?, ¬c.isDigit) :
    readPrecision ⟨offset, '.' :: (w ++ rest)⟩ =
      if decimalValue w ≤ 4096 then
        .ok (some (decimalValue w), ⟨offset + byteLength ('.' :: w), rest⟩)
      else
        .error .precisionTooLarge := by
  have hs : Cursor.skip ⟨offset, '.' :: (w ++ rest)⟩ 1 = ⟨offset + 1, w ++ rest⟩ := rfl
  have ho : offset + 1 + byteLength w = offset + byteLength ('.' :: w) := Nat.add_assoc ..
  simp only [readPrecision, hs, readNumber_digits _ hw hr, ho]
  by_cases hn : w = []
  case pos => subst hn; rfl
  case neg =>
    by_cases hl : decimalValue w ≤ 4096
    case pos => simp only [if_neg hn, if_pos hl]; rfl
    case neg => simp only [if_neg hn, if_neg hl]; rfl

theorem readPrecision_of_text (offset : Nat) (h : PrecisionText precision digits)
    (hr : ∀ c ∈ rest.head?, ¬c.isDigit ∧ (precision = [] → c ≠ '.')) :
    readPrecision ⟨offset, precision ++ rest⟩ =
      .ok (digits, ⟨offset + byteLength precision, rest⟩) := by
  cases h
  case number w digits small =>
    have hp := readPrecision_point offset digits fun c hc => (hr c hc).left
    exact hp.trans (if_pos small)
  case absent =>
    match rest with
    | []        => rfl
    | c :: rest =>
      have hc : c ≠ '.' := (hr c rfl).right rfl
      simp [readPrecision, hc, byteLength]

-- No conversion looks like anything that can stand in front of it.
theorem letter_not_mem (k : Conversion) :
    k.letter.isDigit = false ∧ k.letter ∉ ['$', '.', '-', '+', ' ', '0', '\''] := by
  have h : ∀ k ∈ Conversion.all,
      k.letter.isDigit = false ∧ k.letter ∉ ['$', '.', '-', '+', ' ', '0', '\''] := by
    decide
  exact h k k.mem_all

theorem not_continues_letter (width precision : List Char) (k : Conversion) :
    ¬Continues width precision k.letter := by
  have ⟨hd, hm⟩ := letter_not_mem k
  simp only [List.mem_cons, List.not_mem_nil, or_false, not_or] at hm
  rintro (h | ⟨-, h | ⟨-, h⟩⟩)
  · simp [hd] at h
  · exact hm.2.1 h
  · have h := Flag.starts_iff.mp h
    tauto

theorem stops_numeral (numeral : IsNumeral w) (head : w.head? ≠ some '0') :
    ∀ c ∈ (w ++ rest).head?, ¬Flag.Starts c := by
  intro c hc hs
  rw [List.head?_append_of_ne_nil _ numeral.ne_nil] at hc
  have hd := numeral.digits c (List.mem_of_mem_head? hc)
  rcases Flag.starts_iff.mp hs with rfl | rfl | rfl | rfl | rfl
  case inr.inr.inr.inl => exact head hc
  all_goals cases hd

-- Flags end in front of a width.
theorem stops_width (h : WidthText width n)
    (hr : width = [] → ∀ c ∈ rest.head?, ¬Flag.Starts c) :
    ∀ c ∈ (width ++ rest).head?, ¬Flag.Starts c := by
  cases h
  case absent => exact hr rfl
  case number numeral head small =>
    exact stops_numeral numeral head

section Ends

variable (ends : ∀ c ∈ rest.head?, ¬Continues width precision c)
include ends

theorem ends_precision : ∀ c ∈ rest.head?, ¬c.isDigit ∧ (precision = [] → c ≠ '.') := by
  intro c hc
  have h := ends c hc
  exact ⟨fun hd => h (.inl hd), fun hp he => h (.inr ⟨hp, .inl he⟩)⟩

theorem ends_width (h : PrecisionText precision digits) :
    ∀ c ∈ (precision ++ rest).head?, ¬c.isDigit ∧ (width = [] → ¬Flag.Starts c) := by
  cases h
  case number => simp [Flag.starts_iff]
  case absent =>
    intro c hc
    exact ⟨(ends_precision ends c hc).left, fun hw hs => ends c hc (.inr ⟨rfl, .inr ⟨hw, hs⟩⟩)⟩

end Ends

section Behind

variable {flags : List Flag}

-- What is read behind flags.
theorem read_behind_flags
    (leads : Leads number argument (Flag.texts flags ++ rest))
    (stops : ∀ c ∈ rest.head?, ¬Flag.Starts c) :
    read ⟨offset, number ++ (Flag.texts flags ++ rest)⟩ = (do
      let (width, c) ← readNumber .widthTooLarge
        ⟨offset + byteLength (number ++ Flag.texts flags), rest⟩
      let (precision, c) ← readPrecision c
      let (conversion, c) ← readConversion c
      return ({
        argument, flags := .ofList flags, width := width.getD 0, precision, conversion }, c)) := by
  have hf := readFlags_of_stops (flags.foldl Flag.set {})
    (offset + byteLength number + byteLength (Flag.texts flags)) stops
  simp only [read, readArgument_of_leads leads, readFlags_texts, hf, bind, Except.bind]
  rw [byteLength_append, Nat.add_assoc]
  rfl

theorem read_behind_width
    (leads : Leads number argument (Flag.texts flags ++ (width ++ rest)))
    (widthText : WidthText width n)
    (stops : ∀ c ∈ rest.head?, ¬c.isDigit ∧ (width = [] → ¬Flag.Starts c)) :
    read ⟨offset, number ++ (Flag.texts flags ++ (width ++ rest))⟩ = (do
      let (precision, c) ← readPrecision
        ⟨offset + byteLength (number ++ (Flag.texts flags ++ width)), rest⟩
      let (conversion, c) ← readConversion c
      return ({ argument, flags := .ofList flags, width := n, precision, conversion }, c)) := by
  have ⟨m, hw, hm⟩ := readWidth_of_text (offset + byteLength (number ++ Flag.texts flags))
    widthText fun c hc => (stops c hc).left
  rw [read_behind_flags leads (stops_width widthText fun hw c hc => (stops c hc).right hw)]
  simp only [hw, hm, bind, Except.bind]
  rw [Nat.add_assoc, ← byteLength_append, List.append_assoc]

theorem read_behind_precision (offset : Nat)
    (leads : Leads number argument (Flag.texts flags ++ (width ++ (precision ++ rest))))
    (widthText : WidthText width n) (precisionText : PrecisionText precision digits)
    (ends : ∀ c ∈ rest.head?, ¬Continues width precision c) :
    read ⟨offset, number ++ (Flag.texts flags ++ (width ++ (precision ++ rest)))⟩ = (do
      let (conversion, c) ← readConversion
        ⟨offset + byteLength (number ++ (Flag.texts flags ++ (width ++ precision))), rest⟩
      return ({
        argument, flags := .ofList flags, width := n, precision := digits, conversion }, c)) := by
  have hp := readPrecision_of_text
    (offset + byteLength (number ++ (Flag.texts flags ++ width))) precisionText
    (ends_precision ends)
  rw [read_behind_width leads widthText (ends_width ends precisionText)]
  simp only [hp, bind, Except.bind]
  rw [Nat.add_assoc, ← byteLength_append, List.append_assoc, List.append_assoc]

end Behind

-- No dollar sign follows the digits that flags start with.
theorem head?_dropWhile_texts (flags : List Flag)
    (h : (rest.dropWhile Char.isDigit).head? ≠ some '$') :
    ((Flag.texts flags ++ rest).dropWhile Char.isDigit).head? ≠ some '$' := by
  induction flags
  case nil => exact h
  case cons f fs ih =>
    simp only [Flag.texts, List.flatMap_cons, List.append_assoc] at ih ⊢
    cases f
    case zero => simpa [Flag.text] using ih
    all_goals simp [Flag.text]

theorem leads_of_text {flags : List Flag} (h : ArgumentText number argument)
    (widthText : WidthText width n) (precisionText : PrecisionText precision digits)
    (k : Conversion) :
    Leads number argument (Flag.texts flags ++ (width ++ (precision ++ k.letter :: rest))) := by
  have ⟨hd, hm⟩ := letter_not_mem k
  have hp : ((precision ++ k.letter :: rest).dropWhile Char.isDigit).head? ≠ some '$' := by
    cases precisionText
    case absent => simp_all
    case number => simp
  have hw : ∀ c ∈ width, c.isDigit := by
    cases widthText
    case absent             => simp
    case number numeral _ _ => exact numeral.digits
  have hf : ((Flag.texts flags ++ (width ++ (precision ++ k.letter :: rest))).dropWhile
      Char.isDigit).head? ≠ some '$' :=
    head?_dropWhile_texts flags (by rwa [List.dropWhile_append_of_pos hw])
  refine ⟨h, fun _ w tail numeral he => hf ?_⟩
  rw [he, List.dropWhile_append_of_pos numeral.digits]
  rfl

theorem read_of_spells {p : Placeholder} (h : Spells w p) (offset : Nat) (rest : List Char) :
    read ⟨offset, w ++ rest⟩ = .ok (p, ⟨offset + byteLength w, rest⟩) := by
  cases h
  case intro number width precision argument digits n ha flags hw hp k =>
    have hl : Leads number argument
        (Flag.texts flags ++ (width ++ (precision ++ k.letter :: rest))) :=
      leads_of_text ha hw hp k
    have hr := read_behind_precision offset hl hw hp
      (by simpa using not_continues_letter width precision k)
    simp only [List.append_assoc, List.singleton_append, hr]
    simp [readConversion, Cursor.skip, byteLength, Nat.add_assoc, bind, Except.bind, pure,
      Except.pure]

theorem read_of_flawed {cs : List Char} {flaw : Flaw} (h : Flawed cs flaw) (offset : Nat) :
    read ⟨offset, cs⟩ = .error flaw := by
  cases h
  case argumentTooLarge numeral large =>
    simp only [read, readArgument_numeral numeral, if_neg (Nat.not_le_of_lt large)]
    rfl
  case argumentZero numeral zero =>
    simp only [read, readArgument_numeral numeral, zero]
    rfl
  case missingPad flags leads =>
    simp only [read, readArgument_of_leads leads, bind, Except.bind, readFlags_texts]
    rfl
  case widthTooLarge flags leads numeral head longest large =>
    rw [read_behind_flags leads (stops_numeral numeral head),
      readNumber_digits _ numeral.digits longest, if_neg numeral.ne_nil,
      if_neg (Nat.not_le_of_lt large)]
    rfl
  case precisionTooLarge flags leads widthText numeral longest large =>
    rw [read_behind_width leads widthText (by simp [Flag.starts_iff]),
      readPrecision_point _ numeral.digits longest, if_neg (Nat.not_le_of_lt large)]
    rfl
  case unknownConversion c flags leads widthText precisionText ends unknown =>
    have hk : Conversion.ofLetter? c = none :=
      List.find?_eq_none.mpr fun k _ => by simpa using unknown k
    rw [read_behind_precision offset leads widthText precisionText (by simpa using ends)]
    simp only [readConversion, hk]
    rfl
  case missingConversion number width precision _ _ _ flags leads widthText precisionText =>
    rw [← List.append_nil precision] at leads ⊢
    exact read_behind_precision offset leads widthText (by simpa using precisionText) (by simp)

end MessageCatalog.Placeholder
