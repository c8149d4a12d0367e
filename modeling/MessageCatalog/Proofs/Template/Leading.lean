import MessageCatalog.Proofs.Number.Binary
import MessageCatalog.Proofs.Template.Formatting
import MessageCatalog.Proofs.Template.Padding

namespace MessageCatalog

open Number Text Placeholder

-- The longest start of a text that has a form.
structure IsLongestStart (form : List Char → Prop) (text w : List Char) : Prop where
  start : w <+: text
  hasForm : form w
  longest : ∀ v, v <+: text → form v → v.length ≤ w.length

section Starts

variable {form : List Char → Prop} {text w : List Char}

theorem exists_longestStart (h : w <+: text) (hw : form w) :
    ∃ v, IsLongestStart form text v := by
  classical
  let p (n : Nat) : Prop := form (text.take n)
  have hp {v : List Char} (h : v <+: text) (hv : form v) : p v.length := by
    change form _
    rwa [← List.prefix_iff_eq_take.mp h]
  refine ⟨_, List.take_prefix .., Nat.findGreatest_spec (P := p) h.length_le (hp h hw), ?_⟩
  intro v hs hv
  rw [List.length_take_of_le (Nat.findGreatest_le _)]
  exact Nat.le_findGreatest hs.length_le (hp hs hv)

-- The character behind the longest start does not continue it.
theorem IsLongestStart.not_form {rest : List Char} (h : IsLongestStart form (w ++ rest) w) :
    ∀ c ∈ rest.head?, ¬form (w ++ [c]) := by
  intro c hc hf
  have ⟨cs, hr⟩ := List.head?_eq_some_iff.mp hc
  have hl := h.longest (w ++ [c]) ⟨cs, by simp [hr]⟩ hf
  simp at hl

end Starts

-- `[+-]?`, and whether it is a minus sign.
inductive SignText : List Char → Bool → Prop
  | absent : SignText [] false
  | plus   : SignText ['+'] false
  | minus  : SignText ['-'] true

-- `[+-]? D+`, where `D` is a decimal digit.
inductive IntegerText : List Char → Int → Prop
  | intro {sign digits : List Char} {negative : Bool} (signText : SignText sign negative)
      (numeral : IsNumeral digits) :
      IntegerText (sign ++ digits)
        (if negative then -(decimalValue digits : Int) else decimalValue digits)

-- `D+ ['.' D*] | '.' D+`
inductive DecimalText : List Char → ℚ → Prop
  | whole {w : List Char} (numeral : IsNumeral w) : DecimalText w (decimalValue w)
  | point {w d : List Char} (numeral : IsNumeral w) (digits : ∀ c ∈ d, c.isDigit) :
      DecimalText (w ++ '.' :: d) (decimalValue w + decimalValue d / 10 ^ d.length)
  | fraction {d : List Char} (numeral : IsNumeral d) :
      DecimalText ('.' :: d) (decimalValue d / 10 ^ d.length)

-- `[(e|E) [+-]? D+]`
inductive ExponentText : List Char → Int → Prop
  | absent : ExponentText [] 0
  | letter {c : Char} {w : List Char} {e : Int} (h : c = 'e' ∨ c = 'E')
      (integer : IntegerText w e) : ExponentText (c :: w) e

-- A sign, a decimal `q` and an exponent `e`, which stand for an absolute value of `q * 10 ^ e`.
inductive FloatText : List Char → Bool → ℚ → Int → Prop
  | intro {sign mantissa exponent : List Char} {negative : Bool} {q : ℚ} {e : Int}
      (signText : SignText sign negative) (decimalText : DecimalText mantissa q)
      (exponentText : ExponentText exponent e) :
      FloatText (sign ++ (mantissa ++ exponent)) negative q e

def IsIntegerText (w : List Char) : Prop :=
  ∃ n, IntegerText w n

def IsFloatText (w : List Char) : Prop :=
  ∃ negative q e, FloatText w negative q e

section Signs

variable {sign rest text : List Char} {negative : Bool}

theorem readSign_of_unsigned (h : Unsigned text) : Numeral.readSign text = (false, text) := by
  rw [Numeral.readSign]
  · rintro _ rfl
    exact h _ rfl (.inl rfl)
  · rintro _ rfl
    exact h _ rfl (.inr rfl)

theorem readSign_append (h : SignText sign negative) (hu : Unsigned rest) :
    Numeral.readSign (sign ++ rest) = (negative, rest) := by
  cases h
  case absent => exact readSign_of_unsigned hu
  case plus   => rfl
  case minus  => rfl

-- A sign is taken from a text if there is one.
theorem exists_signText (text : List Char) :
    ∃ sign, SignText sign (Numeral.readSign text).1 ∧ text = sign ++ (Numeral.readSign text).2 ∧
      (sign = [] → Unsigned text) := by
  rw [Numeral.readSign.eq_def]
  split
  case h_1 => exact ⟨_, .minus, rfl, nofun⟩
  case h_2 => exact ⟨_, .plus, rfl, nofun⟩
  case h_3 minus plus =>
    refine ⟨_, .absent, rfl, fun _ c hc hs => ?_⟩
    have ⟨cs, ht⟩ := List.head?_eq_some_iff.mp hc
    rcases hs with rfl | rfl
    · exact minus cs ht
    · exact plus cs ht

end Signs

section Integers

variable {text w : List Char} {n : Int} {c : Char}

theorem Placeholder.IsNumeral.unsigned (h : IsNumeral w) : Unsigned w := by
  have ⟨c, cs, hc⟩ := List.exists_cons_of_ne_nil h.ne_nil
  exact unsigned_of_head ⟨c, by rw [hc]; rfl, h.digits c (by simp [hc])⟩

theorem Placeholder.IsNumeral.append (h : IsNumeral w) {d : List Char} (hd : ∀ c ∈ d, c.isDigit) :
    IsNumeral (w ++ d) where
  ne_nil := List.append_ne_nil_of_left_ne_nil h.ne_nil _
  digits := fun c hc => (List.mem_append.mp hc).elim (h.digits c) (hd c)

theorem toInt_of_longestStart (h : IsLongestStart IsIntegerText (trimStart isWhite text) w)
    (hn : IntegerText w n) : (Numeral.read text).toInt = n := by
  obtain ⟨rest, ht⟩ := h.start
  rw [← ht] at h
  cases hn
  case intro sign digits negative signText numeral =>
    have hr : ∀ c ∈ rest.head?, ¬c.isDigit := by
      intro c hc hd
      have hf := IntegerText.intro signText (numeral.append (d := [c]) (by simpa using hd))
      exact h.not_form c hc ⟨_, List.append_assoc .. ▸ hf⟩
    have hu := numeral.unsigned.append numeral.ne_nil rest
    rw [List.append_assoc] at ht
    simp only [Numeral.read, ← ht, readSign_append signText hu, Numeral.toInt,
      takeWhile_digits numeral.digits hr]

theorem toInt64_eq_zero (h : ∀ w, w <+: trimStart isWhite text → ¬IsIntegerText w) :
    (Numeral.read text).toInt64 = 0 := by
  have ⟨sign, signText, ht, _⟩ := exists_signText (trimStart isWhite text)
  have hw : (Numeral.read text).whole = [] := by
    by_contra hn
    have numeral : IsNumeral (Numeral.read text).whole :=
      ⟨hn, fun _ hc => List.mem_takeWhile_imp hc⟩
    refine h _ ?_ ⟨_, .intro signText numeral⟩
    exact ht ▸ (List.prefix_append_right_inj sign).mpr (List.takeWhile_prefix _)
  simp [Numeral.toInt64, Numeral.toInt, hw, decimalValue]

end Integers

section Decimals

variable {text w d mantissa rest : List Char} {q : ℚ} {c : Char}

theorem dropWhile_digits (hw : ∀ c ∈ w, c.isDigit) (hr : ∀ c ∈ rest.head?, ¬c.isDigit) :
    (w ++ rest).dropWhile Char.isDigit = rest := by
  rw [List.dropWhile_append_of_pos hw, List.dropWhile_eq_self_iff]
  exact fun hl hd => hr _ (List.head?_eq_getElem?.trans (List.getElem?_eq_getElem hl)) hd

-- Digits stand behind a number with or without a point.
theorem DecimalText.append_digit (h : DecimalText mantissa q) (hc : c.isDigit) :
    ∃ q, DecimalText (mantissa ++ [c]) q := by
  have hs : ∀ d ∈ [c], d.isDigit := by simpa using hc
  cases h
  case whole numeral        => exact ⟨_, .whole (numeral.append hs)⟩
  case fraction numeral     => exact ⟨_, .fraction (numeral.append hs)⟩
  case point numeral digits =>
    rw [List.append_assoc]
    exact ⟨_, .point numeral fun d hd => (List.mem_append.mp hd).elim (digits d) (hs d)⟩

theorem DecimalText.append_point (h : DecimalText mantissa q) (hp : '.' ∉ mantissa) :
    ∃ q, DecimalText (mantissa ++ ['.']) q := by
  cases h
  case whole numeral => exact ⟨_, .point numeral (d := []) nofun⟩
  case point         => simp at hp
  case fraction      => simp at hp

theorem unsigned_point (rest : List Char) : Unsigned ('.' :: rest) := by
  rintro _ ⟨⟩ h
  rcases h with h | h <;> cases h

theorem DecimalText.unsigned (h : DecimalText mantissa q) (rest : List Char) :
    Unsigned (mantissa ++ rest) := by
  cases h
  case whole numeral   => exact numeral.unsigned.append numeral.ne_nil rest
  case fraction        => exact unsigned_point _
  case point numeral _ =>
    rw [List.append_assoc]
    exact numeral.unsigned.append numeral.ne_nil _

-- The digits that are read in a text that starts with a mantissa, and where the point stands.
structure ReadsAs (text whole decimals : List Char) (q : ℚ) : Prop where
  whole_eq : text.takeWhile Char.isDigit = whole
  decimals_eq : Numeral.read.decimals (text.dropWhile Char.isDigit) = decimals
  ne_nil : whole ++ decimals ≠ []
  value : decimalValue (whole ++ decimals) / 10 ^ decimals.length = q

theorem readsAs_point (hw : ∀ c ∈ w, c.isDigit) (hd : ∀ c ∈ d, c.isDigit) (hn : w ++ d ≠ [])
    (hr : ∀ c ∈ rest.head?, ¬c.isDigit) :
    ReadsAs (w ++ '.' :: (d ++ rest)) w d (decimalValue w + decimalValue d / 10 ^ d.length) where
  whole_eq := takeWhile_digits hw (by simp)
  decimals_eq := by
    rw [dropWhile_digits hw (by simp)]
    exact takeWhile_digits hd hr
  ne_nil := hn
  value := by
    have hp : (10 : ℚ) ^ d.length ≠ 0 := by positivity
    rw [decimalValue_append]
    field_simp
    push_cast
    rfl

-- Neither a digit nor a first point may follow, since both belong to a mantissa.
theorem DecimalText.exists_readsAs (h : DecimalText mantissa q)
    (hr : ∀ c ∈ rest.head?, ¬c.isDigit) (hp : '.' ∉ mantissa → '.' ∉ rest.head?) :
    ∃ whole decimals, ReadsAs (mantissa ++ rest) whole decimals q := by
  cases h
  case whole numeral =>
    have hn : '.' ∉ rest.head? := hp fun hm => Bool.noConfusion (numeral.digits _ hm)
    have hd : Numeral.read.decimals rest = [] := by
      rw [Numeral.read.decimals]
      rintro _ rfl
      exact hn rfl
    refine ⟨mantissa, [], takeWhile_digits numeral.digits hr, ?_, ?_, ?_⟩
    · rw [dropWhile_digits numeral.digits hr, hd]
    · simpa using numeral.ne_nil
    · simp
  case point w d numeral digits =>
    rw [List.append_assoc]
    exact ⟨w, d, readsAs_point numeral.digits digits (by simp [numeral.ne_nil]) hr⟩
  case fraction d numeral =>
    have h := readsAs_point (w := []) nofun numeral.digits numeral.ne_nil hr
    simp only [List.nil_append, decimalValue, List.foldl_nil, Nat.cast_zero, zero_add] at h
    exact ⟨[], d, h⟩

-- What stands behind a mantissa does not go on with it, or a longer mantissa would make a longer
-- start.
theorem IsLongestStart.ends_mantissa {sign exponent : List Char} {negative : Bool} {e : Int}
    (h : IsLongestStart IsFloatText (sign ++ (mantissa ++ exponent) ++ rest)
      (sign ++ (mantissa ++ exponent)))
    (signText : SignText sign negative) (decimalText : DecimalText mantissa q)
    (exponentText : ExponentText exponent e) :
    ∀ c ∈ (exponent ++ rest).head?, ¬c.isDigit ∧ ('.' ∉ mantissa → c ≠ '.') := by
  intro c hc
  cases exponentText
  case letter hl _ =>
    cases hc
    rcases hl with rfl | rfl <;> exact ⟨by decide, fun _ => by decide⟩
  case absent =>
    have hl {q : ℚ} (hm : DecimalText (mantissa ++ [c]) q) : False := by
      refine h.not_form c hc ⟨negative, q, 0, ?_⟩
      have hf := FloatText.intro signText hm .absent
      simpa using hf
    refine ⟨fun hd => ?_, ?_⟩
    · have ⟨_, hm⟩ := decimalText.append_digit hd
      exact hl hm
    · rintro hp rfl
      have ⟨_, hm⟩ := decimalText.append_point hp
      exact hl hm

theorem toRat_scale_ofNat (n k : Nat) : ((Ratio.ofNat n).scale .ten (-k)).toRat = n / 10 ^ k := by
  rw [Ratio.toRat_scale, zpow_neg, div_eq_mul_inv]
  simp [Ratio.toRat, Ratio.ofNat, Radix.toNat]

theorem roundsTo_of_longestStart {negative : Bool} {e : Int}
    (h : IsLongestStart IsFloatText (trimStart isWhite text) w) (hf : FloatText w negative q e) :
    Binary64.RoundsTo negative q (Numeral.read text).toBinary64 := by
  obtain ⟨rest, ht⟩ := h.start
  rw [← ht] at h
  cases hf
  case intro sign mantissa exponent signText decimalText exponentText =>
    have hr := h.ends_mantissa signText decimalText exponentText
    have ⟨whole, decimals, hd⟩ := decimalText.exists_readsAs (fun c hc => (hr c hc).left)
      fun hp hc => (hr _ hc).right hp rfl
    rw [List.append_assoc, List.append_assoc] at ht
    have hs := readSign_append signText (decimalText.unsigned (exponent ++ rest))
    have hq := Binary64.roundsTo_ofRatio negative
      ((Ratio.ofNat (decimalValue (whole ++ decimals))).scale .ten (-decimals.length))
    rw [toRat_scale_ofNat, hd.value] at hq
    simpa only [Numeral.toBinary64, Numeral.read, ← ht, hs, hd.whole_eq, hd.decimals_eq,
      if_neg hd.ne_nil] using hq

theorem exists_decimalText (h : text.takeWhile Char.isDigit ++
    Numeral.read.decimals (text.dropWhile Char.isDigit) ≠ []) :
    ∃ mantissa q, mantissa <+: text ∧ DecimalText mantissa q := by
  by_cases hw : text.takeWhile Char.isDigit = []
  case neg =>
    have numeral : IsNumeral (text.takeWhile Char.isDigit) :=
      ⟨hw, fun _ hc => List.mem_takeWhile_imp hc⟩
    exact ⟨_, _, List.takeWhile_prefix _, .whole numeral⟩
  case pos =>
    have ht : text.dropWhile Char.isDigit = text := by
      simpa [hw] using List.takeWhile_append_dropWhile (p := Char.isDigit) (l := text)
    rw [hw, ht, List.nil_append, Numeral.read.decimals.eq_def] at h
    split at h
    case h_1 cs =>
      have numeral : IsNumeral (cs.takeWhile Char.isDigit) :=
        ⟨h, fun _ hc => List.mem_takeWhile_imp hc⟩
      exact ⟨_, _, List.cons_prefix_cons.mpr ⟨rfl, List.takeWhile_prefix _⟩, .fraction numeral⟩
    case h_2 => exact absurd rfl h

theorem toBinary64_eq_zero (h : ∀ w, w <+: trimStart isWhite text → ¬IsFloatText w) :
    (Numeral.read text).toBinary64 = .zero := by
  have ⟨sign, signText, ht, _⟩ := exists_signText (trimStart isWhite text)
  rw [Numeral.toBinary64]
  refine if_pos ?_
  by_contra hn
  have ⟨mantissa, q, hm, decimalText⟩ := exists_decimalText hn
  have hf := FloatText.intro signText decimalText .absent
  rw [List.append_nil] at hf
  exact h _ (ht ▸ (List.prefix_append_right_inj sign).mpr hm) ⟨_, _, _, hf⟩

end Decimals

namespace Argument

theorem toInt64_lenient :
    (∀ s : String,
      (∃ w n, IsLongestStart IsIntegerText (trimStart isWhite s.toList) w ∧ IntegerText w n ∧
        (text s).toInt64.toInt =
          if Int64.minValue.toInt ≤ n ∧ n ≤ Int64.maxValue.toInt then n else 0) ∨
      (∀ w, w <+: trimStart isWhite s.toList → ¬IsIntegerText w) ∧ (text s).toInt64 = 0) ∧
    ∀ x : Binary64, (float x).toInt64.toInt =
      if x.isNaN then 0
      else if x.isFinite then clamp (towardZero x.toRat)
      else if x.signBit then Int64.minValue.toInt
      else Int64.maxValue.toInt := by
  refine ⟨fun s => ?_, Binary64.toInt_toInt64⟩
  by_cases hs : ∃ w, w <+: trimStart isWhite s.toList ∧ IsIntegerText w
  case neg =>
    have hn : ∀ w, w <+: trimStart isWhite s.toList → ¬IsIntegerText w := by simpa using hs
    exact .inr ⟨hn, toInt64_eq_zero hn⟩
  case pos =>
    have ⟨_, hs, hv⟩ := hs
    have ⟨w, hw⟩ := exists_longestStart hs hv
    have ⟨n, hn⟩ := hw.hasForm
    refine .inl ⟨w, n, hw, hn, ?_⟩
    rw [toInt64, Numeral.toInt64, toInt_of_longestStart hw hn]
    split
    case isTrue h  => exact Int64.toInt_ofInt_of_le h.left (Int.lt_of_le_of_lt h.right (by decide))
    case isFalse h => exact Int64.toInt_zero

example : (text "  -7 dogs").toInt64 = -7 := by decide

theorem toBinary64_lenient (s : String) :
    (∃ w negative q e, IsLongestStart IsFloatText (trimStart isWhite s.toList) w ∧
      FloatText w negative q e ∧ Binary64.RoundsTo negative q (text s).toBinary64) ∨
    (∀ w, w <+: trimStart isWhite s.toList → ¬IsFloatText w) ∧ (text s).toBinary64 = .zero := by
  by_cases hs : ∃ w, w <+: trimStart isWhite s.toList ∧ IsFloatText w
  case neg =>
    have hn : ∀ w, w <+: trimStart isWhite s.toList → ¬IsFloatText w := by simpa using hs
    exact .inr ⟨hn, toBinary64_eq_zero hn⟩
  case pos =>
    have ⟨_, hs, hv⟩ := hs
    have ⟨w, hw⟩ := exists_longestStart hs hv
    have ⟨negative, q, e, hf⟩ := hw.hasForm
    exact .inl ⟨w, negative, q, e, hw, hf, roundsTo_of_longestStart hw hf⟩

-- The exponent 3 would make a thousand of the number.
theorem toBinary64_exponent :
    IsLongestStart IsFloatText (trimStart isWhite "1e3".toList) "1e3".toList ∧
    FloatText "1e3".toList false 1 3 ∧
    ¬Binary64.RoundsTo false (1 * 10 ^ 3) (text "1e3").toBinary64 ∧
    format "%f" [text "1e3"] = .ok "1.000000" := by
  have hd (c : Char) (h : c.isDigit) : IsNumeral [c] := ⟨by simp, by simpa using h⟩
  have hf : FloatText "1e3".toList false 1 3 := by
    have hv : ((decimalValue ['1'] : Nat) : ℚ) = 1 := Nat.cast_one
    have decimalText : DecimalText ['1'] 1 := hv ▸ .whole (hd '1' rfl)
    exact .intro .absent decimalText (.letter (.inl rfl) (.intro .absent (hd '3' rfl)))
  refine ⟨⟨List.prefix_refl _, ⟨_, _, _, hf⟩, fun _ hv _ => hv.length_le⟩, hf, ?_, ?_⟩
  · intro h
    have hx : |(text "1e3").toBinary64.toRat| = 1 := by
      have hs : (text "1e3").toBinary64.significand = 2 ^ 52 := by decide +kernel
      have he : (text "1e3").toBinary64.exponent = -52 := by decide +kernel
      rw [Binary64.abs_toRat_eq, hs, he]
      norm_num
    have hl : Int.log 2 (1 * 10 ^ 3 : ℚ) = 9 :=
      log_eq_of_le_of_lt one_lt_two (by norm_num) (by norm_num) (by norm_num)
    have hu : Binary64.unit (1 * 10 ^ 3) = 2 ^ (-43 : Int) := by
      rw [Binary64.unit, hl]
      rfl
    obtain ⟨n, hn, hv⟩ := h.value
    rw [hu] at hn hv
    split at hv
    case isFalse => exact absurd hv.left (by decide +kernel)
    case isTrue =>
      have hn := (abs_le.mp hn.nearest).right
      have hv := hx.symm.trans hv.right
      norm_num at hn hv
      linarith
  · refine (Template.format_slot (.intro .absent [] .absent .absent (.fixed false)) rfl
      (text "1e3") []).trans ?_
    decide

end Argument

end MessageCatalog
