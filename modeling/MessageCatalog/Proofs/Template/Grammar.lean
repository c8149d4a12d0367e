import Mathlib.Data.List.TakeWhile
import Mathlib.Tactic
import MessageCatalog.Template.Placeholder.Reader

namespace MessageCatalog

open Text

-- A flag as it is written.
inductive Flag
  | left
  | plus
  | blank
  | zero
  | quoted (pad : Char)
  deriving DecidableEq

namespace Flag

def text : Flag → List Char
  | left       => ['-']
  | plus       => ['+']
  | blank      => [' ']
  | zero       => ['0']
  | quoted pad => ['\'', pad]

def set (f : Flags) : Flag → Flags
  | left       => { f with left := true }
  | plus       => { f with plus := true }
  | blank      => { f with pad := ' ' }
  | zero       => { f with pad := '0' }
  | quoted pad => { f with pad }

def texts (fs : List Flag) : List Char :=
  fs.flatMap text

-- A character that a flag starts with.
def Starts (c : Char) : Prop :=
  ∃ f : Flag, f.text.head? = some c

theorem starts_iff {c : Char} :
    Starts c ↔ c = '-' ∨ c = '+' ∨ c = ' ' ∨ c = '0' ∨ c = '\'' := by
  constructor
  · intro ⟨f, hf⟩
    cases f <;> simp [text] at hf <;> simp [← hf]
  · rintro (rfl | rfl | rfl | rfl | rfl)
    · exact ⟨left, rfl⟩
    · exact ⟨plus, rfl⟩
    · exact ⟨blank, rfl⟩
    · exact ⟨zero, rfl⟩
    · exact ⟨quoted ' ', rfl⟩

-- All flags but one are single characters.
theorem exists_text {c : Char} (h : Starts c) (hq : c ≠ '\'') : ∃ f : Flag, f.text = [c] := by
  have ⟨f, hf⟩ := h
  refine ⟨f, ?_⟩
  cases f
  case quoted => exact absurd (Option.some.inj hf).symm hq
  all_goals
    cases hf
    rfl

end Flag

-- What flags come to. The last pad counts.
def Flags.ofList (fs : List Flag) : Flags :=
  fs.foldl Flag.set {}

namespace Placeholder

structure IsNumeral (w : List Char) : Prop where
  ne_nil : w ≠ []
  digits : ∀ c ∈ w, c.isDigit

theorem isNumeral_decimal (n : Nat) : IsNumeral (decimal n) where
  ne_nil := decimal_ne_nil n
  digits := fun _ => isDigit_of_mem_decimal

inductive ArgumentText : List Char → Option Nat → Prop
  | absent : ArgumentText [] none
  | number {w : List Char} (numeral : IsNumeral w) (positive : 0 < decimalValue w)
      (small : decimalValue w ≤ 4096) : ArgumentText (w ++ ['$']) (some (decimalValue w))

-- A zero in front of a width would be a flag.
inductive WidthText : List Char → Nat → Prop
  | absent : WidthText [] 0
  | number {w : List Char} (numeral : IsNumeral w) (head : w.head? ≠ some '0')
      (small : decimalValue w ≤ 4096) : WidthText w (decimalValue w)

-- No digits behind the point stand for 0.
inductive PrecisionText : List Char → Option Nat → Prop
  | absent : PrecisionText [] none
  | number {w : List Char} (digits : ∀ c ∈ w, c.isDigit) (small : decimalValue w ≤ 4096) :
      PrecisionText ('.' :: w) (some (decimalValue w))

inductive Spells : List Char → Placeholder → Prop
  | intro {number width precision : List Char} {argument digits : Option Nat} {n : Nat}
      (numberText : ArgumentText number argument) (flags : List Flag)
      (widthText : WidthText width n) (precisionText : PrecisionText precision digits)
      (conversion : Conversion) :
      Spells (number ++ (Flag.texts flags ++ (width ++ (precision ++ [conversion.letter]))))
        { argument, flags := .ofList flags, width := n, precision := digits, conversion }

-- Any placeholder without a number can have one.
theorem Spells.withNumber {w : List Char} {p : Placeholder} {k : Nat} (h : Spells w p)
    (unnumbered : p.argument = none) (positive : 1 ≤ k) (small : k ≤ 4096) :
    Spells (decimal k ++ '$' :: w) { p with argument := some k } := by
  cases h
  case intro argument _ n numberText flags widthText precisionText conversion =>
    cases unnumbered
    cases numberText
    have hk : ArgumentText (decimal k ++ ['$']) (some (decimalValue (decimal k))) :=
      .number (isNumeral_decimal k) (by simpa) (by simpa)
    rw [decimalValue_decimal] at hk
    simpa using Spells.intro hk flags widthText precisionText conversion

-- An argument number stands in front of a text. A text with none in front starts with none.
structure Leads (number : List Char) (argument : Option Nat) (rest : List Char) : Prop where
  text : ArgumentText number argument
  absent : number = [] → ∀ w tail, IsNumeral w → rest ≠ w ++ '$' :: tail

-- The characters that belong to what precedes them, if flags, a width and a precision do.
def Continues (width precision : List Char) (c : Char) : Prop :=
  c.isDigit ∨ precision = [] ∧ (c = '.' ∨ width = [] ∧ Flag.Starts c)

inductive Flawed : List Char → Flaw → Prop
  | argumentTooLarge {w rest : List Char} (numeral : IsNumeral w) (large : 4096 < decimalValue w) :
      Flawed (w ++ '$' :: rest) .argumentTooLarge
  | argumentZero {w rest : List Char} (numeral : IsNumeral w) (zero : decimalValue w = 0) :
      Flawed (w ++ '$' :: rest) .argumentZero
  | missingPad {number : List Char} {argument : Option Nat} (flags : List Flag)
      (leads : Leads number argument (Flag.texts flags ++ ['\''])) :
      Flawed (number ++ (Flag.texts flags ++ ['\''])) .missingPad
  | widthTooLarge {number w rest : List Char} {argument : Option Nat} (flags : List Flag)
      (leads : Leads number argument (Flag.texts flags ++ (w ++ rest))) (numeral : IsNumeral w)
      (head : w.head? ≠ some '0') (longest : ∀ c ∈ rest.head?, ¬c.isDigit)
      (large : 4096 < decimalValue w) :
      Flawed (number ++ (Flag.texts flags ++ (w ++ rest))) .widthTooLarge
  | precisionTooLarge {number width w rest : List Char} {argument : Option Nat} {n : Nat}
      (flags : List Flag)
      (leads : Leads number argument (Flag.texts flags ++ (width ++ '.' :: (w ++ rest))))
      (widthText : WidthText width n) (numeral : IsNumeral w)
      (longest : ∀ c ∈ rest.head?, ¬c.isDigit) (large : 4096 < decimalValue w) :
      Flawed (number ++ (Flag.texts flags ++ (width ++ '.' :: (w ++ rest)))) .precisionTooLarge
  | unknownConversion {number width precision rest : List Char} {argument digits : Option Nat}
      {n : Nat} {c : Char} (flags : List Flag)
      (leads : Leads number argument (Flag.texts flags ++ (width ++ (precision ++ c :: rest))))
      (widthText : WidthText width n) (precisionText : PrecisionText precision digits)
      (ends : ¬Continues width precision c) (unknown : ∀ k : Conversion, k.letter ≠ c) :
      Flawed (number ++ (Flag.texts flags ++ (width ++ (precision ++ c :: rest))))
        .unknownConversion
  | missingConversion {number width precision : List Char} {argument digits : Option Nat} {n : Nat}
      (flags : List Flag)
      (leads : Leads number argument (Flag.texts flags ++ (width ++ precision)))
      (widthText : WidthText width n) (precisionText : PrecisionText precision digits) :
      Flawed (number ++ (Flag.texts flags ++ (width ++ precision))) .missingConversion

section Divisions

-- The digits that a text starts with.
theorem exists_digits (cs : List Char) :
    ∃ w rest, cs = w ++ rest ∧ (∀ c ∈ w, c.isDigit) ∧ ∀ c ∈ rest.head?, ¬c.isDigit := by
  refine ⟨cs.takeWhile Char.isDigit, cs.dropWhile Char.isDigit, ?_, ?_, ?_⟩
  · exact (List.takeWhile_append_dropWhile ..).symm
  · exact fun c hc => List.mem_takeWhile_imp hc
  · intro c hc
    have hd := List.head?_dropWhile_not Char.isDigit cs
    simp_all

theorem takeWhile_digits {w rest : List Char} (hw : ∀ c ∈ w, c.isDigit)
    (hr : ∀ c ∈ rest.head?, ¬c.isDigit) : (w ++ rest).takeWhile Char.isDigit = w := by
  have hn : rest.takeWhile Char.isDigit = [] := by
    cases rest <;> simp_all
  rw [List.takeWhile_append_of_pos hw, hn, List.append_nil]

-- Digits have only one end.
theorem digits_unique {w w' rest rest' : List Char} (h : w ++ rest = w' ++ rest')
    (hw : ∀ c ∈ w, c.isDigit) (hr : ∀ c ∈ rest.head?, ¬c.isDigit)
    (hw' : ∀ c ∈ w', c.isDigit) (hr' : ∀ c ∈ rest'.head?, ¬c.isDigit) : w = w' ∧ rest = rest' := by
  have he := congrArg (List.takeWhile Char.isDigit) h
  rw [takeWhile_digits hw hr, takeWhile_digits hw' hr'] at he
  subst he
  exact ⟨rfl, List.append_cancel_left h⟩

theorem exists_leads (cs : List Char) :
    (∃ number argument rest, cs = number ++ rest ∧ Leads number argument rest) ∨
      ∃ flaw, Flawed cs flaw := by
  have ⟨w, rest, hcs, hw, hr⟩ := exists_digits cs
  by_cases hn : w ≠ [] ∧ ∃ tail, rest = '$' :: tail
  case neg =>
    refine .inl ⟨[], none, cs, rfl, .absent, fun _ w' tail hw' he => hn ?_⟩
    have ⟨h, ht⟩ := digits_unique (hcs.symm.trans he) hw hr hw'.digits (by simp)
    exact ⟨h ▸ hw'.ne_nil, tail, ht⟩
  case pos =>
    have ⟨hne, tail, ht⟩ := hn
    subst hcs ht
    by_cases hz : decimalValue w = 0
    case pos => exact .inr ⟨_, .argumentZero ⟨hne, hw⟩ hz⟩
    case neg =>
      by_cases hl : decimalValue w ≤ 4096
      case neg => exact .inr ⟨_, .argumentTooLarge ⟨hne, hw⟩ (Nat.lt_of_not_le hl)⟩
      case pos =>
        refine .inl ⟨w ++ ['$'], _, tail, by simp, .number ⟨hne, hw⟩ (by omega) hl, ?_⟩
        simp

theorem exists_flags (cs : List Char) :
    ∃ fs rest, cs = Flag.texts fs ++ rest ∧
      (rest = ['\''] ∨ ∀ c ∈ rest.head?, ¬Flag.Starts c) := by
  match cs with
  | [] => exact ⟨[], [], rfl, .inr (by simp)⟩
  | c :: cs =>
    by_cases hs : Flag.Starts c
    case neg => exact ⟨[], c :: cs, rfl, .inr (by simpa using hs)⟩
    case pos =>
      by_cases hq : c = '\''
      case neg =>
        have ⟨f, hf⟩ := Flag.exists_text hs hq
        have ⟨fs, rest, hcs, hr⟩ := exists_flags cs
        exact ⟨f :: fs, rest, by simp [hcs, Flag.texts, hf], hr⟩
      case pos =>
        match cs with
        | [] => exact ⟨[], ['\''], by simp [hq, Flag.texts], .inl rfl⟩
        | pad :: cs =>
          have ⟨fs, rest, hcs, hr⟩ := exists_flags cs
          exact ⟨.quoted pad :: fs, rest, by simp [hq, hcs, Flag.texts, Flag.text], hr⟩

-- Behind flags, digits are a width that may be too large.
theorem exists_width {cs : List Char} (hz : cs.head? ≠ some '0') :
    ∃ w rest, cs = w ++ rest ∧ (∀ c ∈ rest.head?, ¬c.isDigit) ∧
      ((∃ n, WidthText w n) ∨ IsNumeral w ∧ w.head? ≠ some '0' ∧ 4096 < decimalValue w) := by
  have ⟨w, rest, hcs, hw, hr⟩ := exists_digits cs
  refine ⟨w, rest, hcs, hr, ?_⟩
  by_cases hne : w = []
  case pos => exact .inl ⟨0, hne ▸ .absent⟩
  case neg =>
    have hw : IsNumeral w := ⟨hne, hw⟩
    have hz : w.head? ≠ some '0' := by
      rwa [hcs, List.head?_append_of_ne_nil _ hne] at hz
    by_cases hl : decimalValue w ≤ 4096
    case pos => exact .inl ⟨_, .number hw hz hl⟩
    case neg => exact .inr ⟨hw, hz, Nat.lt_of_not_le hl⟩

theorem exists_precision {cs : List Char} (hd : ∀ c ∈ cs.head?, ¬c.isDigit) :
    (∃ precision digits rest, cs = precision ++ rest ∧ PrecisionText precision digits ∧
      ∀ c ∈ rest.head?, ¬c.isDigit ∧ (precision = [] → c ≠ '.')) ∨
    ∃ w rest, cs = '.' :: (w ++ rest) ∧ IsNumeral w ∧ (∀ c ∈ rest.head?, ¬c.isDigit) ∧
      4096 < decimalValue w := by
  by_cases hp : ∃ tail, cs = '.' :: tail
  case neg =>
    refine .inl ⟨[], none, cs, rfl, .absent, fun c hc => ⟨hd c hc, fun _ he => hp ?_⟩⟩
    exact he ▸ List.head?_eq_some_iff.mp hc
  case pos =>
    have ⟨tail, ht⟩ := hp
    have ⟨w, rest, hcs, hw, hr⟩ := exists_digits tail
    subst hcs
    by_cases hl : decimalValue w ≤ 4096
    case pos => exact .inl ⟨'.' :: w, _, rest, ht, .number hw hl, fun c hc => ⟨hr c hc, nofun⟩⟩
    case neg =>
      have hne : w ≠ [] := by
        rintro rfl
        exact hl (Nat.zero_le _)
      exact .inr ⟨w, rest, ht, ⟨hne, hw⟩, hr, Nat.lt_of_not_le hl⟩

end Divisions

-- A text is divided from the left, and each part is checked before the next one is looked at.
theorem spells_or_flawed (cs : List Char) :
    (∃ w p rest, cs = w ++ rest ∧ Spells w p) ∨ ∃ flaw, Flawed cs flaw := by
  cases exists_leads cs
  case inr h => exact .inr h
  case inl h =>
    obtain ⟨number, argument, rest, rfl, leads⟩ := h
    obtain ⟨flags, rest, rfl, hr⟩ := exists_flags rest
    cases hr
    case inl h =>
      subst h
      exact .inr ⟨_, .missingPad flags leads⟩
    case inr hs =>
      have hz : rest.head? ≠ some '0' := fun h => hs '0' h (Flag.starts_iff.mpr (by simp))
      obtain ⟨width, rest, rfl, hr, hw⟩ := exists_width hz
      cases hw
      case inr h =>
        obtain ⟨numeral, head, large⟩ := h
        exact .inr ⟨_, .widthTooLarge flags leads numeral head hr large⟩
      case inl h =>
        obtain ⟨n, widthText⟩ := h
        cases exists_precision hr
        case inr h =>
          obtain ⟨w, rest, rfl, numeral, longest, large⟩ := h
          exact .inr ⟨_, .precisionTooLarge flags leads widthText numeral longest large⟩
        case inl h =>
          obtain ⟨precision, digits, rest, rfl, precisionText, ends⟩ := h
          match rest with
          | [] =>
            rw [List.append_nil] at leads ⊢
            exact .inr ⟨_, .missingConversion flags leads widthText precisionText⟩
          | c :: rest =>
            by_cases hk : ∃ k : Conversion, k.letter = c
            case pos =>
              obtain ⟨k, rfl⟩ := hk
              refine .inl ⟨_, _, rest, ?_, .intro leads.text flags widthText precisionText k⟩
              simp
            case neg =>
              have hc : ¬Continues width precision c := by
                rintro (hd | ⟨rfl, rfl | ⟨rfl, hf⟩⟩)
                · exact (ends c rfl).left hd
                · exact (ends '.' rfl).right rfl rfl
                · exact hs c rfl hf
              exact .inr ⟨_, .unknownConversion flags leads widthText precisionText hc
                (not_exists.mp hk)⟩

end Placeholder

end MessageCatalog
