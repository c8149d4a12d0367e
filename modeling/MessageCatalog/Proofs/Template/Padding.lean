import MessageCatalog.Proofs.Number.Positional
import MessageCatalog.Proofs.Template.Reading
import MessageCatalog.Template.Placeholder.Render

namespace MessageCatalog

open Number Text

-- The conversions that write a sign apart from the digits behind it.
def Conversion.isSigned : Conversion → Bool
  | decimal | integer | fixed _ | exponent _ | general _ => true
  | _                                                    => false

def IsSign (c : Char) : Prop :=
  c = '-' ∨ c = '+'

instance : DecidablePred IsSign :=
  fun _ => inferInstanceAs (Decidable (_ ∨ _))

-- The sign of a text that a conversion has written. Other conversions write none, even if their
-- text starts with the character of one.
def Conversion.signOf (k : Conversion) (text : List Char) : List Char :=
  if k.isSigned then text.takeWhile (IsSign ·) else []

namespace Flag

def pad? : Flag → Option Char
  | blank       => ' '
  | zero        => '0'
  | quoted pad  => pad
  | left | plus => none

-- The last pad that is given, which is a space if there is none.
def lastPad (fs : List Flag) : Char :=
  (fs.filterMap pad?).getLast?.getD ' '

-- A text filled up to a width, as flags ask for it.
def padded (fs : List Flag) (k : Conversion) (width : Nat) (text : List Char) : List Char :=
  let missing := width - text.length
  let sign := k.signOf text
  if left ∈ fs then
    text ++ List.replicate missing (if lastPad fs = '0' then ' ' else lastPad fs)
  else if lastPad fs = '0' then
    sign ++ List.replicate missing '0' ++ text.drop sign.length
  else
    List.replicate missing (lastPad fs) ++ text

end Flag

section Flags

theorem Flags.ofList_concat (fs : List Flag) (f : Flag) :
    Flags.ofList (fs ++ [f]) = f.set (.ofList fs) :=
  List.foldl_concat ..

theorem Flags.left_ofList (fs : List Flag) : (Flags.ofList fs).left ↔ .left ∈ fs := by
  induction fs using List.reverseRecOn
  case nil => simp [Flags.ofList]
  case append_singleton fs f ih => cases f <;> simp [ofList_concat, Flag.set, ih]

theorem Flags.pad_ofList (fs : List Flag) : (Flags.ofList fs).pad = Flag.lastPad fs := by
  induction fs using List.reverseRecOn
  case nil => rfl
  case append_singleton fs f ih =>
    cases f <;> simp [ofList_concat, Flag.set, Flag.lastPad, List.filterMap_append, Flag.pad?, ih]

theorem Flags.isSign_of_mem_sign {f : Flags} {negative : Bool} :
    ∀ c ∈ f.sign negative, IsSign c := by
  intro c hc
  rw [sign] at hc
  split at hc
  case isTrue => exact .inl (List.mem_singleton.mp hc)
  case isFalse =>
    split at hc
    case isTrue  => exact .inr (List.mem_singleton.mp hc)
    case isFalse => cases hc

end Flags

section Signs

-- A text that starts with no sign.
def Unsigned (text : List Char) : Prop :=
  ∀ c ∈ text.head?, ¬IsSign c

theorem unsigned_of_head {text : List Char} (h : ∃ c ∈ text.head?, c.isDigit) : Unsigned text := by
  rintro c hc (rfl | rfl) <;>
  · have ⟨d, hd, hi⟩ := h
    cases hc.symm.trans hd
    cases hi

theorem unsigned_text (p : Positional) : Unsigned p.text :=
  unsigned_of_head p.exists_head_text

theorem unsigned_toDigits (n : Nat) : Unsigned (Nat.toDigits 10 n) := by
  have h := unsigned_text ⟨n, [], nofun⟩
  rwa [Positional.text_of_nil rfl] at h

theorem Unsigned.append {text : List Char} (h : Unsigned text) (hn : text ≠ [])
    (rest : List Char) : Unsigned (text ++ rest) := by
  rwa [Unsigned, List.head?_append_of_ne_nil _ hn]

theorem text_ne_nil (p : Positional) : p.text ≠ [] := by
  have ⟨_, h, _⟩ := p.exists_head_text
  exact List.ne_nil_of_mem (List.mem_of_mem_head? h)

theorem unsigned_specialText (upper : Bool) (x : Binary64) :
    Unsigned (upperIf upper x.specialText) := by
  rw [Binary64.specialText, upperIf]
  split <;> split <;> simp [Unsigned, IsSign]

theorem unsigned_fixedText (precision : Nat) (x : Binary64) : Unsigned (fixedText precision x) := by
  rw [fixedText]
  split
  case isTrue =>
    rw [Ratio.fixed, Positional.withPoint_eq_text]
    exact unsigned_text _
  case isFalse => exact unsigned_specialText false x

theorem unsigned_exponentText (precision : Nat) (upper : Bool) (x : Binary64) :
    Unsigned (exponentText precision upper x) := by
  rw [exponentText]
  split
  case isTrue =>
    simp only [Scientific.mantissa, Positional.withPoint_eq_text]
    exact (unsigned_text _).append (text_ne_nil _) _
  case isFalse => exact unsigned_specialText false x

theorem unsigned_generalText (digits : Nat) (upper : Bool) (x : Binary64) :
    Unsigned (generalText digits upper x) := by
  rw [generalText]
  split
  case isTrue =>
    simp only [Scientific.mantissa, Ratio.fixed, Positional.stripZeros_withPoint]
    split
    case isTrue  => exact (unsigned_text _).append (text_ne_nil _) _
    case isFalse => exact unsigned_text _
  case isFalse => exact unsigned_specialText upper x

theorem unsigned_body {p : Placeholder} (h : p.conversion.isSigned) (a : Argument) :
    Unsigned (p.rendering a).body := by
  rw [Placeholder.rendering]
  cases hk : p.conversion
  case decimal | integer => exact unsigned_toDigits _
  case fixed             => exact unsigned_fixedText _ _
  case exponent          => exact unsigned_exponentText _ _ _
  case general           => exact unsigned_generalText _ _ _
  all_goals simp [hk, Conversion.isSigned] at h

theorem isSign_of_mem_sign {p : Placeholder} {a : Argument} :
    ∀ c ∈ (p.rendering a).sign, IsSign c := by
  rw [Placeholder.rendering]
  cases p.conversion
  case decimal | integer | fixed | exponent | general => exact Flags.isSign_of_mem_sign
  all_goals exact nofun

-- The sign can be told from the text, since none starts what follows it.
theorem signOf_rendering (p : Placeholder) (a : Argument) :
    p.conversion.signOf ((p.rendering a).sign ++ (p.rendering a).body) = (p.rendering a).sign := by
  cases hs : p.conversion.isSigned
  case false =>
    rw [Conversion.signOf, if_neg (by simp [hs]), Placeholder.rendering]
    cases hk : p.conversion <;> first | rfl | simp [hk, Conversion.isSigned] at hs
  case true =>
    have hb : (p.rendering a).body.takeWhile (IsSign ·) = [] := by
      have hu := unsigned_body hs a
      cases h : (p.rendering a).body
      case nil => rfl
      case cons => exact List.takeWhile_cons_of_neg (by simpa [Unsigned, h] using hu)
    rw [Conversion.signOf, if_pos hs, List.takeWhile_append_of_pos, hb, List.append_nil]
    simpa using isSign_of_mem_sign

end Signs

section Filling

variable {r : Rendering} {f : Flags} {width : Nat}

theorem fill_zero (r : Rendering) (f : Flags) : r.fill f 0 = r.sign ++ r.body := by
  simp [Rendering.fill]

theorem length_fill (r : Rendering) (f : Flags) (width : Nat) :
    (r.fill f width).length = max width r.length := by
  simp only [Rendering.fill, Rendering.length]
  split
  case isTrue => simp; omega
  case isFalse =>
    split <;> simp <;> omega

theorem fill_eq_padded (fs : List Flag) (k : Conversion) (width : Nat)
    (hs : k.signOf (r.sign ++ r.body) = r.sign) :
    r.fill (.ofList fs) width = Flag.padded fs k width (r.sign ++ r.body) := by
  have hl : r.length = (r.sign ++ r.body).length := List.length_append.symm
  simp only [Rendering.fill, Flag.padded, hs, hl, Flags.left_ofList, Flags.pad_ofList,
    List.drop_left, List.append_assoc]

end Filling

namespace Placeholder

-- The program reads a placeholder from a text, whatever stands around it.
def IsRead (w : List Char) (p : Placeholder) : Prop :=
  ∀ (offset : Nat) (rest : List Char),
    read ⟨offset, w ++ rest⟩ = .ok (p, ⟨offset + byteLength w, rest⟩)

theorem render_plain (p : Placeholder) (a : Argument) :
    render { p with width := 0 } a = (p.rendering a).sign ++ (p.rendering a).body :=
  fill_zero ..

theorem render_eq_padded {p : Placeholder} {fs : List Flag} (h : p.flags = .ofList fs)
    (a : Argument) :
    p.render a = Flag.padded fs p.conversion p.width (render { p with width := 0 } a) := by
  rw [render_plain, render, h]
  exact fill_eq_padded fs _ _ (signOf_rendering p a)

theorem length_render (p : Placeholder) (a : Argument) :
    (p.render a).length = max p.width (render { p with width := 0 } a).length := by
  rw [render_plain, render, length_fill, List.length_append, Rendering.length]

variable {number width precision : List Char} {argument digits : Option Nat} {n : Nat}

theorem render_width (numberText : ArgumentText number argument) (flags : List Flag)
    (widthText : WidthText width n) (precisionText : PrecisionText precision digits)
    (k : Conversion) :
    ∃ p plain : Placeholder,
      IsRead (number ++ (Flag.texts flags ++ (width ++ (precision ++ [k.letter])))) p ∧
      IsRead (number ++ (Flag.texts flags ++ (precision ++ [k.letter]))) plain ∧
      ∀ a : Argument,
        p.render a = Flag.padded flags k n (plain.render a) ∧
        (p.render a).length = max n (plain.render a).length ∧
        (k = .text → plain.render a = digits.elim a.display (a.display.take ·)) := by
  let p : Placeholder := ⟨argument, .ofList flags, n, digits, k⟩
  have hp : Spells _ p := .intro numberText flags widthText precisionText k
  have hq : Spells _ { p with width := 0 } := .intro numberText flags .absent precisionText k
  refine ⟨_, _, read_of_spells hp, read_of_spells hq, fun a => ?_⟩
  refine ⟨render_eq_padded rfl a, length_render p a, ?_⟩
  rintro rfl
  exact render_plain p a

theorem IsRead.unique {w : List Char} {p q : Placeholder} {c : Cursor} (h : IsRead w p)
    (hq : read ⟨0, w⟩ = .ok (q, c)) : p = q := by
  have hp := h 0 []
  rw [List.append_nil] at hp
  exact (Prod.mk.inj (Except.ok.inj (hp.symm.trans hq))).left

-- Zeros between a sign and its digits, and a pad of two bytes that is given after a zero.
theorem render_width_zeros :
    (∃ p plain : Placeholder, IsRead "05d".toList p ∧ IsRead "0d".toList plain ∧
      plain.render (.int (-42)) = "-42".toList ∧ p.render (.int (-42)) = "-0042".toList) ∧
    ∃ p plain : Placeholder, IsRead "0'·5.2s".toList p ∧ IsRead "0'·.2s".toList plain ∧
      plain.render (.text "-éa") = "-é".toList ∧ p.render (.text "-éa") = "···-é".toList := by
  have hw : WidthText ['5'] 5 := .number ⟨by decide, by simp⟩ (by decide) (by decide)
  have hp : PrecisionText ['.', '2'] (some 2) := .number (by simp) (by decide)
  constructor
  · obtain ⟨p, plain, hp, hq, h⟩ := render_width .absent [.zero] hw .absent .decimal
    obtain ⟨hr, _⟩ := h (.int (-42))
    have hplain : plain.render (.int (-42)) = "-42".toList := by
      rw [hq.unique (q := ⟨none, ⟨false, false, '0'⟩, 0, none, .decimal⟩) (by cbv)]
      decide
    rw [hplain] at hr
    exact ⟨p, plain, hp, hq, hplain, hr.trans (by decide)⟩
  · obtain ⟨p, plain, hp, hq, h⟩ := render_width .absent [.zero, .quoted '·'] hw hp .text
    obtain ⟨hr, _⟩ := h (.text "-éa")
    have hplain : plain.render (.text "-éa") = "-é".toList := by
      rw [hq.unique (q := ⟨none, ⟨false, false, '·'⟩, 0, some 2, .text⟩) (by cbv)]
      decide
    rw [hplain] at hr
    exact ⟨p, plain, hp, hq, hplain, hr.trans (by decide)⟩

end Placeholder

end MessageCatalog
