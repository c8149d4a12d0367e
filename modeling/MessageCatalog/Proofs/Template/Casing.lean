import MessageCatalog.Proofs.Template.Formatting
import MessageCatalog.Proofs.Template.Padding

namespace MessageCatalog

open Number Text

-- The letters of a pair differ in nothing but their case, and so should the texts they show.
inductive Conversion.IsUpper : Conversion → Conversion → Prop
  | hexadecimal : IsUpper (.hexadecimal false) (.hexadecimal true)
  | exponent : IsUpper (.exponent false) (.exponent true)
  | general : IsUpper (.general false) (.general true)

theorem Conversion.IsUpper.letter {k k' : Conversion} (h : k.IsUpper k') :
    k'.letter = k.letter.toUpper := by
  cases h <;> rfl

section Caseless

-- A text without lower-case letters.
def Caseless (text : List Char) : Prop :=
  ∀ c ∈ text, c.toUpper = c

variable {text rest : List Char}

theorem Caseless.map_eq (h : Caseless text) : text.map Char.toUpper = text :=
  (List.map_congr_left h).trans (List.map_id text)

theorem Caseless.cons {c : Char} (hc : c.toUpper = c) (h : Caseless text) : Caseless (c :: text) :=
  List.forall_mem_cons.mpr ⟨hc, h⟩

-- Digits come before letters.
theorem toUpper_of_isDigit {c : Char} (h : c.isDigit) : c.toUpper = c := by
  refine dif_neg fun hc => ?_
  have hl : 'a'.toNat ≤ c.toNat := hc.left
  exact absurd (Nat.le_trans hl (Char.isDigit_iff_toNat.mp h).right) (by decide)

theorem caseless_decimal (n : Nat) : Caseless (decimal n) :=
  fun _ hc => toUpper_of_isDigit (isDigit_of_mem_decimal hc)

theorem caseless_text (p : Positional) : Caseless p.text := by
  intro c hc
  cases Positional.isDigit_or_point_of_mem_text c hc
  case inl h => exact toUpper_of_isDigit h
  case inr h => exact h ▸ rfl

theorem caseless_sign (p : Placeholder) (a : Argument) : Caseless (p.rendering a).sign := by
  intro c hc
  cases isSign_of_mem_sign c hc
  case inl h => exact h ▸ rfl
  case inr h => exact h ▸ rfl

theorem caseless_exponentText (s : Scientific) : Caseless s.exponentText :=
  .cons (by split <;> rfl) (caseless_decimal _)

end Caseless

section Bodies

theorem map_toUpper_scientific {mantissa : List Char} (h : Caseless mantissa) (s : Scientific) :
    (mantissa ++ 'e' :: s.exponentText).map Char.toUpper = mantissa ++ 'E' :: s.exponentText := by
  rw [List.map_append, h.map_eq, List.map_cons, (caseless_exponentText s).map_eq]
  rfl

theorem exponentText_upper {x : Binary64} (h : x.isFinite) (precision : Nat) :
    exponentText precision true x = (exponentText precision false x).map Char.toUpper := by
  simp only [exponentText, if_pos h, Scientific.mantissa, Positional.withPoint_eq_text]
  exact (map_toUpper_scientific (caseless_text _) _).symm

theorem exponentText_of_not_finite {x : Binary64} (h : ¬x.isFinite) (precision : Nat)
    (upper : Bool) : exponentText precision upper x = x.specialText := by
  rw [exponentText, if_neg h]

theorem generalText_upper (digits : Nat) (x : Binary64) :
    generalText digits true x = (generalText digits false x).map Char.toUpper := by
  simp only [generalText, Scientific.mantissa, Ratio.fixed, Positional.stripZeros_withPoint]
  split
  case isFalse => rfl
  case isTrue =>
    split
    case isTrue  => exact (map_toUpper_scientific (caseless_text _) _).symm
    case isFalse => exact (caseless_text _).map_eq.symm

-- Both names have letters in lower case.
theorem map_toUpper_specialText_ne (x : Binary64) :
    x.specialText.map Char.toUpper ≠ x.specialText := by
  rw [Binary64.specialText]
  split <;> decide

end Bodies

namespace Placeholder

-- A number that is not finite has a name in place of digits. Exponent notation leaves it as it is.
def KeepsCase (k : Conversion) (a : Argument) : Prop :=
  k = .exponent false ∧ ¬a.toBinary64.isFinite

instance (k : Conversion) (a : Argument) : Decidable (KeepsCase k a) :=
  inferInstanceAs (Decidable (_ ∧ _))

variable {k k' : Conversion} {number precision : List Char} {argument digits : Option Nat}

theorem rendering_upper (h : k.IsUpper k') (p : Placeholder) (a : Argument) :
    rendering { p with conversion := k' } a =
      { sign := (rendering { p with conversion := k } a).sign
        body := if KeepsCase k a then (rendering { p with conversion := k } a).body
          else (rendering { p with conversion := k } a).body.map Char.toUpper } := by
  cases h
  case hexadecimal => rw [if_neg (by simp [KeepsCase])]; rfl
  case general     =>
    rw [if_neg (by simp [KeepsCase])]
    exact congrArg (Rendering.mk _) (generalText_upper ..)
  case exponent    =>
    split
    case isTrue hk =>
      have he := exponentText_of_not_finite hk.right p.precisionOrDefault
      exact congrArg (Rendering.mk _) ((he true).trans (he false).symm)
    case isFalse hk =>
      have hx : a.toBinary64.isFinite := by simpa [KeepsCase] using hk
      exact congrArg (Rendering.mk _) (exponentText_upper hx _)

theorem body_of_keepsCase (h : KeepsCase k a) (p : Placeholder) :
    (rendering { p with conversion := k } a).body = a.toBinary64.specialText := by
  rw [h.left]
  exact exponentText_of_not_finite h.right ..

-- The texts of a pair differ by case alone, and where one is exempt they do not.
theorem render_upper (numberText : ArgumentText number argument) (flags : List Flag)
    (precisionText : PrecisionText precision digits) (h : k.IsUpper k') :
    ∃ p p' : Placeholder,
      IsRead (number ++ (Flag.texts flags ++ (precision ++ [k.letter]))) p ∧
      IsRead (number ++ (Flag.texts flags ++ (precision ++ [k'.letter]))) p' ∧
      k'.letter = k.letter.toUpper ∧
      ∀ a : Argument,
        (p'.render a = (p.render a).map Char.toUpper ↔ ¬KeepsCase k a) ∧
        (KeepsCase k a → p'.render a = p.render a) := by
  let p (k : Conversion) : Placeholder := ⟨argument, .ofList flags, 0, digits, k⟩
  have hp (k : Conversion) : Spells _ (p k) := .intro numberText flags .absent precisionText k
  refine ⟨p k, p k', read_of_spells (hp k), read_of_spells (hp k'), h.letter, fun a => ?_⟩
  have hr (k : Conversion) :
      (p k).render a = ((p k).rendering a).sign ++ ((p k).rendering a).body :=
    fill_zero ..
  have hs : ((p k).rendering a).sign.map Char.toUpper = ((p k).rendering a).sign :=
    (caseless_sign (p k) a).map_eq
  have hu : (p k').rendering a = _ := rendering_upper h (p k) a
  have hk : { p k with conversion := k } = p k := rfl
  rw [hr k, hr k', hu, hk, List.map_append, hs, List.append_cancel_left_eq,
    List.append_cancel_left_eq]
  by_cases hc : KeepsCase k a
  case neg => simp [hc]
  case pos =>
    have hb := body_of_keepsCase hc (p k)
    rw [hk] at hb
    simpa [hc, hb] using (map_toUpper_specialText_ne _).symm

-- A sign, the marker of an exponent and a precision, for the number 1 / 1024.
theorem render_upper_fraction :
    ∃ p p' : Placeholder, IsRead "+.3e".toList p ∧ IsRead "+.3E".toList p' ∧
      p.render (.float ⟨0x3f50000000000000⟩) = "+9.766e-4".toList ∧
      p'.render (.float ⟨0x3f50000000000000⟩) = "+9.766E-4".toList := by
  have precisionText : PrecisionText ['.', '3'] (some 3) := .number (by simp) (by decide)
  obtain ⟨p, p', hp, hp', _, h⟩ := render_upper .absent [.plus] precisionText .exponent
  obtain ⟨hu, _⟩ := h (.float ⟨0x3f50000000000000⟩)
  have hl : p.render (.float ⟨0x3f50000000000000⟩) = "+9.766e-4".toList := by
    rw [hp.unique (q := ⟨none, ⟨false, true, ' '⟩, 0, some 3, .exponent false⟩) (by cbv)]
    decide
  have hu := hu.mpr (by decide)
  rw [hl] at hu
  exact ⟨p, p', hp, hp', hl, hu.trans (by decide)⟩

-- Infinity is shown in lower case by both letters of exponent notation, but not by those of the
-- general one.
theorem format_exponent_infinity :
    (∃ lower upper : String,
      format "%e" [.float ⟨0x7ff0000000000000⟩] = .ok lower ∧
      format "%E" [.float ⟨0x7ff0000000000000⟩] = .ok upper ∧
      upper.toList ≠ lower.toList.map Char.toUpper) ∧
    format "%G" [.float ⟨0x7ff0000000000000⟩] = .ok "INF" := by
  have hf (k : Conversion) (a : Argument) := Template.format_slot
    (.intro .absent [] .absent .absent k) rfl a []
  refine ⟨⟨"inf", "inf", ?_, ?_, by decide⟩, ?_⟩
  · exact (hf (.exponent false) _).trans (by decide)
  · exact (hf (.exponent true) _).trans (by decide)
  · exact (hf (.general true) _).trans (by decide)

end Placeholder

end MessageCatalog
