import Mathlib.Algebra.Order.Floor.Semifield
import MessageCatalog.Proofs.Number.Binary
import MessageCatalog.Proofs.Number.Significant
import MessageCatalog.Template.Placeholder.Render

namespace MessageCatalog

open Number Text

-- One digit is the least that can be asked for.
def Placeholder.significantDigits (p : Placeholder) : Nat :=
  match p.precision with
  | none         => 6
  | some 0       => 1
  | some (n + 1) => n + 1

-- A text in positional notation, with all digits of the whole number and no useless characters
-- behind them.
structure Writes (text : List Char) (q : ℚ) : Prop where
  value : ∃ n : Positional, n.text = text ∧ n.value = q ∧ n.whole = ⌊q⌋₊
  no_point : text.getLast? ≠ some '.'
  no_zero : '.' ∈ text → text.getLast? ≠ some '0'

def marker (upper : Bool) : Char :=
  if upper then 'E' else 'e'

-- The notations of a number that has been rounded to some significant digits. The logarithm is the
-- exponent of the first one, and that of zero is zero.
structure WritesGeneral (digits : Nat) (marker : Char) (text : List Char) (rounded : ℚ) :
    Prop where
  marked : marker ∈ text ↔ Int.log 10 rounded < -4 ∨ digits ≤ Int.log 10 rounded
  plain : marker ∉ text → Writes text rounded
  scientific : marker ∈ text → ∃ mantissa q,
    text = mantissa ++ marker :: (if Int.log 10 rounded < 0 then '-' else '+') ::
      decimal (Int.log 10 rounded).natAbs ∧
    Writes mantissa q ∧ 1 ≤ q ∧ q < 10 ∧ q * 10 ^ Int.log 10 rounded = rounded

theorem Writes.unique {text : List Char} {q q' : ℚ} (h : Writes text q) (h' : Writes text q') :
    q = q' := by
  have ⟨n, ht, hv, _⟩ := h.value
  have ⟨n', ht', hv', _⟩ := h'.value
  rw [← hv, ← hv', Positional.text_injective (ht.trans ht'.symm)]

theorem Writes.marker_not_mem {text : List Char} {q : ℚ} (h : Writes text q) (upper : Bool) :
    marker upper ∉ text := by
  have ⟨n, ht, _⟩ := h.value
  intro hm
  rw [← ht] at hm
  cases upper <;> cases Positional.isDigit_or_point_of_mem_text _ hm <;> contradiction

theorem writes_stripZeros (places n : Nat) :
    Writes (stripZeros (withPoint places n)) (n / 10 ^ places) := by
  have hv : (Positional.ofScaled places n).trim.value = n / 10 ^ places := by
    rw [Positional.value_trim, Positional.value_ofScaled]
  have hw : ⌊(n / 10 ^ places : ℚ)⌋₊ = n / 10 ^ places := by
    exact_mod_cast Nat.floor_div_eq_div (K := ℚ) n (10 ^ places)
  rw [Positional.stripZeros_withPoint]
  refine ⟨⟨_, rfl, hv, hw.symm⟩, ?_, (Positional.isTrimmed_trim _).getLast?_text_ne⟩
  intro hp
  cases Positional.isDigit_of_mem_getLast?_text _ hp

section General

variable (r : Ratio) (places : Nat) (upper : Bool)

theorem writesGeneral_scientific
    (h : (r.scientific places).exponent < -4 ∨ (places + 1 : Nat) ≤ (r.scientific places).exponent) :
    WritesGeneral (places + 1) (marker upper)
      (stripZeros (r.scientific places).mantissa ++
        marker upper :: (r.scientific places).exponentText)
      (r.scientific places).value := by
  have hm : marker upper ∈ stripZeros (r.scientific places).mantissa ++
      marker upper :: (r.scientific places).exponentText := by simp
  -- The exponent of a zero asks for plain notation.
  have hz : 0 < r.num := by
    refine Nat.pos_of_ne_zero fun hr => ?_
    have he : (r.scientific places).exponent = 0 :=
      congrArg Scientific.exponent (Ratio.scientific_zero hr places)
    omega
  have ⟨hl, hu⟩ := (Ratio.isNormal_scientific hz places).mantissa
  have hv := (r.scientific places).value_eq_mantissa.symm
  rw [← r.log_value_scientific places] at h
  refine ⟨iff_of_true hm h, absurd hm, fun _ => ?_⟩
  rw [r.log_value_scientific places]
  exact ⟨_, _, rfl, writes_stripZeros .., hl, hu, hv⟩

-- The second rounding is at the position of the first one.
theorem writesGeneral_plain
    (h : ¬((r.scientific places).exponent < -4 ∨
      (places + 1 : Nat) ≤ (r.scientific places).exponent)) :
    WritesGeneral (places + 1) (marker upper)
      (stripZeros (r.fixed (((places + 1 : Nat) : Int) - 1 - (r.scientific places).exponent).toNat))
      (r.scientific places).value := by
  let k := (((places + 1 : Nat) : Int) - 1 - (r.scientific places).exponent).toNat
  have hk : (k : Int) = places - (r.scientific places).exponent := by omega
  have hw : Writes (stripZeros (r.fixed k)) (r.scientific places).value := by
    rw [Ratio.fixed_eq_withPoint hk,
      Scientific.value_eq_div (k := k) (by rw [hk, Ratio.places_scientific])]
    exact writes_stripZeros ..
  have hm := hw.marker_not_mem upper
  rw [← r.log_value_scientific places] at h
  exact ⟨iff_of_false hm h, fun _ => hw, fun h => absurd h hm⟩

theorem writesGeneral_generalText {x : Binary64} (hx : x.isFinite) :
    WritesGeneral (places + 1) (marker upper) (generalText (places + 1) upper x)
      (x.magnitude.scientific places).value := by
  rw [generalText, if_pos hx]
  simp only [Nat.add_sub_cancel]
  split
  case isTrue h  => exact writesGeneral_scientific _ _ _ h
  case isFalse h => exact writesGeneral_plain _ _ _ h

end General

namespace Placeholder

variable {p : Placeholder} {a : Argument} {upper : Bool}

theorem max_precisionOrDefault (p : Placeholder) :
    max 1 p.precisionOrDefault = p.significantDigits := by
  rw [precisionOrDefault, significantDigits]
  cases p.precision
  case none   => rfl
  case some n => cases n <;> simp

theorem significantDigits_pos (p : Placeholder) : 0 < p.significantDigits := by
  rw [← p.max_precisionOrDefault]
  omega

theorem body_general (hk : p.conversion = .general upper) (hx : a.toBinary64.isFinite) :
    ∃ rounded : ℚ,
      (∀ q, IsRounded p.significantDigits |a.toBinary64.toRat| q ↔ q = rounded) ∧
      WritesGeneral p.significantDigits (marker upper) (p.rendering a).body rounded := by
  have ⟨places, hp⟩ := Nat.exists_eq_add_one.mpr p.significantDigits_pos
  have hr := Ratio.isRounded_scientific a.toBinary64.magnitude places
  have hb : (p.rendering a).body = generalText p.significantDigits upper a.toBinary64 := by
    rw [rendering, hk, ← p.max_precisionOrDefault]
    rfl
  rw [hb, hp, Binary64.abs_toRat]
  refine ⟨_, fun q => ⟨fun h => h.unique hr, ?_⟩, writesGeneral_generalText places upper hx⟩
  rintro rfl
  exact hr

-- The number 999999.5 is halfway, and rounded up it has one digit more than can be shown.
theorem body_general_halfway :
    (rendering ⟨none, {}, 0, none, .general false⟩ (.float ⟨0x412e847f00000000⟩)).body =
        "1e+6".toList ∧
      WritesGeneral 6 'e' "1e+6".toList 1000000 := by
  have ⟨rounded, hr, hw⟩ := body_general (p := ⟨none, {}, 0, none, .general false⟩)
    (a := .float ⟨0x412e847f00000000⟩) rfl (by decide)
  have hb : (rendering ⟨none, {}, 0, none, .general false⟩ (.float ⟨0x412e847f00000000⟩)).body =
      "1e+6".toList := by
    decide
  have hx : |Binary64.toRat ⟨0x412e847f00000000⟩| = 1999999 / 2 := by
    have hs : Binary64.significand ⟨0x412e847f00000000⟩ = 0x1e847f00000000 := by decide
    have he : Binary64.exponent ⟨0x412e847f00000000⟩ = -33 := by decide
    have hz : Binary64.signBit ⟨0x412e847f00000000⟩ = false := by decide
    rw [Binary64.toRat, hs, he, hz]
    norm_num [abs_of_pos]
  have hl : Int.log 10 (1999999 / 2 : ℚ) = 5 :=
    log_eq_of_le_of_lt (by decide) (by norm_num) (by norm_num) (by norm_num)
  have hn : IsRounded 6 (1999999 / 2) 1000000 := by
    refine ⟨1000000, ⟨?_, fun _ => by decide⟩, ?_⟩ <;> norm_num [lastWeight, hl, abs_of_neg]
  rw [hb, ← (hr _).mp (hx ▸ hn)] at hw
  exact ⟨hb, hw⟩

end Placeholder

end MessageCatalog
