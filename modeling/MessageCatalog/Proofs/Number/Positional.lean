import Mathlib.Data.List.DropRight
import Mathlib.Tactic
import MessageCatalog.Number.Decimal

namespace MessageCatalog

open Text

theorem Text.decimalValue_append (as bs : List Char) :
    decimalValue (as ++ bs) = 10 ^ bs.length * decimalValue as + decimalValue bs := by
  simp only [decimalValue_eq_ofDigitChars, Nat.ofDigitChars_append]
  exact Nat.ofDigitChars_eq_ofDigitChars_zero

namespace Number

structure Positional where
  whole : Nat
  decimals : List Char
  digits : ∀ c ∈ decimals, c.isDigit

namespace Positional

def text (p : Positional) : List Char :=
  decimal p.whole ++ if p.decimals = [] then [] else '.' :: p.decimals

def value (p : Positional) : ℚ :=
  p.whole + decimalValue p.decimals / 10 ^ p.decimals.length

-- No zero ends the decimals.
def IsTrimmed (p : Positional) : Prop :=
  p.decimals.getLast? ≠ some '0'

section Ends

variable {p : Positional}

theorem text_of_nil (h : p.decimals = []) : p.text = decimal p.whole := by
  simp [text, h]

theorem text_of_ne_nil (h : p.decimals ≠ []) : p.text = decimal p.whole ++ '.' :: p.decimals := by
  simp [text, h]

theorem exists_head_text (p : Positional) : ∃ c ∈ p.text.head?, c.isDigit := by
  match h : decimal p.whole with
  | []      => exact absurd h (decimal_ne_nil _)
  | c :: cs => exact ⟨c, by rw [text, h]; rfl, isDigit_of_mem_decimal (h ▸ List.mem_cons_self ..)⟩

theorem isDigit_or_point_of_mem_text : ∀ c ∈ p.text, c.isDigit ∨ c = '.' := by
  intro c hc
  cases List.mem_append.mp hc
  case inl hw => exact .inl (isDigit_of_mem_decimal hw)
  case inr hd =>
    split at hd
    case isTrue => cases hd
    case isFalse =>
      cases List.mem_cons.mp hd
      case inl h => exact .inr h
      case inr h => exact .inl (p.digits c h)

-- A text is read back in one way, since the point ends the digits of the whole number.
theorem text_injective : Function.Injective text := by
  have hw (p : Positional) : p.text.takeWhile Char.isDigit = decimal p.whole ∧
      p.text.dropWhile Char.isDigit = if p.decimals = [] then [] else '.' :: p.decimals := by
    have hd : ∀ c ∈ decimal p.whole, c.isDigit := fun c hc => isDigit_of_mem_decimal hc
    rw [text, List.takeWhile_append_of_pos hd, List.dropWhile_append_of_pos hd]
    split <;> simp
  intro p q h
  have hp := hw p
  rw [h, (hw q).left, (hw q).right] at hp
  have hn : q.whole = p.whole := by
    simpa using congrArg decimalValue hp.left
  have hd : q.decimals = p.decimals := by
    have := hp.right
    split at this <;> split at this <;> simp_all
  cases p
  cases q
  cases hn
  cases hd
  rfl

theorem point_not_mem_decimal (n : Nat) : '.' ∉ decimal n :=
  fun h => Bool.noConfusion (isDigit_of_mem_decimal h)

theorem point_mem_text_iff : '.' ∈ p.text ↔ p.decimals ≠ [] := by
  by_cases h : p.decimals = [] <;> simp [text, h, point_not_mem_decimal]

-- A text never ends in a point, since digits follow it.
theorem isDigit_of_mem_getLast?_text : ∀ c ∈ p.text.getLast?, c.isDigit := by
  intro c hc
  by_cases h : p.decimals = []
  case pos =>
    rw [text_of_nil h] at hc
    exact isDigit_of_mem_decimal (List.mem_of_mem_getLast? hc)
  case neg =>
    rw [text_of_ne_nil h, List.append_cons, List.getLast?_append_of_ne_nil _ h] at hc
    exact p.digits c (List.mem_of_mem_getLast? hc)

theorem IsTrimmed.getLast?_text_ne (h : p.IsTrimmed) (hp : '.' ∈ p.text) :
    p.text.getLast? ≠ some '0' := by
  have hd := point_mem_text_iff.mp hp
  rwa [text_of_ne_nil hd, List.append_cons, List.getLast?_append_of_ne_nil _ hd]

end Ends

section Scaled

-- The last `places` decimal digits of a number.
def lastDigits : Nat → Nat → List Char
  | 0, _          => []
  | places + 1, n => lastDigits places (n / 10) ++ [Nat.digitChar (n % 10)]

theorem length_lastDigits (places n : Nat) : (lastDigits places n).length = places := by
  induction places generalizing n
  case zero    => rfl
  case succ ih => rw [lastDigits, List.length_append, ih, List.length_singleton]

theorem isDigit_of_mem_lastDigits {places n : Nat} :
    ∀ c ∈ lastDigits places n, c.isDigit := by
  induction places generalizing n
  case zero => exact nofun
  case succ ih =>
    intro c hc
    cases List.mem_append.mp hc
    case inl h => exact ih c h
    case inr h =>
      rw [List.mem_singleton.mp h, Nat.isDigit_digitChar]
      exact decide_eq_true (Nat.mod_lt n (by decide))

theorem decimalValue_digitChar {d : Nat} (h : d < 10) : decimalValue [Nat.digitChar d] = d := by
  rw [← Nat.toDigits_of_lt_base h]
  exact decimalValue_decimal d

theorem decimalValue_lastDigits (places n : Nat) :
    decimalValue (lastDigits places n) = n % 10 ^ places := by
  induction places generalizing n
  case zero    => rw [pow_zero, Nat.mod_one]; rfl
  case succ ih =>
    rw [lastDigits, decimalValue_append, ih, decimalValue_digitChar (Nat.mod_lt n (by decide)),
      List.length_singleton, pow_one, pow_succ', Nat.mod_mul, Nat.add_comm]

-- `n * 10 ^ -places`
def ofScaled (places n : Nat) : Positional where
  whole := n / 10 ^ places
  decimals := lastDigits places n
  digits := isDigit_of_mem_lastDigits

theorem value_ofScaled (places n : Nat) : (ofScaled places n).value = n / 10 ^ places := by
  have hn : n = n / 10 ^ places * 10 ^ places + n % 10 ^ places := (Nat.div_add_mod' ..).symm
  have hp : (10 : ℚ) ^ places ≠ 0 := by positivity
  rw [value, ofScaled, decimalValue_lastDigits, length_lastDigits]
  field_simp
  exact_mod_cast hn.symm

theorem leftpad_decimal (places n : Nat) :
    (decimal n).leftpad (places + 2) '0' =
      (decimal (n / 10)).leftpad (places + 1) '0' ++ [Nat.digitChar (n % 10)] := by
  by_cases h : n < 10
  case pos =>
    rw [Nat.div_eq_of_lt h, Nat.mod_eq_of_lt h, decimal, Nat.toDigits_of_lt_base h]
    simp [decimal, List.leftpad, List.replicate_succ']
  case neg =>
    rw [decimal, Nat.toDigits_of_base_le (by decide) (Nat.le_of_not_lt h)]
    simp [decimal, List.leftpad]

theorem leftpad_decimal_eq (places n : Nat) :
    (decimal n).leftpad (places + 1) '0' =
      decimal (n / 10 ^ places) ++ lastDigits places n := by
  induction places generalizing n
  case zero =>
    have hl : 1 - (decimal n).length = 0 := Nat.sub_eq_zero_of_le Nat.length_toDigits_pos
    simp [List.leftpad, lastDigits, hl]
  case succ places ih =>
    rw [leftpad_decimal, ih, lastDigits, Nat.div_div_eq_div_mul, ← pow_succ', List.append_assoc]

theorem withPoint_eq_text (places n : Nat) : withPoint places n = (ofScaled places n).text := by
  have hl : (decimal (n / 10 ^ places) ++ lastDigits places n).length - places =
      (decimal (n / 10 ^ places)).length := by
    rw [List.length_append, length_lastDigits, Nat.add_sub_cancel]
  rw [withPoint, leftpad_decimal_eq]
  cases places
  case zero =>
    rw [text_of_nil rfl]
    exact List.append_nil _
  case succ places =>
    have hd : (ofScaled (places + 1) n).decimals ≠ [] := List.concat_ne_nil _ _
    rw [if_neg (Nat.succ_ne_zero _), hl, List.take_left, List.drop_left, text_of_ne_nil hd]
    rfl

end Scaled

section Trimming

theorem trimEnd_append_of {q : Char → Bool} {cs zs : List Char} (hz : ∀ c ∈ zs, q c)
    (hc : ∀ c ∈ cs.getLast?, ¬q c) : trimEnd q (cs ++ zs) = cs := by
  rw [trimEnd, List.reverse_append, List.dropWhile_append_of_pos (by simpa using hz)]
  exact List.rdropWhile_eq_self_iff.mpr fun hn => hc _ (List.getLast?_eq_getLast_of_ne_nil hn)

theorem exists_zeros (cs : List Char) :
    ∃ count, cs = trimEnd (· = '0') cs ++ List.replicate count '0' := by
  have h : trimEnd (· = '0') cs ++ cs.rtakeWhile (· = '0') = cs := List.rdropWhile_append_rtakeWhile
  have hz : ∀ c ∈ cs.rtakeWhile (· = '0'), c = '0' := by
    intro c hc
    simpa using List.mem_rtakeWhile_imp hc
  exact ⟨_, h.symm.trans (congrArg _ (List.eq_replicate_of_mem hz))⟩

def trim (p : Positional) : Positional where
  whole := p.whole
  decimals := trimEnd (· = '0') p.decimals
  digits := fun c hc => p.digits c ((List.rdropWhile_prefix ..).subset hc)

theorem isTrimmed_trim (p : Positional) : p.trim.IsTrimmed := by
  intro h
  have hd := List.head?_dropWhile_not (· = '0') p.decimals.reverse
  rw [← List.getLast?_reverse] at hd
  change (p.decimals.reverse.dropWhile (· = '0')).reverse.getLast? = some '0' at h
  simp [h] at hd

theorem value_trim (p : Positional) : p.trim.value = p.value := by
  have ⟨count, hd⟩ := exists_zeros p.decimals
  have hv : decimalValue p.decimals = 10 ^ count * decimalValue p.trim.decimals := by
    rw [hd, decimalValue_append, List.length_replicate, decimalValue_eq_ofDigitChars (List.replicate ..),
      Nat.ofDigitChars_replicate_zero]
    rfl
  have hl : p.decimals.length = p.trim.decimals.length + count := by
    rw [hd, List.length_append, List.length_replicate]
    rfl
  have hp : (10 : ℚ) ^ count ≠ 0 := by positivity
  rw [value, value, hv, hl, pow_add, mul_comm (10 ^ p.trim.decimals.length), Nat.cast_mul,
    Nat.cast_pow, Nat.cast_ofNat, mul_div_mul_left _ _ hp]
  rfl

-- The zeros go first, and then the point if it is the last character that is left.
theorem stripZeros_text (p : Positional) : stripZeros p.text = p.trim.text := by
  by_cases h : p.decimals = []
  case pos =>
    have ht : p.trim.decimals = [] := by simp [trim, h, trimEnd]
    have hp : '.' ∉ p.text := fun hm => point_mem_text_iff.mp hm h
    rw [stripZeros, if_neg hp, text_of_nil h, text_of_nil ht]
    rfl
  case neg =>
    have ⟨count, hd⟩ := exists_zeros p.decimals
    have hl : ∀ c ∈ (decimal p.whole ++ '.' :: p.trim.decimals).getLast?, ¬c = '0' := by
      rintro c hc rfl
      by_cases ht : p.trim.decimals = []
      case pos =>
        rw [ht, List.getLast?_concat] at hc
        cases hc
      case neg =>
        rw [List.append_cons, List.getLast?_append_of_ne_nil _ ht] at hc
        exact p.isTrimmed_trim hc
    have hz : trimEnd (· = '0') p.text = decimal p.whole ++ '.' :: p.trim.decimals := by
      rw [text_of_ne_nil h, hd, ← List.cons_append, ← List.append_assoc]
      exact trimEnd_append_of (by simp) fun c hc => by simpa using hl c hc
    rw [stripZeros, if_pos (point_mem_text_iff.mpr h), hz]
    by_cases ht : p.trim.decimals = []
    case pos =>
      rw [ht, text_of_nil ht]
      refine trimEnd_append_of (by simp) fun c hc hp => ?_
      rw [of_decide_eq_true hp] at hc
      exact point_not_mem_decimal _ (List.mem_of_mem_getLast? hc)
    case neg =>
      have hp : decimal p.whole ++ '.' :: p.trim.decimals = p.trim.text ++ [] := by
        rw [List.append_nil, text_of_ne_nil ht, trim]
      rw [hp]
      refine trimEnd_append_of nofun fun c hc hp => ?_
      rw [of_decide_eq_true hp] at hc
      cases isDigit_of_mem_getLast?_text _ hc

theorem stripZeros_withPoint (places n : Nat) :
    stripZeros (withPoint places n) = (ofScaled places n).trim.text := by
  rw [withPoint_eq_text, stripZeros_text]

end Trimming

end Positional

end Number

end MessageCatalog
