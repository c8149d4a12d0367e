import MessageCatalog.Proofs.Number.Numerals
import MessageCatalog.Proofs.Template.Leading

namespace MessageCatalog

open Number Text

-- Some values of these types are too large for an argument.
def IntegerType.IsWide (t : IntegerType) : Prop :=
  t = u64 ∨ t = usize

instance : DecidablePred IntegerType.IsWide :=
  fun _ => inferInstanceAs (Decidable (_ ∨ _))

namespace Integer

variable {t : IntegerType}

theorem toInt_saturated (n : Integer t) :
    n.saturated.toInt = min n.value Int64.maxValue.toInt := by
  rw [saturated]
  split
  case isTrue h  => rw [Int64.toInt_ofIntLE, min_eq_left h]
  case isFalse h => rw [min_eq_right (le_of_not_ge h)]

theorem toInt_wrapped (n : Integer .isize) : n.wrapped.toInt = n.value :=
  Int64.toInt_ofInt_of_le n.low_le (Int.lt_add_one_of_le n.le_high)

theorem stored (n : Integer t) :
    ∃ m, Argument.ofInteger n = .int m ∧
      m.toInt = if t.IsWide then min n.value Int64.maxValue.toInt else n.value := by
  cases t
  case u64 | usize => exact ⟨_, rfl, n.toInt_saturated⟩
  case isize       => exact ⟨_, rfl, n.toInt_wrapped⟩
  all_goals exact ⟨_, rfl, Int64.toInt_ofIntLE⟩

-- Each conversion keeps an integer within 64 bits.
theorem ofInteger_eq (n : Integer t) : Argument.ofInteger n = Argument.ofInt n.value := by
  have hmin : Int64.minValue.toInt = -2 ^ 63 := rfl
  have hmax : Int64.maxValue.toInt = 2 ^ 63 - 1 := rfl
  have ⟨m, hm, hv⟩ := n.stored
  have hl := n.minValue_le
  have hh : ¬t.IsWide → n.value ≤ Int64.maxValue.toInt :=
    fun h => n.le_high.trans (by revert h; cases t <;> decide)
  rw [hm, Argument.ofInt, Argument.int.injEq, ← Int64.toInt_inj, hv,
    Int64.toInt_ofInt_of_le (by omega) (by omega)]
  split
  case isTrue    => omega
  case isFalse h =>
    have := hh h
    omega

end Integer

-- The digits of the conversions that show an integer without a sign.
def Conversion.alphabet? : Conversion → Option (List Char)
  | unsigned          => "0123456789".toList
  | hexadecimal false => "0123456789abcdef".toList
  | hexadecimal true  => "0123456789ABCDEF".toList
  | octal             => "01234567".toList
  | binary            => "01".toList
  | _                 => none

section Reading

variable {blanks digits rest : List Char}

theorem isWhite_of_isDigit {c : Char} (h : c.isDigit) : isWhite c = false := by
  have ⟨(hl : 48 ≤ c.toNat), (hu : c.toNat ≤ 57)⟩ := Char.isDigit_iff_toNat.mp h
  simp [isWhite, whiteSpace]
  omega

theorem signText_sign (f : Flags) (negative : Bool) : SignText (f.sign negative) negative := by
  rw [Flags.sign]
  cases negative
  case true => exact .minus
  case false =>
    cases f.plus
    case true  => exact .plus
    case false => exact .absent

-- White space in front, a sign and any number of digits are read, and what follows them is not.
theorem toInt_read (f : Flags) (negative : Bool) (hb : ∀ c ∈ blanks, isWhite c)
    (hn : digits ≠ []) (hd : ∀ c ∈ digits, c.isDigit) (hr : ∀ c ∈ rest.head?, ¬c.isDigit) :
    (Numeral.read (blanks ++ (f.sign negative ++ (digits ++ rest)))).toInt =
      if negative then -(decimalValue digits : Int) else decimalValue digits := by
  have ⟨c, cs, hc⟩ := List.exists_cons_of_ne_nil hn
  have hi : c.isDigit := hd c (by simp [hc])
  have hw := isWhite_of_isDigit hi
  have ht : trimStart isWhite (blanks ++ (f.sign negative ++ (digits ++ rest))) =
      f.sign negative ++ (digits ++ rest) := by
    rw [trimStart, List.dropWhile_append_of_pos hb, hc, Flags.sign]
    cases negative
    case true => rfl
    case false =>
      cases f.plus
      case true => rfl
      case false => simp [hw]
  have hu : Unsigned (digits ++ rest) := unsigned_of_head ⟨c, by rw [hc]; rfl, hi⟩
  have hs := readSign_append (signText_sign f negative) hu
  simp only [Numeral.read, ht, hs, Numeral.toInt, Placeholder.takeWhile_digits hd hr]

theorem toInt64_eq {numeral : Numeral} {v : Int64} (h : numeral.toInt = v.toInt) :
    numeral.toInt64 = v := by
  rw [Numeral.toInt64, h, if_pos ⟨v.minValue_le_toInt, v.toInt_le⟩, Int64.ofInt_toInt]

end Reading

section Padding

variable {flags : List Flag}

theorem lastPad_of_unquoted (h : ∀ pad, .quoted pad ∉ flags) :
    Flag.lastPad flags = ' ' ∨ Flag.lastPad flags = '0' := by
  induction flags using List.reverseRecOn
  case nil => exact .inl rfl
  case append_singleton flags f ih =>
    have ih := ih fun pad hm => h pad (List.mem_append_left _ hm)
    cases f
    case quoted pad => exact absurd (by simp) (h pad)
    case left | plus => simpa [Flag.lastPad, List.filterMap_append, Flag.pad?] using ih
    case blank | zero => simp [Flag.lastPad, List.filterMap_append, Flag.pad?]

-- Blanks are on either side, and zeros between the sign and the body.
theorem exists_fill (h : ∀ pad, .quoted pad ∉ flags) (r : Rendering) (width : Nat) :
    ∃ before zeros after : Nat, r.fill (.ofList flags) width =
      List.replicate before ' ' ++ (r.sign ++ ((List.replicate zeros '0' ++ r.body) ++
        List.replicate after ' ')) := by
  have hp := lastPad_of_unquoted h
  rw [← Flags.pad_ofList] at hp
  by_cases hl : (Flags.ofList flags).left
  case pos =>
    refine ⟨0, 0, width - r.length, ?_⟩
    rcases hp with hp | hp <;> simp [Rendering.fill, hl, hp]
  case neg =>
    rcases hp with hp | hp
    · exact ⟨width - r.length, 0, 0, by simp [Rendering.fill, hl, hp]⟩
    · exact ⟨0, width - r.length, 0, by simp [Rendering.fill, hl, hp]⟩

theorem toInt64_render {p : Placeholder} (hf : p.flags = .ofList flags)
    (h : ∀ pad, .quoted pad ∉ flags) (hk : p.conversion = .decimal ∨ p.conversion = .integer)
    (v : Int64) : (Argument.text (.ofList (p.render (.int v)))).toInt64 = v := by
  have hr : p.rendering (.int v) = ⟨p.flags.sign (v.toInt < 0), decimal v.toInt.natAbs⟩ := by
    rw [Placeholder.rendering]
    rcases hk with hk | hk <;> rw [hk] <;> rfl
  obtain ⟨before, zeros, after, hp⟩ := exists_fill h (p.rendering (.int v)) p.width
  have hd : ∀ c ∈ List.replicate zeros '0' ++ decimal v.toInt.natAbs, c.isDigit := by
    intro c hc
    cases List.mem_append.mp hc
    case inl h => rw [List.eq_of_mem_replicate h]; rfl
    case inr h => exact isDigit_of_mem_decimal h
  have hz : decimalValue (List.replicate zeros '0' ++ decimal v.toInt.natAbs) = v.toInt.natAbs := by
    rw [decimalValue_append, decimalValue_eq_ofDigitChars (List.replicate ..),
      Nat.ofDigitChars_replicate_zero, Nat.mul_zero, Nat.mul_zero, Nat.zero_add,
      decimalValue_decimal]
  rw [Argument.toInt64, String.toList_ofList, Placeholder.render, hf, hp, hr]
  apply toInt64_eq
  rw [toInt_read]
  · rw [hz]
    by_cases hv : v.toInt < 0
    case pos => rw [if_pos (decide_eq_true hv)]; omega
    case neg => rw [if_neg (by simpa using hv)]; omega
  · intro c hc
    rw [List.eq_of_mem_replicate hc]
    rfl
  · exact List.append_ne_nil_of_right_ne_nil _ (decimal_ne_nil _)
  · exact hd
  · intro c hc
    rw [List.eq_of_mem_replicate (List.mem_of_mem_head? hc)]
    decide

end Padding

section Numerals

theorem toNat_toUInt64 (v : Int64) : v.toUInt64.toNat = (v.toInt % 2 ^ 64).toNat := by
  have h : v.toInt = (v.toUInt64.toNat : Int).bmod (2 ^ 64) := BitVec.toInt_eq_toNat_bmod v.toBitVec
  have hl : v.toUInt64.toNat < 2 ^ 64 := v.toUInt64.toNat_lt
  have hm := Int.bmod_emod (x := v.toUInt64.toNat) (m := 2 ^ 64)
  rw [← h] at hm
  omega

theorem rendering_of_alphabet {p : Placeholder} {alphabet : List Char}
    (h : p.conversion.alphabet? = some alphabet) (v : Int64) :
    ∃ f : Char → Char, 1 < alphabet.length ∧
      (∀ d < alphabet.length, alphabet.idxOf (f (Nat.digitChar d)) = d) ∧
      p.rendering (.int v) = ⟨[], (Nat.toDigits alphabet.length v.toUInt64.toNat).map f⟩ := by
  rw [Placeholder.rendering]
  cases hk : p.conversion
  case unsigned | octal | binary =>
    rw [hk] at h
    cases h
    exact ⟨id, by decide, by decide, by rw [List.map_id]; rfl⟩
  case hexadecimal upper =>
    rw [hk] at h
    cases upper <;> cases h
    case true  => exact ⟨Char.toUpper, by decide, by decide, rfl⟩
    case false => exact ⟨id, by decide, by decide, by rw [List.map_id]; rfl⟩
  all_goals simp [hk, Conversion.alphabet?] at h

theorem isShortest_render {p : Placeholder} {alphabet : List Char} (hw : p.width = 0)
    (h : p.conversion.alphabet? = some alphabet) (v : Int64) :
    IsShortest alphabet (p.render (.int v)) (v.toInt % 2 ^ 64).toNat := by
  have ⟨f, base, spelled, hr⟩ := rendering_of_alphabet h v
  rw [Placeholder.render, hw, fill_zero, hr, ← toNat_toUInt64]
  exact isShortest_toDigits base spelled _

end Numerals

open Placeholder

theorem format_integer :
    (∀ (v : Int64) (flags : List Flag) (width precision : List Char) (n : Nat)
        (digits : Option Nat) (k : Conversion),
      (∀ pad, .quoted pad ∉ flags) → WidthText width n → PrecisionText precision digits →
        k = .decimal ∨ k = .integer →
        ∃ t : String, (Argument.text t).toInt64 = v ∧
          format (.ofList ('%' :: (Flag.texts flags ++ (width ++ (precision ++ [k.letter])))))
            [.int v] = .ok t) ∧
    (∀ (v : Int64) (flags : List Flag) (precision : List Char) (digits : Option Nat)
        (k : Conversion) (alphabet : List Char),
      PrecisionText precision digits → k.alphabet? = some alphabet →
        ∃ t : String, IsShortest alphabet t.toList (v.toInt % 2 ^ 64).toNat ∧
          format (.ofList ('%' :: (Flag.texts flags ++ (precision ++ [k.letter])))) [.int v] =
            .ok t) ∧
    ∀ (t : IntegerType) (n : Integer t),
      ∃ m, Argument.ofInteger n = .int m ∧ Argument.ofInt n.value = .int m ∧
        m.toInt = if t.IsWide then min n.value Int64.maxValue.toInt else n.value := by
  refine ⟨?_, ?_, ?_⟩
  · intro v flags width precision n digits k unquoted widthText precisionText hk
    have hs := Spells.intro .absent flags widthText precisionText k
    exact ⟨_, toInt64_render rfl unquoted hk v, Template.format_slot hs rfl (.int v) []⟩
  · intro v flags precision digits k alphabet precisionText hk
    have hs := Spells.intro .absent flags .absent precisionText k
    refine ⟨_, ?_, Template.format_slot hs rfl (.int v) []⟩
    rw [String.toList_ofList]
    exact isShortest_render rfl hk v
  · intro t n
    have ⟨m, hm, hv⟩ := n.stored
    exact ⟨m, hm, n.ofInteger_eq ▸ hm, hv⟩

-- Zeros behind the sign of the lowest integer, and the bits of a negative one.
theorem format_integer_lowest :
    (∃ t : String, (Argument.text t).toInt64 = Int64.minValue ∧
      format "%0+24d" [.int Int64.minValue] = .ok t) ∧
    (∃ t : String, IsShortest "0123456789abcdef".toList t.toList (2 ^ 64 - 1) ∧
      format "%x" [.int (-1)] = .ok t) ∧
    ∃ n : Integer .u64, n.value = 2 ^ 64 - 1 ∧
      ∃ m, Argument.ofInteger n = .int m ∧ m.toInt = Int64.maxValue.toInt := by
  have ⟨hread, hshort, hstored⟩ := format_integer
  have widthText : WidthText ['2', '4'] 24 := .number ⟨by decide, by simp⟩ (by decide) (by decide)
  have hl := hread Int64.minValue [.zero, .plus] _ [] _ _ .decimal (by simp) widthText .absent
    (.inl rfl)
  have ⟨t, hs, hx⟩ := hshort (-1) [] [] _ (.hexadecimal false) _ .absent rfl
  have ⟨m, hi, _, hv⟩ := hstored .u64 ⟨0xffffffffffffffff, by decide, by decide⟩
  have ht : String.ofList ('%' :: (Flag.texts [.zero, .plus] ++
      (['2', '4'] ++ ([] ++ [Conversion.decimal.letter])))) = "%0+24d" := by decide
  have hw : String.ofList ('%' :: (Flag.texts [] ++
      ([] ++ [(Conversion.hexadecimal false).letter]))) = "%x" := by decide
  have hm : ((-1 : Int64).toInt % 2 ^ 64).toNat = 2 ^ 64 - 1 := by decide
  rw [ht] at hl
  rw [hw] at hx
  rw [hm] at hs
  exact ⟨hl, ⟨t, hs, hx⟩, _, rfl, m, hi, hv.trans (by decide)⟩

end MessageCatalog
