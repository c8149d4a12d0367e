import MessageCatalog.Proofs.Number.Positional
import MessageCatalog.Proofs.Number.Rounding

namespace MessageCatalog.Number

-- The weight of the last one of some significant digits of a number.
def lastWeight (digits : Nat) (q : ℚ) : ℚ :=
  10 ^ (Int.log 10 q + 1 - digits)

def IsRounded (digits : Nat) (q rounded : ℚ) : Prop :=
  ∃ n : Nat, RoundsHalfEven (q / lastWeight digits q) n ∧ rounded = n * lastWeight digits q

theorem IsRounded.unique {digits : Nat} {q a b : ℚ} (h : IsRounded digits q a)
    (h' : IsRounded digits q b) : a = b := by
  have ⟨n, hn, ha⟩ := h
  have ⟨m, hm, hb⟩ := h'
  rw [ha, hb, hn.unique hm]

section Scaled

variable {q : ℚ}

theorem ten_zpow_mul (a b : Int) : (10 : ℚ) ^ a * 10 ^ b = 10 ^ (a + b) :=
  (zpow_add₀ (by norm_num) a b).symm

-- With `places` digits behind the first one moved before the point.
theorem scaled_lt (q : ℚ) (places : Nat) : q * 10 ^ (places - Int.log 10 q) < 10 ^ (places + 1) := by
  have hu : q < 10 ^ (Int.log 10 q + 1) := by
    exact_mod_cast Int.lt_zpow_succ_log_self (by decide : 1 < 10) q
  calc
    _ < 10 ^ (Int.log 10 q + 1) * 10 ^ (places - Int.log 10 q) :=
      mul_lt_mul_of_pos_right hu (by positivity)
    _ = 10 ^ ((places + 1 : Nat) : Int) := by rw [ten_zpow_mul]; congr 1; omega
    _ = 10 ^ (places + 1) := zpow_natCast ..

theorem le_scaled (hq : 0 < q) (places : Nat) : 10 ^ places ≤ q * 10 ^ (places - Int.log 10 q) := by
  have hl : 10 ^ Int.log 10 q ≤ q := by
    exact_mod_cast Int.zpow_log_le_self (by decide : 1 < 10) hq
  calc
    (10 : ℚ) ^ places = 10 ^ (places : Int) := (zpow_natCast ..).symm
    _ = 10 ^ Int.log 10 q * 10 ^ (places - Int.log 10 q) := by rw [ten_zpow_mul]; congr 1; omega
    _ ≤ _ := mul_le_mul_of_nonneg_right hl (by positivity)

end Scaled

namespace Scientific

variable {s : Scientific}

def value (s : Scientific) : ℚ :=
  s.digits * 10 ^ (s.exponent - s.places)

-- One digit stands before the point, and it is not a zero.
structure IsNormal (s : Scientific) : Prop where
  le : 10 ^ s.places ≤ s.digits
  lt : s.digits < 10 ^ (s.places + 1)

theorem value_eq_div {k : Nat} (h : (k : Int) = s.places - s.exponent) :
    s.value = s.digits / 10 ^ k := by
  rw [value, ← neg_sub, ← h, zpow_neg, zpow_natCast, div_eq_mul_inv]

theorem value_eq_mantissa (s : Scientific) :
    s.value = s.digits / 10 ^ s.places * 10 ^ s.exponent := by
  rw [value, zpow_sub₀ (by norm_num), zpow_natCast]
  ring

theorem IsNormal.mantissa (h : s.IsNormal) :
    1 ≤ (s.digits / 10 ^ s.places : ℚ) ∧ (s.digits / 10 ^ s.places : ℚ) < 10 := by
  have hp : (0 : ℚ) < 10 ^ s.places := by positivity
  rw [one_le_div hp, div_lt_iff₀ hp, ← pow_succ']
  exact ⟨by exact_mod_cast h.le, by exact_mod_cast h.lt⟩

theorem IsNormal.log_value (h : s.IsNormal) : Int.log 10 s.value = s.exponent := by
  have ⟨hl, hu⟩ := h.mantissa
  have hw : (0 : ℚ) < 10 ^ s.exponent := by positivity
  rw [value_eq_mantissa]
  refine log_eq_of_le_of_lt (by decide) (mul_pos (one_pos.trans_le hl) hw) ?_ ?_
  · exact_mod_cast le_mul_of_one_le_left hw.le hl
  · rw [Nat.cast_ofNat, zpow_add_one₀ (by norm_num), mul_comm (10 ^ s.exponent)]
    exact mul_lt_mul_of_pos_right hu hw

end Scientific

namespace Ratio

variable {r : Ratio} {places : Nat}

theorem toRat_scale_ten (r : Ratio) (e : Int) : (r.scale .ten e).toRat = r.toRat * 10 ^ e :=
  r.toRat_scale .ten e

-- The digits fit, or are one too many. Then they are those of a power of ten.
theorem scientific_cases (r : Ratio) (places : Nat) :
    ∃ n, RoundsHalfEven (r.toRat * 10 ^ (places - Int.log 10 r.toRat)) n ∧
      (n < 10 ^ (places + 1) ∧ r.scientific places = ⟨places, n, Int.log 10 r.toRat⟩ ∨
       n = 10 ^ (places + 1) ∧
        r.scientific places = ⟨places, 10 ^ places, Int.log 10 r.toRat + 1⟩) := by
  have he : (if r.num = 0 then 0 else r.order .ten) = Int.log 10 r.toRat := by
    split
    case isTrue h  => rw [toRat_eq_zero h, Int.log_zero_right]
    case isFalse h => exact order_eq_log .ten (Nat.pos_of_ne_zero h)
  have hp : Radix.ten.power (places + 1) = 10 ^ (places + 1) := rfl
  have hr := roundsHalfEven_round (r.scale .ten (places - Int.log 10 r.toRat))
  rw [toRat_scale_ten] at hr
  refine ⟨_, hr, ?_⟩
  simp only [scientific, he, hp]
  split
  case isTrue h  => exact .inl ⟨h, rfl⟩
  case isFalse h =>
    have hu : r.toRat * 10 ^ (places - Int.log 10 r.toRat) ≤ (10 ^ (places + 1) : Nat) := by
      exact_mod_cast (scaled_lt r.toRat places).le
    have hn := Nat.le_antisymm (hr.ge_of_ge hu) (Nat.le_of_not_lt h)
    refine .inr ⟨hn, ?_⟩
    rw [hn, pow_succ, Nat.mul_div_cancel _ (by decide)]

-- The digits are those of the number rounded once, at the position that the exponent tells.
theorem rounds_scientific (r : Ratio) (places : Nat) :
    RoundsHalfEven (r.toRat * 10 ^ (places - (r.scientific places).exponent))
      (r.scientific places).digits := by
  have ⟨n, hr, hs⟩ := r.scientific_cases places
  cases hs
  case inl h =>
    rw [h.right]
    exact hr
  case inr h =>
    have hy : r.toRat * 10 ^ (places - (Int.log 10 r.toRat + 1)) =
        r.toRat * 10 ^ (places - Int.log 10 r.toRat) / 10 := by
      rw [← sub_sub, zpow_sub_one₀ (by norm_num), mul_div_assoc, div_eq_mul_inv]
    have hn := abs_le.mp (h.left ▸ hr.nearest)
    rw [h.right, hy]
    refine .of_lt (abs_lt.mpr ⟨?_, ?_⟩) <;>
    · push_cast [pow_succ] at hn ⊢
      linarith

theorem isNormal_scientific (h : 0 < r.num) (places : Nat) : (r.scientific places).IsNormal := by
  have ⟨n, hr, hs⟩ := r.scientific_cases places
  cases hs
  case inl hn =>
    rw [hn.right]
    exact ⟨hr.le_of_le (by exact_mod_cast le_scaled (toRat_pos h) places), hn.left⟩
  case inr hn =>
    rw [hn.right]
    exact ⟨le_rfl, Nat.pow_lt_pow_succ (by decide)⟩

theorem isRounded_scientific (r : Ratio) (places : Nat) :
    IsRounded (places + 1) r.toRat (r.scientific places).value := by
  have ⟨n, hr, hs⟩ := r.scientific_cases places
  have hw : lastWeight (places + 1) r.toRat = 10 ^ (Int.log 10 r.toRat - places) := by
    rw [lastWeight, Nat.cast_succ, add_sub_add_right_eq_sub]
  have hq : r.toRat / lastWeight (places + 1) r.toRat =
      r.toRat * 10 ^ (places - Int.log 10 r.toRat) := by
    rw [hw, div_eq_mul_inv, ← zpow_neg, neg_sub]
  refine ⟨n, hq ▸ hr, ?_⟩
  rw [hw]
  cases hs
  case inl h => rw [h.right, Scientific.value]
  case inr h =>
    rw [h.right, Scientific.value, h.left, add_sub_right_comm, zpow_add_one₀ (by norm_num)]
    push_cast
    ring

theorem places_scientific (r : Ratio) (places : Nat) : (r.scientific places).places = places := by
  simp only [scientific]
  split_ifs <;> rfl

theorem scientific_zero (h : r.num = 0) (places : Nat) : r.scientific places = ⟨places, 0, 0⟩ := by
  have ⟨n, hr, hs⟩ := r.scientific_cases places
  rw [toRat_eq_zero h, zero_mul] at hr
  have hn : n = 0 := Nat.le_zero.mp (hr.ge_of_ge (by rw [Nat.cast_zero]))
  cases hs
  case inl hs => rw [hs.right, toRat_eq_zero h, Int.log_zero_right, hn]
  case inr hs => exact absurd (hs.left.symm.trans hn) (by positivity)

theorem log_value_scientific (r : Ratio) (places : Nat) :
    Int.log 10 (r.scientific places).value = (r.scientific places).exponent := by
  by_cases h : r.num = 0
  case pos => rw [scientific_zero h places, Scientific.value, Nat.cast_zero, zero_mul, Int.log_zero_right]
  case neg => exact (isNormal_scientific (Nat.pos_of_ne_zero h) places).log_value

theorem fixed_eq_withPoint {k : Nat} (h : (k : Int) = places - (r.scientific places).exponent) :
    r.fixed k = withPoint k (r.scientific places).digits := by
  have hr := roundsHalfEven_round (r.scale .ten k)
  rw [toRat_scale_ten, h] at hr
  rw [fixed, h, hr.unique (r.rounds_scientific places)]

end Ratio

end MessageCatalog.Number
