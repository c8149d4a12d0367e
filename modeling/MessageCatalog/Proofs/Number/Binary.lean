import MessageCatalog.Number.Binary64
import MessageCatalog.Proofs.Number.Rounding

namespace MessageCatalog.Number

-- The integer next to a number on the side of zero.
def towardZero (q : ℚ) : Int :=
  if 0 ≤ q then ⌊q⌋ else ⌈q⌉

-- The integer of 64 bits next to an integer.
def clamp (n : Int) : Int :=
  max Int64.minValue.toInt (min Int64.maxValue.toInt n)

theorem Ratio.floor_eq (r : Ratio) : (r.floor : Int) = ⌊r.toRat⌋ :=
  (Int.floor_eq_iff.mpr ⟨by exact_mod_cast r.floor_le, by exact_mod_cast r.lt_floor_succ⟩).symm

theorem towardZero_neg {q : ℚ} (h : 0 ≤ q) : towardZero (-q) = -⌊q⌋ := by
  rw [towardZero]
  split
  case isTrue hn =>
    have hz : q = 0 := by linarith
    simp [hz]
  case isFalse => exact Int.ceil_neg

theorem toInt_ofInt_clamp (n : Int) : (Int64.ofInt (clamp n)).toInt = clamp n := by
  have hmin : Int64.minValue.toInt = -2 ^ 63 := rfl
  have hmax : Int64.maxValue.toInt = 2 ^ 63 - 1 := rfl
  rw [clamp, hmin, hmax]
  exact Int64.toInt_ofInt_of_le (by omega) (by omega)

namespace Binary64

-- The number that the bits of a finite one stand for.
def toRat (x : Binary64) : ℚ :=
  (if x.signBit then -1 else 1) * (x.significand * 2 ^ x.exponent)

variable {x : Binary64}

theorem toRat_magnitude (x : Binary64) :
    x.magnitude.toRat = x.significand * 2 ^ x.exponent := by
  have hn : (Ratio.ofNat x.significand).toRat = x.significand := by simp [Ratio.toRat, Ratio.ofNat]
  rw [magnitude, Ratio.toRat_scale, hn]
  rfl

theorem abs_toRat (x : Binary64) : |x.toRat| = x.magnitude.toRat := by
  have hs : |(if x.signBit then -1 else 1 : ℚ)| = 1 := by split <;> simp
  rw [toRat, abs_mul, hs, one_mul, abs_of_nonneg (by positivity), toRat_magnitude]

theorem towardZero_toRat (x : Binary64) :
    towardZero x.toRat = if x.signBit then -(x.magnitude.floor : Int) else x.magnitude.floor := by
  have hm : 0 ≤ x.magnitude.toRat := x.abs_toRat ▸ abs_nonneg _
  rw [toRat, ← toRat_magnitude, Ratio.floor_eq]
  split
  case isTrue  => rw [neg_one_mul, towardZero_neg hm]
  case isFalse => rw [one_mul, towardZero, if_pos hm]

theorem toInt_toInt64 (x : Binary64) :
    x.toInt64.toInt =
      if x.isNaN then 0
      else if x.isFinite then clamp (towardZero x.toRat)
      else if x.signBit then Int64.minValue.toInt
      else Int64.maxValue.toInt := by
  have hmin : Int64.minValue.toInt = -2 ^ 63 := rfl
  have hmax : Int64.maxValue.toInt = 2 ^ 63 - 1 := rfl
  have hn : max Int64.minValue.toInt (-x.magnitude.floor) = clamp (-x.magnitude.floor) := by
    rw [clamp, hmin, hmax]
    omega
  have hp : min Int64.maxValue.toInt x.magnitude.floor = clamp x.magnitude.floor := by
    rw [clamp, hmin, hmax]
    omega
  rw [toInt64, towardZero_toRat, hn, hp]
  by_cases hx : x.isNaN
  case pos => rw [if_pos hx, if_pos hx, Int64.toInt_zero]
  case neg =>
    rw [if_neg hx, if_neg hx]
    by_cases hf : x.isFinite
    case neg => rw [if_pos hf, if_neg hf, apply_ite Int64.toInt]
    case pos =>
      rw [if_neg (not_not.mpr hf), if_pos hf]
      split <;> exact toInt_ofInt_clamp _

section Rounding

variable {negative : Bool} {bits k s : Nat}

-- The weight of the last bit of the finite numbers around a number.
def unit (q : ℚ) : ℚ :=
  2 ^ max lowestExponent (Int.log 2 q - fractionBits)

-- All finite numbers are below this power of two.
def limitExponent : Int := 1024

-- The number that an absolute value rounds to, with a half going to the even neighbour. It is
-- infinite when no finite one is as large as the rounded value.
structure RoundsTo (negative : Bool) (q : ℚ) (x : Binary64) : Prop where
  sign  : x.signBit = negative
  value : ∃ n : Nat, RoundsHalfEven (q / unit q) n ∧
    if n * unit q < 2 ^ limitExponent then x.isFinite ∧ |x.toRat| = n * unit q
    else x.isFinite = false ∧ x.isNaN = false

theorem fields_signed (negative : Bool) (h : bits ≤ infinityBits) :
    (signed negative bits).signBit = negative ∧
      (signed negative bits).exponentField = bits / exponentWeight ∧
      (signed negative bits).fraction = bits % exponentWeight := by
  have hn : (signed negative bits).bits.toNat = if negative then signWeight + bits else bits := by
    refine UInt64.toNat_ofNat_of_lt' ?_
    simp only [infinityBits, specialField, exponentWeight, signWeight, UInt64.size] at h ⊢
    split <;> omega
  simp only [infinityBits, specialField, exponentWeight] at h
  simp only [signBit, exponentField, fraction, hn, signWeight, exponentWeight]
  cases negative <;> simp <;> omega

theorem abs_toRat_eq (x : Binary64) : |x.toRat| = x.significand * 2 ^ x.exponent :=
  x.abs_toRat.trans x.toRat_magnitude

-- A significand of one bit too many carries into the exponent.
theorem abs_toRat_signed (hs : s ≤ 2 * exponentWeight) (hk : k = 0 ∨ exponentWeight ≤ s)
    (hb : k * exponentWeight + s < infinityBits) :
    |(signed negative (k * exponentWeight + s)).toRat| = s * 2 ^ (k + lowestExponent) := by
  have ⟨_, he, hf⟩ := fields_signed negative hb.le
  have hw : 0 < exponentWeight := by decide
  rw [abs_toRat_eq, significand, exponent, he, hf]
  rcases Nat.lt_or_ge s exponentWeight with hlt | hge
  · have hz : k = 0 := by omega
    rw [hz, Nat.zero_mul, Nat.zero_add, Nat.div_eq_of_lt hlt, Nat.mod_eq_of_lt hlt]
    simp
  · rcases Nat.lt_or_eq_of_le hs with hlt | heq
    · have hd : (k * exponentWeight + s) / exponentWeight = k + 1 := by
        rw [Nat.mul_comm, Nat.mul_add_div hw, Nat.div_eq_of_lt_le (k := 1)] <;> omega
      have hm : exponentWeight + (k * exponentWeight + s) % exponentWeight = s := by
        rw [Nat.mul_add_mod_self_right, Nat.mod_eq_sub_mod hge, Nat.mod_eq_of_lt] <;> omega
      rw [hd, if_neg (by omega), hm, Nat.add_sub_cancel, Int.add_comm]
    · have hd : (k * exponentWeight + s) / exponentWeight = k + 2 := by
        rw [heq, ← Nat.add_mul, Nat.mul_div_cancel _ hw]
      have hm : (k * exponentWeight + s) % exponentWeight = 0 := by
        rw [heq, ← Nat.add_mul, Nat.mul_mod_left]
      have hp : (2 : ℚ) ^ (lowestExponent + (k + 2 - 1 : Nat)) = 2 * 2 ^ (k + lowestExponent) := by
        rw [← zpow_one_add₀ two_ne_zero]
        congr 1
        omega
      rw [hd, hm, if_neg (by omega), hp, heq]
      push_cast
      ring

theorem lt_infinityBits_iff (hs : s ≤ 2 * exponentWeight) (hk : k = 0 ∨ exponentWeight ≤ s) :
    k * exponentWeight + s < infinityBits ↔ k < 2045 ∨ k = 2045 ∧ s < 2 * exponentWeight := by
  simp only [infinityBits, specialField, exponentWeight] at hs hk ⊢
  omega

theorem cast_exponentWeight : (exponentWeight : ℚ) = 2 ^ (52 : Int) := by
  norm_num [exponentWeight]

theorem cast_two_exponentWeight : ((2 * exponentWeight : Nat) : ℚ) = 2 ^ (53 : Int) := by
  norm_num [exponentWeight]

-- At the exponent 2045 the significand decides, and all others do without it.
theorem lt_limit_iff (hs : s ≤ 2 * exponentWeight) (hk : k = 0 ∨ exponentWeight ≤ s) :
    (s : ℚ) * 2 ^ (k + lowestExponent) < 2 ^ limitExponent ↔
      k < 2045 ∨ k = 2045 ∧ s < 2 * exponentWeight := by
  have hp (j : Int) : (0 : ℚ) < 2 ^ j := by positivity
  rcases Nat.lt_trichotomy k 2045 with hlt | rfl | hgt
  · refine iff_of_true ?_ (.inl hlt)
    calc
      (s : ℚ) * 2 ^ (k + lowestExponent)
        ≤ (2 * exponentWeight : Nat) * 2 ^ (k + lowestExponent) :=
          mul_le_mul_of_nonneg_right (Nat.cast_le.mpr hs) (hp _).le
      _ = 2 ^ (53 + (k + lowestExponent)) := by
          rw [cast_two_exponentWeight, ← zpow_add₀ two_ne_zero]
      _ < 2 ^ limitExponent :=
          zpow_lt_zpow_right₀ one_lt_two (by rw [lowestExponent, limitExponent]; omega)
  · have hl : (2 : ℚ) ^ limitExponent =
        (2 * exponentWeight : Nat) * 2 ^ (((2045 : Nat) : Int) + lowestExponent) := by
      rw [cast_two_exponentWeight, ← zpow_add₀ two_ne_zero]
      rfl
    rw [hl, mul_lt_mul_iff_left₀ (hp _), Nat.cast_lt]
    simp
  · have hs : exponentWeight ≤ s := hk.resolve_left (Nat.ne_zero_of_lt hgt)
    refine iff_of_false (not_lt_of_ge ?_) (by omega)
    calc
      (2 : ℚ) ^ limitExponent ≤ 2 ^ (52 + (k + lowestExponent)) :=
          zpow_le_zpow_right₀ one_le_two (by rw [lowestExponent, limitExponent]; omega)
      _ = exponentWeight * 2 ^ (k + lowestExponent) := by
          rw [cast_exponentWeight, ← zpow_add₀ two_ne_zero]
      _ ≤ s * 2 ^ (k + lowestExponent) :=
          mul_le_mul_of_nonneg_right (Nat.cast_le.mpr hs) (hp _).le

theorem roundsTo_signed (hs : s ≤ 2 * exponentWeight) (hk : k = 0 ∨ exponentWeight ≤ s) {q : ℚ}
    (hu : unit q = 2 ^ (k + lowestExponent)) (hn : RoundsHalfEven (q / unit q) s) :
    RoundsTo negative q (signed negative (min infinityBits (k * exponentWeight + s))) := by
  have ⟨hsign, he, hf⟩ := fields_signed negative (min_le_left infinityBits (k * exponentWeight + s))
  refine ⟨hsign, s, hn, ?_⟩
  rw [hu]
  split
  case isTrue h =>
    have hb := (lt_infinityBits_iff hs hk).mpr ((lt_limit_iff hs hk).mp h)
    have hd : (k * exponentWeight + s) / exponentWeight < specialField :=
      (Nat.div_lt_iff_lt_mul (by decide)).mpr hb
    rw [min_eq_right hb.le] at he ⊢
    exact ⟨by rw [isFinite, he]; exact decide_eq_true hd, abs_toRat_signed hs hk hb⟩
  case isFalse h =>
    have hb := Nat.le_of_not_lt fun hb =>
      h ((lt_limit_iff hs hk).mpr ((lt_infinityBits_iff hs hk).mp hb))
    rw [min_eq_left hb] at he hf ⊢
    rw [isFinite, isNaN, he, hf]
    decide

theorem div_unit_le (q : ℚ) : q / unit q ≤ (2 * exponentWeight : Nat) := by
  have hq : q < 2 ^ (Int.log 2 q + 1) := by
    exact_mod_cast Int.lt_zpow_succ_log_self (by decide : 1 < 2) q
  rw [unit, div_le_iff₀ (by positivity), cast_two_exponentWeight, ← zpow_add₀ two_ne_zero]
  refine hq.le.trans (zpow_le_zpow_right₀ one_le_two ?_)
  have := le_max_right lowestExponent (Int.log 2 q - fractionBits)
  rw [fractionBits] at *
  omega

theorem le_div_unit {q : ℚ} (hq : 0 < q) (h : lowestExponent < Int.log 2 q - fractionBits) :
    exponentWeight ≤ q / unit q := by
  have hl : 2 ^ Int.log 2 q ≤ q := by
    exact_mod_cast Int.zpow_log_le_self (by decide : 1 < 2) hq
  rw [unit, max_eq_right h.le, le_div_iff₀ (by positivity), cast_exponentWeight,
    ← zpow_add₀ two_ne_zero, fractionBits]
  exact le_trans (by congr! 1; omega) hl

theorem roundsTo_zero (negative : Bool) : RoundsTo negative 0 (signed negative 0) := by
  have ⟨hsign, he, hf⟩ := fields_signed negative (Nat.zero_le infinityBits)
  have hz : |(signed negative 0).toRat| = 0 := by
    rw [abs_toRat_eq, significand, he, hf]
    simp
  refine ⟨hsign, 0, ?_, ?_⟩
  · rw [zero_div]
    exact .of_lt (by norm_num)
  · rw [Nat.cast_zero, zero_mul, if_pos (by positivity), isFinite, he]
    exact ⟨by decide, hz⟩

theorem roundsTo_ofRatio (negative : Bool) (r : Ratio) :
    RoundsTo negative r.toRat (ofRatio negative r) := by
  rw [ofRatio]
  split
  case isTrue h =>
    rw [Ratio.toRat_eq_zero h]
    exact roundsTo_zero negative
  case isFalse h =>
    have hr := Ratio.toRat_pos (Nat.pos_of_ne_zero h)
    have he : exponentFor r = max lowestExponent (Int.log 2 r.toRat - fractionBits) := by
      rw [exponentFor, Ratio.order_eq_log .two (Nat.pos_of_ne_zero h)]
      rfl
    have hk : ((exponentFor r - lowestExponent).toNat : Int) + lowestExponent = exponentFor r := by
      have := le_max_left lowestExponent (Int.log 2 r.toRat - fractionBits)
      omega
    have hu : unit r.toRat = 2 ^ ((exponentFor r - lowestExponent).toNat + lowestExponent) := by
      rw [hk, unit, he]
    have hn := (r.scale .two (-exponentFor r)).roundsHalfEven_round
    have hq : (r.scale .two (-exponentFor r)).toRat = r.toRat / unit r.toRat := by
      rw [Ratio.toRat_scale, hu, hk, zpow_neg, div_eq_mul_inv]
      rfl
    rw [hq] at hn
    refine roundsTo_signed (hn.ge_of_ge (div_unit_le _)) ?_ hu hn
    rcases Int.lt_or_le lowestExponent (Int.log 2 r.toRat - fractionBits) with hlt | hle
    · exact .inr (hn.le_of_le (le_div_unit hr hlt))
    · rw [he, max_eq_left hle, sub_self]
      exact .inl rfl

end Rounding

end Binary64

end MessageCatalog.Number
