import Mathlib.Data.Int.Log
import Mathlib.Data.Rat.Floor
import Mathlib.Tactic
import MessageCatalog.Number.Ratio

namespace MessageCatalog.Number

-- A natural number that is nearest to a number, and even when it is only one of two that are.
structure RoundsHalfEven (q : ℚ) (n : Nat) : Prop where
  nearest : |q - n| ≤ 1 / 2
  even : |q - n| = 1 / 2 → Even n

namespace RoundsHalfEven

variable {q : ℚ} {n m : Nat}

theorem of_lt (h : |q - n| < 1 / 2) : RoundsHalfEven q n where
  nearest := h.le
  even := fun he => absurd he h.ne

theorem le_of_le (h : RoundsHalfEven q n) (hm : m ≤ q) : m ≤ n := by
  have hn := (abs_le.mp h.nearest).right
  have hl : (m : ℚ) < n + 1 := by linarith
  exact Nat.le_of_lt_succ (by exact_mod_cast hl)

theorem ge_of_ge (h : RoundsHalfEven q n) (hm : q ≤ m) : n ≤ m := by
  have hn := (abs_le.mp h.nearest).left
  have hl : (n : ℚ) < m + 1 := by linarith
  exact Nat.le_of_lt_succ (by exact_mod_cast hl)

theorem not_succ (h : RoundsHalfEven q n) : ¬RoundsHalfEven q (n + 1) := by
  intro h'
  -- Both are at a distance of a half, so both are even.
  have hq : q = n + 1 / 2 := by
    have hn := (abs_le.mp h.nearest).right
    have hm := (abs_le.mp h'.nearest).left
    push_cast at hm
    linarith
  have he : Even n := h.even (by rw [hq, add_sub_cancel_left]; norm_num)
  have ho : Even (n + 1) := h'.even (by rw [hq]; push_cast; norm_num [abs_of_neg])
  exact Nat.even_add_one.mp ho he

theorem unique (h : RoundsHalfEven q n) (h' : RoundsHalfEven q m) : n = m := by
  have hn := abs_le.mp h.nearest
  have hm := abs_le.mp h'.nearest
  have hl : n ≤ m + 1 := by
    have : (n : ℚ) ≤ m + 1 := by linarith
    exact_mod_cast this
  have hr : m ≤ n + 1 := by
    have : (m : ℚ) ≤ n + 1 := by linarith
    exact_mod_cast this
  by_contra hne
  cases Nat.lt_or_gt_of_ne hne
  case inl hlt => exact h.not_succ (Nat.le_antisymm hr hlt ▸ h')
  case inr hlt => exact h'.not_succ (Nat.le_antisymm hl hlt ▸ h)

end RoundsHalfEven

-- The exponents of the powers around a number are determined by it.
theorem log_eq_of_le_of_lt {b : Nat} (hb : 1 < b) {q : ℚ} (hq : 0 < q) {e : Int}
    (hl : (b : ℚ) ^ e ≤ q) (hu : q < (b : ℚ) ^ (e + 1)) : Int.log b q = e := by
  have hl := (Int.zpow_le_iff_le_log hb hq).mp hl
  have hu := (Int.lt_zpow_iff_log_lt hb hq).mp hu
  omega

theorem Radix.one_lt_toNat (radix : Radix) : 1 < radix.toNat := by
  cases radix <;> decide

theorem exists_length_toDigits {b : Nat} (hb : 1 < b) {n : Nat} (hn : 0 < n) :
    ∃ k, (Nat.toDigits b n).length = k + 1 ∧ b ^ k ≤ n ∧ n < b ^ (k + 1) := by
  have ⟨k, hk⟩ := Nat.exists_eq_add_one.mpr (Nat.length_toDigits_pos (b := b) (n := n))
  have hu := (Nat.length_toDigits_le_iff hb (Nat.succ_pos k)).mp hk.le
  refine ⟨k, hk, ?_, hu⟩
  match k with
  | 0     => exact hn
  | k + 1 =>
    by_contra! hl
    have := (Nat.length_toDigits_le_iff hb (Nat.succ_pos k)).mpr hl
    omega

namespace Ratio

variable {r : Ratio}

def toRat (r : Ratio) : ℚ :=
  r.num / r.den

theorem den_ne_zero (r : Ratio) : (r.den : ℚ) ≠ 0 :=
  Nat.cast_ne_zero.mpr r.den_pos.ne'

theorem toRat_pos (h : 0 < r.num) : 0 < r.toRat :=
  div_pos (Nat.cast_pos.mpr h) (Nat.cast_pos.mpr r.den_pos)

theorem toRat_eq_zero (h : r.num = 0) : r.toRat = 0 := by
  rw [toRat, h, Nat.cast_zero, zero_div]

theorem toRat_scale (r : Ratio) (radix : Radix) (e : Int) :
    (r.scale radix e).toRat = r.toRat * (radix.toNat : ℚ) ^ e := by
  have hb : (radix.toNat : ℚ) ≠ 0 := Nat.cast_ne_zero.mpr radix.toNat_pos.ne'
  have hn (k : Nat) : ((radix.power k : Nat) : ℚ) = (radix.toNat : ℚ) ^ k := Nat.cast_pow ..
  rw [← Int.toNat_sub_toNat_neg e, zpow_sub₀ hb, zpow_natCast, zpow_natCast, toRat, scale,
    Int.toNat_sub_toNat_neg, Nat.cast_mul, Nat.cast_mul, hn, hn, mul_div_mul_comm]
  rfl

section Rounding

theorem toRat_eq_floor_add (r : Ratio) :
    r.toRat = r.floor + (r.num % r.den : Nat) / (r.den : ℚ) := by
  have hn : (r.num : ℚ) = r.floor * r.den + (r.num % r.den : Nat) := by
    exact_mod_cast (Nat.div_add_mod' r.num r.den).symm
  rw [toRat, hn, add_div, mul_div_cancel_right₀ _ r.den_ne_zero]

theorem floor_le (r : Ratio) : r.floor ≤ r.toRat := by
  rw [toRat_eq_floor_add, le_add_iff_nonneg_right]
  positivity

theorem lt_floor_succ (r : Ratio) : r.toRat < r.floor + 1 := by
  have hd : (0 : ℚ) < r.den := Nat.cast_pos.mpr r.den_pos
  rw [toRat_eq_floor_add, add_lt_add_iff_left, div_lt_one hd]
  exact_mod_cast Nat.mod_lt _ r.den_pos

theorem half_eq (r : Ratio) : r.half = compare (r.toRat - r.floor) (1 / 2) := by
  have hd : (0 : ℚ) < r.den := Nat.cast_pos.mpr r.den_pos
  rw [toRat_eq_floor_add, add_sub_cancel_left]
  calc
    r.half = cmp (2 * (r.num % r.den)) r.den := (cmp_eq_compare ..).symm
    _ = cmp ((2 * (r.num % r.den) : Nat) : ℚ) r.den := (Nat.strictMono_cast.cmp_map_eq ..).symm
    _ = cmp (2 * r.den * ((r.num % r.den : Nat) / r.den : ℚ)) (2 * r.den * (1 / 2)) := by
      rw [mul_assoc, mul_div_cancel₀ _ hd.ne', mul_right_comm, mul_one_div_cancel two_ne_zero,
        one_mul, Nat.cast_mul, Nat.cast_ofNat]
    _ = cmp ((r.num % r.den : Nat) / r.den : ℚ) (1 / 2) := cmp_mul_pos_left (by positivity) ..
    _ = compare ((r.num % r.den : Nat) / r.den : ℚ) (1 / 2) := cmp_eq_compare ..

theorem roundsHalfEven_round (r : Ratio) : RoundsHalfEven r.toRat r.round := by
  have hl := r.floor_le
  have hu := r.lt_floor_succ
  have hh := r.half_eq
  rw [round]
  split
  case h_1 h =>
    rw [h, eq_comm, compare_lt_iff_lt] at hh
    exact .of_lt (abs_lt.mpr ⟨by linarith, hh⟩)
  case h_2 h =>
    rw [h, eq_comm, compare_gt_iff_gt] at hh
    refine .of_lt (abs_lt.mpr ⟨?_, ?_⟩) <;> push_cast <;> linarith
  case h_3 h =>
    rw [h, eq_comm, compare_eq_iff_eq] at hh
    cases Nat.mod_two_eq_zero_or_one r.floor
    case inl he =>
      rw [he]
      exact ⟨by rw [Nat.add_zero, hh]; norm_num, fun _ => Nat.even_iff.mpr he⟩
    case inr ho =>
      rw [ho]
      refine ⟨?_, fun _ => Nat.even_add_one.mpr (Nat.not_even_iff.mpr ho)⟩
      push_cast
      rw [← sub_sub, hh]
      norm_num [abs_of_neg]

end Rounding

section Order

variable (radix : Radix)

theorem zpow_order_of_den_le (h : r.den ≤ r.num) :
    (radix.toNat : ℚ) ^ r.order radix ≤ r.toRat ∧
      r.toRat < (radix.toNat : ℚ) ^ (r.order radix + 1) := by
  have ⟨k, hk, hl, hu⟩ := exists_length_toDigits radix.one_lt_toNat (Nat.div_pos h r.den_pos)
  rw [order, if_pos h, floor, hk, Nat.cast_succ, add_sub_cancel_right, ← Nat.cast_succ,
    zpow_natCast, zpow_natCast]
  constructor
  · exact le_trans (by exact_mod_cast hl) r.floor_le
  · exact r.lt_floor_succ.trans_le (by exact_mod_cast hu)

-- With `m` for the quotient that is counted the number is between `1 / (m + 1)` and `1 / m`.
theorem zpow_order_of_lt_den (hn : 0 < r.num) (h : r.num < r.den) :
    (radix.toNat : ℚ) ^ r.order radix ≤ r.toRat ∧
      r.toRat < (radix.toNat : ℚ) ^ (r.order radix + 1) := by
  have hb : (0 : ℚ) < radix.toNat := Nat.cast_pos.mpr radix.toNat_pos
  have hd : (0 : ℚ) < r.den := Nat.cast_pos.mpr r.den_pos
  have ⟨k, hk, hl, hu⟩ := exists_length_toDigits radix.one_lt_toNat
    (Nat.div_pos (Nat.le_sub_one_of_lt h) hn)
  have hlow : r.den ≤ radix.toNat ^ (k + 1) * r.num := by
    have hm := Nat.lt_mul_div_succ (r.den - 1) hn
    have hp := Nat.mul_le_mul_right r.num hu
    rw [Nat.mul_comm] at hm
    exact (Nat.le_of_pred_lt hm).trans hp
  have hhigh : radix.toNat ^ k * r.num < r.den :=
    (Nat.mul_le_mul_right r.num hl).trans_lt
      (Nat.lt_of_le_pred r.den_pos (Nat.div_mul_le_self ..))
  have he : -((k + 1 : Nat) : Int) + 1 = -(k : Int) := by omega
  rw [order, if_neg (Nat.not_le_of_lt h), hk, he, zpow_neg, zpow_neg, zpow_natCast, zpow_natCast,
    inv_eq_one_div, inv_eq_one_div, toRat, div_le_div_iff₀ (by positivity) hd,
    div_lt_div_iff₀ hd (by positivity), one_mul, mul_comm (r.num : ℚ), mul_comm (r.num : ℚ)]
  exact ⟨by exact_mod_cast hlow, by exact_mod_cast hhigh⟩

theorem order_eq_log (h : 0 < r.num) : r.order radix = Int.log radix.toNat r.toRat := by
  have ⟨hl, hu⟩ := (Nat.lt_or_ge r.num r.den).elim (zpow_order_of_lt_den radix h)
    (zpow_order_of_den_le radix)
  exact (log_eq_of_le_of_lt radix.one_lt_toNat (toRat_pos h) hl hu).symm

end Order

end Ratio

end MessageCatalog.Number
