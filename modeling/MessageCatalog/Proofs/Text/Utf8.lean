import Mathlib.Tactic
import MessageCatalog.Text.Utf8

namespace MessageCatalog.Text.Utf8

theorem first_fst_eq_nil {b : UInt8} (h : (first b).fst = []) : (first b).snd ≠ none := by
  unfold first at h ⊢
  split at h
  case isTrue => cases h
  case isFalse hb =>
    rw [if_neg hb]
    cases hl : lead? b <;> simp [hl] at h ⊢

-- A byte ends a character, or something is pending after it.
theorem next_fst_eq_nil {pending : Option Pending} {b : UInt8} (h : (next pending b).fst = []) :
    (next pending b).snd ≠ none := by
  cases pending
  case none => exact first_fst_eq_nil h
  case some p =>
    simp only [next, Pending.next] at h ⊢
    split at h
    case isFalse => cases h
    case isTrue hb =>
      rw [if_pos hb]
      cases hm : p.more <;> simp [hm] at h ⊢

-- No bytes are passed over.
theorem scan_eq_nil {pending : Option Pending} {bytes : Bytes} :
    scan pending bytes = [] ↔ pending = none ∧ bytes = [] := by
  induction bytes generalizing pending
  case nil => by_cases hp : pending = none <;> simp [scan, hp]
  case cons b bs ih =>
    have hn := @next_fst_eq_nil pending b
    simp only [scan, List.append_eq_nil_iff, ih]
    simp only [reduceCtorEq, and_false, iff_false]
    intro h
    exact hn h.left h.right.left

theorem decode_eq_empty {bytes : Bytes} : decode bytes = "" ↔ bytes = [] := by
  simp [decode, scan_eq_nil]

-- The bytes of a text in UTF-8.
def ofString (s : String) : Bytes :=
  s.toList.flatMap String.utf8EncodeChar

variable {p : Pending} {b : UInt8} {bs : Bytes}

-- What a sequence of two, three or four bytes begins with. Its second byte has less room where a
-- sequence could be too long, or stand for a surrogate or for too large a value.
theorem lead?_eq_some_iff :
    lead? b = some p ↔
      0xc2 ≤ b.toNat ∧ b.toNat ≤ 0xdf ∧ p = ⟨b.toNat - 0xc0, 0x80, 0xbf, 0⟩ ∨
      0xe0 ≤ b.toNat ∧ b.toNat ≤ 0xef ∧ p = ⟨b.toNat - 0xe0,
        if b.toNat = 0xe0 then 0xa0 else 0x80, if b.toNat = 0xed then 0x9f else 0xbf, 1⟩ ∨
      0xf0 ≤ b.toNat ∧ b.toNat ≤ 0xf4 ∧ p = ⟨b.toNat - 0xf0,
        if b.toNat = 0xf0 then 0x90 else 0x80, if b.toNat = 0xf4 then 0x8f else 0xbf, 2⟩ := by
  simp only [lead?, UInt8.le_iff_toNat_le, ← UInt8.toNat_inj]
  grind

theorem toNat_byte {n : Nat} (h : n < 256) : (UInt8.ofNat n).toNat = n := by
  rw [UInt8.toNat_ofNat', Nat.mod_eq_of_lt h]

theorem toNat_ofNat {n : Nat} (h : n.isValidChar) : (Char.ofNat n).toNat = n := by
  rw [Char.ofNat, dif_pos h]
  rfl

theorem scan_lead (h : lead? b = some p) : scan none (b :: bs) = scan (some p) bs := by
  have hb : ¬b < 0x80 := by
    rw [UInt8.lt_iff_toNat_lt]
    rcases lead?_eq_some_iff.mp h with h | h | h <;> simp <;> omega
  simp [scan, next, first, hb, h]

theorem scan_ascii (h : b < 0x80) (bs : Bytes) :
    scan none (b :: bs) = some (Char.ofNat b.toNat) :: scan none bs := by
  simp [scan, next, first, h]

theorem scan_invalid (hb : ¬b < 0x80) (hl : lead? b = none) (bs : Bytes) :
    scan none (b :: bs) = none :: scan none bs := by
  simp [scan, next, first, hb, hl]

-- A byte that does not continue a sequence breaks it off, and is read anew.
theorem scan_outside (h : ¬(p.low ≤ b ∧ b ≤ p.high)) (bs : Bytes) :
    scan (some p) (b :: bs) = none :: scan none (b :: bs) := by
  simp [scan, next, Pending.next, if_neg h]

section Continuation

variable {y : Nat} (hy : y < 0x40) (low : p.low.toNat ≤ y + 0x80) (high : y + 0x80 ≤ p.high.toNat)
include hy low high

theorem next_continuation : next (some p) (.ofNat (y + 0x80)) =
    match p.more with
    | 0        => ([some (Char.ofNat (64 * p.value + y))], none)
    | more + 1 => ([], some ⟨64 * p.value + y, 0x80, 0xbf, more⟩) := by
  have hb : (UInt8.ofNat (y + 0x80)).toNat = y + 0x80 := toNat_byte (by omega)
  have hr : p.low ≤ .ofNat (y + 0x80) ∧ .ofNat (y + 0x80) ≤ p.high := by
    rw [UInt8.le_iff_toNat_le, UInt8.le_iff_toNat_le, hb]
    exact ⟨low, high⟩
  cases hm : p.more <;> simp only [next, Pending.next, if_pos hr, hb, hm, Nat.add_sub_cancel]

-- A byte of a sequence that is not the last one.
theorem scan_middle {more : Nat} (hm : p.more = more + 1) :
    scan (some p) (.ofNat (y + 0x80) :: bs) =
      scan (some ⟨64 * p.value + y, 0x80, 0xbf, more⟩) bs := by
  rw [scan, next_continuation hy low high, hm]
  rfl

theorem scan_last (hm : p.more = 0) :
    scan (some p) (.ofNat (y + 0x80) :: bs) =
      some (Char.ofNat (64 * p.value + y)) :: scan none bs := by
  rw [scan, next_continuation hy low high, hm]
  rfl

end Continuation

section Sequences

variable {x y z w : Nat} (bs : Bytes)

theorem scan_two (hx : 2 ≤ x) (hx' : x < 0x20) (hy : y < 0x40) :
    scan none (.ofNat (x + 0xc0) :: .ofNat (y + 0x80) :: bs) =
      some (Char.ofNat (64 * x + y)) :: scan none bs := by
  have hb : (UInt8.ofNat (x + 0xc0)).toNat = x + 0xc0 := toNat_byte (by omega)
  have hl : lead? (.ofNat (x + 0xc0)) = some ⟨x, 0x80, 0xbf, 0⟩ :=
    lead?_eq_some_iff.mpr (.inl ⟨by omega, by omega, by rw [hb]; simp⟩)
  rw [scan_lead hl, scan_last hy (by simp) (by simp; omega) rfl]

theorem scan_three (hx : x < 0x10) (hy : y < 0x40) (hz : z < 0x40)
    (low : x = 0 → 0x20 ≤ y) (surrogate : x = 0xd → y < 0x20) :
    scan none (.ofNat (x + 0xe0) :: .ofNat (y + 0x80) :: .ofNat (z + 0x80) :: bs) =
      some (Char.ofNat (64 * (64 * x + y) + z)) :: scan none bs := by
  have hb : (UInt8.ofNat (x + 0xe0)).toNat = x + 0xe0 := toNat_byte (by omega)
  have hl : lead? (.ofNat (x + 0xe0)) = some ⟨x, if x = 0 then 0xa0 else 0x80,
      if x = 0xd then 0x9f else 0xbf, 1⟩ :=
    lead?_eq_some_iff.mpr (.inr (.inl ⟨by omega, by omega, by rw [hb]; simp⟩))
  have hlow : (if x = 0 then 0xa0 else 0x80 : UInt8).toNat ≤ y + 0x80 := by
    split <;> simp
    omega
  have hhigh : y + 0x80 ≤ (if x = 0xd then 0x9f else 0xbf : UInt8).toNat := by
    split <;> simp <;> omega
  rw [scan_lead hl, scan_middle hy hlow hhigh rfl, scan_last hz (by simp) (by simp; omega) rfl]

theorem scan_four (hx : x < 5) (hy : y < 0x40) (hz : z < 0x40) (hw : w < 0x40)
    (low : x = 0 → 0x10 ≤ y) (high : x = 4 → y < 0x10) :
    scan none (.ofNat (x + 0xf0) :: .ofNat (y + 0x80) :: .ofNat (z + 0x80) ::
        .ofNat (w + 0x80) :: bs) =
      some (Char.ofNat (64 * (64 * (64 * x + y) + z) + w)) :: scan none bs := by
  have hb : (UInt8.ofNat (x + 0xf0)).toNat = x + 0xf0 := toNat_byte (by omega)
  have hl : lead? (.ofNat (x + 0xf0)) = some ⟨x, if x = 0 then 0x90 else 0x80,
      if x = 4 then 0x8f else 0xbf, 2⟩ :=
    lead?_eq_some_iff.mpr (.inr (.inr ⟨by omega, by omega, by rw [hb]; simp⟩))
  have hlow : (if x = 0 then 0x90 else 0x80 : UInt8).toNat ≤ y + 0x80 := by
    split <;> simp
    omega
  have hhigh : y + 0x80 ≤ (if x = 4 then 0x8f else 0xbf : UInt8).toNat := by
    split <;> simp <;> omega
  rw [scan_lead hl, scan_middle hy hlow hhigh rfl, scan_middle hz (by simp) (by simp; omega) rfl,
    scan_last hw (by simp) (by simp; omega) rfl]

end Sequences

theorem scan_utf8EncodeChar (c : Char) (bs : Bytes) :
    scan none (String.utf8EncodeChar c ++ bs) = some c :: scan none bs := by
  have hv := c.valid
  have hc := Char.ofNat_toNat c
  simp only [String.utf8EncodeChar, UInt32.isValidChar, Nat.isValidChar] at hv ⊢
  simp only [Char.toNat] at hc
  generalize c.val.toNat = v at *
  by_cases h1 : v ≤ 0x7f
  case pos =>
    have hb : (UInt8.ofNat v).toNat = v := toNat_byte (by omega)
    have hf : UInt8.ofNat v < 0x80 := by
      rw [UInt8.lt_iff_toNat_lt, hb]
      exact Nat.lt_succ_of_le h1
    rw [if_pos h1, List.singleton_append, scan_ascii hf, hb, hc]
  rw [if_neg h1]
  by_cases h2 : v ≤ 0x7ff
  case pos =>
    have e : 64 * (v / 64 % 0x20) + v % 0x40 = v := by omega
    rw [if_pos h2, List.cons_append, List.singleton_append,
      scan_two bs (by omega) (by omega) (by omega), e, hc]
  rw [if_neg h2]
  by_cases h3 : v ≤ 0xffff
  case pos =>
    have e : 64 * (64 * (v / 4096 % 0x10) + v / 64 % 0x40) + v % 0x40 = v := by omega
    rw [if_pos h3, List.cons_append, List.cons_append, List.singleton_append,
      scan_three bs (by omega) (by omega) (by omega) (by omega) (by omega), e, hc]
  case neg =>
    have e : 64 * (64 * (64 * (v / 262144 % 0x8) + v / 4096 % 0x40) + v / 64 % 0x40) +
        v % 0x40 = v := by omega
    rw [if_neg h3, List.cons_append, List.cons_append, List.cons_append, List.singleton_append,
      scan_four bs (by omega) (by omega) (by omega) (by omega) (by omega) (by omega), e, hc]

theorem scan_ofString (s : String) : scan none (ofString s) = s.toList.map some := by
  rw [ofString]
  induction s.toList
  case nil          => rfl
  case cons c cs ih => rw [List.flatMap_cons, scan_utf8EncodeChar, ih, List.map_cons]

-- Text in UTF-8 is read as it was written.
theorem decode_ofString (s : String) : decode (ofString s) = s := by
  rw [decode, scan_ofString, List.map_map]
  simp [Function.comp_def]

theorem ofString_eq_nil {s : String} : ofString s = [] ↔ s = "" := by
  rw [← decode_eq_empty, decode_ofString]

namespace Pending

-- The least value that can come of what is pending.
def least (p : Pending) : Nat :=
  (64 * p.value + (p.low.toNat - 0x80)) * 64 ^ p.more

-- What is above every value that can come of it.
def bound (p : Pending) : Nat :=
  (64 * p.value + (p.high.toNat - 0x80) + 1) * 64 ^ p.more

-- Only characters other than NUL can come of what is pending, and a NUL cannot continue it.
structure Valid (p : Pending) : Prop where
  low      : 0x80 ≤ p.low.toNat
  positive : 0 < p.least
  scalar   : p.bound ≤ 0xd800 ∨ 0xe000 ≤ p.least ∧ p.bound ≤ 0x110000

theorem valid_of_lead? (h : lead? b = some p) : p.Valid := by
  rcases lead?_eq_some_iff.mp h with ⟨h, h', rfl⟩ | ⟨h, h', rfl⟩ | ⟨h, h', rfl⟩
  · constructor <;> simp [least, bound] <;> omega
  · constructor <;> simp only [least, bound] <;> split_ifs <;> simp <;> omega
  · constructor <;> simp only [least, bound] <;> split_ifs <;> simp <;> omega

namespace Valid

variable (h : p.Valid) (low : p.low ≤ b)
include h low

theorem le_toNat : 0x80 ≤ b.toNat :=
  h.low.trans (UInt8.le_iff_toNat_le.mp low)

variable (high : b ≤ p.high)
include high

-- With each byte there are fewer values that can come of a sequence.
theorem step {more : Nat} (hm : p.more = more + 1) :
    Valid ⟨64 * p.value + (b.toNat - 0x80), 0x80, 0xbf, more⟩ := by
  rw [UInt8.le_iff_toNat_le] at low high
  have hl : p.least ≤ least ⟨64 * p.value + (b.toNat - 0x80), 0x80, 0xbf, more⟩ := by
    rw [least, least, hm, pow_succ', ← mul_assoc]
    exact Nat.mul_le_mul_right _ (by simp; omega)
  have hb : bound ⟨64 * p.value + (b.toNat - 0x80), 0x80, 0xbf, more⟩ ≤ p.bound := by
    rw [bound, bound, hm, pow_succ', ← mul_assoc]
    exact Nat.mul_le_mul_right _ (by simp; omega)
  refine ⟨le_refl _, h.positive.trans_le hl, ?_⟩
  cases h.scalar
  case inl hs => exact .inl (hb.trans hs)
  case inr hs => exact .inr ⟨hs.left.trans hl, hb.trans hs.right⟩

-- The last byte makes a character other than NUL.
theorem ofNat_ne (hm : p.more = 0) :
    Char.ofNat (64 * p.value + (b.toNat - 0x80)) ≠ '\x00' := by
  rw [UInt8.le_iff_toNat_le] at low high
  have hl := h.positive
  have hs := h.scalar
  simp only [least, bound, hm, pow_zero, mul_one] at hl hs
  have hv : (64 * p.value + (b.toNat - 0x80)).isValidChar := by
    rw [Nat.isValidChar]
    omega
  intro hc
  have ht := congrArg Char.toNat hc
  rw [toNat_ofNat hv] at ht
  simp at ht
  omega

end Valid

end Pending

theorem ne_zero_of_le (h : 0x80 ≤ b.toNat) : b ≠ 0 := by
  rintro rfl
  exact absurd h (by decide)

theorem nul_mem_first : some '\x00' ∈ (first b).1 ↔ b = 0 := by
  by_cases hb : b < 0x80
  case pos =>
    have hn : b.toNat < 0x80 := UInt8.lt_iff_toNat_lt.mp hb
    have hv : b.toNat.isValidChar := .inl (hn.trans (by decide))
    have hc : '\x00' = Char.ofNat b.toNat ↔ b = 0 := by
      rw [← Char.toNat_inj, toNat_ofNat hv, ← UInt8.toNat_inj]
      exact eq_comm
    simp [first, hb, hc]
  case neg =>
    have hb' := ne_zero_of_le (UInt8.le_iff_toNat_le.mp (UInt8.not_lt.mp hb))
    cases hl : lead? b <;> simp [first, hb, hl, hb']

-- What is pending is valid after each byte, and a NUL is a byte of its own.
theorem valid_first : ∀ q ∈ (first b).2, q.Valid := by
  intro q hq
  unfold first at hq
  split at hq
  case isTrue => cases hq
  case isFalse =>
    cases hl : lead? b <;> simp [hl] at hq
    exact hq ▸ Pending.valid_of_lead? hl

variable {pending : Option Pending}

theorem valid_next (h : ∀ p ∈ pending, p.Valid) : ∀ q ∈ (next pending b).2, q.Valid := by
  cases pending
  case none => exact valid_first
  case some p =>
    have h := h p rfl
    intro q hq
    simp only [next, Pending.next] at hq
    split at hq
    case isFalse => exact valid_first q hq
    case isTrue hr =>
      cases hm : p.more <;> simp [hm] at hq
      case succ => exact hq ▸ h.step hr.1 hr.2 hm

theorem nul_mem_next (h : ∀ p ∈ pending, p.Valid) :
    some '\x00' ∈ (next pending b).1 ↔ b = 0 := by
  cases pending
  case none => exact nul_mem_first
  case some p =>
    have h := h p rfl
    simp only [next, Pending.next]
    split
    case isFalse => simp [nul_mem_first]
    case isTrue hr =>
      have hb := ne_zero_of_le (h.le_toNat hr.1)
      cases hm : p.more
      case zero => simp [hb, (h.ofNat_ne hr.1 hr.2 hm).symm]
      case succ => simp [hb]

theorem nul_mem_scan (h : ∀ p ∈ pending, p.Valid) {bytes : Bytes} :
    some '\x00' ∈ scan pending bytes ↔ 0 ∈ bytes := by
  induction bytes generalizing pending
  case nil => simp [scan]
  case cons b bs ih =>
    rw [scan, List.mem_append, nul_mem_next h, ih (valid_next h), List.mem_cons, eq_comm]

-- A NUL is a character of its own in any bytes.
theorem nul_mem_decode {bytes : Bytes} : '\x00' ∈ (decode bytes).toList ↔ 0 ∈ bytes := by
  rw [← @nul_mem_scan none (by simp), decode, String.toList_ofList, List.mem_map]
  constructor
  · rintro ⟨c, hm, hc⟩
    cases c
    case none => cases hc
    case some c => exact hc ▸ hm
  · exact fun h => ⟨_, h, rfl⟩

theorem zero_mem_ofString {s : String} : 0 ∈ ofString s ↔ '\x00' ∈ s.toList := by
  rw [← nul_mem_decode, decode_ofString]

end MessageCatalog.Text.Utf8
