import MessageCatalog.Proofs.Text.Utf8

namespace MessageCatalog.Text.Utf8

open String (utf8EncodeChar)

-- Some character is written with these bytes in front.
def Starts (part : Bytes) : Prop :=
  ∃ c, part <+: utf8EncodeChar c

section Encodings

variable {x y z w : Nat}

theorem utf8EncodeChar_one (hx : x < 0x80) : utf8EncodeChar (Char.ofNat x) = [.ofNat x] := by
  have hv : (Char.ofNat x).val.toNat = x := toNat_ofNat (.inl (hx.trans (by decide)))
  simp only [utf8EncodeChar, hv]
  rw [if_pos (Nat.le_of_lt_succ hx)]

theorem utf8EncodeChar_two (hx : 2 ≤ x) (hx' : x < 0x20) (hy : y < 0x40) :
    utf8EncodeChar (Char.ofNat (64 * x + y)) = [.ofNat (x + 0xc0), .ofNat (y + 0x80)] := by
  have hv : (Char.ofNat (64 * x + y)).val.toNat = 64 * x + y := toNat_ofNat (.inl (by omega))
  have h1 : (64 * x + y) / 64 % 32 = x := by omega
  have h2 : (64 * x + y) % 64 = y := by omega
  simp only [utf8EncodeChar, hv, h1, h2]
  rw [if_neg (by omega), if_pos (by omega)]

theorem utf8EncodeChar_three (hx : x < 0x10) (hy : y < 0x40) (hz : z < 0x40)
    (low : x = 0 → 0x20 ≤ y) (surrogate : x = 0xd → y < 0x20) :
    utf8EncodeChar (Char.ofNat (64 * (64 * x + y) + z)) =
      [.ofNat (x + 0xe0), .ofNat (y + 0x80), .ofNat (z + 0x80)] := by
  have hv : (Char.ofNat (64 * (64 * x + y) + z)).val.toNat = 64 * (64 * x + y) + z :=
    toNat_ofNat (by rw [Nat.isValidChar]; omega)
  have h1 : (64 * (64 * x + y) + z) / 4096 % 16 = x := by omega
  have h2 : (64 * (64 * x + y) + z) / 64 % 64 = y := by omega
  have h3 : (64 * (64 * x + y) + z) % 64 = z := by omega
  simp only [utf8EncodeChar, hv, h1, h2, h3]
  rw [if_neg (by omega), if_neg (by omega), if_pos (by omega)]

theorem utf8EncodeChar_four (hx : x < 5) (hy : y < 0x40) (hz : z < 0x40) (hw : w < 0x40)
    (low : x = 0 → 0x10 ≤ y) (high : x = 4 → y < 0x10) :
    utf8EncodeChar (Char.ofNat (64 * (64 * (64 * x + y) + z) + w)) =
      [.ofNat (x + 0xf0), .ofNat (y + 0x80), .ofNat (z + 0x80), .ofNat (w + 0x80)] := by
  have hv : (Char.ofNat (64 * (64 * (64 * x + y) + z) + w)).val.toNat =
      64 * (64 * (64 * x + y) + z) + w := toNat_ofNat (by rw [Nat.isValidChar]; omega)
  have h1 : (64 * (64 * (64 * x + y) + z) + w) / 262144 % 8 = x := by omega
  have h2 : (64 * (64 * (64 * x + y) + z) + w) / 4096 % 64 = y := by omega
  have h3 : (64 * (64 * (64 * x + y) + z) + w) / 64 % 64 = z := by omega
  have h4 : (64 * (64 * (64 * x + y) + z) + w) % 64 = w := by omega
  simp only [utf8EncodeChar, hv, h1, h2, h3, h4]
  rw [if_neg (by omega), if_neg (by omega), if_neg (by omega)]

end Encodings

-- What is pending after some bytes of one sequence.
inductive Begins : Bytes → Pending → Prop
  | lead {b : UInt8} {p : Pending} (h : lead? b = some p) : Begins [b] p
  | more {seen : Bytes} {p : Pending} {b : UInt8} {more : Nat} (before : Begins seen p)
      (low : p.low ≤ b) (high : b ≤ p.high) (hm : p.more = more + 1) :
      Begins (seen ++ [b]) ⟨64 * p.value + (b.toNat - 0x80), 0x80, 0xbf, more⟩

-- The first two bytes of a sequence.
inductive Opens (a b : UInt8) (p : Pending) : Prop
  | two   (more : p.more = 0) (first : a = .ofNat (p.value + 0xc0)) (least : 2 ≤ p.value)
      (bound : p.value < 0x20)
  | three (more : p.more = 1) (first : a = .ofNat (p.value + 0xe0)) (bound : p.value < 0x10)
      (low : p.value = 0 → 0x20 ≤ b.toNat - 0x80)
      (surrogate : p.value = 0xd → b.toNat - 0x80 < 0x20)
  | four  (more : p.more = 2) (first : a = .ofNat (p.value + 0xf0)) (bound : p.value < 5)
      (low : p.value = 0 → 0x10 ≤ b.toNat - 0x80)
      (high : p.value = 4 → b.toNat - 0x80 < 0x10)

theorem ofNat_sub_add {b : UInt8} {n : Nat} (h : n ≤ b.toNat) :
    UInt8.ofNat (b.toNat - n + n) = b := by
  rw [Nat.sub_add_cancel h, UInt8.ofNat_toNat]

theorem opens_of_lead? {a b : UInt8} {p : Pending} (h : lead? a = some p) (low : p.low ≤ b)
    (high : b ≤ p.high) : b.toNat ≤ 0xbf ∧ Opens a b p := by
  rw [UInt8.le_iff_toNat_le] at low high
  rcases lead?_eq_some_iff.mp h with ⟨hl, hh, rfl⟩ | ⟨hl, hh, rfl⟩ | ⟨hl, hh, rfl⟩ <;>
    dsimp only at low high
  · have ha : 0xc0 ≤ a.toNat := by omega
    refine ⟨high, .two rfl (ofNat_sub_add ha).symm ?_ ?_⟩ <;> simp only <;> omega
  · refine ⟨high.trans (by split <;> decide), .three rfl (ofNat_sub_add hl).symm ?_ ?_ ?_⟩
    · simp only
      omega
    · intro hv
      have ha : a.toNat = 0xe0 := by simp only at hv; omega
      rw [if_pos ha] at low
      exact Nat.le_sub_of_add_le low
    · intro hv
      have ha : a.toNat = 0xed := by simp only at hv; omega
      rw [if_pos ha] at high
      have high : b.toNat ≤ 0x9f := high
      omega
  · refine ⟨high.trans (by split <;> decide), .four rfl (ofNat_sub_add hl).symm ?_ ?_ ?_⟩
    · simp only
      omega
    · intro hv
      have ha : a.toNat = 0xf0 := by simp only at hv; omega
      rw [if_pos ha] at low
      exact Nat.le_sub_of_add_le low
    · intro hv
      have ha : a.toNat = 0xf4 := by simp only at hv; omega
      rw [if_pos ha] at high
      have high : b.toNat ≤ 0x8f := high
      omega

namespace Begins

variable {seen : Bytes} {p : Pending} {b : UInt8}

theorem valid (h : Begins seen p) : p.Valid := by
  induction h
  case lead h                 => exact Pending.valid_of_lead? h
  case more low high hm valid => exact valid.step low high hm

theorem ne_nil (h : Begins seen p) : seen ≠ [] := by
  cases h <;> simp

-- A sequence has at most four bytes.
theorem length_add_more_le (h : Begins seen p) : seen.length + p.more ≤ 3 := by
  induction h
  case lead h =>
    rcases lead?_eq_some_iff.mp h with ⟨_, _, rfl⟩ | ⟨_, _, rfl⟩ | ⟨_, _, rfl⟩ <;> simp
  case more hm ih =>
    simp only [List.length_append, List.length_singleton]
    omega

theorem scan_append (h : Begins seen p) (bs : Bytes) :
    scan none (seen ++ bs) = scan (some p) bs := by
  induction h generalizing bs
  case lead h => exact scan_lead h
  case more low high hm ih =>
    rw [List.append_assoc, ih, List.singleton_append, scan, next, Pending.next, if_pos ⟨low, high⟩]
    simp [hm]

-- The last byte makes the sequence that of a character.
theorem utf8EncodeChar_eq (h : Begins seen p) (low : p.low ≤ b) (high : b ≤ p.high)
    (hm : p.more = 0) :
    utf8EncodeChar (Char.ofNat (64 * p.value + (b.toNat - 0x80))) = seen ++ [b] := by
  have hb := h.valid.le_toNat low
  cases h
  case lead x hx =>
    obtain ⟨hb', ho⟩ := opens_of_lead? hx low high
    cases ho
    case two first least bound =>
      rw [utf8EncodeChar_two least bound (by omega), ofNat_sub_add hb, ← first]
      rfl
    all_goals omega
  case more _ _ y _ before low' high' hm' =>
    have hb' : b.toNat ≤ 0xbf := UInt8.le_iff_toNat_le.mp high
    have hy := before.valid.le_toNat low'
    dsimp only at hm ⊢
    cases before
    case lead hx =>
      obtain ⟨hy', ho⟩ := opens_of_lead? hx low' high'
      cases ho
      case three first bound low surrogate =>
        rw [utf8EncodeChar_three bound (by omega) (by omega) low surrogate, ofNat_sub_add hb,
          ofNat_sub_add hy, ← first]
        rfl
      all_goals omega
    case more before low'' high'' hm'' =>
      have hy' : y.toNat ≤ 0xbf := UInt8.le_iff_toNat_le.mp high'
      have hz := before.valid.le_toNat low''
      dsimp only at hm' ⊢
      cases before
      case lead hx =>
        obtain ⟨hz', ho⟩ := opens_of_lead? hx low'' high''
        cases ho
        case four first bound low high =>
          rw [utf8EncodeChar_four bound (by omega) (by omega) (by omega) low high,
            ofNat_sub_add hb, ofNat_sub_add hy, ofNat_sub_add hz, ← first]
          rfl
        all_goals omega
      case more before _ _ hd =>
        have hl := before.length_add_more_le
        have hn := List.length_pos_iff.mpr before.ne_nil
        dsimp only at hm''
        omega

theorem low_le_high (h : Begins seen p) : p.low ≤ p.high := by
  cases h
  case lead h =>
    rw [UInt8.le_iff_toNat_le]
    rcases lead?_eq_some_iff.mp h with ⟨_, _, rfl⟩ | ⟨_, _, rfl⟩ | ⟨_, _, rfl⟩
    · simp
    all_goals
      dsimp only
      split_ifs <;> simp
      omega
  case more => exact (by decide : (0x80 : UInt8) ≤ 0xbf)

-- The least bytes that can follow make a character of the sequence.
theorem starts (h : Begins seen p) : Starts seen := by
  induction hm : p.more generalizing seen p
  case zero =>
    exact ⟨_, (h.utf8EncodeChar_eq (UInt8.le_refl _) h.low_le_high hm).symm ▸ List.prefix_append ..⟩
  case succ ih =>
    obtain ⟨c, hc⟩ := ih (h.more (UInt8.le_refl _) h.low_le_high hm) rfl
    exact ⟨c, (List.prefix_append ..).trans hc⟩

end Begins

end MessageCatalog.Text.Utf8
