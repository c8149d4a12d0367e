import Mathlib.Data.List.TakeWhile
import MessageCatalog.Proofs.Text.Utf8

namespace MessageCatalog.Text

-- The pieces of a text between the places where a character stands.
def split (c : Char) (s : String) : List String :=
  (s.toList.splitOn c).map String.ofList

-- What stands in front of the first place where a character stands.
def upTo (c : Char) (s : String) : String :=
  String.ofList (s.toList.takeWhile (· ≠ c))

theorem not_mem_of_mem_splitOn {α : Type} [BEq α] [LawfulBEq α] {c : α} {text v : List α}
    (h : v ∈ text.splitOn c) : c ∉ v := by
  induction text generalizing v
  case nil =>
    cases List.mem_singleton.mp h
    exact List.not_mem_nil
  case cons b bs ih =>
    rw [List.splitOn, List.splitOnP_cons_eq_if_modifyHead, ← List.splitOn] at h
    by_cases hb : b = c
    case pos =>
      simp only [hb, beq_self_eq_true, if_true, List.mem_cons] at h
      cases h
      case inl h => simp [h]
      case inr h => exact ih h
    case neg =>
      simp only [beq_false_of_ne hb, Bool.false_eq_true, if_false] at h
      cases hs : bs.splitOn c
      case nil => simp at hs
      case cons w ws =>
        rw [hs] at h ih
        cases h
        case head   => simp [Ne.symm hb, ih List.mem_cons_self]
        case tail h => exact ih (List.mem_cons_of_mem w h)

section Separators

variable {α : Type} [DecidableEq α] {c : α} {front : List α}

theorem takeWhile_of_not_mem (h : c ∉ front) : front.takeWhile (· ≠ c) = front :=
  List.takeWhile_eq_self_iff.mpr fun _ hm => decide_eq_true (ne_of_mem_of_not_mem hm h)

theorem takeWhile_of_append (h : c ∉ front) (rest : List α) :
    (front ++ c :: rest).takeWhile (· ≠ c) = front := by
  rw [List.takeWhile_append_of_pos fun _ hm => decide_eq_true (ne_of_mem_of_not_mem hm h)]
  simp

end Separators

namespace Utf8

section Ascii

variable {b : UInt8} (hb : b < 0x80)
include hb

-- What is pending is broken off by it.
theorem scan_pending_ascii {p : Pending} (h : p.Valid) (bs : Bytes) :
    scan (some p) (b :: bs) = none :: some (Char.ofNat b.toNat) :: scan none bs := by
  have hn : ¬(p.low ≤ b ∧ b ≤ p.high) := fun hr =>
    absurd (h.le_toNat hr.left) (Nat.not_le.mpr (UInt8.lt_iff_toNat_lt.mp hb))
  rw [scan_outside hn, scan_ascii hb]

theorem scan_append_ascii {pending : Option Pending} (h : ∀ p ∈ pending, p.Valid)
    (bs rest : Bytes) :
    scan pending (bs ++ b :: rest) =
      scan pending bs ++ some (Char.ofNat b.toNat) :: scan none rest := by
  induction bs generalizing pending
  case nil =>
    cases pending
    case none   => exact scan_ascii hb rest
    case some p => exact scan_pending_ascii hb (h p rfl) rest
  case cons a bs ih => rw [List.cons_append, scan, scan, ih (valid_next h), List.append_assoc]

theorem toList_decode_append (bs rest : Bytes) :
    (decode (bs ++ b :: rest)).toList =
      (decode bs).toList ++ Char.ofNat b.toNat :: (decode rest).toList := by
  simp [decode, scan_append_ascii hb]

theorem toList_decode_intercalate (parts : List Bytes) :
    (decode ([b].intercalate parts)).toList =
      [Char.ofNat b.toNat].intercalate (parts.map fun part => (decode part).toList) := by
  match parts with
  | []                => rfl
  | [part]            => simp
  | part :: p' :: parts =>
    have ih := toList_decode_intercalate (p' :: parts)
    simp_all [toList_decode_append]

end Ascii

theorem decode_append_nul (bs rest : Bytes) :
    decode (bs ++ 0 :: rest) = decode bs ++ "\x00" ++ decode rest := by
  rw [← String.toList_inj, toList_decode_append (by decide)]
  simp

theorem decode_append_lineFeed (bs rest : Bytes) :
    decode (bs ++ 10 :: rest) = decode bs ++ "\n" ++ decode rest := by
  rw [← String.toList_inj, toList_decode_append (by decide)]
  simp

theorem decode_intercalate_lineFeed (parts : List Bytes) :
    decode ([10].intercalate parts) = "\n".intercalate (parts.map decode) := by
  rw [← String.toList_inj, toList_decode_intercalate (by decide), String.toList_intercalate]
  simp [Function.comp_def]

-- The NULs of a text are those of its bytes, and so they part both alike.
theorem split_decode (bytes : Bytes) :
    split '\x00' (decode bytes) = (bytes.splitOn 0).map decode := by
  have hc : (decode ([0].intercalate (bytes.splitOn 0))).toList = ['\x00'].intercalate _ :=
    toList_decode_intercalate (by decide) (bytes.splitOn 0)
  rw [List.intercalate_splitOn] at hc
  have hn : ∀ l ∈ (bytes.splitOn 0).map fun part => (decode part).toList, '\x00' ∉ l := by
    simp only [List.forall_mem_map, nul_mem_decode]
    exact fun _ => not_mem_of_mem_splitOn
  rw [split, hc, List.splitOn_intercalate _ hn (by simp)]
  simp [Function.comp_def]

theorem upTo_decode (bytes : Bytes) :
    upTo '\x00' (decode bytes) = decode (bytes.takeWhile (· ≠ 0)) := by
  by_cases h : 0 ∈ bytes
  case pos =>
    obtain ⟨front, rest, rfl, hn⟩ := List.eq_append_cons_of_mem h
    have hc := nul_mem_decode.not.mpr hn
    have hd : (decode (front ++ 0 :: rest)).toList = _ ++ '\x00' :: _ :=
      toList_decode_append (by decide) front rest
    rw [upTo, hd, takeWhile_of_append hn, takeWhile_of_append hc, String.ofList_toList]
  case neg =>
    have hc := nul_mem_decode.not.mpr h
    rw [upTo, takeWhile_of_not_mem h, takeWhile_of_not_mem hc, String.ofList_toList]

end Utf8

end MessageCatalog.Text
