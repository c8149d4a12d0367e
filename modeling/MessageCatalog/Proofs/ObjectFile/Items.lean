import Mathlib.Data.List.TakeWhile
import MessageCatalog.Proofs.ObjectFile.Decoding
import MessageCatalog.Proofs.Text.Separators

namespace MessageCatalog

-- A message that an object file can hold has an id and a variant, and no NULs in them.
structure Storable (id : String) (variants : List String) : Prop where
  id_ne          : id ≠ ""
  id_clean       : '\x00' ∉ id.toList
  variants_ne    : variants ≠ []
  variants_clean : ∀ v ∈ variants, '\x00' ∉ v.toList

namespace ObjectFile

open Text

namespace Item

-- The message of an item, if there is one, can be held.
def IsStorable : Item → Prop
  | message id variants => Storable (Utf8.decode id) (variants.map Utf8.decode)
  | _                   => True

theorem storable_strings {id text : Bytes} (h : id.takeWhile (· ≠ 0) ≠ []) :
    Storable (Utf8.decode (id.takeWhile (· ≠ 0))) ((text.splitOn 0).map Utf8.decode) where
  id_ne := Utf8.decode_eq_empty.not.mpr h
  id_clean := by
    rw [Utf8.nul_mem_decode]
    intro hm
    exact absurd (List.mem_takeWhile_imp hm) (by simp)
  variants_ne := by simp
  variants_clean := by
    simp only [List.forall_mem_map, Utf8.nul_mem_decode]
    exact fun _ => not_mem_of_mem_splitOn

theorem isStorable_ofStrings (id text : Bytes) : (ofStrings id text).IsStorable := by
  unfold ofStrings
  split
  case h_1 => trivial
  case h_2 => trivial
  case h_3 =>
    split
    case h_1 => trivial
    case h_2 h => exact storable_strings h

theorem isStorable_readAll (data : Bytes) (rows : List (Row × Row)) :
    ∀ item ∈ (readAll data rows).1, item.IsStorable := by
  induction rows
  case nil => simp [readAll]
  case cons row rows ih =>
    rw [readAll_cons]
    cases Row.firstFault data (Row.present row.1 row.2)
    case some => simp
    case none => exact List.forall_mem_cons.mpr ⟨isStorable_ofStrings _ _, ih⟩

end Item

namespace Content

-- All messages can be held.
def IsStorable (c : Content) : Prop :=
  ∀ id variants, c.messages[id]? = some variants → Storable id variants

theorem isStorable_add {c : Content} {item : Item} (h : c.IsStorable) (hi : item.IsStorable) :
    (c.add item).IsStorable := by
  cases item
  case textless  => exact h
  case anonymous => exact h
  case header text =>
    rw [add]
    split <;> exact h
  case message key texts =>
    intro id variants hv
    rw [add, Std.ExtTreeMap.getElem?_insert] at hv
    split at hv
    case isTrue hk =>
      cases hv
      exact Std.LawfulEqOrd.eq_of_compare hk ▸ hi
    case isFalse => exact h id variants hv

theorem isStorable_foldl {items : List Item} (h : ∀ item ∈ items, item.IsStorable) {c : Content}
    (hc : c.IsStorable) : (items.foldl add c).IsStorable := by
  induction items generalizing c
  case nil => exact hc
  case cons item items ih =>
    rw [List.forall_mem_cons] at h
    exact ih h.right (isStorable_add hc h.left)

theorem isStorable_ofItems {items : List Item} (h : ∀ item ∈ items, item.IsStorable) :
    (ofItems items).IsStorable :=
  isStorable_foldl h fun id variants hv => by simp at hv

end Content

theorem isStorable_decode {data : Bytes} {c : Content} (h : decode data = .ok c) :
    c.IsStorable := by
  rw [decode, Reading.ofBytes] at h
  split at h
  case h_1 => cases h
  case h_2 header _ =>
    split at h
    case h_1 => cases h
    case h_2 rows _ =>
      have hi := Item.isStorable_readAll data rows
      cases hr : Item.readAll data rows
      case mk items e =>
        simp only [hr] at h hi
        cases e
        case some => cases h
        case none =>
          cases h
          exact Content.isStorable_ofItems hi

end ObjectFile

end MessageCatalog
