import MessageCatalog.Proofs.ObjectFile.Encoding

namespace MessageCatalog.ObjectFile

open Outcome

-- A report about a row, of data of some length: the offset is behind the end, or too few bytes
-- follow.
inductive Row.Missing (row : Row) (length : Nat) : ReadError → Prop
  | offset (behind : length < row.offset) :
      Missing row length { offset := row.offset, needed := 0, available := 0 }
  | bytes (inside : row.offset ≤ length) (few : length - row.offset < row.length) :
      Missing row length
        { offset := row.offset, needed := row.length, available := length - row.offset }

-- The rows that decoding looks for.
inductive Row.Sought (data : Bytes) : Row → Prop
  | word {row : Row} (mem : row ∈ Header.wordRows) : Sought data row
  | table {h : Header} {row : Row} (read : Header.read data = .ok h) (mem : row ∈ h.tableRows) :
      Sought data row
  | string {h : Header} {row : Row} (read : Header.read data = .ok h)
      (tables : ∀ table ∈ h.tableRows, table.offset + table.length ≤ data.length)
      (mem : row ∈ h.stringRows data) : Sought data row

namespace Row

variable {row : Row} {data : Bytes} {e : ReadError}

theorem missing_of_fault? (h : row.fault? data = some e) : row.Missing data.length e := by
  unfold fault? at h
  split at h
  case isTrue hb =>
    cases h
    exact .offset hb
  case isFalse hb =>
    split at h
    case isTrue hf =>
      cases h
      exact .bytes (Nat.le_of_not_lt hb) (by omega)
    case isFalse => cases h

theorem exists_fault?_of_firstFault {rows : List Row} (h : firstFault data rows = some e) :
    ∃ row ∈ rows, row.fault? data = some e :=
  List.exists_of_findSome?_eq_some h

namespace Missing

variable {length : Nat}

theorem offset_eq (h : row.Missing length e) : e.offset = row.offset := by
  cases h <;> rfl

-- What is there and what was needed.
theorem counts (h : row.Missing length e) :
    length < e.offset ∧ e.needed = 0 ∧ e.available = 0 ∨
      e.offset ≤ length ∧ e.available = length - e.offset ∧ e.available < e.needed := by
  cases h
  case offset hb   => exact .inl ⟨hb, rfl, rfl⟩
  case bytes hi hf => exact .inr ⟨hi, rfl, hf⟩

theorem lt_end (h : row.Missing length e) : length < e.offset + e.needed := by
  cases h
  case offset hb   => exact hb
  case bytes hi hf => simp only; omega

end Missing

end Row

variable {data : Bytes} {e : ReadError}

theorem Header.read_eq_truncated (h : Header.read data = .error (.truncated e)) :
    ∃ row ∈ Header.wordRows, row.fault? data = some e := by
  rw [Header.read_eq] at h
  split at h
  case isTrue => cases h
  case isFalse =>
    split at h
    case h_1 => cases h
    case h_2 order _ =>
      split at h
      case isTrue => cases h
      case isFalse =>
        cases hf : Row.firstFault data Header.wordRows
        case none =>
          rw [hf] at h
          cases h
        case some e' =>
          rw [hf] at h
          cases h
          exact Row.exists_fault?_of_firstFault hf

-- The report is about the first row that was looked for and is not there.
theorem exists_sought_of_decode (h : decode data = .error (.truncated e)) :
    ∃ row, Row.Sought data row ∧ row.Missing data.length e := by
  cases hr : Header.read data
  case error e' =>
    cases (decode_of_error hr).symm.trans h
    have ⟨row, hm, hf⟩ := Header.read_eq_truncated hr
    exact ⟨row, .word hm, Row.missing_of_fault? hf⟩
  case ok hd =>
    obtain ⟨_, order, _, _, hh⟩ := Header.read_eq_ok_iff.mp hr
    rw [decode_of_ok hr (hh ▸ Header.count_le order data), Row.firstFault_append] at h
    cases ht : Row.firstFault data hd.tableRows
    case some e' =>
      rw [ht] at h
      cases h
      have ⟨row, hm, hf⟩ := Row.exists_fault?_of_firstFault ht
      exact ⟨row, .table hr hm, Row.missing_of_fault? hf⟩
    case none =>
      rw [ht, Option.none_or] at h
      cases hs : Row.firstFault data (hd.stringRows data)
      case none =>
        rw [hs] at h
        cases h
      case some e' =>
        rw [hs] at h
        cases h
        have ⟨row, hm, hf⟩ := Row.exists_fault?_of_firstFault hs
        exact ⟨row, .string hr (Row.firstFault_eq_none.mp ht) hm, Row.missing_of_fault? hf⟩

theorem decode_eq_truncated (h : decode data = .error (.truncated e)) :
    (data.length < e.offset ∧ e.needed = 0 ∧ e.available = 0 ∨
      e.offset ≤ data.length ∧ e.available = data.length - e.offset ∧ e.available < e.needed) ∧
    (∀ rest, e.offset + e.needed ≤ (data ++ rest).length →
      ∀ e', decode (data ++ rest) = .error (.truncated e') →
        ¬(e'.offset = e.offset ∧ e'.needed = e.needed)) ∧
    (e.offset ∈ [8, 12, 16] ∨ ∃ hd, Header.read data = .ok hd ∧
      (e.offset = hd.ids ∨ e.offset = hd.texts ∨
        (∀ table ∈ hd.tableRows, table.offset + table.length ≤ data.length) ∧
          ∃ i < hd.count, ∃ row ∈ [hd.idAt data i, hd.textAt data i],
            row.length ≠ 0 ∧ e.offset = row.offset)) := by
  obtain ⟨row, hs, hm⟩ := exists_sought_of_decode h
  refine ⟨hm.counts, fun rest hl e' h' => ?later, ?place⟩
  case later =>
    rintro ⟨ho, hn⟩
    obtain ⟨_, _, hm'⟩ := exists_sought_of_decode h'
    have := hm'.lt_end
    omega
  case place =>
    rw [hm.offset_eq]
    cases hs
    case word hw =>
      have ho : ∀ row ∈ Header.wordRows, row.offset ∈ [8, 12, 16] := by decide
      exact .inl (ho row hw)
    case table hd hr ht =>
      simp only [Header.tableRows, List.mem_cons, List.not_mem_nil, or_false] at ht
      refine .inr ⟨hd, hr, ?_⟩
      cases ht
      case inl ht => exact .inl (congrArg Row.offset ht)
      case inr ht => exact .inr (.inl (congrArg Row.offset ht))
    case string hd hr ht hs =>
      obtain ⟨i, hi, hl, hrow⟩ := Header.mem_stringRows.mp hs
      exact .inr ⟨hd, hr, .inr (.inr ⟨ht, i, hi, row, by simpa using hrow, hl, rfl⟩)⟩

-- A file that is cut off in front of its first text, and then behind that text.
theorem decode_eq_truncated_texts :
    ∃ data e e', data = (encode .little [([97], [98]), ([99], [100])]).take 64 ∧
      decode data = .error (.truncated e) ∧ e.needed = 1 ∧
      (data.length < e.offset ∧ e.needed = 0 ∧ e.available = 0 ∨
        e.offset ≤ data.length ∧ e.available = data.length - e.offset ∧ e.available < e.needed) ∧
      decode (data ++ [98, 0]) = .error (.truncated e') ∧
      e.offset + e.needed ≤ (data ++ [98, 0]).length ∧
      ¬(e'.offset = e.offset ∧ e'.needed = e.needed) ∧
      (e.offset ∈ [8, 12, 16] ∨ ∃ hd, Header.read data = .ok hd ∧
        (e.offset = hd.ids ∨ e.offset = hd.texts ∨
          (∀ table ∈ hd.tableRows, table.offset + table.length ≤ data.length) ∧
            ∃ i < hd.count, ∃ row ∈ [hd.idAt data i, hd.textAt data i],
              row.length ≠ 0 ∧ e.offset = row.offset)) := by
  have h : decode ((encode .little [([97], [98]), ([99], [100])]).take 64) =
      .error (.truncated ⟨64, 1, 0⟩) := by decide
  have h' : decode ((encode .little [([97], [98]), ([99], [100])]).take 64 ++ [98, 0]) =
      .error (.truncated ⟨66, 1, 0⟩) := by decide
  obtain ⟨hc, hl, hp⟩ := decode_eq_truncated h
  exact ⟨_, _, _, rfl, h, rfl, hc, h', by decide, hl _ (by decide) _ h', hp⟩

end MessageCatalog.ObjectFile
