import MessageCatalog.Proofs.ObjectFile.Encoding

namespace MessageCatalog.ObjectFile

open Outcome

namespace Row

variable {row row' : Row} {data data' : Bytes}

-- What stands in a part of a row is known from the row.
theorem bytes_of_within (h : row.offset ≤ row'.offset)
    (h' : row'.offset + row'.length ≤ row.offset + row.length) (data : Bytes) :
    row'.bytes data =
      bytes { length := row'.length, offset := row'.offset - row.offset } (row.bytes data) := by
  have ho : row.offset + (row'.offset - row.offset) = row'.offset := by omega
  have hl : min row'.length (row.length - (row'.offset - row.offset)) = row'.length := by omega
  simp only [bytes, List.drop_take, List.take_take, List.drop_drop, ho, hl]

theorem bytes_append (h : row.offset + row.length ≤ data.length) (rest : Bytes) :
    row.bytes (data ++ rest) = row.bytes data := by
  rw [bytes, bytes, List.drop_append_of_le_length (by omega),
    List.take_append_of_le_length (by rw [List.length_drop]; omega)]

theorem bytes_of_length_eq_zero (h : row.length = 0) (data : Bytes) : row.bytes data = [] := by
  rw [bytes, h, List.take_zero]

-- A row that is not empty lies in the data if its bytes do.
theorem inside_of_bytes_eq (h : row'.bytes data' = row'.bytes data) (hl : row'.length ≠ 0)
    (hi : row'.offset + row'.length ≤ data.length) :
    row'.offset + row'.length ≤ data'.length := by
  have h := congrArg List.length h
  simp only [bytes, List.length_take, List.length_drop] at h
  omega

end Row

-- The rows that are read for an entry of a table.
def entryFootprint (order : ByteOrder) (data : Bytes) (table index : Nat) : List Row :=
  let row := rowAt order data table index
  { length := 4, offset := table + 8 * index } ::
    if row.length = 0 then [] else [{ length := 4, offset := table + 8 * index + 4 }, row]

-- The rows that are read.
def Header.footprint (h : Header) (data : Bytes) : List Row :=
  { length := 20, offset := 0 } ::
    (List.range h.count).flatMap fun i =>
      entryFootprint h.order data h.ids i ++ entryFootprint h.order data h.texts i

section Entries

variable {order : ByteOrder} {data data' : Bytes} {table index : Nat}

theorem wordAt_of_bytes_eq {offset : Nat} (order : ByteOrder)
    (h : Row.bytes { length := 4, offset } data' = Row.bytes { length := 4, offset } data) :
    wordAt order data' offset = wordAt order data offset :=
  congrArg order.number h

variable (same : ∀ row ∈ entryFootprint order data table index, row.bytes data' = row.bytes data)
include same

theorem length_rowAt :
    (rowAt order data' table index).length = (rowAt order data table index).length :=
  wordAt_of_bytes_eq order (same _ (.head _))

theorem rowAt_eq (hl : (rowAt order data table index).length ≠ 0) :
    rowAt order data' table index = rowAt order data table index := by
  have hm : { length := 4, offset := table + 8 * index + 4 } ∈
      entryFootprint order data table index := by
    simp only [entryFootprint, if_neg hl]
    exact .tail _ (.head _)
  have ho : (rowAt order data' table index).offset = (rowAt order data table index).offset :=
    wordAt_of_bytes_eq order (same _ hm)
  have hl := length_rowAt same
  cases hr : rowAt order data table index
  cases hr' : rowAt order data' table index
  simp_all

theorem bytes_rowAt :
    (rowAt order data' table index).bytes data' = (rowAt order data table index).bytes data := by
  by_cases hl : (rowAt order data table index).length = 0
  case pos =>
    rw [Row.bytes_of_length_eq_zero hl, Row.bytes_of_length_eq_zero ((length_rowAt same).trans hl)]
  case neg =>
    rw [rowAt_eq same hl]
    refine same _ ?_
    simp only [entryFootprint, if_neg hl]
    exact .tail _ (.tail _ (.head _))

theorem filter_rowAt :
    [rowAt order data' table index].filter (·.length ≠ 0) =
      [rowAt order data table index].filter (·.length ≠ 0) := by
  by_cases hl : (rowAt order data table index).length = 0
  case pos =>
    have hl' := (length_rowAt same).trans hl
    simp [hl, hl']
  case neg => rw [rowAt_eq same hl]

end Entries

namespace Header

variable {h : Header} {data data' : Bytes}

theorem mem_footprint {i : Nat} (hi : i < h.count) {row : Row}
    (hr : row ∈ entryFootprint h.order data h.ids i ∨ row ∈ entryFootprint h.order data h.texts i) :
    row ∈ h.footprint data :=
  .tail _ (List.mem_flatMap.mpr ⟨i, List.mem_range.mpr hi, List.mem_append.mpr hr⟩)

-- A string that is looked at is read.
theorem mem_footprint_of_mem_stringRows {row : Row} (hr : row ∈ h.stringRows data) :
    row ∈ h.footprint data := by
  have ⟨i, hi, hl, hr⟩ := mem_stringRows.mp hr
  refine mem_footprint hi (hr.imp ?_ ?_)
  all_goals
    rintro rfl
    unfold entryFootprint
    exact .tail _ ((if_neg hl).symm ▸ .tail _ (.head _))

-- The header is read from the start of a file.
theorem read_of_start (hs : Row.bytes { length := 20, offset := 0 } data' =
    Row.bytes { length := 20, offset := 0 } data) (hr : read data = .ok h) :
    read data' = .ok h := by
  have ⟨hl, order, ho, hv, hh⟩ := read_eq_ok_iff.mp hr
  have hw (order : ByteOrder) (offset : Nat) (hi : offset + 4 ≤ 20) :
      wordAt order data' offset = wordAt order data offset := by
    have hb := @Row.bytes_of_within { length := 20, offset := 0 } { length := 4, offset }
      (Nat.zero_le _) (by simpa using hi)
    exact wordAt_of_bytes_eq order (by rw [hb, hs, ← hb])
  have ho' : orderOf data' = orderOf data := by
    rw [orderOf, orderOf, hw .little 0 (by decide)]
  refine read_eq_ok_iff.mpr ⟨?_, order, ho' ▸ ho, (hw order 4 (by decide)).trans hv, ?_⟩
  · have hi := Row.inside_of_bytes_eq hs (by decide) (by simpa using hl)
    simpa using hi
  · rw [← hh, find, find, hw order 8 (by decide), hw order 12 (by decide), hw order 16 (by decide)]

section Agreeing

variable (same : ∀ row ∈ h.footprint data, row.bytes data' = row.bytes data)
include same

theorem stringRows_of_footprint : h.stringRows data' = h.stringRows data := by
  rw [stringRows, stringRows, List.flatMap_def, List.flatMap_def]
  refine congrArg _ (List.map_congr_left fun i hi => ?_)
  have hi := List.mem_range.mp hi
  have hid := filter_rowAt fun row hr => same row (mem_footprint hi (.inl hr))
  have htext := filter_rowAt fun row hr => same row (mem_footprint hi (.inr hr))
  exact (List.filter_append [_] [_]).trans
    ((congrArg₂ _ hid htext).trans (List.filter_append [_] [_]).symm)

theorem find_of_footprint : Content.find h data' = Content.find h data := by
  refine List.foldl_ext _ _ _ fun c i hi => ?_
  have hi := List.mem_range.mp hi
  have hid := bytes_rowAt fun row hr => same row (mem_footprint hi (.inl hr))
  have htext := bytes_rowAt fun row hr => same row (mem_footprint hi (.inr hr))
  rw [idAt, textAt, hid, htext]
  rfl

end Agreeing

end Header

variable {h : Header} {data data' : Bytes} {c : Content}

-- The tables are only asked for where they lie, since the words in them that are not read may
-- differ.
theorem decode_eq_ok_of_footprint (hd : decode data = .ok c) (hr : Header.read data = .ok h)
    (same : ∀ row ∈ h.footprint data, row.bytes data' = row.bytes data)
    (tables : ∀ row ∈ h.tableRows, row.offset + row.length ≤ data'.length) :
    decode data' = .ok c := by
  have ⟨h', hr', hi, hc⟩ := decode_eq_ok_iff.mp hd
  cases hr.symm.trans hr'
  refine decode_eq_ok_iff.mpr ⟨h, Header.read_of_start (same _ (.head _)) hr, ?_, ?_⟩
  · rw [Header.stringRows_of_footprint same]
    intro row hm
    cases List.mem_append.mp hm
    case inl hm => exact tables row hm
    case inr hm' =>
      have ⟨_, _, hl, _⟩ := Header.mem_stringRows.mp hm'
      exact Row.inside_of_bytes_eq (same row (Header.mem_footprint_of_mem_stringRows hm')) hl
        (hi row hm)
  · rw [Header.find_of_footprint same, hc]

theorem decode_of_footprint (hd : decode data = .ok c) :
    ∃ h, Header.read data = .ok h ∧
      ∀ data', (∀ row ∈ h.footprint data, row.bytes data' = row.bytes data) →
        (∀ row ∈ h.tableRows, row.offset + row.length ≤ data'.length) → decode data' = .ok c := by
  have ⟨h, hr, _⟩ := decode_eq_ok_iff.mp hd
  exact ⟨h, hr, fun _ same tables => decode_eq_ok_of_footprint hd hr same tables⟩

-- Other words for the hash table and for the offset of an empty id, and bytes behind the end.
theorem decode_of_footprint_changed :
    ∃ data c, data = encode .little [([], [65]), ([97], [98])] ∧ decode data = .ok c ∧
      decode (data.take 20 ++ List.replicate 8 255 ++ (data.drop 28).take 4 ++
        List.replicate 4 255 ++ data.drop 36 ++ [1, 2, 3]) = .ok c := by
  have hf : Encoding.Fits [([], [65]), ([97], [98])] := ⟨by decide, by decide⟩
  have hd := decode_encode_eq hf .little
  have ⟨h, hr, hall⟩ := decode_of_footprint hd
  cases hr.symm.trans (readHeader_encode hf .little)
  exact ⟨_, _, rfl, hd, hall _ (by decide) (by decide)⟩

section Cutting

theorem entryFootprint_inside {order : ByteOrder} {table count index : Nat} (hi : index < count)
    (ht : table + 8 * count ≤ data.length)
    (hs : (rowAt order data table index).length ≠ 0 →
      (rowAt order data table index).offset + (rowAt order data table index).length ≤ data.length) :
    ∀ row ∈ entryFootprint order data table index, row.offset + row.length ≤ data.length := by
  intro row hm
  unfold entryFootprint at hm
  cases hm
  case head => simp only; omega
  case tail hm =>
    split at hm
    case isTrue => cases hm
    case isFalse hl =>
      cases hm
      case head => simp only; omega
      case tail hm => exact List.mem_singleton.mp hm ▸ hs hl

-- What is read of a file that decodes lies in it.
theorem footprint_inside (hd : decode data = .ok c) (hr : Header.read data = .ok h) :
    ∀ row ∈ h.footprint data, row.offset + row.length ≤ data.length := by
  obtain ⟨h', hr', hi, _⟩ := decode_eq_ok_iff.mp hd
  cases hr.symm.trans hr'
  rw [List.forall_mem_append] at hi
  obtain ⟨ht, hs⟩ := hi
  simp only [Header.tableRows, List.forall_mem_cons] at ht
  intro row hm
  cases hm
  case head => simpa using (Header.read_eq_ok_iff.mp hr).left
  case tail hm =>
    obtain ⟨i, hi, hm⟩ := List.mem_flatMap.mp hm
    have hi := List.mem_range.mp hi
    cases List.mem_append.mp hm
    case inl hm =>
      refine entryFootprint_inside hi ht.left (fun hl => hs _ ?_) row hm
      exact Header.mem_stringRows.mpr ⟨i, hi, hl, .inl rfl⟩
    case inr hm =>
      refine entryFootprint_inside hi ht.right.left (fun hl => hs _ ?_) row hm
      exact Header.mem_stringRows.mpr ⟨i, hi, hl, .inr rfl⟩

theorem decode_append (hd : decode data = .ok c) (rest : Bytes) :
    decode (data ++ rest) = .ok c := by
  have ⟨h, hr, hi, _⟩ := decode_eq_ok_iff.mp hd
  refine decode_eq_ok_of_footprint hd hr (fun row hm => ?_) fun row hm => ?_
  · exact Row.bytes_append (footprint_inside hd hr row hm) rest
  · have := hi row (List.mem_append_left _ hm)
    rw [List.length_append]
    omega

-- Behind the first words, nothing but the end of the data is in the way.
theorem decode_of_order {order : ByteOrder} (hl : 10 ≤ data.length)
    (ho : orderOf data = some order) (hv : wordAt order data 4 = 0) :
    (∃ c, decode data = .ok c) ∨ ∃ e, decode data = .error (.truncated e) := by
  have hr := Header.read_eq data
  simp only [if_neg (Nat.not_lt.mpr hl), ho, hv, ne_eq, not_true, if_false] at hr
  cases hw : Row.firstFault data Header.wordRows
  case some e =>
    rw [hw] at hr
    exact .inr ⟨e, decode_of_error hr⟩
  case none =>
    rw [hw] at hr
    have hd := decode_of_ok hr (Header.count_le order data)
    cases hf : Row.firstFault data _
    case some e => exact .inr ⟨e, by rw [hd, hf]; rfl⟩
    case none   => exact .inl ⟨_, by rw [hd, hf]; rfl⟩

theorem decode_cut (data rest : Bytes) (c : Content) :
    (decode data = .ok c → decode (data ++ rest) = .ok c) ∧
    (decode (data ++ rest) = .ok c →
      decode data = .ok c ∨
      data.length < 10 ∧ decode data = .error (.tooShort data.length) ∨
      10 ≤ data.length ∧ ∃ e, decode data = .error (.truncated e)) := by
  refine ⟨(decode_append · rest), fun hd => ?_⟩
  by_cases hl : data.length < 10
  case pos => exact .inr (.inl ⟨hl, decode_of_error (by rw [Header.read_eq, if_pos hl])⟩)
  case neg =>
    obtain ⟨_, hr, _⟩ := decode_eq_ok_iff.mp hd
    obtain ⟨_, order, ho, hv, _⟩ := Header.read_eq_ok_iff.mp hr
    have hw (order : ByteOrder) (offset : Nat) (hi : offset + 4 ≤ data.length) :
        wordAt order (data ++ rest) offset = wordAt order data offset :=
      wordAt_of_bytes_eq order (Row.bytes_append hi rest)
    rw [orderOf, hw .little 0 (by omega), ← orderOf] at ho
    rw [hw order 4 (by omega)] at hv
    cases decode_of_order (Nat.le_of_not_lt hl) ho hv
    case inr h => exact .inr (.inr ⟨Nat.le_of_not_lt hl, h⟩)
    case inl h =>
      obtain ⟨c', hc⟩ := h
      cases (decode_append hc rest).symm.trans hd
      exact .inl hc

-- A file that is cut off in the table of its texts, and one that goes on.
theorem decode_cut_tables :
    ∃ data c, data = encode .big [([97], [98])] ∧ decode data = .ok c ∧
      decode (data ++ [0]) = .ok c ∧
      (decode (data.take 40) = .ok c ∨
        (data.take 40).length < 10 ∧
          decode (data.take 40) = .error (.tooShort (data.take 40).length) ∨
        10 ≤ (data.take 40).length ∧ ∃ e, decode (data.take 40) = .error (.truncated e)) := by
  have hf : Encoding.Fits [([97], [98])] := ⟨by decide, by decide⟩
  have hd := decode_encode_eq hf .big
  have hs := List.take_append_drop 40 (encode .big [([97], [98])])
  exact ⟨_, _, rfl, hd, (decode_cut _ [0] _).left hd, (decode_cut _ _ _).right (hs.symm ▸ hd)⟩

end Cutting

end MessageCatalog.ObjectFile
