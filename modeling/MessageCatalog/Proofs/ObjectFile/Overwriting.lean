import MessageCatalog.Proofs.ObjectFile.Encoding

namespace MessageCatalog.ObjectFile.Row

variable {row row' : Row} {data bs : Bytes} {place : Nat}

-- A row takes up a place.
def Covers (row : Row) (place : Nat) : Prop :=
  row.offset ≤ place ∧ place < row.offset + row.length

-- Rows have a place in common. A row that is empty takes up none.
def Overlaps (row row' : Row) : Prop :=
  ∃ place, row.Covers place ∧ row'.Covers place

theorem Overlaps.symm : row.Overlaps row' → row'.Overlaps row
  | ⟨place, h, h'⟩ => ⟨place, h', h⟩

-- The last start is in front of the first end.
theorem overlaps_iff :
    row.Overlaps row' ↔
      max row.offset row'.offset < min (row.offset + row.length) (row'.offset + row'.length) := by
  simp only [Overlaps, Covers]
  constructor
  · rintro ⟨place, h, h'⟩
    omega
  · exact fun h => ⟨max row.offset row'.offset, by omega, by omega⟩

instance : Decidable (row.Overlaps row') :=
  decidable_of_iff' _ overlaps_iff

theorem getElem?_bytes (row : Row) (data : Bytes) (i : Nat) :
    (row.bytes data)[i]? = if i < row.length then data[row.offset + i]? else none := by
  rw [bytes, List.getElem?_take, List.getElem?_drop]

def overwrite (row : Row) (bs data : Bytes) : Bytes :=
  data.take row.offset ++ (bs ++ data.drop (row.offset + row.length))

section Overwriting

variable (hi : row.offset + row.length ≤ data.length) (hl : bs.length = row.length)
include hi hl

theorem length_overwrite : (row.overwrite bs data).length = data.length := by
  simp only [overwrite, List.length_append, List.length_take, List.length_drop]
  omega

theorem bytes_updated : row.bytes (row.overwrite bs data) = bs := by
  have h := holds_append (data.take row.offset) bs (data.drop (row.offset + row.length))
  rw [List.length_take_of_le (by omega), hl] at h
  exact h.bytes

theorem getElem?_preserved (h : ¬row.Covers place) :
    (row.overwrite bs data)[place]? = data[place]? := by
  have ht : (data.take row.offset).length = row.offset := List.length_take_of_le (by omega)
  by_cases hp : place < row.offset
  case pos => rw [overwrite, List.getElem?_append_left (by omega), List.getElem?_take, if_pos hp]
  case neg =>
    have hb : row.offset + row.length ≤ place := by
      simp only [Covers] at h
      omega
    rw [overwrite, List.getElem?_append_right (by omega), List.getElem?_append_right (by omega),
      List.getElem?_drop]
    congr 1
    omega

theorem bytes_preserved (h : ¬row.Overlaps row') :
    row'.bytes (row.overwrite bs data) = row'.bytes data := by
  refine List.ext_getElem? fun i => ?_
  rw [getElem?_bytes, getElem?_bytes]
  by_cases hr : i < row'.length
  case pos =>
    rw [if_pos hr, if_pos hr, getElem?_preserved hi hl]
    exact fun hc => h ⟨_, hc, by simp only [Covers]; omega⟩
  case neg => rw [if_neg hr, if_neg hr]

end Overwriting

end MessageCatalog.ObjectFile.Row
