import MessageCatalog.Proofs.ObjectFile.Footprint
import MessageCatalog.Proofs.ObjectFile.Overwriting

namespace MessageCatalog.ObjectFile

open Text

-- What satisfies a condition stands in the same order in both lists, if the first keeps its order.
theorem filter_eq_filter_range {order : List Nat} {n : Nat} {p : Nat → Bool}
    (hp : order.Perm (List.range n)) (h : order.Pairwise fun i j => p i → p j → i < j) :
    order.filter p = (List.range n).filter p := by
  have hl : (order.filter p).Pairwise (· < ·) := List.pairwise_filter.mpr h
  have hr : ((List.range n).filter p).Pairwise (· < ·) := List.pairwise_lt_range.filter p
  exact (hp.filter p).eq_of_pairwise' hl hr

namespace Content

-- The headers have an order, and so do the entries of each key.
theorem ofPairs_eq {pairs pairs' : List (Bytes × Bytes)} (hh : headers pairs = headers pairs')
    (he : ∀ key, (entries pairs).filter (·.1 == key) = (entries pairs').filter (·.1 == key)) :
    ofPairs pairs = ofPairs pairs' := by
  have hm : (ofPairs pairs).messages = (ofPairs pairs').messages := by
    refine Std.ExtTreeMap.ext_getElem? fun key => ?_
    rw [getElem?_ofPairs, getElem?_ofPairs, ← lookup_filter, List.filter_reverse, he,
      ← List.filter_reverse, lookup_filter]
  have hh : (ofPairs pairs).header = (ofPairs pairs').header := by
    rw [header_ofPairs, header_ofPairs, hh]
  cases hc : ofPairs pairs
  cases hc' : ofPairs pairs'
  rw [hc, hc'] at hm hh
  exact congrArg₂ Content.mk hm hh

variable {α : Type} (f : α → Bytes × Bytes)

theorem headers_map (l : List α) :
    headers (l.map f) = (l.filter fun a => isHeader (f a)).map fun a => Utf8.decode (f a).2 := by
  simp only [headers, List.filter_map, List.map_map, Function.comp_def]

theorem filter_entries_map (l : List α) (key : String) :
    (entries (l.map f)).filter (·.1 == key) =
      (l.filter fun a => isEntry (f a) && (entry (f a)).1 == key).map fun a => entry (f a) := by
  simp only [entries, List.filter_map, List.map_map, List.filter_filter, Function.comp_def,
    Bool.and_comm]

theorem key_ne_empty {pair : Bytes × Bytes} (h : isEntry pair) : (entry pair).1 ≠ "" := by
  have ⟨_, hi, hz⟩ := of_decide_eq_true h
  rw [entry, ne_eq, Utf8.decode_eq_empty]
  cases hp : pair.1
  case nil => exact absurd hp hi
  case cons b bs =>
    rw [hp, List.head?_cons, ne_eq, Option.some_inj] at hz
    simp [hz]

end Content

namespace Header

-- An entry of a table.
def entryRow (table index : Nat) : Row where
  length := 8
  offset := table + 8 * index

-- The entries of a table, in an order of the messages.
def arranged (data : Bytes) (order : List Nat) (table : Nat) : Bytes :=
  order.flatMap fun i => (entryRow table i).bytes data

variable (h : Header) (data : Bytes)

def tableRow (table : Nat) : Row where
  length := 8 * h.count
  offset := table

-- The file whose tables list the messages in an order.
def arrange (order : List Nat) : Bytes :=
  (h.tableRow h.texts).overwrite (arranged data order h.texts)
    ((h.tableRow h.ids).overwrite (arranged data order h.ids) data)

-- The tables take up no place of the header, of each other, or of a string.
structure Apart : Prop where
  header  : ∀ table ∈ h.tableRows, ¬table.Overlaps { length := 20, offset := 0 }
  tables  : h.tableRows.Pairwise fun table table' => ¬table.Overlaps table'
  strings : ∀ table ∈ h.tableRows, ∀ row ∈ h.stringRows data, ¬table.Overlaps row

-- What the id of a message is decoded to, which ends at a NUL.
def keyAt (index : Nat) : String :=
  Utf8.decode (((h.idAt data index).bytes data).takeWhile (· ≠ 0))

-- The order of two messages counts.
@[mk_iff]
inductive Tied (i j : Nat) : Prop
  | headers (hi : (h.idAt data i).length = 0) (hj : (h.idAt data j).length = 0)
  | messages (hk : h.keyAt data i ≠ "") (he : h.keyAt data i = h.keyAt data j)

instance (i j : Nat) : Decidable (h.Tied data i j) :=
  decidable_of_iff' _ (h.tied_iff data i j)

-- An order of all messages, in which those whose order counts stand as they do in the tables.
structure Keeps (order : List Nat) : Prop where
  perm : order.Perm (List.range h.count)
  tied : order.Pairwise fun i j => h.Tied data i j → i < j

section Arranging

variable {h data} {order : List Nat} {table : Nat}

theorem pair_words_append (order : ByteOrder) {entry : Bytes} (h : entry.length = 8) (bs : Bytes) :
    pair (order.words (entry ++ bs)) = pair (order.words entry) ++ pair (order.words bs) := by
  match entry, h with
  | [_, _, _, _, _, _, _, _], _ => rfl

variable (hp : order.Perm (List.range h.count))
include hp

section Tables

variable (hi : table + 8 * h.count ≤ data.length)
include hi

theorem entryRow_inside : ∀ i ∈ order, table + 8 * i + 8 ≤ data.length := by
  intro i hm
  have hm := List.mem_range.mp (hp.mem_iff.mp hm)
  omega

theorem length_entryRow : ∀ i ∈ order, ((entryRow table i).bytes data).length = 8 := by
  intro i hm
  have hm := entryRow_inside hp hi i hm
  simp only [Row.bytes, entryRow, List.length_take, List.length_drop]
  omega

theorem length_arranged : (arranged data order table).length = 8 * h.count := by
  rw [arranged, List.length_flatMap, List.map_congr_left (length_entryRow hp hi), List.map_const',
    List.sum_replicate_nat, hp.length_eq, List.length_range, Nat.mul_comm]

theorem pair_words_arranged (byteOrder : ByteOrder) :
    pair (byteOrder.words (arranged data order table)) =
      order.map (rowAt byteOrder data table) := by
  have hl := length_entryRow hp hi
  have hw := entryRow_inside hp hi
  clear hp
  induction order
  case nil => rfl
  case cons i order ih =>
    have he := @pair_words data byteOrder (table + 8 * i) 1 (hw i List.mem_cons_self)
    rw [List.forall_mem_cons] at hl hw
    rw [arranged, List.flatMap_cons, pair_words_append byteOrder hl.left, ← arranged,
      ih hl.right hw.right]
    exact congrArg (· ++ _) he

-- A table that holds its entries in an order lists their rows in it.
theorem map_rowAt_of_arranged {data' : Bytes} (hl : data'.length = data.length)
    (hb : (h.tableRow table).bytes data' = arranged data order table) :
    (List.range h.count).map (rowAt h.order data' table) =
      order.map (rowAt h.order data table) :=
  calc
    _ = pair (h.order.words ((h.tableRow table).bytes data')) :=
      (pair_words h.order (hl.symm ▸ hi)).symm
    _ = pair (h.order.words (arranged data order table))      := by rw [hb]
    _ = _                                                     := pair_words_arranged hp hi h.order

end Tables

section Files

variable (hid : h.ids + 8 * h.count ≤ data.length) (htext : h.texts + 8 * h.count ≤ data.length)
include hid htext

theorem texts_inside :
    (h.tableRow h.texts).offset + (h.tableRow h.texts).length ≤
      ((h.tableRow h.ids).overwrite (arranged data order h.ids) data).length := by
  rw [Row.length_overwrite hid (length_arranged hp hid)]
  exact htext

theorem length_arrange : (h.arrange data order).length = data.length := by
  rw [arrange, Row.length_overwrite (texts_inside hp hid htext) (length_arranged hp htext),
    Row.length_overwrite hid (length_arranged hp hid)]

-- What the tables do not take up stays as it is.
theorem bytes_arrange {row : Row} (hr : ∀ table ∈ h.tableRows, ¬table.Overlaps row) :
    row.bytes (h.arrange data order) = row.bytes data := by
  rw [arrange, Row.bytes_preserved (texts_inside hp hid htext) (length_arranged hp htext),
    Row.bytes_preserved hid (length_arranged hp hid)]
  · exact hr _ (.head _)
  · exact hr _ (.tail _ (.head _))

theorem bytes_arrange_texts :
    (h.tableRow h.texts).bytes (h.arrange data order) = arranged data order h.texts := by
  rw [arrange, Row.bytes_updated (texts_inside hp hid htext) (length_arranged hp htext)]

variable (ha : h.Apart data)
include ha

theorem bytes_arrange_ids :
    (h.tableRow h.ids).bytes (h.arrange data order) = arranged data order h.ids := by
  have ht : ¬(h.tableRow h.ids).Overlaps (h.tableRow h.texts) :=
    List.rel_of_pairwise_cons ha.tables (.head _)
  rw [arrange, Row.bytes_preserved (texts_inside hp hid htext) (length_arranged hp htext)
    (ht ·.symm), Row.bytes_updated hid (length_arranged hp hid)]

-- The tables list the messages in the order.
theorem map_rowAt_arrange :
    (List.range h.count).map (fun i =>
      (h.idAt (h.arrange data order) i, h.textAt (h.arrange data order) i)) =
      order.map fun i => (h.idAt data i, h.textAt data i) := by
  have hl := length_arrange hp hid htext
  have hi := map_rowAt_of_arranged hp hid hl (bytes_arrange_ids hp hid htext ha)
  have ht := map_rowAt_of_arranged hp htext hl (bytes_arrange_texts hp hid htext)
  exact (List.zip_map' ..).symm.trans ((congrArg₂ List.zip hi ht).trans (List.zip_map' ..))

theorem mem_stringRows_arrange {row : Row} :
    row ∈ h.stringRows (h.arrange data order) ↔ row ∈ h.stringRows data := by
  have hr := congrArg (List.flatMap fun rows => Row.present rows.1 rows.2)
    (map_rowAt_arrange hp hid htext ha)
  rw [List.flatMap_map, List.flatMap_map] at hr
  exact (iff_of_eq (congrArg (row ∈ ·) hr)).trans (hp.flatMap_right _).mem_iff

theorem pairs_arrange : h.pairs (h.arrange data order) = order.map (h.pairAt data) := by
  -- An empty row is not among the string rows, but it has no bytes that could change.
  have hs {row : Row} (hr : row.length ≠ 0 → row ∈ h.stringRows data) :
      row.bytes (h.arrange data order) = row.bytes data := by
    by_cases hz : row.length = 0
    case pos => rw [Row.bytes_of_length_eq_zero hz, Row.bytes_of_length_eq_zero hz]
    case neg => exact bytes_arrange hp hid htext fun table ht => ha.strings table ht row (hr hz)
  have hr := congrArg (List.map fun rows =>
    (rows.1.bytes (h.arrange data order), rows.2.bytes (h.arrange data order)))
    (map_rowAt_arrange hp hid htext ha)
  rw [List.map_map, List.map_map] at hr
  refine hr.trans (List.map_congr_left fun i hm => ?_)
  have hm := List.mem_range.mp (hp.mem_iff.mp hm)
  exact congrArg₂ Prod.mk (hs fun hz => mem_stringRows.mpr ⟨i, hm, hz, .inl rfl⟩)
    (hs fun hz => mem_stringRows.mpr ⟨i, hm, hz, .inr rfl⟩)

end Files

end Arranging

section Keeping

variable {h : Header} {data : Bytes} {order : List Nat} {i j : Nat}

-- In a file that is accepted, only an empty row has an empty string.
theorem length_idAt_eq_zero
    (hi : ∀ row ∈ h.stringRows data, row.offset + row.length ≤ data.length) (hm : i < h.count)
    (hb : (h.idAt data i).bytes data = []) : (h.idAt data i).length = 0 := by
  by_contra hz
  exact Row.bytes_ne_nil (hi _ (mem_stringRows.mpr ⟨i, hm, hz, .inl rfl⟩)) hz hb

theorem Keeps.filter_eq (hk : h.Keeps data order) {p : Nat → Bool}
    (hp : ∀ i < h.count, ∀ j < h.count, p i → p j → h.Tied data i j) :
    order.filter p = (List.range h.count).filter p := by
  have hm {i : Nat} (hi : i ∈ order) := List.mem_range.mp (hk.perm.mem_iff.mp hi)
  exact filter_eq_filter_range hk.perm
    (hk.tied.imp_of_mem fun hi hj ht hpi hpj => ht (hp _ (hm hi) _ (hm hj) hpi hpj))

theorem Keeps.ofPairs_eq (hk : h.Keeps data order)
    (hi : ∀ row ∈ h.stringRows data, row.offset + row.length ≤ data.length) :
    Content.ofPairs (order.map (h.pairAt data)) = Content.ofPairs (h.pairs data) := by
  refine Content.ofPairs_eq ?_ fun key => ?_
  · rw [pairs, Content.headers_map, Content.headers_map, hk.filter_eq]
    intro i hm j hm' hh hh'
    obtain ⟨_, hb⟩ := of_decide_eq_true hh
    obtain ⟨_, hb'⟩ := of_decide_eq_true hh'
    exact .headers (length_idAt_eq_zero hi hm hb) (length_idAt_eq_zero hi hm' hb')
  · rw [pairs, Content.filter_entries_map, Content.filter_entries_map, hk.filter_eq]
    intro i _ j _ he he'
    rw [Bool.and_eq_true, beq_iff_eq] at he he'
    exact .messages (Content.key_ne_empty he.left) (he.right.trans he'.right.symm)

end Keeping

end Header

variable {h : Header} {data : Bytes} {order : List Nat} {c : Content}

theorem decode_arrange (hd : decode data = .ok c) (hr : Header.read data = .ok h)
    (ha : h.Apart data) (hk : h.Keeps data order) : decode (h.arrange data order) = .ok c := by
  obtain ⟨h', hr', hi, hc⟩ := decode_eq_ok_iff.mp hd
  cases hr.symm.trans hr'
  have ⟨ht, hs⟩ := List.forall_mem_append.mp hi
  have hid := ht (h.tableRow h.ids) (.head _)
  have htext := ht (h.tableRow h.texts) (.tail _ (.head _))
  refine decode_eq_ok_iff.mpr ⟨h, ?_, ?_, ?_⟩
  · exact Header.read_of_start (Header.bytes_arrange hk.perm hid htext ha.header) hr
  · rw [Header.length_arrange hk.perm hid htext, List.forall_mem_append]
    exact ⟨ht, fun row hm => hs row ((Header.mem_stringRows_arrange hk.perm hid htext ha).mp hm)⟩
  · rw [Content.find_eq_ofPairs, Header.pairs_arrange hk.perm hid htext ha, hk.ofPairs_eq hs,
      ← Content.find_eq_ofPairs, hc]

-- The header goes behind two messages, and two texts for one id stay in their order.
theorem decode_arrange_four :
    ∃ data h c, data = encode .big [([], [65]), ([97, 0, 98], [66]), ([99], [67]), ([97], [68])] ∧
      decode data = .ok c ∧ Header.read data = .ok h ∧ h.Apart data ∧
      h.Keeps data [2, 1, 0, 3] ∧ decode (h.arrange data [2, 1, 0, 3]) = .ok c := by
  have hf : Encoding.Fits [([], [65]), ([97, 0, 98], [66]), ([99], [67]), ([97], [68])] :=
    ⟨by decide, by decide⟩
  have hd := decode_encode_eq hf .big
  have hr := readHeader_encode hf .big
  refine ⟨_, _, _, rfl, hd, hr, ?apart, ?keeps, decode_arrange hd hr ?apart ?keeps⟩
  case apart => exact ⟨by decide, by decide, by decide⟩
  case keeps => exact ⟨by decide, by decide⟩

end MessageCatalog.ObjectFile
