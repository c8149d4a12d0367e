import Mathlib.Tactic
import MessageCatalog.ObjectFile.Item
import MessageCatalog.Outcome

namespace MessageCatalog

-- The value, unless there is a fault.
def Outcome.barring {ε α : Type} (fault : Option ε) (a : α) : Except ε α :=
  match fault with
  | some e => .error e
  | none   => .ok a

namespace Outcome

variable {ε ε' α β : Type} {a : α} {b : β} {e e' : Option ε} {f : α → Except ε β}

theorem barring_bind (h : e = none → f a = barring e' b) :
    (barring e a >>= f) = barring (e.or e') b := by
  cases e
  case none   => exact h rfl
  case some _ => rfl

theorem barring_mapError (g : ε → ε') : (barring e a).mapError g = barring (e.map g) a := by
  cases e <;> rfl

end Outcome

namespace ByteOrder

-- The number that four bytes make, of which the lowest one comes first or last.
def number : ByteOrder → Bytes → Nat
  | little, [a, b, c, d] =>
    a.toNat + 0x100 * b.toNat + 0x10000 * c.toNat + 0x1000000 * d.toNat
  | big, [a, b, c, d]    =>
    0x1000000 * a.toNat + 0x10000 * b.toNat + 0x100 * c.toNat + d.toNat
  | _, _                 => 0

theorem value_eq_number (order : ByteOrder) {bs : Bytes} (h : bs.length = 4) :
    order.value bs = order.number bs := by
  match bs, h with
  | [a, b, c, d], _ =>
    cases order <;>
      simp only [value, littleValue, number, List.reverse_cons, List.reverse_nil, List.nil_append,
        List.cons_append, List.foldr_cons, List.foldr_nil] <;>
      omega

theorem number_lt (order : ByteOrder) (bs : Bytes) : order.number bs < UInt32.size := by
  unfold number UInt32.size
  split
  case h_1 a b c d | h_2 a b c d =>
    have := a.toNat_lt
    have := b.toNat_lt
    have := c.toNat_lt
    have := d.toNat_lt
    omega
  case h_3 => decide

theorem words_append (order : ByteOrder) {word : Bytes} (h : word.length = 4) (bs : Bytes) :
    order.words (word ++ bs) = order.number word :: order.words bs := by
  rw [← order.value_eq_number h]
  match word, h with
  | [_, _, _, _], _ => rfl

end ByteOrder

namespace ObjectFile

open Outcome

namespace Row

variable {row : Row} {data : Bytes}

-- The bytes of a row, as far as the data goes.
def bytes (row : Row) (data : Bytes) : Bytes :=
  (data.drop row.offset).take row.length

-- What is wrong with a row that does not lie in the data.
def fault? (row : Row) (data : Bytes) : Option ReadError :=
  if data.length < row.offset then
    some { offset := row.offset, needed := 0, available := 0 }
  else if data.length < row.offset + row.length then
    some { offset := row.offset, needed := row.length, available := data.length - row.offset }
  else
    none

theorem fault?_eq_none : row.fault? data = none ↔ row.offset + row.length ≤ data.length := by
  simp only [fault?]
  split
  case isTrue h  => simp; omega
  case isFalse h => simp

-- The bytes of a row that lies in the data are as many as the row says.
theorem length_bytes (h : row.offset + row.length ≤ data.length) :
    (row.bytes data).length = row.length := by
  simp only [bytes, List.length_take, List.length_drop]
  omega

theorem bytes_ne_nil (h : row.offset + row.length ≤ data.length) (hl : row.length ≠ 0) :
    row.bytes data ≠ [] := by
  refine List.ne_nil_of_length_pos ?_
  rw [length_bytes h]
  omega

theorem needed_le {e : ReadError} (h : row.fault? data = some e) : e.needed ≤ row.length := by
  simp only [fault?] at h
  split at h
  case isTrue  => cases h; exact Nat.zero_le _
  case isFalse =>
    split at h
    case isTrue  => cases h; exact Nat.le_refl _
    case isFalse => cases h

-- The first fault of some rows.
def firstFault (data : Bytes) (rows : List Row) : Option ReadError :=
  rows.findSome? (·.fault? data)

theorem firstFault_nil : firstFault data [] = none :=
  rfl

theorem firstFault_cons (row : Row) (rows : List Row) :
    firstFault data (row :: rows) = (row.fault? data).or (firstFault data rows) := by
  simp only [firstFault, List.findSome?_cons]
  cases row.fault? data <;> rfl

theorem firstFault_append (rows rows' : List Row) :
    firstFault data (rows ++ rows') = (firstFault data rows).or (firstFault data rows') :=
  List.findSome?_append

theorem firstFault_eq_none {rows : List Row} :
    firstFault data rows = none ↔ ∀ row ∈ rows, row.offset + row.length ≤ data.length := by
  simp only [firstFault, List.findSome?_eq_none_iff, fault?_eq_none]

-- The rows of a message that are looked at.
def present (id text : Row) : List Row :=
  [id, text].filter (·.length ≠ 0)

end Row

-- The number in the word at an offset, 0 if no word is there.
def wordAt (order : ByteOrder) (data : Bytes) (offset : Nat) : Nat :=
  order.number (Row.bytes { length := 4, offset } data)

theorem wordAt_lt (order : ByteOrder) (data : Bytes) (offset : Nat) :
    wordAt order data offset < UInt32.size :=
  order.number_lt _

-- Consecutive words are looked up one by one.
theorem words_bytes (order : ByteOrder) {data : Bytes} {offset count : Nat}
    (h : offset + 4 * count ≤ data.length) :
    order.words (Row.bytes { length := 4 * count, offset } data) =
      (List.range count).map fun i => wordAt order data (offset + 4 * i) := by
  induction count generalizing offset
  case zero => rfl
  case succ count ih =>
    have hb : Row.bytes { length := 4 * (count + 1), offset } data =
        Row.bytes { length := 4, offset } data ++
          Row.bytes { length := 4 * count, offset := offset + 4 } data := by
      simp only [Row.bytes, Nat.mul_succ, Nat.add_comm _ 4, List.take_add, List.drop_drop]
    have hl : (Row.bytes { length := 4, offset } data).length = 4 :=
      Row.length_bytes (by dsimp only; omega)
    rw [hb, order.words_append hl, ih (by omega), List.range_succ_eq_map, List.map_cons,
      List.map_map]
    refine congrArg _ (List.map_congr_left fun i _ => ?_)
    rw [Function.comp, Nat.succ_eq_add_one, Nat.mul_succ, Nat.add_comm (4 * i), Nat.add_assoc]

-- The row with an index in the table at an offset.
def rowAt (order : ByteOrder) (data : Bytes) (table index : Nat) : Row where
  length := wordAt order data (table + 8 * index)
  offset := wordAt order data (table + 8 * index + 4)

namespace Header

def find (order : ByteOrder) (data : Bytes) : Header where
  order := order
  count := wordAt order data 8
  ids   := wordAt order data 12
  texts := wordAt order data 16

def wordRows : List Row :=
  [{ length := 4, offset := 8 }, { length := 4, offset := 12 }, { length := 4, offset := 16 }]

variable (h : Header) (data : Bytes)

def tableRows : List Row :=
  [{ length := 8 * h.count, offset := h.ids }, { length := 8 * h.count, offset := h.texts }]

def idAt (index : Nat) : Row :=
  rowAt h.order data h.ids index

def textAt (index : Nat) : Row :=
  rowAt h.order data h.texts index

def stringRows : List Row :=
  (List.range h.count).flatMap fun i => Row.present (h.idAt data i) (h.textAt data i)

variable {h data} in
theorem mem_stringRows {row : Row} :
    row ∈ h.stringRows data ↔
      ∃ i < h.count, row.length ≠ 0 ∧ (row = h.idAt data i ∨ row = h.textAt data i) := by
  simp [stringRows, Row.present, and_comm]

end Header

def orderOf (data : Bytes) : Option ByteOrder :=
  if wordAt .little data 0 = 0x950412de then
    some .little
  else if wordAt .little data 0 = 0xde120495 then
    some .big
  else
    none

namespace Reader

variable {data : Bytes} {offset : Nat} (order : ByteOrder)

theorem bytes_eq (h : offset ≤ data.length) (count : Nat) :
    bytes ⟨data, order, offset⟩ count =
      barring (Row.fault? { length := count, offset } data)
        (Row.bytes { length := count, offset } data, ⟨data, order, offset + count⟩) := by
  by_cases hc : offset + count ≤ data.length
  case pos =>
    have ha : count ≤ available ⟨data, order, offset⟩ := Nat.le_sub_of_add_le' hc
    rw [bytes, if_pos ha, Row.fault?_eq_none.mpr hc]
    rfl
  case neg =>
    have ha : ¬count ≤ available ⟨data, order, offset⟩ := by
      simp only [available]
      omega
    rw [bytes, if_neg ha, Row.fault?, if_neg (Nat.not_lt.mpr h), if_pos (Nat.not_le.mp hc)]
    rfl

theorem word_eq (h : offset ≤ data.length) :
    word ⟨data, order, offset⟩ =
      barring (Row.fault? { length := 4, offset } data)
        (wordAt order data offset, ⟨data, order, offset + 4⟩) := by
  rw [word, bytes_eq order h]
  cases hf : Row.fault? { length := 4, offset } data
  case some e => rfl
  case none =>
    have hl := Row.length_bytes (Row.fault?_eq_none.mp hf)
    simp only [barring, order.value_eq_number hl, wordAt]

theorem words_eq (h : offset ≤ data.length) {count : Nat} (hc : 4 * count ≤ sizeLimit) :
    words ⟨data, order, offset⟩ count =
      barring (Row.fault? { length := 4 * count, offset } data)
        (order.words (Row.bytes { length := 4 * count, offset } data),
          ⟨data, order, offset + 4 * count⟩) := by
  rw [words, bytes_eq order h]
  cases he : Row.fault? { length := 4 * count, offset } data
  case none   => rfl
  case some e =>
    have hn : min e.needed sizeLimit = e.needed :=
      Nat.min_eq_left (Nat.le_trans (Row.needed_le he) hc)
    simp only [barring, hn]

-- Moving to a row and reading there fails like a lookup if reading there does.
theorem seek_bind {α : Type} {f : Reader → Except ReadError α} {a : α} {length : Nat}
    (h : offset ≤ data.length →
      f ⟨data, order, offset⟩ = barring (Row.fault? { length, offset } data) a) :
    ((start data order).seek offset >>= f) = barring (Row.fault? { length, offset } data) a := by
  by_cases ho : offset ≤ data.length
  case pos =>
    have hs : (start data order).seek offset = .ok ⟨data, order, offset⟩ := if_pos ho
    rw [hs, ok_bind, h ho]
  case neg =>
    have hs : (start data order).seek offset = .error ⟨offset, 0, 0⟩ := if_neg ho
    rw [hs, Row.fault?, if_pos (Nat.not_le.mp ho)]
    rfl

end Reader

namespace Header

variable {data : Bytes} {offset : Nat}

-- Reading the next word fails like a lookup.
theorem word_eq (h : offset ≤ data.length) (order : ByteOrder) :
    (Reader.word ⟨data, order, offset⟩).mapError FileError.truncated =
      barring ((Row.fault? { length := 4, offset } data).map .truncated)
        (wordAt order data offset, ⟨data, order, offset + 4⟩) := by
  rw [Reader.word_eq order h, barring_mapError]

theorem word_eq_ok (h : offset + 4 ≤ data.length) (order : ByteOrder) :
    (Reader.word ⟨data, order, offset⟩).mapError FileError.truncated =
      .ok (wordAt order data offset, ⟨data, order, offset + 4⟩) := by
  rw [word_eq (by omega), Row.fault?_eq_none.mpr h]
  rfl

theorem readOrder_eq (h : 4 ≤ data.length) :
    readOrder data =
      match orderOf data with
      | some order => .ok order
      | none       => .error (.badMagic (wordAt .little data 0)) := by
  have hw := @word_eq_ok data 0 h .little
  simp only [readOrder, Reader.start, hw, ok_bind, orderOf, magic, swappedMagic]
  by_cases hm : wordAt .little data 0 = 0x950412de
  case pos => simp only [hm, ↓reduceIte]; rfl
  case neg =>
    by_cases hs : wordAt .little data 0 = 0xde120495
    case pos => simp only [hs, ↓reduceIte]; rfl
    case neg => simp only [hm, hs, ↓reduceIte]; rfl

theorem seek_eq_ok (h : offset ≤ data.length) (order : ByteOrder) :
    ((Reader.start data order).seek offset).mapError FileError.truncated =
      .ok ⟨data, order, offset⟩ := by
  have hs : (Reader.start data order).seek offset = .ok ⟨data, order, offset⟩ := if_pos h
  rw [hs]
  rfl

-- The words behind the revision.
theorem readFields_eq (h : 8 ≤ data.length) (order : ByteOrder) :
    (do
      let (count, r) ← (Reader.word ⟨data, order, 8⟩).mapError FileError.truncated
      let (ids, r) ← r.word.mapError .truncated
      let (texts, _) ← r.word.mapError .truncated
      return { order, count, ids, texts }) =
      barring ((Row.firstFault data wordRows).map .truncated) (find order data) := by
  simp only [wordRows, Row.firstFault_cons, Option.map_or]
  rw [word_eq h]
  refine barring_bind fun hf => ?_
  have h : 12 ≤ data.length := Row.fault?_eq_none.mp (Option.map_eq_none_iff.mp hf)
  simp only [word_eq h]
  refine barring_bind fun hf => ?_
  have h : 16 ≤ data.length := Row.fault?_eq_none.mp (Option.map_eq_none_iff.mp hf)
  simp only [word_eq h]
  exact barring_bind fun _ => rfl

theorem read_eq (data : Bytes) :
    read data =
      if data.length < 10 then
        .error (.tooShort data.length)
      else match orderOf data with
        | none => .error (.badMagic (wordAt .little data 0))
        | some order =>
          if wordAt order data 4 ≠ 0 then
            .error (.unsupportedRevision (wordAt order data 4))
          else
            barring ((Row.firstFault data wordRows).map .truncated) (find order data) := by
  by_cases hl : data.length < 10
  case pos =>
    rw [read, if_pos hl, leastLength, if_pos hl]
    rfl
  case neg =>
    have h : 8 ≤ data.length := by omega
    rw [read, leastLength, if_neg hl, if_neg hl, readOrder_eq (by omega)]
    cases orderOf data
    case none => rfl
    case some order =>
      have hs := @seek_eq_ok data 4 (by omega) order
      have hw := @word_eq_ok data 4 h order
      simp only [ok_bind, hs, hw]
      by_cases hr : wordAt order data 4 ≠ 0
      case pos =>
        rw [if_pos hr, if_pos hr]
        rfl
      case neg =>
        rw [if_neg hr, if_neg hr]
        exact readFields_eq h order

-- The tables are never longer than an error can report, since the number of messages is a word.
theorem count_le (order : ByteOrder) (data : Bytes) :
    8 * (find order data).count ≤ Reader.sizeLimit := by
  have hw := wordAt_lt order data 8
  simp only [find, Reader.sizeLimit, UInt32.size] at hw ⊢
  omega

theorem pair_map_range (f : Nat → Nat) (count : Nat) :
    pair ((List.range (2 * count)).map f) =
      (List.range count).map fun i => ⟨f (2 * i), f (2 * i + 1)⟩ := by
  induction count generalizing f
  case zero => rfl
  case succ count ih =>
    rw [Nat.mul_succ, List.range_succ_eq_map, List.range_succ_eq_map, List.range_succ_eq_map]
    simp only [List.map_cons, List.map_map, pair]
    exact congrArg _ (ih (f ∘ Nat.succ ∘ Nat.succ))

theorem pair_words (order : ByteOrder) {table count : Nat}
    (h : table + 8 * count ≤ data.length) :
    pair (order.words (Row.bytes { length := 8 * count, offset := table } data)) =
      (List.range count).map (rowAt order data table) := by
  have hn : 8 * count = 4 * (2 * count) := by omega
  rw [hn, words_bytes order (hn ▸ h), pair_map_range]
  refine List.map_congr_left fun i _ => ?_
  have hi : 4 * (2 * i) = 8 * i := by omega
  have hi' : 4 * (2 * i + 1) = 8 * i + 4 := by omega
  rw [rowAt, hi, hi', Nat.add_assoc]

variable (h : Header)

theorem readTable_eq (hc : 8 * h.count ≤ Reader.sizeLimit) (table : Nat) :
    h.readTable data table =
      barring (Row.fault? { length := 8 * h.count, offset := table } data)
        ((List.range h.count).map (rowAt h.order data table)) := by
  refine Reader.seek_bind h.order fun ht => ?_
  have hn : 4 * (2 * h.count) = 8 * h.count := by omega
  rw [Reader.words_eq h.order ht (hn ▸ hc), hn]
  cases hf : Row.fault? { length := 8 * h.count, offset := table } data
  case none   => exact congrArg Except.ok (pair_words h.order (Row.fault?_eq_none.mp hf))
  case some e => rfl

theorem readTables_eq (hc : 8 * h.count ≤ Reader.sizeLimit) :
    h.readTables data =
      barring (Row.firstFault data h.tableRows)
        ((List.range h.count).map fun i => (h.idAt data i, h.textAt data i)) := by
  rw [readTables, readTable_eq h hc, readTable_eq h hc, tableRows, Row.firstFault_cons]
  refine barring_bind fun _ => ?_
  rw [Row.firstFault_cons]
  refine barring_bind fun _ => ?_
  rw [List.zip_map']
  rfl

end Header

end ObjectFile

end MessageCatalog
