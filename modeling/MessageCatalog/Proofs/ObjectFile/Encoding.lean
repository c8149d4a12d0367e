import MessageCatalog.Proofs.Dictionary
import MessageCatalog.Proofs.ObjectFile.Decoding
import MessageCatalog.Proofs.Text.Utf8

namespace MessageCatalog

namespace ByteOrder

-- The word for a number, its lowest byte first.
def littleBytes (n : Nat) : Bytes :=
  [n, n / 0x100, n / 0x10000, n / 0x1000000].map UInt8.ofNat

def bytes : ByteOrder → Nat → Bytes
  | little, n => littleBytes n
  | big, n    => (littleBytes n).reverse

@[simp]
theorem length_bytes (order : ByteOrder) (n : Nat) : (order.bytes n).length = 4 := by
  cases order <;> rfl

theorem number_bytes (order : ByteOrder) {n : Nat} (h : n < UInt32.size) :
    order.number (order.bytes n) = n := by
  unfold UInt32.size at h
  cases order <;>
    simp only [bytes, littleBytes, List.map_cons, List.map_nil, List.reverse_cons, List.reverse_nil,
      List.nil_append, List.cons_append, number, UInt8.toNat_ofNat'] <;>
    omega

end ByteOrder

namespace ObjectFile

open Text

-- Strings one after the other, each with a NUL behind it.
def joined (strings : List Bytes) : Bytes :=
  strings.flatMap (· ++ [0])

-- The rows of joined strings that start at an offset.
def rowsOf (offset : Nat) : List Bytes → List Row
  | []      => []
  | s :: ss => { length := s.length, offset } :: rowsOf (offset + (s.length + 1)) ss

def encodeTable (order : ByteOrder) (rows : List Row) : Bytes :=
  rows.flatMap fun row => order.bytes row.length ++ order.bytes row.offset

namespace Encoding

-- The ids of messages and their texts.
variable (pairs : List (Bytes × Bytes))

-- The words of the header. The last two are for a hash table, which is empty.
def headerWords : List Nat :=
  let n := pairs.length
  [Header.magic, 0, n, 28, 28 + 8 * n, 0, 28 + 16 * n]

def header (order : ByteOrder) : Header where
  order := order
  count := pairs.length
  ids   := 28
  texts := 28 + 8 * pairs.length

def ids : List Bytes :=
  pairs.map Prod.fst

def texts : List Bytes :=
  pairs.map Prod.snd

-- Where the strings start.
def start : Nat :=
  28 + 16 * pairs.length

def idRows : List Row :=
  rowsOf (start pairs) (ids pairs)

def textRows : List Row :=
  rowsOf (start pairs + (joined (ids pairs)).length) (texts pairs)

-- Each number has room in a word.
structure Fits : Prop where
  header : ∀ n ∈ headerWords pairs, n < UInt32.size
  tables : ∀ row ∈ idRows pairs ++ textRows pairs,
    row.length < UInt32.size ∧ row.offset < UInt32.size

-- What stands before the strings.
def front (order : ByteOrder) : Bytes :=
  (headerWords pairs).flatMap order.bytes ++
    (encodeTable order (idRows pairs) ++ encodeTable order (textRows pairs))

end Encoding

open Encoding

def encode (order : ByteOrder) (pairs : List (Bytes × Bytes)) : Bytes :=
  front pairs order ++ (joined (ids pairs) ++ joined (texts pairs))

-- A string stands at a row.
structure Row.Holds (row : Row) (data s : Bytes) : Prop where
  inside : row.fault? data = none
  bytes  : row.bytes data = s

theorem Row.holds_append (before s after : Bytes) :
    Holds { length := s.length, offset := before.length } (before ++ (s ++ after)) s where
  inside := fault?_eq_none.mpr (by simp)
  bytes  := by rw [Row.bytes, List.drop_left, List.take_left]

-- Pieces of one length that stand one after the other.
theorem Row.bytes_flatMap {α : Type} {f : α → Bytes} {l : List α} {n : Nat}
    (h : ∀ a ∈ l, (f a).length = n) (rest : Bytes) {i : Nat} (hi : i < l.length) :
    Row.bytes { length := n, offset := n * i } (l.flatMap f ++ rest) = f l[i] := by
  induction l generalizing i
  case nil => cases hi
  case cons a l ih =>
    have ha := h a List.mem_cons_self
    rw [List.flatMap_cons, List.append_assoc, Row.bytes]
    cases i
    case zero => exact List.take_left' ha
    case succ i =>
      have ih := ih (fun b hb => h b (.tail _ hb)) (Nat.lt_of_succ_lt_succ hi)
      rw [Nat.mul_succ, Nat.add_comm, ← List.drop_drop, List.drop_left' ha]
      exact ih

theorem holds_rowsOf (ss : List Bytes) (before after : Bytes) :
    List.Forall₂ (Row.Holds · (before ++ (joined ss ++ after)))
      (rowsOf before.length ss) ss := by
  induction ss generalizing before
  case nil => exact .nil
  case cons s ss ih =>
    have hj : joined (s :: ss) = s ++ [0] ++ joined ss := rfl
    have hs := Row.holds_append before s ([0] ++ (joined ss ++ after))
    have ih := ih (before ++ (s ++ [0]))
    rw [List.length_append, List.length_append, List.length_singleton] at ih
    simp only [hj, List.append_assoc] at hs ih ⊢
    exact .cons hs ih

section Words

variable {order : ByteOrder} {data : Bytes} {ns : List Nat} {rows : List Row}

@[simp]
theorem length_flatMap_bytes (order : ByteOrder) (ns : List Nat) :
    (ns.flatMap order.bytes).length = 4 * ns.length := by
  simp [List.length_flatMap, Nat.mul_comm]

-- The words that data starts with.
theorem wordAt_flatMap (h : ∀ n ∈ ns, n < UInt32.size) (rest : Bytes) {i : Nat}
    (hi : i < ns.length) : wordAt order (ns.flatMap order.bytes ++ rest) (4 * i) = ns[i] := by
  have hl : ∀ n ∈ ns, (order.bytes n).length = 4 := fun n _ => order.length_bytes n
  rw [wordAt, Row.bytes_flatMap hl rest hi, order.number_bytes (h _ (List.getElem_mem hi))]

@[simp]
theorem length_rowsOf (offset : Nat) (ss : List Bytes) : (rowsOf offset ss).length = ss.length := by
  induction ss generalizing offset
  case nil => rfl
  case cons s ss ih => simp [rowsOf, ih]

@[simp]
theorem length_encodeTable (order : ByteOrder) (rows : List Row) :
    (encodeTable order rows).length = 8 * rows.length := by
  simp [encodeTable, List.length_flatMap, Nat.mul_comm]

theorem pair_encodeTable
    (h : ∀ row ∈ rows, row.length < UInt32.size ∧ row.offset < UInt32.size) :
    Header.pair (order.words (encodeTable order rows)) = rows := by
  induction rows
  case nil => rfl
  case cons row rows ih =>
    have hr := h row List.mem_cons_self
    rw [encodeTable, List.flatMap_cons, List.append_assoc,
      order.words_append (order.length_bytes _), order.words_append (order.length_bytes _),
      order.number_bytes hr.left, order.number_bytes hr.right, Header.pair, ← encodeTable,
      ih fun r hm => h r (List.mem_cons_of_mem row hm)]

-- A table that was written is found.
theorem rowAt_of_holds {table : Nat}
    (h : ∀ row ∈ rows, row.length < UInt32.size ∧ row.offset < UInt32.size)
    (ht : Row.Holds { length := 8 * rows.length, offset := table } data (encodeTable order rows)) :
    (List.range rows.length).map (rowAt order data table) = rows := by
  rw [← Header.pair_words order (Row.fault?_eq_none.mp ht.inside), ht.bytes, pair_encodeTable h]

end Words

section Strings

variable {data : Bytes} {rows : List Row} {ss : List Bytes}

theorem map_bytes_of_holds (h : List.Forall₂ (Row.Holds · data) rows ss) :
    rows.map (·.bytes data) = ss := by
  induction h
  case nil => rfl
  case cons hold _ ih => rw [List.map_cons, hold.bytes, ih]

theorem inside_of_holds (h : List.Forall₂ (Row.Holds · data) rows ss) :
    ∀ row ∈ rows, row.offset + row.length ≤ data.length := by
  induction h
  case nil => exact List.forall_mem_nil _
  case cons hold _ ih =>
    exact List.forall_mem_cons.mpr ⟨Row.fault?_eq_none.mp hold.inside, ih⟩

end Strings

section Files

variable {pairs : List (Bytes × Bytes)} {order : ByteOrder}

@[simp]
theorem length_idRows (pairs : List (Bytes × Bytes)) : (idRows pairs).length = pairs.length := by
  simp [idRows, ids]

@[simp]
theorem length_textRows (pairs : List (Bytes × Bytes)) :
    (textRows pairs).length = pairs.length := by
  simp [textRows, texts]

theorem length_headerWords (pairs : List (Bytes × Bytes)) : (headerWords pairs).length = 7 :=
  rfl

@[simp]
theorem length_front (pairs : List (Bytes × Bytes)) (order : ByteOrder) :
    (front pairs order).length = start pairs := by
  simp [front, start, headerWords]
  omega

theorem holds_idRows (order : ByteOrder) (pairs : List (Bytes × Bytes)) :
    List.Forall₂ (Row.Holds · (encode order pairs)) (idRows pairs) (ids pairs) := by
  have h := holds_rowsOf (ids pairs) (front pairs order) (joined (texts pairs))
  rw [length_front] at h
  exact h

theorem holds_textRows (order : ByteOrder) (pairs : List (Bytes × Bytes)) :
    List.Forall₂ (Row.Holds · (encode order pairs)) (textRows pairs) (texts pairs) := by
  have h := holds_rowsOf (texts pairs) (front pairs order ++ joined (ids pairs)) []
  rw [List.length_append, length_front, List.append_nil, List.append_assoc] at h
  exact h

theorem holds_idTable (order : ByteOrder) (pairs : List (Bytes × Bytes)) :
    Row.Holds { length := 8 * (idRows pairs).length, offset := 28 } (encode order pairs)
      (encodeTable order (idRows pairs)) := by
  have h := Row.holds_append ((headerWords pairs).flatMap order.bytes)
    (encodeTable order (idRows pairs))
    (encodeTable order (textRows pairs) ++ (joined (ids pairs) ++ joined (texts pairs)))
  rw [length_flatMap_bytes, length_headerWords, length_encodeTable] at h
  simpa only [encode, front, List.append_assoc] using h

theorem holds_textTable (order : ByteOrder) (pairs : List (Bytes × Bytes)) :
    Row.Holds { length := 8 * (textRows pairs).length, offset := 28 + 8 * pairs.length }
      (encode order pairs) (encodeTable order (textRows pairs)) := by
  have h := Row.holds_append
    ((headerWords pairs).flatMap order.bytes ++ encodeTable order (idRows pairs))
    (encodeTable order (textRows pairs)) (joined (ids pairs) ++ joined (texts pairs))
  rw [List.length_append, length_flatMap_bytes, length_headerWords, length_encodeTable,
    length_encodeTable, length_idRows] at h
  simpa only [encode, front, List.append_assoc] using h

theorem wordAt_encode (h : Fits pairs) (order : ByteOrder) {i : Nat} (hi : i < 7) :
    wordAt order (encode order pairs) (4 * i) = (headerWords pairs)[i] := by
  rw [encode, front, List.append_assoc]
  exact wordAt_flatMap h.header _ hi

theorem orderOf_encode (order : ByteOrder) (pairs : List (Bytes × Bytes)) :
    orderOf (encode order pairs) = some order := by
  have hm : wordAt .little (encode order pairs) 0 =
      ByteOrder.little.number (order.bytes Header.magic) := by
    rw [wordAt, encode, front, headerWords, List.flatMap_cons, List.append_assoc, List.append_assoc]
    exact congrArg _ (List.take_left' (order.length_bytes _))
  rw [orderOf, hm]
  cases order <;> decide

theorem readHeader_encode (h : Fits pairs) (order : ByteOrder) :
    Header.read (encode order pairs) = .ok (header pairs order) := by
  refine Header.read_eq_ok_iff.mpr ⟨?_, order, orderOf_encode order pairs, ?_, ?_⟩
  · rw [encode, List.length_append, length_front, start]
    omega
  · exact wordAt_encode h order (i := 1) (by decide)
  · have hn : wordAt order (encode order pairs) 8 = pairs.length :=
      wordAt_encode h order (i := 2) (by decide)
    have hi : wordAt order (encode order pairs) 12 = 28 :=
      wordAt_encode h order (i := 3) (by decide)
    have ht : wordAt order (encode order pairs) 16 = 28 + 8 * pairs.length :=
      wordAt_encode h order (i := 4) (by decide)
    rw [Header.find, hn, hi, ht, header]

theorem map_idAt_encode (h : Fits pairs) (order : ByteOrder) :
    (List.range pairs.length).map ((header pairs order).idAt (encode order pairs)) =
      idRows pairs := by
  have hr := rowAt_of_holds (fun row hm => h.tables row (List.mem_append_left _ hm))
    (holds_idTable order pairs)
  rwa [length_idRows] at hr

theorem map_textAt_encode (h : Fits pairs) (order : ByteOrder) :
    (List.range pairs.length).map ((header pairs order).textAt (encode order pairs)) =
      textRows pairs := by
  have hr := rowAt_of_holds (fun row hm => h.tables row (List.mem_append_right _ hm))
    (holds_textTable order pairs)
  rwa [length_textRows] at hr

-- All strings lie in the file.
theorem stringRows_encode_inside (h : Fits pairs) (order : ByteOrder) :
    ∀ row ∈ (header pairs order).stringRows (encode order pairs),
      row.offset + row.length ≤ (encode order pairs).length := by
  intro row hr
  obtain ⟨i, hi, _, rfl | rfl⟩ := Header.mem_stringRows.mp hr
  · refine inside_of_holds (holds_idRows order pairs) _ ?_
    rw [← map_idAt_encode h order]
    exact List.mem_map_of_mem (List.mem_range.mpr hi)
  · refine inside_of_holds (holds_textRows order pairs) _ ?_
    rw [← map_textAt_encode h order]
    exact List.mem_map_of_mem (List.mem_range.mpr hi)

end Files

namespace Content

-- The pairs that make an entry.
def isEntry (pair : Bytes × Bytes) : Bool :=
  pair.2 ≠ [] ∧ pair.1 ≠ [] ∧ pair.1.head? ≠ some 0

-- The pairs whose text belongs to the header.
def isHeader (pair : Bytes × Bytes) : Bool :=
  pair.2 ≠ [] ∧ pair.1 = []

def entry (pair : Bytes × Bytes) : String × List String :=
  (Utf8.decode (pair.1.takeWhile (· ≠ 0)), (pair.2.splitOn 0).map Utf8.decode)

def entries (pairs : List (Bytes × Bytes)) : List (String × List String) :=
  (pairs.filter isEntry).map entry

def headers (pairs : List (Bytes × Bytes)) : List String :=
  (pairs.filter isHeader).map fun pair => Utf8.decode pair.2

-- A text has one variant more than it has NULs.
theorem length_splitOn (text : Bytes) : (text.splitOn 0).length = text.count 0 + 1 := by
  induction text
  case nil => rfl
  case cons b bs ih =>
    rw [List.splitOn, List.splitOnP_cons_eq_if_modifyHead, ← List.splitOn, List.count_cons]
    by_cases hb : b = 0
    case pos => simp [hb, ih]
    case neg => simp [hb, ih]

theorem messages_contribute (c : Content) (pair : Bytes × Bytes) :
    (c.contribute pair.1 pair.2).messages =
      if isEntry pair then c.messages.insert (entry pair).1 (entry pair).2 else c.messages := by
  by_cases ht : pair.2 = []
  case pos => simp [contribute, isEntry, ht]
  case neg =>
    by_cases hi : pair.1 = []
    case pos => simp [contribute, isEntry, ht, hi]
    case neg =>
      by_cases hz : pair.1.head? = some 0
      case pos => simp [contribute, isEntry, ht, hi, hz]
      case neg => simp [contribute, isEntry, entry, ht, hi, hz]

theorem header_contribute (c : Content) (pair : Bytes × Bytes) :
    (c.contribute pair.1 pair.2).header =
      if isHeader pair then
        (if c.header = "" then "" else c.header ++ "\n") ++ Utf8.decode pair.2
      else
        c.header := by
  by_cases ht : pair.2 = []
  case pos => simp [contribute, isHeader, ht]
  case neg =>
    by_cases hi : pair.1 = []
    case pos => simp [contribute, isHeader, ht, hi]
    case neg =>
      by_cases hz : pair.1.head? = some 0
      case pos => simp [contribute, isHeader, ht, hi, hz]
      case neg => simp [contribute, isHeader, ht, hi, hz]

theorem entries_cons (pair : Bytes × Bytes) (pairs : List (Bytes × Bytes)) :
    entries (pair :: pairs) =
      if isEntry pair then entry pair :: entries pairs else entries pairs := by
  by_cases hp : isEntry pair <;> simp [entries, hp]

theorem headers_cons (pair : Bytes × Bytes) (pairs : List (Bytes × Bytes)) :
    headers (pair :: pairs) =
      if isHeader pair then Utf8.decode pair.2 :: headers pairs else headers pairs := by
  by_cases hp : isHeader pair <;> simp [headers, hp]

theorem messages_foldl_contribute (c : Content) (pairs : List (Bytes × Bytes)) :
    (pairs.foldl (fun c pair => c.contribute pair.1 pair.2) c).messages =
      (entries pairs).foldl (fun m entry => m.insert entry.1 entry.2) c.messages := by
  induction pairs generalizing c
  case nil => rfl
  case cons pair pairs ih =>
    rw [List.foldl_cons, ih, messages_contribute, entries_cons]
    by_cases hp : isEntry pair
    case pos => rw [if_pos hp, if_pos hp, List.foldl_cons]
    case neg => rw [if_neg hp, if_neg hp]

-- The last entry of a key counts.
theorem getElem?_foldl_contribute (c : Content) (pairs : List (Bytes × Bytes)) (key : String) :
    (pairs.foldl (fun c pair => c.contribute pair.1 pair.2) c).messages[key]? =
      ((entries pairs).reverse.lookup key).or c.messages[key]? := by
  rw [messages_foldl_contribute, getElem?_foldl_insert]

theorem intercalate_ne_empty {hs : List String} (hne : ∀ h ∈ hs, h ≠ "") (hs' : hs ≠ []) :
    "\n".intercalate hs ≠ "" := by
  match hs with
  | [h]          => simpa using hne
  | h :: h' :: t => simp [String.intercalate_cons_cons]

-- Headers are joined by line feeds as long as none is empty.
theorem intercalate_concat {hs : List String} (hne : ∀ h ∈ hs, h ≠ "") (text : String) :
    "\n".intercalate (hs ++ [text]) =
      (if "\n".intercalate hs = "" then "" else "\n".intercalate hs ++ "\n") ++ text := by
  by_cases hs' : hs = []
  case pos => simp [hs']
  case neg =>
    rw [if_neg (intercalate_ne_empty hne hs'),
      String.intercalate_append_of_ne_nil hs' (List.cons_ne_nil _ _), String.intercalate_singleton]

theorem header_foldl_contribute {c : Content} {hs : List String}
    (hc : c.header = "\n".intercalate hs) (hne : ∀ h ∈ hs, h ≠ "")
    (pairs : List (Bytes × Bytes)) :
    (pairs.foldl (fun c pair => c.contribute pair.1 pair.2) c).header =
      "\n".intercalate (hs ++ headers pairs) := by
  induction pairs generalizing c hs
  case nil => simpa [headers] using hc
  case cons pair pairs ih =>
    have hp := c.header_contribute pair
    rw [List.foldl_cons, headers_cons]
    by_cases hh : isHeader pair
    case neg =>
      rw [if_neg hh] at hp ⊢
      exact ih (hp.trans hc) hne
    case pos =>
      have ht : Utf8.decode pair.2 ≠ "" := by
        rw [ne_eq, Utf8.decode_eq_empty]
        exact (of_decide_eq_true hh).left
      rw [if_pos hh, hc, ← intercalate_concat hne] at hp
      rw [if_pos hh, List.append_cons]
      refine ih hp fun h hm => ?_
      cases List.mem_append.mp hm
      case inl hm => exact hne h hm
      case inr hm => exact List.mem_singleton.mp hm ▸ ht

-- What pairs add up to.
def ofPairs (pairs : List (Bytes × Bytes)) : Content :=
  pairs.foldl (fun c pair => c.contribute pair.1 pair.2) {}

theorem getElem?_ofPairs (pairs : List (Bytes × Bytes)) (key : String) :
    (ofPairs pairs).messages[key]? = (entries pairs).reverse.lookup key := by
  rw [ofPairs, getElem?_foldl_contribute]
  simp

theorem header_ofPairs (pairs : List (Bytes × Bytes)) :
    (ofPairs pairs).header = "\n".intercalate (headers pairs) :=
  @header_foldl_contribute {} [] String.intercalate_nil.symm (by simp) pairs

end Content

-- The strings of a message.
def Header.pairAt (h : Header) (data : Bytes) (index : Nat) : Bytes × Bytes :=
  ((h.idAt data index).bytes data, (h.textAt data index).bytes data)

-- The strings of all messages, in the order of the tables.
def Header.pairs (h : Header) (data : Bytes) : List (Bytes × Bytes) :=
  (List.range h.count).map (h.pairAt data)

theorem Content.find_eq_ofPairs (h : Header) (data : Bytes) :
    find h data = ofPairs (h.pairs data) := by
  rw [ofPairs, Header.pairs, List.foldl_map]
  rfl

-- The strings of a file are those that were written to it.
theorem pairs_encode {pairs : List (Bytes × Bytes)} (h : Fits pairs) (order : ByteOrder) :
    (header pairs order).pairs (encode order pairs) = pairs := by
  have hi := congrArg (List.map (·.bytes (encode order pairs))) (map_idAt_encode h order)
  have ht := congrArg (List.map (·.bytes (encode order pairs))) (map_textAt_encode h order)
  rw [map_bytes_of_holds (holds_idRows order pairs), List.map_map, Encoding.ids] at hi
  rw [map_bytes_of_holds (holds_textRows order pairs), List.map_map, Encoding.texts] at ht
  calc
    _ = List.zip _ _             := (List.zip_map' ..).symm
    _ = List.zip _ _             := congrArg₂ List.zip hi ht
    _ = pairs.map fun pair => _  := List.zip_map' ..
    _ = pairs                    := List.map_id' pairs

theorem decode_encode_eq {pairs : List (Bytes × Bytes)} (h : Fits pairs) (order : ByteOrder) :
    decode (encode order pairs) = .ok (.ofPairs pairs) := by
  have hi := (holds_idTable order pairs).inside
  have ht := (holds_textTable order pairs).inside
  rw [length_idRows, Row.fault?_eq_none] at hi
  rw [length_textRows, Row.fault?_eq_none] at ht
  refine decode_eq_ok_iff.mpr ⟨header pairs order, readHeader_encode h order, ?_, ?_⟩
  · refine List.forall_mem_append.mpr ⟨?_, stringRows_encode_inside h order⟩
    exact List.forall_mem_cons.mpr ⟨hi, List.forall_mem_singleton.mpr ht⟩
  · rw [Content.find_eq_ofPairs, pairs_encode h]

theorem decode_encode {pairs : List (Bytes × Bytes)} (h : Fits pairs) :
    ∃ c, decode (encode .little pairs) = .ok c ∧ decode (encode .big pairs) = .ok c ∧
      (∀ key, c.messages[key]? = (Content.entries pairs).reverse.lookup key) ∧
      (∀ pair ∈ pairs, (Content.entry pair).2.length = pair.2.count 0 + 1) ∧
      c.header = "\n".intercalate (Content.headers pairs) := by
  refine ⟨_, decode_encode_eq h .little, decode_encode_eq h .big, ?_, ?_, ?_⟩
  · intro key
    rw [Content.getElem?_ofPairs]
  · intro pair _
    rw [Content.entry, List.length_map, Content.length_splitOn]
  · rw [Content.header_ofPairs]

-- A header, and two texts for one id, of which the first has two variants.
theorem decode_encode_samples :
    ∃ pairs, pairs = [([], [65]), ([97], [98, 0, 99]), ([97], [100])] ∧
      ∃ c, decode (encode .little pairs) = .ok c ∧ decode (encode .big pairs) = .ok c ∧
        (∀ key, c.messages[key]? = (Content.entries pairs).reverse.lookup key) ∧
        (∀ pair ∈ pairs, (Content.entry pair).2.length = pair.2.count 0 + 1) ∧
        c.header = "\n".intercalate (Content.headers pairs) :=
  ⟨_, rfl, decode_encode ⟨by decide, by decide⟩⟩

end ObjectFile

end MessageCatalog
