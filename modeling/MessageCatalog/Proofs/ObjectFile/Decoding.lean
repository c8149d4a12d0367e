import MessageCatalog.ObjectFile.Content
import MessageCatalog.Proofs.ObjectFile.Lookup

namespace MessageCatalog.ObjectFile

open Outcome Text

namespace Content

-- What a message contributes. A text without an id belongs to the header.
def contribute (c : Content) (id text : Bytes) : Content :=
  if text = [] then
    c
  else if id = [] then
    { c with header := (if c.header = "" then "" else c.header ++ "\n") ++ Utf8.decode text }
  else if id.head? = some 0 then
    c
  else
    let key := Utf8.decode (id.takeWhile (· ≠ 0))
    { c with messages := c.messages.insert key ((text.splitOn 0).map Utf8.decode) }

-- What all messages contribute, in the order of the tables.
def find (h : Header) (data : Bytes) : Content :=
  (List.range h.count).foldl
    (fun c i => c.contribute ((h.idAt data i).bytes data) ((h.textAt data i).bytes data)) {}

end Content

-- The content of a file by lookup.
def lookup (data : Bytes) : Except FileError Content :=
  if data.length < 10 then
    .error (.tooShort data.length)
  else match orderOf data with
    | none => .error (.badMagic (wordAt .little data 0))
    | some order =>
      if wordAt order data 4 ≠ 0 then
        .error (.unsupportedRevision (wordAt order data 4))
      else
        let h := Header.find order data
        match Row.firstFault data (Header.wordRows ++ h.tableRows ++ h.stringRows data) with
        | some e => .error (.truncated e)
        | none   => .ok (.find h data)

namespace Row

theorem read_eq (row : Row) (data : Bytes) :
    row.read data =
      barring (firstFault data ([row].filter (·.length ≠ 0))) (row.bytes data) := by
  by_cases hl : row.length = 0
  case pos => simp [read, bytes, hl, firstFault, barring]
  case neg =>
    rw [read, if_neg hl, List.filter_cons_of_pos (by simpa using hl), List.filter_nil,
      firstFault_cons, firstFault_nil, Option.or_none]
    refine Reader.seek_bind .little fun ho => ?_
    rw [Reader.bytes_eq .little ho]
    cases fault? row data <;> rfl

end Row

namespace Item

theorem read_eq (data : Bytes) (id text : Row) :
    read data id text =
      barring (Row.firstFault data (Row.present id text))
        (ofStrings (id.bytes data) (text.bytes data)) := by
  have hp : Row.present id text =
      [id].filter (·.length ≠ 0) ++ [text].filter (·.length ≠ 0) :=
    List.filter_append [id] [text]
  rw [read, id.read_eq, text.read_eq, hp, Row.firstFault_append]
  refine barring_bind fun _ => ?_
  cases Row.firstFault data ([text].filter (·.length ≠ 0)) <;> rfl

theorem readAll_cons (data : Bytes) (id text : Row) (rows : List (Row × Row)) :
    readAll data ((id, text) :: rows) =
      match Row.firstFault data (Row.present id text) with
      | some e => ([], some e)
      | none   =>
        (ofStrings (id.bytes data) (text.bytes data) :: (readAll data rows).1,
          (readAll data rows).2) := by
  rw [readAll, read_eq]
  cases Row.firstFault data (Row.present id text) <;> rfl

theorem readAll_snd (data : Bytes) (rows : List (Row × Row)) :
    (readAll data rows).2 =
      Row.firstFault data (rows.flatMap fun (id, text) => Row.present id text) := by
  induction rows
  case nil => rfl
  case cons row rows ih =>
    rw [readAll_cons, List.flatMap_cons, Row.firstFault_append, ← ih]
    cases Row.firstFault data (Row.present row.1 row.2) <;> rfl

theorem readAll_fst {data : Bytes} {rows : List (Row × Row)} (h : (readAll data rows).2 = none) :
    (readAll data rows).1 =
      rows.map fun (id, text) => ofStrings (id.bytes data) (text.bytes data) := by
  induction rows
  case nil => rfl
  case cons row rows ih =>
    rw [readAll_cons] at h ⊢
    cases hf : Row.firstFault data (Row.present row.1 row.2)
    case none =>
      simp only [hf] at h
      simp only [ih h, List.map_cons]
    case some e => simp [hf] at h

end Item

namespace Content

theorem add_ofStrings (c : Content) (id text : Bytes) :
    c.add (.ofStrings id text) = c.contribute id text := by
  match text, id with
  | [], _         => rfl
  | _ :: _, []    =>
    simp only [Item.ofStrings, add, contribute]
    by_cases hc : c.header = ""
    case pos => simp [hc]
    case neg => simp [hc]
  | _ :: _, b :: bs =>
    by_cases hb : b = 0
    case pos => simp [Item.ofStrings, add, contribute, hb]
    case neg => simp [Item.ofStrings, add, contribute, hb]

theorem ofItems_eq_find (h : Header) (data : Bytes) :
    ofItems ((List.range h.count).map fun i =>
      .ofStrings ((h.idAt data i).bytes data) ((h.textAt data i).bytes data)) = find h data := by
  rw [ofItems, List.foldl_map]
  simp only [add_ofStrings]
  rfl

end Content

-- Reading the strings of some rows fails with the first fault, and otherwise gives what they add up
-- to.
theorem Reading.content_listed (h : Header) (data : Bytes) (rows : List (Row × Row)) :
    (listed h (Item.readAll data rows).1 (Item.readAll data rows).2).content =
      barring
        ((Row.firstFault data (rows.flatMap fun (id, text) => Row.present id text)).map .truncated)
        (.ofItems (rows.map fun (id, text) => .ofStrings (id.bytes data) (text.bytes data))) := by
  have hs := Item.readAll_snd data rows
  rw [← hs]
  cases he : (Item.readAll data rows).2
  case some e => rfl
  case none   => rw [Item.readAll_fst he]; rfl

theorem decode_of_error {data : Bytes} {e : FileError} (h : Header.read data = .error e) :
    decode data = .error e := by
  rw [decode, Reading.ofBytes, h]
  rfl

-- Behind the header, decoding is looking up.
theorem decode_of_ok {data : Bytes} {h : Header} (hr : Header.read data = .ok h)
    (hc : 8 * h.count ≤ Reader.sizeLimit) :
    decode data =
      barring ((Row.firstFault data (h.tableRows ++ h.stringRows data)).map .truncated)
        (.find h data) := by
  rw [decode, Reading.ofBytes, hr, Row.firstFault_append]
  simp only [h.readTables_eq hc]
  cases Row.firstFault data h.tableRows
  case some e => rfl
  case none =>
    have hs := Reading.content_listed h data
      ((List.range h.count).map fun i => (h.idAt data i, h.textAt data i))
    rw [List.flatMap_map, List.map_map] at hs
    exact hs.trans (congrArg _ (Content.ofItems_eq_find h data))

-- A header is read from twenty bytes.
theorem Header.read_eq_ok_iff {data : Bytes} {h : Header} :
    Header.read data = .ok h ↔
      20 ≤ data.length ∧ ∃ order, orderOf data = some order ∧ wordAt order data 4 = 0 ∧
        Header.find order data = h := by
  have hw : Row.firstFault data Header.wordRows = none ↔ 20 ≤ data.length := by
    simp only [Row.firstFault_eq_none, Header.wordRows, List.forall_mem_cons]
    constructor
    · rintro ⟨_, _, h, _⟩
      exact h
    · exact fun h => ⟨by omega, by omega, h, List.forall_mem_nil _⟩
  rw [Header.read_eq, ← hw]
  by_cases hl : data.length < 10
  case pos =>
    rw [if_pos hl, hw]
    constructor
    · intro h
      cases h
    · omega
  case neg =>
    rw [if_neg hl]
    cases orderOf data
    case none => simp
    case some order =>
      by_cases hv : wordAt order data 4 = 0
      case neg => simp [hv]
      case pos => cases Row.firstFault data Header.wordRows <;> simp [hv, barring]

theorem decode_eq_ok_iff {data : Bytes} {c : Content} :
    decode data = .ok c ↔
      ∃ h, Header.read data = .ok h ∧
        (∀ row ∈ h.tableRows ++ h.stringRows data, row.offset + row.length ≤ data.length) ∧
        .find h data = c := by
  constructor
  · intro hd
    cases hr : Header.read data
    case error e => cases (decode_of_error hr).symm.trans hd
    case ok h =>
      have ⟨_, order, _, _, hh⟩ := Header.read_eq_ok_iff.mp hr
      rw [decode_of_ok hr (hh ▸ Header.count_le order data)] at hd
      cases hf : Row.firstFault data (h.tableRows ++ h.stringRows data)
      case some e =>
        rw [hf] at hd
        cases hd
      case none =>
        rw [hf] at hd
        exact ⟨h, rfl, Row.firstFault_eq_none.mp hf, Except.ok.inj hd⟩
  · intro ⟨h, hr, hi, hc⟩
    have ⟨_, order, _, _, hh⟩ := Header.read_eq_ok_iff.mp hr
    rw [decode_of_ok hr (hh ▸ Header.count_le order data), Row.firstFault_eq_none.mpr hi, hc]
    rfl

theorem decode_eq_lookup (data : Bytes) : decode data = lookup data := by
  have hr := Header.read_eq data
  rw [lookup]
  by_cases hl : data.length < 10
  case pos =>
    rw [if_pos hl] at hr ⊢
    exact decode_of_error hr
  case neg =>
    rw [if_neg hl] at hr ⊢
    cases ho : orderOf data
    case none =>
      rw [ho] at hr
      exact decode_of_error hr
    case some order =>
      simp only [ho] at hr ⊢
      by_cases hv : wordAt order data 4 ≠ 0
      case pos =>
        rw [if_pos hv] at hr ⊢
        exact decode_of_error hr
      case neg =>
        rw [if_neg hv] at hr ⊢
        rw [List.append_assoc, Row.firstFault_append]
        cases hw : Row.firstFault data Header.wordRows
        case some e =>
          rw [hw] at hr
          exact decode_of_error hr
        case none =>
          rw [hw] at hr
          rw [decode_of_ok hr (Header.count_le order data), Option.none_or]
          cases Row.firstFault data _ <;> rfl

end MessageCatalog.ObjectFile
