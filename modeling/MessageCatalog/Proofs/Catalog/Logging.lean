import MessageCatalog.Proofs.Catalog.Loading
import MessageCatalog.Proofs.Catalog.Reporting
import MessageCatalog.Proofs.Text.Parts

namespace MessageCatalog

open ObjectFile Text

namespace ObjectFile

-- The strings of an item that are decoded.
def Item.strings : Item → List Bytes
  | textless | anonymous => []
  | header text          => [text]
  | message id variants  => variants ++ [id]

-- The strings of a message that are decoded: its variants and its id, or its part of the header.
def Content.decoded (pair : Bytes × Bytes) : List Bytes :=
  if isEntry pair then
    pair.2.splitOn 0 ++ [pair.1.takeWhile (· ≠ 0)]
  else if isHeader pair then
    [pair.2]
  else
    []

theorem Item.strings_ofStrings (id text : Bytes) :
    (ofStrings id text).strings = Content.decoded (id, text) := by
  match text, id with
  | [], _        => simp [ofStrings, strings, Content.decoded, Content.isEntry, Content.isHeader]
  | _ :: _, []   => simp [ofStrings, strings, Content.decoded, Content.isEntry, Content.isHeader]
  | _ :: _, b :: _ =>
    by_cases hb : b = 0 <;>
      simp [ofStrings, strings, Content.decoded, Content.isEntry, Content.isHeader, hb]

-- Items are read as long as no string is out of range.
theorem Item.readAll_append {data : Bytes} {front : List (Row × Row)}
    (h : ∀ row ∈ front, Row.firstFault data (Row.present row.1 row.2) = none)
    (rest : List (Row × Row)) :
    (readAll data (front ++ rest)).1 =
      (front.map fun (id, text) => ofStrings (id.bytes data) (text.bytes data)) ++
        (readAll data rest).1 := by
  induction front
  case nil => rfl
  case cons row front ih =>
    rw [List.forall_mem_cons] at h
    rw [List.cons_append, readAll_cons, h.left, List.map_cons, List.cons_append, ← ih h.right]

end ObjectFile

namespace ObjectFile.Header

variable (h : Header) (data : Bytes)

-- The first five words of a file are there, and they are accepted.
def IsAccepted : Prop :=
  20 ≤ data.length ∧ ∃ order, orderOf data = some order ∧ wordAt order data 4 = 0 ∧
    find order data = h

def TablesInside : Prop :=
  ∀ row ∈ h.tableRows, row.offset + row.length ≤ data.length

instance : Decidable (h.TablesInside data) :=
  inferInstanceAs (Decidable (∀ row ∈ h.tableRows, row.offset + row.length ≤ data.length))

-- The strings of an entry lie in the file, unless they are empty.
def EntryInside (index : Nat) : Prop :=
  ∀ row ∈ Row.present (h.idAt data index) (h.textAt data index),
    row.offset + row.length ≤ data.length

instance (index : Nat) : Decidable (h.EntryInside data index) :=
  inferInstanceAs (Decidable (∀ row ∈ Row.present (h.idAt data index) (h.textAt data index),
    row.offset + row.length ≤ data.length))

-- Entries are read up to an index, where one is out of range if there is one.
structure ReadsUpTo (n : Nat) : Prop where
  le     : n ≤ h.count
  inside : ∀ i < n, h.EntryInside data i
  stops  : n < h.count → ¬h.EntryInside data n

section Reading

variable {h data} {n : Nat}

theorem IsAccepted.readTables_eq (ha : h.IsAccepted data) :
    h.readTables data =
      Outcome.barring (Row.firstFault data h.tableRows)
        ((List.range h.count).map fun i => (h.idAt data i, h.textAt data i)) := by
  obtain ⟨_, order, _, _, rfl⟩ := ha
  exact Header.readTables_eq _ (Header.count_le order data)

theorem firstFault_eq_none_iff {index : Nat} :
    Row.firstFault data (Row.present (h.idAt data index) (h.textAt data index)) = none ↔
      h.EntryInside data index :=
  Row.firstFault_eq_none

theorem ReadsUpTo.readAll_eq (r : h.ReadsUpTo data n) :
    (Item.readAll data ((List.range h.count).map fun i => (h.idAt data i, h.textAt data i))).1 =
      (List.range n).map fun i => .ofStrings (h.pairAt data i).1 (h.pairAt data i).2 := by
  obtain ⟨k, hk⟩ := Nat.exists_eq_add_of_le r.le
  have hf : ∀ row ∈ (List.range n).map fun i => (h.idAt data i, h.textAt data i),
      Row.firstFault data (Row.present row.1 row.2) = none :=
    List.forall_mem_map.mpr fun i hi =>
      firstFault_eq_none_iff.mpr (r.inside i (List.mem_range.mp hi))
  rw [hk, List.range_add, List.map_append, Item.readAll_append hf, List.map_map]
  cases k
  case zero => exact List.append_nil _
  case succ k =>
    have hs := firstFault_eq_none_iff.not.mpr (r.stops (by omega))
    rw [List.range_succ_eq_map, List.map_cons, List.map_cons, Item.readAll_cons]
    obtain ⟨e, he⟩ := Option.ne_none_iff_exists'.mp hs
    simp only [Nat.add_zero, he]
    exact List.append_nil _

end Reading

end ObjectFile.Header

namespace Log

-- What is reported of an entry: what becomes of it, among warnings about strings that are decoded.
structure Tells (index : Nat) (strings : List Bytes) (records : List Record) : Prop where
  traced : ∃ before fate after, records = before ++ .entry index fate :: after ∧
    (Record.entry index fate).level = .trace ∧ ∀ r ∈ before ++ after, r.level = .warn
  warned : records.countP (·.level = .warn) = strings.countP (¬Utf8.IsValid ·)

section Entries

theorem level_ofString (bytes : Bytes) : ∀ r ∈ ofString bytes, r.level = .warn := by
  unfold ofString
  split <;> simp [Record.level]

theorem countP_ofString (bytes : Bytes) :
    (ofString bytes).countP (·.level = .warn) = [bytes].countP (¬Utf8.IsValid ·) := by
  simp only [ofString, Utf8.isWellFormed_iff]
  split
  case isTrue h  => simp [h]
  case isFalse h => simp [h, Record.level]

theorem level_flatMap_ofString (strings : List Bytes) :
    ∀ r ∈ strings.flatMap ofString, r.level = .warn := by
  intro r hr
  have ⟨bytes, _, hr⟩ := List.mem_flatMap.mp hr
  exact level_ofString bytes r hr

theorem countP_flatMap_ofString (strings : List Bytes) :
    (strings.flatMap ofString).countP (·.level = .warn) =
      strings.countP (¬Utf8.IsValid ·) := by
  induction strings
  case nil => rfl
  case cons bytes strings ih =>
    rw [List.flatMap_cons, List.countP_append, countP_ofString, ih, ← List.countP_append]
    rfl

-- Some strings are decoded before it is known what becomes of an item, and some afterwards.
theorem tells_of_strings (index : Nat) (before : List Bytes) (fate : Fate) (after : List Bytes) :
    Tells index (before ++ after)
      (before.flatMap ofString ++ .entry index fate :: after.flatMap ofString) where
  traced := by
    refine ⟨_, fate, _, rfl, rfl, fun r hr => ?_⟩
    rw [← List.flatMap_append] at hr
    exact level_flatMap_ofString _ r hr
  warned := by
    rw [List.countP_append, List.countP_cons_of_neg (by simp [Record.level]),
      countP_flatMap_ofString, countP_flatMap_ofString, List.countP_append]

theorem tells_ofItem (index : Nat) (item : Item) :
    Tells index item.strings (ofItem index item) := by
  cases item
  case textless            => exact tells_of_strings index [] _ []
  case anonymous           => exact tells_of_strings index [] _ []
  case header text         =>
    have h := tells_of_strings index [] (.header text.length) [text]
    rwa [List.flatMap_singleton] at h
  case message id variants =>
    have h := tells_of_strings index variants (.message variants.length) [id]
    rwa [List.flatMap_singleton] at h

theorem Tells.level_ne {index : Nat} {strings : List Bytes} {records : List Record}
    (h : Tells index strings records) : ∀ r ∈ records, r.level ≠ .info := by
  obtain ⟨before, fate, after, rfl, hl, hw⟩ := h.traced
  intro r hr
  cases List.mem_append.mp hr
  case inl hr => simp [hw r (List.mem_append_left _ hr)]
  case inr hr =>
    cases hr
    case head    => simp [hl]
    case tail hr => simp [hw r (List.mem_append_right _ hr)]

theorem ofItems_append (index : Nat) (items items' : List Item) :
    ofItems index (items ++ items') =
      ofItems index items ++ ofItems (index + items.length) items' := by
  induction items generalizing index
  case nil => rfl
  case cons item items ih =>
    rw [List.cons_append, ofItems, ih, ofItems, List.append_assoc, List.length_cons,
      Nat.add_assoc, Nat.add_comm 1]

theorem ofItems_map_range (item : Nat → Item) (n : Nat) :
    ofItems 0 ((List.range n).map item) =
      (List.range n).flatMap fun i => ofItem i (item i) := by
  induction n
  case zero => rfl
  case succ n ih =>
    rw [List.range_succ, List.map_append, ofItems_append, ih, List.flatMap_append]
    simp [ofItems]

theorem level_ofItems (index : Nat) (items : List Item) :
    ∀ r ∈ ofItems index items, r.level ≠ .info := by
  induction items generalizing index
  case nil => exact List.forall_mem_nil _
  case cons item items ih =>
    exact List.forall_mem_append.mpr ⟨(tells_ofItem index item).level_ne, ih _⟩

end Entries

section Reading

variable {h : Header} {data : Bytes}

-- What is reported of the entry with an index.
def ofEntry (h : Header) (data : Bytes) (index : Nat) : List Record :=
  ofItem index (.ofStrings (h.pairAt data index).1 (h.pairAt data index).2)

-- What is reported of the header and of the first entries.
def ofEntries (h : Header) (data : Bytes) (n : Nat) : List Record :=
  .layout h :: (List.range n).flatMap (ofEntry h data)

theorem tells_ofEntry (h : Header) (data : Bytes) (index : Nat) :
    Tells index (Content.decoded (h.pairAt data index)) (ofEntry h data index) := by
  rw [← Item.strings_ofStrings]
  exact tells_ofItem index _

theorem ofReading_of_not_accepted (hn : ∀ h : Header, ¬h.IsAccepted data) :
    ofReading (.ofBytes data) = [] := by
  rw [Reading.ofBytes]
  cases hr : Header.read data
  case error => rfl
  case ok h  => exact absurd (Header.read_eq_ok_iff.mp hr) (hn h)

theorem ofReading_of_tables (ha : h.IsAccepted data) (ht : ¬h.TablesInside data) :
    ofReading (.ofBytes data) = [.layout h] := by
  obtain ⟨e, he⟩ := Option.ne_none_iff_exists'.mp (Row.firstFault_eq_none.not.mpr ht)
  simp only [Reading.ofBytes, Header.read_eq_ok_iff.mpr ha, ha.readTables_eq, he]
  rfl

theorem ofReading_of_readsUpTo (ha : h.IsAccepted data) (ht : h.TablesInside data) {n : Nat}
    (hn : h.ReadsUpTo data n) : ofReading (.ofBytes data) = ofEntries h data n := by
  have hf := Row.firstFault_eq_none.mpr ht
  simp only [Reading.ofBytes, Header.read_eq_ok_iff.mpr ha, ha.readTables_eq, hf]
  change .layout h :: ofItems 0 (Item.readAll data _).1 = _
  rw [hn.readAll_eq, ofItems_map_range]
  rfl

theorem level_ofReading (reading : Reading) : ∀ r ∈ ofReading reading, r.level ≠ .info := by
  cases reading
  case refused e        => exact List.forall_mem_nil _
  case unlisted h e     => simp [ofReading, Record.level]
  case listed h items e => exact List.forall_mem_cons.mpr ⟨nofun, level_ofItems 0 items⟩

-- Each string that is decoded and not well formed has its own warning.
theorem countP_ofEntries (h : Header) (data : Bytes) :
    (ofEntries h data h.count).countP (·.level = .warn) =
      ((h.pairs data).flatMap Content.decoded).countP (¬Utf8.IsValid ·) := by
  rw [ofEntries, List.countP_cons_of_neg (by simp [Record.level]), List.countP_flatMap, Header.pairs,
    List.flatMap_map, List.countP_flatMap]
  exact congrArg List.sum (List.map_congr_left fun i _ => (tells_ofEntry h data i).warned)

end Reading

end Log

namespace Catalog

open Log

-- The log of a catalog that is loaded: all entries are reported, and at last the catalog.
structure Complete (h : Header) (data : Bytes) (c : Catalog) (log : List Record) : Prop where
  accepted : h.IsAccepted data
  tables   : h.TablesInside data
  entries  : ∀ i < h.count, h.EntryInside data i
  records  : ∃ info : Record, log = ofEntries h data h.count ++ [info] ∧ info.level = .info ∧
    info = .loaded c.locale c.size c.rule.forms
  warned   : log.countP (·.level = .warn) =
    ((h.pairs data).flatMap Content.decoded).countP (¬Utf8.IsValid ·)

-- A log goes as far as the load does.
structure Mirrors (data : Bytes) (locale : Option String) (log : List Record) : Prop where
  loaded   : ∀ c, ofBytes data locale = .ok c → ∃ h : Header, Complete h data c log
  failed   : ∀ e, ofBytes data locale = .error e → ∀ r ∈ log, r.level ≠ .info
  refused  : (∀ h : Header, ¬h.IsAccepted data) → log = []
  unlisted : ∀ h : Header, h.IsAccepted data → ¬h.TablesInside data → log = [.layout h]
  -- The first entry that is out of range has no record.
  cut      : ∀ h : Header, h.IsAccepted data → h.TablesInside data → ∀ i < h.count,
    (∀ j < i, h.EntryInside data j) → ¬h.EntryInside data i → log = ofEntries h data i
  -- Nothing but the rule is left that can be refused.
  unruled  : ∀ h : Header, h.IsAccepted data → h.TablesInside data →
    (∀ i < h.count, h.EntryInside data i) → ∀ e, ofBytes data locale = .error e →
      (∃ source fault, e = .invalidRule source fault) ∧ log = ofEntries h data h.count

section Loads

variable {h : Header} {data : Bytes} {locale : Option String} {c : Catalog}

theorem forall_inside_iff :
    (∀ row ∈ h.tableRows ++ h.stringRows data, row.offset + row.length ≤ data.length) ↔
      h.TablesInside data ∧ ∀ i < h.count, h.EntryInside data i := by
  rw [List.forall_mem_append, Header.stringRows, List.forall_mem_flatMap]
  simp only [List.mem_range]
  rfl

-- Nothing of a file that is loaded is out of range.
theorem inside_of_ofBytes (hc : ofBytes data locale = .ok c) (ha : h.IsAccepted data) :
    h.TablesInside data ∧ ∀ i < h.count, h.EntryInside data i := by
  have ⟨_, hd, _⟩ := ofBytes_eq_ok.mp hc
  have ⟨_, hr, hi, _⟩ := decode_eq_ok_iff.mp hd
  cases hr.symm.trans (Header.read_eq_ok_iff.mpr ha)
  exact forall_inside_iff.mp hi

theorem isAccepted_of_ofBytes (hc : ofBytes data locale = .ok c) :
    ∃ h : Header, h.IsAccepted data := by
  have ⟨_, hd, _⟩ := ofBytes_eq_ok.mp hc
  have ⟨h, hr, _⟩ := decode_eq_ok_iff.mp hd
  exact ⟨h, Header.read_eq_ok_iff.mp hr⟩

theorem log_of_ok (hc : ofBytes data locale = .ok c) :
    log data locale = ofReading (.ofBytes data) ++ [ofCatalog c] := by
  rw [log, hc]
  rfl

theorem log_of_not_ok (hn : ∀ c, ofBytes data locale ≠ .ok c) :
    log data locale = ofReading (.ofBytes data) := by
  rw [log]
  cases hb : ofBytes data locale
  case error e => exact List.append_nil _
  case ok c    => exact absurd hb (hn c)

theorem readsUpTo_count (hi : ∀ i < h.count, h.EntryInside data i) :
    h.ReadsUpTo data h.count :=
  ⟨le_rfl, hi, fun hl => absurd hl (lt_irrefl _)⟩

theorem complete_log (hc : ofBytes data locale = .ok c) (ha : h.IsAccepted data) :
    Complete h data c (log data locale) := by
  obtain ⟨ht, hi⟩ := inside_of_ofBytes hc ha
  have hl := log_of_ok hc
  rw [ofReading_of_readsUpTo ha ht (readsUpTo_count hi)] at hl
  refine ⟨ha, ht, hi, ⟨ofCatalog c, hl, rfl, rfl⟩, ?_⟩
  rw [hl, List.countP_append, countP_ofEntries]
  rfl

theorem exists_fault_of_inside (ha : h.IsAccepted data) (ht : h.TablesInside data)
    (hi : ∀ i < h.count, h.EntryInside data i) {e : LoadError}
    (he : ofBytes data locale = .error e) : ∃ source fault, e = .invalidRule source fault := by
  have hd := decode_eq_ok_iff.mpr
    ⟨h, Header.read_eq_ok_iff.mpr ha, forall_inside_iff.mpr ⟨ht, hi⟩, rfl⟩
  rw [ofBytes_of_decode hd] at he
  have ⟨fault, _, he⟩ := ofContent_eq_error.mp he
  exact ⟨_, fault, he⟩

end Loads

theorem mirrors_log (data : Bytes) (locale : Option String) :
    load data locale = ⟨ofBytes data locale, log data locale⟩ ∧
      Mirrors data locale (log data locale) ∧
      ∀ h : Header, (Record.layout h).level = .debug ∧
        ∀ i, Tells i (Content.decoded (h.pairAt data i)) (ofEntry h data i) := by
  refine ⟨load_eq data locale, ?_, fun h => ⟨rfl, tells_ofEntry h data⟩⟩
  constructor
  case loaded =>
    intro c hc
    obtain ⟨h, ha⟩ := isAccepted_of_ofBytes hc
    exact ⟨h, complete_log hc ha⟩
  case failed =>
    intro e he
    rw [log_of_not_ok (by simp [he])]
    exact level_ofReading _
  case refused =>
    intro hn
    rw [log_of_not_ok, ofReading_of_not_accepted hn]
    intro c hc
    have ⟨h, ha⟩ := isAccepted_of_ofBytes hc
    exact hn h ha
  case unlisted =>
    intro h ha ht
    rw [log_of_not_ok, ofReading_of_tables ha ht]
    exact fun c hc => ht (inside_of_ofBytes hc ha).left
  case cut =>
    intro h ha ht i hi hb hs
    rw [log_of_not_ok, ofReading_of_readsUpTo ha ht ⟨hi.le, hb, fun _ => hs⟩]
    exact fun c hc => hs ((inside_of_ofBytes hc ha).right i hi)
  case unruled =>
    intro h ha ht hi e he
    refine ⟨exists_fault_of_inside ha ht hi he, ?_⟩
    rw [log_of_not_ok (by simp [he]), ofReading_of_readsUpTo ha ht (readsUpTo_count hi)]

-- Strings of a header, of a variant and of an id that are not well formed, and the file cut off in
-- that variant.
theorem mirrors_log_broken :
    ∃ pairs data, pairs = [([], [65, 58, 32, 0xff]), ([97, 0xff], [98, 0, 0xc3]), ([99], [])] ∧
      data = encode .little pairs ∧ (∃ c, ofBytes data none = .ok c) ∧
      (log data none).map Record.level =
        [.debug, .trace, .warn, .warn, .trace, .warn, .trace, .info] ∧
      (log (data.take 89) none).map Record.level = [.debug, .trace, .warn] := by
  let pairs : List (Bytes × Bytes) :=
    [([], [65, 58, 32, 0xff]), ([97, 0xff], [98, 0, 0xc3]), ([99], [])]
  let data := encode .little pairs
  have hf : Encoding.Fits pairs := ⟨by decide, by decide⟩
  obtain ⟨c, hc⟩ := exists_ofBytes_of_silent hf (by decide) .little none
  refine ⟨pairs, data, rfl, rfl, ⟨c, hc⟩, ?loaded, ?cut⟩
  case loaded =>
    obtain ⟨h, ha, _, _, ⟨info, hl, hi, _⟩, _⟩ := (mirrors_log data none).right.left.loaded c hc
    cases (Header.read_eq_ok_iff.mpr ha).symm.trans (readHeader_encode hf .little)
    rw [hl, List.map_append, List.map_singleton, hi]
    decide
  case cut =>
    have ha : (Encoding.header pairs .little).IsAccepted (data.take 89) :=
      ⟨by decide, .little, by decide, by decide, by decide⟩
    rw [(mirrors_log (data.take 89) none).right.left.cut _ ha (by decide) 1 (by decide)
      (by decide) (by decide)]
    decide

end Catalog

end MessageCatalog
