import MessageCatalog.Catalog.Log
import MessageCatalog.Proofs.Catalog.Basic
import MessageCatalog.Proofs.ObjectFile.Decoding

namespace MessageCatalog

open ObjectFile Text

-- An outcome, and what was reported on the way to it.
structure Reported (α : Type) where
  outcome : Except LoadError α
  records : List Log.Record

namespace Reported

variable {ε α β : Type}

instance : Monad Reported where
  pure a := ⟨.ok a, []⟩
  bind x f :=
    match x.outcome with
    | .ok a    => ⟨(f a).outcome, x.records ++ (f a).records⟩
    | .error e => ⟨.error e, x.records⟩

def report (r : Log.Record) : Reported Unit :=
  ⟨.ok (), [r]⟩

-- A step that reports nothing.
def attempt (x : Except ε α) (f : ε → LoadError) : Reported α :=
  ⟨x.mapError f, []⟩

@[simp]
theorem pure_eq (a : α) : (pure a : Reported α) = ⟨.ok a, []⟩ :=
  rfl

@[simp]
theorem ok_bind (a : α) (rs : List Log.Record) (f : α → Reported β) :
    ((⟨.ok a, rs⟩ : Reported α) >>= f) = ⟨(f a).outcome, rs ++ (f a).records⟩ :=
  rfl

@[simp]
theorem attempt_ok (a : α) (f : ε → LoadError) : attempt (.ok a) f = ⟨.ok a, []⟩ :=
  rfl

end Reported

open Reported

namespace ObjectFile

theorem Row.ne_nil_of_read {row : Row} {data bs : Bytes} (h : row.read data = .ok bs)
    (hl : row.length ≠ 0) : bs ≠ [] := by
  rw [row.read_eq] at h
  cases hf : firstFault data ([row].filter (·.length ≠ 0))
  case some =>
    rw [hf] at h
    cases h
  case none =>
    rw [hf] at h
    cases h
    exact bytes_ne_nil (firstFault_eq_none.mp hf row (by simp [hl])) hl

-- Decodes a string, and warns if it is not well formed.
def decodeString (bytes : Bytes) : Reported String := do
  unless Utf8.isWellFormed bytes do
    report (.repaired (Utf8.decode bytes))
  return Utf8.decode bytes

def decodeStrings : List Bytes → Reported (List String)
  | []            => return []
  | bytes :: rest => do
    let s ← decodeString bytes
    return s :: (← decodeStrings rest)

theorem decodeString_eq (bytes : Bytes) :
    decodeString bytes = ⟨.ok (Utf8.decode bytes), Log.ofString bytes⟩ := by
  rw [decodeString, Log.ofString]
  cases Utf8.isWellFormed bytes <;> rfl

theorem decodeStrings_eq (strings : List Bytes) :
    decodeStrings strings = ⟨.ok (strings.map Utf8.decode), strings.flatMap Log.ofString⟩ := by
  induction strings
  case nil => rfl
  case cons bytes rest ih => simp [decodeStrings, decodeString_eq, ih]

namespace Content

-- Adds the strings of the message with an index. They are decoded only when it is known what they
-- are, and variants before it is reported how many they are.
def addStrings (c : Content) (index : Nat) (id text : Bytes) : Reported Content := do
  if id = [] then
    report (.entry index (.header text.length))
    let text ← decodeString text
    return { c with header := (if c.header = "" then "" else c.header ++ "\n") ++ text }
  let key := id.takeWhile (· ≠ 0)
  if key = [] then
    report (.entry index .anonymous)
    return c
  let variants ← decodeStrings (text.splitOn 0)
  report (.entry index (.message variants.length))
  let key ← decodeString key
  return { c with messages := c.messages.insert key variants }

-- Adds the message with an index, which is skipped if it has no text.
def loadEntry (data : Bytes) (c : Content) (index : Nat) (id text : Row) : Reported Content := do
  let id ← attempt (id.read data) (.invalidFile ∘ .truncated)
  if text.length = 0 then
    report (.entry index .textless)
    return c
  let text ← attempt (text.read data) (.invalidFile ∘ .truncated)
  c.addStrings index id text

-- Adds messages that are numbered from `index` on.
def loadEntries (data : Bytes) (c : Content) (index : Nat) :
    List (Row × Row) → Reported Content
  | []                 => return c
  | (id, text) :: rows => do
    let c ← loadEntry data c index id text
    loadEntries data c (index + 1) rows

-- What is reported on each way through is what the log has of its item.
theorem addStrings_eq (c : Content) (index : Nat) {id text : Bytes} (h : text ≠ []) :
    c.addStrings index id text =
      ⟨.ok (c.add (.ofStrings id text)), Log.ofItem index (.ofStrings id text)⟩ := by
  rw [add_ofStrings]
  match text, id with
  | _ :: _, [] =>
    simp [addStrings, decodeString_eq, contribute, Item.ofStrings, Log.ofItem, Log.ofItem.fate,
      Log.Fate.ofItem, report]
  | _ :: _, b :: id =>
    by_cases hb : b = 0
    case pos =>
      simp [addStrings, contribute, Item.ofStrings, Log.ofItem, Log.ofItem.fate, Log.Fate.ofItem,
        report, hb]
    case neg =>
      simp [addStrings, decodeString_eq, decodeStrings_eq, contribute, Item.ofStrings, Log.ofItem,
        Log.ofItem.fate, Log.Fate.ofItem, report, hb]

theorem loadEntry_eq (data : Bytes) (c : Content) (index : Nat) (id text : Row) :
    loadEntry data c index id text =
      match Item.read data id text with
      | .ok item => ⟨.ok (c.add item), Log.ofItem index item⟩
      | .error e => ⟨.error (.invalidFile (.truncated e)), []⟩ := by
  rw [loadEntry, Item.read]
  cases id.read data
  case error e => rfl
  case ok id =>
    rw [attempt_ok, ok_bind]
    by_cases hl : text.length = 0
    case pos =>
      have ht : text.read data = .ok [] := if_pos hl
      rw [if_pos hl, ht]
      rfl
    case neg =>
      rw [if_neg hl]
      cases ht : text.read data
      case error e => rfl
      case ok text =>
        rw [attempt_ok, ok_bind, addStrings_eq c index (Row.ne_nil_of_read ht hl)]
        rfl

theorem loadEntries_eq (data : Bytes) (c : Content) (index : Nat) (rows : List (Row × Row)) :
    loadEntries data c index rows =
      { outcome :=
          match (Item.readAll data rows).2 with
          | some e => .error (.invalidFile (.truncated e))
          | none   => .ok ((Item.readAll data rows).1.foldl add c)
        records := Log.ofItems index (Item.readAll data rows).1 } := by
  induction rows generalizing c index
  case nil => rfl
  case cons row rows ih =>
    rw [loadEntries, loadEntry_eq, Item.readAll]
    cases Item.read data row.1 row.2
    case error e => rfl
    case ok item =>
      rw [ok_bind, ih]
      rfl

end Content

-- Reads the content of a file.
def load (data : Bytes) : Reported Content := do
  let h ← attempt (Header.read data) .invalidFile
  report (.layout h)
  let rows ← attempt (h.readTables data) (.invalidFile ∘ .truncated)
  Content.loadEntries data {} 0 rows

theorem load_eq (data : Bytes) :
    load data = ⟨(decode data).mapError .invalidFile, Log.ofReading (.ofBytes data)⟩ := by
  rw [load, decode, Reading.ofBytes]
  cases Header.read data
  case error e => rfl
  case ok h =>
    rw [attempt_ok, ok_bind, report, ok_bind]
    dsimp only
    cases h.readTables data
    case error e => rfl
    case ok rows =>
      rw [attempt_ok, ok_bind, Content.loadEntries_eq]
      dsimp only
      cases (Item.readAll data rows).2 <;> rfl

end ObjectFile

namespace Catalog

-- Loads a catalog.
def load (data : Bytes) (locale : Option String) : Reported Catalog := do
  let content ← ObjectFile.load data
  let c ← attempt (ofContent content locale) id
  report (Log.ofCatalog c)
  return c

theorem load_eq (data : Bytes) (locale : Option String) :
    load data locale = ⟨ofBytes data locale, log data locale⟩ := by
  rw [load, ObjectFile.load_eq, log]
  cases hd : decode data
  case error e =>
    have hb : ofBytes data locale = .error (.invalidFile e) := by
      rw [ofBytes, hd]
      rfl
    rw [hb]
    exact congrArg _ (List.append_nil _).symm
  case ok content =>
    rw [ofBytes_of_decode hd, Except.mapError, ok_bind]
    cases ofContent content locale <;> rfl

end Catalog

end MessageCatalog
