import MessageCatalog.ObjectFile.Reader

namespace MessageCatalog.ObjectFile

-- Why a file is refused.
inductive FileError
  | tooShort (length : Nat)
  | badMagic (magic : Nat)
  | unsupportedRevision (revision : Nat)
  | truncated (e : ReadError)
  deriving DecidableEq

-- The digits of a word in base 16.
def hexWord (n : Nat) : String :=
  String.ofList ((Nat.toDigits 16 n).leftpad 8 '0')

def FileError.message : FileError → String
  | tooShort length => s!"not a gettext catalog: only {length} bytes"
  | badMagic magic => s!"not a gettext catalog: bad magic number 0x{hexWord magic}"
  | unsupportedRevision revision => s!"not a gettext catalog: unsupported revision {revision}"
  | truncated e => s!"truncated gettext catalog: {e.message}"

-- The byte order of the words, the number of messages, and where the tables of their ids and of
-- their texts stand. A table has a row for each message.
structure Header where
  order : ByteOrder
  count : Nat
  ids : Nat
  texts : Nat
  deriving DecidableEq

-- Where a string stands.
structure Row where
  length : Nat
  offset : Nat
  deriving DecidableEq

namespace Header

-- What is shorter is no object file.
def leastLength : Nat := 10

-- The first word of a file whose words are read in the byte order of the file.
def magic : Nat := 0x950412de

-- The first word of a file whose words are read in the other byte order.
def swappedMagic : Nat := 0xde120495

def readOrder (data : Bytes) : Except FileError ByteOrder := do
  let (word, _) ← (Reader.start data .little).word.mapError .truncated
  if word = magic then
    return .little
  else if word = swappedMagic then
    return .big
  else
    throw (.badMagic word)

def read (data : Bytes) : Except FileError Header := do
  if data.length < leastLength then
    throw (.tooShort data.length)
  let order ← readOrder data
  let r ← ((Reader.start data order).seek 4).mapError .truncated
  let (revision, r) ← r.word.mapError .truncated
  if revision ≠ 0 then
    throw (.unsupportedRevision revision)
  let (count, r) ← r.word.mapError .truncated
  let (ids, r) ← r.word.mapError .truncated
  let (texts, _) ← r.word.mapError .truncated
  return { order, count, ids, texts }

-- The rows that consecutive pairs of words make.
def pair : List Nat → List Row
  | length :: offset :: ws => { length, offset } :: pair ws
  | _                      => []

def readTable (h : Header) (data : Bytes) (offset : Nat) : Except ReadError (List Row) := do
  let r ← (Reader.start data h.order).seek offset
  let (words, _) ← r.words (2 * h.count)
  return pair words

-- Where the id and the text of each message stand.
def readTables (h : Header) (data : Bytes) : Except ReadError (List (Row × Row)) := do
  let ids ← h.readTable data h.ids
  let texts ← h.readTable data h.texts
  return ids.zip texts

end Header

end MessageCatalog.ObjectFile
