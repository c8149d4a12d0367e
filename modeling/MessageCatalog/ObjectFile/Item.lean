import MessageCatalog.ObjectFile.Header

namespace MessageCatalog.ObjectFile

-- What the two strings of a message stand for. A text has a NUL between two variants, and an id may
-- have a NUL before its plural.
inductive Item
  -- A message without a text.
  | textless
  -- A header of the catalog, which is the text of the empty id.
  | header (text : Bytes)
  -- A message whose id is empty up to its NUL.
  | anonymous
  | message (id : Bytes) (variants : List Bytes)
  deriving DecidableEq

-- The string of a row. The offset of an empty one is not looked at.
def Row.read (row : Row) (data : Bytes) : Except ReadError Bytes :=
  if row.length = 0 then
    .ok []
  else do
    let r ← (Reader.start data .little).seek row.offset
    let (bs, _) ← r.bytes row.length
    return bs

namespace Item

def ofStrings (id text : Bytes) : Item :=
  match text, id with
  | [], _ => .textless
  | _, [] => .header text
  | _, _  =>
    match id.takeWhile (· ≠ 0) with
    | []  => .anonymous
    | key => .message key (text.splitOn 0)

-- An id that is out of range is reported before a text that is.
def read (data : Bytes) (id text : Row) : Except ReadError Item := do
  let id ← id.read data
  return ofStrings id (← text.read data)

-- The items before the first one that is out of range, and the error of that one.
def readAll (data : Bytes) : List (Row × Row) → List Item × Option ReadError
  | [] => ([], none)
  | (id, text) :: rows =>
    match read data id text with
    | .error e => ([], some e)
    | .ok item =>
      let (items, e) := readAll data rows
      (item :: items, e)

end Item

end MessageCatalog.ObjectFile
