import MessageCatalog.Messages
import MessageCatalog.ObjectFile.Item
import MessageCatalog.Text.Utf8

namespace MessageCatalog.ObjectFile

open Text

structure Content where
  messages : Messages := ∅
  header : String := ""
  deriving DecidableEq

namespace Content

-- Headers are joined by line feeds. The last message of an id counts.
def add (c : Content) : Item → Content
  | .textless | .anonymous => c
  | .header text =>
    if c.header = "" then
      { c with header := Utf8.decode text }
    else
      { c with header := c.header ++ "\n" ++ Utf8.decode text }
  | .message id variants =>
    { c with messages := c.messages.insert (Utf8.decode id) (variants.map Utf8.decode) }

def ofItems (items : List Item) : Content :=
  items.foldl add {}

end Content

inductive Reading
  -- The file is refused before its tables are looked for.
  | refused (e : FileError)
  -- A table is out of range.
  | unlisted (h : Header) (e : ReadError)
  -- The items were read, up to the one at which reading failed if it did.
  | listed (h : Header) (items : List Item) (e : Option ReadError)
  deriving DecidableEq

namespace Reading

def ofBytes (data : Bytes) : Reading :=
  match Header.read data with
  | .error e => .refused e
  | .ok h    =>
    match h.readTables data with
    | .error e => .unlisted h e
    | .ok rows =>
      let (items, e) := Item.readAll data rows
      .listed h items e

def content : Reading → Except FileError Content
  | refused e           => .error e
  | unlisted _ e        => .error (.truncated e)
  | listed _ _ (some e) => .error (.truncated e)
  | listed _ items none => .ok (.ofItems items)

end Reading

-- The content of a file, or why it has none.
def decode (data : Bytes) : Except FileError Content :=
  (Reading.ofBytes data).content

end MessageCatalog.ObjectFile
