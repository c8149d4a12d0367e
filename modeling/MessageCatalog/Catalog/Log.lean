import MessageCatalog.Catalog.Basic
import MessageCatalog.Text.Quote

namespace MessageCatalog

open Text

namespace Log

inductive Level
  | debug
  | trace
  | warn
  | info
  deriving DecidableEq

def Level.name : Level → String
  | debug => "DEBUG"
  | trace => "TRACE"
  | warn  => "WARN"
  | info  => "INFO"

-- What became of an item.
inductive Fate
  | textless
  | header (length : Nat)
  | anonymous
  | message (variants : Nat)
  deriving DecidableEq

-- What is reported: how a file is laid out, what became of each item, which strings had to be
-- repaired, and the catalog that came out of it.
inductive Record
  | layout (header : ObjectFile.Header)
  | entry (index : Nat) (fate : Fate)
  | repaired (string : String)
  | loaded (locale : Option String) (messages forms : Nat)
  deriving DecidableEq

def Record.level : Record → Level
  | layout _   => .debug
  | entry ..   => .trace
  | repaired _ => .warn
  | loaded ..  => .info

def Fate.text : Fate → String
  | textless         => "empty translation, skipped"
  | header length    => s!"catalog header, {length} bytes"
  | anonymous        => "original starts with NUL, skipped"
  | message variants => s!"{variants} variant(s)"

def Record.text : Record → String
  | layout h =>
    s!"MO catalog: {h.order.name} endian, {h.count} strings, " ++
      s!"originals at {hex h.ids}, translations at {hex h.texts}"
  | entry index fate             => s!"Entry {index}: {fate.text}"
  | repaired s                   => s!"Invalid UTF-8 in catalog string, replaced: {quote s}"
  | loaded locale messages forms =>
    s!"Loaded catalog for locale {option locale}: {messages} messages, {forms} plural forms"
where
  hex (n : Nat) : String :=
    "0x" ++ String.ofList (Nat.toDigits 16 n)
  option : Option String → String
    | none   => "None"
    | some s => s!"Some({quote s})"

def Fate.ofItem : ObjectFile.Item → Fate
  | .textless           => textless
  | .header text        => header text.length
  | .anonymous          => anonymous
  | .message _ variants => message variants.length

-- A warning about a string, if it is not well formed.
def ofString (bytes : Bytes) : List Record :=
  if Utf8.isWellFormed bytes then
    []
  else
    [.repaired (Utf8.decode bytes)]

-- The variants of a message are decoded before its id.
def ofItem (index : Nat) (item : ObjectFile.Item) : List Record :=
  match item with
  | .textless | .anonymous => [fate]
  | .header text           => fate :: ofString text
  | .message id variants   => variants.flatMap ofString ++ fate :: ofString id
where
  fate : Record := .entry index (.ofItem item)

-- The records of items that are numbered from `index` on.
def ofItems (index : Nat) : List ObjectFile.Item → List Record
  | []            => []
  | item :: items => ofItem index item ++ ofItems (index + 1) items

def ofReading : ObjectFile.Reading → List Record
  | .refused _        => []
  | .unlisted h _     => [.layout h]
  | .listed h items _ => .layout h :: ofItems 0 items

def ofCatalog (c : Catalog) : Record :=
  .loaded c.locale c.size c.rule.forms

end Log

-- What loading a catalog reports. Only a catalog that is loaded is reported as one.
def Catalog.log (data : Bytes) (locale : Option String) : List Log.Record :=
  Log.ofReading (.ofBytes data) ++ (ofBytes data locale).toOption.toList.map Log.ofCatalog

end MessageCatalog
