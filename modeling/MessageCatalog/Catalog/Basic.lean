import MessageCatalog.Catalog.Fields
import MessageCatalog.Catalog.LoadError
import MessageCatalog.ObjectFile.Content
import MessageCatalog.Plural.Rule
import MessageCatalog.Translator

namespace MessageCatalog

structure Catalog where
  locale : Option String
  messages : Messages
  fields : Fields
  rule : Plural.Rule
  deriving DecidableEq

namespace Catalog

def compileRule (source : String) : Except LoadError Plural.Rule :=
  (Plural.Rule.parse source).mapError (.invalidRule source)

-- The field with the rule.
def ruleKey : String :=
  "Plural-Forms"

-- The text of the rule that a header states, or of the default one.
def ruleSource (fields : Fields) : String :=
  fields[ruleKey]?.getD Plural.Rule.defaultSource

def ruleOfFields (fields : Fields) : Except LoadError Plural.Rule :=
  compileRule (ruleSource fields)

def ofContent (content : ObjectFile.Content) (locale : Option String) :
    Except LoadError Catalog := do
  let fields := Fields.parse content.header
  let rule ← ruleOfFields fields
  return { locale, messages := content.messages, fields, rule }

def ofBytes (data : Bytes) (locale : Option String) : Except LoadError Catalog := do
  let content ← (ObjectFile.decode data).mapError .invalidFile
  ofContent content locale

-- The catalog in what reading the file at a path gave.
def ofFile (path : String) (file : Except Unreadable Bytes) (locale : Option String) :
    Except LoadError Catalog := do
  ofBytes (← file.mapError (.unreadable path)) locale

def size (c : Catalog) : Nat :=
  c.messages.size

def isEmpty (c : Catalog) : Bool :=
  c.messages.isEmpty

-- The variants stored for a message.
def variants? (c : Catalog) (id : String) : Option (List String) :=
  c.messages[id]?

-- The index of the variant that the rule selects for a count, or of the singular.
def indexFor (c : Catalog) (count : Option Int64) : Nat :=
  (count.bind c.rule.select).getD 0

-- The variant of a message for a count, if there is a count. One that is not stored is replaced by
-- the singular.
def lookup (c : Catalog) (id : String) (count : Option Int64) : String :=
  if id = "" then
    id
  else
    match c.variants? id with
    | none          => id
    | some variants => (variants[c.indexFor count]? <|> variants.head?).getD id

instance : Translator Catalog where
  singular c id := c.lookup id none
  counted c id n := c.lookup id (some n)
  locale := Catalog.locale

end Catalog

end MessageCatalog
