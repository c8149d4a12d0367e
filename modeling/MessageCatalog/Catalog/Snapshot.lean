import MessageCatalog.Catalog.Basic

namespace MessageCatalog

-- What a catalog is made of, with the rule as text.
structure Snapshot where
  locale : Option String
  messages : Messages
  fields : Fields
  rule : String
  deriving DecidableEq

namespace Snapshot

-- A message can be looked up when it has an id and a variant.
def canLookUp (id : String) (variants : List String) : Bool :=
  id ≠ "" ∧ variants ≠ []

-- The catalog of a snapshot. Its rule is compiled anew, whatever the fields say.
def restore (s : Snapshot) : Except LoadError Catalog := do
  let rule ← Catalog.compileRule s.rule
  return {
    locale := s.locale
    messages := s.messages.filter canLookUp
    fields := s.fields
    rule }

def setRule (s : Snapshot) (rule : String) : Snapshot :=
  { s with rule }

def setLocale (s : Snapshot) (locale : Option String) : Snapshot :=
  { s with locale }

def setField (s : Snapshot) (key value : String) : Snapshot :=
  { s with fields := s.fields.insert key value }

def put (s : Snapshot) (id : String) (variants : List String) : Snapshot :=
  { s with messages := s.messages.insert id variants }

def remove (s : Snapshot) (id : String) : Snapshot :=
  { s with messages := s.messages.erase id }

end Snapshot

def Catalog.snapshot (c : Catalog) : Snapshot where
  locale := c.locale
  messages := c.messages
  fields := c.fields
  rule := c.rule.source

end MessageCatalog
