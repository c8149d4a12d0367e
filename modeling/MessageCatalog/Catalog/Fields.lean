import MessageCatalog.Text.Blank
import Std.Data.ExtTreeMap

namespace MessageCatalog

open Text

-- The values of keys.
abbrev Fields := Std.ExtTreeMap String String

instance : DecidableEq Fields :=
  inferInstance

namespace Fields

-- What stands before and after the first colon with a space.
def splitLine : List Char → Option (List Char × List Char)
  | []               => none
  | ':' :: ' ' :: cs => some ([], cs)
  | c :: cs          => (splitLine cs).map fun (key, value) => (c :: key, value)

-- The key of a line, without white space around it, and its value as it stands.
def ofLine? (line : List Char) : Option (String × String) :=
  (splitLine line).map fun (key, value) => (String.ofList (trim isWhite key), String.ofList value)

def ofBlock (block : String) : List (String × String) :=
  (block.toList.splitOn '\n').filterMap ofLine?

-- Adds the fields of a block of lines. Of several values of a key the last one counts.
def extend (fields : Fields) (block : String) : Fields :=
  (ofBlock block).foldl (fun fields (key, value) => fields.insert key value) fields

def parse (block : String) : Fields :=
  extend ∅ block

end Fields

end MessageCatalog
