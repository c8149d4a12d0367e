import Std.Data.ExtTreeMap

namespace MessageCatalog

-- The variants of each message: the first is the singular, and the others are the plural forms.
abbrev Messages := Std.ExtTreeMap String (List String)

instance : DecidableEq Messages :=
  inferInstance

end MessageCatalog
