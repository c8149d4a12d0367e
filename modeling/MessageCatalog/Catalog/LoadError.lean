import MessageCatalog.ObjectFile.Header
import MessageCatalog.Plural.Fault

namespace MessageCatalog

-- Why there is nothing to read at a path.
inductive Unreadable
  | notFound
  | isDirectory
  deriving DecidableEq

def Unreadable.text : Unreadable → String
  | notFound    => "no such file or directory"
  | isDirectory => "is a directory"

inductive LoadError
  | unreadable (path : String) (cause : Unreadable)
  | invalidFile (e : ObjectFile.FileError)
  | invalidRule (rule : String) (fault : Plural.Fault)
  deriving DecidableEq

namespace LoadError

-- What a message about an unreadable file says before the cause.
def unreadableText (path : String) : String :=
  s!"cannot open translation file '{path}': "

def message : LoadError → String
  | unreadable path cause  => unreadableText path ++ cause.text
  | invalidFile e          => e.message
  | invalidRule rule fault => s!"invalid Plural-Forms '{rule}': {fault.message}"

end LoadError

end MessageCatalog
