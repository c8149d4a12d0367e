import MessageCatalog.Template.Format

namespace MessageCatalog

-- What gives messages in another language. A message that it does not have stays as it is.
class Translator (α : Type) where
  -- The text of a message.
  singular : α → String → String
  -- The text of a message in the form for a count.
  counted : α → String → Int64 → String
  locale : α → Option String := fun _ => none

namespace Translator

variable {α : Type} [Translator α]

-- The text of a message, filled with arguments if there are any. The first argument is the count
-- if it is an integer, and is filled in like the others.
def translate (t : α) (id : String) (args : List Argument) : Except FormatError String :=
  let text :=
    match args.head?.bind Argument.count? with
    | some n => counted t id n
    | none   => singular t id
  if args = [] then .ok text else format text args

end Translator

end MessageCatalog
