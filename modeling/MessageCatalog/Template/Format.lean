import MessageCatalog.Template.Basic
import MessageCatalog.Template.Placeholder.Render

namespace MessageCatalog

inductive FormatError
  | missingArgument (index supplied : Nat)
  | invalidPlaceholder (position : Nat) (flaw : Flaw)
  deriving DecidableEq

def FormatError.message : FormatError → String
  | missingArgument index supplied =>
    s!"placeholder refers to argument {index} but only {supplied} supplied"
  | invalidPlaceholder position flaw =>
    s!"invalid placeholder at byte {position}: {flaw.text}"

namespace Template

-- Fills pieces. Placeholders without a number take the arguments from `next` on.
def fill (args : List Argument) (next : Nat) : List Piece → Except FormatError (List Char)
  | []            => .ok []
  | .text c :: ps => return c :: (← fill args next ps)
  | .percent :: ps => return '%' :: (← fill args next ps)
  | .slot p :: ps => do
    let index := p.argument.getD next
    let some a := args[index - 1]? | throw (.missingArgument index args.length)
    return p.render a ++ (← fill args (if p.argument = none then next + 1 else next) ps)

def format (t : Template) (args : List Argument) : Except FormatError String := do
  let cs ← fill args 1 t.pieces
  match t.fault with
  | none                  => return String.ofList cs
  | some (position, flaw) => throw (.invalidPlaceholder position flaw)

end Template

def format (template : String) (args : List Argument) : Except FormatError String :=
  (Template.ofString template).format args

end MessageCatalog
