import MessageCatalog.Template.Placeholder.Reader

namespace MessageCatalog

inductive Piece
  | text (c : Char)
  | percent
  | slot (p : Placeholder)
  deriving DecidableEq

structure Template where
  pieces : List Piece
  -- The position of the percent sign that ends the template, in bytes, and its flaw.
  fault : Option (Nat × Flaw)
  deriving DecidableEq

namespace Template

def push (piece : Piece) (t : Template) : Template :=
  { t with pieces := piece :: t.pieces }

-- The template in a text that starts at a byte offset.
def scan (offset : Nat) : List Char → Template
  | [] => { pieces := [], fault := none }
  | '%' :: '%' :: cs => (scan (offset + 2) cs).push .percent
  | '%' :: cs =>
    match _h : Placeholder.read { offset := offset + 1, rest := cs } with
    | .error flaw => { pieces := [], fault := (offset, flaw) }
    | .ok (p, c)  => (scan c.offset c.rest).push (.slot p)
  | c :: cs => (scan (offset + c.utf8Size) cs).push (.text c)
termination_by cs => cs.length
decreasing_by
  · exact Nat.lt_succ_of_le (Nat.le_succ _)
  · exact Nat.lt_succ_of_le (Placeholder.length_le_of_read _h)
  · exact Nat.lt_succ_self _

def ofString (text : String) : Template :=
  scan 0 text.toList

end Template

end MessageCatalog
