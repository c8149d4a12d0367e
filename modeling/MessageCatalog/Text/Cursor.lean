import MessageCatalog.Text.Blank

namespace MessageCatalog.Text

-- The length of a text in UTF-8.
def byteLength : List Char → Nat
  | []      => 0
  | c :: cs => c.utf8Size + byteLength cs

@[simp]
theorem byteLength_append (as bs : List Char) :
    byteLength (as ++ bs) = byteLength as + byteLength bs := by
  induction as
  case nil         => simp [byteLength]
  case cons _ _ ih => simp [byteLength, ih, Nat.add_assoc]

theorem utf8ByteSize_ofList (cs : List Char) :
    (String.ofList cs).utf8ByteSize = byteLength cs := by
  induction cs
  case nil          => rfl
  case cons c cs ih =>
    rw [String.ofList_cons, String.utf8ByteSize_append, ih, String.utf8ByteSize_singleton]
    rfl

-- What is left to read of a text, behind a number of bytes in UTF-8.
@[ext]
structure Cursor where
  offset : Nat
  rest : List Char
  deriving DecidableEq

namespace Cursor

def start (text : List Char) : Cursor where
  offset := 0
  rest := text

def skip (c : Cursor) (count : Nat) : Cursor where
  offset := c.offset + byteLength (c.rest.take count)
  rest := c.rest.drop count

-- The longest run of characters ahead that satisfy `p`.
def run (c : Cursor) (p : Char → Bool) : List Char :=
  c.rest.takeWhile p

def skipRun (c : Cursor) (p : Char → Bool) : Cursor :=
  c.skip (c.run p).length

-- The offset of the end of the text.
def last (c : Cursor) : Nat :=
  c.offset + byteLength c.rest

theorem skip_skip (c : Cursor) (m n : Nat) : (c.skip m).skip n = c.skip (m + n) := by
  ext1
  · rw [skip, skip, skip, List.take_add, byteLength_append]
    exact Nat.add_assoc ..
  · simp [skip]

theorem last_skip (c : Cursor) (n : Nat) : (c.skip n).last = c.last := by
  have h := congrArg byteLength (List.take_append_drop n c.rest)
  simp only [byteLength_append] at h
  simp only [last, skip]
  omega

theorem length_rest_skip_le (c : Cursor) (n : Nat) : (c.skip n).rest.length ≤ c.rest.length := by
  simp [skip]

end Cursor

end MessageCatalog.Text
