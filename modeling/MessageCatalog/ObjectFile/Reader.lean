import MessageCatalog.Bytes

namespace MessageCatalog.ObjectFile

-- How many bytes a step at an offset needed, and how many there were.
structure ReadError where
  offset : Nat
  needed : Nat
  available : Nat
  deriving DecidableEq

def ReadError.message (e : ReadError) : String :=
  s!"unexpected end of data: {e.needed} bytes needed at offset {e.offset}, " ++
    s!"{e.available} available"

-- A step that would run past the end of the data fails, and leaves the reader where it was.
@[ext]
structure Reader where
  data : Bytes
  order : ByteOrder
  position : Nat
  deriving DecidableEq

namespace Reader

def start (data : Bytes) (order : ByteOrder) : Reader where
  data := data
  order := order
  position := 0

def available (r : Reader) : Nat :=
  r.data.length - r.position

-- Moves to an offset, which may be that of the end.
def seek (r : Reader) (offset : Nat) : Except ReadError Reader :=
  if offset ≤ r.data.length then
    .ok { r with position := offset }
  else
    .error { offset, needed := 0, available := 0 }

def bytes (r : Reader) (count : Nat) : Except ReadError (Bytes × Reader) :=
  if count ≤ r.available then
    .ok ((r.data.drop r.position).take count, { r with position := r.position + count })
  else
    .error { offset := r.position, needed := count, available := r.available }

-- The greatest size that an error can report.
def sizeLimit : Nat := 0xffffffffffffffff

def words (r : Reader) (count : Nat) : Except ReadError (List Nat × Reader) :=
  match r.bytes (4 * count) with
  | .ok (bs, r) => .ok (r.order.words bs, r)
  | .error e    => .error { e with needed := min e.needed sizeLimit }

def word (r : Reader) : Except ReadError (Nat × Reader) :=
  match r.bytes 4 with
  | .ok (bs, r) => .ok (r.order.value bs, r)
  | .error e    => .error e

end Reader

-- A step of a reader.
inductive Request
  | seek (offset : Nat)
  | bytes (count : Nat)
  | words (count : Nat)
  | word
  deriving DecidableEq

-- What a step gives.
inductive Response
  | moved
  | bytes (bs : Bytes)
  | words (ns : List Nat)
  | word (n : Nat)
  deriving DecidableEq

namespace Reader

def step (r : Reader) : Request → Except ReadError (Response × Reader)
  | .seek offset => (r.seek offset).map (.moved, ·)
  | .bytes count => (r.bytes count).map fun (bs, r) => (.bytes bs, r)
  | .words count => (r.words count).map fun (ns, r) => (.words ns, r)
  | .word        => r.word.map fun (n, r) => (.word n, r)

def response (r : Reader) (q : Request) : Except ReadError Response :=
  (r.step q).map Prod.fst

-- The reader after a step, which is the same one if the step fails.
def after (r : Reader) (q : Request) : Reader :=
  match r.step q with
  | .ok (_, r) => r
  | .error _   => r

-- Takes steps in order, whatever becomes of each.
def run (r : Reader) : List Request → List (Except ReadError Response)
  | []      => []
  | q :: qs => r.response q :: (r.after q).run qs

end Reader

end MessageCatalog.ObjectFile
