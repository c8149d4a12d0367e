namespace MessageCatalog

abbrev Bytes := List UInt8

inductive ByteOrder
  | little
  | big
  deriving DecidableEq

namespace ByteOrder

def name : ByteOrder → String
  | little => "Little"
  | big    => "Big"

-- The number whose lowest byte comes first.
def littleValue (bs : Bytes) : Nat :=
  bs.foldr (fun b value => b.toNat + 256 * value) 0

def value : ByteOrder → Bytes → Nat
  | little, bs => littleValue bs
  | big, bs    => littleValue bs.reverse

-- The numbers in consecutive words. Bytes that do not fill a word are left out.
def words (o : ByteOrder) : Bytes → List Nat
  | a :: b :: c :: d :: bs => o.value [a, b, c, d] :: o.words bs
  | _                      => []

end ByteOrder

end MessageCatalog
