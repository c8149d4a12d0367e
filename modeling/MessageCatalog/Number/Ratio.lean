namespace MessageCatalog.Number

inductive Radix
  | two
  | ten
  deriving DecidableEq

namespace Radix

def toNat : Radix → Nat
  | two => 2
  | ten => 10

theorem toNat_pos (radix : Radix) : 0 < radix.toNat := by
  cases radix <;> decide

def power (radix : Radix) (e : Nat) : Nat :=
  Nat.pow radix.toNat e

theorem power_pos (radix : Radix) (e : Nat) : 0 < radix.power e :=
  Nat.pow_pos radix.toNat_pos

end Radix

structure Ratio where
  num : Nat
  den : Nat
  den_pos : 0 < den
  deriving DecidableEq

namespace Ratio

def ofNat (n : Nat) : Ratio where
  num := n
  den := 1
  den_pos := Nat.one_pos

-- `r * radix ^ e`.
def scale (r : Ratio) (radix : Radix) (e : Int) : Ratio where
  num := r.num * radix.power e.toNat
  den := r.den * radix.power (-e).toNat
  den_pos := Nat.mul_pos r.den_pos (radix.power_pos _)

instance : LE Ratio where
  le r s := r.num * s.den ≤ s.num * r.den

instance : LT Ratio where
  lt r s := r.num * s.den < s.num * r.den

instance (r s : Ratio) : Decidable (r ≤ s) :=
  inferInstanceAs (Decidable (r.num * s.den ≤ s.num * r.den))

instance (r s : Ratio) : Decidable (r < s) :=
  inferInstanceAs (Decidable (r.num * s.den < s.num * r.den))

def floor (r : Ratio) : Nat :=
  r.num / r.den

-- Twice what is above the floor is compared with one.
def half (r : Ratio) : Ordering :=
  compare (2 * (r.num % r.den)) r.den

-- The nearest natural number. A half goes to the even neighbour.
def round (r : Ratio) : Nat :=
  match r.half with
  | .lt => r.floor
  | .gt => r.floor + 1
  | .eq => r.floor + r.floor % 2

-- The greatest `e` with `radix ^ e ≤ r`, for a positive `r`.
def order (r : Ratio) (radix : Radix) : Int :=
  if r.den ≤ r.num then
    (Nat.toDigits radix.toNat r.floor).length - 1
  else
    -((Nat.toDigits radix.toNat ((r.den - 1) / r.num)).length : Int)

end Ratio

end MessageCatalog.Number
