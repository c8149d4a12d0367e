namespace MessageCatalog.Plural

-- The first natural number that is too large for a value.
def literalBound : Nat := 0x8000000000000000

-- Literals are not negative and fit a value.
structure Literal where
  toNat : Nat
  toNat_lt : toNat < literalBound
  deriving DecidableEq

def Literal.value (v : Literal) : Int64 :=
  Int64.ofNat v.toNat

inductive UnaryOp
  | not
  | negate
  deriving DecidableEq

inductive BinaryOp
  | or
  | and
  | equal
  | notEqual
  | less
  | lessEqual
  | greater
  | greaterEqual
  | add
  | subtract
  | multiply
  | divide
  | modulo
  deriving DecidableEq

def truth (b : Bool) : Int64 :=
  if b then 1 else 0

def UnaryOp.apply : UnaryOp → Int64 → Int64
  | not, x    => truth (x = 0)
  | negate, x => -x

-- Dividing by zero gives zero. The lowest value divided by -1 is itself.
def BinaryOp.apply : BinaryOp → Int64 → Int64 → Int64
  | or, x, y           => truth (x ≠ 0 ∨ y ≠ 0)
  | and, x, y          => truth (x ≠ 0 ∧ y ≠ 0)
  | equal, x, y        => truth (x = y)
  | notEqual, x, y     => truth (x ≠ y)
  | less, x, y         => truth (x < y)
  | lessEqual, x, y    => truth (x ≤ y)
  | greater, x, y      => truth (x > y)
  | greaterEqual, x, y => truth (x ≥ y)
  | add, x, y          => x + y
  | subtract, x, y     => x - y
  | multiply, x, y     => x * y
  | divide, x, y       => if y = 0 then 0 else x / y
  | modulo, x, y       => if y = 0 then 0 else x % y

-- How loosely an operator binds: an operand of one tier is built from the tiers below it.
def BinaryOp.tier : BinaryOp → Nat
  | or => 5
  | and => 4
  | equal | notEqual => 3
  | less | lessEqual | greater | greaterEqual => 2
  | add | subtract => 1
  | multiply | divide | modulo => 0

-- The number of tiers.
def BinaryOp.tiers : Nat := 6

inductive Expr
  | count
  | literal (value : Literal)
  | unary (op : UnaryOp) (operand : Expr)
  | binary (op : BinaryOp) (left right : Expr)
  | conditional (test whenTrue whenFalse : Expr)
  deriving DecidableEq

namespace Expr

def value (n : Int64) : Expr → Int64
  | count             => n
  | literal v         => v.value
  | unary op e        => op.apply (e.value n)
  | binary op l r     => op.apply (l.value n) (r.value n)
  | conditional t a b => if t.value n ≠ 0 then a.value n else b.value n

-- A leaf has height 1.
def height : Expr → Nat
  | count | literal _ => 1
  | unary _ e         => e.height + 1
  | binary _ l r      => max l.height r.height + 1
  | conditional t a b => max t.height (max a.height b.height) + 1

def size : Expr → Nat
  | count | literal _ => 1
  | unary _ e         => e.size + 1
  | binary _ l r      => l.size + r.size + 1
  | conditional t a b => t.size + a.size + b.size + 1

end Expr

end MessageCatalog.Plural
