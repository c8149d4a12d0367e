import MessageCatalog.Plural.Expr

namespace MessageCatalog.Plural

-- A step computes one value from the count and from the values of earlier steps, which it names by
-- their index.
inductive Step
  | count
  | literal (value : Literal)
  | unary (op : UnaryOp) (operand : Nat)
  | binary (op : BinaryOp) (left right : Nat)
  | conditional (test whenTrue whenFalse : Nat)
  deriving DecidableEq

namespace Step

def operands : Step → List Nat
  | count | literal _ => []
  | unary _ i         => [i]
  | binary _ i j      => [i, j]
  | conditional i j k => [i, j, k]

def value (n : Int64) (earlier : Array Int64) : Step → Int64
  | count             => n
  | literal v         => v.value
  | unary op i        => op.apply (earlier.getD i 0)
  | binary op i j     => op.apply (earlier.getD i 0) (earlier.getD j 0)
  | conditional i j k => if earlier.getD i 0 ≠ 0 then earlier.getD j 0 else earlier.getD k 0

end Step

structure Program where
  steps : Array Step
  deriving DecidableEq

namespace Program

-- The values of all steps, in order.
def values (p : Program) (n : Int64) : Array Int64 :=
  p.steps.foldl (fun earlier s => earlier.push (s.value n earlier)) #[]

-- The value of the last step.
def value (p : Program) (n : Int64) : Int64 :=
  (p.values n).back?.getD 0

end Program

namespace Expr

-- The code of an expression, operands first, as it stands after `first` other steps.
def steps (first : Nat) : Expr → List Step
  | count             => [.count]
  | literal v         => [.literal v]
  | unary op e        => e.steps first ++ [.unary op (first + e.size - 1)]
  | binary op l r     =>
    l.steps first ++ r.steps (first + l.size) ++
      [.binary op (first + l.size - 1) (first + l.size + r.size - 1)]
  | conditional t a b =>
    t.steps first ++ a.steps (first + t.size) ++ b.steps (first + t.size + a.size) ++
      [.conditional (first + t.size - 1) (first + t.size + a.size - 1)
        (first + t.size + a.size + b.size - 1)]

def program (e : Expr) : Program where
  steps := (e.steps 0).toArray

end Expr

end MessageCatalog.Plural
