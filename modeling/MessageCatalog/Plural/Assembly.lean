import MessageCatalog.Plural.Fault
import MessageCatalog.Plural.Program

namespace MessageCatalog.Plural

-- Code while it is assembled, and how many constructs are open.
structure Assembly where
  steps : Array Step := #[]
  heights : Array Nat := #[]
  opened : Nat := 0
  deriving DecidableEq

namespace Assembly

-- Three limits bound what a rule from a file can ask for.
def openLimit : Nat := 64

def heightLimit : Nat := 256

def stepLimit : Nat := 65536

-- The height of the highest operand of a step, 0 for a leaf.
def operandHeight (a : Assembly) (s : Step) : Nat :=
  (s.operands.map fun i => a.heights.getD i 0).foldl max 0

-- Appends a step, for the construct at `offset`, and gives the index of the step.
def add (a : Assembly) (s : Step) (offset : Nat) : Except Fault (Nat × Assembly) :=
  if heightLimit ≤ a.operandHeight s then
    .error ⟨.nestedTooDeeply, offset⟩
  else if stepLimit ≤ a.steps.size then
    .error ⟨.tooLong, offset⟩
  else
    .ok (a.steps.size, {
      steps := a.steps.push s
      heights := a.heights.push (a.operandHeight s + 1)
      opened := a.opened })

-- Opens a construct at `offset`.
def enter (a : Assembly) (offset : Nat) : Except Fault Assembly :=
  if openLimit ≤ a.opened then
    .error ⟨.nestedTooDeeply, offset⟩
  else
    .ok { a with opened := a.opened + 1 }

def leave (a : Assembly) : Assembly :=
  { a with opened := a.opened - 1 }

def program (a : Assembly) : Program where
  steps := a.steps

end Assembly

end MessageCatalog.Plural
