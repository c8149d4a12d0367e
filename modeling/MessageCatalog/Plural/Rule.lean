import MessageCatalog.Plural.Parser
import MessageCatalog.Text.Cursor

namespace MessageCatalog.Plural

open Text

-- Code for an expression, which is all of the text at the cursor.
def Program.parse (text : Cursor) : Except Fault Program := do
  let ts ← Token.scan text.offset text.rest
  let p ← Parser.expression text.last ts {}
  match p.rest with
  | []     => return p.assembly.program
  | t :: _ => throw ⟨.extraToken, t.offset⟩

-- A rule is stated as `nplurals=<forms>; plural=<expression>;`.
structure Rule where
  source : String
  forms : Nat
  program : Program
  deriving DecidableEq

namespace Rule

-- Passes over blanks and a word.
def expect (word : List Char) (reason : Reason) (c : Cursor) : Except Fault Cursor :=
  let c := c.skipRun isBlank
  if word.isPrefixOf c.rest then
    .ok (c.skip word.length)
  else
    .error ⟨reason, c.offset⟩

-- The first number of forms that is too large for 64 bits.
def formsBound : Nat := 0x10000000000000000

-- Reads the number of forms.
def readForms (c : Cursor) : Except Fault (Nat × Cursor) :=
  let c := c.skipRun isBlank
  let digits := c.run Char.isDigit
  if digits = [] ∨ formsBound ≤ decimalValue digits then
    .error ⟨.missingFormsNumber, c.offset⟩
  else
    .ok (decimalValue digits, c.skip digits.length)

-- What stands before the last semicolon. Only blanks may follow it.
def readExpression (c : Cursor) : Except Fault Cursor :=
  match (trimEnd isBlank c.rest).reverse with
  | ';' :: cs => .ok { c with rest := cs.reverse }
  | _         => .error ⟨.missingRuleEnd, c.last⟩

-- The number of forms and the expression of a rule.
def split (text : List Char) : Except Fault (Nat × Cursor) := do
  let c ← expect "nplurals".toList .missingForms (.start text)
  let c ← expect ['='] .missingFormsSign c
  let (forms, c) ← readForms c
  let c ← expect [';'] .missingFormsEnd c
  if c.run isBlank = [] then
    throw ⟨.missingBlank, c.offset⟩
  let c ← expect "plural".toList .missingPlural c
  let c ← expect ['='] .missingPluralSign c
  return (forms, ← readExpression c)

def parse (source : String) : Except Fault Rule := do
  let (forms, expression) ← split source.toList
  let program ← Program.parse expression
  return { source, forms, program }

-- The rule of catalogs that state none.
def defaultSource : String :=
  "nplurals=2; plural=n!=1;"

-- What the expression gives for a count.
def value (r : Rule) (n : Int64) : Int64 :=
  r.program.value n

-- The form for a count. A negative value selects none.
def select (r : Rule) (n : Int64) : Option Nat :=
  if r.value n < 0 then none else some (r.value n).toNatClampNeg

end Rule

end MessageCatalog.Plural
