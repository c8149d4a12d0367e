namespace MessageCatalog.Plural

inductive Reason
  | missingForms
  | missingFormsSign
  | missingFormsNumber
  | missingFormsEnd
  | missingBlank
  | missingPlural
  | missingPluralSign
  | missingRuleEnd
  | numberTooLarge
  | unexpectedCharacter
  | unexpectedEnd
  | unexpectedToken
  | extraToken
  | missingParenthesis
  | missingColon
  | nestedTooDeeply
  | tooLong
  deriving DecidableEq

def Reason.text : Reason → String
  | missingForms        => "expected 'nplurals'"
  | missingFormsSign    => "expected '=' after 'nplurals'"
  | missingFormsNumber  => "expected the number of plural forms"
  | missingFormsEnd     => "expected ';' after nplurals"
  | missingBlank        => "expected whitespace after ';'"
  | missingPlural       => "expected 'plural'"
  | missingPluralSign   => "expected '=' after 'plural'"
  | missingRuleEnd      => "expected ';' after the plural expression"
  | numberTooLarge      => "number too large"
  | unexpectedCharacter => "unexpected character"
  | unexpectedEnd       => "unexpected end of expression"
  | unexpectedToken     => "unexpected token"
  | extraToken          => "extra token in expression"
  | missingParenthesis  => "expected ')'"
  | missingColon        => "expected ':'"
  | nestedTooDeeply     => "expression nested too deeply"
  | tooLong             => "expression too long"

-- A fault of a rule. The offset counts UTF-8 bytes from the start of the rule.
structure Fault where
  reason : Reason
  offset : Nat
  deriving DecidableEq

def Fault.message (f : Fault) : String :=
  f.reason.text ++ " at offset " ++ toString f.offset

end MessageCatalog.Plural
