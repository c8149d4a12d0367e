namespace MessageCatalog.Text

-- The ASCII blanks: space, tab, line feed, form feed and carriage return.
def isBlank (c : Char) : Bool :=
  c = ' ' ∨ c = '\t' ∨ c = '\n' ∨ c = '\x0c' ∨ c = '\r'

-- The ranges of code points with the Unicode property `White_Space`.
def whiteSpace : List (Nat × Nat) :=
  [(0x09, 0x0d), (0x20, 0x20), (0x85, 0x85), (0xa0, 0xa0), (0x1680, 0x1680), (0x2000, 0x200a),
    (0x2028, 0x2029), (0x202f, 0x202f), (0x205f, 0x205f), (0x3000, 0x3000)]

def isWhite (c : Char) : Bool :=
  whiteSpace.any fun (first, last) => first ≤ c.toNat ∧ c.toNat ≤ last

theorem isBlank_of_isDigit {c : Char} (h : c.isDigit) : isBlank c = false := by
  cases hb : isBlank c
  case false => rfl
  case true =>
    simp only [isBlank, decide_eq_true_eq] at hb
    rcases hb with hb | hb | hb | hb | hb <;> subst hb <;> cases h

variable {α : Type}

-- What is left without the longest start of elements that satisfy `p`.
def trimStart (p : α → Bool) (xs : List α) : List α :=
  xs.dropWhile p

def trimEnd (p : α → Bool) (xs : List α) : List α :=
  (xs.reverse.dropWhile p).reverse

def trim (p : α → Bool) (xs : List α) : List α :=
  trimEnd p (trimStart p xs)

end MessageCatalog.Text
