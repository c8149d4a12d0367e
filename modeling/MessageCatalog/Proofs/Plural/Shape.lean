import Mathlib.Data.List.TakeWhile
import Mathlib.Tactic
import MessageCatalog.Outcome
import MessageCatalog.Plural.Rule

namespace MessageCatalog.Plural.Rule

open Text

def Blanks (cs : List Char) : Prop :=
  ∀ c ∈ cs, isBlank c

inductive Shape : (text digits expression : List Char) → Prop
  | intro {b₀ b₁ b₂ b₃ b₄ b₅ b₆ digits expression : List Char}
      (blanks : ∀ b ∈ [b₀, b₁, b₂, b₃, b₄, b₅, b₆], Blanks b) (apart : b₄ ≠ [])
      (ne : digits ≠ []) (isDigit : ∀ c ∈ digits, c.isDigit) :
      Shape
        (b₀ ++ "nplurals".toList ++ b₁ ++ ['='] ++ b₂ ++ digits ++ b₃ ++ [';'] ++
          b₄ ++ "plural".toList ++ b₅ ++ ['='] ++ expression ++ [';'] ++ b₆)
        digits expression

variable {c c' : Cursor} {word rest b cs : List Char} {reason : Reason} {p : Char → Bool}

theorem rest_skipRun : (c.skipRun p).rest = c.rest.dropWhile p := by
  have h := @List.drop_left _ (c.rest.takeWhile p) (c.rest.dropWhile p)
  rwa [List.takeWhile_append_dropWhile] at h

theorem blanks_takeWhile : Blanks (cs.takeWhile isBlank) :=
  fun _ h => List.mem_takeWhile_imp h

theorem dropWhile_blanks {x : Char} (hb : Blanks b) (hx : isBlank x = false) :
    (b ++ x :: cs).dropWhile isBlank = x :: cs := by
  rw [List.dropWhile_append_of_pos hb, List.dropWhile_cons_of_neg (by simp [hx])]

-- Neither a blank nor what comes after the blanks carries on a numeral.
theorem head_not_digit {x : Char} (hb : Blanks b) (hx : x.isDigit = false) :
    ∀ y ∈ (b ++ x :: cs).head?, y.isDigit = false := by
  intro y hy
  cases b
  case nil =>
    cases hy
    exact hx
  case cons =>
    cases hy
    cases hd : y.isDigit
    case false => rfl
    case true  => exact absurd (hb y (List.mem_cons_self ..)) (by simp [isBlank_of_isDigit hd])

theorem rest_of_expect (h : expect word reason c = .ok c') :
    ∃ b, Blanks b ∧ c.rest = b ++ (word ++ c'.rest) := by
  simp only [expect] at h
  split at h
  case isFalse => cases h
  case isTrue hp =>
    cases h
    have ⟨rest, hr⟩ := List.isPrefixOf_iff_prefix.mp hp
    refine ⟨c.rest.takeWhile isBlank, blanks_takeWhile, ?_⟩
    rw [Cursor.skip, ← hr, List.drop_left, hr, rest_skipRun, List.takeWhile_append_dropWhile]

theorem expect_of_rest (hb : Blanks b) (hw : word.head?.all isBlank = false)
    (hr : c.rest = b ++ (word ++ rest)) (reason : Reason) :
    ∃ c', expect word reason c = .ok c' ∧ c'.rest = rest := by
  have hd : (c.skipRun isBlank).rest = word ++ rest := by
    have ⟨x, hx, hn⟩ := (Option.all_eq_false _ _).mp hw
    have ⟨xs, hxs⟩ := List.head?_eq_some_iff.mp hx
    rw [rest_skipRun, hr, hxs]
    exact dropWhile_blanks hb hn
  refine ⟨(c.skipRun isBlank).skip word.length, ?_, ?_⟩
  · simp [expect, hd]
  · simp [Cursor.skip, hd]

theorem rest_of_readForms {forms : Nat} (h : readForms c = .ok (forms, c')) :
    ∃ b digits, Blanks b ∧ digits ≠ [] ∧ (∀ x ∈ digits, x.isDigit) ∧
      c.rest = b ++ (digits ++ c'.rest) ∧ decimalValue digits = forms ∧ forms < formsBound := by
  simp only [readForms] at h
  split at h
  case isTrue => cases h
  case isFalse hn =>
    cases h
    have ⟨hne, hlt⟩ := not_or.mp hn
    refine ⟨c.rest.takeWhile isBlank, (c.skipRun isBlank).run Char.isDigit, blanks_takeWhile, hne,
      fun _ h => List.mem_takeWhile_imp h, ?_, rfl, by omega⟩
    have hr : ((c.skipRun isBlank).skipRun Char.isDigit).rest
        = (c.rest.dropWhile isBlank).dropWhile Char.isDigit := by rw [rest_skipRun, rest_skipRun]
    rw [Cursor.skipRun] at hr
    rw [hr, Cursor.run, rest_skipRun, List.takeWhile_append_dropWhile,
      List.takeWhile_append_dropWhile]

theorem readForms_of_rest {digits : List Char} (hb : Blanks b) (hne : digits ≠ [])
    (hd : ∀ x ∈ digits, x.isDigit) (hv : decimalValue digits < formsBound)
    (hr : c.rest = b ++ (digits ++ rest)) (hx : ∀ x ∈ rest.head?, x.isDigit = false) :
    ∃ c', readForms c = .ok (decimalValue digits, c') ∧ c'.rest = rest := by
  have hs : (c.skipRun isBlank).rest = digits ++ rest := by
    have ⟨x, xs, hxs⟩ := List.exists_cons_of_ne_nil hne
    have hx : isBlank x = false := isBlank_of_isDigit (hd x (by simp [hxs]))
    rw [rest_skipRun, hr, hxs]
    exact dropWhile_blanks hb hx
  have hrun : (c.skipRun isBlank).run Char.isDigit = digits := by
    have ht : rest.takeWhile Char.isDigit = [] := by
      cases rest <;> simp_all
    rw [Cursor.run, hs, List.takeWhile_append_of_pos hd, ht, List.append_nil]
  refine ⟨(c.skipRun isBlank).skip digits.length, ?_, ?_⟩
  · simp [readForms, hrun, hne, hv]
  · simp [Cursor.skip, hs]

theorem rest_of_readExpression (h : readExpression c = .ok c') :
    ∃ b, Blanks b ∧ c.rest = c'.rest ++ ';' :: b := by
  simp only [readExpression, trimEnd, List.reverse_reverse] at h
  split at h
  case h_2 => cases h
  case h_1 cs hd =>
    cases h
    refine ⟨(c.rest.reverse.takeWhile isBlank).reverse, fun x hx => ?_, ?_⟩
    · exact blanks_takeWhile x (List.mem_reverse.mp hx)
    · have hr := List.takeWhile_append_dropWhile (p := isBlank) (l := c.rest.reverse)
      rw [hd] at hr
      have hr := congrArg List.reverse hr
      simpa using hr.symm

theorem readExpression_of_rest (hb : Blanks b) (hr : c.rest = cs ++ ';' :: b) :
    ∃ c', readExpression c = .ok c' ∧ c'.rest = cs := by
  have hd : c.rest.reverse.dropWhile isBlank = ';' :: cs.reverse := by
    have hb : Blanks b.reverse := fun x hx => hb x (List.mem_reverse.mp hx)
    simp only [hr, List.reverse_append, List.reverse_cons, List.append_assoc, List.singleton_append]
    exact dropWhile_blanks hb (by decide)
  exact ⟨{ c with rest := cs }, by simp [readExpression, trimEnd, hd], rfl⟩

theorem shape_of_split {text : List Char} {forms : Nat} (h : split text = .ok (forms, c)) :
    ∃ digits, Shape text digits c.rest ∧ decimalValue digits = forms ∧ forms < formsBound := by
  have ⟨c₀, h₀, h⟩ := Outcome.bind_eq_ok.mp h
  have ⟨c₁, h₁, h⟩ := Outcome.bind_eq_ok.mp h
  have ⟨(n, c₂), h₂, h⟩ := Outcome.bind_eq_ok.mp h
  have ⟨c₃, h₃, h⟩ := Outcome.bind_eq_ok.mp h
  simp only at h
  split at h
  case isTrue => cases h
  case isFalse hne =>
    have ⟨c₄, h₄, h⟩ := Outcome.bind_eq_ok.mp h
    have ⟨c₅, h₅, h⟩ := Outcome.bind_eq_ok.mp h
    have ⟨c₆, h₆, h⟩ := Outcome.bind_eq_ok.mp h
    cases h
    have ⟨b₀, hb₀, r₀⟩ := rest_of_expect h₀
    have ⟨b₁, hb₁, r₁⟩ := rest_of_expect h₁
    have ⟨b₂, digits, hb₂, hd, hds, r₂, hv, hlt⟩ := rest_of_readForms h₂
    have ⟨b₃, hb₃, r₃⟩ := rest_of_expect h₃
    have ⟨b₄, hb₄, r₄⟩ := rest_of_expect h₄
    have ⟨b₅, hb₅, r₅⟩ := rest_of_expect h₅
    have ⟨b₆, hb₆, r₆⟩ := rest_of_readExpression h₆
    have happart : b₄ ≠ [] := by
      intro hn
      rw [Cursor.run, r₄, hn] at hne
      exact hne rfl
    refine ⟨digits, ?_, hv, hlt⟩
    have ht : text = b₀ ++ "nplurals".toList ++ b₁ ++ ['='] ++ b₂ ++ digits ++ b₃ ++ [';'] ++
        b₄ ++ "plural".toList ++ b₅ ++ ['='] ++ c.rest ++ [';'] ++ b₆ := by
      have r₀ : text = b₀ ++ ("nplurals".toList ++ c₀.rest) := r₀
      rw [r₀, r₁, r₂, r₃, r₄, r₅, r₆]
      simp
    rw [ht]
    exact .intro (by simp [hb₀, hb₁, hb₂, hb₃, hb₄, hb₅, hb₆]) happart hd hds

theorem split_of_shape {text digits expression : List Char} (h : Shape text digits expression)
    (hv : decimalValue digits < formsBound) :
    ∃ c, split text = .ok (decimalValue digits, c) ∧ c.rest = expression := by
  cases h
  case intro b₀ b₁ b₂ b₃ b₄ b₅ b₆ blanks apart hne hd =>
    simp only [List.mem_cons, List.not_mem_nil, or_false, forall_eq_or_imp, forall_eq] at blanks
    have ⟨hb₀, hb₁, hb₂, hb₃, hb₄, hb₅, hb₆⟩ := blanks
    generalize ht : b₀ ++ "nplurals".toList ++ b₁ ++ ['='] ++ b₂ ++ digits ++ b₃ ++ [';'] ++
        b₄ ++ "plural".toList ++ b₅ ++ ['='] ++ expression ++ [';'] ++ b₆ = text
    simp only [List.append_assoc] at ht
    have ⟨c₀, h₀, r₀⟩ := expect_of_rest (c := .start text) hb₀ (by decide) ht.symm .missingForms
    have ⟨c₁, h₁, r₁⟩ := expect_of_rest hb₁ (by decide) r₀ .missingFormsSign
    have ⟨c₂, h₂, r₂⟩ := readForms_of_rest hb₂ hne hd hv r₁ (head_not_digit hb₃ (by decide))
    have ⟨c₃, h₃, r₃⟩ := expect_of_rest hb₃ (by decide) r₂ .missingFormsEnd
    have ⟨c₄, h₄, r₄⟩ := expect_of_rest hb₄ (by decide) r₃ .missingPlural
    have ⟨c₅, h₅, r₅⟩ := expect_of_rest hb₅ (by decide) r₄ .missingPluralSign
    have ⟨c₆, h₆, r₆⟩ := readExpression_of_rest hb₆ r₅
    have hrun : c₃.run isBlank ≠ [] := by
      rw [Cursor.run, r₃, List.takeWhile_append_of_pos hb₄]
      simp [apart]
    refine ⟨c₆, ?_, r₆⟩
    simp only [split, h₀, h₁, h₂, h₃, h₄, h₅, h₆, if_neg hrun, bind, Except.bind]
    rfl

end MessageCatalog.Plural.Rule
