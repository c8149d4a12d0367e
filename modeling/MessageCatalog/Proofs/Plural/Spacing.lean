import MessageCatalog.Proofs.Plural.Grammar
import MessageCatalog.Proofs.Plural.Lexing

namespace MessageCatalog.Plural

open Text

namespace Lexeme

-- The text of lexemes, with any blanks around them.
inductive Spaced : List Char → List Lexeme → Prop
  | nil : Spaced [] []
  | blank {c : Char} {cs : List Char} {ls : List Lexeme} (h : isBlank c) (rest : Spaced cs ls) :
      Spaced (c :: cs) ls
  | word {w cs : List Char} {l : Lexeme} {ls : List Lexeme} (spells : Spells w l)
      (rest : Spaced cs ls) : Spaced (w ++ cs) (l :: ls)

-- The characters that make something longer of a lexeme.
def runsInto : Lexeme → Char → Bool
  | number _, c          => c.isDigit
  | not, c               => c = '='
  | operator .less, c    => c = '='
  | operator .greater, c => c = '='
  | _, _                 => false

-- The lexemes that an operand can start with, and those that it can end with.
def begins : Lexeme → Bool
  | count | number _ | openParen | not | operator .add | operator .subtract => true
  | _                                                                       => false

def ends : Lexeme → Bool
  | count | number _ | closeParen => true
  | _                             => false

-- No blank is needed between the lexemes.
def Apart (l l' : Lexeme) : Prop :=
  ∀ w, Spells w l' → ∀ c ∈ w.head?, l.runsInto c = false

variable {l l' m : Lexeme} {ls rs : List Lexeme} {w cs : List Char} {c : Char}

theorem spells_text (l : Lexeme) : Spells l.text l := by
  cases l
  case number v =>
    have hv := decimalValue_decimal v.toNat
    have hs := Spells.number (decimal_ne_nil v.toNat) (fun _ hc => isDigit_of_mem_decimal hc)
      (hv.symm ▸ v.toNat_lt)
    simp only [hv] at hs
    exact hs
  case operator op => exact .spelled (by cases op <;> decide)
  all_goals exact .spelled (by decide)

-- Lexemes without blanks.
theorem spaced_text (ls : List Lexeme) : Spaced (ls.flatMap text) ls := by
  induction ls
  case nil          => exact .nil
  case cons l ls ih => exact .word l.spells_text ih

theorem runsInto_of_isBlank (h : isBlank c) (l : Lexeme) : l.runsInto c = false := by
  have he : c ≠ '=' := by
    rintro rfl
    cases h
  have hd : c.isDigit = false := by
    by_contra hd
    rw [isBlank_of_isDigit (by simpa using hd)] at h
    cases h
  unfold runsInto
  split <;> simp [he, hd]

theorem runsInto_of_mem_spellings (h : (w, l) ∈ spellings) (h' : (w ++ c :: cs, l') ∈ spellings) :
    l.runsInto c := by
  have table : ∀ x ∈ spellings, ∀ y ∈ spellings, x.fst <+: y.fst →
      (y.fst.drop x.fst.length).head?.all x.snd.runsInto := by
    decide
  have hc := table _ h _ h' (List.prefix_append ..)
  rw [List.drop_left] at hc
  exact hc

-- A longer word would go on with the character behind the lexeme.
theorem longest_of_not_runsInto (h : Spells w l) (hc : ∀ c ∈ cs.head?, l.runsInto c = false) :
    Longest w (w ++ cs) := by
  intro w' hw hp
  by_contra hlen
  have ⟨t, ht⟩ := List.prefix_of_prefix_length_le (List.prefix_append w cs) hp (by omega)
  subst ht
  replace hp := (List.prefix_append_right_inj w).mp hp
  match t with
  | []     => simp at hlen
  | c :: t =>
    have ⟨rest, hcs⟩ := hp
    replace hc := hc c (by rw [← hcs]; rfl)
    have hm : c ∈ w ++ c :: t := by simp
    cases h
    case number ne digits _ =>
      generalize ht : w ++ c :: t = w' at hw hm
      cases hw
      case numeral digits' => simp [runsInto, digits' c hm] at hc
      case spelled mem =>
        have ⟨b, bs, hb, hd, _⟩ := head_of_mem_spellings mem
        have ⟨x, xs, hx⟩ := List.exists_cons_of_ne_nil ne
        rw [hb, hx] at ht
        cases ht
        simp [digits b (by simp [hx])] at hd
    case spelled mem =>
      have ⟨b, bs, hb, hd, _⟩ := head_of_mem_spellings mem
      generalize ht : w ++ c :: t = w' at hw
      cases hw
      case numeral digits' =>
        rw [hb] at ht
        simp [digits' b (by simp [← ht])] at hd
      case spelled mem' =>
        subst ht
        simp [runsInto_of_mem_spellings mem mem'] at hc

theorem Spaced.head (h : Spaced cs ls) (hc : c ∈ cs.head?) :
    isBlank c ∨ ∃ l ∈ ls.head?, ∃ w, Spells w l ∧ c ∈ w.head? := by
  cases h
  case nil => cases hc
  case blank hb _ =>
    cases hc
    exact .inl hb
  case word w cs l ls hw _ =>
    have ⟨x, xs, hx, _⟩ := hw.head
    subst hx
    cases hc
    exact .inr ⟨l, rfl, _, hw, rfl⟩

theorem splits_of_apart (h : Spaced cs ls) (ha : ls.IsChain Apart) : Splits cs ls := by
  induction h
  case nil           => exact .nil
  case blank hb _ ih => exact .blank hb (ih ha)
  case word w cs l ls hw hs ih =>
    have ⟨hl, ha⟩ := List.isChain_cons.mp ha
    refine .word hw (longest_of_not_runsInto hw fun c hc => ?_) (ih ha)
    cases hs.head hc
    case inl hb => exact runsInto_of_isBlank hb l
    case inr hx =>
      have ⟨l', hl', w', hw', hc'⟩ := hx
      exact hl l' hl' w' hw' c hc'

-- Behind an operand there is no numeral.
theorem apart_of_ends (h : l.ends) (hm : m ∈ spelled) : Apart l m := by
  intro w hw c hc
  cases hw
  case number => simp [spelled] at hm
  case spelled mem =>
    obtain ⟨b, bs, hb, hd, _⟩ := head_of_mem_spellings mem
    rw [hb] at hc
    cases hc
    cases l <;> simp_all [ends, runsInto]

-- Where an operand is to come, no operator starts with an equals sign.
theorem apart_of_begins (h : l.ends = false) (hb : m.begins) : Apart l m := by
  intro w hw c hc
  have hne : c ≠ '=' := by
    cases hw
    case number digits _ =>
      have hd := digits c (List.mem_of_mem_head? hc)
      rintro rfl
      cases hd
    case spelled mem =>
      have heads : ∀ x ∈ spellings, x.snd.begins → x.fst.head?.all (· ≠ '=') := by decide
      simpa [Option.mem_def.mp hc] using heads _ mem hb
  unfold runsInto
  split <;> simp_all [ends]

-- Lexemes with an operand at either end, and no two of them run into each other.
structure Separable (ls : List Lexeme) : Prop where
  begins : ∃ l ∈ ls.head?, l.begins
  ends   : ∃ l ∈ ls.getLast?, l.ends
  apart  : ls.IsChain Apart

namespace Separable

theorem singleton (hb : l.begins) (he : l.ends) : Separable [l] :=
  ⟨⟨l, rfl, hb⟩, ⟨l, rfl, he⟩, .singleton l⟩

theorem isChain_cons (h : Separable ls) (hm : m.ends = false) : (m :: ls).IsChain Apart := by
  have ⟨⟨l, hl, hb⟩, _, ha⟩ := h
  refine List.isChain_cons.mpr ⟨fun l' hl' => ?_, ha⟩
  cases Option.mem_unique hl hl'
  exact apart_of_begins hm hb

theorem isChain_append (h : Separable ls) (hm : m ∈ spelled) (ha : (m :: rs).IsChain Apart) :
    (ls ++ m :: rs).IsChain Apart := by
  have ⟨_, ⟨l, hl, he⟩, ha'⟩ := h
  refine List.isChain_append.mpr ⟨ha', ha, fun l' hl' m' hm' => ?_⟩
  cases Option.mem_unique hl hl'
  cases hm'
  exact apart_of_ends he hm

theorem ne_nil (h : Separable ls) : ls ≠ [] := by
  rintro rfl
  cases h.begins.choose_spec.left

-- An operator before an operand.
theorem cons (h : Separable ls) (hb : m.begins) (hm : m.ends = false) : Separable (m :: ls) where
  begins := ⟨m, rfl, hb⟩
  ends   := by rw [List.getLast?_cons_of_ne_nil h.ne_nil]; exact h.ends
  apart  := h.isChain_cons hm

-- An operator between operands.
theorem infixed (h : Separable ls) (h' : Separable rs) (hm : m ∈ spelled)
    (he : m.ends = false) : Separable (ls ++ m :: rs) where
  begins := by rw [List.head?_append_of_ne_nil _ h.ne_nil]; exact h.begins
  ends   := by
    rw [List.getLast?_append_of_ne_nil _ (List.cons_ne_nil m rs),
      List.getLast?_cons_of_ne_nil h'.ne_nil]
    exact h'.ends
  apart  := h.isChain_append hm (h'.isChain_cons he)

theorem enclosed (h : Separable ls) : Separable (openParen :: ls ++ [closeParen]) where
  begins := ⟨openParen, rfl, rfl⟩
  ends   := ⟨closeParen, List.getLast?_concat .., rfl⟩
  apart  := (h.cons rfl rfl).isChain_append (by decide) (.singleton closeParen)

end Separable

variable {e : Expr} {d : Nat} {k : Category}

theorem separable_of_derives (h : Derives k ls e d) : Separable ls := by
  induction h
  case count | literal => exact .singleton rfl rfl
  case parentheses ih  => exact ih.enclosed
  case term ih | unary ih | tighter ih | plain ih => exact ih
  case not ih | negate ih | plus ih => exact ih.cons rfl rfl
  case binary op _ _ _ _ _ _ _ _ ihl ihr =>
    exact ihl.infixed ihr (by cases op <;> decide) rfl
  case conditional iht iha ihb =>
    exact iht.infixed (iha.infixed ihb (by decide) rfl) (by decide) rfl

theorem splits_of_spaced (h : Derives k ls e d) (hs : Spaced cs ls) : Splits cs ls :=
  splits_of_apart hs (separable_of_derives h).apart

end Lexeme

end MessageCatalog.Plural
