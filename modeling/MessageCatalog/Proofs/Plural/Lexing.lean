import Mathlib.Data.List.TakeWhile
import Mathlib.Tactic
import MessageCatalog.Outcome
import MessageCatalog.Plural.Token

namespace MessageCatalog.Plural

open Text

namespace Lexeme

-- How C writes the lexemes that are not numerals.
def spellings : List (List Char × Lexeme) := [
  (['n'], count), (['('], openParen), ([')'], closeParen), (['?'], question), ([':'], colon),
  (['!'], not),
  (['*'], operator .multiply), (['/'], operator .divide), (['%'], operator .modulo),
  (['+'], operator .add), (['-'], operator .subtract),
  (['<'], operator .less), (['<', '='], operator .lessEqual),
  (['>'], operator .greater), (['>', '='], operator .greaterEqual),
  (['=', '='], operator .equal), (['!', '='], operator .notEqual),
  (['&', '&'], operator .and), (['|', '|'], operator .or)]

-- What looks like a lexeme. A numeral may be too large to be one.
inductive Word : List Char → Prop
  | numeral {w : List Char} (ne : w ≠ []) (digits : ∀ c ∈ w, c.isDigit) : Word w
  | spelled {w : List Char} {l : Lexeme} (mem : (w, l) ∈ spellings) : Word w

inductive Spells : List Char → Lexeme → Prop
  | number {w : List Char} (ne : w ≠ []) (digits : ∀ c ∈ w, c.isDigit)
      (lt : decimalValue w < 0x8000000000000000) : Spells w (number ⟨decimalValue w, lt⟩)
  | spelled {w : List Char} {l : Lexeme} (mem : (w, l) ∈ spellings) : Spells w l

def Longest (w cs : List Char) : Prop :=
  ∀ w', Word w' → w' <+: cs → w'.length ≤ w.length

inductive Splits : List Char → List Lexeme → Prop
  | nil : Splits [] []
  | blank {c : Char} {cs : List Char} {ls : List Lexeme} (h : isBlank c) (rest : Splits cs ls) :
      Splits (c :: cs) ls
  | word {w cs : List Char} {l : Lexeme} {ls : List Lexeme} (spells : Spells w l)
      (longest : Longest w (w ++ cs)) (rest : Splits cs ls) : Splits (w ++ cs) (l :: ls)

theorem text_mem_spellings {l : Lexeme} (h : l ∈ spelled) : (l.text, l) ∈ spellings := by
  have table : ∀ l ∈ spelled, (l.text, l) ∈ spellings := by decide
  exact table l h

-- The table of the scanner has the same lexemes, and their texts.
theorem mem_spellings {w : List Char} {l : Lexeme} :
    (w, l) ∈ spellings ↔ l ∈ spelled ∧ w = l.text := by
  constructor
  · intro h
    have table : ∀ x ∈ spellings, x.snd ∈ spelled ∧ x.fst = x.snd.text := by decide
    exact table _ h
  · intro ⟨h, ht⟩
    exact ht ▸ text_mem_spellings h

-- No spelling starts with a digit or a blank.
theorem head_of_mem_spellings {w : List Char} {l : Lexeme} (h : (w, l) ∈ spellings) :
    ∃ c cs, w = c :: cs ∧ c.isDigit = false ∧ isBlank c = false := by
  have heads : ∀ x ∈ spellings, x.fst.head?.any fun c => !c.isDigit && !isBlank c := by decide
  have ⟨c, hc, hn⟩ := (Option.any_eq_true _ _).mp (heads _ h)
  have ⟨cs, hcs⟩ := List.head?_eq_some_iff.mp hc
  simp only [Bool.and_eq_true, Bool.not_eq_true'] at hn
  exact ⟨c, cs, hcs, hn⟩

theorem text_injOn_spelled {l l' : Lexeme} (h : l ∈ spelled) (h' : l' ∈ spelled)
    (ht : l.text = l'.text) : l = l' := by
  have inj : ∀ l ∈ spelled, ∀ l' ∈ spelled, l.text = l'.text → l = l' := by decide
  exact inj l h l' h' ht

-- What comes later in the table never extends what comes before it.
theorem pairwise_spelled :
    spelled.Pairwise fun l l' => l.text <+: l'.text → l'.text.length ≤ l.text.length := by
  decide

theorem takeWhile_of_mem_spellings {w : List Char} {l : Lexeme} (h : (w, l) ∈ spellings)
    (cs : List Char) : (w ++ cs).takeWhile Char.isDigit = [] := by
  have ⟨_, _, ht, hd, _⟩ := head_of_mem_spellings h
  simp [ht, hd]

-- Nothing after a longest numeral is a digit.
theorem takeWhile_of_longest {w cs : List Char} (ne : w ≠ []) (digits : ∀ c ∈ w, c.isDigit)
    (longest : Longest w (w ++ cs)) : (w ++ cs).takeWhile Char.isDigit = w := by
  have ht : (w ++ cs).takeWhile Char.isDigit = w ++ cs.takeWhile Char.isDigit :=
    List.takeWhile_append_of_pos digits
  have hw : Word (w ++ cs.takeWhile Char.isDigit) := by
    refine .numeral (by simp [ne]) fun c hc => ?_
    cases List.mem_append.mp hc
    case inl h => exact digits c h
    case inr h => exact List.mem_takeWhile_imp h
  have hl := longest _ hw ⟨cs.dropWhile Char.isDigit, by simp⟩
  have hn : cs.takeWhile Char.isDigit = [] := by
    simp only [List.length_append] at hl
    exact List.length_eq_zero_iff.mp (by omega)
  simp [ht, hn]

theorem longest_takeWhile {cs : List Char} (h : cs.takeWhile Char.isDigit ≠ []) :
    Longest (cs.takeWhile Char.isDigit) cs := by
  intro w hw hp
  cases hw
  case numeral digits =>
    have ⟨t, ht⟩ := hp
    rw [← ht, List.takeWhile_append_of_pos digits]
    simp
  case spelled l mem =>
    have ⟨t, ht⟩ := hp
    exact absurd (ht ▸ takeWhile_of_mem_spellings mem t) h

theorem longest_of_find {cs : List Char} {l : Lexeme} (hd : cs.takeWhile Char.isDigit = [])
    (h : spelled.find? (·.text.isPrefixOf cs) = some l) : Longest l.text cs := by
  have ⟨hl, before, after, hs, hb⟩ := List.find?_eq_some_iff_append.mp h
  have hl := List.isPrefixOf_iff_prefix.mp hl
  intro w hw hp
  cases hw
  case numeral ne digits =>
    have ⟨t, ht⟩ := hp
    rw [← ht, List.takeWhile_append_of_pos digits] at hd
    simp [ne] at hd
  case spelled l' mem =>
    obtain ⟨listed, rfl⟩ := mem_spellings.mp mem
    have hpw := hs ▸ pairwise_spelled
    cases List.mem_append.mp (hs ▸ listed)
    case inl hm =>
      have hn := hb l' hm
      simp [List.isPrefixOf_iff_prefix.mpr hp] at hn
    case inr hm =>
      cases hm
      case head => exact Nat.le_refl _
      case tail hm =>
        by_contra hc
        have hpre := List.prefix_of_prefix_length_le hl hp (by omega)
        have ⟨_, hpw, _⟩ := List.pairwise_append.mp hpw
        exact hc (List.pairwise_cons.mp hpw |>.1 l' hm hpre)

theorem spells_of_read {cs : List Char} {l : Lexeme} {k : Nat} (h : read cs = .ok (l, k)) :
    ∃ w rest, cs = w ++ rest ∧ w.length = k ∧ Spells w l ∧ Longest w cs := by
  unfold read at h
  split at h
  case h_1 hd =>
    split at h
    case h_1 l' hf =>
      cases h
      have hp := List.find?_some hf
      have ⟨rest, hr⟩ := List.isPrefixOf_iff_prefix.mp hp
      have hm := List.mem_of_find?_eq_some hf
      exact ⟨l.text, rest, hr.symm, rfl, .spelled (text_mem_spellings hm), longest_of_find hd hf⟩
    case h_2 => cases h
  case h_2 ds hd =>
    split at h
    case isTrue hv =>
      cases h
      have ha : ∀ c ∈ cs.takeWhile Char.isDigit, c.isDigit := fun c hc => List.mem_takeWhile_imp hc
      refine ⟨cs.takeWhile Char.isDigit, cs.dropWhile Char.isDigit, by simp, rfl, ?_, ?_⟩
      · exact .number hd ha hv
      · exact longest_takeWhile hd
    case isFalse => cases h

theorem read_of_spells {w cs : List Char} {l : Lexeme} (h : Spells w l)
    (longest : Longest w (w ++ cs)) : read (w ++ cs) = .ok (l, w.length) := by
  unfold read
  cases h
  case number ne digits lt =>
    rw [takeWhile_of_longest ne digits longest]
    split
    case h_1 => contradiction
    case h_2 =>
      have lt : decimalValue w < literalBound := lt
      rw [dif_pos lt]
  case spelled mem =>
    simp only [takeWhile_of_mem_spellings mem]
    obtain ⟨listed, rfl⟩ := mem_spellings.mp mem
    cases hf : spelled.find? (·.text.isPrefixOf (l.text ++ cs))
    case none =>
      have := List.find?_eq_none.mp hf l listed
      simp at this
    case some l' =>
      have hm := List.mem_of_find?_eq_some hf
      have hp := List.find?_some hf
      have hp := List.isPrefixOf_iff_prefix.mp hp
      have hle := longest_of_find (takeWhile_of_mem_spellings mem cs) hf _ (.spelled mem) ⟨cs, rfl⟩
      have hge := longest _ (.spelled (text_mem_spellings hm)) hp
      have ht := List.prefix_of_prefix_length_le hp (List.prefix_append l.text cs) hge
      have ht := ht.eq_of_length (by omega)
      simp [text_injOn_spelled hm listed ht]

theorem Spells.head {w : List Char} {l : Lexeme} (h : Spells w l) :
    ∃ c cs, w = c :: cs ∧ isBlank c = false := by
  cases h
  case number ne digits _ =>
    have ⟨c, cs, hw⟩ := List.exists_cons_of_ne_nil ne
    exact ⟨c, cs, hw, isBlank_of_isDigit (digits c (by simp [hw]))⟩
  case spelled mem =>
    have ⟨c, cs, ht, _, hb⟩ := head_of_mem_spellings mem
    exact ⟨c, cs, ht, hb⟩

end Lexeme

namespace Token

open Lexeme

theorem scan_blank {c : Char} (h : isBlank c) (offset : Nat) (cs : List Char) :
    scan offset (c :: cs) = scan (offset + 1) cs := by
  rw [scan, if_pos h]

theorem scan_word {w cs : List Char} {l : Lexeme} (h : Spells w l) (longest : Longest w (w ++ cs))
    (offset : Nat) :
    scan offset (w ++ cs) = (scan (offset + w.length) cs).map (⟨l, offset⟩ :: ·) := by
  have hr := read_of_spells h longest
  have ⟨c, w', hw, hb⟩ := h.head
  subst hw
  simp only [List.cons_append] at hr ⊢
  rw [scan, if_neg (by simp [hb])]
  split
  case h_1 reason he => cases hr ▸ he
  case h_2 l' k he =>
    cases hr ▸ he
    simp only [List.length_cons, List.drop_succ_cons, List.drop_left]
    cases scan (offset + (w'.length + 1)) cs <;> rfl

theorem splits_of_scan {offset : Nat} {cs : List Char} {ts : List Token}
    (h : scan offset cs = .ok ts) : Splits cs (ts.map lexeme) := by
  fun_induction scan offset cs generalizing ts
  case case1 =>
    cases h
    exact .nil
  case case2 hb hi => exact .blank hb (hi h)
  case case3 => cases h
  case case4 offset c cs _ l k hr hi =>
    have ⟨w, rest, hc, hk, hs, hl⟩ := spells_of_read hr
    have ⟨us, hu, he⟩ := Outcome.bind_eq_ok.mp h
    cases he
    have hd : (c :: cs).drop k = rest := by simp [hc, ← hk]
    rw [hc] at hl ⊢
    exact .word hs hl (hd ▸ hi hu)

theorem scan_of_splits {cs : List Char} {ls : List Lexeme} (h : Splits cs ls) (offset : Nat) :
    ∃ ts, scan offset cs = .ok ts ∧ ts.map lexeme = ls := by
  induction h generalizing offset
  case nil => exact ⟨[], by simp [scan], rfl⟩
  case blank hb _ hi =>
    obtain ⟨ts, hs, ht⟩ := hi (offset + 1)
    exact ⟨ts, scan_blank hb .. ▸ hs, ht⟩
  case word w cs l ls hs hl _ hi =>
    obtain ⟨ts, hts, hm⟩ := hi (offset + w.length)
    exact ⟨⟨l, offset⟩ :: ts, by rw [scan_word hs hl, hts]; rfl, by simp [hm]⟩

end Token

end MessageCatalog.Plural
