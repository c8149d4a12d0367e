import Mathlib.Data.List.TakeWhile
import Mathlib.Tactic
import MessageCatalog.Catalog.Fields
import MessageCatalog.Proofs.Dictionary

namespace MessageCatalog

namespace Text

variable {α : Type} {p : α → Bool} {xs key : List α}

-- `key` is `xs` without the elements at its ends that satisfy `p`.
structure Trims (p : α → Bool) (xs key : List α) : Prop where
  parts : ∃ before after, xs = before ++ (key ++ after) ∧ (∀ x ∈ before, p x) ∧ ∀ x ∈ after, p x
  head  : ∀ x ∈ key.head?, ¬p x
  last  : ∀ x ∈ key.getLast?, ¬p x

theorem dropWhile_of_head (h : ∀ x ∈ xs.head?, ¬p x) : xs.dropWhile p = xs := by
  cases xs <;> simp_all

theorem head_dropWhile (p : α → Bool) (xs : List α) : ∀ x ∈ (xs.dropWhile p).head?, ¬p x := by
  intro x hx
  have h := List.head?_dropWhile_not p xs
  simp_all

theorem trimEnd_append (p : α → Bool) (xs : List α) :
    trimEnd p xs ++ (xs.reverse.takeWhile p).reverse = xs := by
  rw [trimEnd, ← List.reverse_append, List.takeWhile_append_dropWhile, List.reverse_reverse]

theorem trims_trim (p : α → Bool) (xs : List α) : Trims p xs (trim p xs) where
  parts := by
    refine ⟨xs.takeWhile p, ((trimStart p xs).reverse.takeWhile p).reverse, ?_, ?_, ?_⟩
    · rw [trim, trimEnd_append]
      exact (List.takeWhile_append_dropWhile ..).symm
    · exact fun x hx => List.mem_takeWhile_imp hx
    · exact fun x hx => List.mem_takeWhile_imp (List.mem_reverse.mp hx)
  head x hx := by
    refine head_dropWhile p xs x ?_
    have h := trimEnd_append p (trimStart p xs)
    rw [← trimStart, ← h]
    exact List.mem_head?_append_of_mem_head? hx
  last x hx := by
    rw [trim, trimEnd, List.getLast?_reverse] at hx
    exact head_dropWhile p _ x hx

theorem trim_eq_iff : trim p xs = key ↔ Trims p xs key := by
  constructor
  · rintro rfl
    exact trims_trim p xs
  · rintro ⟨⟨before, after, rfl, hb, ha⟩, head, last⟩
    have he : trimEnd p (key ++ after) = key := by
      have hr : ∀ x ∈ key.reverse.head?, ¬p x := by rwa [List.head?_reverse]
      rw [trimEnd, List.reverse_append,
        List.dropWhile_append_of_pos fun x hx => ha x (List.mem_reverse.mp hx),
        dropWhile_of_head hr, List.reverse_reverse]
    rw [trim, trimStart, List.dropWhile_append_of_pos hb]
    cases key
    case nil =>
      rw [List.nil_append, List.dropWhile_eq_nil_iff.mpr ha]
      rfl
    case cons => rwa [dropWhile_of_head (by simpa using head)]

end Text

namespace Fields

open Text

variable {line before value : List Char}

theorem splitLine_eq_some_iff :
    splitLine line = some (before, value) ↔
      line = before ++ ':' :: ' ' :: value ∧ ¬[':', ' '] <:+: before := by
  fun_induction splitLine line generalizing before
  case case1 => simp
  case case2 cs =>
    constructor
    · rintro ⟨⟩
      exact ⟨rfl, by simp⟩
    · rintro ⟨hl, hi⟩
      match before, hl with
      | [], hl          => cases hl; rfl
      | [_], hl         => simp at hl
      | _ :: _ :: b, hl =>
        cases hl
        exact absurd (List.prefix_append [':', ' '] b).isInfix hi
  case case3 c cs hc ih =>
    rw [Option.map_eq_some_iff]
    constructor
    · rintro ⟨⟨b, v⟩, hs, hb⟩
      cases hb
      obtain ⟨rfl, hi⟩ := ih.mp hs
      refine ⟨rfl, fun hp => ?_⟩
      cases List.infix_cons_iff.mp hp
      case inr hp => exact hi hp
      case inl hp =>
        obtain ⟨tail, ht⟩ := hp
        cases ht
        exact hc _ rfl rfl
    · rintro ⟨hl, hi⟩
      match before, hl with
      | [], hl     => cases hl; exact absurd rfl (hc _ rfl)
      | _ :: b, hl =>
        cases hl
        exact ⟨(b, value), ih.mpr ⟨rfl, fun hp => hi (List.infix_cons hp)⟩, rfl⟩

-- A line states what is behind its first colon with a space, as the value of what is in front of
-- it.
inductive States : List Char → String → String → Prop
  | intro {before : List Char} {key value : String} (first : ¬[':', ' '] <:+: before)
      (trims : Trims isWhite before key.toList) :
      States (before ++ ':' :: ' ' :: value.toList) key value

theorem ofLine?_eq_some_iff {key value : String} :
    ofLine? line = some (key, value) ↔ States line key value := by
  rw [ofLine?, Option.map_eq_some_iff]
  constructor
  · rintro ⟨⟨before, v⟩, hs, hk⟩
    cases hk
    obtain ⟨rfl, first⟩ := splitLine_eq_some_iff.mp hs
    have h := @States.intro before (.ofList (trim isWhite before)) (.ofList v) first
    simp only [String.toList_ofList] at h
    exact h (trims_trim isWhite before)
  · rintro ⟨first, trims⟩
    refine ⟨(_, value.toList), splitLine_eq_some_iff.mpr ⟨rfl, first⟩, ?_⟩
    simp [trim_eq_iff.mpr trims]

-- The last of some lines that states a value of a key.
def LastStates (lines : List (List Char)) (key value : String) : Prop :=
  ∃ before line after, lines = before ++ line :: after ∧ States line key value ∧
    ∀ l ∈ after, ∀ v, ¬States l key v

section Lines

variable {lines : List (List Char)} {key value : String}

theorem lastStates_concat :
    LastStates (lines ++ [line]) key value ↔
      States line key value ∨ (∀ v, ¬States line key v) ∧ LastStates lines key value := by
  constructor
  · rintro ⟨before, l, after, h, hs, hn⟩
    obtain rfl | ⟨after, l', rfl⟩ := List.eq_nil_or_concat after
    · cases (List.append_inj' h rfl).right
      exact .inl hs
    · have h : lines ++ [line] = before ++ l :: after ++ [l'] := by simpa using h
      obtain ⟨rfl, hl⟩ := List.append_inj' h rfl
      cases hl
      exact .inr ⟨hn line (by simp), before, l, after, rfl, hs, fun m hm => hn m (by simp [hm])⟩
  · rintro (hs | ⟨hn, before, l, after, rfl, hs, ha⟩)
    · exact ⟨lines, line, [], rfl, hs, by simp⟩
    · refine ⟨before, l, after ++ [line], by simp, hs, ?_⟩
      simpa [or_imp, forall_and] using ⟨ha, hn⟩

-- What is inserted last under a key is what the last line with it states.
theorem lookup_reverse_filterMap :
    (lines.filterMap ofLine?).reverse.lookup key = some value ↔ LastStates lines key value := by
  induction lines using List.reverseRecOn
  case nil => simp [LastStates]
  case append_singleton lines line ih =>
    rw [lastStates_concat, ← ih, List.filterMap_append, List.reverse_append]
    cases hl : ofLine? line
    case none =>
      have hn : ∀ k v, ¬States line k v := fun k v hs => by
        rw [← ofLine?_eq_some_iff, hl] at hs
        cases hs
      simp [hl, hn]
    case some entry =>
      obtain ⟨k, v⟩ := entry
      have hs : ∀ key' v', States line key' v' ↔ (k, v) = (key', v') := fun key' v' => by
        rw [← ofLine?_eq_some_iff, hl, Option.some_inj]
      by_cases hk : key = k
      case pos => simp [hl, hs, hk]
      case neg =>
        have hb : (key == k) = false := beq_false_of_ne hk
        simp [hl, hs, hb, Ne.symm hk, List.lookup_cons]

end Lines

section Blocks

variable {key value : String}

def lines (block : String) : List (List Char) :=
  block.toList.splitOn '\n'

-- No line goes from one block into the next one.
theorem lines_append (a b : String) : lines (a ++ "\n" ++ b) = lines a ++ lines b := by
  simp [lines, List.splitOn_append_cons_self]

theorem ofBlock_intercalate (blocks : List String) :
    ofBlock ("\n".intercalate blocks) = (blocks.flatMap lines).filterMap ofLine? := by
  match blocks with
  | []           => rfl
  | [b]          => simp [ofBlock, lines]
  | b :: b' :: bs =>
    have ih := ofBlock_intercalate (b' :: bs)
    rw [ofBlock, ← lines] at ih ⊢
    rw [String.intercalate_cons_cons, lines_append, List.filterMap_append, ih,
      ← List.filterMap_append]
    rfl

theorem getElem?_extend (fields : Fields) (block key : String) :
    (extend fields block)[key]? = ((ofBlock block).reverse.lookup key).or fields[key]? :=
  getElem?_foldl_insert fields (ofBlock block) key

-- The lines of all blocks count, one after the other.
theorem getElem?_parse {blocks : List String} :
    (parse ("\n".intercalate blocks))[key]? = some value ↔
      LastStates (blocks.flatMap lines) key value := by
  rw [parse, getElem?_extend, ofBlock_intercalate, ← lookup_reverse_filterMap]
  simp

end Blocks

end Fields

end MessageCatalog
