import Mathlib.Tactic

namespace MessageCatalog.Number

def numeralValue (alphabet text : List Char) : Nat :=
  text.foldl (fun value c => alphabet.length * value + alphabet.idxOf c) 0

structure Denotes (alphabet text : List Char) (n : Nat) : Prop where
  ne_nil : text ≠ []
  digits : ∀ c ∈ text, c ∈ alphabet
  value : numeralValue alphabet text = n

-- The first character of the alphabet is the digit zero.
structure IsShortest (alphabet text : List Char) (n : Nat) : Prop extends
    Denotes alphabet text n where
  head : text.head? = alphabet.head? → text.length = 1
  shortest : ∀ other, Denotes alphabet other n → text.length ≤ other.length

section Numerals

variable {alphabet text : List Char} {n : Nat}

theorem numeralValue_concat (alphabet text : List Char) (c : Char) :
    numeralValue alphabet (text ++ [c]) =
      alphabet.length * numeralValue alphabet text + alphabet.idxOf c :=
  List.foldl_concat ..

theorem numeralValue_lt (h : ∀ c ∈ text, c ∈ alphabet) :
    numeralValue alphabet text < alphabet.length ^ text.length := by
  induction text using List.reverseRecOn
  case nil => exact Nat.one_pos
  case append_singleton text c ih =>
    have hc : alphabet.idxOf c < alphabet.length := List.idxOf_lt_length_iff.mpr (h c (by simp))
    have ih := ih fun c hc => h c (List.mem_append_left _ hc)
    rw [numeralValue_concat, List.length_append, List.length_singleton, pow_succ']
    calc
      _ < alphabet.length * numeralValue alphabet text + alphabet.length := by omega
      _ = alphabet.length * (numeralValue alphabet text + 1) := (Nat.mul_succ ..).symm
      _ ≤ alphabet.length * alphabet.length ^ text.length := Nat.mul_le_mul_left _ ih

-- A zero in front does not change what is denoted.
theorem Denotes.tail {zero : Char} {zeros : List Char} (h : Denotes (zero :: zeros) (zero :: text) n)
    (hn : text ≠ []) : Denotes (zero :: zeros) text n where
  ne_nil := hn
  digits := fun c hc => h.digits c (.tail _ hc)
  value := by
    have hv := h.value
    simpa [numeralValue] using hv

section Digits

variable {f : Char → Char} (base : 1 < alphabet.length)
  (spelled : ∀ d < alphabet.length, alphabet.idxOf (f (Nat.digitChar d)) = d)
include base spelled

theorem denotes_toDigits (n : Nat) :
    Denotes alphabet ((Nat.toDigits alphabet.length n).map f) n := by
  have hm {d : Nat} (hd : d < alphabet.length) : f (Nat.digitChar d) ∈ alphabet :=
    List.idxOf_lt_length_iff.mp ((spelled d hd).symm ▸ hd)
  induction n using Nat.base_induction alphabet.length base
  case single n hn =>
    rw [Nat.toDigits_of_lt_base hn]
    exact ⟨by simp, by simpa using hm hn, by simp [numeralValue, spelled n hn]⟩
  case digit n d hd hn ih =>
    rw [← Nat.toDigits_append_toDigits base hn hd, Nat.toDigits_of_lt_base hd, List.map_append,
      List.map_singleton]
    refine ⟨by simp, ?_, by rw [numeralValue_concat, ih.value, spelled d hd]⟩
    intro c hc
    cases List.mem_append.mp hc
    case inl h => exact ih.digits c h
    case inr h => exact List.mem_singleton.mp h ▸ hm hd

theorem isShortest_toDigits (n : Nat) :
    IsShortest alphabet ((Nat.toDigits alphabet.length n).map f) n := by
  have hd := denotes_toDigits base spelled n
  have hs : ∀ other, Denotes alphabet other n →
      ((Nat.toDigits alphabet.length n).map f).length ≤ other.length := by
    intro other ho
    rw [List.length_map, Nat.length_toDigits_le_iff base (List.length_pos_iff.mpr ho.ne_nil)]
    exact ho.value ▸ numeralValue_lt ho.digits
  refine ⟨hd, fun hh => ?_, hs⟩
  generalize (Nat.toDigits alphabet.length n).map f = text at hd hs hh
  match alphabet, text with
  | [], _                 => cases base
  | _, []                 => exact absurd rfl hd.ne_nil
  | zero :: _, [_]        => rfl
  | zero :: _, _ :: d :: _ =>
    cases hh
    exact absurd (hs _ (hd.tail (by simp))) (by simp)

end Digits

end Numerals

end MessageCatalog.Number
