import MessageCatalog.Proofs.ObjectFile.Lookup
import MessageCatalog.Proofs.ObjectFile.Sizes

namespace MessageCatalog

namespace ByteOrder

-- The same words, each with its bytes reversed. Bytes that do not fill a word stay as they are.
def reverseWords : Bytes → Bytes
  | a :: b :: c :: d :: bs => d :: c :: b :: a :: reverseWords bs
  | bs                     => bs

@[simp]
theorem length_reverseWords : ∀ bs : Bytes, (reverseWords bs).length = bs.length
  | _ :: _ :: _ :: _ :: bs        => congrArg (· + 4) (length_reverseWords bs)
  | [] | [_] | [_, _] | [_, _, _] => rfl

theorem words_big : ∀ bs : Bytes, big.words bs = little.words (reverseWords bs)
  | _ :: _ :: _ :: _ :: bs        => congrArg (List.cons _) (words_big bs)
  | [] | [_] | [_, _] | [_, _, _] => rfl

end ByteOrder

namespace ObjectFile

namespace Reader

open Outcome

-- The reader behind a number of bytes.
def skip (r : Reader) (count : Nat) : Reader :=
  { r with position := r.position + count }

-- Reads words one by one.
def successive (r : Reader) : Nat → Except ReadError (List Nat × Reader)
  | 0     => .ok ([], r)
  | n + 1 => do
    let (w, r) ← r.word
    let (ws, r) ← r.successive n
    return (w :: ws, r)

-- The bytes ahead.
def ahead (r : Reader) (count : Nat) : Bytes :=
  (r.data.drop r.position).take count

variable {r : Reader} {n : Nat} {x : List Nat × Reader}

theorem skip_skip (r : Reader) (m n : Nat) : (r.skip m).skip n = r.skip (m + n) := by
  rw [skip, skip, skip, Nat.add_assoc]

theorem available_skip (r : Reader) (n : Nat) : (r.skip n).available = r.available - n :=
  (Nat.sub_sub ..).symm

theorem ahead_add (r : Reader) (m n : Nat) : r.ahead (m + n) = r.ahead m ++ (r.skip m).ahead n := by
  rw [ahead, List.take_add, List.drop_drop]
  rfl

theorem length_ahead (h : n ≤ r.available) : (r.ahead n).length = n := by
  rw [ahead, List.length_take, List.length_drop]
  exact Nat.min_eq_left h

theorem words_eq_ok :
    r.words n = .ok x ↔
      4 * n ≤ r.available ∧ x = (r.order.words (r.ahead (4 * n)), r.skip (4 * n)) := by
  rw [words, bytes]
  by_cases h : 4 * n ≤ r.available
  case pos =>
    rw [if_pos h, eq_comm]
    simp [h, ahead, skip]
  case neg => simp [h]

theorem words_eq_error (h : ¬4 * n ≤ r.available) :
    r.words n = .error
      { offset := r.position, needed := min (4 * n) sizeLimit, available := r.available } := by
  rw [words, bytes, if_neg h]

theorem word_eq_ok {x : Nat × Reader} :
    r.word = .ok x ↔ 4 ≤ r.available ∧ x = (r.order.value (r.ahead 4), r.skip 4) := by
  rw [word, bytes]
  by_cases h : 4 ≤ r.available
  case pos =>
    rw [if_pos h, eq_comm]
    simp [h, ahead, skip]
  case neg => simp [h]

-- The first word of many.
theorem words_succ :
    r.words (n + 1) = .ok x ↔
      ∃ w s ws t, r.word = .ok (w, s) ∧ s.words n = .ok (ws, t) ∧ x = (w :: ws, t) := by
  have hn : 4 * (n + 1) = 4 + 4 * n := by omega
  have hw (h : 4 ≤ r.available) : r.order.words (r.ahead (4 * (n + 1))) =
      r.order.value (r.ahead 4) :: (r.skip 4).order.words ((r.skip 4).ahead (4 * n)) := by
    have hl := length_ahead h
    rw [hn, ahead_add, r.order.words_append hl, ← r.order.value_eq_number hl]
    rfl
  simp only [words_eq_ok, word_eq_ok]
  constructor
  · rintro ⟨ha, rfl⟩
    have ha' : 4 * n ≤ (r.skip 4).available := by
      rw [available_skip]
      omega
    refine ⟨_, _, _, _, ⟨by omega, rfl⟩, ⟨ha', rfl⟩, ?_⟩
    rw [hw (by omega), skip_skip, hn]
  · rintro ⟨w, s, ws, t, ⟨ha, hs⟩, ⟨ha', ht⟩, rfl⟩
    cases hs
    cases ht
    rw [available_skip] at ha'
    rw [hw ha, skip_skip, hn]
    exact ⟨by omega, rfl⟩

theorem words_zero : r.words 0 = .ok x ↔ x = ([], r) := by
  rw [words_eq_ok]
  simp [ahead, skip, ByteOrder.words]

-- By induction on the number of words. The first word is the same, and the rest are read from
-- behind it.
theorem successive_eq_ok : r.successive n = .ok x ↔ r.words n = .ok x := by
  induction n generalizing r x
  case zero => rw [words_zero, successive, Except.ok.injEq, eq_comm]
  case succ n hi =>
    rw [words_succ, successive]
    constructor
    · intro h
      obtain ⟨⟨w, s⟩, hw, h⟩ := bind_eq_ok.mp h
      obtain ⟨⟨ws, t⟩, hs, h⟩ := bind_eq_ok.mp h
      exact ⟨w, s, ws, t, hw, hi.mp hs, (Except.ok.inj h).symm⟩
    · rintro ⟨w, s, ws, t, hw, hs, rfl⟩
      have hs := hi.mpr hs
      rw [hw, ok_bind]
      dsimp only
      rw [hs]
      rfl

theorem words_add {a b : Nat} :
    r.words (a + b) = .ok x ↔
      ∃ ms s ns t, r.words a = .ok (ms, s) ∧ s.words b = .ok (ns, t) ∧ x = (ms ++ ns, t) := by
  induction a generalizing r x
  case zero =>
    rw [Nat.zero_add]
    constructor
    · exact fun h => ⟨[], r, x.1, x.2, words_zero.mpr rfl, h, rfl⟩
    · rintro ⟨ms, s, ns, t, hm, hn, rfl⟩
      cases words_zero.mp hm
      exact hn
  case succ a hi =>
    rw [Nat.succ_add, words_succ]
    constructor
    · rintro ⟨w, s, ws, t, hw, hs, rfl⟩
      obtain ⟨ms, s', ns, t, hm, hn, he⟩ := hi.mp hs
      cases he
      exact ⟨w :: ms, s', ns, t, words_succ.mpr ⟨w, s, ms, s', hw, hm, rfl⟩, hn, rfl⟩
    · rintro ⟨ms, s, ns, t, hm, hn, rfl⟩
      obtain ⟨w, s', ws, s, hw, hs, he⟩ := words_succ.mp hm
      cases he
      exact ⟨w, s', ws ++ ns, t, hw, hi.mpr ⟨ws, s, ns, t, hs, hn, rfl⟩, rfl⟩

-- The same reader with the bytes of the next words reversed, word by word.
def reversed (r : Reader) (n : Nat) : Reader where
  data :=
    r.data.take r.position ++
      (ByteOrder.reverseWords (r.ahead (4 * n)) ++ r.data.drop (r.position + 4 * n))
  order := r.order
  position := r.position

theorem available_reversed (r : Reader) (n : Nat) : (r.reversed n).available = r.available := by
  simp only [available, reversed, List.length_append, ByteOrder.length_reverseWords, ahead,
    List.length_take, List.length_drop]
  omega

theorem ahead_reversed (h : 4 * n ≤ r.available) :
    (r.reversed n).ahead (4 * n) = ByteOrder.reverseWords (r.ahead (4 * n)) := by
  cases n
  case zero => rfl
  case succ n =>
    have hp : (r.data.take r.position).length = r.position := by
      simp only [available] at h
      exact List.length_take_of_le (by omega)
    have hl : (ByteOrder.reverseWords (r.ahead (4 * (n + 1)))).length = 4 * (n + 1) := by
      rw [ByteOrder.length_reverseWords, length_ahead h]
    rw [ahead, reversed, List.drop_left' hp, List.take_left' hl]

-- The same reader for words of another byte order.
def inOrder (r : Reader) (o : ByteOrder) : Reader :=
  { r with order := o }

theorem words_inOrder_big (r : Reader) (n : Nat) :
    ((r.inOrder .big).words n).map (fun x => (x.1, x.2.position)) =
      (((r.reversed n).inOrder .little).words n).map fun x => (x.1, x.2.position) := by
  by_cases h : 4 * n ≤ r.available
  case pos =>
    have hr : 4 * n ≤ (r.reversed n).available := by rwa [available_reversed]
    have hb : (r.inOrder .big).words n = .ok (_, _) := words_eq_ok.mpr ⟨h, rfl⟩
    have hl : ((r.reversed n).inOrder .little).words n = .ok (_, _) := words_eq_ok.mpr ⟨hr, rfl⟩
    have hw : ByteOrder.big.words (r.ahead (4 * n)) =
        ByteOrder.little.words ((r.reversed n).ahead (4 * n)) := by
      rw [ahead_reversed h, ByteOrder.words_big]
    rw [hb, hl]
    exact congrArg (fun ws => Except.ok (ws, r.position + 4 * n)) hw
  case neg =>
    have hr : ¬4 * n ≤ (r.reversed n).available := by rwa [available_reversed]
    have hb : (r.inOrder .big).words n = .error _ := words_eq_error h
    have hl : ((r.reversed n).inOrder .little).words n = .error _ := words_eq_error hr
    have he : ((r.reversed n).inOrder .little).available = r.available := available_reversed r n
    rw [hb, hl, he]
    rfl

theorem words_eq_successive (r : Reader) (n : Nat) :
    ((∃ x, r.words n = .ok x) ↔ 4 * n ≤ r.available) ∧
    (∀ x, r.words n = .ok x ↔ r.successive n = .ok x) ∧
    (∀ a b, a + b = n → ∀ x, r.words n = .ok x ↔
      ∃ ms s ns t, r.words a = .ok (ms, s) ∧ s.words b = .ok (ns, t) ∧ x = (ms ++ ns, t)) ∧
    ((r.inOrder .big).words n).map (fun x => (x.1, x.2.position)) =
      (((r.reversed n).inOrder .little).words n).map (fun x => (x.1, x.2.position)) ∧
    ∀ (s : SizedReader) (count : UInt64), s.Valid → s.reader = r → count.toNat = n →
      s.Agrees ((SizedReader.words count).run.run s) (r.words n) := by
  refine ⟨?succeeds, fun x => successive_eq_ok.symm, ?parts, words_inOrder_big r n, ?sized⟩
  case succeeds =>
    constructor
    · exact fun ⟨_, h⟩ => (words_eq_ok.mp h).left
    · exact fun h => ⟨_, words_eq_ok.mpr ⟨h, rfl⟩⟩
  case parts =>
    rintro a b rfl x
    exact words_add
  case sized =>
    rintro s count h rfl rfl
    exact h.agrees_words count

-- Two words behind the first byte, and as many words as have no bytes if their number wraps around.
theorem words_eq_successive_wrapped :
    ∃ s : SizedReader, s = ⟨[9, 1, 0, 0, 0, 0, 0, 0, 2], .big, 1⟩ ∧ s.Valid ∧
      s.reader.successive 2 = .ok ([0x1000000, 2], s.reader.skip 8) ∧
      (∃ ms t ns u, s.reader.words 1 = .ok (ms, t) ∧ t.words 1 = .ok (ns, u) ∧
        ([0x1000000, 2], s.reader.skip 8) = (ms ++ ns, u)) ∧
      s.Agrees ((SizedReader.words 2).run.run s) (s.reader.words 2) ∧
      (¬∃ x, s.reader.words 0x4000000000000000 = .ok x) ∧
      s.Agrees ((SizedReader.words 0x4000000000000000).run.run s)
        (s.reader.words 0x4000000000000000) := by
  have hv : SizedReader.Valid ⟨[9, 1, 0, 0, 0, 0, 0, 0, 2], .big, 1⟩ := ⟨by decide, by decide⟩
  have ⟨_, hs, hp, _, ha⟩ := words_eq_successive
    (SizedReader.reader ⟨[9, 1, 0, 0, 0, 0, 0, 0, 2], .big, 1⟩) 2
  have ⟨hl, _, _, _, hm⟩ := words_eq_successive
    (SizedReader.reader ⟨[9, 1, 0, 0, 0, 0, 0, 0, 2], .big, 1⟩) 0x4000000000000000
  have hw : (SizedReader.reader ⟨[9, 1, 0, 0, 0, 0, 0, 0, 2], .big, 1⟩).words 2 =
      .ok ([0x1000000, 2], _) := rfl
  exact ⟨_, rfl, hv, (hs _).mp hw, (hp 1 1 rfl _).mp hw, ha _ 2 hv rfl rfl,
    mt hl.mp (by decide), hm _ _ hv rfl rfl⟩

end Reader

end ObjectFile

end MessageCatalog
