import Mathlib.Data.String.Basic
import MessageCatalog.Proofs.Plural.Offsets
import MessageCatalog.Proofs.Text.Utf8

namespace MessageCatalog

open Text

namespace Bytewise

inductive Trap
  -- A cut whose ends are no starts of characters of the text, or are not in order.
  | cut
  -- A look at bytes behind the end of a text.
  | bounds
  -- An argument in front of the first one.
  | index
  -- A negative number of decimals.
  | decimals
  -- A turn of a loop that does not move on.
  | standstill
  deriving DecidableEq

inductive Halt (ε : Type)
  | trap (t : Trap)
  | error (e : ε)
  deriving DecidableEq

abbrev Guarded (ε α : Type) := Except (Halt ε) α

variable {ε δ α β : Type}

-- Runs into no trap.
def lift (x : Except ε α) : Guarded ε α :=
  x.mapError .error

@[simp]
theorem lift_ok (a : α) : lift (.ok a : Except ε α) = .ok a :=
  rfl

@[simp]
theorem lift_error (e : ε) : lift (.error e : Except ε α) = .error (.error e) :=
  rfl

theorem lift_bind (x : Except ε α) (f : α → Except ε β) :
    lift (x >>= f) = lift x >>= fun a => lift (f a) := by
  cases x <;> rfl

theorem bind_eq_lift {x : Guarded ε α} {y : Except ε α} {f : α → Guarded ε β}
    {g : α → Except ε β} (h : x = lift y) (hf : ∀ a, f a = lift (g a)) :
    (x >>= f) = lift (y >>= g) := by
  rw [lift_bind, h, funext hf]

theorem lift_ne_trap (x : Except ε α) (t : Trap) : lift x ≠ .error (.trap t) := by
  cases x <;> simp

def Halt.map (f : ε → δ) : Halt ε → Halt δ
  | trap t  => .trap t
  | error e => .error (f e)

theorem lift_mapError (x : Except ε α) (f : ε → δ) :
    (lift x).mapError (Halt.map f) = lift (x.mapError f) := by
  cases x <;> rfl

-- The text between two offsets.
def cut (s : String) (first last : Nat) : Guarded ε String :=
  if first ≤ last ∧ (⟨first⟩ : String.Pos.Raw).IsValid s ∧ (⟨last⟩ : String.Pos.Raw).IsValid s then
    .ok (String.Pos.Raw.extract s ⟨first⟩ ⟨last⟩)
  else
    .error (.trap .cut)

-- The character with the value of a byte. It is the one at that byte if that has a single byte.
def character (b : UInt8) : Char :=
  Char.ofNat b.toNat

-- The byte at an offset, if the text goes on so far.
def byte? (s : String) (i : Nat) : Option Char :=
  (Utf8.ofString s)[i]?.map character

-- How many bytes from an offset on satisfy `p`.
def countFrom (s : String) (p : Char → Bool) (i : Nat) : Guarded ε Nat :=
  if i ≤ s.utf8ByteSize then
    .ok (((Utf8.ofString s).drop i).takeWhile (p <| character ·)).length
  else
    .error (.trap .bounds)

section Encoding

-- The bytes of characters in UTF-8.
def encode (cs : List Char) : Bytes :=
  cs.flatMap String.utf8EncodeChar

theorem encode_append (as bs : List Char) : encode (as ++ bs) = encode as ++ encode bs :=
  List.flatMap_append

theorem length_encode (cs : List Char) : (encode cs).length = byteLength cs := by
  induction cs
  case nil => rfl
  case cons c cs ih =>
    rw [encode, List.flatMap_cons, List.length_append, String.length_utf8EncodeChar, byteLength]
    exact congrArg _ ih

-- The first byte of a character is that of an ASCII character if the character is one.
theorem exists_encode (c : Char) :
    ∃ b bs, String.utf8EncodeChar c = b :: bs ∧ (c.utf8Size = 1 → bs = []) ∧
      (c.utf8Size = 1 ∨ (character b).utf8Size = 1 → character b = c) := by
  by_cases hc : c.utf8Size = 1
  case pos =>
    have hn : c.toNat < 128 := Nat.lt_succ_of_le (Char.utf8Size_eq_one_iff.mp hc)
    refine ⟨_, _, String.utf8EncodeChar_eq_singleton hc, fun _ => rfl, fun _ => ?_⟩
    have hb : c.val.toUInt8.toNat = c.toNat := Nat.mod_eq_of_lt (Nat.lt_trans hn (by decide))
    rw [character, hb, Char.ofNat_toNat]
  case neg =>
    -- The first bytes of longer ones have their highest bit set.
    have hl {n : Nat} (h : 128 ≤ n) (h' : n < 256) :
        ¬(c.utf8Size = 1 ∨ (character (.ofNat n)).utf8Size = 1) := by
      have hn : (character (.ofNat n)).toNat = n := by
        rw [character, Utf8.toNat_byte h', Utf8.toNat_ofNat (.inl (Nat.lt_trans h' (by decide)))]
      refine not_or.mpr ⟨hc, ?_⟩
      rw [Char.utf8Size_eq_one_iff, UInt32.le_iff_toNat_le]
      exact Nat.not_le_of_lt (Nat.lt_of_lt_of_eq h hn.symm)
    have hn : 128 ≤ c.toNat :=
      Nat.lt_of_not_le fun h => hc (Char.utf8Size_eq_one_iff.mpr (UInt32.le_iff_toNat_le.mpr h))
    have hv := c.valid
    simp only [UInt32.isValidChar, Nat.isValidChar] at hv
    simp only [Char.toNat, String.utf8EncodeChar] at hn ⊢
    generalize c.val.toNat = v at *
    rw [if_neg (by omega)]
    split
    case isTrue => exact ⟨_, _, rfl, (absurd · hc), (absurd · (hl (by omega) (by omega)))⟩
    case isFalse =>
      split <;> exact ⟨_, _, rfl, (absurd · hc), (absurd · (hl (by omega) (by omega)))⟩

theorem byteLength_eq (cs : List Char) : byteLength cs = String.utf8Len cs := by
  rw [← utf8ByteSize_ofList, String.utf8ByteSize_ofList]

theorem utf8ByteSize_eq (s : String) : s.utf8ByteSize = (Utf8.ofString s).length := by
  rw [← String.ofList_toList (s := s), utf8ByteSize_ofList, ← length_encode, String.ofList_toList]
  rfl

theorem lt_of_byte? {s : String} {i : Nat} {b : Char} (h : byte? s i = some b) :
    i < s.utf8ByteSize := by
  have ⟨_, hb, _⟩ := Option.map_eq_some_iff.mp h
  exact utf8ByteSize_eq s ▸ (List.getElem?_eq_some_iff.mp hb).1

end Encoding

end Bytewise

namespace Text.Cursor

variable {c : Cursor} {a : Char} {p : Char → Bool}

theorem skip_one (h : c.rest.head? = some a) (ha : a.utf8Size = 1) :
    c.skip 1 = ⟨c.offset + 1, c.rest.tail⟩ := by
  match hr : c.rest with
  | []     => simp [hr] at h
  | d :: _ =>
    have hd : d = a := by simpa [hr] using h
    simp [Cursor.skip, hr, byteLength, hd, ha]

theorem offset_skip_one (h : c.rest.head? = some a) (ha : a.utf8Size = 1) :
    (c.skip 1).offset = c.offset + 1 := by
  rw [skip_one h ha]

theorem skipRun_eq (c : Cursor) (hp : ∀ {c}, p c → c.utf8Size = 1) :
    c.skipRun p = ⟨c.offset + (c.run p).length, c.rest.dropWhile p⟩ := by
  have hr : c.rest = c.run p ++ c.rest.dropWhile p := List.takeWhile_append_dropWhile.symm
  have hl : byteLength (c.run p) = (c.run p).length :=
    byteLength_of_ascii fun _ hd => hp (List.mem_takeWhile_imp hd)
  rw [skipRun, skip_append hr, hl]

end Text.Cursor

-- A cursor at an offset of a text, with what stands there.
def Text.Cursor.In (c : Cursor) (s : String) : Prop :=
  ∃ before, s.toList = before ++ c.rest ∧ c.offset = byteLength before

namespace Text.Cursor.In

open Bytewise

variable {ε : Type} {c d : Cursor} {s : String} {a b : Char} {cs w : List Char} {p : Char → Bool}

theorem start (s : String) : (Cursor.start s.toList).In s :=
  ⟨[], rfl, rfl⟩

theorem start_ofList (cs : List Char) : (Cursor.start cs).In (.ofList cs) :=
  ⟨[], String.toList_ofList, rfl⟩

theorem finish (s : String) : Cursor.In ⟨s.utf8ByteSize, []⟩ s := by
  refine ⟨s.toList, s.toList.append_nil.symm, ?_⟩
  rw [← utf8ByteSize_ofList, String.ofList_toList]

theorem skip (h : c.In s) (n : Nat) : (c.skip n).In s := by
  have ⟨before, hs, ho⟩ := h
  refine ⟨before ++ c.rest.take n, ?_, ?_⟩
  · rw [hs, List.append_assoc, Cursor.skip, List.take_append_drop]
  · rw [byteLength_append, ← ho, Cursor.skip]

theorem utf8ByteSize_eq (h : c.In s) : s.utf8ByteSize = c.last := by
  have ⟨before, hs, ho⟩ := h
  rw [← String.ofList_toList (s := s), utf8ByteSize_ofList, hs, byteLength_append, ← ho,
    Cursor.last]

theorem drop_ofString (h : c.In s) : (Utf8.ofString s).drop c.offset = encode c.rest := by
  have ⟨before, hs, ho⟩ := h
  change (encode s.toList).drop c.offset = _
  rw [hs, encode_append, ho, ← length_encode, List.drop_left]

theorem isValid (h : c.In s) : (⟨c.offset⟩ : String.Pos.Raw).IsValid s := by
  have ⟨before, hs, ho⟩ := h
  refine String.Pos.Raw.isValid_iff_exists_append.mpr ⟨.ofList before, .ofList c.rest, ?_, ?_⟩
  · rw [← String.ofList_append, ← hs, String.ofList_toList]
  · rw [String.rawEndPos, utf8ByteSize_ofList, ho]

theorem of_isValid {i : Nat} (h : (⟨i⟩ : String.Pos.Raw).IsValid s) :
    ∃ cs, Cursor.In ⟨i, cs⟩ s := by
  have ⟨before, after, hs, ho⟩ := String.Pos.Raw.isValid_iff_exists_append.mp h
  refine ⟨after.toList, before.toList, by rw [hs, String.toList_append], ?_⟩
  rw [← utf8ByteSize_ofList, String.ofList_toList]
  exact congrArg String.Pos.Raw.byteIdx ho

-- Of two cursors in a text, the one with the lower offset passes over something.
theorem exists_between (h : c.In s) (h' : d.In s) (hl : c.offset ≤ d.offset) :
    ∃ w, c.rest = w ++ d.rest := by
  have ⟨before, hs, ho⟩ := h
  have ⟨before', hs', ho'⟩ := h'
  rcases List.append_eq_append_iff.mp (hs.symm.trans hs') with ⟨w, _, hr⟩ | ⟨w, hb, hr⟩
  · exact ⟨w, hr⟩
  · rw [ho, ho', hb, byteLength_append] at hl
    have hw : w = [] := String.utf8Len_eq_zero.mp (by rw [← byteLength_eq]; omega)
    exact ⟨[], by simp [hr, hw]⟩

theorem offset_eq (h : c.In s) (h' : d.In s) (hr : c.rest = w ++ d.rest) :
    d.offset = c.offset + byteLength w := by
  have hl := h.utf8ByteSize_eq.symm.trans h'.utf8ByteSize_eq
  rw [last, last, hr, byteLength_append] at hl
  omega

-- What is cut out is what stands between two cursors.
theorem cut (h : c.In s) (h' : d.In s) (hr : c.rest = w ++ d.rest) :
    cut s c.offset d.offset = (.ok (.ofList w) : Guarded ε String) := by
  have ⟨before, hs, ho⟩ := h
  have hd := h.offset_eq h' hr
  have he := String.extract_of_valid before w d.rest
  rw [List.append_assoc, ← hr, ← hs, String.ofList_toList, ← byteLength_eq, ← byteLength_eq, ← ho,
    ← hd] at he
  rw [Bytewise.cut, if_pos ⟨hd ▸ Nat.le_add_right .., h.isValid, h'.isValid⟩]
  exact congrArg _ he

theorem cut_last {i : Nat} (h : Cursor.In ⟨i, cs⟩ s) :
    Bytewise.cut s i s.utf8ByteSize = (.ok (.ofList cs) : Guarded ε String) :=
  h.cut (finish s) cs.append_nil.symm

theorem byte?_eq (h : c.In s) : byte? s c.offset = (encode c.rest).head?.map character := by
  rw [byte?, ← h.drop_ofString, List.head?_drop]

theorem byte?_of_nil (h : c.In s) (hr : c.rest = []) : byte? s c.offset = none := by
  rw [h.byte?_eq, hr]
  rfl

theorem byte?_of_cons (h : c.In s) (hr : c.rest = a :: cs) :
    ∃ b, byte? s c.offset = some b ∧ (a.utf8Size = 1 ∨ b.utf8Size = 1 → b = a) := by
  have ⟨b, _, hb, _, ha⟩ := exists_encode a
  refine ⟨character b, ?_, ha⟩
  rw [h.byte?_eq, hr, encode, List.flatMap_cons, hb]
  rfl

theorem rest_of_byte? (h : c.In s) (hb : byte? s c.offset = some b) :
    ∃ a cs, c.rest = a :: cs ∧ (a.utf8Size = 1 ∨ b.utf8Size = 1 → b = a) := by
  match hr : c.rest with
  | []      => cases hb.symm.trans (h.byte?_of_nil hr)
  | a :: cs =>
    have ⟨d, hd, ha⟩ := h.byte?_of_cons hr
    cases hb.symm.trans hd
    exact ⟨a, cs, rfl, ha⟩

theorem byte?_eq_some_iff (h : c.In s) (ha : a.utf8Size = 1) :
    byte? s c.offset = some a ↔ c.rest.head? = some a := by
  constructor
  · intro hb
    have ⟨d, cs, hr, hd⟩ := h.rest_of_byte? hb
    rw [hr, List.head?_cons, hd (.inr ha)]
  · intro hr
    have ⟨cs, hr⟩ := List.head?_eq_some_iff.mp hr
    have ⟨b, hb, hd⟩ := h.byte?_of_cons hr
    rw [hb, hd (.inl ha)]

theorem exists_cons_of_byte? (h : c.In s) (ha : a.utf8Size = 1) (hb : byte? s c.offset = some a) :
    ∃ cs, c.rest = a :: cs :=
  List.head?_eq_some_iff.mp ((h.byte?_eq_some_iff ha).mp hb)

theorem run_eq_nil_iff (h : c.In s) (hp : ∀ {c}, p c → c.utf8Size = 1)
    (hb : byte? s c.offset = some b) : c.run p = [] ↔ ¬p b := by
  have ⟨a, cs, hr, ha⟩ := h.rest_of_byte? hb
  have hpa : p a ↔ p b :=
    ⟨fun hpa => ha (.inl (hp hpa)) ▸ hpa, fun hpb => ha (.inr (hp hpb)) ▸ hpb⟩
  simp [run, hr, ← hpa]

theorem length_takeWhile_encode (hp : ∀ {c}, p c → c.utf8Size = 1) (cs : List Char) :
    ((encode cs).takeWhile (p <| character ·)).length = (cs.takeWhile p).length := by
  induction cs
  case nil => rfl
  case cons c cs ih =>
    have ⟨b, bs, hb, hs, hc⟩ := exists_encode c
    rw [encode, List.flatMap_cons, hb, List.cons_append]
    by_cases hpc : p c
    case pos =>
      have hcb := hc (.inl (hp hpc))
      rw [List.takeWhile_cons_of_pos (hcb ▸ hpc), List.takeWhile_cons_of_pos hpc, hs (hp hpc)]
      exact congrArg (· + 1) ih
    case neg =>
      have hn : ¬p (character b) := fun h => hpc (hc (.inr (hp h)) ▸ h)
      simp [hn, hpc]

theorem countFrom (h : c.In s) (hp : ∀ {c}, p c → c.utf8Size = 1) :
    countFrom s p c.offset = (.ok (c.run p).length : Guarded ε Nat) := by
  have hl : c.offset ≤ s.utf8ByteSize := by
    rw [h.utf8ByteSize_eq]
    exact Nat.le_add_right ..
  rw [Bytewise.countFrom, if_pos hl, h.drop_ofString, length_takeWhile_encode hp]
  rfl

theorem skipRun (h : c.In s) (hp : ∀ {c}, p c → c.utf8Size = 1) :
    Cursor.In ⟨c.offset + (c.run p).length, c.rest.dropWhile p⟩ s := by
  rw [← c.skipRun_eq hp]
  exact h.skip _

theorem cut_run (h : c.In s) (hp : ∀ {c}, p c → c.utf8Size = 1) :
    Bytewise.cut s c.offset (c.offset + (c.run p).length) =
      (.ok (.ofList (c.run p)) : Guarded ε String) :=
  h.cut (h.skipRun hp) List.takeWhile_append_dropWhile.symm

-- Two bytes tell which words of so many ASCII characters are ahead.
theorem isPrefix_iff (h : c.In s) (hb : byte? s c.offset = some b)
    (hn : w ≠ []) (hl : w.length ≤ 2) (hw : ∀ a ∈ w, a.utf8Size = 1) :
    w <+: b :: (byte? s (c.offset + 1)).toList ↔ w <+: c.rest := by
  have hx {x : Char} (hx : x.utf8Size = 1) : x = b ↔ c.rest.head? = some x := by
    rw [← h.byte?_eq_some_iff hx, hb, Option.some_inj, eq_comm]
  match w with
  | [x] =>
    rw [List.singleton_prefix_cons_iff, List.singleton_prefix_iff_head?_eq_some]
    exact hx (hw x (by simp))
  | [x, y] =>
    have hr : [x, y] <+: c.rest ↔ c.rest.head? = some x ∧ c.rest.tail.head? = some y := by
      cases c.rest
      case nil  => simp
      case cons =>
        rw [List.cons_prefix_cons, List.singleton_prefix_iff_head?_eq_some, List.head?_cons,
          Option.some_inj, List.tail_cons, eq_comm]
    have hx := hx (hw x (by simp))
    rw [List.cons_prefix_cons, List.singleton_prefix_iff_head?_eq_some, Option.head?_toList, hr, hx]
    refine and_congr_right fun hxr => ?_
    have hs := h.skip 1
    rw [Cursor.skip_one hxr (hw x (by simp))] at hs
    exact hs.byte?_eq_some_iff (hw y (by simp))

end Text.Cursor.In

theorem Bytewise.cut_eq_ok_iff {ε : Type} {s t : String} {first last : Nat} :
    cut s first last = (.ok t : Guarded ε String) ↔
      ∃ before after, s.toList = before ++ (t.toList ++ after) ∧ first = byteLength before ∧
        last = first + byteLength t.toList := by
  constructor
  · intro h
    rw [cut] at h
    split at h
    case isFalse => cases h
    case isTrue hv =>
      have ⟨cs, hc⟩ := Cursor.In.of_isValid hv.right.left
      have ⟨ds, hd⟩ := Cursor.In.of_isValid hv.right.right
      obtain ⟨w, rfl⟩ : ∃ w, cs = w ++ ds := hc.exists_between hd hv.left
      have hl := hc.offset_eq hd rfl
      have ht := hc.cut (ε := ε) hd rfl
      rw [cut, if_pos hv, h] at ht
      cases ht
      obtain ⟨before, hs, hf⟩ := hc
      exact ⟨before, ds, by simpa using hs, hf, by simpa using hl⟩
  · rintro ⟨before, after, hs, hf, hl⟩
    have hc : Cursor.In ⟨first, t.toList ++ after⟩ s := ⟨before, hs, hf⟩
    have hd : Cursor.In ⟨last, after⟩ s :=
      ⟨before ++ t.toList, by rw [hs, List.append_assoc], by rw [hl, hf, byteLength_append]⟩
    have ht := hc.cut (ε := ε) hd rfl
    rwa [String.ofList_toList] at ht

example : Bytewise.cut "ařb" 1 3 = (.ok "ř" : Bytewise.Guarded Unit String) := by decide
example : Bytewise.cut "ařb" 0 2 = (.error (.trap .cut) : Bytewise.Guarded Unit String) := by decide

end MessageCatalog
