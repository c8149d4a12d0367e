import MessageCatalog.Proofs.Text.Sequences

namespace MessageCatalog.Text.Utf8

open String (utf8EncodeChar)

-- A part of bytes where no character stands. It is as long as it can be, but takes a byte that
-- starts no character as well.
structure Broken (part rest : Bytes) : Prop where
  ne_nil  : part ≠ []
  starts  : part.length = 1 ∨ Starts part
  no_char : ∀ c, ¬utf8EncodeChar c <+: part ++ rest
  maximal : ∀ longer, longer <+: part ++ rest → part.length < longer.length → ¬Starts longer

-- The characters and the broken parts of bytes, where `none` stands for a broken part.
inductive Reads : Bytes → List (Option Char) → Prop
  | nil : Reads [] []
  | char {c : Char} {bs : Bytes} {cs : List (Option Char)} (rest : Reads bs cs) :
      Reads (utf8EncodeChar c ++ bs) (some c :: cs)
  | broken {part bs : Bytes} {cs : List (Option Char)} (broken : Broken part bs)
      (rest : Reads bs cs) : Reads (part ++ bs) (none :: cs)

section Breaking

variable {part rest : Bytes}

theorem scan_char (c : Char) : scan none (utf8EncodeChar c) = [some c] := by
  have h := scan_utf8EncodeChar c []
  rwa [List.append_nil] at h

-- No character is read from the start of bytes, and none from the part with the next byte.
theorem broken_of_scan (ne_nil : part ≠ []) (starts : part.length = 1 ∨ Starts part)
    (here : (scan none (part ++ rest)).head? = some none)
    (ahead : ∀ b tail, rest = b :: tail → ∀ bs,
      (scan none (part ++ b :: bs)).head? = some none) : Broken part rest where
  ne_nil  := ne_nil
  starts  := starts
  no_char := by
    rintro c ⟨bs, hc⟩
    rw [← hc, scan_utf8EncodeChar] at here
    cases here
  maximal := by
    rintro longer hl hn ⟨c, more, hc⟩
    obtain ⟨m, rfl⟩ := List.prefix_of_prefix_length_le (List.prefix_append ..) hl hn.le
    obtain ⟨tail, rfl⟩ := (List.prefix_append_right_inj part).mp hl
    cases m
    case nil => simp at hn
    case cons b m =>
      have hb := ahead b (m ++ tail) rfl (m ++ more)
      rw [← List.cons_append, ← List.append_assoc, hc, scan_char] at hb
      cases hb

theorem reads_scan (bs : Bytes) :
    Reads bs (scan none bs) ∧
      ∀ seen p, Begins seen p → Reads (seen ++ bs) (scan (some p) bs) := by
  induction bs
  case nil =>
    refine ⟨.nil, fun seen p h => ?_⟩
    have hs : scan none (seen ++ []) = [none] := by rw [h.scan_append]; rfl
    exact .broken (broken_of_scan h.ne_nil (.inr h.starts) (by rw [hs]; rfl) nofun) .nil
  case cons b bs ih =>
    have hn : Reads (b :: bs) (scan none (b :: bs)) := by
      by_cases hb : b < 0x80
      case pos =>
        have hc := utf8EncodeChar_one (UInt8.lt_iff_toNat_lt.mp hb)
        rw [UInt8.ofNat_toNat] at hc
        rw [scan_ascii hb, ← List.singleton_append, ← hc]
        exact .char ih.left
      case neg =>
        cases hl : lead? b
        case none =>
          have hs := scan_invalid hb hl
          rw [hs]
          have hb : Broken [b] bs :=
            broken_of_scan (List.cons_ne_nil b []) (.inl rfl) (by simp [hs]) (by simp [hs])
          exact .broken hb ih.left
        case some p =>
          rw [scan_lead hl]
          exact ih.right [b] p (.lead hl)
    refine ⟨hn, fun seen p h => ?_⟩
    by_cases hb : p.low ≤ b ∧ b ≤ p.high
    case pos =>
      rw [← h.scan_append, List.append_cons]
      cases hm : p.more
      case zero =>
        rw [← h.utf8EncodeChar_eq hb.left hb.right hm, scan_utf8EncodeChar]
        exact .char ih.left
      case succ =>
        have hm := h.more hb.left hb.right hm
        rw [hm.scan_append]
        exact ih.right _ _ hm
    case neg =>
      have ho (bs : Bytes) : scan none (seen ++ b :: bs) = none :: scan none (b :: bs) := by
        rw [h.scan_append, scan_outside hb]
      rw [scan_outside hb]
      refine .broken (broken_of_scan h.ne_nil (.inr h.starts) ?_ ?_) hn
      · rw [ho]
        rfl
      · rintro _ _ ⟨⟩ bs
        rw [ho]
        rfl

end Breaking

section Reading

variable {bs : Bytes} {cs cs' : List (Option Char)}

-- Two broken parts at one place are equal, since neither can be longer than the other one.
theorem Broken.part_eq {part part' rest rest' : Bytes} (h : Broken part rest)
    (h' : Broken part' rest') (he : part ++ rest = part' ++ rest') : part = part' := by
  have length_le {part part' rest rest' : Bytes} (h : Broken part rest) (h' : Broken part' rest')
      (he : part ++ rest = part' ++ rest') : part'.length ≤ part.length := by
    by_contra hn
    have hs := h.maximal part' (he ▸ List.prefix_append ..) (not_le.mp hn)
    have hl := h'.starts.resolve_right hs
    have hp := List.length_pos_iff.mpr h.ne_nil
    omega
  exact (List.append_inj he (le_antisymm (length_le h' h he.symm) (length_le h h' he))).left

theorem Reads.eq_nil (h : Reads [] cs) : cs = [] := by
  generalize hb : ([] : Bytes) = bytes at h
  cases h
  case nil        => rfl
  case char       =>
    exact absurd (List.append_eq_nil_iff.mp hb.symm).left String.utf8EncodeChar_ne_nil
  case broken h _ => exact absurd (List.append_eq_nil_iff.mp hb.symm).left h.ne_nil

theorem Reads.unique (h : Reads bs cs) (h' : Reads bs cs') : cs = cs' := by
  induction h generalizing cs'
  case nil => exact h'.eq_nil.symm
  case char c bs cs _ ih =>
    generalize hb : utf8EncodeChar c ++ bs = bytes at h'
    cases h'
    case nil => exact absurd (List.append_eq_nil_iff.mp hb).left String.utf8EncodeChar_ne_nil
    case char c' bs' _ h' =>
      have hs := congrArg (scan none) hb
      rw [scan_utf8EncodeChar, scan_utf8EncodeChar, List.cons.injEq, Option.some_inj] at hs
      obtain ⟨rfl, _⟩ := hs
      cases List.append_cancel_left hb
      rw [ih h']
    case broken h' _ => exact absurd ⟨bs, hb⟩ (h'.no_char c)
  case broken part bs cs h _ ih =>
    generalize hb : part ++ bs = bytes at h'
    cases h'
    case nil => exact absurd (List.append_eq_nil_iff.mp hb).left h.ne_nil
    case char c bs' _ _ => exact absurd ⟨bs', hb.symm⟩ (h.no_char c)
    case broken part' bs' _ h' hr =>
      cases h.part_eq h' hb
      cases List.append_cancel_left hb
      rw [ih hr]

-- Decoding is the only way to read bytes.
theorem reads_iff : Reads bs cs ↔ scan none bs = cs :=
  ⟨(reads_scan bs).left.unique, fun h => h ▸ (reads_scan bs).left⟩

theorem existsUnique_reads (bs : Bytes) : ∃! cs, Reads bs cs :=
  ⟨_, reads_iff.mpr rfl, fun _ h => (reads_iff.mp h).symm⟩

-- Each broken part is replaced by one character.
theorem decode_of_reads (h : Reads bs cs) :
    decode bs = String.ofList (cs.map (·.getD replacement)) :=
  reads_iff.mp h ▸ rfl

end Reading

-- Bytes of a text.
def IsValid (bytes : Bytes) : Prop :=
  ∃ s, ofString s = bytes

theorem Reads.isValid {bs : Bytes} {cs : List (Option Char)} (h : Reads bs cs)
    (hs : ∀ c ∈ cs, c.isSome) : IsValid bs := by
  induction h
  case nil => exact ⟨"", rfl⟩
  case char c _ _ _ ih =>
    obtain ⟨s, rfl⟩ := ih fun c hc => hs c (.tail _ hc)
    exact ⟨.ofList (c :: s.toList), by simp [ofString]⟩
  case broken => exact absurd (hs none (.head _)) Bool.false_ne_true

-- What is well formed is what was written for a text.
theorem isWellFormed_iff {bytes : Bytes} : isWellFormed bytes ↔ IsValid bytes := by
  constructor
  · exact fun h => (reads_scan bytes).left.isValid (List.all_eq_true.mp h)
  · rintro ⟨s, rfl⟩
    simp [isWellFormed, scan_ofString]

instance (bytes : Bytes) : Decidable (IsValid bytes) :=
  decidable_of_iff _ isWellFormed_iff

end MessageCatalog.Text.Utf8
