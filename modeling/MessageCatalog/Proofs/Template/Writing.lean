import MessageCatalog.Proofs.Bytewise.Template
import MessageCatalog.Proofs.Template.Padding

namespace MessageCatalog

open Text

-- Flags say what they come to. All of them may be repeated, and the last pad is a quoted one.
structure Flags.WrittenAs (f : Flags) (fs : List Flag) : Prop where
  left : .left ∈ fs ↔ f.left
  plus : .plus ∈ fs ↔ f.plus
  pad  : ∃ before after, fs = before ++ .quoted f.pad :: after ∧ ∀ g ∈ after, g.pad? = none

namespace Flags

variable {f : Flags} {fs : List Flag}

theorem plus_ofList (fs : List Flag) : (ofList fs).plus ↔ .plus ∈ fs := by
  induction fs using List.reverseRecOn
  case nil => simp [ofList]
  case append_singleton fs f ih => cases f <;> simp [ofList_concat, Flag.set, ih]

-- What is behind the quoted pad gives none.
theorem WrittenAs.lastPad_eq (h : f.WrittenAs fs) : Flag.lastPad fs = f.pad := by
  obtain ⟨before, after, hfs, ha⟩ := h.pad
  have hq : (Flag.quoted f.pad :: after).filterMap Flag.pad? = [f.pad] := by
    rw [List.filterMap_cons, List.filterMap_eq_nil_iff.mpr ha]
    rfl
  rw [hfs, Flag.lastPad, List.filterMap_append, hq, List.getLast?_concat]
  rfl

theorem WrittenAs.ofList_eq (h : f.WrittenAs fs) : ofList fs = f := by
  have hl : (ofList fs).left = f.left := Bool.eq_iff_iff.mpr ((left_ofList fs).trans h.left)
  have hp : (ofList fs).plus = f.plus := Bool.eq_iff_iff.mpr ((plus_ofList fs).trans h.plus)
  have hc : (ofList fs).pad = f.pad := (pad_ofList fs).trans h.lastPad_eq
  generalize ofList fs = g at hl hp hc
  cases g
  cases f
  cases hl
  cases hp
  cases hc
  rfl

end Flags

namespace Placeholder

-- The numbers that a placeholder can hold.
structure InRange (p : Placeholder) : Prop where
  argument  : ∀ k ∈ p.argument, 1 ≤ k ∧ k ≤ 4096
  width     : p.width ≤ 4096
  precision : ∀ k ∈ p.precision, k ≤ 4096

def writtenArgument : Option Nat → List Char
  | none   => []
  | some k => decimal k ++ ['$']

def writtenWidth (n : Nat) : List Char :=
  if n = 0 then [] else decimal n

def writtenPrecision : Option Nat → List Char
  | none   => []
  | some k => '.' :: decimal k

-- What is written behind the percent sign.
def written (p : Placeholder) (fs : List Flag) : List Char :=
  writtenArgument p.argument ++ (Flag.texts fs ++
    (writtenWidth p.width ++ (writtenPrecision p.precision ++ [p.conversion.letter])))

variable {p : Placeholder} {fs : List Flag} {n : Nat} {k? : Option Nat}

theorem argumentText_written (h : ∀ k ∈ k?, 1 ≤ k ∧ k ≤ 4096) :
    ArgumentText (writtenArgument k?) k? := by
  cases k?
  case none   => exact .absent
  case some k =>
    obtain ⟨positive, small⟩ := h k rfl
    have ht := ArgumentText.number (isNumeral_decimal k) (by simpa) (by simpa)
    rwa [decimalValue_decimal] at ht

-- A zero in front is a flag, and no width starts with one.
theorem head?_decimal (h : n ≠ 0) : (decimal n).head? ≠ some '0' := by
  induction n using Nat.base_induction 10 (by decide)
  case single n hn =>
    have table : ∀ n < 10, n ≠ 0 → Nat.digitChar n ≠ '0' := by decide
    rw [decimal, Nat.toDigits_of_lt_base hn]
    exact fun he => table n hn h (Option.some.inj he)
  case digit n d hd hn ih =>
    rw [decimal, ← Nat.toDigits_append_toDigits (by decide) hn hd,
      List.head?_append_of_ne_nil _ Nat.toDigits_ne_nil]
    exact ih (Nat.ne_of_gt hn)

theorem widthText_written (h : n ≤ 4096) : WidthText (writtenWidth n) n := by
  by_cases hn : n = 0
  case pos =>
    rw [hn]
    exact .absent
  case neg =>
    have ht := WidthText.number (isNumeral_decimal n) (head?_decimal hn) (by simpa)
    rw [decimalValue_decimal] at ht
    rwa [writtenWidth, if_neg hn]

theorem precisionText_written (h : ∀ k ∈ k?, k ≤ 4096) :
    PrecisionText (writtenPrecision k?) k? := by
  cases k?
  case none   => exact .absent
  case some k =>
    have ht := PrecisionText.number (isNumeral_decimal k).digits (by simpa using h k rfl)
    rwa [decimalValue_decimal] at ht

theorem spells_written (h : p.InRange) (hf : p.flags.WrittenAs fs) : Spells (p.written fs) p := by
  have hs := Spells.intro (argumentText_written h.argument) fs (widthText_written h.width)
    (precisionText_written h.precision) p.conversion
  rwa [hf.ofList_eq] at hs

theorem read_written (h : p.InRange) (hf : p.flags.WrittenAs fs) (before after : List Char) :
    let first := byteLength before
    let last := byteLength (before ++ '%' :: p.written fs)
    read ⟨first + 1, p.written fs ++ after⟩ = .ok (p, ⟨last, after⟩) ∧
      Bytewise.read (.ofList (before ++ '%' :: (p.written fs ++ after))) first = .ok (p, last) := by
  intro first last
  have hl : first + 1 + byteLength (p.written fs) = last := by
    simp only [first, last, byteLength_append, byteLength, Nat.add_assoc]
    rfl
  have hr := read_of_spells (spells_written h hf) (first + 1) after
  rw [hl] at hr
  have hs : Cursor.In ⟨first + 1, p.written fs ++ after⟩
      (.ofList (before ++ '%' :: (p.written fs ++ after))) := by
    refine ⟨before ++ ['%'], by simp, ?_⟩
    simp only [first, byteLength_append]
    rfl
  have hb := Bytewise.follows_read hs
  rw [hr] at hb
  refine ⟨hr, ?_⟩
  generalize Bytewise.read _ first = x at hb
  cases hb
  rfl

-- A flag that is a digit, a pad that is one, and pads of several bytes and of a percent sign, which
-- are not the last ones.
theorem read_written_digits :
    let p : Placeholder := ⟨some 12, ⟨true, true, '5'⟩, 30, some 0, .fixed true⟩
    let fs : List Flag := [.zero, .left, .quoted 'ř', .plus, .quoted '%', .left, .quoted '5']
    p.InRange ∧ p.flags.WrittenAs fs ∧
      Bytewise.read "ř%12$0-'ř+'%-'530.0F!" 2 = .ok (p, 22) := by
  intro p fs
  have h : p.InRange := ⟨by simp [p], by decide, by simp [p]⟩
  have hf : p.flags.WrittenAs fs := ⟨by decide, by decide, fs.dropLast, [], rfl, nofun⟩
  have hw : p.written fs = "12$0-'ř+'%-'530.0F".toList := by cbv
  have hr := (read_written h hf ['ř'] ['!']).right
  rw [hw] at hr
  exact ⟨h, hf, hr⟩

end Placeholder

end MessageCatalog
