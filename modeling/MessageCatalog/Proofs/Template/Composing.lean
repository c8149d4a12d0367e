import MessageCatalog.Proofs.Template.Arguments

namespace MessageCatalog

open Text

-- The same error, `bytes` further on and behind `count` arguments.
def FormatError.moved (bytes count : Nat) : FormatError → FormatError
  | missingArgument index supplied   => .missingArgument (index + count) (supplied + count)
  | invalidPlaceholder position flaw => .invalidPlaceholder (position + bytes) flaw

namespace Template

-- None of the placeholders has a number. What is behind a malformed one is not looked at.
def Unnumbered (template : List Char) : Prop :=
  ∀ (before w rest : List Char) (ps : List Piece) (p : Placeholder),
    template = before ++ '%' :: (w ++ rest) → Spells before ps → Placeholder.Spells w p →
      p.argument = none

section Scanning

variable {cs : List Char}

-- Where a text starts decides only where its fault is.
theorem scan_moved (offset : Nat) (cs : List Char) :
    scan offset cs =
      { pieces := (scan 0 cs).pieces
        fault := (scan 0 cs).fault.map fun (position, flaw) => (position + offset, flaw) } := by
  cases divided cs
  case whole ps spells =>
    have hs (offset : Nat) := scan_of_spells spells offset []
    simp only [List.append_nil, pieces_foldr_push] at hs
    rw [hs, hs 0]
    simp [scan]
  case broken before rest ps flaw split spells malformed flawed =>
    have hf (offset : Nat) := scan_flaw (Placeholder.read_of_flawed flawed (offset + 1))
      malformed.noEscape
    have hs (offset : Nat) := scan_of_spells spells offset ('%' :: rest)
    simp only [pieces_foldr_push, hf, List.append_nil, ← split] at hs
    rw [hs, hs 0, Option.map_some, Nat.zero_add, Nat.add_comm]

theorem unnumbered_iff (cs : List Char) :
    Unnumbered cs ↔ ∀ p, .slot p ∈ (scan 0 cs).pieces → p.argument = none := by
  constructor
  · intro h p hm
    have ⟨before, rest, hcs, hs⟩ := exists_spells cs
    have ⟨ps, qs, he⟩ := List.append_of_mem hm
    obtain ⟨as, bs, rfl, ha, hb⟩ := (he ▸ hs).divide
    cases hb
    case slot w ds slot _ =>
      have split : cs = as ++ '%' :: (w ++ (ds ++ rest)) := by simp [hcs]
      exact h as w _ ps p split ha slot
  · rintro h before w rest ps p rfl spells slot
    apply h
    rw [scan_of_spells spells, scan_slot (Placeholder.read_of_spells slot ..), pieces_foldr_push]
    simp [push]

end Scanning

section Filling

variable {args : List Argument} {ps : List Piece} {count next : Nat}

-- Arguments that are not shown can be left out, if those that remain are counted anew.
theorem fill_drop (hc : count ≤ args.length) (positive : 1 ≤ next)
    (hp : ∀ p, .slot p ∈ ps → p.argument = none) (bytes : Nat) :
    fill args (next + count) ps =
      (fill (args.drop count) next ps).mapError (FormatError.moved bytes count) := by
  induction ps generalizing next
  case nil => rfl
  case cons piece ps ih =>
    have ih {next : Nat} (positive : 1 ≤ next) := ih positive fun p hm => hp p (.tail _ hm)
    cases piece
    case text | percent =>
      simp only [fill, ih positive]
      cases fill (args.drop count) next ps <;> rfl
    case slot p =>
      have hi : (args.drop count)[next - 1]? = args[next + count - 1]? := by
        rw [List.getElem?_drop]
        congr 1
        omega
      have hl : (args.drop count).length + count = args.length := by
        rw [List.length_drop]
        omega
      simp only [fill, hp p (.head _), Option.getD_none, if_true, hi, Nat.add_right_comm next count,
        ih (Nat.le_succ_of_le positive)]
      cases args[next + count - 1]?
      case none =>
        simp only [throw, throwThe, MonadExceptOf.throw, Except.mapError, FormatError.moved, hl]
      case some => cases fill (args.drop count) (next + 1) ps <;> rfl

-- Each placeholder without a number takes an argument of its own.
theorem Supplied.countP_le (h : Supplied args ps) : ps.countP Piece.isUnnumbered ≤ args.length := by
  induction ps using List.reverseRecOn
  case nil => exact Nat.zero_le _
  case append_singleton ps piece ih =>
    have ⟨h, hp⟩ := supplied_concat.mp h
    rw [List.countP_append, List.countP_singleton]
    split
    case isFalse => exact ih h
    case isTrue hu =>
      cases piece
      case text | percent => cases hu
      case slot p =>
        have hl := (hp p rfl).right
        rwa [Placeholder.index, Option.isNone_iff_eq_none.mp hu] at hl

end Filling

section Formatting

variable {args : List Argument}

theorem spells_of_format {template out : String}
    (h : MessageCatalog.format template args = .ok out) :
    ∃ ps, Spells template.toList ps ∧ Supplied args ps ∧ fill args 1 ps = .ok out.toList := by
  have ⟨x, hx⟩ := exists_formats args template.toList
  cases (format_of_formats hx).symm.trans h
  cases hx
  case filled ps spells supplied =>
    exact ⟨ps, spells, supplied, by rw [fill_of_supplied supplied, String.toList_ofList]⟩

theorem byte_of_split (before rest : String) :
    (before ++ "%" ++ rest).toByteArray.data[before.utf8ByteSize]? = some '%'.toUInt8 := by
  have hs : before.toByteArray.data.size = before.utf8ByteSize := String.size_toByteArray
  rw [String.append_assoc, String.toByteArray_append, ByteArray.data_append,
    Array.getElem?_append_right hs.le, hs, Nat.sub_self, String.toByteArray_append,
    ByteArray.data_append, Array.getElem?_append_left (by decide)]
  rfl

theorem format_before {template : String} {position : Nat} {flaw : Flaw}
    (h : MessageCatalog.format template args = .error (.invalidPlaceholder position flaw)) :
    ∃ before rest : String, template = before ++ "%" ++ rest ∧ before.utf8ByteSize = position ∧
      ∃ out, MessageCatalog.format before args = .ok out := by
  have ⟨x, hx⟩ := exists_formats args template.toList
  cases (format_of_formats hx).symm.trans h
  cases hx
  case invalid before rest ps split spells supplied _ _ =>
    refine ⟨.ofList before, .ofList rest, ?_, utf8ByteSize_ofList before, ?_⟩
    · apply String.toList_injective
      simp [split]
    · rw [← @String.toList_ofList before] at spells
      exact ⟨_, by rw [format_of_spells spells, fill_of_supplied supplied]; rfl⟩

theorem format_behind {a b out : String} {ps : List Piece} (hs : Spells a.toList ps)
    (hc : ps.countP Piece.isUnnumbered ≤ args.length) (hf : fill args 1 ps = .ok out.toList)
    (hu : Unnumbered b.toList) :
    MessageCatalog.format (a ++ b) args =
      ((MessageCatalog.format b (args.drop (ps.countP Piece.isUnnumbered))).map (out ++ ·)).mapError
        (FormatError.moved a.utf8ByteSize (ps.countP Piece.isUnnumbered)) := by
  have ht := ofString_of_spells hs (String.toList_append (s := a) (t := b))
  have hd := fill_drop hc (Nat.le_refl 1) ((unnumbered_iff _).mp hu) a.utf8ByteSize
  have hb : byteLength a.toList = a.utf8ByteSize := by
    rw [← utf8ByteSize_ofList, String.ofList_toList]
  rw [format_eq b, MessageCatalog.format, Template.format, ht, scan_moved, fill_append, hf,
    Outcome.ok_bind, hd, hb]
  cases fill (args.drop (ps.countP Piece.isUnnumbered)) 1 (scan 0 b.toList).pieces
  case error => rfl
  case ok cs =>
    cases (scan 0 b.toList).fault
    case none   =>
      change Except.ok (String.ofList (out.toList ++ cs)) = Except.ok (out ++ String.ofList cs)
      rw [String.ofList_append, String.ofList_toList]
    case some => rfl

end Formatting

end Template

open Template

theorem format_append (args : List Argument) :
    (∀ (template : String) (position : Nat) (flaw : Flaw),
      format template args = .error (.invalidPlaceholder position flaw) →
        template.toByteArray.data[position]? = some '%'.toUInt8 ∧
        ∃ before rest : String, template = before ++ "%" ++ rest ∧
          before.utf8ByteSize = position ∧ ∃ out, format before args = .ok out) ∧
    ∀ a out : String, format a args = .ok out →
      ∃ ps, Spells a.toList ps ∧
        let count := ps.countP Piece.isUnnumbered
        count ≤ args.length ∧
        ∀ b : String, Unnumbered b.toList →
          format (a ++ b) args = ((format b (args.drop count)).map (out ++ ·)).mapError
            (FormatError.moved a.utf8ByteSize count) := by
  constructor
  · intro template position flaw h
    have ⟨before, rest, split, hp, hout⟩ := format_before h
    have hb := byte_of_split before rest
    rw [← split, hp] at hb
    exact ⟨hb, before, rest, split, hp, hout⟩
  · intro a out h
    have ⟨ps, hs, supplied, hf⟩ := spells_of_format h
    exact ⟨ps, hs, supplied.countP_le, fun b hu => format_behind hs supplied.countP_le hf hu⟩

-- Offsets count bytes, and the third argument is the second one of those that are left.
theorem format_append_accent :
    (∃ before rest : String, "é%d%y" = before ++ "%" ++ rest ∧ before.utf8ByteSize = 4 ∧
      ∃ out, format before [.int 5] = .ok out) ∧
    format "é%d" [.int 5, .text "x"] = .ok "é5" ∧ Unnumbered "%s %s".toList ∧
    format ("é%d" ++ "%s %s") [.int 5, .text "x"] = .error (.missingArgument 3 2) := by
  have hi : format "é%d%y" [.int 5] = .error (.invalidPlaceholder 4 .unknownConversion) := by cbv
  have ha : format "é%d" [.int 5, .text "x"] = .ok "é5" := by cbv
  have hm : format "%s %s" [.text "x"] = .error (.missingArgument 2 1) := by cbv
  have hu : Unnumbered "%s %s".toList := by
    have hs : (scan 0 "%s %s".toList).pieces =
        [.slot ⟨none, {}, 0, none, .text⟩, .text ' ', .slot ⟨none, {}, 0, none, .text⟩] := by cbv
    rw [unnumbered_iff, hs]
    simp
  obtain ⟨ps, hs, _, hf⟩ := (format_append [.int 5, .text "x"]).right _ _ ha
  have hc : ps.countP Piece.isUnnumbered = 1 := by
    have hp : (scan 0 "é%d".toList).pieces =
        [.text 'é', .slot ⟨none, {}, 0, none, .decimal⟩] := by cbv
    rw [← hs.pieces_scan, hp]
    rfl
  have hf := hf _ hu
  rw [hc, List.drop_succ_cons, List.drop_zero, hm] at hf
  exact ⟨((format_append _).left _ _ _ hi).right, ha, hu, hf⟩

end MessageCatalog
