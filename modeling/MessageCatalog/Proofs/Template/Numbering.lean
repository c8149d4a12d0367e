import MessageCatalog.Proofs.Template.Escaping

namespace MessageCatalog

open Text

namespace Template

-- A text, and the same text with a number in each placeholder that had none. They are numbered from
-- `next` on.
inductive Numbered : Nat → List Char → List Char → Prop
  | nil {next : Nat} : Numbered next [] []
  | text {next : Nat} {c : Char} {cs ds : List Char} (literal : c ≠ '%')
      (rest : Numbered next cs ds) : Numbered next (c :: cs) (c :: ds)
  | percent {next : Nat} {cs ds : List Char} (rest : Numbered next cs ds) :
      Numbered next ('%' :: '%' :: cs) ('%' :: '%' :: ds)
  | kept {next : Nat} {w cs ds : List Char} {p : Placeholder} (slot : Placeholder.Spells w p)
      (numbered : p.argument ≠ none) (rest : Numbered next cs ds) :
      Numbered next ('%' :: (w ++ cs)) ('%' :: (w ++ ds))
  | inserted {next : Nat} {w cs ds : List Char} {p : Placeholder} (slot : Placeholder.Spells w p)
      (unnumbered : p.argument = none) (rest : Numbered (next + 1) cs ds) :
      Numbered next ('%' :: (w ++ cs)) ('%' :: (decimal next ++ '$' :: (w ++ ds)))

-- The pieces that a text with numbers is read as.
def number (next : Nat) : List Piece → List Piece
  | []             => []
  | .slot p :: ps  =>
    if p.argument = none then
      .slot { p with argument := some next } :: number (next + 1) ps
    else
      .slot p :: number next ps
  | piece :: ps    => piece :: number next ps

section Numbers

variable {next : Nat} {cs ds : List Char} {ps qs : List Piece}

-- With numbers, nothing is counted.
theorem fill_number (args : List Argument) (next next' : Nat) (ps : List Piece) :
    fill args next' (number next ps) = fill args next ps := by
  induction ps generalizing next
  case nil => rfl
  case cons piece ps ih =>
    cases piece
    case text | percent => simp only [number, fill, ih]
    case slot p =>
      by_cases hp : p.argument = none
      case neg =>
        obtain ⟨k, hk⟩ := Option.ne_none_iff_exists'.mp hp
        simp only [number, fill, hk, reduceCtorEq, if_false, Option.getD_some, ih]
      case pos =>
        simp only [number, fill, hp, reduceCtorEq, if_true, if_false, Option.getD_some,
          Option.getD_none, ih]
        rfl

theorem exists_numbered (h : Spells cs ps) (next : Nat) : ∃ ds, Numbered next cs ds := by
  induction h generalizing next
  case nil => exact ⟨[], .nil⟩
  case text literal _ ih =>
    have ⟨ds, hd⟩ := ih next
    exact ⟨_, .text literal hd⟩
  case percent ih =>
    have ⟨ds, hd⟩ := ih next
    exact ⟨_, .percent hd⟩
  case slot p _ slot _ ih =>
    by_cases hp : p.argument = none
    case pos =>
      have ⟨ds, hd⟩ := ih (next + 1)
      exact ⟨_, .inserted slot hp hd⟩
    case neg =>
      have ⟨ds, hd⟩ := ih next
      exact ⟨_, .kept slot hp hd⟩

-- The bound is that of the last number.
theorem Numbered.exists_spells (h : Numbered next cs ds) :
    ∃ ps, Spells cs ps ∧
      (1 ≤ next → next + ps.countP Piece.isUnnumbered ≤ 4097 → Spells ds (number next ps)) := by
  induction h
  case nil => exact ⟨[], .nil, fun _ _ => .nil⟩
  case text c _ _ literal _ ih =>
    obtain ⟨ps, hc, hd⟩ := ih
    exact ⟨.text c :: ps, .text literal hc, fun positive few => .text literal (hd positive few)⟩
  case percent ih =>
    obtain ⟨ps, hc, hd⟩ := ih
    exact ⟨.percent :: ps, .percent hc, fun positive few => .percent (hd positive few)⟩
  case kept p slot numbered _ ih =>
    obtain ⟨ps, hc, hd⟩ := ih
    refine ⟨.slot p :: ps, .slot slot hc, fun positive few => ?_⟩
    rw [number, if_neg numbered]
    exact .slot slot (hd positive (by simpa [Piece.isUnnumbered, numbered] using few))
  case inserted next w _ ds p slot unnumbered _ ih =>
    obtain ⟨ps, hc, hd⟩ := ih
    refine ⟨.slot p :: ps, .slot slot hc, fun positive few => ?_⟩
    have few : next + (ps.countP Piece.isUnnumbered + 1) ≤ 4097 := by
      simpa [Piece.isUnnumbered, unnumbered] using few
    have hs := Spells.slot (slot.withNumber unnumbered positive (by omega))
      (hd (by omega) (by omega))
    rw [number, if_pos unnumbered]
    simpa using hs

-- A template with no flaw can only lack arguments.
theorem format_cases {template : String} (h : Spells template.toList ps) (args : List Argument) :
    (∃ out, MessageCatalog.format template args = .ok out) ∨
      ∃ index, MessageCatalog.format template args =
        .error (.missingArgument index args.length) := by
  rw [format_of_spells h]
  cases supplied_or_missing args ps fun _ hm => h.argument_ne hm
  case inl supplied => exact .inl ⟨_, by rw [fill_of_supplied supplied]; rfl⟩
  case inr missing =>
    obtain ⟨before, p, after, rfl, supplied, absent⟩ := missing
    exact .inr ⟨_, by rw [fill_of_missing supplied absent]; rfl⟩

end Numbers

end Template

open Template

theorem format_numbered {template : String} {ps : List Piece}
    (spells : Spells template.toList ps) (few : ps.countP Piece.isUnnumbered ≤ 4096) :
    (∃ numbered, Numbered 1 template.toList numbered) ∧
      ∀ numbered, Numbered 1 template.toList numbered → ∀ args,
        format (.ofList numbered) args = format template args ∧
          ((∃ out, format template args = .ok out) ∨
            ∃ index, format template args = .error (.missingArgument index args.length)) := by
  refine ⟨exists_numbered spells 1, fun numbered h args => ⟨?_, format_cases spells args⟩⟩
  have ⟨qs, hq, hn⟩ := h.exists_spells
  cases spells.unique hq
  have hn : Spells (String.ofList numbered).toList (number 1 ps) := by
    rw [String.toList_ofList]
    exact hn (Nat.le_refl 1) (by omega)
  rw [format_of_spells hn, format_of_spells spells, fill_number]

-- A flag that is a digit, an escape, and a placeholder that has a number already.
theorem format_numbered_digits :
    ∃ ps, Spells "%05d%%%2$s%.1s".toList ps ∧ ps.countP Piece.isUnnumbered = 2 ∧
      Numbered 1 "%05d%%%2$s%.1s".toList "%1$05d%%%2$s%2$.1s".toList ∧
      ∀ args, format "%1$05d%%%2$s%2$.1s" args = format "%05d%%%2$s%.1s" args := by
  have hd := Placeholder.Spells.intro .absent [.zero]
    (.number ⟨by decide, by simp⟩ (by decide) (by decide) : Placeholder.WidthText ['5'] _)
    .absent .decimal
  have hs := Fragment.spells_numbered (k := 2) (by decide) (by decide)
  have hp := Placeholder.Spells.intro .absent [] .absent
    (.number (by simp) (by decide) : Placeholder.PrecisionText ['.', '1'] _) .text
  have spells : Spells "%05d%%%2$s%.1s".toList _ :=
    .slot hd (.percent (.slot hs (.slot hp .nil)))
  have numbered : Numbered 1 "%05d%%%2$s%.1s".toList "%1$05d%%%2$s%2$.1s".toList :=
    .inserted hd rfl (.percent (.kept hs nofun (.inserted hp rfl .nil)))
  refine ⟨_, spells, rfl, numbered, fun args => ?_⟩
  have h := (format_numbered spells (by decide)).right _ numbered args
  rw [String.ofList_toList] at h
  exact h.left

end MessageCatalog
