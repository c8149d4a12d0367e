import MessageCatalog.Proofs.Template.Reading
import MessageCatalog.Template.Format

namespace MessageCatalog

open Text

-- Whether a piece takes the next argument.
def Piece.isUnnumbered : Piece → Bool
  | slot p => p.argument.isNone
  | _      => false

-- The argument of a placeholder behind some pieces, counted from 1.
def Placeholder.index (p : Placeholder) (before : List Piece) : Nat :=
  p.argument.getD (before.countP Piece.isUnnumbered + 1)

-- What a piece behind some others comes to.
def Piece.output (args : List Argument) (before : List Piece) : Piece → List Char
  | text c  => [c]
  | percent => ['%']
  | slot p  => args[p.index before - 1]?.elim [] p.render

namespace Template

inductive Spells : List Char → List Piece → Prop
  | nil : Spells [] []
  | text {c : Char} {cs : List Char} {ps : List Piece} (literal : c ≠ '%') (rest : Spells cs ps) :
      Spells (c :: cs) (.text c :: ps)
  | percent {cs : List Char} {ps : List Piece} (rest : Spells cs ps) :
      Spells ('%' :: '%' :: cs) (.percent :: ps)
  | slot {w cs : List Char} {p : Placeholder} {ps : List Piece} (slot : Placeholder.Spells w p)
      (rest : Spells cs ps) : Spells ('%' :: (w ++ cs)) (.slot p :: ps)

-- Neither an escape nor a placeholder, behind a percent sign.
structure Malformed (rest : List Char) : Prop where
  noEscape : rest.head? ≠ some '%'
  noSlot : ∀ w p, w <+: rest → ¬Placeholder.Spells w p

-- Each placeholder has its argument.
def Supplied (args : List Argument) (ps : List Piece) : Prop :=
  ∀ (i : Nat) (p : Placeholder), ps[i]? = some (.slot p) →
    1 ≤ p.index (ps.take i) ∧ p.index (ps.take i) ≤ args.length

def output (args : List Argument) (ps : List Piece) : List Char :=
  (ps.mapIdx fun i piece => piece.output args (ps.take i)).flatten

inductive Formats (args : List Argument) (template : List Char) : Except FormatError String → Prop
  | filled {ps : List Piece} (spells : Spells template ps) (supplied : Supplied args ps) :
      Formats args template (.ok (.ofList (output args ps)))
  | invalid {before rest : List Char} {ps : List Piece} {flaw : Flaw}
      (split : template = before ++ '%' :: rest) (spells : Spells before ps)
      (supplied : Supplied args ps) (malformed : Malformed rest)
      (flawed : Placeholder.Flawed rest flaw) :
      Formats args template (.error (.invalidPlaceholder (byteLength before) flaw))
  | missing {before w rest : List Char} {ps : List Piece} {p : Placeholder}
      (split : template = before ++ '%' :: (w ++ rest)) (spells : Spells before ps)
      (supplied : Supplied args ps) (slot : Placeholder.Spells w p)
      (absent : args.length < p.index ps) :
      Formats args template (.error (.missingArgument (p.index ps) args.length))

section Scanning

variable {offset : Nat} {cs rest w : List Char} {p : Placeholder} {c : Cursor} {flaw : Flaw}
  {ps : List Piece}

theorem scan_slot (h : Placeholder.read ⟨offset + 1, cs⟩ = .ok (p, c)) :
    scan offset ('%' :: cs) = (scan c.offset c.rest).push (.slot p) := by
  rw [scan]
  · split
    case h_1 flaw he => cases h.symm.trans he
    case h_2 he => cases h.symm.trans he; rfl
  · rintro rest rfl
    cases h

theorem scan_flaw (h : Placeholder.read ⟨offset + 1, cs⟩ = .error flaw)
    (hp : cs.head? ≠ some '%') :
    scan offset ('%' :: cs) = { pieces := [], fault := (offset, flaw) } := by
  rw [scan]
  · split
    case h_1 flaw he => cases h.symm.trans he; rfl
    case h_2 he => cases h.symm.trans he
  · rintro rest rfl
    exact hp rfl

theorem scan_of_spells (h : Spells cs ps) (offset : Nat) (rest : List Char) :
    scan offset (cs ++ rest) = ps.foldr push (scan (offset + byteLength cs) rest) := by
  have hw : '%'.utf8Size = 1 := rfl
  induction h generalizing offset
  case nil => rfl
  case text c cs ps hc _ ih =>
    have hs : scan offset (c :: (cs ++ rest)) =
        (scan (offset + c.utf8Size) (cs ++ rest)).push (.text c) := by
      rw [scan] <;> simp [hc]
    rw [List.cons_append, hs, ih, Nat.add_assoc]
    rfl
  case percent cs ps _ ih =>
    have hs : scan offset ('%' :: '%' :: (cs ++ rest)) =
        (scan (offset + 2) (cs ++ rest)).push .percent := by
      rw [scan]
    have ho : offset + 2 + byteLength cs = offset + byteLength ('%' :: '%' :: cs) := by
      simp only [byteLength, hw]
      omega
    rw [List.cons_append, List.cons_append, hs, ih, ho]
    rfl
  case slot w cs p ps slot _ ih =>
    have hr := Placeholder.read_of_spells slot (offset + 1) (cs ++ rest)
    have ho : offset + 1 + byteLength w + byteLength cs =
        offset + byteLength ('%' :: (w ++ cs)) := by
      simp only [byteLength, byteLength_append, hw]
      omega
    rw [List.cons_append, List.append_assoc, scan_slot hr, ih, ho]
    rfl

theorem pieces_foldr_push (ps : List Piece) (t : Template) :
    ps.foldr push t = { pieces := ps ++ t.pieces, fault := t.fault } := by
  induction ps
  case nil => rfl
  case cons piece ps ih => simp [ih, push]

end Scanning

section Dividing

variable {cs ds : List Char} {ps qs : List Piece}

theorem Spells.append (h : Spells cs ps) (h' : Spells ds qs) : Spells (cs ++ ds) (ps ++ qs) := by
  induction h
  case nil             => exact h'
  case text hc _ ih    => exact .text hc ih
  case percent ih      => exact .percent ih
  case slot slot _ ih  => simpa using Spells.slot slot ih

theorem Spells.divide (h : Spells cs (ps ++ qs)) :
    ∃ as bs, cs = as ++ bs ∧ Spells as ps ∧ Spells bs qs := by
  induction ps generalizing cs
  case nil => exact ⟨[], cs, rfl, .nil, h⟩
  case cons ih =>
    cases h
    case text hc rest =>
      have ⟨as, bs, hcs, ha, hb⟩ := ih rest
      exact ⟨_ :: as, bs, by rw [hcs, List.cons_append], .text hc ha, hb⟩
    case percent rest =>
      have ⟨as, bs, hcs, ha, hb⟩ := ih rest
      exact ⟨'%' :: '%' :: as, bs, by rw [hcs]; rfl, .percent ha, hb⟩
    case slot w _ _ slot rest =>
      have ⟨as, bs, hcs, ha, hb⟩ := ih rest
      exact ⟨'%' :: (w ++ as), bs, by simp [hcs], .slot slot ha, hb⟩

theorem malformed_of_flawed {rest : List Char} {flaw : Flaw} (h : Placeholder.Flawed rest flaw)
    (hp : rest.head? ≠ some '%') : Malformed rest := by
  refine ⟨hp, ?_⟩
  rintro w p ⟨tail, rfl⟩ hw
  cases (Placeholder.read_of_spells hw 0 tail).symm.trans (Placeholder.read_of_flawed h 0)

-- Either all of a text is read, or what is behind a percent sign is malformed.
inductive Divided (cs : List Char) : Prop
  | whole {ps : List Piece} (spells : Spells cs ps)
  | broken {before rest : List Char} {ps : List Piece} {flaw : Flaw}
      (split : cs = before ++ '%' :: rest) (spells : Spells before ps)
      (malformed : Malformed rest) (flawed : Placeholder.Flawed rest flaw)

theorem Divided.append (h : Divided ds) (hs : Spells cs ps) : Divided (cs ++ ds) := by
  cases h
  case whole spells => exact .whole (hs.append spells)
  case broken split spells malformed flawed =>
    exact .broken (by rw [split, List.append_assoc]) (hs.append spells) malformed flawed

theorem divided (cs : List Char) : Divided cs := by
  match cs with
  | [] => exact .whole .nil
  | c :: cs =>
    by_cases hc : c = '%'
    case neg => exact (divided cs).append (.text hc .nil)
    case pos =>
      subst hc
      by_cases hp : cs.head? = some '%'
      case pos =>
        obtain ⟨cs, rfl⟩ := List.head?_eq_some_iff.mp hp
        exact (divided cs).append (.percent .nil)
      case neg =>
        cases Placeholder.spells_or_flawed cs
        case inl h =>
          obtain ⟨w, p, rest, rfl, hw⟩ := h
          have hs : Spells ('%' :: (w ++ [])) [.slot p] := .slot hw .nil
          simpa using (divided rest).append hs
        case inr h =>
          have ⟨flaw, hf⟩ := h
          have split : '%' :: cs = [] ++ '%' :: cs := rfl
          exact .broken split .nil (malformed_of_flawed hf hp) hf
termination_by cs.length

end Dividing

section Filling

variable {args : List Argument} {ps : List Piece} {piece : Piece} {p : Placeholder}
  {cs : List Char}

-- Each piece is filled on its own, once the placeholders in front of it are counted.
theorem fill_append (args : List Argument) (next : Nat) (ps qs : List Piece) :
    fill args next (ps ++ qs) = do
      let cs ← fill args next ps
      let ds ← fill args (next + ps.countP Piece.isUnnumbered) qs
      return cs ++ ds := by
  induction ps generalizing next
  case nil => exact (bind_pure (fill args next qs)).symm
  case cons piece ps ih =>
    cases piece
    case text | percent => simp [fill, ih, Piece.isUnnumbered]
    case slot p =>
      have hn : (if p.argument = none then next + 1 else next) + ps.countP Piece.isUnnumbered =
          next + (Piece.slot p :: ps).countP Piece.isUnnumbered := by
        by_cases hp : p.argument = none <;> simp [hp, Piece.isUnnumbered]
        omega
      simp only [List.cons_append, fill, ih, hn]
      cases args[p.argument.getD next - 1]?
      case none => rfl
      case some => simp only [bind_assoc, pure_bind, List.append_assoc]

theorem fill_slot (args : List Argument) (ps : List Piece) (p : Placeholder) :
    fill args (1 + ps.countP Piece.isUnnumbered) [.slot p] =
      match args[p.index ps - 1]? with
      | some a => .ok (p.render a)
      | none   => .error (.missingArgument (p.index ps) args.length) := by
  have hi : p.argument.getD (1 + ps.countP Piece.isUnnumbered) = p.index ps := by
    rw [Placeholder.index, Nat.add_comm]
  simp only [fill, hi]
  cases args[p.index ps - 1]?
  case none => rfl
  case some => simp [bind, Except.bind, pure, Except.pure]

theorem supplied_concat :
    Supplied args (ps ++ [piece]) ↔
      Supplied args ps ∧ ∀ p, piece = .slot p → 1 ≤ p.index ps ∧ p.index ps ≤ args.length := by
  constructor
  · intro h
    refine ⟨fun i p hi => ?_, fun p hp => ?_⟩
    · have hl := (List.getElem?_eq_some_iff.mp hi).fst
      have hs := h i p (by rwa [List.getElem?_append_left hl])
      rwa [List.take_append_of_le_length (Nat.le_of_lt hl)] at hs
    · simpa using h ps.length p (by simp [hp])
  · intro ⟨h, hp⟩ i p hi
    by_cases hl : i < ps.length
    case pos =>
      rw [List.getElem?_append_left hl] at hi
      rw [List.take_append_of_le_length (Nat.le_of_lt hl)]
      exact h i p hi
    case neg =>
      have hl : i = ps.length := by
        have := (List.getElem?_eq_some_iff.mp hi).fst
        simp at this
        omega
      subst hl
      simpa using hp p (by simpa using hi)

theorem output_concat :
    output args (ps ++ [piece]) = output args ps ++ piece.output args ps := by
  have ht : (ps.mapIdx fun i piece' => piece'.output args ((ps ++ [piece]).take i)) =
      ps.mapIdx fun i piece' => piece'.output args (ps.take i) := by
    refine List.mapIdx_eq_mapIdx_iff.mpr fun i hi => ?_
    rw [List.take_append_of_le_length (Nat.le_of_lt hi)]
  simp [output, List.mapIdx_concat, ht]

theorem fill_of_supplied (h : Supplied args ps) : fill args 1 ps = .ok (output args ps) := by
  induction ps using List.reverseRecOn
  case nil => rfl
  case append_singleton ps piece ih =>
    have ⟨h, hp⟩ := supplied_concat.mp h
    rw [fill_append, ih h, output_concat]
    cases piece
    case text | percent => rfl
    case slot p =>
      have ⟨h₁, h₂⟩ := hp p rfl
      have ha : args[p.index ps - 1]? = some (args[p.index ps - 1]) :=
        List.getElem?_eq_getElem (by omega)
      simp only [fill_slot, ha, Piece.output]
      rfl

theorem fill_of_missing (h : Supplied args ps) (ha : args.length < p.index ps)
    (qs : List Piece) :
    fill args 1 (ps ++ .slot p :: qs) = .error (.missingArgument (p.index ps) args.length) := by
  have ha : args[p.index ps - 1]? = none := List.getElem?_eq_none (by omega)
  rw [List.append_cons, fill_append, fill_append, fill_of_supplied h]
  simp only [fill_slot, ha]
  rfl

-- Each placeholder has its argument, or there is a first one that has none.
theorem supplied_or_missing (args : List Argument) (ps : List Piece)
    (hp : ∀ p, .slot p ∈ ps → p.argument ≠ some 0) :
    Supplied args ps ∨ ∃ before p after, ps = before ++ .slot p :: after ∧
      Supplied args before ∧ args.length < p.index before := by
  induction ps using List.reverseRecOn
  case nil => exact .inl (by simp [Supplied])
  case append_singleton ps piece ih =>
    cases ih fun p hm => hp p (List.mem_append_left _ hm)
    case inr h =>
      obtain ⟨before, p, after, rfl, h⟩ := h
      exact .inr ⟨before, p, after ++ [piece], by simp, h⟩
    case inl h =>
      by_cases hm : ∃ p, piece = .slot p ∧ args.length < p.index ps
      case pos =>
        obtain ⟨p, rfl, hl⟩ := hm
        exact .inr ⟨ps, p, [], rfl, h, hl⟩
      case neg =>
        refine .inl (supplied_concat.mpr ⟨h, ?_⟩)
        rintro p rfl
        refine ⟨?_, Nat.le_of_not_lt fun hl => hm ⟨p, rfl, hl⟩⟩
        have hp := hp p (by simp)
        rw [Placeholder.index]
        cases ha : p.argument
        case none   => simp
        case some k => exact Nat.pos_of_ne_zero (by simpa [ha] using hp)

end Filling

theorem Spells.argument_ne {cs : List Char} {ps : List Piece} (h : Spells cs ps) {p : Placeholder}
    (hm : .slot p ∈ ps) : p.argument ≠ some 0 := by
  induction h
  case nil => cases hm
  case text ih | percent ih => simp at hm; exact ih hm
  case slot slot _ ih =>
    cases hm
    case tail hm => exact ih hm
    case head =>
      cases slot
      case intro numberText _ _ _ _ =>
        cases numberText
        case absent => simp
        case number positive _ => simp; omega

section Formats

variable {args : List Argument} {template : String} {x : Except FormatError String}

theorem ofString_of_spells {before rest : List Char} {ps : List Piece} (h : Spells before ps)
    (split : template.toList = before ++ rest) :
    ofString template =
      { pieces := ps ++ (scan (byteLength before) rest).pieces
        fault := (scan (byteLength before) rest).fault } := by
  rw [ofString, split, scan_of_spells h, pieces_foldr_push, Nat.zero_add]

-- A text is read in one way.
theorem Spells.unique {cs : List Char} {ps qs : List Piece} (h : Spells cs ps)
    (h' : Spells cs qs) : ps = qs := by
  rw [← String.toList_ofList (l := cs)] at h h'
  have hp := ofString_of_spells h (List.append_nil _).symm
  have hq := ofString_of_spells h' (List.append_nil _).symm
  simpa [scan] using hp.symm.trans hq

-- Formatting what is read is filling it.
theorem format_of_spells {ps : List Piece} (h : Spells template.toList ps)
    (args : List Argument) :
    MessageCatalog.format template args = (fill args 1 ps).map String.ofList := by
  have ht := ofString_of_spells h (List.append_nil _).symm
  simp only [MessageCatalog.format, Template.format, ht, scan, List.append_nil]
  cases fill args 1 ps <;> rfl

-- A template that is one placeholder shows the first argument.
theorem format_slot {w : List Char} {p : Placeholder} (h : Placeholder.Spells w p)
    (unnumbered : p.argument = none) (a : Argument) (args : List Argument) :
    MessageCatalog.format (.ofList ('%' :: w)) (a :: args) = .ok (.ofList (p.render a)) := by
  have hs : Spells (String.ofList ('%' :: w)).toList [.slot p] := by
    simpa using Spells.slot h .nil
  have hf := fill_slot (a :: args) [] p
  rw [Placeholder.index, unnumbered] at hf
  rw [format_of_spells hs, ← Nat.add_zero 1]
  exact congrArg (Except.map String.ofList) hf

theorem format_of_formats (h : Formats args template.toList x) :
    MessageCatalog.format template args = x := by
  cases h
  case filled ps spells supplied =>
    rw [format_of_spells spells, fill_of_supplied supplied]
    rfl
  case invalid before rest ps flaw split spells supplied malformed flawed =>
    have ht := ofString_of_spells spells split
    have hf := scan_flaw (Placeholder.read_of_flawed flawed (byteLength before + 1))
      malformed.noEscape
    simp only [MessageCatalog.format, Template.format, ht, hf, List.append_nil,
      fill_of_supplied supplied]
    rfl
  case missing before w rest ps p split spells supplied slot absent =>
    have ht := ofString_of_spells spells split
    have hs := scan_slot (Placeholder.read_of_spells slot (byteLength before + 1) rest)
    simp only [MessageCatalog.format, Template.format, ht, hs, push,
      fill_of_missing supplied absent]
    rfl

theorem exists_formats (args : List Argument) (template : List Char) :
    ∃ x, Formats args template x := by
  cases divided template
  case whole ps spells =>
    cases supplied_or_missing args ps fun _ hm => spells.argument_ne hm
    case inl h => exact ⟨_, .filled spells h⟩
    case inr h =>
      obtain ⟨before, p, after, rfl, h, hl⟩ := h
      obtain ⟨as, bs, rfl, ha, hb⟩ := spells.divide
      cases hb
      case slot w cs slot _ => exact ⟨_, .missing rfl ha h slot hl⟩
  case broken before rest ps flaw split spells malformed flawed =>
    cases supplied_or_missing args ps fun _ hm => spells.argument_ne hm
    case inl h => exact ⟨_, .invalid split spells h malformed flawed⟩
    case inr h =>
      obtain ⟨before, p, after, rfl, h, hl⟩ := h
      obtain ⟨as, bs, rfl, ha, hb⟩ := spells.divide
      cases hb
      case slot w cs slot _ =>
        have split : template = as ++ '%' :: (w ++ (cs ++ '%' :: rest)) := by simp [split]
        exact ⟨_, .missing split ha h slot hl⟩

end Formats

end Template

open Template in
theorem format_eq_iff (template : String) (args : List Argument) (x : Except FormatError String) :
    format template args = x ↔ Formats args template.toList x := by
  constructor
  · intro h
    have ⟨y, hy⟩ := exists_formats args template.toList
    rw [← h, format_of_formats hy]
    exact hy
  · exact format_of_formats

-- A placeholder with a number does not count for those without one.
example : format "%2$s %s %s" [.text "a", .text "b"] = .ok "b a b" := by
  cbv

end MessageCatalog
