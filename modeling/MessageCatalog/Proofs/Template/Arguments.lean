import Mathlib.Order.Bounds.Basic
import MessageCatalog.Proofs.Template.Formatting

namespace MessageCatalog

namespace Template

-- A placeholder shows an argument, counted from 1. What is behind the placeholder may be malformed.
inductive Refers (template : List Char) : Nat → Prop
  | intro {before w rest : List Char} {ps : List Piece} {p : Placeholder}
      (split : template = before ++ '%' :: (w ++ rest)) (spells : Spells before ps)
      (slot : Placeholder.Spells w p) : Refers template (p.index ps)

-- The first argument to be shown that is beyond those supplied.
inductive FirstBeyond (template : List Char) (supplied : Nat) : Nat → Prop
  | intro {before w rest : List Char} {ps : List Piece} {p : Placeholder}
      (split : template = before ++ '%' :: (w ++ rest)) (spells : Spells before ps)
      (slot : Placeholder.Spells w p) (within : ∀ k, Refers before k → k ≤ supplied)
      (beyond : supplied < p.index ps) : FirstBeyond template supplied (p.index ps)

-- One of the pieces is a placeholder that shows an argument.
def Shows (ps : List Piece) (k : Nat) : Prop :=
  ∃ (i : Nat) (p : Placeholder), ps[i]? = some (.slot p) ∧ p.index (ps.take i) = k

section Pieces

variable {args args' : List Argument} {ps : List Piece} {piece : Piece} {k : Nat}

theorem shows_iff :
    Shows ps k ↔ ∃ before p after, ps = before ++ .slot p :: after ∧ p.index before = k := by
  constructor
  · intro ⟨i, p, hi, hk⟩
    have ⟨hl, hp⟩ := List.getElem?_eq_some_iff.mp hi
    refine ⟨ps.take i, p, ps.drop (i + 1), ?_, hk⟩
    rw [← hp, ← List.drop_eq_getElem_cons hl, List.take_append_drop]
  · rintro ⟨before, p, after, rfl, hk⟩
    exact ⟨before.length, p, by simp, by simpa using hk⟩

theorem shows_concat :
    Shows (ps ++ [piece]) k ↔ (∃ p, piece = .slot p ∧ p.index ps = k) ∨ Shows ps k := by
  simp only [shows_iff]
  constructor
  · rintro ⟨before, p, after, he, hk⟩
    cases after using List.reverseRecOn
    case nil =>
      obtain ⟨rfl, hp⟩ := List.append_inj' he rfl
      cases hp
      exact .inl ⟨p, rfl, hk⟩
    case append_singleton after last _ =>
      rw [← List.cons_append, ← List.append_assoc] at he
      obtain ⟨rfl, -⟩ := List.append_inj' he rfl
      exact .inr ⟨before, p, after, rfl, hk⟩
  · rintro (⟨p, rfl, hk⟩ | ⟨before, p, after, rfl, hk⟩)
    · exact ⟨ps, p, [], rfl, hk⟩
    · exact ⟨before, p, after ++ [piece], by simp, hk⟩

theorem exists_greatest (ps : List Piece) :
    ∃ needed, IsGreatest {k | k = 0 ∨ Shows ps k} needed := by
  induction ps using List.reverseRecOn
  case nil => exact ⟨0, .inl rfl, fun k hk => by simp_all [Shows]⟩
  case append_singleton ps piece ih =>
    have ⟨needed, h⟩ := ih
    cases piece
    case text | percent => exact ⟨needed, by simpa [shows_concat] using h⟩
    case slot p =>
      refine ⟨max (p.index ps) needed, ?_⟩
      have hs : {k | k = 0 ∨ Shows (ps ++ [.slot p]) k} =
          insert (p.index ps) {k | k = 0 ∨ Shows ps k} := by
        ext k
        simp [shows_concat, or_left_comm, eq_comm]
      exact hs ▸ h.insert (p.index ps)

-- Arguments are counted from 1, and so each placeholder can be given one.
theorem supplied_iff (hp : ∀ p, .slot p ∈ ps → p.argument ≠ some 0) :
    Supplied args ps ↔ ∀ k, Shows ps k → k ≤ args.length := by
  constructor
  · rintro h _ ⟨i, p, hi, rfl⟩
    exact (h i p hi).right
  · refine fun h i p hi => ⟨?_, h _ ⟨i, p, hi, rfl⟩⟩
    have hp := hp p (List.mem_of_getElem? hi)
    rw [Placeholder.index]
    cases ha : p.argument
    case none   => simp
    case some k => exact Nat.pos_of_ne_zero (by simpa [ha] using hp)

theorem Supplied.mono (h : Supplied args ps) (hl : args.length ≤ args'.length) :
    Supplied args' ps :=
  fun i p hi => ⟨(h i p hi).left, (h i p hi).right.trans hl⟩

theorem output_congr (h : ∀ k, Shows ps k → args[k - 1]? = args'[k - 1]?) :
    output args ps = output args' ps := by
  refine congrArg List.flatten (List.mapIdx_eq_mapIdx_iff.mpr fun i hi => ?_)
  cases hp : ps[i]
  case text | percent => rfl
  case slot p =>
    have hs : ps[i]? = some (.slot p) := hp ▸ List.getElem?_eq_getElem hi
    rw [Piece.output, Piece.output, h _ ⟨i, p, hs, rfl⟩]

theorem fill_congr (hl : args.length = args'.length)
    (h : ∀ k, Shows ps k → args[k - 1]? = args'[k - 1]?)
    (hp : ∀ p, .slot p ∈ ps → p.argument ≠ some 0) : fill args 1 ps = fill args' 1 ps := by
  cases supplied_or_missing args ps hp
  case inl hs => rw [fill_of_supplied hs, fill_of_supplied (hs.mono hl.le), output_congr h]
  case inr hm =>
    obtain ⟨before, p, after, rfl, hs, ha⟩ := hm
    rw [fill_of_missing hs ha, fill_of_missing (hs.mono hl.le) (hl ▸ ha), hl]

theorem fill_append_arguments (more : List Argument) (hs : Supplied args ps) :
    fill (args ++ more) 1 ps = fill args 1 ps := by
  have hl : args.length ≤ (args ++ more).length := by simp
  rw [fill_of_supplied hs, fill_of_supplied (hs.mono hl), output_congr]
  rintro _ ⟨i, p, hi, rfl⟩
  have ⟨h₁, h₂⟩ := hs i p hi
  exact List.getElem?_append_left (by omega)

end Pieces

section Templates

variable {template : String} {cs : List Char} {ps : List Piece} {k : Nat}

-- The pieces in front of what is malformed.
theorem exists_spells (cs : List Char) :
    ∃ before rest, cs = before ++ rest ∧ Spells before (scan 0 cs).pieces := by
  cases divided cs
  case whole ps spells =>
    have hs := scan_of_spells spells 0 []
    rw [List.append_nil, pieces_foldr_push] at hs
    exact ⟨cs, [], by simp, by simpa [hs, scan] using spells⟩
  case broken before rest ps flaw split spells malformed flawed =>
    have hf := scan_flaw (Placeholder.read_of_flawed flawed (0 + Text.byteLength before + 1))
      malformed.noEscape
    have hs := scan_of_spells spells 0 ('%' :: rest)
    rw [hf, pieces_foldr_push, List.append_nil, ← split] at hs
    exact ⟨before, '%' :: rest, split, by rwa [hs]⟩

theorem refers_iff (cs : List Char) (k : Nat) : Refers cs k ↔ Shows (scan 0 cs).pieces k := by
  constructor
  · rintro ⟨rfl, spells, slot⟩
    rw [scan_of_spells spells, scan_slot (Placeholder.read_of_spells slot ..), pieces_foldr_push]
    exact shows_iff.mpr ⟨_, _, _, rfl, rfl⟩
  · intro h
    have ⟨before, rest, hcs, hs⟩ := exists_spells cs
    have ⟨ps, p, qs, he, hk⟩ := shows_iff.mp h
    obtain ⟨as, bs, rfl, ha, hb⟩ := (he ▸ hs).divide
    cases hb
    case slot w ds slot _ =>
      have split : cs = as ++ '%' :: (w ++ (ds ++ rest)) := by simp [hcs]
      exact hk ▸ .intro split ha slot

theorem Spells.pieces_scan (h : Spells cs ps) : (scan 0 cs).pieces = ps := by
  have hs := scan_of_spells h 0 []
  rw [List.append_nil, pieces_foldr_push] at hs
  simp [hs, scan]

theorem argument_ne_zero (cs : List Char) {p : Placeholder} (h : .slot p ∈ (scan 0 cs).pieces) :
    p.argument ≠ some 0 := by
  have ⟨_, _, _, hs⟩ := exists_spells cs
  exact hs.argument_ne h

-- The outcome is that of the pieces, unless something malformed comes after them.
theorem format_eq (template : String) (args : List Argument) :
    MessageCatalog.format template args = (do
      let cs ← fill args 1 (scan 0 template.toList).pieces
      match (scan 0 template.toList).fault with
      | none                  => return String.ofList cs
      | some (position, flaw) => throw (.invalidPlaceholder position flaw)) :=
  rfl

theorem format_of_needed {needed : Nat} (h : Spells template.toList ps)
    (hn : IsGreatest {k | k = 0 ∨ Refers template.toList k} needed) (args : List Argument) :
    ((∃ out, MessageCatalog.format template args = .ok out) ↔ needed ≤ args.length) ∧
      (args.length < needed → ∃ index, FirstBeyond template.toList args.length index ∧
        MessageCatalog.format template args = .error (.missingArgument index args.length)) := by
  have ⟨hm, hu⟩ := hn
  have hr (k : Nat) : Refers template.toList k ↔ Shows ps k := by
    rw [refers_iff, h.pieces_scan]
  have hp : ∀ p, .slot p ∈ ps → p.argument ≠ some 0 := fun _ hm => h.argument_ne hm
  cases supplied_or_missing args ps hp
  case inl hs =>
    have hle : needed ≤ args.length := by
      cases hm
      case inl hz => omega
      case inr hk => exact (supplied_iff hp).mp hs _ ((hr _).mp hk)
    have hx : MessageCatalog.format template args = .ok (.ofList (output args ps)) := by
      rw [format_of_spells h, fill_of_supplied hs]
      rfl
    exact ⟨⟨fun _ => hle, fun _ => ⟨_, hx⟩⟩, fun hlt => by omega⟩
  case inr hm =>
    obtain ⟨before, p, after, rfl, hs, ha⟩ := hm
    have hlt : args.length < needed :=
      ha.trans_le (hu (.inr ((hr _).mpr (shows_iff.mpr ⟨_, _, _, rfl, rfl⟩))))
    have hx : MessageCatalog.format template args =
        .error (.missingArgument (p.index before) args.length) := by
      rw [format_of_spells h, fill_of_missing hs ha]
      rfl
    obtain ⟨as, bs, hcs, hb, hc⟩ := h.divide
    cases hc
    case slot w ds slot _ =>
      have hw : ∀ k, Refers as k → k ≤ args.length := by
        intro k hk
        rw [refers_iff, hb.pieces_scan] at hk
        exact (supplied_iff fun _ hm => hb.argument_ne hm).mp hs k hk
      refine ⟨⟨fun ⟨_, ho⟩ => ?_, fun hle => by omega⟩, fun _ => ⟨_, .intro hcs hb slot hw ha, hx⟩⟩
      cases hx.symm.trans ho

theorem format_append_arguments (template : String) (args more : List Argument) :
    (∃ index supplied,
        MessageCatalog.format template args = .error (.missingArgument index supplied)) ∨
      MessageCatalog.format template (args ++ more) = MessageCatalog.format template args := by
  cases supplied_or_missing args _ fun _ => argument_ne_zero template.toList
  case inl hs => exact .inr (by rw [format_eq, format_eq, fill_append_arguments more hs])
  case inr hm =>
    obtain ⟨before, p, after, he, hs, ha⟩ := hm
    exact .inl ⟨_, _, by rw [format_eq, he, fill_of_missing hs ha]; rfl⟩

theorem format_congr {args args' : List Argument} (hl : args.length = args'.length)
    (h : ∀ k, Refers template.toList k → args[k - 1]? = args'[k - 1]?) :
    MessageCatalog.format template args = MessageCatalog.format template args' := by
  have hf := fill_congr hl (fun k hk => h k ((refers_iff ..).mpr hk))
    fun _ => argument_ne_zero template.toList
  rw [format_eq, format_eq, hf]

end Templates

end Template

open Template

theorem format_arguments (template : String) :
    (∀ ps, Spells template.toList ps →
      ∃ needed, IsGreatest {k | k = 0 ∨ Refers template.toList k} needed ∧
        ∀ args : List Argument,
          ((∃ out, format template args = .ok out) ↔ needed ≤ args.length) ∧
          (args.length < needed → ∃ index, FirstBeyond template.toList args.length index ∧
            format template args = .error (.missingArgument index args.length))) ∧
    (∀ args more : List Argument,
      (∃ index supplied, format template args = .error (.missingArgument index supplied)) ∨
        format template (args ++ more) = format template args) ∧
    ∀ args args' : List Argument, args.length = args'.length →
      (∀ k, Refers template.toList k → args[k - 1]? = args'[k - 1]?) →
        format template args = format template args' := by
  refine ⟨fun ps spells => ?_, format_append_arguments template, fun _ _ => format_congr⟩
  have ⟨needed, hn⟩ := exists_greatest (scan 0 template.toList).pieces
  simp only [← refers_iff] at hn
  exact ⟨needed, hn, format_of_needed spells hn⟩

-- The third and the first of the arguments are shown, and the second one can be anything.
theorem format_arguments_third :
    ∃ ps needed, Spells "%3$s: %s".toList ps ∧
      IsGreatest {k | k = 0 ∨ Refers "%3$s: %s".toList k} needed ∧
      [Argument.text "a", .text "b"].length < needed ∧
      (∃ index, FirstBeyond "%3$s: %s".toList 2 index ∧
        format "%3$s: %s" [.text "a", .text "b"] = .error (.missingArgument index 2)) ∧
      (∀ k, Refers "%3$s: %s".toList k →
        [Argument.text "a", .text "b", .text "c"][k - 1]? =
          [Argument.text "a", .int 5, .text "c"][k - 1]?) ∧
      format "%3$s: %s" [.text "a", .text "b", .text "c"] =
        format "%3$s: %s" [.text "a", .int 5, .text "c"] := by
  have hu : Placeholder.Spells ['s'] _ := .intro .absent [] .absent .absent .text
  have hs := hu.withNumber (k := 3) rfl (by decide) (by decide)
  have spells : Spells "%3$s: %s".toList _ :=
    .slot hs (.text (c := ':') (by decide) (.text (c := ' ') (by decide) (.slot hu .nil)))
  have hr : ∀ k, Refers "%3$s: %s".toList k ↔ k = 3 ∨ k = 1 := by
    intro k
    rw [refers_iff, spells.pieces_scan]
    constructor
    · rintro ⟨i, p, hi, rfl⟩
      match i with
      | 0 => cases hi; exact .inl rfl
      | 3 => cases hi; exact .inr rfl
    · rintro (rfl | rfl)
      · exact ⟨0, _, rfl, rfl⟩
      · exact ⟨3, _, rfl, rfl⟩
  have ⟨hn, _, hc⟩ := format_arguments "%3$s: %s"
  have ⟨needed, hg, ha⟩ := hn _ spells
  have hl : 3 ≤ needed := hg.right (.inr ((hr 3).mpr (.inl rfl)))
  have hk : ∀ k, Refers "%3$s: %s".toList k →
      [Argument.text "a", .text "b", .text "c"][k - 1]? =
        [Argument.text "a", .int 5, .text "c"][k - 1]? := by
    intro k h
    rcases (hr k).mp h with rfl | rfl <;> rfl
  exact ⟨_, needed, spells, hg, hl, (ha [.text "a", .text "b"]).right hl, hk, hc _ _ rfl hk⟩

end MessageCatalog
