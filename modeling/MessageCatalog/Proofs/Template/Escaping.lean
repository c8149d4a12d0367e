import MessageCatalog.Proofs.Template.Formatting

namespace MessageCatalog

open Text

-- A text as a template has it.
def escape (text : List Char) : List Char :=
  text.flatMap fun c => if c = '%' then ['%', '%'] else [c]

-- What a template is written from. Arguments are counted from 1, and the placeholder of one tells
-- its number or leaves it out.
inductive Fragment
  | text (s : String)
  | argument (k : Nat) (numbered : Bool)
  deriving DecidableEq

namespace Fragment

def written : Fragment → List Char
  | text s           => escape s.toList
  | argument k true  => '%' :: (decimal k ++ ['$', 's'])
  | argument _ false => ['%', 's']

def template (fs : List Fragment) : String :=
  .ofList (fs.flatMap written)

-- What a fragment stands for.
def value (args : List String) : Fragment → String
  | text s       => s
  | argument k _ => args.getD (k - 1) ""

-- The argument that a placeholder without a number is to show.
def implied? : Fragment → Option Nat
  | argument k false => some k
  | _                => none

-- The placeholders without a number show one argument after the other, from `next` on.
def InOrder (next : Nat) (fs : List Fragment) : Prop :=
  fs.filterMap implied? = List.range' next (fs.filterMap implied?).length

instance (next : Nat) (fs : List Fragment) : Decidable (InOrder next fs) :=
  inferInstanceAs (Decidable (_ = _))

-- Each placeholder can show its argument.
structure Available (args : List String) (fs : List Fragment) : Prop where
  present : ∀ k numbered, argument k numbered ∈ fs → 1 ≤ k ∧ k ≤ args.length
  small   : ∀ k, argument k true ∈ fs → k ≤ 4096
  inOrder : InOrder 1 fs

-- The placeholder `%s`, with a number or without one.
def slot (argument : Option Nat) : Placeholder where
  argument   := argument
  flags      := {}
  width      := 0
  precision  := none
  conversion := .text

-- What a character of an escaped text is read as.
def piece (c : Char) : Piece :=
  if c = '%' then .percent else .text c

def pieces : Fragment → List Piece
  | text s              => s.toList.map piece
  | argument k numbered => [.slot (slot (if numbered then some k else none))]

section Reading

variable {fs : List Fragment}

theorem spells_escape (cs : List Char) : Template.Spells (escape cs) (cs.map piece) := by
  induction cs
  case nil => exact .nil
  case cons c cs ih =>
    by_cases hc : c = '%'
    case pos => simpa [escape, piece, hc] using Template.Spells.percent ih
    case neg => simpa [escape, piece, hc] using Template.Spells.text hc ih

theorem spells_unnumbered : Placeholder.Spells ['s'] (slot none) :=
  .intro .absent [] .absent .absent .text

theorem spells_numbered {k : Nat} (positive : 1 ≤ k) (small : k ≤ 4096) :
    Placeholder.Spells (decimal k ++ ['$', 's']) (slot (some k)) :=
  spells_unnumbered.withNumber rfl positive small

theorem spells_written {f : Fragment}
    (h : ∀ k, f = argument k true → 1 ≤ k ∧ k ≤ 4096) : Template.Spells f.written f.pieces := by
  cases f
  case text s => exact spells_escape s.toList
  case argument k numbered =>
    cases numbered
    case false => exact .slot spells_unnumbered .nil
    case true =>
      have ⟨positive, small⟩ := h k rfl
      have hs := Template.Spells.slot (spells_numbered positive small) .nil
      rwa [List.append_nil] at hs

theorem spells_template (h : ∀ k, argument k true ∈ fs → 1 ≤ k ∧ k ≤ 4096) :
    Template.Spells (template fs).toList (fs.flatMap pieces) := by
  rw [template, String.toList_ofList]
  induction fs
  case nil => exact .nil
  case cons f fs ih =>
    have hf : ∀ k, f = argument k true → 1 ≤ k ∧ k ≤ 4096 := fun k hk => h k (hk ▸ .head _)
    exact (spells_written hf).append (ih fun k hk => h k (.tail _ hk))

end Reading

section Filling

variable {args : List String} {fs : List Fragment} {f : Fragment} {next : Nat}

theorem fill_escaped (args : List Argument) (next : Nat) (cs : List Char) :
    Template.fill args next (cs.map piece) = .ok cs := by
  induction cs
  case nil => rfl
  case cons c cs ih =>
    by_cases hc : c = '%'
    case pos => simp only [List.map_cons, piece, hc, if_true, Template.fill, ih]; rfl
    case neg => simp only [List.map_cons, piece, hc, if_false, Template.fill, ih]; rfl

-- An argument is shown as it is.
theorem render_slot (argument : Option Nat) (s : String) :
    (slot argument).render (.text s) = s.toList := by
  simp [slot, Placeholder.render, Placeholder.rendering, Placeholder.rendering.unsigned,
    Rendering.fill, Argument.display]

theorem fill_slot {k : Nat} {argument : Option Nat} (hk : argument.getD next = k)
    (positive : 1 ≤ k) (present : k ≤ args.length) :
    Template.fill (args.map .text) next [.slot (slot argument)] =
      .ok (args.getD (k - 1) "").toList := by
  have hl : k - 1 < args.length := by omega
  have ha : (args.map Argument.text)[k - 1]? = some (.text (args.getD (k - 1) "")) := by
    simp [hl]
  have hk : (slot argument).argument.getD next = k := hk
  simp only [Template.fill, hk, ha, render_slot]
  simp [bind, Except.bind, pure, Except.pure]

theorem fill_pieces (present : ∀ k numbered, f = argument k numbered → 1 ≤ k ∧ k ≤ args.length)
    (inOrder : ∀ k ∈ f.implied?, k = next) :
    Template.fill (args.map .text) next f.pieces = .ok (f.value args).toList := by
  cases f
  case text s => exact fill_escaped _ next s.toList
  case argument k numbered =>
    have ⟨hk, hl⟩ := present k numbered rfl
    cases numbered
    case true  => exact fill_slot rfl hk hl
    case false => exact fill_slot (inOrder k rfl).symm hk hl

theorem countP_escaped (cs : List Char) : (cs.map piece).countP Piece.isUnnumbered = 0 := by
  induction cs
  case nil => rfl
  case cons c cs ih => by_cases hc : c = '%' <;> simpa [piece, hc, Piece.isUnnumbered] using ih

theorem inOrder_cons (h : InOrder next (f :: fs)) :
    (∀ k ∈ f.implied?, k = next) ∧ InOrder (next + f.pieces.countP Piece.isUnnumbered) fs := by
  cases f
  case text s =>
    rw [pieces, countP_escaped]
    exact ⟨nofun, h⟩
  case argument k numbered =>
    cases numbered
    case true  => exact ⟨nofun, h⟩
    case false =>
      have hf : (argument k false :: fs).filterMap implied? = k :: fs.filterMap implied? := rfl
      rw [InOrder, hf, List.length_cons, List.range'_succ, List.cons.injEq] at h
      exact ⟨fun _ hk => Option.some.inj hk ▸ h.left, h.right⟩

theorem fill_template (present : ∀ k numbered, argument k numbered ∈ fs → 1 ≤ k ∧ k ≤ args.length)
    (inOrder : InOrder next fs) :
    Template.fill (args.map .text) next (fs.flatMap pieces) =
      .ok (String.join (fs.map (value args))).toList := by
  rw [String.toList_join]
  induction fs generalizing next
  case nil => rfl
  case cons f fs ih =>
    have ⟨hf, hfs⟩ := inOrder_cons inOrder
    have hf := fill_pieces (fun k n hk => present k n (hk ▸ .head _)) hf
    have hfs := ih (fun k n hk => present k n (.tail _ hk)) hfs
    rw [List.flatMap_cons, Template.fill_append, hf, Outcome.ok_bind, hfs]
    rfl

end Filling

end Fragment

open Fragment Template

theorem format_template :
    (∀ (args : List String) (fs : List Fragment), Available args fs →
      format (template fs) (args.map .text) = .ok (String.join (fs.map (value args)))) ∧
    ∀ (args : List Argument) (text : String),
      format (.ofList (escape text.toList)) args = .ok text := by
  constructor
  · intro args fs ⟨present, small, inOrder⟩
    have hs := spells_template fun k hk => ⟨(present k true hk).left, small k hk⟩
    rw [format_of_spells hs, fill_template present inOrder, Except.map, String.ofList_toList]
  · intro args text
    have hs := spells_escape text.toList
    rw [← @String.toList_ofList (escape text.toList)] at hs
    rw [format_of_spells hs, fill_escaped, Except.map, String.ofList_toList]

-- Percent signs around placeholders, and arguments that look like placeholders.
theorem format_template_percents :
    ∃ args fs, args = ["%1$s", "50%"] ∧
      fs = [.text "%", .argument 2 true, .text "$s %", .argument 1 false] ∧ Available args fs ∧
      template fs = "%%%2$s$s %%%s" ∧
      format (template fs) (args.map .text) = .ok "%50%$s %%1$s" := by
  have h : Available ["%1$s", "50%"]
      [.text "%", .argument 2 true, .text "$s %", .argument 1 false] :=
    ⟨by grind, by simp, by decide⟩
  exact ⟨_, _, rfl, rfl, h, by decide, format_template.left _ _ h⟩

end MessageCatalog
