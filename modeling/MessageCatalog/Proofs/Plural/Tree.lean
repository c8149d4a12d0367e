import MessageCatalog.Proofs.Plural.Language

namespace MessageCatalog.Plural

open Text

-- The tree below a step: its operands are the trees below the steps that it names.
inductive Unfolds (steps : Array Step) : Nat → Expr → Prop
  | count {i : Nat} (step : steps[i]? = some .count) : Unfolds steps i .count
  | literal {i : Nat} {v : Literal} (step : steps[i]? = some (.literal v)) :
      Unfolds steps i (.literal v)
  | unary {i j : Nat} {op : UnaryOp} {e : Expr} (step : steps[i]? = some (.unary op j))
      (operand : Unfolds steps j e) : Unfolds steps i (.unary op e)
  | binary {i j k : Nat} {op : BinaryOp} {l r : Expr} (step : steps[i]? = some (.binary op j k))
      (left : Unfolds steps j l) (right : Unfolds steps k r) : Unfolds steps i (.binary op l r)
  | conditional {i j k l : Nat} {t a b : Expr} (step : steps[i]? = some (.conditional j k l))
      (test : Unfolds steps j t) (whenTrue : Unfolds steps k a) (whenFalse : Unfolds steps l b) :
      Unfolds steps i (.conditional t a b)

-- The step `i` is the operand of the step `parent` in the place `role`.
def Operand (steps : Array Step) (parent role i : Nat) : Prop :=
  ∃ s, steps[parent]? = some s ∧ s.operands[role]? = some i

-- What has been assembled is the tree of `e`, and nothing else.
structure Assembly.Tree (a : Assembly) (root : Nat) (e : Expr) : Prop where
  last    : root + 1 = a.steps.size
  size    : a.steps.size ≤ stepLimit
  earlier : ∀ parent role i, Operand a.steps parent role i → i < parent
  parent  : ∀ i < root, ∃! place : Nat × Nat, Operand a.steps place.1 place.2 i
  below   : ∀ i < a.steps.size, ∃ part,
    e.postorder[i]? = some part ∧ (∀ e', Unfolds a.steps i e' ↔ e' = part) ∧
      a.heights[i]? = some part.height ∧ part.height ≤ heightLimit

theorem Unfolds.unique {steps : Array Step} {i : Nat} {e e' : Expr} (h : Unfolds steps i e)
    (h' : Unfolds steps i e') : e' = e := by
  induction h generalizing e'
  case count step => cases h' <;> simp_all
  case literal step => cases h' <;> simp_all
  case unary step _ ih =>
    cases h'
    case unary operand step' =>
      cases step.symm.trans step'
      rw [ih operand]
    all_goals simp_all
  case binary step _ _ ihl ihr =>
    cases h'
    case binary left right step' =>
      cases step.symm.trans step'
      rw [ihl left, ihr right]
    all_goals simp_all
  case conditional step _ _ _ iht iha ihb =>
    cases h'
    case conditional test whenTrue whenFalse step' =>
      cases step.symm.trans step'
      rw [iht test, iha whenTrue, ihb whenFalse]
    all_goals simp_all

namespace Expr

-- The code of an expression stands among the steps, from `first` on.
def Stands (steps : Array Step) (first : Nat) (e : Expr) : Prop :=
  e.steps first <+: steps.toList.drop first

section Stands

variable {steps : Array Step} {first : Nat} {e : Expr}

theorem stands_steps (e : Expr) : Stands e.program.steps 0 e :=
  List.prefix_rfl

theorem getElem?_of_prefix_drop {s : Step} {ss : List Step}
    (h : s :: ss <+: steps.toList.drop first) : steps[first]? = some s := by
  obtain ⟨_, h⟩ := h
  rw [← Array.getElem?_toList, ← List.head?_drop, ← h]
  rfl

theorem prefix_drop_append {xs ys : List Step} (h : xs ++ ys <+: steps.toList.drop first) :
    xs <+: steps.toList.drop first ∧ ys <+: steps.toList.drop (first + xs.length) := by
  refine ⟨(List.prefix_append ..).trans h, ?_⟩
  obtain ⟨zs, h⟩ := h
  rw [← List.drop_drop, ← h, List.append_assoc, List.drop_left]
  exact List.prefix_append ..

-- Where an expression stands, its parts do, one after the other, and then its own step.
theorem Stands.unary {op : UnaryOp} (h : Stands steps first (unary op e)) :
    Stands steps first e ∧
      steps[first + (unary op e).size - 1]? = some (.unary op (first + e.size - 1)) := by
  obtain ⟨he, hs⟩ := prefix_drop_append h
  rw [length_steps] at hs
  exact ⟨he, getElem?_of_prefix_drop hs⟩

theorem Stands.binary {op : BinaryOp} {l r : Expr} (h : Stands steps first (binary op l r)) :
    Stands steps first l ∧ Stands steps (first + l.size) r ∧
      steps[first + (binary op l r).size - 1]? =
        some (.binary op (first + l.size - 1) (first + l.size + r.size - 1)) := by
  obtain ⟨h, hs⟩ := prefix_drop_append h
  obtain ⟨hl, hr⟩ := prefix_drop_append h
  rw [List.length_append, length_steps, length_steps] at hs
  rw [length_steps] at hr
  exact ⟨hl, hr, getElem?_of_prefix_drop hs⟩

theorem Stands.conditional {t a b : Expr} (h : Stands steps first (conditional t a b)) :
    Stands steps first t ∧ Stands steps (first + t.size) a ∧
      Stands steps (first + t.size + a.size) b ∧
      steps[first + (conditional t a b).size - 1]? =
        some (.conditional (first + t.size - 1) (first + t.size + a.size - 1)
          (first + t.size + a.size + b.size - 1)) := by
  obtain ⟨h, hs⟩ := prefix_drop_append h
  obtain ⟨h, hb⟩ := prefix_drop_append h
  obtain ⟨ht, ha⟩ := prefix_drop_append h
  simp only [List.length_append, length_steps] at hs
  rw [List.length_append, length_steps, length_steps, ← Nat.add_assoc] at hb
  rw [length_steps] at ha
  exact ⟨ht, ha, hb, getElem?_of_prefix_drop hs⟩

-- An expression is the tree below the last of its steps.
theorem Stands.unfolds (h : Stands steps first e) : Unfolds steps (first + e.size - 1) e := by
  induction e generalizing first
  case count => exact .count (getElem?_of_prefix_drop h)
  case literal v => exact .literal (getElem?_of_prefix_drop h)
  case unary op e ih =>
    obtain ⟨he, hs⟩ := h.unary
    exact .unary hs (ih he)
  case binary op l r ihl ihr =>
    obtain ⟨hl, hr, hs⟩ := h.binary
    exact .binary hs (ihl hl) (ihr hr)
  case conditional t a b iht iha ihb =>
    obtain ⟨ht, ha, hb, hs⟩ := h.conditional
    exact .conditional hs (iht ht) (iha ha) (ihb hb)

-- The operands of an expression come before its last step.
theorem Stands.operands_lt (h : Stands steps first e) {s : Step}
    (hs : steps[first + e.size - 1]? = some s) {i : Nat} (hi : i ∈ s.operands) :
    i < first + e.size - 1 := by
  cases e
  case count =>
    cases (getElem?_of_prefix_drop h).symm.trans hs
    cases hi
  case literal v =>
    cases (getElem?_of_prefix_drop h).symm.trans hs
    cases hi
  case unary op e =>
    cases h.unary.right.symm.trans hs
    have he := e.size_pos
    simp only [Step.operands, List.mem_singleton] at hi
    simp only [size]
    omega
  case binary op l r =>
    cases h.binary.right.right.symm.trans hs
    have hl := l.size_pos
    have hr := r.size_pos
    simp only [Step.operands, List.mem_cons, List.not_mem_nil, or_false] at hi
    simp only [size]
    omega
  case conditional t a b =>
    cases h.conditional.right.right.right.symm.trans hs
    have ht := t.size_pos
    have ha := a.size_pos
    have hb := b.size_pos
    simp only [Step.operands, List.mem_cons, List.not_mem_nil, or_false] at hi
    simp only [size]
    omega

theorem Stands.itself (h : Stands steps first e) {k m : Nat} (hm : e.size = m + 1) (hk : ¬k < m)
    {part : Expr} (hp : [e][k - m]? = some part) :
    ∃ first', Stands steps first' part ∧ first + k = first' + part.size - 1 := by
  rw [List.getElem?_singleton] at hp
  split at hp
  case isTrue hz =>
    cases hp
    exact ⟨first, h, by omega⟩
  case isFalse => cases hp

-- Every step is the last one of a part, and the parts are in the order of their last steps.
theorem Stands.part (h : Stands steps first e) {k : Nat} {part : Expr}
    (hp : e.postorder[k]? = some part) :
    ∃ first', Stands steps first' part ∧ first + k = first' + part.size - 1 := by
  induction e generalizing first k
  case count | literal => exact h.itself rfl (Nat.not_lt_zero k) hp
  case unary op e ih =>
    rw [postorder, List.getElem?_append, length_postorder] at hp
    split at hp
    case isTrue     => exact ih h.unary.left hp
    case isFalse hk => exact h.itself rfl hk hp
  case binary op l r ihl ihr =>
    obtain ⟨hl, hr, -⟩ := h.binary
    simp only [postorder, List.getElem?_append, List.length_append, length_postorder] at hp
    split at hp
    case isFalse hk => exact h.itself rfl hk hp
    case isTrue =>
      split at hp
      case isTrue => exact ihl hl hp
      case isFalse hk =>
        obtain ⟨first', hs, hi⟩ := ihr hr hp
        exact ⟨first', hs, by omega⟩
  case conditional t a b iht iha ihb =>
    obtain ⟨ht, ha, hb, -⟩ := h.conditional
    simp only [postorder, List.getElem?_append, List.length_append, length_postorder] at hp
    split at hp
    case isFalse hk => exact h.itself rfl hk hp
    case isTrue =>
      split at hp
      case isFalse hk =>
        obtain ⟨first', hs, hi⟩ := ihb hb hp
        exact ⟨first', hs, by omega⟩
      case isTrue =>
        split at hp
        case isTrue => exact iht ht hp
        case isFalse hk =>
          obtain ⟨first', hs, hi⟩ := iha ha hp
          exact ⟨first', hs, by omega⟩

end Stands

theorem height_le_of_mem_postorder {e part : Expr} (h : part ∈ e.postorder) :
    part.height ≤ e.height := by
  induction e
  case count | literal => simp_all [postorder]
  case unary op e ih =>
    simp only [postorder, List.mem_append, List.mem_singleton] at h
    rcases h with h | rfl
    · exact (ih h).trans (Nat.le_succ _)
    · rfl
  case binary op l r ihl ihr =>
    simp only [postorder, List.mem_append, List.mem_singleton, height] at h ⊢
    rcases h with (h | h) | rfl
    · have := ihl h; omega
    · have := ihr h; omega
    · rfl
  case conditional t a b iht iha ihb =>
    simp only [postorder, List.mem_append, List.mem_singleton, height] at h ⊢
    rcases h with ((h | h) | h) | rfl
    · have := iht h; omega
    · have := iha h; omega
    · have := ihb h; omega
    · rfl

-- Every index but the last one is named once.
theorem perm_operands (first : Nat) (e : Expr) :
    ((e.steps first).flatMap Step.operands ++ [first + e.size - 1]).Perm
      (List.range' first e.size) := by
  induction e generalizing first
  case count | literal => exact .refl _
  case unary op e ih =>
    simp only [steps, List.flatMap_append, List.flatMap_singleton, Step.operands, size]
    rw [List.range'_1_concat]
    exact (ih first).append (.refl _)
  case binary op l r ihl ihr =>
    have hl := List.perm_iff_count.mp (ihl first)
    have hr := List.perm_iff_count.mp (ihr (first + l.size))
    rw [size, List.range'_1_concat, ← List.range'_append_1, List.perm_iff_count]
    intro i
    have hl := hl i
    have hr := hr i
    simp only [steps, List.flatMap_append, List.flatMap_singleton, Step.operands,
      List.count_append, List.count_cons, List.count_nil, ← Nat.add_assoc, Nat.add_sub_cancel] at *
    omega
  case conditional t a b iht iha ihb =>
    have ht := List.perm_iff_count.mp (iht first)
    have ha := List.perm_iff_count.mp (iha (first + t.size))
    have hb := List.perm_iff_count.mp (ihb (first + t.size + a.size))
    rw [size, List.range'_1_concat, ← List.range'_append_1, ← List.range'_append_1,
      List.perm_iff_count]
    intro i
    have ht := ht i
    have ha := ha i
    have hb := hb i
    simp only [steps, List.flatMap_append, List.flatMap_singleton, Step.operands,
      List.count_append, List.count_cons, List.count_nil, ← Nat.add_assoc, Nat.add_sub_cancel] at *
    omega

end Expr

section Places

variable {α β : Type} {f : α → List β} {as : List α} {i j i' j' : Nat} {a a' : α} {b : β}

theorem not_lt_of_nodup_flatMap (h : (as.flatMap f).Nodup) (hi : as[i]? = some a)
    (hi' : as[i']? = some a') (hb : b ∈ f a) (hb' : b ∈ f a') : ¬i < i' := by
  intro hlt
  obtain ⟨_, rfl⟩ := List.getElem?_eq_some_iff.mp hi
  obtain ⟨_, rfl⟩ := List.getElem?_eq_some_iff.mp hi'
  exact List.pairwise_iff_getElem.mp (List.nodup_flatMap.mp h).right i i' _ _ hlt hb hb'

-- What is in one of several lists, no two of whose members are the same, is there in one place.
theorem existsUnique_of_nodup_flatMap (h : (as.flatMap f).Nodup) (hb : b ∈ as.flatMap f) :
    ∃! place : Nat × Nat, ∃ a, as[place.1]? = some a ∧ (f a)[place.2]? = some b := by
  obtain ⟨a, ha, hb⟩ := List.mem_flatMap.mp hb
  obtain ⟨i, hi⟩ := List.getElem?_of_mem ha
  obtain ⟨j, hj⟩ := List.getElem?_of_mem hb
  refine ⟨(i, j), ⟨a, hi, hj⟩, ?_⟩
  rintro ⟨i', j'⟩ ⟨a', hi', hj'⟩
  have hb' := List.mem_of_getElem? hj'
  obtain rfl : i' = i := Nat.le_antisymm (not_lt.mp (not_lt_of_nodup_flatMap h hi hi' hb hb'))
    (not_lt.mp (not_lt_of_nodup_flatMap h hi' hi hb' hb))
  cases hi.symm.trans hi'
  obtain ⟨hlt, -⟩ := List.getElem?_eq_some_iff.mp hj
  have hn := (List.nodup_flatMap.mp h).left a ha
  rw [(List.getElem?_inj hlt hn).mp (hj.trans hj'.symm)]

end Places

namespace Expr

variable {e : Expr}

theorem size_program (e : Expr) : e.program.steps.size = e.size := by
  simp [program]

-- In the code of an expression every step is the last one of a part.
theorem exists_part {i : Nat} (hi : i < e.size) :
    ∃ first part, e.postorder[i]? = some part ∧ Stands e.program.steps first part ∧
      i = first + part.size - 1 := by
  have hp := List.getElem?_eq_getElem (e.length_postorder.symm ▸ hi)
  obtain ⟨first, hs, hi⟩ := e.stands_steps.part hp
  exact ⟨first, _, hp, hs, by omega⟩

theorem operand_lt {parent role i : Nat} (h : Operand e.program.steps parent role i) :
    i < parent := by
  obtain ⟨s, hs, hi⟩ := h
  obtain ⟨hlt, -⟩ := Array.getElem?_eq_some_iff.mp hs
  obtain ⟨first, part, -, hp, rfl⟩ := exists_part (e.size_program ▸ hlt)
  exact hp.operands_lt hs (List.mem_of_getElem? hi)

theorem existsUnique_operand {i : Nat} (hi : i < e.size - 1) :
    ∃! place : Nat × Nat, Operand e.program.steps place.1 place.2 i := by
  have hp := e.perm_operands 0
  have hn := List.nodup_append.mp (hp.nodup_iff.mpr List.nodup_range') |>.left
  have hm : i ∈ (e.steps 0).flatMap Step.operands := by
    have hm := hp.mem_iff.mpr (List.mem_range'_1.mpr ⟨i.zero_le, by omega⟩)
    simp only [List.mem_append, List.mem_singleton] at hm
    exact hm.resolve_right (by omega)
  simpa [Operand, program] using existsUnique_of_nodup_flatMap hn hm

end Expr

theorem Assembly.steps_append (e : Expr) :
    (({} : Assembly).append e).steps = e.program.steps :=
  congrArg Program.steps (program_append e)

-- What has been assembled for an expression that keeps within the limits.
theorem Assembly.tree_append {e : Expr} {d : Nat} (h : ({} : Assembly).Fits e d) :
    (({} : Assembly).append e).Tree (({} : Assembly).rootOf e) e := by
  have hs := steps_append e
  have hr : ({} : Assembly).rootOf e = e.size - 1 := by simp [rootOf]
  constructor
  case last =>
    have := e.size_pos
    rw [hs, hr, e.size_program]
    omega
  case size => exact (size_append ..).trans_le h.size
  case earlier =>
    rw [hs]
    exact fun _ _ _ => Expr.operand_lt
  case parent =>
    rw [hs, hr]
    exact fun _ => Expr.existsUnique_operand
  case below =>
    rw [hs, e.size_program]
    intro i hi
    obtain ⟨first, part, hp, hst, rfl⟩ := Expr.exists_part hi
    refine ⟨part, hp, fun e' => ⟨hst.unfolds.unique, fun he => he ▸ hst.unfolds⟩, ?_, ?_⟩
    · simp [append, Expr.layOut, hp]
    · exact (Expr.height_le_of_mem_postorder (List.mem_of_getElem? hp)).trans h.height

namespace Program

-- Reads all of the text at the cursor. Gives the index of the last step and what was assembled.
def assemble (text : Cursor) : Except Fault (Nat × Assembly) := do
  let ts ← Token.scan text.offset text.rest
  let p ← Parser.expression text.last ts {}
  match p.rest with
  | []     => return (p.root, p.assembly)
  | t :: _ => throw ⟨.extraToken, t.offset⟩

theorem parse_eq_map_assemble (text : Cursor) :
    parse text = (assemble text).map fun (_, a) => a.program := by
  simp only [parse, assemble, bind, Except.bind]
  cases Token.scan text.offset text.rest
  case error => rfl
  case ok ts =>
    simp only
    cases Parser.expression text.last ts {}
    case error => rfl
    case ok p =>
      simp only
      cases p.rest <;> rfl

theorem assemble_of_parse {text : Cursor} {p : Program} (h : parse text = .ok p) :
    ∃ root a, assemble text = .ok (root, a) ∧ a.program = p := by
  rw [parse_eq_map_assemble] at h
  cases ha : assemble text
  case error f => rw [ha] at h; cases h
  case ok x    => rw [ha] at h; exact ⟨x.1, x.2, rfl, Except.ok.inj h⟩

theorem append_of_assemble {text : Cursor} {root : Nat} {a : Assembly}
    (h : assemble text = .ok (root, a)) :
    ∃ e d, ({} : Assembly).Fits e d ∧ root = ({} : Assembly).rootOf e ∧
      a = ({} : Assembly).append e := by
  obtain ⟨ts, -, h⟩ := Outcome.bind_eq_ok.mp h
  obtain ⟨p, hp, h⟩ := Outcome.bind_eq_ok.mp h
  split at h
  case h_2 => cases h
  case h_1 hr =>
    cases h
    obtain ⟨us, e, d, hus, hd⟩ := (Parser.phrases text.last).1 ts {} p hp |>.spans
    have hx := settles_of_derives hd text.last hus (hr ▸ Category.stops_nil) Assembly.valid_empty
    have hp : Category.expression.read text.last ts {} = .ok p := hp
    cases hx
    case inl hx =>
      obtain ⟨hf, q, hq, hx⟩ := hx
      cases hp.symm.trans hx
      exact ⟨e, d, hf, hq.root, hq.assembly⟩
    case inr hx =>
      obtain ⟨-, f, hx, -⟩ := hx
      cases hp.symm.trans hx

end Program

end MessageCatalog.Plural
