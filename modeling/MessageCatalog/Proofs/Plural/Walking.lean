import MessageCatalog.Proofs.Plural.Meaning
import MessageCatalog.Proofs.Plural.Tree

namespace MessageCatalog.Plural

open Text

-- Why evaluation cannot go on: there is no such step, or too many calls are open.
inductive Stray
  | missing (index : Nat)
  | tooDeep
  deriving DecidableEq

-- Evaluation that keeps the indices it was called for, the latest one first.
abbrev Walk := StateT (List Nat) (Except Stray)

-- What the left operand settles alone.
def BinaryOp.settled? : BinaryOp → Int64 → Option Int64
  | or, x  => if x ≠ 0 then some 1 else none
  | and, x => if x ≠ 0 then none else some 0
  | _, _   => none

def Walk.visit (steps : Array Step) (index : Nat) : Walk Step := do
  match steps[index]? with
  | none   => throw (.missing index)
  | some s =>
    modify (index :: ·)
    return s

-- The value of a step, for which `frames` calls may be open at once.
def walk (steps : Array Step) (n : Int64) : (frames : Nat) → (index : Nat) → Walk Int64
  | 0, _              => throw .tooDeep
  | frames + 1, index => do
    match ← Walk.visit steps index with
    | .count             => return n
    | .literal v         => return v.value
    | .unary op i        => return op.apply (← walk steps n frames i)
    | .binary op i j     =>
      let x ← walk steps n frames i
      match op.settled? x with
      | some z => return z
      | none   => return op.apply x (← walk steps n frames j)
    | .conditional i j k =>
      if (← walk steps n frames i) ≠ 0 then walk steps n frames j else walk steps n frames k

theorem BinaryOp.apply_of_settled {op : BinaryOp} {x z : Int64} (h : op.settled? x = some z)
    (y : Int64) : op.apply x y = z := by
  cases op
  case or | and =>
    rw [settled?] at h
    split at h <;> simp_all [apply, truth]
  all_goals cases h

namespace Walk

variable {α β : Type} {steps : Array Step} {n : Int64} {first middle last : Nat} {x : α} {y : β}

-- Evaluation that ends with `x` and calls for steps from `first` on and before `last`, each at most
-- once.
structure Ends (w : Walk α) (first last : Nat) (x : α) : Prop where
  le  : first ≤ last
  run : ∀ trace, ∃ visited, w.run trace = .ok (x, visited ++ trace) ∧ visited.Nodup ∧
    ∀ i ∈ visited, first ≤ i ∧ i < last

theorem ends_pure (le : first ≤ last) (x : α) : Ends (pure x) first last x :=
  ⟨le, fun _ => ⟨[], rfl, .nil, nofun⟩⟩

theorem Ends.widen {w : Walk α} {first' last' : Nat} (h : Ends w first last x)
    (hf : first' ≤ first) (hl : last ≤ last') : Ends w first' last' x := by
  refine ⟨hf.trans (h.le.trans hl), fun trace => ?_⟩
  obtain ⟨visited, hr, hn, hv⟩ := h.run trace
  exact ⟨visited, hr, hn, fun i hi => ⟨hf.trans (hv i hi).left, (hv i hi).right.trans_le hl⟩⟩

-- Evaluations that call for different steps can follow each other.
theorem Ends.bind {w : Walk α} {f : α → Walk β} (h : Ends w first middle x)
    (h' : Ends (f x) middle last y) : Ends (w >>= f) first last y := by
  refine ⟨h.le.trans h'.le, fun trace => ?_⟩
  obtain ⟨visited, hr, hn, hv⟩ := h.run trace
  obtain ⟨visited', hr', hn', hv'⟩ := h'.run (visited ++ trace)
  refine ⟨visited' ++ visited, ?_, ?_, ?_⟩
  · rw [StateT.run_bind, hr, List.append_assoc]
    exact hr'
  · refine List.nodup_append.mpr ⟨hn', hn, fun i hi j hj => ?_⟩
    have := (hv' i hi).left
    have := (hv j hj).right
    omega
  · intro i hi
    have := h.le
    have := h'.le
    rcases List.mem_append.mp hi with hi | hi
    · have := hv' i hi; omega
    · have := hv i hi; omega

-- A step is called for before all steps that it names.
theorem Ends.visit {s : Step} {f : Step → Walk β} (hs : steps[last]? = some s)
    (h : Ends (f s) first last y) : Ends (visit steps last >>= f) first (last + 1) y := by
  refine ⟨h.le.trans (Nat.le_succ _), fun trace => ?_⟩
  obtain ⟨visited, hr, hn, hv⟩ := h.run (last :: trace)
  refine ⟨visited ++ [last], ?_, ?_, ?_⟩
  · simpa [Walk.visit, hs] using hr
  · refine List.nodup_append.mpr ⟨hn, List.nodup_singleton _, fun i hi j hj => ?_⟩
    have := (hv i hi).right
    have := List.mem_singleton.mp hj
    omega
  · intro i hi
    have := h.le
    rcases List.mem_append.mp hi with hi | hi
    · have := hv i hi; omega
    · have := List.mem_singleton.mp hi; omega

end Walk

open Walk

-- By induction on the expression, whose parts stand one after the other.
theorem ends_walk {steps : Array Step} {e : Expr} {first frames : Nat}
    (h : e.Stands steps first) (hf : e.height ≤ frames) (n : Int64) :
    Ends (walk steps n frames (first + e.size - 1)) first (first + e.size) (e.value n) := by
  induction e generalizing first frames
  case count =>
    obtain ⟨frames, rfl⟩ := Nat.exists_eq_add_of_le' hf
    exact .visit (Expr.getElem?_of_prefix_drop h) (ends_pure le_rfl _)
  case literal v =>
    obtain ⟨frames, rfl⟩ := Nat.exists_eq_add_of_le' hf
    exact .visit (Expr.getElem?_of_prefix_drop h) (ends_pure le_rfl _)
  case unary op e ih =>
    obtain ⟨he, hs⟩ := h.unary
    obtain ⟨frames, rfl⟩ := Nat.exists_eq_add_of_le' ((Nat.le_add_left 1 _).trans hf)
    have he := ih he (Nat.le_of_succ_le_succ hf)
    exact .visit hs (he.bind (ends_pure le_rfl _))
  case binary op l r ihl ihr =>
    obtain ⟨hl, hr, hs⟩ := h.binary
    obtain ⟨frames, rfl⟩ := Nat.exists_eq_add_of_le' ((Nat.le_add_left 1 _).trans hf)
    obtain ⟨hfl, hfr⟩ := max_le_iff.mp (Nat.le_of_succ_le_succ hf)
    have hl := ihl hl hfl
    have hr := (ihr hr hfr).widen le_rfl (Nat.add_assoc ..).le
    refine .visit hs (hl.bind ?_)
    split
    case h_1 z hz =>
      rw [Expr.value, op.apply_of_settled hz]
      exact ends_pure hr.le z
    case h_2 => exact hr.bind (ends_pure le_rfl _)
  case conditional t a b iht iha ihb =>
    obtain ⟨ht, ha, hb, hs⟩ := h.conditional
    obtain ⟨frames, rfl⟩ := Nat.exists_eq_add_of_le' ((Nat.le_add_left 1 _).trans hf)
    obtain ⟨hft, hfab⟩ := max_le_iff.mp (Nat.le_of_succ_le_succ hf)
    obtain ⟨hfa, hfb⟩ := max_le_iff.mp hfab
    have hsize : first + t.size + a.size + b.size = first + (t.conditional a b).size - 1 := by
      simp only [Expr.size]
      omega
    refine .visit hs ((iht ht hft).bind ?_)
    rw [Expr.value]
    split
    case isTrue  => exact (iha ha hfa).widen le_rfl (by omega)
    case isFalse => exact (ihb hb hfb).widen (Nat.le_add_right ..) hsize.le

namespace Program

-- No evaluation of a rule goes astray.
theorem walk_of_parse {text : Cursor} {p : Program} (h : parse text = .ok p) :
    ∃ root a e, assemble text = .ok (root, a) ∧ a.program = p ∧ a.Tree root e ∧
      ∀ n, ∃ visited,
        (walk a.steps n Assembly.heightLimit root).run [] = .ok (p.value n, visited) ∧
          visited.Nodup ∧ ∀ i ∈ visited, i < a.steps.size := by
  obtain ⟨root, a, ha, hp⟩ := assemble_of_parse h
  obtain ⟨e, d, hf, hr, rfl⟩ := append_of_assemble ha
  refine ⟨root, _, e, ha, hp, hr ▸ Assembly.tree_append hf, fun n => ?_⟩
  rw [Assembly.program_append] at hp
  have hs : e.Stands (({} : Assembly).append e).steps 0 := by
    rw [Assembly.steps_append]
    exact e.stands_steps
  obtain ⟨visited, hw, hn, hv⟩ := (ends_walk hs hf.height n).run []
  refine ⟨visited, ?_, hn, fun i hi => ?_⟩
  · rw [List.append_nil, ← e.value_program, hp] at hw
    rw [hr, ← hw]
    rfl
  · rw [Assembly.size_append]
    exact (hv i hi).right

theorem walk_of_parse_conditional :
    ∃ p, parse (.start "n%10==1 ? 0 : n>1".toList) = .ok p ∧
      ∃ root a e, assemble (.start "n%10==1 ? 0 : n>1".toList) = .ok (root, a) ∧ a.program = p ∧
        a.Tree root e ∧
        ∀ n, ∃ visited,
          (walk a.steps n Assembly.heightLimit root).run [] = .ok (p.value n, visited) ∧
            visited.Nodup ∧ ∀ i ∈ visited, i < a.steps.size := by
  obtain ⟨p, h⟩ : ∃ p, parse (.start "n%10==1 ? 0 : n>1".toList) = .ok p := ⟨_, by cbv⟩
  exact ⟨p, h, walk_of_parse h⟩

end Program

end MessageCatalog.Plural
