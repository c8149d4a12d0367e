import MessageCatalog.Plural.Assembly
import MessageCatalog.Proofs.Plural.Postorder

namespace MessageCatalog.Plural

def Fault.IsLimit (f : Fault) : Prop :=
  f.reason = .nestedTooDeeply ∨ f.reason = .tooLong

namespace Assembly

-- The index of the last step of an expression whose code comes next.
def rootOf (a : Assembly) (e : Expr) : Nat :=
  a.steps.size + e.size - 1

def append (a : Assembly) (e : Expr) : Assembly where
  steps := a.steps ++ (e.steps a.steps.size).toArray
  heights := e.layOut Expr.height a.heights
  opened := a.opened

-- The limits, for an expression whose phrase opens `depth` constructs at its deepest place.
structure Fits (a : Assembly) (e : Expr) (depth : Nat) : Prop where
  opened : a.opened + depth ≤ openLimit
  height : e.height ≤ heightLimit
  size   : a.steps.size + e.size ≤ stepLimit

variable {a b : Assembly} {e : Expr} {d : Nat}

@[simp]
theorem opened_append (a : Assembly) (e : Expr) : (a.append e).opened = a.opened :=
  rfl

@[simp]
theorem size_append (a : Assembly) (e : Expr) :
    (a.append e).steps.size = a.steps.size + e.size := by
  simp [append]

theorem heights_append (a : Assembly) (e : Expr) :
    (a.append e).heights = e.layOut Expr.height a.heights :=
  rfl

-- What holds of an assembly at every moment: there is a height for each step, and no more
-- constructs are open than may be.
structure Valid (a : Assembly) : Prop where
  balanced : a.heights.size = a.steps.size
  opened   : a.opened ≤ openLimit

theorem valid_empty : ({} : Assembly).Valid :=
  ⟨rfl, by decide⟩

theorem Valid.append (h : a.Valid) (e : Expr) : (a.append e).Valid where
  balanced := by simp [Assembly.append, h.balanced]
  opened   := h.opened

-- An expression only fits if its parts do, one after the other.
theorem Fits.unary {op : UnaryOp} (h : a.Fits (.unary op e) d) : a.Fits e d := by
  have ⟨ho, hh, hs⟩ := h
  simp only [Expr.height, Expr.size] at hh hs
  exact ⟨ho, by omega, by omega⟩

theorem Fits.binary {op : BinaryOp} {l r : Expr} {d' : Nat}
    (h : a.Fits (.binary op l r) (max d d')) : a.Fits l d ∧ (a.append l).Fits r d' := by
  have ⟨ho, hh, hs⟩ := h
  simp only [Expr.height, Expr.size] at hh hs
  refine ⟨⟨by omega, by omega, by omega⟩, ⟨?_, by omega, ?_⟩⟩
  · simp only [opened_append]; omega
  · simp only [size_append]; omega

theorem Fits.conditional {t x y : Expr} {d' d'' : Nat}
    (h : a.Fits (.conditional t x y) (max d (max d' d''))) :
    a.Fits t d ∧ (a.append t).Fits x d' ∧ ((a.append t).append x).Fits y d'' := by
  have ⟨ho, hh, hs⟩ := h
  simp only [Expr.height, Expr.size] at hh hs
  refine ⟨⟨by omega, by omega, by omega⟩, ⟨?_, by omega, ?_⟩, ⟨?_, by omega, ?_⟩⟩
  · simp only [opened_append]; omega
  · simp only [size_append]; omega
  · simp only [opened_append]; omega
  · simp only [size_append]; omega

-- The step that completes the code of `e` after `a`, when that of the operands is in `b`.
structure Completes (a b : Assembly) (s : Step) (e : Expr) : Prop where
  steps   : b.steps.push s = (a.append e).steps
  heights : b.heights.push e.height = (a.append e).heights
  opened  : b.opened = a.opened
  height  : b.operandHeight s + 1 = e.height

theorem completes_count (a : Assembly) : Completes a a .count .count where
  steps   := by simp [append, Expr.steps]
  heights := by simp [append, Expr.layOut, Expr.postorder]
  opened  := rfl
  height  := rfl

theorem completes_literal (a : Assembly) (v : Literal) :
    Completes a a (.literal v) (.literal v) where
  steps   := by simp [append, Expr.steps]
  heights := by simp [append, Expr.layOut, Expr.postorder]
  opened  := rfl
  height  := rfl

theorem completes_unary (h : a.Valid) (op : UnaryOp) (e : Expr) :
    Completes a (a.append e) (.unary op (a.rootOf e)) (.unary op e) where
  steps   := Array.toList_inj.mp (by simp [append, rootOf, Expr.steps])
  heights := (Expr.layOut_unary op e).symm
  opened  := rfl
  height  := by
    have he := @Expr.getD_layOut _ Expr.height a.heights e 0
    rw [h.balanced] at he
    simp only [operandHeight, Step.operands, rootOf, heights_append, List.map_cons, List.map_nil, he]
    simp [Expr.height]

theorem completes_binary (h : a.Valid) (op : BinaryOp) (l r : Expr) :
    Completes a ((a.append l).append r)
      (.binary op (a.rootOf l) ((a.append l).rootOf r)) (.binary op l r) where
  steps   := Array.toList_inj.mp (by simp [append, rootOf, Expr.steps])
  heights := (Expr.layOut_binary op l r).symm
  opened  := rfl
  height  := by
    obtain ⟨hl, hr⟩ := @Expr.operands_binary _ Expr.height a.heights l r 0
    rw [h.balanced] at hl hr
    simp only [operandHeight, Step.operands, rootOf, size_append, heights_append, List.map_cons,
      List.map_nil, hl, hr]
    rfl

theorem completes_conditional (h : a.Valid) (t x y : Expr) :
    Completes a (((a.append t).append x).append y)
      (.conditional (a.rootOf t) ((a.append t).rootOf x) (((a.append t).append x).rootOf y))
      (.conditional t x y) where
  steps   := Array.toList_inj.mp (by simp [append, rootOf, Expr.steps, Nat.add_assoc])
  heights := (Expr.layOut_conditional t x y).symm
  opened  := rfl
  height  := by
    obtain ⟨ht, hx, hy⟩ := @Expr.operands_conditional _ Expr.height a.heights t x y 0
    rw [h.balanced] at ht hx hy
    simp only [operandHeight, Step.operands, rootOf, size_append, heights_append, List.map_cons,
      List.map_nil, ht, hx, hy]
    simp [Expr.height, max_assoc]

theorem Completes.add {s : Step} (h : Completes a b s e) (ho : a.opened + d ≤ openLimit)
    (offset : Nat) :
    a.Fits e d ∧ b.add s offset = .ok (a.rootOf e, a.append e) ∨
      ¬a.Fits e d ∧ ∃ f, b.add s offset = .error f ∧ f.IsLimit := by
  have hs : b.steps.size + 1 = a.steps.size + e.size := by
    have := congrArg Array.size h.steps
    simpa using this
  have hh := h.height
  unfold Assembly.add
  split
  case isTrue ht =>
    exact .inr ⟨fun hf => by have := hf.height; omega, _, rfl, .inl rfl⟩
  case isFalse ht =>
    split
    case isTrue hl => exact .inr ⟨fun hf => by have := hf.size; omega, _, rfl, .inr rfl⟩
    case isFalse hl =>
      refine .inl ⟨⟨ho, by omega, by omega⟩, ?_⟩
      rw [h.height, h.steps, h.heights, h.opened, rootOf, ← hs]
      rfl

end Assembly

end MessageCatalog.Plural
