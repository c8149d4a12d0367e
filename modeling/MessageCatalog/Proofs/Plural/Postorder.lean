import Mathlib.Tactic
import MessageCatalog.Plural.Program

namespace MessageCatalog.Plural.Expr

variable {α : Type}

-- The parts of an expression, operands first.
def postorder : Expr → List Expr
  | count             => [count]
  | literal v         => [literal v]
  | unary op e        => e.postorder ++ [unary op e]
  | binary op l r     => l.postorder ++ r.postorder ++ [binary op l r]
  | conditional t a b => t.postorder ++ a.postorder ++ b.postorder ++ [conditional t a b]

@[simp]
theorem length_postorder (e : Expr) : e.postorder.length = e.size := by
  induction e <;> simp_all [postorder, size, Nat.add_assoc]

@[simp]
theorem length_steps (first : Nat) (e : Expr) : (e.steps first).length = e.size := by
  induction e generalizing first <;> simp_all [steps, size, Nat.add_assoc]

theorem size_pos (e : Expr) : 0 < e.size := by
  cases e <;> simp [size]

theorem postorder_ends (e : Expr) : ∃ es, e.postorder = es ++ [e] := by
  cases e
  case count | literal => exact ⟨[], rfl⟩
  all_goals exact ⟨_, rfl⟩

-- Appends the cells of an expression.
def layOut (f : Expr → α) (cells : Array α) (e : Expr) : Array α :=
  cells ++ (e.postorder.map f).toArray

variable {f : Expr → α} {cells : Array α}

@[simp]
theorem size_layOut (e : Expr) : (e.layOut f cells).size = cells.size + e.size := by
  simp [layOut]

theorem getD_layOut_of_lt {i : Nat} (h : i < cells.size) (e : Expr) (v : α) :
    (e.layOut f cells).getD i v = cells.getD i v := by
  simp [layOut, Array.getElem?_append_left h]

-- The last cell of an expression is its own.
theorem getD_layOut (e : Expr) (v : α) :
    (e.layOut f cells).getD (cells.size + e.size - 1) v = f e := by
  have ⟨es, he⟩ := e.postorder_ends
  have hs : e.size = es.length + 1 := by simp [← e.length_postorder, he]
  simp [layOut, he, hs]

theorem operands_binary (l r : Expr) (v : α) :
    (r.layOut f (l.layOut f cells)).getD (cells.size + l.size - 1) v = f l ∧
      (r.layOut f (l.layOut f cells)).getD (cells.size + l.size + r.size - 1) v = f r := by
  have hl := l.size_pos
  constructor
  · rw [getD_layOut_of_lt (by rw [size_layOut]; omega), getD_layOut]
  · rw [← l.size_layOut (f := f), getD_layOut]

theorem operands_conditional (t a b : Expr) (v : α) :
    (b.layOut f (a.layOut f (t.layOut f cells))).getD (cells.size + t.size - 1) v = f t ∧
      (b.layOut f (a.layOut f (t.layOut f cells))).getD (cells.size + t.size + a.size - 1) v = f a ∧
      (b.layOut f (a.layOut f (t.layOut f cells))).getD
        (cells.size + t.size + a.size + b.size - 1) v = f b := by
  have ht := t.size_pos
  have hab := @operands_binary α f (t.layOut f cells) a b v
  rw [size_layOut] at hab
  refine ⟨?_, hab⟩
  rw [getD_layOut_of_lt (by rw [size_layOut, size_layOut]; omega), (operands_binary t a v).left]

theorem back_layOut (e : Expr) : (e.layOut f cells).back? = some (f e) := by
  have ⟨es, he⟩ := e.postorder_ends
  simp [layOut, he]

theorem layOut_unary (op : UnaryOp) (e : Expr) :
    (unary op e).layOut f cells = (e.layOut f cells).push (f (unary op e)) := by
  exact Array.toList_inj.mp (by simp [layOut, postorder])

theorem layOut_binary (op : BinaryOp) (l r : Expr) :
    (binary op l r).layOut f cells = (r.layOut f (l.layOut f cells)).push (f (binary op l r)) := by
  exact Array.toList_inj.mp (by simp [layOut, postorder])

theorem layOut_conditional (t a b : Expr) :
    (conditional t a b).layOut f cells =
      (b.layOut f (a.layOut f (t.layOut f cells))).push (f (conditional t a b)) := by
  exact Array.toList_inj.mp (by simp [layOut, postorder])

-- Puts the expression of a step on a stack, in place of its operands.
def shift : List Expr → Step → List Expr
  | es, .count                       => count :: es
  | es, .literal v                   => literal v :: es
  | e :: es, .unary op _             => unary op e :: es
  | r :: l :: es, .binary op _ _     => binary op l r :: es
  | b :: a :: t :: es, .conditional _ _ _ => conditional t a b :: es
  | es, _                            => es

theorem foldl_shift_steps (first : Nat) (e : Expr) (es : List Expr) :
    (e.steps first).foldl shift es = e :: es := by
  induction e generalizing first es
  case count | literal => rfl
  case unary op e ih => simp [steps, ih, shift]
  case binary op l r ihl ihr => simp [steps, ihl, ihr, shift]
  case conditional t a b iht iha ihb => simp [steps, iht, iha, ihb, shift]

-- An expression can be told from its code.
theorem program_injective : Function.Injective program := by
  intro e e' h
  have hs : e.steps 0 = e'.steps 0 := by simpa [program] using h
  have he := foldl_shift_steps 0 e []
  rw [hs, foldl_shift_steps] at he
  exact (List.cons.inj he).left.symm

end MessageCatalog.Plural.Expr
