import MessageCatalog.Proofs.Plural.Phrases

namespace MessageCatalog.Plural

variable {a : Assembly} {c c' : Category} {e : Expr} {d j k n : Nat} {ts ts' us : List Token}

namespace Token

-- The lexemes are the same up to index `k`, or up to the end if that comes first.
def Alike (k : Nat) (ts ts' : List Token) : Prop :=
  (ts.map lexeme).take (k + 1) = (ts'.map lexeme).take (k + 1)

variable {t : Token}

theorem drop_succ (h : ts.drop n = t :: us) : ts.drop (n + 1) = us := by
  rw [← List.tail_drop, h]
  rfl

theorem lexemes_take_succ (h : ts.drop n = t :: us) :
    (ts.take (n + 1)).map lexeme = (ts.take n).map lexeme ++ [t.lexeme] := by
  rw [List.take_add, h]
  simp

namespace Alike

theorem mono (h : Alike k ts ts') (hj : j ≤ k) : Alike j ts ts' := by
  have h := congrArg (List.take (j + 1)) h
  rwa [List.take_take, List.take_take, Nat.min_eq_left (by omega)] at h

theorem drop (h : Alike (n + k) ts ts') : Alike k (ts.drop n) (ts'.drop n) := by
  have h := congrArg (List.drop n) h
  rwa [Nat.add_assoc, ← List.take_drop, ← List.take_drop, ← List.map_drop, ← List.map_drop] at h

theorem take (h : Alike k ts ts') (hn : n ≤ k + 1) :
    (ts'.take n).map lexeme = (ts.take n).map lexeme := by
  have h := congrArg (List.take n) h
  rw [List.take_take, List.take_take, Nat.min_eq_left hn] at h
  rw [List.map_take, List.map_take, h]

theorem cons (h : Alike k (t :: ts) ts') : ∃ t' us, ts' = t' :: us ∧ t'.lexeme = t.lexeme := by
  cases ts'
  case nil => cases h
  case cons t' us => exact ⟨t', us, rfl, (List.cons.inj h).left.symm⟩

theorem tail {t' : Token} (h : Alike (k + 1) (t :: ts) (t' :: ts')) : Alike k ts ts' :=
  (List.cons.inj h).right

-- A token is found in the same place, though maybe at another offset.
theorem drop_cons {l : Lexeme} {offset : Nat} (h : Alike n ts ts')
    (hd : ts.drop n = ⟨l, offset⟩ :: us) (last : Nat) :
    ts'.drop n = ⟨l, nextOffset last (ts'.drop n)⟩ :: ts'.drop (n + 1) := by
  have h := drop (k := 0) h
  rw [hd] at h
  have ⟨⟨l', offset'⟩, us', hd', hl⟩ := h.cons
  cases hl
  rw [hd', drop_succ hd']
  rfl

theorem ne_cons {l : Lexeme} (h : Alike k ts ts') (hn : ∀ offset us, ts ≠ ⟨l, offset⟩ :: us) :
    ∀ offset us, ts' ≠ ⟨l, offset⟩ :: us := by
  rintro offset us rfl
  have ⟨⟨l', offset'⟩, us', ht, hl⟩ := cons (Eq.symm h)
  cases hl
  exact hn offset' us' ht

theorem nil (h : Alike k [] ts') : ts' = [] := by
  cases ts'
  case nil  => rfl
  case cons => cases h

theorem stops (h : Alike k ts ts') (hs : c.Stops ts) : c.Stops ts' := by
  cases ts
  case nil      => exact h.nil ▸ hs
  case cons t _ =>
    have ⟨t', us, hts, ht⟩ := h.cons
    rw [hts, Category.stops_cons, ht]
    exact Category.stops_cons.mp hs

end Alike
end Token

open Token

-- Lexemes that a phrase of the category can start with.
def Viable (c : Category) (ls : List Lexeme) : Prop :=
  ∃ more e d, Derives c (ls ++ more) e d

-- The count is a phrase of every category.
theorem derives_count (c : Category) : ∃ d, Derives c [.count] .count d := by
  have hu : Derives .unary [.count] .count 0 := .term .count
  have hb (tiers : Nat) : Derives (.binary tiers) [.count] .count 0 := by
    induction tiers
    case zero      => exact .unary hu
    case succ _ ih => exact .tighter ih
  cases c
  case expression => exact ⟨_, .plain (hb _)⟩
  case binary     => exact ⟨_, hb _⟩
  case unary      => exact ⟨_, hu⟩
  case term       => exact ⟨_, .count⟩

namespace Viable

variable {xs ys ls : List Lexeme} {x y : Expr} {d' : Nat}

theorem nil (c : Category) : Viable c [] :=
  ⟨_, _, derives_count c⟩

theorem of_eq (more : List Lexeme) (h : Derives c xs e d) (hx : xs = ls ++ more) : Viable c ls :=
  ⟨more, e, d, hx ▸ h⟩

theorem of_derives (h : Derives c ls e d) : Viable c ls :=
  .of_eq [] h ls.append_nil.symm

theorem imp (h : Viable c ls) (hd : ∀ ls e d, Derives c ls e d → ∃ d, Derives c' ls e d) :
    Viable c' ls := by
  have ⟨more, e, d, h⟩ := h
  exact ⟨more, e, hd _ e d h⟩

theorem whenTrue (hx : Derives (.binary BinaryOp.tiers) xs x d) (h : Viable .expression ls) :
    Viable .expression (xs ++ .question :: ls) := by
  have ⟨more, y, _, h⟩ := h
  have ⟨_, hz⟩ := derives_count .expression
  exact .of_eq (more ++ [.colon, .count]) (.conditional hx h hz) (by simp)

theorem whenFalse (hx : Derives (.binary BinaryOp.tiers) xs x d)
    (hy : Derives .expression ys y d') (h : Viable .expression ls) :
    Viable .expression (xs ++ .question :: (ys ++ .colon :: ls)) := by
  have ⟨more, z, _, h⟩ := h
  exact .of_eq more (.conditional hx hy h) (by simp)

theorem right {op : BinaryOp} (hx : Derives (.binary (op.tier + 1)) xs x d)
    (h : Viable (.binary op.tier) ls) :
    Viable (.binary (op.tier + 1)) (xs ++ .operator op :: ls) := by
  have ⟨more, y, _, h⟩ := h
  exact .of_eq more (.of_tier hx h) (by simp)

theorem signed {l : Lexeme} {op? : Option UnaryOp} (hl : l.unary? = some op?)
    (h : Viable .unary ls) : Viable .unary (l :: ls) := by
  have ⟨more, e, _, h⟩ := h
  exact .of_eq more (h.signed hl) rfl

theorem parentheses (h : Viable .expression ls) : Viable .term (.openParen :: ls) := by
  have ⟨more, e, d, h⟩ := h
  exact .of_eq (more ++ [.closeParen]) (.parentheses h) (by simp)

end Viable

namespace Parsed

-- A phrase of the first `n` tokens has been read, which may be the first operand of what is left
-- associative.
structure Follows (p : Parsed ts) (c : Category) (a : Assembly) (n : Nat) (e : Expr) (d : Nat) :
    Prop where
  derives : Derives c ((ts.take n).map lexeme) e d
  fits    : a.Fits e d
  reads   : p.Reads a e (ts.drop n)
  stops   : c.first.Stops p.rest

-- The same as `p`, on other tokens, of which the first `n` have been read.
structure Repeats (p : Parsed ts) (p' : Parsed ts') (n : Nat) : Prop where
  root     : p'.root = p.root
  assembly : p'.assembly = p.assembly
  rest     : p'.rest = ts'.drop n

variable {p : Parsed ts} {last : Nat}

theorem exists_follows (ha : a.Valid) (h : c.read last ts a = .ok p) :
    ∃ n e d, p.Follows c a n e d ∧ c.Stops p.rest := by
  have ⟨⟨us, e, d, hts, hd⟩, hs⟩ := c.phrase_of_read h
  cases settles_of_derives hd last hts hs ha
  case inl hx =>
    have ⟨hf, p', hp, hx⟩ := hx
    cases h.symm.trans hx
    have ht : ts.take us.length = us := by simp [hts]
    have hr : ts.drop us.length = p.rest := by simp [hts]
    exact ⟨us.length, e, d, ⟨ht.symm ▸ hd, hf, hr.symm ▸ hp, hs.first⟩, hs⟩
  case inr hx =>
    have ⟨_, f, hx, _⟩ := hx
    cases h.symm.trans hx

namespace Follows

theorem valid (h : p.Follows c a n e d) (ha : a.Valid) : p.assembly.Valid :=
  h.reads.assembly ▸ ha.append e

theorem resumes (h : p.Follows c a n e d) (ha : a.Valid) (hts : Alike n ts ts') (last : Nat) :
    ∃ p' : Parsed ts', c.read last ts' a = c.resume last p' ∧ p.Repeats p' n := by
  have hs := (Alike.drop (k := 0) hts).stops (h.reads.rest ▸ h.stops)
  have hd := hts.take (Nat.le_succ n) ▸ h.derives
  cases reaches_of_derives hd last (List.take_append_drop n ts').symm rfl hs ha
  case inr hx => exact absurd h.fits hx.left
  case inl hx =>
    have ⟨_, p', hp, hx⟩ := hx
    exact ⟨p', hx, hp.root.trans h.reads.root.symm, hp.assembly.trans h.reads.assembly.symm,
      hp.rest⟩

theorem repeats (h : p.Follows c a n e d) (hs : c.Stops p.rest) (ha : a.Valid)
    (hts : Alike n ts ts') (last : Nat) :
    ∃ p' : Parsed ts', c.read last ts' a = .ok p' ∧ p.Repeats p' n := by
  have ⟨p', hx, hp⟩ := h.resumes ha hts last
  have hs := (Alike.drop (k := 0) hts).stops (h.reads.rest ▸ hs)
  exact ⟨p', hx.trans (Category.resume_of_stops (hp.rest ▸ hs)), hp⟩

end Follows
end Parsed

end MessageCatalog.Plural
