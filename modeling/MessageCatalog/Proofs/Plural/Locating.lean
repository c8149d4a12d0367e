import MessageCatalog.Proofs.Plural.Diagnosis
import MessageCatalog.Proofs.Plural.Shape

namespace MessageCatalog.Plural

open Text

variable {c e : Cursor} {f : Fault} {offset : Nat} {ts : List Token} {α β : Type}

theorem Token.Placed.ahead_nextOffset (h : Placed c ts) (n : Nat) :
    c.Ahead (nextOffset c.last (ts.drop n)) := by
  cases hd : ts.drop n
  case nil      => exact c.ahead_last
  case cons t _ => exact (h.ahead t (List.mem_of_mem_drop (hd ▸ List.mem_cons_self ..))).left

theorem Program.ahead_of_parse (h : parse c = .error f) : c.Ahead f.offset := by
  rw [parse_eq] at h
  cases Outcome.bind_eq_error.mp h
  case inl h => exact Token.ahead_of_scan h
  case inr h =>
    have ⟨ts, hs, h⟩ := h
    have ⟨i, _, he, _⟩ := ofTokens_eq_error h
    rw [offset_of_ofTokens h he]
    exact (Token.placed_of_scan hs).ahead_nextOffset i

namespace Rule

-- Reading on gives what `post` says of a cursor further on, or a fault ahead.
inductive Advances (c : Cursor) (post : Cursor → α → Prop) : Except Fault α → Prop
  | ok {a : α} (n : Nat) (h : post (c.skip n) a) : Advances c post (.ok a)
  | error {f : Fault} (h : c.Ahead f.offset) : Advances c post (.error f)

theorem Advances.bind {post : Cursor → α → Prop} {post' : Cursor → β → Prop} {x : Except Fault α}
    {k : α → Except Fault β} (hx : Advances c post x)
    (hk : ∀ n a, post (c.skip n) a → Advances (c.skip n) post' (k a)) :
    Advances c post' (x >>= k) := by
  cases hx
  case error h  => exact .error h
  case ok a n h =>
    have hk := hk n a h
    rw [Outcome.ok_bind]
    generalize k a = y at hk ⊢
    cases hk
    case error h  => exact .error h.of_skip
    case ok b m h => exact .ok (n + m) (c.skip_skip n m ▸ h)

theorem advances_expect (word : List Char) (reason : Reason) (c : Cursor) :
    Advances c (· = ·) (expect word reason c) := by
  simp only [expect]
  split
  case isTrue  => exact .ok _ (c.skip_skip ..).symm
  case isFalse => exact .error ⟨_, rfl⟩

theorem advances_readForms (c : Cursor) : Advances c (fun c' a => c' = a.2) (readForms c) := by
  simp only [readForms]
  split
  case isTrue  => exact .error ⟨_, rfl⟩
  case isFalse => exact .ok _ (c.skip_skip ..).symm

-- The expression of a rule is what stands at `c` before the last semicolon.
structure Encloses (c expression : Cursor) : Prop where
  offset : expression.offset = c.offset
  rest   : ∃ after, Blanks after ∧ c.rest = expression.rest ++ ';' :: after

theorem advances_readExpression (c : Cursor) : Advances c Encloses (readExpression c) := by
  cases h : readExpression c
  case ok e =>
    refine .ok 0 ⟨?_, rest_of_readExpression h⟩
    unfold readExpression at h
    split at h
    case h_1 => cases h; rfl
    case h_2 => cases h
  case error f =>
    unfold readExpression at h
    split at h
    case h_1 => cases h
    case h_2 => cases h; exact .error c.ahead_last

theorem advances_split (text : List Char) :
    Advances (.start text) (fun c a => Encloses c a.2) (split text) := by
  unfold split
  refine (advances_expect _ _ _).bind fun _ c₀ h₀ => h₀ ▸ ?_
  refine (advances_expect _ _ _).bind fun _ c₁ h₁ => h₁ ▸ ?_
  refine (advances_readForms _).bind fun _ (forms, c₂) h₂ => ?_
  simp only at h₂
  subst h₂
  refine (advances_expect _ _ _).bind fun _ c₃ h₃ => h₃ ▸ ?_
  split
  case isTrue  => exact .error (Cursor.ahead_offset _)
  case isFalse =>
    refine (advances_expect _ _ _).bind fun _ c₄ h₄ => h₄ ▸ ?_
    refine (advances_expect _ _ _).bind fun _ c₅ h₅ => h₅ ▸ ?_
    exact (advances_readExpression _).bind fun _ e h => .ok 0 h

theorem Encloses.ahead (h : Encloses c e) (ha : e.Ahead offset) : c.Ahead offset := by
  have ⟨n, ho⟩ := ha
  have ⟨_, _, hr⟩ := h.rest
  refine ⟨min n e.rest.length, ?_⟩
  rw [ho, Cursor.skip, Cursor.skip, h.offset, hr,
    List.take_append_of_le_length (Nat.min_le_right ..), ← List.take_eq_take_min]

variable {source : String} {forms : Nat}

theorem encloses_of_split {text : List Char} (h : split text = .ok (forms, e)) :
    ∃ n, Encloses ((Cursor.start text).skip n) e := by
  have ha := h ▸ advances_split text
  cases ha
  case ok n he => exact ⟨n, he⟩

-- With the shape of a rule, only the expression can be at fault.
theorem error_of_split (hs : split source.toList = .ok (forms, e)) (h : parse source = .error f) :
    Program.parse e = .error f := by
  rw [parse, hs, Outcome.ok_bind] at h
  exact Outcome.bind_pure_eq_error.mp h

theorem ahead_of_parse (h : parse source = .error f) :
    (Cursor.start source.toList).Ahead f.offset := by
  cases hs : split source.toList
  case error g =>
    have ha := hs ▸ advances_split source.toList
    rw [parse, hs] at h
    cases h
    cases ha
    case error ha => exact ha
  case ok a =>
    have ⟨n, he⟩ := encloses_of_split hs
    exact (he.ahead (Program.ahead_of_parse (error_of_split hs h))).of_skip

end Rule

end MessageCatalog.Plural
