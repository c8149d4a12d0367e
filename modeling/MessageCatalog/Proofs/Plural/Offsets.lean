import MessageCatalog.Plural.Parser
import MessageCatalog.Proofs.Plural.Lexing
import MessageCatalog.Text.Cursor

namespace MessageCatalog

open Text

namespace Text

theorem byteLength_of_ascii {cs : List Char} (h : ∀ c ∈ cs, c.utf8Size = 1) :
    byteLength cs = cs.length := by
  induction cs
  case nil => rfl
  case cons c cs ih =>
    have ⟨hc, hcs⟩ := List.forall_mem_cons.mp h
    rw [byteLength, hc, ih hcs, List.length_cons, Nat.add_comm]

theorem utf8Size_of_isBlank {c : Char} (h : isBlank c) : c.utf8Size = 1 := by
  simp only [isBlank, decide_eq_true_eq] at h
  rcases h with h | h | h | h | h <;> subst h <;> rfl

theorem utf8Size_of_isDigit {c : Char} (h : c.isDigit) : c.utf8Size = 1 := by
  have ⟨_, h⟩ := Char.isDigit_iff_toNat.mp h
  exact Char.utf8Size_eq_one_iff.mpr (UInt32.le_iff_toNat_le.mpr (Nat.le_trans h (by decide)))

namespace Cursor

variable {c : Cursor} {n offset : Nat}

-- Where reading can get to: the offset of a character ahead, or of the end.
def Ahead (c : Cursor) (offset : Nat) : Prop :=
  ∃ n, offset = (c.skip n).offset

theorem ahead_offset (c : Cursor) : c.Ahead c.offset :=
  ⟨0, rfl⟩

theorem ahead_last (c : Cursor) : c.Ahead c.last :=
  ⟨c.rest.length, by simp [skip, last]⟩

theorem Ahead.of_skip (h : (c.skip n).Ahead offset) : c.Ahead offset := by
  have ⟨m, h⟩ := h
  exact ⟨n + m, by rw [h, skip_skip]⟩

theorem Ahead.le (h : c.Ahead offset) : c.offset ≤ offset ∧ offset ≤ c.last := by
  have ⟨n, h⟩ := h
  have hl := c.last_skip n
  simp only [last, skip] at *
  omega

theorem skip_append {xs ys : List Char} (h : c.rest = xs ++ ys) :
    c.skip xs.length = ⟨c.offset + byteLength xs, ys⟩ := by
  simp [skip, h]

end Cursor
end Text

namespace Plural

theorem Lexeme.byteLength_of_spells {w : List Char} {l : Lexeme} (h : Spells w l) :
    byteLength w = w.length := by
  cases h
  case number ne digits _ => exact byteLength_of_ascii fun c hc => utf8Size_of_isDigit (digits c hc)
  case spelled mem =>
    have table : ∀ x ∈ spellings, byteLength x.fst = x.fst.length := by decide
    exact table _ mem

namespace Token

open Lexeme

-- Tokens of the text at a cursor, in order.
structure Placed (c : Cursor) (ts : List Token) : Prop where
  ahead      : ∀ t ∈ ts, c.Ahead t.offset ∧ t.offset < c.last
  increasing : ts.Pairwise (·.offset < ·.offset)

variable {c : Cursor} {cs : List Char} {l : Lexeme} {ts : List Token} {f : Fault}

theorem skip_blank {b : Char} (hb : isBlank b) (hr : c.rest = b :: cs) :
    c.skip 1 = ⟨c.offset + 1, cs⟩ := by
  have h : c.skip [b].length = _ := Cursor.skip_append hr
  rwa [byteLength_of_ascii (by simp [utf8Size_of_isBlank hb])] at h

theorem skip_of_read {n : Nat} (h : Lexeme.read c.rest = .ok (l, n)) :
    c.skip n = ⟨c.offset + n, c.rest.drop n⟩ := by
  have ⟨w, rest, hr, hn, hw, _⟩ := spells_of_read h
  rw [← hn, Cursor.skip_append hr, byteLength_of_spells hw, hr, List.drop_left]

theorem Placed.skip {n : Nat} (h : Placed (c.skip n) ts) : Placed c ts where
  ahead t ht :=
    have ⟨ha, hl⟩ := h.ahead t ht
    ⟨ha.of_skip, c.last_skip n ▸ hl⟩
  increasing := h.increasing

theorem Placed.cons {n : Nat} (h : Placed (c.skip n) ts) (hn : c.offset < (c.skip n).offset) :
    Placed c (⟨l, c.offset⟩ :: ts) where
  ahead := by
    have hl : (c.skip n).offset ≤ c.last := c.last_skip n ▸ Nat.le_add_right ..
    exact List.forall_mem_cons.mpr ⟨⟨c.ahead_offset, Nat.lt_of_lt_of_le hn hl⟩, h.skip.ahead⟩
  increasing := by
    refine List.pairwise_cons.mpr ⟨fun t ht => ?_, h.increasing⟩
    exact Nat.lt_of_lt_of_le hn (h.ahead t ht).left.le.left

theorem placed_of_scan {offset : Nat} (h : scan offset cs = .ok ts) : Placed ⟨offset, cs⟩ ts := by
  fun_induction scan offset cs generalizing ts
  case case1 =>
    cases h
    exact ⟨by simp, .nil⟩
  case case2 offset c cs hb ih =>
    have hs : Cursor.skip ⟨offset, c :: cs⟩ 1 = _ := skip_blank hb rfl
    exact .skip (hs ▸ ih h)
  case case3 => cases h
  case case4 offset c cs _ l n hr ih =>
    obtain ⟨us, hu, he⟩ := Outcome.bind_eq_ok.mp h
    cases he
    have hs : Cursor.skip ⟨offset, c :: cs⟩ n = _ := skip_of_read hr
    refine .cons (hs ▸ ih hu) ?_
    rw [hs]
    exact Nat.lt_add_of_pos_right (length_pos_of_read hr)

theorem ahead_of_scan {offset : Nat} (h : scan offset cs = .error f) :
    Cursor.Ahead ⟨offset, cs⟩ f.offset := by
  fun_induction scan offset cs
  case case1 => cases h
  case case2 offset c cs hb ih =>
    have hs : Cursor.skip ⟨offset, c :: cs⟩ 1 = _ := skip_blank hb rfl
    exact .of_skip (hs ▸ ih h)
  case case3 =>
    cases h
    exact Cursor.ahead_offset _
  case case4 offset c cs _ l n hr ih =>
    have hs : Cursor.skip ⟨offset, c :: cs⟩ n = _ := skip_of_read hr
    exact .of_skip (hs ▸ ih (Outcome.bind_pure_eq_error.mp h))

-- The tokens before an offset are those before the token that stands there.
theorem Placed.filter_eq_take (h : Placed c ts) (n : Nat) :
    ts.filter (·.offset < nextOffset c.last (ts.drop n)) = ts.take n := by
  have hlt : ∀ t ∈ ts.take n, t.offset < nextOffset c.last (ts.drop n) := by
    intro t ht
    cases hd : ts.drop n
    case nil      => exact (h.ahead t (List.mem_of_mem_take ht)).right
    case cons u _ =>
      have hp := h.increasing
      rw [← ts.take_append_drop n, List.pairwise_append] at hp
      exact hp.right.right t ht u (by simp [hd])
  have hle : ∀ t ∈ ts.drop n, nextOffset c.last (ts.drop n) ≤ t.offset := by
    intro t ht
    have hp := h.increasing.sublist (ts.drop_sublist n)
    generalize ts.drop n = us at ht hp
    cases hp
    case nil => cases ht
    case cons hp _ =>
      cases ht
      case head      => exact Nat.le_refl _
      case tail _ ht => exact Nat.le_of_lt (hp t ht)
  have htake : (ts.take n).filter (·.offset < nextOffset c.last (ts.drop n)) = ts.take n :=
    List.filter_eq_self.mpr fun t ht => decide_eq_true (hlt t ht)
  have hdrop : (ts.drop n).filter (·.offset < nextOffset c.last (ts.drop n)) = [] :=
    List.filter_eq_nil_iff.mpr fun t ht => by simp [hle t ht]
  have h := congrArg (List.filter (·.offset < nextOffset c.last (ts.drop n)))
    (ts.take_append_drop n)
  rwa [List.filter_append, htake, hdrop, List.append_nil, eq_comm] at h

end Token
end Plural
end MessageCatalog
