import MessageCatalog.Proofs.Bytewise.Text
import MessageCatalog.Proofs.Plural.Shape
import MessageCatalog.Proofs.Plural.Spacing

namespace MessageCatalog.Plural

open Text Bytewise

namespace Lexeme

variable {l : Lexeme} {w cs ds : List Char} {c : Char} {reason : Reason}

theorem word_of_runsInto (h : Spells w l) (hc : l.runsInto c) : Word (w ++ [c]) := by
  cases h
  case number ne digits _ =>
    refine .numeral (by simp) fun d hd => ?_
    cases List.mem_append.mp hd
    case inl hd => exact digits d hd
    case inr hd => exact List.mem_singleton.mp hd ▸ hc
  case spelled mem =>
    obtain ⟨listed, rfl⟩ := mem_spellings.mp mem
    have equals (m : Lexeme) (hm : m ∈ spelled) (ht : m.text = l.text ++ ['=']) (he : c = '=') :
        Word (l.text ++ [c]) := by
      rw [he, ← ht]
      exact .spelled (text_mem_spellings hm)
    unfold runsInto at hc
    split at hc
    case h_1 => simp [spelled] at listed
    case h_2 => exact equals (operator .notEqual) (by decide) rfl (of_decide_eq_true hc)
    case h_3 => exact equals (operator .lessEqual) (by decide) rfl (of_decide_eq_true hc)
    case h_4 => exact equals (operator .greaterEqual) (by decide) rfl (of_decide_eq_true hc)
    case h_5 => cases hc

-- A longest lexeme does not run into the character behind it.
theorem not_runsInto_of_longest (h : Spells w l) (hl : Longest w (w ++ cs)) (hc : c ∈ cs.head?) :
    l.runsInto c = false := by
  by_contra hr
  have hw := word_of_runsInto h (eq_true_of_ne_false hr)
  obtain ⟨cs, rfl⟩ := List.head?_eq_some_iff.mp hc
  have hle := hl _ hw ⟨cs, by simp⟩
  simp at hle

theorem utf8Size_of_runsInto (h : l.runsInto c) : c.utf8Size = 1 := by
  have equals (he : decide (c = '=') = true) : c.utf8Size = 1 := by
    rw [of_decide_eq_true he]
    rfl
  unfold runsInto at h
  split at h
  case h_1 => exact utf8Size_of_isDigit h
  case h_5 => cases h
  all_goals exact equals h

-- A longest lexeme is one in a shorter text too.
theorem Longest.of_append (h : Longest w (w ++ (cs ++ ds))) : Longest w (w ++ cs) := by
  intro w' hw hp
  refine h w' hw (hp.trans ?_)
  rw [← List.append_assoc]
  exact List.prefix_append ..

-- What no lexeme can be read from.
inductive Illegible : List Char → Reason → Prop
  | numberTooLarge {w cs : List Char} (ne : w ≠ []) (digits : ∀ c ∈ w, c.isDigit)
      (longest : ∀ c ∈ cs.head?, ¬c.isDigit) (large : literalBound ≤ decimalValue w) :
      Illegible (w ++ cs) .numberTooLarge
  | unexpectedCharacter {c : Char} {cs : List Char} (blank : isBlank c = false)
      (begins : ∀ w l, Spells w l → ¬w <+: c :: cs) : Illegible (c :: cs) .unexpectedCharacter

theorem illegible_of_read (hb : isBlank c = false) (h : read (c :: cs) = .error reason) :
    Illegible (c :: cs) reason := by
  unfold read at h
  split at h
  case h_1 hd =>
    split at h
    case h_1 => cases h
    case h_2 hf =>
      cases h
      refine .unexpectedCharacter hb ?_
      rintro w l hw ⟨ds, hds⟩
      cases hw
      case number ne digits _ =>
        rw [← hds, List.takeWhile_append_of_pos digits] at hd
        exact ne (List.append_eq_nil_iff.mp hd).left
      case spelled mem =>
        obtain ⟨listed, rfl⟩ := mem_spellings.mp mem
        refine List.find?_eq_none.mp hf l listed ?_
        exact List.isPrefixOf_iff_prefix.mpr ⟨ds, hds⟩
  case h_2 hd =>
    split at h
    case isTrue => cases h
    case isFalse hl =>
      cases h
      have hn := List.head?_dropWhile_not Char.isDigit (c :: cs)
      rw [← List.takeWhile_append_dropWhile (p := Char.isDigit) (l := c :: cs)]
      refine .numberTooLarge hd (fun _ hm => List.mem_takeWhile_imp hm) (fun d hd => ?_)
        (Nat.le_of_not_lt hl)
      simp_all

end Lexeme

namespace Token

open Lexeme

-- The place of a lexeme in a text: the offsets of its first byte, and of the one behind it.
structure Span where
  lexeme : Lexeme
  first : Nat
  last : Nat

-- The token at a place of a text that starts at an offset itself.
def Span.token (base : Nat) (x : Span) : Token where
  lexeme := x.lexeme
  offset := base + x.first

-- The lexemes of a text from an offset on. They stand in it, in order, and outside of them there
-- are blanks only.
structure Partition (s : String) (start : Nat) (spans : List Span) : Prop where
  ahead   : ∀ x ∈ spans, start ≤ x.first
  stands  : ∀ x ∈ spans, ∃ w, Spells w x.lexeme ∧
    cut s x.first x.last = (.ok (.ofList w) : Guarded Fault String)
  ordered : spans.Pairwise (·.last ≤ ·.first)
  outside : ∀ i b, start ≤ i → byte? s i = some b → (∀ x ∈ spans, ¬(x.first ≤ i ∧ i < x.last)) →
    isBlank b
  longest : ∀ x ∈ spans, ∀ b, byte? s x.last = some b → x.lexeme.runsInto b = false

variable {s : String} {base offset i : Nat} {w cs : List Char} {l : Lexeme} {c : Char}
  {ts : List Token} {spans : List Span} {f : Fault}

-- Behind a lexeme.
theorem in_of_spells (h : Cursor.In ⟨i, w ++ cs⟩ s) (hw : Spells w l) :
    Cursor.In ⟨i + w.length, cs⟩ s := by
  have hs := h.skip w.length
  rwa [Cursor.skip_append rfl, byteLength_of_spells hw] at hs

namespace Partition

theorem nil (h : Cursor.In ⟨i, []⟩ s) : Partition s i [] where
  ahead   := nofun
  stands  := nofun
  ordered := .nil
  outside j b hj hb := by
    have hl := lt_of_byte? hb
    rw [h.utf8ByteSize_eq] at hl
    exact absurd hl (Nat.not_lt_of_le hj)
  longest := nofun

theorem blank (h : Cursor.In ⟨i, c :: cs⟩ s) (hc : isBlank c) (hp : Partition s (i + 1) spans) :
    Partition s i spans where
  ahead x hx := Nat.le_of_succ_le (hp.ahead x hx)
  stands  := hp.stands
  ordered := hp.ordered
  outside j b hj hb hn := by
    by_cases hi : j = i
    case neg => exact hp.outside j b (by omega) hb hn
    case pos =>
      have hb' := (h.byte?_eq_some_iff (utf8Size_of_isBlank hc)).mpr rfl
      cases (hi ▸ hb).symm.trans hb'
      exact hc
  longest := hp.longest

theorem word (h : Cursor.In ⟨i, w ++ cs⟩ s) (hw : Spells w l) (hl : Longest w (w ++ cs))
    (hp : Partition s (i + w.length) spans) :
    Partition s i (⟨l, i, i + w.length⟩ :: spans) where
  ahead   := List.forall_mem_cons.mpr
    ⟨Nat.le_refl i, fun x hx => Nat.le_trans (Nat.le_add_right ..) (hp.ahead x hx)⟩
  stands  := List.forall_mem_cons.mpr ⟨⟨w, hw, h.cut (in_of_spells h hw) rfl⟩, hp.stands⟩
  ordered := List.pairwise_cons.mpr ⟨hp.ahead, hp.ordered⟩
  outside j b hj hb hn := by
    obtain ⟨hi, hn⟩ := List.forall_mem_cons.mp hn
    dsimp only at hi
    exact hp.outside j b (by omega) hb hn
  longest := by
    refine List.forall_mem_cons.mpr ⟨fun b hb => ?_, hp.longest⟩
    by_contra hr
    have hr : l.runsInto b := eq_true_of_ne_false hr
    have hc := ((in_of_spells h hw).byte?_eq_some_iff (utf8Size_of_runsInto hr)).mp hb
    cases hr.symm.trans (not_runsInto_of_longest hw hl hc)

end Partition

theorem partition_of_scan (hs : scan offset cs = .ok ts) (ho : offset = base + i)
    (h : Cursor.In ⟨i, cs⟩ s) :
    ∃ spans, ts = spans.map (Span.token base) ∧ Partition s i spans := by
  fun_induction scan offset cs generalizing i ts
  case case1 =>
    cases hs
    exact ⟨[], rfl, .nil h⟩
  case case2 offset c cs hb ih =>
    have hi : Cursor.In ⟨i + 1, cs⟩ s := by
      have hs := h.skip 1
      rwa [skip_blank (c := ⟨i, c :: cs⟩) hb rfl] at hs
    obtain ⟨spans, hts, hp⟩ := ih hs (by omega) hi
    exact ⟨spans, hts, hp.blank h hb⟩
  case case3 => cases hs
  case case4 offset c cs _ l n hr ih =>
    obtain ⟨us, hu, he⟩ := Outcome.bind_eq_ok.mp hs
    cases he
    obtain ⟨w, rest, hc, hn, hw, hl⟩ := spells_of_read hr
    subst hn
    rw [hc] at h hl hu ih
    rw [List.drop_left] at hu ih
    obtain ⟨spans, hts, hp⟩ := ih hu (by omega) (in_of_spells h hw)
    exact ⟨⟨l, i, i + w.length⟩ :: spans, by rw [hts, ho]; rfl, hp.word h hw hl⟩

-- The text in front of a fault is read, and no lexeme is where the fault is.
theorem error_of_scan (h : scan offset cs = .error f) :
    ∃ before after ts, cs = before ++ after ∧ f.offset = offset + byteLength before ∧
      scan offset before = .ok ts ∧ Illegible after f.reason := by
  fun_induction scan offset cs
  case case1 => cases h
  case case2 offset c cs hb ih =>
    obtain ⟨before, after, ts, hcs, ho, hs, hu⟩ := ih h
    refine ⟨c :: before, after, ts, by rw [hcs]; rfl, ?_, by rw [scan_blank hb, hs], hu⟩
    rw [ho, byteLength, utf8Size_of_isBlank hb, Nat.add_assoc]
  case case3 offset c cs hb reason hr =>
    cases h
    exact ⟨[], c :: cs, [], rfl, rfl, by rw [scan], illegible_of_read (by simpa using hb) hr⟩
  case case4 offset c cs _ l n hr ih =>
    obtain ⟨w, rest, hc, hn, hw, hl⟩ := spells_of_read hr
    subst hn
    rw [hc, List.drop_left] at ih
    rw [hc, List.drop_left] at h
    obtain ⟨before, after, ts, hcs, ho, hs, hu⟩ := ih (Outcome.bind_pure_eq_error.mp h)
    rw [hc, hcs] at hl ⊢
    refine ⟨w ++ before, after, ⟨l, offset⟩ :: ts, by simp, ?_, ?_, hu⟩
    · rw [ho, byteLength_append, byteLength_of_spells hw, Nat.add_assoc]
    · rw [scan_word hw hl.of_append, hs]
      rfl

-- What the tokens of a text come to.
inductive Scanned (s : String) (base : Nat) : Except Fault (List Token) → Prop
  | ok {spans : List Span} (partition : Partition s 0 spans) :
      Scanned s base (.ok (spans.map (Span.token base)))
  | error {before after : List Char} {ts : List Token} {reason : Reason}
      (text : s.toList = before ++ after) (tokens : scan base before = .ok ts)
      (illegible : Illegible after reason) :
      Scanned s base (.error ⟨reason, base + byteLength before⟩)

theorem scanned (s : String) (base : Nat) : Scanned s base (scan base s.toList) := by
  cases hs : scan base s.toList
  case ok ts =>
    obtain ⟨spans, rfl, hp⟩ := partition_of_scan hs rfl (Cursor.In.start s)
    exact .ok hp
  case error f =>
    obtain ⟨before, after, ts, ht, ho, hb, hu⟩ := error_of_scan hs
    obtain ⟨reason, offset⟩ := f
    cases ho
    exact .error ht hb hu

-- A lexeme as it is written, with the blanks behind it.
structure Written where
  lexeme : Lexeme
  word : List Char
  gap : List Char
  spells : Spells word lexeme
  blanks : Rule.Blanks gap

namespace Written

def text (ws : List Written) : List Char :=
  ws.flatMap fun x => x.word ++ x.gap

-- The tokens of lexemes that are written from an offset on.
def tokens (offset : Nat) : List Written → List Token
  | []      => []
  | x :: ws => ⟨x.lexeme, offset⟩ :: tokens (offset + byteLength (x.word ++ x.gap)) ws

-- There are blanks between neighbours.
def Apart (ws : List Written) : Prop :=
  ∀ x ∈ ws.dropLast, x.gap ≠ []

variable {x : Written} {ws : List Written}

theorem Apart.tail (h : Apart (x :: ws)) : Apart ws := by
  cases ws
  case nil  => nofun
  case cons => exact (List.forall_mem_cons.mp h).right

theorem Apart.not_runsInto (h : Apart (x :: ws)) :
    ∀ c ∈ (x.gap ++ text ws).head?, x.lexeme.runsInto c = false := by
  intro c hc
  by_cases hg : x.gap = []
  case neg =>
    rw [List.head?_append_of_ne_nil _ hg] at hc
    exact runsInto_of_isBlank (x.blanks c (List.mem_of_mem_head? hc)) x.lexeme
  case pos =>
    cases ws
    case cons => exact absurd hg (List.forall_mem_cons.mp h).left
    case nil  => simp [hg, text] at hc

end Written

theorem scan_blanks {b : List Char} (hb : Rule.Blanks b) (offset : Nat) (cs : List Char) :
    scan offset (b ++ cs) = scan (offset + byteLength b) cs := by
  induction b generalizing offset
  case nil => rfl
  case cons c b ih =>
    obtain ⟨hc, hb⟩ := List.forall_mem_cons.mp hb
    rw [List.cons_append, scan_blank hc, ih hb, byteLength, utf8Size_of_isBlank hc, Nat.add_assoc]

theorem scan_written {ws : List Written} (h : Written.Apart ws) (offset : Nat) :
    scan offset (Written.text ws) = .ok (Written.tokens offset ws) := by
  induction ws generalizing offset
  case nil => exact scan.eq_def ..
  case cons x ws ih =>
    have hl := longest_of_not_runsInto x.spells h.not_runsInto
    have ht : Written.text (x :: ws) = x.word ++ (x.gap ++ Written.text ws) :=
      List.append_assoc ..
    rw [ht, scan_word x.spells hl, scan_blanks x.blanks, ih h.tail, Written.tokens,
      byteLength_append, byteLength_of_spells x.spells, Nat.add_assoc]
    rfl

theorem scan_lossless (base : Nat) :
    (∀ s : String, Scanned s base (scan base s.toList)) ∧
      ∀ lead ws, Rule.Blanks lead → Written.Apart ws →
        scan base (lead ++ Written.text ws) = .ok (Written.tokens (base + byteLength lead) ws) := by
  refine ⟨fun s => scanned s base, fun lead ws hb ha => ?_⟩
  rw [scan_blanks hb, scan_written ha]

-- A numeral that starts with zeros, and blanks at one end only.
theorem scan_lossless_zeros :
    ∃ ws, Rule.Blanks [' '] ∧ Written.Apart ws ∧ [' '] ++ Written.text ws = " n <=\t007".toList ∧
      scan 3 " n <=\t007".toList =
        .ok [⟨.count, 4⟩, ⟨.operator .lessEqual, 6⟩, ⟨.number ⟨7, by decide⟩, 9⟩] := by
  have hb (c : Char) (hc : isBlank c) : Rule.Blanks [c] := by simpa [Rule.Blanks] using hc
  let ws : List Written := [
    ⟨.count, ['n'], [' '], .spelled (by decide), hb ' ' rfl⟩,
    ⟨.operator .lessEqual, ['<', '='], ['\t'], .spelled (by decide), hb '\t' rfl⟩,
    ⟨.number ⟨7, by decide⟩, ['0', '0', '7'], [], .number (by decide) (by simp) (by decide), nofun⟩]
  have ha : Written.Apart ws := by simp [Written.Apart, ws]
  exact ⟨ws, hb ' ' rfl, ha, rfl, (scan_lossless 3).right [' '] ws (hb ' ' rfl) ha⟩

end Token
end MessageCatalog.Plural
