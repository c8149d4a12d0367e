import MessageCatalog.Proofs.ObjectFile.Lookup

namespace MessageCatalog.ObjectFile

-- A step that was taken, with the reader before and after it.
structure Turn where
  before : Reader
  request : Request
  outcome : Except ReadError Response
  after : Reader

namespace Reader

def turns (r : Reader) : List Request → List Turn
  | []      => []
  | q :: qs => ⟨r, q, r.response q, r.after q⟩ :: (r.after q).turns qs

theorem run_eq (r : Reader) (qs : List Request) : r.run qs = (r.turns qs).map Turn.outcome := by
  induction qs generalizing r
  case nil          => rfl
  case cons q qs hi => rw [run, turns, List.map_cons, hi]

-- The bytes that are passed over on the way to another reader of the same data.
def passed (r r' : Reader) : Bytes :=
  (r.data.take r'.position).drop r.position

-- The room that a step needs.
def Fits (r : Reader) : Request → Prop
  | .seek offset => offset ≤ r.data.length
  | .bytes count => r.position + count ≤ r.data.length
  | .words count => r.position + 4 * count ≤ r.data.length
  | .word        => r.position + 4 ≤ r.data.length

-- Where a step moves to and what it gives. The numbers are those in the words that are passed over.
inductive Moves (r r' : Reader) : Request → Response → Prop
  | seek (offset : Nat) (position : r'.position = offset) : Moves r r' (.seek offset) .moved
  | bytes (count : Nat) (position : r'.position = r.position + count) :
      Moves r r' (.bytes count) (.bytes (r.passed r'))
  | words (count : Nat) (position : r'.position = r.position + 4 * count) :
      Moves r r' (.words count)
        (.words ((List.range count).map fun i => wordAt r.order r.data (r.position + 4 * i)))
  | word (position : r'.position = r.position + 4) :
      Moves r r' .word (.word (wordAt r.order r.data r.position))

-- Readers differ in nothing but their position, which lies in the data.
structure Continues (r r' : Reader) : Prop where
  data   : r'.data = r.data
  order  : r'.order = r.order
  inside : r'.position ≤ r'.data.length

namespace Continues

variable {r r' r'' : Reader}

theorem refl (h : r.position ≤ r.data.length) : r.Continues r :=
  ⟨rfl, rfl, h⟩

theorem trans (h : r.Continues r') (h' : r'.Continues r'') : r.Continues r'' :=
  ⟨h'.data.trans h.data, h'.order.trans h.order, h'.inside⟩

end Continues

variable {r r' : Reader} {q : Request}

theorem passed_eq {count : Nat} (h : r'.position = r.position + count) :
    r.passed r' = Row.bytes { length := count, offset := r.position } r.data := by
  rw [passed, h, List.drop_take, Nat.add_sub_cancel_left]
  rfl

-- Bytes are passed over if there are enough of them.
theorem bytes_cases (h : r.position ≤ r.data.length) (count : Nat) :
    (∃ r', r.bytes count = .ok (r.passed r', r') ∧ r.position + count ≤ r.data.length ∧
        r'.position = r.position + count ∧ r.Continues r') ∨
      ∃ e, r.bytes count = .error e ∧ ¬r.position + count ≤ r.data.length := by
  by_cases hc : r.position + count ≤ r.data.length
  case pos =>
    have ha : count ≤ r.available := Nat.le_sub_of_add_le' hc
    refine .inl ⟨{ r with position := r.position + count }, ?_, hc, rfl, rfl, rfl, hc⟩
    rw [bytes, if_pos ha, passed_eq rfl]
    rfl
  case neg =>
    have ha : ¬count ≤ r.available := by
      simp only [available]
      omega
    exact .inr ⟨_, by rw [bytes, if_neg ha], hc⟩

-- The order of bytes in words is the same before and after a step.
theorem word_eq_map (r : Reader) :
    r.word = (r.bytes 4).map fun (bs, r') => (r.order.value bs, r') := by
  by_cases ha : 4 ≤ r.available
  case pos => rw [word, bytes, if_pos ha]; rfl
  case neg => rw [word, bytes, if_neg ha]; rfl

theorem words_eq_map (r : Reader) {count : Nat} (h : 4 * count ≤ sizeLimit) :
    r.words count = (r.bytes (4 * count)).map fun (bs, r') => (r.order.words bs, r') := by
  by_cases ha : 4 * count ≤ r.available
  case pos => rw [words, bytes, if_pos ha]; rfl
  case neg =>
    rw [words, bytes, if_neg ha]
    dsimp only
    rw [Nat.min_eq_left h]
    rfl

-- All that a step can do.
theorem step_cases (h : r.position ≤ r.data.length) (q : Request) :
    (∃ a r', r.step q = .ok (a, r') ∧ r.Fits q ∧ r.Moves r' q a ∧ r.Continues r') ∨
      ∃ e, r.step q = .error e ∧ ¬r.Fits q := by
  cases q
  case seek offset =>
    by_cases ho : offset ≤ r.data.length
    case pos =>
      refine .inl ⟨.moved, { r with position := offset }, ?_, ho, .seek offset rfl, rfl, rfl, ho⟩
      rw [step, seek, if_pos ho]
      rfl
    case neg => exact .inr ⟨_, by rw [step, seek, if_neg ho]; rfl, ho⟩
  case bytes count =>
    cases bytes_cases h count
    case inl hb =>
      obtain ⟨r', hb, hc, hp, hr⟩ := hb
      exact .inl ⟨_, r', by rw [step, hb]; rfl, hc, .bytes count hp, hr⟩
    case inr hb =>
      obtain ⟨e, hb, hc⟩ := hb
      exact .inr ⟨e, by rw [step, hb]; rfl, hc⟩
  case words count =>
    cases bytes_cases h (4 * count)
    case inl hb =>
      obtain ⟨r', hb, hc, hp, hr⟩ := hb
      refine .inl ⟨_, r', ?_, hc, .words count hp, hr⟩
      rw [step, words, hb, ← words_bytes r.order hc, ← passed_eq hp, ← hr.order]
      rfl
    case inr hb =>
      obtain ⟨e, hb, hc⟩ := hb
      exact .inr ⟨_, by rw [step, words, hb]; rfl, hc⟩
  case word =>
    cases bytes_cases h 4
    case inl hb =>
      obtain ⟨r', hb, hc, hp, hr⟩ := hb
      have hl : (Row.bytes { length := 4, offset := r.position } r.data).length = 4 :=
        Row.length_bytes hc
      refine .inl ⟨_, r', ?_, hc, .word hp, hr⟩
      rw [step, word, hb, wordAt, ← r.order.value_eq_number hl, ← passed_eq hp, ← hr.order]
      rfl
    case inr hb =>
      obtain ⟨e, hb, hc⟩ := hb
      exact .inr ⟨e, by rw [step, word, hb]; rfl, hc⟩

end Reader

namespace Turn

variable {t : Turn}

def Failed (t : Turn) : Prop :=
  ∃ e, t.outcome = .error e

-- A turn either passes over the bytes that it gives, or has no effect.
structure Atomic (t : Turn) : Prop where
  continues : t.before.Continues t.after
  succeeds  : (∃ a, t.outcome = .ok a) ↔ t.before.Fits t.request
  moves     : ∀ a, t.outcome = .ok a → t.before.Moves t.after t.request a
  stays     : t.Failed → t.after = t.before

-- What is left of some turns when some of those that failed are taken out.
inductive Spared : List Turn → List Turn → Prop
  | nil : Spared [] []
  | keep {ts us : List Turn} (t : Turn) (rest : Spared ts us) : Spared (t :: ts) (t :: us)
  | drop {ts us : List Turn} {t : Turn} (failed : t.Failed) (rest : Spared ts us) :
      Spared (t :: ts) us

end Turn

namespace Reader

variable {r : Reader}

theorem atomic_turn (h : r.position ≤ r.data.length) (q : Request) :
    Turn.Atomic ⟨r, q, r.response q, r.after q⟩ := by
  cases step_cases h q
  case inl hs =>
    have ⟨a, r', hs, hf, hm, hr⟩ := hs
    have ho : r.response q = .ok a := by rw [response, hs]; rfl
    have ha : r.after q = r' := by rw [after, hs]
    rw [ho, ha]
    refine ⟨hr, ⟨fun _ => hf, fun _ => ⟨a, rfl⟩⟩, fun _ hb => ?_, fun ⟨e, he⟩ => nomatch he⟩
    exact Except.ok.inj hb ▸ hm
  case inr hs =>
    have ⟨e, hs, hf⟩ := hs
    have ho : r.response q = .error e := by rw [response, hs]; rfl
    have ha : r.after q = r := by rw [after, hs]
    rw [ho, ha]
    exact ⟨.refl h, ⟨fun ⟨_, hb⟩ => (nomatch hb), (absurd · hf)⟩, nofun, fun _ => rfl⟩

theorem atomic_of_mem_turns (h : r.position ≤ r.data.length) {qs : List Request} {t : Turn}
    (ht : t ∈ r.turns qs) : t.Atomic ∧ r.Continues t.before := by
  induction qs generalizing r
  case nil => cases ht
  case cons q qs hi =>
    have hq := atomic_turn h q
    cases ht
    case head    => exact ⟨hq, .refl h⟩
    case tail ht =>
      have ⟨ha, hr⟩ := hi hq.continues.inside ht
      exact ⟨ha, hq.continues.trans hr⟩

-- By induction on what is taken out: after a turn that failed, the reader is the same one.
theorem turns_of_spared (h : r.position ≤ r.data.length) {qs : List Request} {ts : List Turn}
    (hs : Turn.Spared (r.turns qs) ts) : r.turns (ts.map Turn.request) = ts := by
  generalize hts : r.turns qs = us at hs
  induction hs generalizing r qs
  case nil => rfl
  case keep us ts t _ hi =>
    cases qs
    case nil => cases hts
    case cons q qs =>
      have ⟨ht, hus⟩ := List.cons.inj hts
      subst ht
      rw [List.map_cons, turns, hi (atomic_turn h q).continues.inside hus]
  case drop us ts t hf _ hi =>
    cases qs
    case nil => cases hts
    case cons q qs =>
      have ⟨ht, hus⟩ := List.cons.inj hts
      subst ht
      have ha : r.after q = r := (atomic_turn h q).stays hf
      exact hi h (ha ▸ hus)

end Reader

end MessageCatalog.ObjectFile
