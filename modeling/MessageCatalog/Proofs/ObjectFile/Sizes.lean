import MessageCatalog.Proofs.Bytewise.Text
import MessageCatalog.Proofs.ObjectFile.Stepping

namespace MessageCatalog.ObjectFile

open Bytewise

-- A reader whose positions and counts are words of 64 bits. Sums of words wrap around, and a product
-- of words may not fit one.
structure SizedReader where
  data : Bytes
  order : ByteOrder
  position : UInt64

inductive SizedRequest
  | seek (offset : UInt64)
  | bytes (count : UInt64)
  | words (count : UInt64)
  | word
  deriving DecidableEq

-- The same step, without words.
def SizedRequest.request : SizedRequest → Request
  | seek offset => .seek offset.toNat
  | bytes count => .bytes count.toNat
  | words count => .words count.toNat
  | word        => .word

namespace SizedReader

def start (data : Bytes) (order : ByteOrder) : SizedReader where
  data := data
  order := order
  position := 0

-- The same reader, without words.
def reader (r : SizedReader) : Reader where
  data := r.data
  order := r.order
  position := r.position.toNat

def length (r : SizedReader) : UInt64 :=
  .ofNat r.data.length

-- A difference below zero is zero.
def available (r : SizedReader) : UInt64 :=
  if r.length < r.position then 0 else r.length - r.position

-- The product of two words, if it is a word.
def times? (a b : UInt64) : Option UInt64 :=
  if a.toNat * b.toNat < UInt64.size then some (a * b) else none

-- An error does not undo what was done to the reader before it.
abbrev Action (α : Type) := ExceptT (Halt ReadError) (StateM SizedReader) α

-- The bytes between two positions.
def cut (first last : UInt64) : Action Bytes := do
  let r ← get
  if last < first then
    throw (.trap .cut)
  else if r.length < last then
    throw (.trap .bounds)
  else
    return (r.data.take last.toNat).drop first.toNat

def seek (offset : UInt64) : Action Unit := do
  let r ← get
  if r.length < offset then
    throw (.error { offset := offset.toNat, needed := 0, available := 0 })
  else
    set { r with position := offset }

def bytes (count : UInt64) : Action Bytes := do
  let r ← get
  if r.available < count then
    throw (.error
      { offset := r.position.toNat, needed := count.toNat, available := r.available.toNat })
  else
    let bs ← cut r.position (r.position + count)
    set { r with position := r.position + count }
    return bs

def words (count : UInt64) : Action (List Nat) := do
  let r ← get
  match times? count 4 with
  | some size => r.order.words <$> bytes size
  | none      =>
    throw (.error
      { offset := r.position.toNat, needed := Reader.sizeLimit, available := r.available.toNat })

def word : Action Nat := do
  let r ← get
  r.order.value <$> bytes 4

def step : SizedRequest → Action Response
  | .seek offset => (fun _ => .moved) <$> seek offset
  | .bytes count => .bytes <$> bytes count
  | .words count => .words <$> words count
  | .word        => .word <$> word

-- Takes steps in order, whatever becomes of each, and gives the reader after each one.
def run (r : SizedReader) : List SizedRequest → List (Guarded ReadError Response × SizedReader)
  | []      => []
  | q :: qs => (step q).run.run r :: run ((step q).run.run r).2 qs

-- An action comes to what is done without words, and leaves the reader as it was if it fails.
inductive Agrees {α : Type} (r : SizedReader) :
    Guarded ReadError α × SizedReader → Except ReadError (α × Reader) → Prop
  | ok (a : α) (r' : SizedReader) (continues : r.reader.Continues r'.reader) :
      Agrees r (.ok a, r') (.ok (a, r'.reader))
  | error (e : ReadError) : Agrees r (.error (.error e), r) (.error e)

structure Valid (r : SizedReader) : Prop where
  inside : r.reader.position ≤ r.data.length
  sized  : r.data.length < UInt64.size

variable {r : SizedReader}

theorem run_get (r : SizedReader) : (get : Action SizedReader).run.run r = (.ok r, r) :=
  rfl

theorem run_bind {α β : Type} {x : Action α} {a : α} {r' : SizedReader}
    (h : x.run.run r = (.ok a, r')) (f : α → Action β) :
    (x >>= f).run.run r = (f a).run.run r' := by
  rw [ExceptT.run_bind, StateT.run_bind, h]
  rfl

theorem Agrees.map {α β : Type} {x : Action α} {y : Except ReadError (α × Reader)} (f : α → β)
    (h : Agrees r (x.run.run r) y) :
    Agrees r ((f <$> x).run.run r) (y.map fun (a, r) => (f a, r)) := by
  simp only [ExceptT.run_map, StateT.run_map]
  generalize x.run.run r = z at h
  cases h
  case ok a r' hr => exact .ok (f a) r' hr
  case error e    => exact .error e

theorem run_cut {first last : UInt64} (h : first ≤ last) (hl : last ≤ r.length) :
    (cut first last).run.run r = (.ok ((r.data.take last.toNat).drop first.toNat), r) := by
  rw [cut, run_bind (run_get r), if_neg (UInt64.not_lt.mpr h), if_neg (UInt64.not_lt.mpr hl)]
  rfl

namespace Valid

theorem toNat_length (h : r.Valid) : r.length.toNat = r.data.length :=
  UInt64.toNat_ofNat_of_lt' h.sized

theorem toNat_available (h : r.Valid) : r.available.toNat = r.reader.available := by
  have hl := h.toNat_length
  have hp : ¬r.length < r.position := by
    rw [UInt64.lt_iff_toNat_lt, hl]
    exact Nat.not_lt.mpr h.inside
  rw [available, if_neg hp, UInt64.toNat_sub_of_le _ _ (UInt64.not_lt.mp hp), hl]
  rfl

theorem agrees_seek (h : r.Valid) (offset : UInt64) :
    Agrees r ((seek offset).run.run r) ((r.reader.seek offset.toNat).map ((), ·)) := by
  have hl : r.length < offset ↔ ¬offset.toNat ≤ r.reader.data.length := by
    rw [UInt64.lt_iff_toNat_lt, h.toNat_length, Nat.not_le]
    rfl
  rw [seek, run_bind (run_get r), Reader.seek]
  by_cases ho : r.length < offset
  case pos =>
    rw [if_pos ho, if_neg (hl.mp ho)]
    exact .error _
  case neg =>
    have ho' := not_not.mp (mt hl.mpr ho)
    rw [if_neg ho, if_pos ho']
    exact .ok () { r with position := offset } ⟨rfl, rfl, ho'⟩

-- Where bytes are left, the position behind them is a word.
theorem agrees_bytes (h : r.Valid) (count : UInt64) :
    Agrees r ((bytes count).run.run r) (r.reader.bytes count.toNat) := by
  have ha : r.available < count ↔ ¬count.toNat ≤ r.reader.available := by
    rw [UInt64.lt_iff_toNat_lt, h.toNat_available, Nat.not_le]
  rw [bytes, run_bind (run_get r)]
  by_cases hc : r.available < count
  case pos =>
    rw [if_pos hc, Reader.bytes, if_neg (ha.mp hc), ← h.toNat_available]
    exact .error _
  case neg =>
    have hc' : count.toNat ≤ r.reader.available := not_not.mp (mt ha.mpr hc)
    have hend : r.reader.position + count.toNat ≤ r.data.length := by
      rw [Nat.add_comm]
      exact Nat.add_le_of_le_sub h.inside hc'
    have hs : (r.position + count).toNat = r.reader.position + count.toNat := by
      rw [UInt64.toNat_add]
      exact Nat.mod_eq_of_lt (Nat.lt_of_le_of_lt hend h.sized)
    have hf : r.position ≤ r.position + count := by
      rw [UInt64.le_iff_toNat_le, hs]
      exact Nat.le_add_right ..
    have hl : r.position + count ≤ r.length := by
      rw [UInt64.le_iff_toNat_le, hs, h.toNat_length]
      exact hend
    have hb : (r.data.take (r.position + count).toNat).drop r.position.toNat =
        (r.reader.data.drop r.reader.position).take count.toNat := by
      rw [hs, List.drop_take]
      exact congrArg₂ _ (Nat.add_sub_cancel_left ..) rfl
    have hr : reader { r with position := r.position + count } =
        { r.reader with position := r.reader.position + count.toNat } := by
      rw [reader, hs]
      rfl
    rw [if_neg hc, run_bind (run_cut hf hl), hb, Reader.bytes, if_pos hc', ← hr]
    exact .ok _ { r with position := r.position + count } ⟨rfl, rfl, hs.trans_le hend⟩

theorem agrees_words (h : r.Valid) (count : UInt64) :
    Agrees r ((words count).run.run r) (r.reader.words count.toNat) := by
  have h4 : (4 : UInt64).toNat = 4 := rfl
  rw [words, run_bind (run_get r), times?, h4, Nat.mul_comm]
  by_cases hs : 4 * count.toNat < UInt64.size
  case pos =>
    have hn : (count * 4).toNat = 4 * count.toNat := by
      rw [UInt64.toNat_mul, h4, Nat.mul_comm]
      exact Nat.mod_eq_of_lt hs
    rw [if_pos hs, Reader.words_eq_map _ (Nat.le_of_lt_succ hs), ← hn]
    exact (h.agrees_bytes (count * 4)).map r.order.words
  case neg =>
    -- More bytes than fit a word are more than there are.
    have hn : Reader.sizeLimit ≤ 4 * count.toNat :=
      Nat.le_trans (by decide) (Nat.le_of_not_lt hs)
    have ha : ¬4 * count.toNat ≤ r.reader.available := by
      have := h.sized
      have : r.reader.available ≤ r.data.length := Nat.sub_le ..
      omega
    rw [if_neg hs, Reader.words, Reader.bytes, if_neg ha]
    dsimp only
    rw [Nat.min_eq_right hn, ← h.toNat_available]
    exact .error _

theorem agrees_word (h : r.Valid) : Agrees r (word.run.run r) r.reader.word := by
  rw [word, run_bind (run_get r), Reader.word_eq_map]
  exact (h.agrees_bytes 4).map r.order.value

theorem agrees_step (h : r.Valid) (q : SizedRequest) :
    Agrees r ((step q).run.run r) (r.reader.step q.request) := by
  cases q
  case seek offset =>
    have hs := (h.agrees_seek offset).map fun _ => Response.moved
    have hm : ((r.reader.seek offset.toNat).map ((), ·)).map (fun x => (Response.moved, x.2)) =
        r.reader.step (.seek offset.toNat) := by
      rw [Reader.step]
      cases r.reader.seek offset.toNat <;> rfl
    exact hm ▸ hs
  case bytes count => exact (h.agrees_bytes count).map Response.bytes
  case words count => exact (h.agrees_words count).map Response.words
  case word        => exact h.agrees_word.map Response.word

theorem step_eq (h : r.Valid) (q : SizedRequest) :
    ((step q).run.run r).1 = lift (r.reader.response q.request) ∧
      ((step q).run.run r).2.reader = r.reader.after q.request ∧ ((step q).run.run r).2.Valid := by
  have hs := h.agrees_step q
  rw [Reader.response, Reader.after]
  generalize (step q).run.run r = x at hs ⊢
  generalize r.reader.step q.request = y at hs ⊢
  cases hs
  case ok a r' hr =>
    have hd : r'.data.length = r.data.length := congrArg List.length hr.data
    exact ⟨rfl, rfl, hr.inside, hd ▸ h.sized⟩
  case error e => exact ⟨rfl, rfl, h⟩

theorem run_eq (h : r.Valid) (qs : List SizedRequest) :
    (r.run qs).map (fun x => (x.1, x.2.reader)) =
      (r.reader.turns (qs.map SizedRequest.request)).map fun t => (lift t.outcome, t.after) := by
  induction qs generalizing r
  case nil => rfl
  case cons q qs hi =>
    have ⟨ho, ha, hv⟩ := h.step_eq q
    rw [run, List.map_cons, hi hv, List.map_cons, Reader.turns, List.map_cons, ho, ha]

end Valid

theorem valid_start {data : Bytes} (h : data.length < UInt64.size) (order : ByteOrder) :
    (start data order).Valid :=
  ⟨Nat.zero_le _, h⟩

end SizedReader

namespace Reader

theorem atomic_run (data : Bytes) (order : ByteOrder) (qs : List Request) :
    (∀ t ∈ (start data order).turns qs,
      t.Atomic ∧ t.before.data = data ∧ t.before.order = order ∧ t.before.position ≤ data.length) ∧
    (start data order).run qs = ((start data order).turns qs).map Turn.outcome ∧
    (∀ ts, Turn.Spared ((start data order).turns qs) ts →
      (start data order).run (ts.map Turn.request) = ts.map Turn.outcome) ∧
    (data.length < UInt64.size → ∀ sized, sized.map SizedRequest.request = qs →
      ((SizedReader.start data order).run sized).map (fun x => (x.1, x.2.reader)) =
        ((start data order).turns qs).map fun t => (lift t.outcome, t.after)) := by
  have h : (start data order).position ≤ (start data order).data.length := Nat.zero_le _
  refine ⟨fun t ht => ?_, run_eq _ qs, fun ts hs => ?_, fun hl sized hq => ?_⟩
  · have ⟨ha, hr⟩ := atomic_of_mem_turns h ht
    exact ⟨ha, hr.data, hr.order, hr.inside.trans_eq (congrArg List.length hr.data)⟩
  · rw [run_eq, turns_of_spared h hs]
  · exact hq ▸ (SizedReader.valid_start hl order).run_eq sized

-- The second and the last step fail, the last one because no word holds the number of its bytes.
theorem atomic_run_ten :
    ∃ data qs ts, data = List.replicate 10 0 ∧
      qs = [.words 2, .words 1, .bytes 2, .words 0xffffffffffffffff] ∧
      (∀ t ∈ (start data .big).turns (qs.map SizedRequest.request), t.Atomic) ∧
      Turn.Spared ((start data .big).turns (qs.map SizedRequest.request)) ts ∧
      ts.map Turn.request = [.words 2, .bytes 2] ∧
      (start data .big).run (ts.map Turn.request) = ts.map Turn.outcome ∧
      data.length < UInt64.size ∧
      ((SizedReader.start data .big).run qs).map (fun x => (x.1, x.2.reader)) =
        ((start data .big).turns (qs.map SizedRequest.request)).map
          fun t => (lift t.outcome, t.after) := by
  have ⟨ha, _, hs, hq⟩ := atomic_run (List.replicate 10 0) .big
    [.words 2, .words 1, .bytes 2, .words 0xffffffffffffffff]
  have hl : (List.replicate 10 (0 : UInt8)).length < UInt64.size := by decide
  have hk : Turn.Spared ((start (List.replicate 10 0) .big).turns
      [.words 2, .words 1, .bytes 2, .words 0xffffffffffffffff]) _ :=
    .keep _ (.drop ⟨_, rfl⟩ (.keep _ (.drop ⟨_, rfl⟩ .nil)))
  exact ⟨_, [.words 2, .words 1, .bytes 2, .words 0xffffffffffffffff], _, rfl, rfl,
    fun t ht => (ha t ht).left, hk, rfl, hs _ hk, hl, hq hl _ rfl⟩

end Reader

end MessageCatalog.ObjectFile
