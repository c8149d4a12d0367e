import MessageCatalog.Proofs.Plural.Growing

namespace MessageCatalog.Plural

-- Why reading ends early: the text is at fault, or nothing is open that could be closed.
inductive Stop
  | fault (f : Fault)
  | underflow
  deriving DecidableEq

-- A change of the assembly: the constructs that are open at it, by their offsets and the innermost
-- one first, and what has been assembled after it.
structure Moment where
  within : List Nat
  assembly : Assembly

-- How something was assembled, the latest moment first.
structure History where
  moments : List Moment := []

def History.assembly (h : History) : Assembly :=
  match h.moments with
  | []     => {}
  | m :: _ => m.assembly

abbrev Recorder := ExceptT Stop (StateM History)

-- What reading the start of `ts` gave: the step `root`, and the tokens left.
structure Portion (ts : List Token) where
  root : Nat
  rest : List Token
  rest_lt : rest.length < ts.length

namespace Portion

variable {ts : List Token}

theorem tail_lt (p : Portion ts) {t : Token} {us : List Token} (h : p.rest = t :: us) :
    us.length < ts.length := by
  have := p.rest_lt
  simp only [h, List.length_cons] at this
  omega

end Portion

namespace Recorder

def record (within : List Nat) (a : Assembly) : Recorder Unit :=
  modify fun h => { moments := ⟨within, a⟩ :: h.moments }

-- Counts the construct that is the innermost one of `within`.
def enter (within : List Nat) (offset : Nat) : Recorder Unit := do
  let a := (← get).assembly
  record within a.deeper
  if Assembly.openLimit < a.deeper.opened then
    throw (.fault ⟨.nestedTooDeeply, offset⟩)

def leave (within : List Nat) : Recorder Unit := do
  let a := (← get).assembly
  if a.opened = 0 then
    throw .underflow
  record within a.leave

def add (within : List Nat) (s : Step) (offset : Nat) : Recorder Nat := do
  match (← get).assembly.add s offset with
  | .error f      => throw (.fault f)
  | .ok (root, a) =>
    record within a
    return root

def apply (within : List Nat) (op? : Option UnaryOp) (operand offset : Nat) : Recorder Nat :=
  match op? with
  | none    => return operand
  | some op => add within (.unary op operand) offset

def leaf (within : List Nat) (s : Step) (t : Token) (us : List Token) :
    Recorder (Portion (t :: us)) := do
  let root ← add within s t.offset
  return { root, rest := us, rest_lt := Nat.lt_succ_self _ }

mutual

def expression (last : Nat) (within : List Nat) (ts : List Token) : Recorder (Portion ts) := do
  let inside := Token.nextOffset last ts :: within
  enter inside (Token.nextOffset last ts)
  let test ← binary last inside BinaryOp.tiers ts
  match h : test.rest with
  | ⟨.question, offset⟩ :: us =>
    let whenTrue ← expression last inside us
    match h' : whenTrue.rest with
    | ⟨.colon, _⟩ :: vs =>
      let whenFalse ← expression last inside vs
      let root ← add inside (.conditional test.root whenTrue.root whenFalse.root) offset
      leave within
      return {
        root
        rest := whenFalse.rest
        rest_lt := Nat.lt_trans whenFalse.rest_lt
          (Nat.lt_trans (whenTrue.tail_lt h') (test.tail_lt h)) }
    | vs => throw (.fault ⟨.missingColon, Token.nextOffset last vs⟩)
  | _ =>
    leave within
    return test
termination_by (ts.length, BinaryOp.tiers + 3)
decreasing_by
  · exact .right _ (by decide)
  · exact .left _ _ (test.tail_lt h)
  · exact .left _ _ (Nat.lt_trans (whenTrue.tail_lt h') (test.tail_lt h))

def binary (last : Nat) (within : List Nat) (tiers : Nat) (ts : List Token) :
    Recorder (Portion ts) :=
  match tiers with
  | 0        => unary last within ts
  | tier + 1 => do
    let left ← binary last within tier ts
    operators last within tier left
termination_by (ts.length, tiers + 2)
decreasing_by
  · exact .right _ (by simp)
  · exact .right _ (by simp)
  · exact .left _ _ left.rest_lt

def operators (last : Nat) (within : List Nat) (tier : Nat) {ts : List Token} (left : Portion ts) :
    Recorder (Portion ts) :=
  match h : left.rest with
  | ⟨.operator op, offset⟩ :: us =>
    if op.tier = tier then do
      let right ← binary last within tier us
      let root ← add within (.binary op left.root right.root) offset
      operators last within tier {
        root
        rest := right.rest
        rest_lt := Nat.lt_trans right.rest_lt (left.tail_lt h) : Portion ts }
    else
      return left
  | _ => return left
termination_by (left.rest.length, 0)
decreasing_by
  · exact .left _ _ (by simp [h])
  · exact .left _ _ (by rw [h]; exact Nat.lt_succ_of_lt right.rest_lt)

def unary (last : Nat) (within : List Nat) (ts : List Token) : Recorder (Portion ts) :=
  match ts with
  | [] => throw (.fault ⟨.unexpectedEnd, last⟩)
  | t :: us =>
    match t.lexeme.unary? with
    | none => term last within t us
    | some op? => do
      let inside := t.offset :: within
      enter inside t.offset
      let p ← unary last inside us
      let root ← apply inside op? p.root t.offset
      leave within
      return { root, rest := p.rest, rest_lt := Nat.lt_succ_of_lt p.rest_lt }
termination_by (ts.length, 1)
decreasing_by
  · exact .right _ (by decide)
  · exact .left _ _ (by simp)

def term (last : Nat) (within : List Nat) (t : Token) (us : List Token) :
    Recorder (Portion (t :: us)) :=
  match t.lexeme with
  | .count => leaf within .count t us
  | .number v => leaf within (.literal v) t us
  | .openParen => do
    let p ← expression last within us
    match h : p.rest with
    | ⟨.closeParen, _⟩ :: vs =>
      return { root := p.root, rest := vs, rest_lt := Nat.lt_succ_of_lt (p.tail_lt h) }
    | vs => throw (.fault ⟨.missingParenthesis, Token.nextOffset last vs⟩)
  | _ => throw (.fault ⟨.unexpectedToken, t.offset⟩)
termination_by (us.length + 1, 0)
decreasing_by exact .left _ _ (by simp)

end

end Recorder

-- What is counted at a moment is what is open at it. The limit is only looked at behind the count.
structure Moment.Steady (m : Moment) : Prop where
  opened : m.assembly.opened = m.within.length
  bound  : m.assembly.opened ≤ 65

-- All moments so far were steady, and reading can go on inside some constructs.
structure History.Steady (h : History) (within : List Nat) : Prop where
  moments : ∀ m ∈ h.moments, m.Steady
  opened  : h.assembly.opened = within.length
  bound   : h.assembly.opened ≤ 64

def Parsed.portion {ts : List Token} (p : Parsed ts) : Portion ts :=
  { p with }

namespace Recorder

variable {α β : Type} {ts us : List Token} {within inside : List Nat} {h : History} {offset : Nat}

-- What comes of reading, and the history of it.
def on (x : Recorder α) (h : History) : Except Stop α × History :=
  x.run.run h

theorem on_bind (x : Recorder α) (k : α → Recorder β) (h : History) :
    (x >>= k).on h =
      match x.on h with
      | (.ok a, h)    => (k a).on h
      | (.error e, h) => (.error e, h) := by
  rw [on, ExceptT.run_bind, StateT.run_bind, on]
  rcases StateT.run (ExceptT.run x) h with ⟨_ | _, _⟩ <;> rfl

theorem on_enter (within : List Nat) (offset : Nat) (h : History) :
    (enter within offset).on h =
      (if 64 < h.assembly.deeper.opened then .error (.fault ⟨.nestedTooDeeply, offset⟩) else .ok (),
        ⟨⟨within, h.assembly.deeper⟩ :: h.moments⟩) := by
  change (if 64 < h.assembly.deeper.opened then _ else _ : Recorder Unit).on _ = _
  split <;> rfl

theorem on_leave (within : List Nat) (h : History) (ho : h.assembly.opened ≠ 0) :
    (leave within).on h =
      (.ok (), ⟨⟨within, h.assembly.leave⟩ :: h.moments⟩) := by
  change (if h.assembly.opened = 0 then _ else _ : Recorder Unit).on _ = _
  rw [if_neg ho]
  rfl

theorem on_add (within : List Nat) (s : Step) (offset : Nat) (h : History) :
    (add within s offset).on h =
      match h.assembly.add s offset with
      | .error f      => (.error (.fault f), h)
      | .ok (root, a) => (.ok root, ⟨⟨within, a⟩ :: h.moments⟩) := by
  change (match h.assembly.add s offset with
    | .error f      => _
    | .ok (root, a) => _ : Recorder Nat).on h = _
  cases h.assembly.add s offset <;> rfl

theorem steady_record {a : Assembly} (hs : h.Steady inside) (ho : a.opened = within.length)
    (hb : a.opened ≤ 65) : ∀ m ∈ (⟨within, a⟩ :: h.moments : List Moment), m.Steady :=
  List.forall_mem_cons.mpr ⟨⟨ho, hb⟩, hs.moments⟩

-- The same is read with a history as without one, and the history is steady.
inductive Agrees (within : List Nat) :
    Except Fault (Parsed ts) → Except Stop (Portion ts) × History → Prop
  | ok {p : Parsed ts} {h : History} (assembly : h.assembly = p.assembly)
      (steady : h.Steady within) : Agrees within (.ok p) (.ok p.portion, h)
  | error {f : Fault} {h : History} (moments : ∀ m ∈ h.moments, m.Steady) :
      Agrees within (.error f) (.error (.fault f), h)

section Steps

variable {r : Recorder (Portion us)}

theorem Agrees.bind {x : Except Fault (Parsed ts)} {y : Recorder (Portion ts)}
    {k : Parsed ts → Except Fault (Parsed us)} {k' : Portion ts → Recorder (Portion us)}
    (hx : Agrees inside x (y.on h))
    (hk : ∀ p h, h.assembly = p.assembly → h.Steady inside →
      Agrees within (k p) ((k' p.portion).on h)) :
    Agrees within (x >>= k) ((y >>= k').on h) := by
  rw [on_bind]
  generalize y.on h = z at hx
  cases hx
  case ok p h ha hs => exact hk p h ha hs
  case error hm     => exact .error hm

theorem Agrees.enter {k : Assembly → Except Fault (Parsed us)} (hs : h.Steady within)
    (hk : ∀ h', h'.assembly = h.assembly.deeper → h'.Steady (offset :: within) →
      Agrees within (k h.assembly.deeper) (r.on h')) :
    Agrees within (h.assembly.enter offset >>= k)
      ((Recorder.enter (offset :: within) offset >>= fun _ => r).on h) := by
  have ho : h.assembly.deeper.opened = (offset :: within).length := congrArg (· + 1) hs.opened
  have hb : h.assembly.deeper.opened ≤ 65 := Nat.succ_le_succ hs.bound
  have hm := steady_record hs ho hb
  rw [on_bind, on_enter, Assembly.enter]
  by_cases hl : Assembly.openLimit ≤ h.assembly.opened
  case pos =>
    have hl' : 64 < h.assembly.deeper.opened := Nat.lt_succ_of_le hl
    rw [if_pos hl, if_pos hl']
    exact .error hm
  case neg =>
    have hl' : ¬64 < h.assembly.deeper.opened := fun h => hl (Nat.le_of_lt_succ h)
    rw [if_neg hl, if_neg hl']
    exact hk _ rfl ⟨hm, ho, Nat.le_of_not_lt hl'⟩

theorem Agrees.step {s : Step} {k : Nat × Assembly → Except Fault (Parsed us)}
    {k' : Nat → Recorder (Portion us)} (hs : h.Steady inside)
    (hk : ∀ root h, h.Steady inside → Agrees within (k (root, h.assembly)) ((k' root).on h)) :
    Agrees within (h.assembly.add s offset >>= k) ((add inside s offset >>= k').on h) := by
  rw [on_bind, on_add]
  cases hx : h.assembly.add s offset
  case error f => exact .error hs.moments
  case ok x =>
    obtain ⟨root, a⟩ := x
    have hg := (Assembly.grows_of_add hx).left.opened
    have ho := hg.trans hs.opened
    have hb := hg.le.trans hs.bound
    exact hk root ⟨_⟩ ⟨steady_record hs ho (hb.trans (by decide)), ho, hb⟩

theorem Agrees.add {p : Parsed ts} {s : Step} {k : Parsed ts → Except Fault (Parsed us)}
    {k' : Nat → Recorder (Portion us)} (ha : h.assembly = p.assembly) (hs : h.Steady inside)
    (hk : ∀ root h, h.Steady inside →
      Agrees within (k { p with root, assembly := h.assembly }) ((k' root).on h)) :
    Agrees within (p.add s offset >>= k) ((Recorder.add inside s offset >>= k').on h) := by
  rw [Parsed.add, ← ha, bind_assoc]
  exact Agrees.step hs hk

theorem Agrees.leave {p : Parsed ts} (ha : h.assembly.leave = p.assembly)
    (hs : h.Steady (offset :: within)) :
    Agrees within (.ok p) ((Recorder.leave within >>= fun _ => pure p.portion).on h) := by
  have ho : h.assembly.leave.opened = within.length := congrArg (· - 1) hs.opened
  have hb : h.assembly.leave.opened ≤ 64 := (Nat.sub_le ..).trans hs.bound
  have hn : h.assembly.opened ≠ 0 := hs.opened ▸ Nat.succ_ne_zero _
  rw [on_bind, on_leave within h hn]
  exact .ok ha ⟨steady_record hs ho (hb.trans (by decide)), ho, hb⟩

end Steps

-- Reading on from `a` inside some constructs, with a history as without one.
abbrev Keeps (within : List Nat) (a : Assembly) (x : Except Fault (Parsed ts))
    (y : Recorder (Portion ts)) : Prop :=
  ∀ h : History, h.assembly = a → h.Steady within → Agrees within x (y.on h)

variable {a : Assembly} {last : Nat}

theorem keeps_expression
    (test : ∀ a within, Keeps within a (Parser.binary last BinaryOp.tiers ts a)
      (binary last within BinaryOp.tiers ts))
    (whenTrue : ∀ (p : Parsed ts) offset us, p.rest = ⟨.question, offset⟩ :: us → ∀ within,
      Keeps within p.assembly (Parser.expression last us p.assembly) (expression last within us))
    (whenFalse : ∀ (p : Parsed ts) offset us, p.rest = ⟨.question, offset⟩ :: us →
      ∀ (q : Parsed us) offset' vs, q.rest = ⟨.colon, offset'⟩ :: vs → ∀ within,
        Keeps within q.assembly (Parser.expression last vs q.assembly)
          (expression last within vs)) :
    Keeps within a (Parser.expression last ts a) (expression last within ts) := by
  intro h ha hs
  subst ha
  rw [Parser.expression, expression]
  refine Agrees.enter hs fun h ha hs => ?_
  refine Agrees.bind (test _ _ h ha hs) fun p h hp hs => ?_
  split
  case h_1 offset us hr =>
    split
    case h_2 hn => exact absurd hr (hn offset us)
    case h_1 offset us' hr' =>
      cases hr.symm.trans hr'
      refine Agrees.bind (whenTrue p _ us hr _ h hp hs) fun q h hq hs => ?_
      split
      case h_1 offset' vs hr' =>
        split
        case h_2 hn => exact absurd hr' (hn offset' vs)
        case h_1 offset' vs' hr'' =>
          cases hr'.symm.trans hr''
          refine Agrees.bind (whenFalse p _ us hr q _ vs hr' _ h hq hs) fun r h hr hs => ?_
          exact Agrees.add hr hs fun root h hs => Agrees.leave rfl hs
      case h_2 hn =>
        split
        case h_1 offset' vs hr' => exact absurd hr' (hn offset' vs)
        case h_2 => exact .error hs.moments
  case h_2 hn =>
    split
    case h_1 offset us hr => exact absurd hr (hn offset us)
    case h_2 => exact Agrees.leave (congrArg _ hp) hs

theorem keeps_operators {left : Parsed ts} {op : BinaryOp}
    (hr : left.rest = ⟨.operator op, offset⟩ :: us)
    (right : ∀ within, Keeps within left.assembly (Parser.binary last op.tier us left.assembly)
      (binary last within op.tier us))
    (next : ∀ q : Parsed us, ∀ hl : us.length ≤ ts.length, ∀ within,
      Keeps within q.assembly (Parser.operators last op.tier (q.widen hl))
        (operators last within op.tier (q.widen hl).portion)) :
    Keeps within left.assembly (Parser.operators last op.tier left)
      (operators last within op.tier left.portion) := by
  intro h ha hs
  rw [Parser.operators, operators]
  split
  case h_2 hn => exact absurd hr (hn op offset us)
  case h_1 op' offset' us' hr' =>
    cases hr'.symm.trans hr
    rw [if_pos rfl]
    split
    case h_2 hn => exact absurd hr (hn op offset us)
    case h_1 op' offset' us' hr'' =>
      cases hr''.symm.trans hr
      rw [if_pos rfl]
      refine Agrees.bind (right _ h ha hs) fun q h hq hs => ?_
      refine Agrees.add hq hs fun root h hs => ?_
      exact next { q with root, assembly := h.assembly } _ _ h rfl hs

theorem keeps_left {left : Parsed ts} {tier : Nat}
    (hn : ∀ op offset us, left.rest = ⟨.operator op, offset⟩ :: us → op.tier ≠ tier) :
    Keeps within left.assembly (Parser.operators last tier left)
      (operators last within tier left.portion) := by
  intro h ha hs
  rw [Parser.operators, operators]
  split
  case h_1 op offset us hr =>
    rw [if_neg (hn op offset us hr)]
    split
    case h_2 hn => exact absurd hr (hn op offset us)
    case h_1 op' offset' us' hr' =>
      rw [if_neg (hn op' offset' us' hr')]
      exact .ok ha hs
  case h_2 hn =>
    split
    case h_1 op offset us hr => exact absurd hr (hn op offset us)
    case h_2 => exact .ok ha hs

theorem keeps_signed {t : Token} {op? : Option UnaryOp} (ht : t.lexeme.unary? = some op?)
    (operand : ∀ a within, Keeps within a (Parser.unary last us a) (unary last within us)) :
    Keeps within a (Parser.unary last (t :: us) a) (unary last within (t :: us)) := by
  intro h ha hs
  subst ha
  rw [Parser.unary, unary, ht]
  refine Agrees.enter hs fun h ha hs => ?_
  refine Agrees.bind (operand _ _ h ha hs) fun p h hp hs => ?_
  cases op?
  case none    => exact Agrees.leave (congrArg _ hp) hs
  case some op => exact Agrees.add hp hs fun root h hs => Agrees.leave rfl hs

theorem keeps_leaf (within : List Nat) (s : Step) (t : Token) (us : List Token) (a : Assembly) :
    Keeps within a (Parsed.leaf s t us a) (leaf within s t us) := by
  intro h ha hs
  subst ha
  exact Agrees.step hs fun root h hs => .ok rfl hs

theorem keeps_parentheses {t : Token} (ht : t.lexeme = .openParen)
    (inner : ∀ within, Keeps within a (Parser.expression last us a) (expression last within us)) :
    Keeps within a (Parser.term last t us a) (term last within t us) := by
  intro h ha hs
  rw [Parser.term, term, ht]
  refine Agrees.bind (inner _ h ha hs) fun p h hp hs => ?_
  split
  case h_1 offset vs hr =>
    split
    case h_2 hn => exact absurd hr (hn offset vs)
    case h_1 offset' vs' hr' =>
      cases hr.symm.trans hr'
      exact .ok hp hs
  case h_2 hn =>
    split
    case h_1 offset vs hr => exact absurd hr (hn offset vs)
    case h_2 => exact .error hs.moments

-- By induction on the calls of the readers, one case for each way through them.
theorem keeps (last : Nat) :
    (∀ ts a within, Keeps within a (Parser.expression last ts a) (expression last within ts)) ∧
    (∀ tiers ts a within,
      Keeps within a (Parser.binary last tiers ts a) (binary last within tiers ts)) ∧
    (∀ tier ts, ∀ left : Parsed ts, ∀ within, Keeps within left.assembly
      (Parser.operators last tier left) (operators last within tier left.portion)) ∧
    (∀ ts a within, Keeps within a (Parser.unary last ts a) (unary last within ts)) ∧
    (∀ t us a within, Keeps within a (Parser.term last t us a) (term last within t us)) := by
  apply Parser.expression.mutual_induct
    (fun ts a => ∀ within,
      Keeps within a (Parser.expression last ts a) (expression last within ts))
    (fun tiers ts a => ∀ within,
      Keeps within a (Parser.binary last tiers ts a) (binary last within tiers ts))
    (fun tier ts left => ∀ within, Keeps within left.assembly
      (Parser.operators last tier left) (operators last within tier left.portion))
    (fun ts a => ∀ within, Keeps within a (Parser.unary last ts a) (unary last within ts))
    (fun t us a => ∀ within, Keeps within a (Parser.term last t us a) (term last within t us))
  case case1 =>
    intro ts a ht hx hy within
    exact keeps_expression ht hx hy
  case case2 =>
    intro ts a hu within
    rw [Parser.binary, binary]
    exact hu within
  case case3 =>
    intro ts a tier hb ho within h ha hs
    rw [Parser.binary, binary]
    exact Agrees.bind (hb within h ha hs) fun p h hp hs => ho p within h hp hs
  case case4 =>
    intro ts left op offset us hr hb ho within
    exact keeps_operators hr hb fun q _ => ho q
  case case5 =>
    intro tier ts left op offset us hr hne within
    refine keeps_left fun op' offset' us' h => ?_
    cases hr.symm.trans h
    exact hne
  case case6 =>
    intro tier ts left hn within
    exact keeps_left fun op offset us h => absurd h (hn op offset us)
  case case7 =>
    intro a within h ha hs
    rw [Parser.unary, unary]
    exact .error hs.moments
  case case8 =>
    intro a t us ht hterm within
    rw [Parser.unary, unary, ht]
    exact hterm within
  case case9 =>
    intro a t us op? ht hu within
    exact keeps_signed ht hu
  case case10 =>
    intro t us a ht within
    rw [Parser.term, term, ht]
    exact keeps_leaf within .count t us a
  case case11 =>
    intro t us a v ht within
    rw [Parser.term, term, ht]
    exact keeps_leaf within (.literal v) t us a
  case case12 =>
    intro t us a ht hx within
    exact keeps_parentheses ht hx
  case case13 =>
    intro t us a hc hn ho within h ha hs
    rw [Parser.term, term]
    cases ht : t.lexeme
    case count     => exact absurd ht hc
    case number v  => exact absurd ht (hn v)
    case openParen => exact absurd ht ho
    all_goals exact .error hs.moments

-- What has been read and assembled, without how it was.
def forget (x : Except Stop (Portion ts) × History) : Except Stop (Parsed ts) :=
  x.1.map fun p => { p with assembly := x.2.assembly }

section

variable {x : Except Fault (Parsed ts)} {y : Except Stop (Portion ts) × History}

theorem Agrees.forget_eq (hxy : Agrees within x y) : forget y = x.mapError .fault := by
  cases hxy
  case ok p h ha hs => exact congrArg (fun a => Except.ok { p with assembly := a }) ha
  case error        => rfl

theorem Agrees.ne_underflow (hxy : Agrees within x y) : y.1 ≠ .error .underflow := by
  cases hxy <;> nofun

theorem Agrees.steady (hxy : Agrees within x y) : ∀ m ∈ y.2.moments, m.Steady := by
  cases hxy
  case ok hs    => exact hs.moments
  case error hm => exact hm

end

theorem reading_balances (last : Nat) :
    (∀ (c : Category) (ts : List Token) (a : Assembly) (p : Parsed ts), c.read last ts a = .ok p →
      p.Grown a ∧ (p.rest <:+ ts ∧ p.rest.length < ts.length) ∧
        (c = .expression →
          ∀ t ∈ p.rest.head?, t.lexeme ≠ .question ∧ ∀ op, t.lexeme ≠ .operator op)) ∧
    ∀ ts : List Token,
      forget ((expression last [] ts).on {}) = (Parser.expression last ts {}).mapError .fault ∧
        ((expression last [] ts).on {}).1 ≠ .error .underflow ∧
        ∀ m ∈ ((expression last [] ts).on {}).2.moments,
          m.assembly.opened = m.within.length ∧ m.assembly.opened ≤ 65 := by
  constructor
  · intro c ts a p h
    obtain ⟨⟨us, e, d, hts, _⟩, hs⟩ := Category.phrase_of_read h
    refine ⟨Category.grown_of_read h, ⟨⟨us, hts.symm⟩, p.rest_lt⟩, fun hc t ht => ?_⟩
    subst hc
    have hl := hs t ht
    constructor
    · intro hq
      simp [hq, Category.continues] at hl
    · intro op hop
      simp [hop, Category.continues] at hl
  · intro ts
    have hs : ({} : History).Steady [] := ⟨List.forall_mem_nil _, rfl, Nat.zero_le _⟩
    have hx := (keeps last).left ts {} [] {} rfl hs
    refine ⟨hx.forget_eq, hx.ne_underflow, fun m hm => ?_⟩
    have hm := hx.steady m hm
    exact ⟨hm.opened, hm.bound⟩

theorem reading_balances_conditional :
    let ts : List Token := [⟨.operator .subtract, 0⟩, ⟨.count, 1⟩, ⟨.question, 2⟩, ⟨.count, 3⟩,
      ⟨.colon, 4⟩, ⟨.count, 5⟩, ⟨.closeParen, 6⟩]
    ∃ p : Parsed ts, Category.expression.read 7 ts {} = .ok p ∧ p.rest = [⟨.closeParen, 6⟩] ∧
      p.Grown {} ∧ p.rest <:+ ts := by
  intro ts
  obtain ⟨p, h, hr⟩ : ∃ p, Category.expression.read 7 ts {} = .ok p ∧
      p.rest = [⟨.closeParen, 6⟩] := ⟨_, by cbv, by cbv⟩
  obtain ⟨hg, ⟨hs, _⟩, _⟩ := (reading_balances 7).left .expression ts {} p h
  exact ⟨p, h, hr, hg, hs⟩

-- The constructs that can be open at once, and the one that is one too many.
set_option maxRecDepth 8000 in
example : ((expression 64 [] (List.replicate 64 ⟨.not, 0⟩)).on {}).2.assembly.opened = 65 := by
  cbv

end Recorder

end MessageCatalog.Plural
