import MessageCatalog.Proofs.Bytewise.Argument
import MessageCatalog.Proofs.Bytewise.Plural
import MessageCatalog.Proofs.Template.Arguments

namespace MessageCatalog.Bytewise

open Number Text

section Reading

variable (s : String)

def readNumber (flaw : Flaw) (i : Nat) : Guarded Flaw (Option Nat × Nat) := do
  let count ← countFrom s Char.isDigit i
  if 0 < count then
    let digits ← cut s i (i + count)
    if decimalValue digits.toList ≤ Placeholder.limit then
      return (decimalValue digits.toList, i + count)
    else
      throw (.error flaw)
  else
    return (none, i)

def readArgument (i : Nat) : Guarded Flaw (Option Nat × Nat) := do
  let count ← countFrom s Char.isDigit i
  if 0 < count ∧ byte? s (i + count) = some '$' then
    match ← readNumber s .argumentTooLarge i with
    | (some 0, _) => throw (.error .argumentZero)
    | (some n, i) => return (some n, i + 1)
    | (none, _)   => return (none, i)
  else
    return (none, i)

def readFlags (f : Flags) (i : Nat) : Guarded Flaw (Flags × Nat) :=
  match _h : byte? s i with
  | some '-'  => readFlags { f with left := true } (i + 1)
  | some '+'  => readFlags { f with plus := true } (i + 1)
  | some ' '  => readFlags { f with pad := ' ' } (i + 1)
  | some '0'  => readFlags { f with pad := '0' } (i + 1)
  | some '\'' => do
    let behind ← cut s (i + 1) s.utf8ByteSize
    match behind.toList with
    | []       => throw (.error .missingPad)
    | pad :: _ => readFlags { f with pad } (i + 1 + pad.utf8Size)
  | _ => return (f, i)
termination_by s.utf8ByteSize - i
decreasing_by
  all_goals have := lt_of_byte? _h
  all_goals omega

def readPrecision (i : Nat) : Guarded Flaw (Option Nat × Nat) := do
  if byte? s i = some '.' then
    let (n, i) ← readNumber s .precisionTooLarge (i + 1)
    return (n.getD 0, i)
  else
    return (none, i)

def readConversion (i : Nat) : Guarded Flaw (Conversion × Nat) :=
  match byte? s i with
  | none        => throw (.error .missingConversion)
  | some letter =>
    match Conversion.ofLetter? letter with
    | none            => throw (.error .unknownConversion)
    | some conversion => return (conversion, i + 1)

-- The placeholder at the offset of a percent sign.
def read (start : Nat) : Guarded Flaw (Placeholder × Nat) := do
  let (argument, i) ← readArgument s (start + 1)
  let (flags, i) ← readFlags s {} i
  let (width, i) ← readNumber s .widthTooLarge i
  let (precision, i) ← readPrecision s i
  let (conversion, i) ← readConversion s i
  return ({ argument, flags, width := width.getD 0, precision, conversion }, i)

end Reading

section Cursors

variable {ε α β : Type} {s : String} {c : Cursor}

-- The same is read by offsets and by cursors, and reading ends in the text.
inductive Follows (s : String) : Guarded ε (α × Nat) → Except ε (α × Cursor) → Prop
  | ok {a : α} {c : Cursor} (h : c.In s) : Follows s (.ok (a, c.offset)) (.ok (a, c))
  | error (e : ε) : Follows s (.error (.error e)) (.error e)

theorem Follows.bind {x : Guarded ε (α × Nat)} {y : Except ε (α × Cursor)}
    {f : α × Nat → Guarded ε (β × Nat)} {g : α × Cursor → Except ε (β × Cursor)}
    (h : Follows s x y) (hk : ∀ a c, c.In s → Follows s (f (a, c.offset)) (g (a, c))) :
    Follows s (x >>= f) (y >>= g) := by
  cases h
  case ok h    => exact hk _ _ h
  case error e => exact .error e

theorem Follows.skip_one {a : Char} (h : c.In s) (hr : c.rest.head? = some a) (ha : a.utf8Size = 1)
    (x : α) : Follows s (.ok (x, c.offset + 1)) (.ok (x, c.skip 1) : Except ε _) :=
  Cursor.offset_skip_one hr ha ▸ .ok (h.skip 1)

theorem follows_readNumber (flaw : Flaw) (h : c.In s) :
    Follows s (readNumber s flaw c.offset) (Placeholder.readNumber flaw c) := by
  rw [Placeholder.readNumber.eq_def]
  split
  case h_1 hn =>
    rw [readNumber, h.countFrom utf8Size_of_isDigit, Outcome.ok_bind, hn]
    exact .ok h
  case h_2 hn =>
    rw [readNumber, h.countFrom utf8Size_of_isDigit, Outcome.ok_bind,
      if_pos (List.length_pos_iff.mpr hn), h.cut_run utf8Size_of_isDigit, Outcome.ok_bind,
      String.toList_ofList]
    split
    case isFalse => exact .error flaw
    case isTrue  =>
      have hs : c.skip (c.run Char.isDigit).length = _ := c.skipRun_eq utf8Size_of_isDigit
      rw [hs]
      exact .ok (h.skipRun utf8Size_of_isDigit)

theorem eq_of_readNumber {flaw : Flaw} {n : Nat} {c' : Cursor}
    (h : Placeholder.readNumber flaw c = .ok (some n, c')) : c' = c.skipRun Char.isDigit := by
  rw [Placeholder.readNumber.eq_def] at h
  split at h
  case h_1 => cases h
  case h_2 =>
    split at h
    case isTrue  => cases h; rfl
    case isFalse => cases h

theorem follows_readArgument (h : c.In s) :
    Follows s (readArgument s c.offset) (Placeholder.readArgument c) := by
  have hd : Cursor.In ⟨c.offset + (c.run Char.isDigit).length, c.rest.dropWhile Char.isDigit⟩ s :=
    h.skipRun utf8Size_of_isDigit
  rw [Placeholder.readArgument.eq_def, c.skipRun_eq utf8Size_of_isDigit]
  split
  case h_1 cs hr =>
    rw [readArgument, h.countFrom utf8Size_of_isDigit, Outcome.ok_bind]
    by_cases hn : c.run Char.isDigit = []
    case pos =>
      rw [hn, Placeholder.readNumber, hn]
      exact .ok h
    case neg =>
      have hb := (hd.byte?_eq_some_iff (a := '$') rfl).mpr (hr ▸ rfl)
      rw [if_pos ⟨List.length_pos_iff.mpr hn, hb⟩]
      have hf := follows_readNumber .argumentTooLarge h
      generalize readNumber s .argumentTooLarge c.offset = x at hf ⊢
      generalize hy : Placeholder.readNumber .argumentTooLarge c = y at hf ⊢
      cases hf
      case error e => exact .error e
      case ok a c' h' =>
        rcases a with _ | _ | n
        case none      => exact .ok h
        case some.zero => exact .error _
        case some.succ =>
          have hc := eq_of_readNumber hy
          rw [c.skipRun_eq utf8Size_of_isDigit] at hc
          exact .skip_one (a := '$') h' (by rw [hc, hr]; rfl) rfl (some (n + 1))
  case h_2 hr =>
    have hn : ¬(0 < (c.run Char.isDigit).length ∧
        byte? s (c.offset + (c.run Char.isDigit).length) = some '$') := by
      rintro ⟨_, hb⟩
      obtain ⟨cs, he⟩ := hd.exists_cons_of_byte? rfl hb
      exact hr cs he
    rw [readArgument, h.countFrom utf8Size_of_isDigit, Outcome.ok_bind, if_neg hn]
    exact .ok h

theorem readFlags_eq (s : String) (f : Flags) (i : Nat) :
    readFlags s f i =
      match byte? s i with
      | some '-'  => readFlags s { f with left := true } (i + 1)
      | some '+'  => readFlags s { f with plus := true } (i + 1)
      | some ' '  => readFlags s { f with pad := ' ' } (i + 1)
      | some '0'  => readFlags s { f with pad := '0' } (i + 1)
      | some '\'' => do
        let behind ← cut s (i + 1) s.utf8ByteSize
        match behind.toList with
        | []       => throw (.error .missingPad)
        | pad :: _ => readFlags s { f with pad } (i + 1 + pad.utf8Size)
      | _ => return (f, i) := by
  rw [readFlags]
  split <;> simp [*]

theorem follows_readFlags (f : Flags) {i : Nat} {cs : List Char} (h : Cursor.In ⟨i, cs⟩ s) :
    Follows s (readFlags s f i) (Placeholder.readFlags f i cs) := by
  fun_induction Placeholder.readFlags f i cs
  case case1 ih | case2 ih | case3 ih | case4 ih =>
    rw [readFlags_eq, (h.byte?_eq_some_iff rfl).mpr rfl]
    exact ih (h.skip 1)
  case case5 f i pad cs ih =>
    have hs : Cursor.In ⟨i + 1, pad :: cs⟩ s := h.skip 1
    rw [readFlags_eq, (h.byte?_eq_some_iff rfl).mpr rfl, hs.cut_last, Outcome.ok_bind,
      String.toList_ofList]
    exact ih (hs.skip 1)
  case case6 f i =>
    have hs : Cursor.In ⟨i + 1, []⟩ s := h.skip 1
    rw [readFlags_eq, (h.byte?_eq_some_iff rfl).mpr rfl, hs.cut_last, Outcome.ok_bind,
      String.toList_ofList]
    exact .error _
  case case7 f i cs minus plus blank zero quoted quote =>
    rw [readFlags_eq]
    split
    case h_1 he => obtain ⟨as, he⟩ := h.exists_cons_of_byte? rfl he; cases minus as he
    case h_2 he => obtain ⟨as, he⟩ := h.exists_cons_of_byte? rfl he; cases plus as he
    case h_3 he => obtain ⟨as, he⟩ := h.exists_cons_of_byte? rfl he; cases blank as he
    case h_4 he => obtain ⟨as, he⟩ := h.exists_cons_of_byte? rfl he; cases zero as he
    case h_5 he =>
      obtain ⟨as, he⟩ := h.exists_cons_of_byte? rfl he
      cases as
      case nil       => cases quote he
      case cons a as => cases quoted a as he
    case h_6 => exact .ok h

theorem follows_readPrecision (h : c.In s) :
    Follows s (readPrecision s c.offset) (Placeholder.readPrecision c) := by
  rw [Placeholder.readPrecision.eq_def]
  split
  case h_1 cs hr =>
    have hs := Cursor.offset_skip_one (c := c) (a := '.') (hr ▸ rfl) rfl
    have hb := (h.byte?_eq_some_iff (a := '.') rfl).mpr (hr ▸ rfl)
    rw [readPrecision, if_pos hb, ← hs]
    exact (follows_readNumber _ (h.skip 1)).bind fun n c hc => .ok hc
  case h_2 hr =>
    have hb : byte? s c.offset ≠ some '.' := by
      intro hb
      have ⟨cs, he⟩ := h.exists_cons_of_byte? rfl hb
      exact hr cs he
    rw [readPrecision, if_neg hb]
    exact .ok h

theorem utf8Size_of_ofLetter? {a : Char} {k : Conversion} (h : Conversion.ofLetter? a = some k) :
    a.utf8Size = 1 := by
  have hk : k.letter = a := by simpa using List.find?_some h
  have table : ∀ k ∈ Conversion.all, k.letter.utf8Size = 1 := by decide
  exact hk ▸ table k k.mem_all

theorem follows_readConversion (h : c.In s) :
    Follows s (readConversion s c.offset) (Placeholder.readConversion c) := by
  rw [Placeholder.readConversion.eq_def]
  split
  case h_1 hr =>
    rw [readConversion, h.byte?_of_nil hr]
    exact .error _
  case h_2 a cs hr =>
    obtain ⟨b, hb, ha⟩ := h.byte?_of_cons hr
    have hab : Conversion.ofLetter? b = Conversion.ofLetter? a := by
      by_cases hs : a.utf8Size = 1 ∨ b.utf8Size = 1
      case pos => rw [ha hs]
      case neg =>
        have hn {d : Char} (hd : d.utf8Size ≠ 1) : Conversion.ofLetter? d = none :=
          Option.eq_none_iff_forall_ne_some.mpr fun k hk => hd (utf8Size_of_ofLetter? hk)
        rw [hn (not_or.mp hs).left, hn (not_or.mp hs).right]
    rw [readConversion, hb]
    dsimp only
    rw [hab]
    cases hk : Conversion.ofLetter? a
    case none   => exact .error _
    case some k =>
      exact .skip_one h (hr ▸ rfl) (utf8Size_of_ofLetter? hk) k

theorem follows_read {start : Nat} {cs : List Char} (h : Cursor.In ⟨start + 1, cs⟩ s) :
    Follows s (read s start) (Placeholder.read ⟨start + 1, cs⟩) := by
  refine (follows_readArgument h).bind fun argument c hc => ?_
  refine (follows_readFlags {} hc).bind fun flags c hc => ?_
  refine (follows_readNumber .widthTooLarge hc).bind fun width c hc => ?_
  refine (follows_readPrecision hc).bind fun precision c hc => ?_
  exact (follows_readConversion hc).bind fun conversion c hc => .ok hc

end Cursors

section Formatting

-- How far ahead a character is.
def find (c : Char) (text : List Char) : Option Nat :=
  if c ∈ text then some (byteLength (text.takeWhile (· ≠ c))) else none

variable (s : String) (args : List Argument)

-- What is shown in place of a placeholder, the argument that is next, and where to go on.
def supply (next : Nat) (p : Placeholder) (last : Nat) :
    Guarded FormatError (List Char × Nat × Nat) :=
  let index := p.argument.getD next
  if index = 0 then
    throw (.trap .index)
  else
    match args[index - 1]? with
    | none   => throw (.error (.missingArgument index args.length))
    | some a => do
      let shown ← render p a
      return (shown, if p.argument = none then next + 1 else next, last)

-- The same for what stands at the offset of a percent sign.
def turn (next p : Nat) : Guarded FormatError (List Char × Nat × Nat) := do
  let behind ← cut s (p + 1) s.utf8ByteSize
  if behind.toList.head? = some '%' then
    return (['%'], next, p + 2)
  else
    let (placeholder, last) ← (read s p).mapError (Halt.map (.invalidPlaceholder p))
    supply args next placeholder last

def fill (next i : Nat) : Guarded FormatError (List Char) := do
  let ahead ← cut s i s.utf8ByteSize
  match find '%' ahead.toList with
  | none          => return ahead.toList
  | some distance => do
    let text ← cut s i (i + distance)
    let (shown, next, last) ← turn s args next (i + distance)
    if i < last ∧ last ≤ s.utf8ByteSize then
      return text.toList ++ (shown ++ (← fill next last))
    else
      throw (.trap .standstill)
termination_by s.utf8ByteSize - i

def format : Guarded FormatError String :=
  String.ofList <$> fill s args 1 0

end Formatting

section Filling

variable {s : String} {args : List Argument} {next i p : Nat} {cs rest text : List Char}
  {t : MessageCatalog.Template}

theorem find_append {c : Char} (h : c ∉ text) (rest : List Char) :
    find c (text ++ c :: rest) = some (byteLength text) := by
  have hp : ∀ d ∈ text, decide (d ≠ c) := by
    intro d hd
    exact decide_eq_true fun he => h (he ▸ hd)
  rw [find, if_pos (by simp), List.takeWhile_append_of_pos hp, List.takeWhile_cons_of_neg (by simp),
    List.append_nil]

-- A template filled with the arguments from one on.
def complete (args : List Argument) (next : Nat) (t : MessageCatalog.Template) :
    Except FormatError (List Char) := do
  let cs ← Template.fill args next t.pieces
  match t.fault with
  | none                  => return cs
  | some (position, flaw) => throw (.invalidPlaceholder position flaw)

theorem complete_of_fill {piece : Piece} {shown : List Char} {next' : Nat}
    (h : Template.fill args next (piece :: t.pieces) = (do
      return shown ++ (← Template.fill args next' t.pieces))) :
    complete args next (t.push piece) = (do return shown ++ (← complete args next' t)) := by
  rw [complete, Template.push, h, complete]
  cases Template.fill args next' t.pieces <;> cases t.fault <;> rfl

theorem complete_text (hn : '%' ∉ text) (args : List Argument) (next i : Nat) (rest : List Char) :
    complete args next (Template.scan i (text ++ rest)) = (do
      return text ++ (← complete args next (Template.scan (i + byteLength text) rest))) := by
  induction text generalizing i
  case nil => cases hx : complete args next (Template.scan i rest) <;> simp [byteLength, hx]
  case cons c text ih =>
    obtain ⟨hc, hn⟩ : '%' ≠ c ∧ '%' ∉ text := by simpa using hn
    have hs : Template.scan i (c :: (text ++ rest)) =
        (Template.scan (i + c.utf8Size) (text ++ rest)).push (.text c) := by
      rw [Template.scan] <;> simp [hc.symm]
    have hp : complete args next ((Template.scan (i + c.utf8Size) (text ++ rest)).push (.text c)) =
        (do return [c] ++ (← complete args next (Template.scan (i + c.utf8Size) (text ++ rest)))) :=
      complete_of_fill rfl
    rw [List.cons_append, hs, hp, ih hn, byteLength,
      ← Nat.add_assoc]
    cases complete args next (Template.scan (i + c.utf8Size + byteLength text) rest) <;> rfl

-- A turn does what the piece at a percent sign does, and moves on.
inductive Turns (s : String) (args : List Argument) (next p : Nat) (rest : List Char) :
    Guarded FormatError (List Char × Nat × Nat) → Prop
  | error {e : FormatError}
      (h : complete args next (Template.scan p ('%' :: rest)) = .error e) :
      Turns s args next p rest (.error (.error e))
  | ok {shown cs : List Char} {next' last : Nat} (stands : Cursor.In ⟨last, cs⟩ s)
      (forward : p < last) (positive : 1 ≤ next')
      (h : complete args next (Template.scan p ('%' :: rest)) = (do
        return shown ++ (← complete args next' (Template.scan last cs)))) :
      Turns s args next p rest (.ok (shown, next', last))

theorem turns_supply {w : List Char} {q : Placeholder} {last : Nat}
    (hw : Placeholder.Spells w q) (hread : Placeholder.read ⟨p + 1, w ++ cs⟩ = .ok (q, ⟨last, cs⟩))
    (stands : Cursor.In ⟨last, cs⟩ s) (forward : p < last) (positive : 1 ≤ next) :
    Turns s args next p (w ++ cs) (supply args next q last) := by
  have hq : q.argument ≠ some 0 := Template.Spells.argument_ne (.slot hw .nil) (.head _)
  have hi : q.argument.getD next ≠ 0 := by
    cases hk : q.argument
    case none   => exact Nat.ne_of_gt positive
    case some k => exact fun hz => hq (hk.trans (congrArg some hz))
  rw [supply, if_neg hi]
  cases ha : args[q.argument.getD next - 1]?
  case none =>
    refine .error ?_
    rw [Template.scan_slot hread, complete, Template.push, Template.fill, ha]
    rfl
  case some a =>
    dsimp only
    rw [render_eq]
    refine .ok stands forward ?_ ?_
    · split
      case isTrue  => exact Nat.le_succ_of_le positive
      case isFalse => exact positive
    · rw [Template.scan_slot hread]
      refine complete_of_fill ?_
      rw [Template.fill, ha]

theorem turns (h : Cursor.In ⟨p, '%' :: rest⟩ s) (positive : 1 ≤ next) :
    Turns s args next p rest (turn s args next p) := by
  have hs : Cursor.In ⟨p + 1, rest⟩ s := h.skip 1
  rw [turn, hs.cut_last, Outcome.ok_bind, String.toList_ofList]
  split
  case isTrue hr =>
    obtain ⟨cs, rfl⟩ := List.head?_eq_some_iff.mp hr
    refine .ok (hs.skip 1) (Nat.lt_add_of_pos_right (by decide)) positive ?_
    rw [Template.scan]
    exact complete_of_fill rfl
  case isFalse hr =>
    have hf := follows_read hs
    rcases Placeholder.spells_or_flawed rest with ⟨w, q, cs, rfl, hw⟩ | ⟨flaw, hw⟩
    case inr =>
      rw [Placeholder.read_of_flawed hw] at hf
      generalize read s p = x at hf ⊢
      cases hf
      refine .error ?_
      rw [Template.scan_flaw (Placeholder.read_of_flawed hw _) hr]
      rfl
    case inl =>
      have hread := Placeholder.read_of_spells hw (p + 1) cs
      rw [hread] at hf
      generalize read s p = x at hf ⊢
      cases hf
      case ok hc =>
        have forward : p < p + 1 + byteLength w :=
          Nat.lt_of_lt_of_le (Nat.lt_succ_self p) (Nat.le_add_right ..)
        exact turns_supply hw hread hc forward positive

theorem fill_eq (h : Cursor.In ⟨i, cs⟩ s) (positive : 1 ≤ next) :
    fill s args next i = lift (complete args next (Template.scan i cs)) := by
  fun_induction fill s args next i generalizing cs
  case case1 next i ih =>
    rw [h.cut_last, Outcome.ok_bind, String.toList_ofList]
    by_cases hm : '%' ∈ cs
    case neg =>
      have hc := complete_text hm args next i []
      rw [List.append_nil] at hc
      rw [find, if_neg hm, hc, Template.scan]
      exact congrArg Except.ok cs.append_nil.symm
    case pos =>
      obtain ⟨text, rest, rfl, hn⟩ := List.eq_append_cons_of_mem hm
      have hs : Cursor.In ⟨i + byteLength text, '%' :: rest⟩ s := by
        have hs := h.skip text.length
        rwa [Cursor.skip_append rfl] at hs
      have hcut : cut s i (i + byteLength text) =
          (.ok (.ofList text) : Guarded FormatError String) :=
        h.cut hs rfl
      rw [find_append hn, complete_text hn]
      dsimp only
      rw [hcut, Outcome.ok_bind, String.toList_ofList]
      have ht : Turns s args .. := turns hs positive
      generalize turn s args next (i + byteLength text) = x at ht ⊢
      cases ht
      case error e he => rw [he]; rfl
      case ok shown cs next' last stands forward positive he =>
        have hl : last ≤ s.utf8ByteSize := stands.utf8ByteSize_eq ▸ Nat.le_add_right ..
        have hi : i < last := Nat.lt_of_le_of_lt (Nat.le_add_right ..) forward
        rw [he, Outcome.ok_bind]
        dsimp only
        rw [if_pos ⟨hi, hl⟩, ih next' last ⟨hi, hl⟩ stands positive]
        cases complete args next' (Template.scan last cs) <;> rfl

theorem format_eq_lift (s : String) (args : List Argument) :
    format s args = lift (MessageCatalog.format s args) := by
  have h : fill s args 1 0 = _ := fill_eq (Cursor.In.start s) (Nat.le_refl 1)
  rw [format, h, Template.format_eq, complete]
  cases Template.fill args 1 (Template.scan 0 s.toList).pieces <;>
    cases (Template.scan 0 s.toList).fault <;> rfl

end Filling

theorem never_trapped :
    (∀ (template : String) (args : List Argument),
      (∀ t, format template args ≠ .error (.trap t)) ∧
        format template args = lift (MessageCatalog.format template args)) ∧
    (∀ source : String,
      (∀ t, parse source ≠ .error (.trap t)) ∧ parse source = lift (Plural.Rule.parse source)) ∧
    ∀ (s : String) (fraction : Bool),
      ∃ w, leadingNumber s fraction = (.ok w : Guarded FormatError String) ∧
        (Argument.text w).toInt64 = (Argument.text s).toInt64 ∧
        (fraction → (Argument.text w).toBinary64 = (Argument.text s).toBinary64) := by
  refine ⟨fun template args => ?_, fun source => ?_, fun s fraction => ?_⟩
  · have h := format_eq_lift template args
    exact ⟨fun t => h ▸ lift_ne_trap _ t, h⟩
  · have h := parse_eq_lift source
    exact ⟨fun t => h ▸ lift_ne_trap _ t, h⟩
  · have ⟨w, h, hi, hf⟩ := exists_leadingNumber (ε := FormatError) s fraction
    refine ⟨.ofList w, h, ?_, fun hb => ?_⟩
    · rw [Argument.toInt64, String.toList_ofList, hi, Argument.toInt64]
    · rw [Argument.toBinary64, String.toList_ofList, hf hb, Argument.toBinary64]

end MessageCatalog.Bytewise
