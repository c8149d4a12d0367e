import MessageCatalog.Proofs.Bytewise.Text
import MessageCatalog.Proofs.Template.Leading
import MessageCatalog.Template.Placeholder.Render

namespace MessageCatalog.Bytewise

open Number Text

-- The start of a text without white space that is read as a number.
def numberStart {ε : Type} (s : String) (fraction : Bool) : Guarded ε String := do
  let sign := if byte? s 0 = some '-' ∨ byte? s 0 = some '+' then 1 else 0
  let last := sign + (← countFrom s Char.isDigit sign)
  if fraction ∧ byte? s last = some '.' then
    cut s 0 (last + 1 + (← countFrom s Char.isDigit (last + 1)))
  else
    cut s 0 last

def leadingNumber {ε : Type} (s : String) (fraction : Bool) : Guarded ε String :=
  numberStart (.ofList (trimStart isWhite s.toList)) fraction

def toInt64 {ε : Type} : Argument → Guarded ε Int64
  | .text s => return (Numeral.read (← leadingNumber s false).toList).toInt64
  | a       => return a.toInt64

def toBinary64 {ε : Type} : Argument → Guarded ε Binary64
  | .text s => return (Numeral.read (← leadingNumber s true).toList).toBinary64
  | a       => return a.toBinary64

-- Outside of scientific notation, the decimals that are shown are counted down from the digits.
def generalText {ε : Type} (digits : Nat) (upper : Bool) (x : Binary64) : Guarded ε (List Char) :=
  if x.isFinite then
    let s := x.magnitude.scientific (digits - 1)
    if s.exponent < -4 ∨ digits ≤ s.exponent then
      return stripZeros s.mantissa ++ (if upper then 'E' else 'e') :: s.exponentText
    else
      let decimals := digits - 1 - s.exponent
      if decimals < 0 then
        throw (.trap .decimals)
      else
        return stripZeros (x.magnitude.fixed decimals.toNat)
  else
    return upperIf upper x.specialText

def render {ε : Type} (p : Placeholder) (a : Argument) : Guarded ε (List Char) :=
  match p.conversion with
  | .text               => return p.render a
  | .fixed _            => return p.render (.float (← toBinary64 a))
  | .exponent _         => return p.render (.float (← toBinary64 a))
  | .general upper      => do
    let x ← toBinary64 a
    let body ← generalText (max 1 p.precisionOrDefault) upper x
    return Rendering.fill { sign := p.flags.sign x.isNegative, body } p.flags p.width
  | _                   => return p.render (.int (← toInt64 a))

section Arguments

variable {ε : Type} {sign v text : List Char} {negative : Bool}

theorem trimStart_of_prefix {p : Char → Bool} {w : List Char} (h : w <+: trimStart p text) :
    trimStart p w = w := by
  obtain ⟨rest, hr⟩ := h
  match w with
  | []     => rfl
  | c :: _ =>
    have hc := List.head?_dropWhile_not p text
    rw [trimStart] at hr
    rw [← hr] at hc
    exact List.dropWhile_cons_of_neg (by simpa using hc)

theorem unsigned_digits (hv : Unsigned v) : Unsigned (text.takeWhile Char.isDigit ++ v) := by
  match hd : text.takeWhile Char.isDigit with
  | []      => exact hv
  | d :: ds =>
    have hm : d ∈ text.takeWhile Char.isDigit := hd ▸ List.mem_cons_self ..
    exact unsigned_of_head ⟨d, rfl, List.mem_takeWhile_imp hm⟩

theorem read_of_start (h : sign ++ v <+: trimStart isWhite text) (signText : SignText sign negative)
    (hv : Unsigned v) :
    Numeral.read (sign ++ v) =
      { negative, whole := v.takeWhile Char.isDigit
        decimals := Numeral.read.decimals (v.dropWhile Char.isDigit) } := by
  simp only [Numeral.read, trimStart_of_prefix h, readSign_append signText hv]

-- The bytes of a sign.
theorem length_sign {t : String} (signText : SignText sign negative) (ht : t.toList = sign ++ v)
    (hs : sign = [] → Unsigned t.toList) :
    (if byte? t 0 = some '-' ∨ byte? t 0 = some '+' then 1 else 0) = sign.length ∧
      byteLength sign = sign.length := by
  have h := Cursor.In.start t
  have hm := h.byte?_eq_some_iff (a := '-') rfl
  have hp := h.byte?_eq_some_iff (a := '+') rfl
  cases signText
  case minus => exact ⟨if_pos (.inl (hm.mpr (by rw [Cursor.start, ht]; rfl))), rfl⟩
  case plus  => exact ⟨if_pos (.inr (hp.mpr (by rw [Cursor.start, ht]; rfl))), rfl⟩
  case absent =>
    refine ⟨if_neg ?_, rfl⟩
    rintro (hb | hb)
    · exact hs rfl _ (hm.mp hb) (.inl rfl)
    · exact hs rfl _ (hp.mp hb) (.inr rfl)

-- The digits behind a sign, and if a fraction is wanted, a point with the digits behind it.
def mantissa (fraction : Bool) (v : List Char) : List Char :=
  if fraction ∧ (v.dropWhile Char.isDigit).head? = some '.' then
    v.takeWhile Char.isDigit ++ '.' :: (v.dropWhile Char.isDigit).tail.takeWhile Char.isDigit
  else
    v.takeWhile Char.isDigit

theorem numberStart_eq {t : String} (signText : SignText sign negative) (ht : t.toList = sign ++ v)
    (hs : sign = [] → Unsigned t.toList) (fraction : Bool) :
    numberStart t fraction = (.ok (.ofList (sign ++ mantissa fraction v)) : Guarded ε String) := by
  have ⟨hk, hl⟩ := length_sign signText ht hs
  have h : Cursor.In ⟨sign.length, v⟩ t := ⟨sign, ht, hl.symm⟩
  have hw : Cursor.In
      ⟨sign.length + (v.takeWhile Char.isDigit).length, v.dropWhile Char.isDigit⟩ t :=
    h.skipRun utf8Size_of_isDigit
  have hcount : countFrom t Char.isDigit sign.length =
      (.ok (v.takeWhile Char.isDigit).length : Guarded ε Nat) :=
    h.countFrom utf8Size_of_isDigit
  have hp := hw.byte?_eq_some_iff (a := '.') rfl
  have hv : v.takeWhile Char.isDigit ++ v.dropWhile Char.isDigit = v :=
    List.takeWhile_append_dropWhile
  rw [numberStart, hk, hcount, Outcome.ok_bind, mantissa]
  simp only [hp]
  split
  case isFalse =>
    refine (Cursor.In.start t).cut hw ?_
    change t.toList = _ ++ v.dropWhile Char.isDigit
    rw [ht, List.append_assoc, hv]
  case isTrue hf =>
    have ⟨cs, hc⟩ := List.head?_eq_some_iff.mp hf.right
    have hn := hw.skip 1
    rw [hc] at hn hv ⊢
    have hcount : countFrom t Char.isDigit (sign.length + (v.takeWhile Char.isDigit).length + 1) =
        (.ok (cs.takeWhile Char.isDigit).length : Guarded ε Nat) :=
      hn.countFrom utf8Size_of_isDigit
    have hcs : cs.takeWhile Char.isDigit ++ cs.dropWhile Char.isDigit = cs :=
      List.takeWhile_append_dropWhile
    rw [hcount, Outcome.ok_bind]
    refine (Cursor.In.start t).cut (hn.skipRun utf8Size_of_isDigit) ?_
    change t.toList = _ ++ cs.dropWhile Char.isDigit
    rw [ht, List.append_assoc, List.append_assoc, List.tail_cons, List.cons_append, hcs, hv]

theorem isPrefix_mantissa (fraction : Bool) (v : List Char) : mantissa fraction v <+: v := by
  rw [mantissa]
  split
  case isFalse => exact List.takeWhile_prefix _
  case isTrue hf =>
    have ⟨cs, hc⟩ := List.head?_eq_some_iff.mp hf.right
    nth_rewrite 3 [← List.takeWhile_append_dropWhile (p := Char.isDigit) (l := v)]
    rw [hc, List.prefix_append_right_inj, List.tail_cons, List.cons_prefix_cons]
    exact ⟨rfl, List.takeWhile_prefix _⟩

theorem unsigned_mantissa (fraction : Bool) (v : List Char) : Unsigned (mantissa fraction v) := by
  rw [mantissa]
  split
  case isTrue  => exact unsigned_digits (unsigned_point _)
  case isFalse => exact List.append_nil (v.takeWhile Char.isDigit) ▸ unsigned_digits nofun

theorem takeWhile_mantissa (fraction : Bool) (v : List Char) :
    (mantissa fraction v).takeWhile Char.isDigit = v.takeWhile Char.isDigit := by
  have hd : ∀ c ∈ v.takeWhile Char.isDigit, c.isDigit := fun _ => List.mem_takeWhile_imp
  rw [mantissa]
  split
  case isTrue  => exact Placeholder.takeWhile_digits hd (by simp)
  case isFalse => exact List.takeWhile_idem

theorem decimals_mantissa (v : List Char) :
    Numeral.read.decimals ((mantissa true v).dropWhile Char.isDigit) =
      Numeral.read.decimals (v.dropWhile Char.isDigit) := by
  have hd (cs : List Char) : ∀ c ∈ cs.takeWhile Char.isDigit, c.isDigit :=
    fun _ => List.mem_takeWhile_imp
  rw [mantissa]
  split
  case isTrue hf =>
    have ⟨cs, hc⟩ := List.head?_eq_some_iff.mp hf.right
    rw [dropWhile_digits (hd v) (by simp), hc]
    exact List.takeWhile_idem
  case isFalse hf =>
    rw [List.dropWhile_eq_nil_iff.mpr (hd v), Numeral.read.decimals.eq_def (v.dropWhile _)]
    split
    case h_1 hc => exact absurd ⟨rfl, by rw [hc]; rfl⟩ hf
    case h_2    => rfl

theorem exists_leadingNumber (s : String) (fraction : Bool) :
    ∃ w, leadingNumber s fraction = (.ok (.ofList w) : Guarded ε String) ∧
      (Numeral.read w).toInt64 = (Numeral.read s.toList).toInt64 ∧
      (fraction → Numeral.read w = Numeral.read s.toList) := by
  obtain ⟨sign, signText, ht, hs⟩ := exists_signText (trimStart isWhite s.toList)
  let v := (Numeral.readSign (trimStart isWhite s.toList)).2
  have hn := numberStart_eq (ε := ε) (t := .ofList (trimStart isWhite s.toList)) signText
    (by rwa [String.toList_ofList]) (by rwa [String.toList_ofList]) fraction
  have hp : sign ++ mantissa fraction v <+: trimStart isWhite s.toList :=
    ht ▸ (List.prefix_append_right_inj sign).mpr (isPrefix_mantissa fraction _)
  have hr := read_of_start hp signText (unsigned_mantissa _ _)
  refine ⟨_, hn, ?_, ?_⟩
  · rw [hr, takeWhile_mantissa]
    rfl
  · rintro rfl
    rw [hr, takeWhile_mantissa, decimals_mantissa]
    rfl

theorem toInt64_eq_lift (a : Argument) : toInt64 a = (.ok a.toInt64 : Guarded ε Int64) := by
  match a with
  | .int _ | .float _ => rfl
  | .text s =>
    have ⟨w, hw, hn, _⟩ := exists_leadingNumber (ε := ε) s false
    rw [toInt64, hw, Outcome.ok_bind, String.toList_ofList, hn]
    rfl

theorem toBinary64_eq_lift (a : Argument) :
    toBinary64 a = (.ok a.toBinary64 : Guarded ε Binary64) := by
  match a with
  | .int _ | .float _ => rfl
  | .text s =>
    have ⟨w, hw, _, hn⟩ := exists_leadingNumber (ε := ε) s true
    rw [toBinary64, hw, Outcome.ok_bind, String.toList_ofList, hn rfl]
    rfl

theorem generalText_eq (digits : Nat) (upper : Bool) (x : Binary64) :
    generalText digits upper x =
      (.ok (MessageCatalog.generalText digits upper x) : Guarded ε (List Char)) := by
  rw [generalText, MessageCatalog.generalText]
  split
  case isFalse => rfl
  case isTrue  =>
    dsimp only
    split
    case isTrue  => rfl
    case isFalse h =>
      rw [if_neg (by omega)]
      rfl

theorem render_eq (p : Placeholder) (a : Argument) :
    render p a = (.ok (p.render a) : Guarded ε (List Char)) := by
  rw [render, Placeholder.render]
  cases hk : p.conversion
  case text => rfl
  case fixed | exponent =>
    simp only [toBinary64_eq_lift, Outcome.ok_bind, Placeholder.render, Placeholder.rendering, hk]
    rfl
  case general upper =>
    simp only [toBinary64_eq_lift, generalText_eq, Outcome.ok_bind, Placeholder.rendering, hk]
    rfl
  all_goals
    simp only [toInt64_eq_lift, Outcome.ok_bind, Placeholder.render, Placeholder.rendering, hk]
    rfl

end Arguments

end MessageCatalog.Bytewise
