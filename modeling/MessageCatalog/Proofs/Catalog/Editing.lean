import MessageCatalog.Proofs.Catalog.Restoring
import MessageCatalog.Proofs.Catalog.Translating

namespace MessageCatalog.Catalog

open ObjectFile Plural Text Translator

-- Two catalogs give the same for a message.
structure AgreesOn (c c' : Catalog) (id : String) : Prop where
  variants  : c'.variants? id = c.variants? id
  singular  : singular c' id = singular c id
  counted   : ∀ n, counted c' id n = counted c id n
  translate : ∀ args, translate c' id args = translate c id args

-- An edit of the snapshot of a catalog has only an effect of its own.
structure EditsApart (c : Catalog) : Prop where
  put      : ∀ id variants, ∃ messages,
    (c.snapshot.put id variants).restore = .ok { c with messages } ∧
      messages[id]? = (if id = "" ∨ variants = [] then none else some variants) ∧
      ∀ other, other ≠ id → c.AgreesOn { c with messages } other
  remove   : ∀ id, ∃ messages,
    (c.snapshot.remove id).restore = .ok { c with messages } ∧
      messages[id]? = none ∧
      ∀ other, other ≠ id → c.AgreesOn { c with messages } other
  putNil   : ∀ id, (c.snapshot.put id []).restore = (c.snapshot.remove id).restore
  setRule  : ∀ source rule, Rule.parse source = .ok rule →
    (c.snapshot.setRule source).restore = .ok { c with rule } ∧
      ∀ id, singular { c with rule } id = singular c id ∧
        variants? { c with rule } id = c.variants? id
  rejected : ∀ source fault, Rule.parse source = .error fault →
    (c.snapshot.setRule source).restore = .error (.invalidRule source fault)
  -- Any change of the fields, also of the one that states a rule.
  describe : ∀ fields locale,
    { c.snapshot with fields, locale }.restore = .ok { c with fields, locale } ∧
      ∀ id, c.AgreesOn { c with fields, locale } id

section Agreeing

variable {c c' : Catalog} {id : String}

theorem agreesOn_of_variants (hv : c'.variants? id = c.variants? id) (hr : c'.rule = c.rule) :
    c.AgreesOn c' id where
  variants       := hv
  singular       := lookup_agnostic hv hr none
  counted n      := lookup_agnostic hv hr (some n)
  translate args := by rw [translate_eq, translate_eq, lookup_agnostic hv hr]

-- Without a count, the rule is not asked.
theorem singular_agnostic (hv : c'.variants? id = c.variants? id) :
    singular c' id = singular c id := by
  change c'.lookup id none = c.lookup id none
  simp only [lookup, indexFor, hv, Option.bind_none]

end Agreeing

namespace Sound

variable {c : Catalog} (h : c.Sound)
include h

-- What is restored of other messages is what the catalog has of them.
theorem restore_messages {messages : Messages} {id : String}
    (same : ∀ other, other ≠ id → messages[other]? = c.messages[other]?) :
    ∃ messages', { c.snapshot with messages }.restore = .ok { c with messages := messages' } ∧
      messages'[id]? = messages[id]?.filter (Snapshot.canLookUp id) ∧
      ∀ other, other ≠ id → c.AgreesOn { c with messages := messages' } other := by
  refine ⟨messages.filter Snapshot.canLookUp, ?_, Std.ExtTreeMap.getElem?_filter', ?_⟩
  · exact Snapshot.restore_eq_ok.mpr ⟨rfl, rfl, rfl, h.rule⟩
  · intro other ho
    refine agreesOn_of_variants ?_ rfl
    rw [variants?, variants?, Std.ExtTreeMap.getElem?_filter', same other ho,
      ← Std.ExtTreeMap.getElem?_filter', h.filter_messages]

theorem restore_put (id : String) (variants : List String) :
    ∃ messages, (c.snapshot.put id variants).restore = .ok { c with messages } ∧
      messages[id]? = (if id = "" ∨ variants = [] then none else some variants) ∧
      ∀ other, other ≠ id → c.AgreesOn { c with messages } other := by
  have same (other : String) (ho : other ≠ id) :
      (c.messages.insert id variants)[other]? = c.messages[other]? := by
    simp [Std.ExtTreeMap.getElem?_insert, Ne.symm ho]
  have ⟨messages, hr, hi, ho⟩ := h.restore_messages same
  refine ⟨messages, hr, ?_, ho⟩
  rw [hi, Std.ExtTreeMap.getElem?_insert_self]
  by_cases hi : id = "" <;> by_cases hn : variants = [] <;>
    simp [Option.filter, Snapshot.canLookUp, hi, hn]

theorem restore_remove (id : String) :
    ∃ messages, (c.snapshot.remove id).restore = .ok { c with messages } ∧
      messages[id]? = none ∧
      ∀ other, other ≠ id → c.AgreesOn { c with messages } other := by
  have same (other : String) (ho : other ≠ id) :
      (c.messages.erase id)[other]? = c.messages[other]? := by
    simp [Std.ExtTreeMap.getElem?_erase, Ne.symm ho]
  have ⟨messages, hr, hi, ho⟩ := h.restore_messages same
  refine ⟨messages, hr, ?_, ho⟩
  rw [hi, Std.ExtTreeMap.getElem?_erase_self, Option.filter_none]

-- Without an edit of the messages, all of them are left.
theorem restore_with {source : String} {rule : Rule} (hr : Rule.parse source = .ok rule)
    (fields : Fields) (locale : Option String) :
    { c.snapshot with fields, locale, rule := source }.restore =
      .ok { c with fields, locale, rule } :=
  Snapshot.restore_eq_ok.mpr ⟨rfl, h.filter_messages.symm, rfl, hr⟩

end Sound

-- A message without a variant is left out like one that is not there.
theorem restore_put_nil (s : Snapshot) (id : String) :
    (s.put id []).restore = (s.remove id).restore := by
  have hm : (s.messages.insert id []).filter Snapshot.canLookUp =
      (s.messages.erase id).filter Snapshot.canLookUp := by
    refine Std.ExtTreeMap.ext_getElem? fun other => ?_
    rw [Std.ExtTreeMap.getElem?_filter', Std.ExtTreeMap.getElem?_filter']
    by_cases ho : other = id
    case pos => simp [ho, Snapshot.canLookUp]
    case neg =>
      simp [Std.ExtTreeMap.getElem?_insert, Std.ExtTreeMap.getElem?_erase, Ne.symm ho]
  simp only [Snapshot.restore, Snapshot.put, Snapshot.remove, hm]

theorem editsApart_of_reachable {c : Catalog} (r : Reachable c) : c.EditsApart where
  put              := r.sound.restore_put
  remove           := r.sound.restore_remove
  putNil           := restore_put_nil c.snapshot
  setRule _ _ hr   := ⟨r.sound.restore_with hr _ _, fun _ => ⟨singular_agnostic rfl, rfl⟩⟩
  rejected _ _ hr  := Snapshot.restore_eq_error.mpr ⟨_, hr, rfl⟩
  describe _ _     :=
    ⟨r.sound.restore_with r.sound.rule _ _, fun _ => agreesOn_of_variants rfl rfl⟩

-- Another message, a field that states a rule, and rules that are accepted and refused.
theorem editsApart_of_reachable_dog :
    ∃ c c' c'' rule, ofBytes (encode .little
        [dog.pair, ([], Utf8.ofString (ruleHeader Rule.defaultSource))]) none = .ok c ∧
      (c.snapshot.put "cat" ["kočka"]).restore = .ok c' ∧ counted c' "dog" 5 = "psi" ∧
      (c.snapshot.setField ruleKey "nplurals=1; plural=0;").restore = .ok c'' ∧
      counted c'' "dog" 5 = "psi" ∧
      (c.snapshot.setRule "nplurals=1; plural=0;").restore = .ok { c with rule } ∧
      (c.snapshot.setRule "").restore = .error (.invalidRule "" ⟨.missingForms, 0⟩) := by
  have ⟨c, hc, hr, hv⟩ :=
    written_dog.exists_ofBytes Rule.parse_defaultSource (by decide) .little none
  have hd := (hv "dog" ["pes", "psi"]).mpr ⟨dog, List.mem_cons_self, rfl, rfl⟩
  have hn : counted c "dog" 5 = "psi" := by
    have hn := lookup_some_eq_variantAt (by decide) (by decide) hd 5
    rw [hr] at hn
    exact hn
  have edits := editsApart_of_reachable (.loaded hc)
  have ⟨_, hput, _, hcat⟩ := edits.put "cat" ["kočka"]
  have ⟨hset, hsame⟩ :=
    edits.describe (c.fields.insert ruleKey "nplurals=1; plural=0;") c.locale
  have hrule : Rule.parse "nplurals=1; plural=0;" =
      .ok ⟨"nplurals=1; plural=0;", 1, ⟨#[.literal ⟨0, by decide⟩]⟩⟩ := by
    cbv
  exact ⟨c, _, _, _, hc, hput, ((hcat "dog" (by decide)).counted 5).trans hn, hset,
    ((hsame "dog").counted 5).trans hn, (edits.setRule _ _ hrule).left,
    edits.rejected "" _ (by rfl)⟩

end MessageCatalog.Catalog
