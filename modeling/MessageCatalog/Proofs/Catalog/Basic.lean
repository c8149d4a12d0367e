import MessageCatalog.Catalog.Snapshot
import MessageCatalog.Proofs.Plural.Meaning

namespace MessageCatalog

namespace Plural.Rule

-- A rule keeps the text that it was read from.
theorem source_of_parse {source : String} {r : Rule} (h : parse source = .ok r) :
    r.source = source := by
  have ⟨_, _, h⟩ := Outcome.bind_eq_ok.mp h
  have ⟨_, _, h⟩ := Outcome.bind_eq_ok.mp h
  cases h
  rfl

theorem parse_defaultSource : parse defaultSource =
    .ok ⟨defaultSource, 2, ⟨#[.count, .literal ⟨1, by decide⟩, .binary .notEqual 0 1]⟩⟩ := by
  cbv

end Plural.Rule

namespace Catalog

variable {c : Catalog} {id : String} {count : Option Int64}

-- A catalog is made of some content.
structure MadeOf (c : Catalog) (content : ObjectFile.Content) (locale : Option String) : Prop where
  locale   : c.locale = locale
  messages : c.messages = content.messages
  fields   : c.fields = Fields.parse content.header
  rule     : Plural.Rule.parse (ruleSource c.fields) = .ok c.rule

-- The rule is the one that the header states.
theorem MadeOf.parse_ruleSource {content : ObjectFile.Content} {locale : Option String}
    (h : c.MadeOf content locale) :
    Plural.Rule.parse (ruleSource (Fields.parse content.header)) = .ok c.rule :=
  h.fields ▸ h.rule

theorem ofContent_eq_ok {content : ObjectFile.Content} {locale : Option String} :
    ofContent content locale = .ok c ↔ c.MadeOf content locale := by
  simp only [ofContent, ruleOfFields, compileRule, Outcome.bind_eq_ok, Outcome.mapError_eq_ok,
    Outcome.pure_eq_ok]
  constructor
  · rintro ⟨rule, hr, rfl⟩
    exact ⟨rfl, rfl, rfl, hr⟩
  · rintro ⟨rfl, hm, hf, hr⟩
    rw [hf] at hr
    exact ⟨c.rule, hr, by rw [← hm, ← hf]⟩

theorem ofContent_eq_error {content : ObjectFile.Content} {locale : Option String} {e : LoadError} :
    ofContent content locale = .error e ↔
      ∃ fault, Plural.Rule.parse (ruleSource (Fields.parse content.header)) = .error fault ∧
        e = .invalidRule (ruleSource (Fields.parse content.header)) fault := by
  simp only [ofContent, ruleOfFields, compileRule, Outcome.bind_eq_error, Outcome.mapError_eq_error]
  simp [pure, Except.pure, eq_comm]

-- Behind the object file, only its content matters.
theorem ofBytes_of_decode {data : Bytes} {content : ObjectFile.Content}
    (h : ObjectFile.decode data = .ok content) (locale : Option String) :
    ofBytes data locale = ofContent content locale := by
  rw [ofBytes, h, Except.mapError, Outcome.ok_bind]

theorem ofBytes_eq_ok {data : Bytes} {locale : Option String} :
    ofBytes data locale = .ok c ↔
      ∃ content, ObjectFile.decode data = .ok content ∧ c.MadeOf content locale := by
  simp only [ofBytes, Outcome.bind_eq_ok, Outcome.mapError_eq_ok, ofContent_eq_ok]

theorem mem_messages_iff : id ∈ c.messages ↔ ∃ variants, c.variants? id = some variants := by
  rw [Std.ExtTreeMap.mem_iff_isSome_getElem?, Option.isSome_iff_exists]
  rfl

theorem lookup_of_none (h : c.variants? id = none) : c.lookup id count = id := by
  simp [lookup, h]

-- The variant with an index, or the first one if there is none.
def variantAt (variants : List String) (ne : variants ≠ []) (e : Int64) : String :=
  if h : 0 ≤ e.toInt ∧ e.toInt < variants.length then
    variants[e.toInt.toNat]
  else
    variants.head ne

theorem variantAt_mem (variants : List String) (ne : variants ≠ []) (e : Int64) :
    variantAt variants ne e ∈ variants := by
  unfold variantAt
  split
  case isTrue  => exact List.getElem_mem _
  case isFalse => exact List.head_mem ne

section Present

variable {variants : List String} (hi : id ≠ "") (ne : variants ≠ [])
  (h : c.variants? id = some variants)
include hi h

theorem lookup_of_some :
    c.lookup id count = variants[c.indexFor count]?.getD (variants.head ne) := by
  rw [lookup, if_neg hi, h]
  cases hv : variants[c.indexFor count]? <;> simp [hv, List.head?_eq_some_head ne]

theorem lookup_none_eq_head : c.lookup id none = variants.head ne := by
  rw [lookup_of_some hi ne h, indexFor, Option.bind_none, Option.getD_none,
    ← List.head?_eq_getElem?, List.head?_eq_some_head ne, Option.getD_some]

theorem lookup_some_eq_variantAt (n : Int64) :
    c.lookup id (some n) = variantAt variants ne (c.rule.value n) := by
  by_cases he : 0 ≤ (c.rule.value n).toInt
  case neg =>
    have hn : c.indexFor (some n) = 0 := by
      rw [indexFor, Option.bind_some, c.rule.select_eq, if_neg he, Option.getD_none]
    rw [variantAt, dif_neg fun h => he h.left, ← lookup_none_eq_head hi ne h,
      lookup_of_some hi ne h, lookup_of_some hi ne h, hn]
    rfl
  case pos =>
    have hn : c.indexFor (some n) = (c.rule.value n).toInt.toNat := by
      rw [indexFor, Option.bind_some, c.rule.select_eq, if_pos he, Option.getD_some]
    rw [lookup_of_some hi ne h, hn, variantAt]
    by_cases hl : (c.rule.value n).toInt < variants.length
    case pos => rw [dif_pos ⟨he, hl⟩, List.getElem?_eq_getElem (by omega), Option.getD_some]
    case neg =>
      rw [dif_neg fun h => hl h.right, List.getElem?_eq_none (by omega), Option.getD_none]

end Present

end Catalog

namespace Snapshot

variable {s : Snapshot} {c : Catalog}

-- Restoring a snapshot gives a catalog.
structure Restores (s : Snapshot) (c : Catalog) : Prop where
  locale   : c.locale = s.locale
  messages : c.messages = s.messages.filter canLookUp
  fields   : c.fields = s.fields
  rule     : Plural.Rule.parse s.rule = .ok c.rule

theorem restore_eq_ok : s.restore = .ok c ↔ s.Restores c := by
  simp only [restore, Catalog.compileRule, Outcome.bind_eq_ok, Outcome.mapError_eq_ok,
    Outcome.pure_eq_ok]
  constructor
  · rintro ⟨rule, hr, rfl⟩
    exact ⟨rfl, rfl, rfl, hr⟩
  · rintro ⟨hl, hm, hf, hr⟩
    exact ⟨c.rule, hr, by rw [← hl, ← hm, ← hf]⟩

theorem restore_eq_error {e : LoadError} :
    s.restore = .error e ↔
      ∃ fault, Plural.Rule.parse s.rule = .error fault ∧ e = .invalidRule s.rule fault := by
  simp only [restore, Catalog.compileRule, Outcome.bind_eq_error, Outcome.mapError_eq_error]
  simp [pure, Except.pure, eq_comm]

-- The messages that are left are those that can be looked up.
theorem Restores.variants?_eq (h : s.Restores c) (id : String) :
    c.variants? id = s.messages[id]?.filter (canLookUp id) := by
  rw [Catalog.variants?, h.messages, Std.ExtTreeMap.getElem?_filter']

theorem Restores.source_eq (h : s.Restores c) : c.rule.source = s.rule :=
  Plural.Rule.source_of_parse h.rule

end Snapshot

end MessageCatalog
