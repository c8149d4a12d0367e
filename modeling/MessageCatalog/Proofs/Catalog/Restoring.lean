import MessageCatalog.Proofs.Catalog.Reachable

namespace MessageCatalog

open ObjectFile Plural Text

namespace Catalog.Sound

variable {c : Catalog}

theorem filter_messages (h : c.Sound) : c.messages.filter Snapshot.canLookUp = c.messages := by
  refine Std.ExtTreeMap.filter_eq_self_iff.mpr fun id hm => decide_eq_true ⟨?_, ?_⟩
  · rw [Std.ExtTreeMap.getKey_eq]
    exact h.id_ne id hm
  · exact h.variants_ne id _ (Std.ExtTreeMap.getElem?_eq_some_getElem hm)

theorem restores (h : c.Sound) : c.snapshot.Restores c where
  locale   := rfl
  messages := h.filter_messages.symm
  fields   := rfl
  rule     := h.rule

theorem restore_eq (h : c.Sound) : c.snapshot.restore = .ok c :=
  Snapshot.restore_eq_ok.mpr h.restores

end Catalog.Sound

namespace Snapshot

variable {s : Snapshot} {c : Catalog}

theorem exists_restore_iff : (∃ c, s.restore = .ok c) ↔ ∃ r, Rule.parse s.rule = .ok r := by
  constructor
  · rintro ⟨c, h⟩
    exact ⟨c.rule, (restore_eq_ok.mp h).rule⟩
  · rintro ⟨r, h⟩
    exact ⟨⟨s.locale, s.messages.filter canLookUp, s.fields, r⟩,
      restore_eq_ok.mpr ⟨rfl, rfl, rfl, h⟩⟩

namespace Restores

variable (h : s.Restores c)
include h

theorem snapshot_eq : c.snapshot = { s with messages := c.messages } := by
  rw [Catalog.snapshot, h.locale, h.fields, h.source_eq]

theorem getElem?_messages (id : String) :
    c.messages[id]? = if id = "" ∨ s.messages[id]? = some [] then none else s.messages[id]? := by
  have hv := h.variants?_eq id
  rw [Catalog.variants?] at hv
  rw [hv]
  cases s.messages[id]?
  case none => simp
  case some variants =>
    by_cases hi : id = "" <;> by_cases hn : variants = [] <;> simp [Option.filter, canLookUp, hi, hn]

end Restores

theorem restore_snapshot :
    (∀ c, Catalog.Reachable c → c.snapshot.restore = .ok c) ∧
      ∀ s : Snapshot,
        ((∃ c, s.restore = .ok c) ↔ ∃ r, Rule.parse s.rule = .ok r) ∧
        (∀ fault, Rule.parse s.rule = .error fault →
          s.restore = .error (.invalidRule s.rule fault)) ∧
        ∀ c, s.restore = .ok c →
          (∃ messages, c.snapshot = { s with messages } ∧ ∀ id, messages[id]? =
            if id = "" ∨ s.messages[id]? = some [] then none else s.messages[id]?) ∧
          c.snapshot.restore = .ok c := by
  refine ⟨fun c r => r.sound.restore_eq, fun s => ⟨exists_restore_iff, ?_, ?_⟩⟩
  · exact fun fault h => restore_eq_error.mpr ⟨fault, h, rfl⟩
  · intro c h
    have hr := restore_eq_ok.mp h
    exact ⟨⟨c.messages, hr.snapshot_eq, hr.getElem?_messages⟩,
      (Catalog.sound_of_restores hr).restore_eq⟩

-- A catalog from a file, two messages that cannot be looked up, and a rule that says nothing.
open Catalog in
theorem restore_snapshot_dog :
    ∃ c, ofBytes (encode .little
        [dog.pair, ([], Utf8.ofString (ruleHeader Rule.defaultSource))]) none = .ok c ∧
      c.snapshot.restore = .ok c ∧
      (∃ c', ((c.snapshot.put "" ["pes"]).put "cat" []).restore = .ok c' ∧
        c'.snapshot.restore = .ok c') ∧
      (c.snapshot.setRule "").restore = .error (.invalidRule "" ⟨.missingForms, 0⟩) := by
  have ⟨c, hc, _⟩ := written_dog.exists_ofBytes Rule.parse_defaultSource (by decide) .little none
  have ⟨hr, hs⟩ := restore_snapshot
  have ⟨h, _, ht⟩ := hs ((c.snapshot.put "" ["pes"]).put "cat" [])
  have ⟨c', hc'⟩ := h.mpr ⟨c.rule, (Reachable.loaded hc).sound.rule⟩
  exact ⟨c, hc, hr c (.loaded hc), ⟨c', hc', (ht c' hc').right⟩,
    (hs (c.snapshot.setRule "")).right.left _ (by rfl)⟩

end Snapshot

end MessageCatalog
