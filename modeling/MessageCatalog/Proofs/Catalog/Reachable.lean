import MessageCatalog.Proofs.Catalog.Loading

namespace MessageCatalog.Catalog

open ObjectFile Plural Text Translator

-- A catalog is loaded or restored, and restoring an edited snapshot of it gives another one.
inductive Reachable : Catalog → Prop
  | loaded {data : Bytes} {locale : Option String} {c : Catalog}
      (load : ofBytes data locale = .ok c) : Reachable c
  | restored {s : Snapshot} {c : Catalog} (restore : s.restore = .ok c) : Reachable c
  | edited {c c' : Catalog} (before : Reachable c) (edit : Snapshot → Snapshot)
      (restore : (edit c.snapshot).restore = .ok c') : Reachable c'

-- Each message can be looked up, and the rule is compiled from the text that it keeps.
structure Sound (c : Catalog) : Prop where
  id_ne       : ∀ id, id ∈ c.messages → id ≠ ""
  variants_ne : ∀ id variants, c.variants? id = some variants → variants ≠ []
  rule        : Rule.parse c.rule.source = .ok c.rule

variable {c : Catalog} {s : Snapshot} {data : Bytes} {locale : Option String} {id : String}
  {variants : List String}

theorem storable_of_ofBytes (h : ofBytes data locale = .ok c)
    (hv : c.variants? id = some variants) : Storable id variants := by
  have ⟨content, hd, hm⟩ := ofBytes_eq_ok.mp h
  rw [variants?, hm.messages] at hv
  exact isStorable_decode hd id variants hv

theorem source_of_ofBytes (h : ofBytes data locale = .ok c) :
    c.rule.source = ruleSource c.fields := by
  have ⟨_, _, hm⟩ := ofBytes_eq_ok.mp h
  exact Rule.source_of_parse hm.rule

theorem sound_of_ofBytes (h : ofBytes data locale = .ok c) : c.Sound where
  id_ne id hm := by
    have ⟨_, hv⟩ := mem_messages_iff.mp hm
    exact (storable_of_ofBytes h hv).id_ne
  variants_ne _ _ hv := (storable_of_ofBytes h hv).variants_ne
  rule := by
    have ⟨_, _, hm⟩ := ofBytes_eq_ok.mp h
    rw [source_of_ofBytes h]
    exact hm.rule

theorem canLookUp_of_restores (h : s.Restores c) (hv : c.variants? id = some variants) :
    id ≠ "" ∧ variants ≠ [] := by
  rw [h.variants?_eq, Option.filter_eq_some_iff] at hv
  exact of_decide_eq_true hv.right

-- Restoring makes a sound catalog of any snapshot.
theorem sound_of_restores (h : s.Restores c) : c.Sound where
  id_ne id hm := by
    have ⟨_, hv⟩ := mem_messages_iff.mp hm
    exact (canLookUp_of_restores h hv).left
  variants_ne _ _ hv := (canLookUp_of_restores h hv).right
  rule := by
    rw [h.source_eq]
    exact h.rule

theorem Reachable.sound (r : Reachable c) : c.Sound := by
  cases r
  case loaded load      => exact sound_of_ofBytes load
  case restored restore => exact sound_of_restores (Snapshot.restore_eq_ok.mp restore)
  case edited restore   => exact sound_of_restores (Snapshot.restore_eq_ok.mp restore)

-- The singular of a message that is there is a variant of it.
theorem Sound.head?_eq (h : c.Sound) (hv : c.variants? id = some variants) :
    variants.head? = some (singular c id) := by
  have hi := h.id_ne id (mem_messages_iff.mpr ⟨variants, hv⟩)
  have ne := h.variants_ne id variants hv
  have hl : singular c id = variants.head ne := lookup_none_eq_head hi ne hv
  rw [hl, List.head?_eq_some_head ne]

theorem sound_of_reachable (r : Reachable c) :
    c.Sound ∧
      (∀ data locale, ofBytes data locale = .ok c →
        (∀ id variants, c.variants? id = some variants → Storable id variants) ∧
          c.rule.source = c.fields[ruleKey]?.getD Rule.defaultSource) ∧
      ∀ id variants, c.variants? id = some variants → variants.head? = some (singular c id) :=
  ⟨r.sound, fun _ _ h => ⟨fun _ _ => storable_of_ofBytes h, source_of_ofBytes h⟩,
    fun _ _ => r.sound.head?_eq⟩

-- A catalog from a file, and what is left of it with a message that cannot be looked up.
theorem sound_of_reachable_dog :
    ∃ c c', ofBytes (encode .little
        [dog.pair, ([], Utf8.ofString (ruleHeader Rule.defaultSource))]) none = .ok c ∧
      (c.snapshot.put "" ["pes"]).restore = .ok c' ∧ c.Sound ∧ c'.Sound ∧
      Storable "dog" ["pes", "psi"] ∧ some "pes" = some (singular c "dog") := by
  have ⟨c, hc, _, hv⟩ := written_dog.exists_ofBytes Rule.parse_defaultSource (by decide) .little none
  have hd := (hv "dog" ["pes", "psi"]).mpr ⟨dog, List.mem_cons_self, rfl, rfl⟩
  have ⟨hs, hf, hh⟩ := sound_of_reachable (.loaded hc)
  have hr := Snapshot.restore_eq_ok.mpr (⟨rfl, rfl, rfl, hs.rule⟩ :
    (c.snapshot.put "" ["pes"]).Restores
      ⟨c.locale, (c.messages.insert "" ["pes"]).filter Snapshot.canLookUp, c.fields, c.rule⟩)
  have hs' := (sound_of_reachable (.edited (.loaded hc) (·.put "" ["pes"]) hr)).left
  exact ⟨c, _, hc, hr, hs, hs', (hf _ _ hc).left _ _ hd, hh _ _ hd⟩

end MessageCatalog.Catalog
