import MessageCatalog.Proofs.Catalog.Loading

namespace MessageCatalog

open ObjectFile Plural Text

-- The texts of the empty ids, in the order of the tables.
def ObjectFile.Header.blocks (h : Header) (data : Bytes) : List String :=
  Content.headers (h.pairs data)

namespace Catalog

theorem ofBytes_of_blocks {data : Bytes} {content : Content} (hd : decode data = .ok content) :
    ∃ h, Header.read data = .ok h ∧ ∃ (fields : Fields) (source : String),
      (∀ key value, fields[key]? = some value ↔
        Fields.LastStates ((h.blocks data).flatMap Fields.lines) key value) ∧
      source = fields["Plural-Forms"]?.getD "nplurals=2; plural=n!=1;" ∧
      ∀ locale,
        ((∃ c, ofBytes data locale = .ok c) ↔ ∃ rule, Rule.parse source = .ok rule) ∧
        (∀ c, ofBytes data locale = .ok c →
          c.fields = fields ∧ c.rule.source = source ∧ Rule.parse source = .ok c.rule) ∧
        ∀ fault, Rule.parse source = .error fault →
          ofBytes data locale = .error (.invalidRule source fault) := by
  obtain ⟨h, hr, _, rfl⟩ := decode_eq_ok_iff.mp hd
  have hh : (Content.find h data).header = "\n".intercalate (h.blocks data) := by
    rw [Content.find_eq_ofPairs, Content.header_ofPairs, Header.blocks]
  let fields := Fields.parse (Content.find h data).header
  refine ⟨h, hr, fields, ruleSource fields, ?_, rfl, fun locale => ?_⟩
  · intro key value
    rw [← Fields.getElem?_parse, ← hh]
  · rw [ofBytes_of_decode hd]
    refine ⟨⟨?_, ?_⟩, ?_, ?_⟩
    · rintro ⟨c, hc⟩
      exact ⟨c.rule, (ofContent_eq_ok.mp hc).parse_ruleSource⟩
    · rintro ⟨rule, hp⟩
      exact ⟨⟨locale, _, fields, rule⟩, ofContent_eq_ok.mpr ⟨rfl, rfl, rfl, hp⟩⟩
    · intro c hc
      have hm := ofContent_eq_ok.mp hc
      have hp := hm.parse_ruleSource
      exact ⟨hm.fields, Rule.source_of_parse hp, hp⟩
    · exact fun fault hp => ofContent_eq_error.mpr ⟨fault, hp, rfl⟩

-- The second block has the last word on the rule, although blanks are around its key.
theorem ofBytes_of_blocks_two :
    ∃ pairs, pairs = [([], Utf8.ofString "A: 1\nPlural-Forms: x"), ([97], [98]),
        ([], Utf8.ofString "\tPlural-Forms : nplurals=1; plural=0;")] ∧
      ∃ c, ofBytes (encode .big pairs) none = .ok c ∧ c.fields["A"]? = some "1" ∧
        c.rule.source = "nplurals=1; plural=0;" := by
  have hf : Encoding.Fits [([], Utf8.ofString "A: 1\nPlural-Forms: x"), ([97], [98]),
      ([], Utf8.ofString "\tPlural-Forms : nplurals=1; plural=0;")] :=
    ⟨by decide, by decide⟩
  have hb : Content.headers [([], Utf8.ofString "A: 1\nPlural-Forms: x"), ([97], [98]),
      ([], Utf8.ofString "\tPlural-Forms : nplurals=1; plural=0;")] =
      ["A: 1\nPlural-Forms: x", "\tPlural-Forms : nplurals=1; plural=0;"] := by
    simp [Content.headers, Content.isHeader, Utf8.decode_ofString, Utf8.ofString_eq_nil]
  have hp : Rule.parse "nplurals=1; plural=0;" =
      .ok ⟨"nplurals=1; plural=0;", 1, ⟨#[.literal ⟨0, by decide⟩]⟩⟩ := by
    cbv
  obtain ⟨h, hr, fields, source, hl, hs, hc⟩ := ofBytes_of_blocks (decode_encode_eq hf .big)
  cases hr.symm.trans (readHeader_encode hf .big)
  rw [Header.blocks, pairs_encode hf, hb] at hl
  have ha := (hl "A" "1").mpr (Fields.lookup_reverse_filterMap.mp (by decide))
  have hk := (hl "Plural-Forms" "nplurals=1; plural=0;").mpr
    (Fields.lookup_reverse_filterMap.mp (by decide))
  rw [hk, Option.getD_some] at hs
  obtain ⟨hc, hm, _⟩ := hc none
  obtain ⟨c, hc⟩ := hc.mpr ⟨_, hs ▸ hp⟩
  obtain ⟨hcf, hcs, _⟩ := hm c hc
  exact ⟨_, rfl, c, hc, hcf ▸ ha, hcs.trans hs⟩

end Catalog

end MessageCatalog
