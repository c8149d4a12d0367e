import MessageCatalog.Proofs.Catalog.Loading
import MessageCatalog.Proofs.Text.Parts
import MessageCatalog.Proofs.Text.Separators

namespace MessageCatalog

open ObjectFile Text

namespace ObjectFile.Content

variable (pairs : List (Bytes × Bytes))

-- The id and the variants in the decoded strings of a message.
def cut (pair : Bytes × Bytes) : String × List String :=
  (upTo '\x00' (Utf8.decode pair.1), split '\x00' (Utf8.decode pair.2))

-- All blocks of the header.
def headerBytes : Bytes :=
  [10].intercalate ((pairs.filter isHeader).map Prod.snd)

theorem entries_eq_cut : entries pairs = (pairs.filter isEntry).map cut := by
  refine List.map_congr_left fun pair _ => ?_
  rw [entry, cut, Utf8.upTo_decode, Utf8.split_decode]

theorem header_eq_headerBytes : (ofPairs pairs).header = Utf8.decode (headerBytes pairs) := by
  rw [header_ofPairs, headers, headerBytes, Utf8.decode_intercalate_lineFeed, List.map_map]
  rfl

end ObjectFile.Content

namespace Catalog

theorem variants?_of_ofBytes :
    (∀ bytes, (∃! parts, Utf8.Reads bytes parts) ∧ ∀ parts, Utf8.Reads bytes parts →
      Utf8.decode bytes = String.ofList (parts.map (·.getD '\uFFFD'))) ∧
    (∀ a b, Utf8.decode (a ++ 0 :: b) = Utf8.decode a ++ "\x00" ++ Utf8.decode b ∧
      Utf8.decode (a ++ 10 :: b) = Utf8.decode a ++ "\n" ++ Utf8.decode b) ∧
    ∀ data locale c, ofBytes data locale = .ok c →
      ∃ h content, Header.read data = .ok h ∧ decode data = .ok content ∧
        (∀ id, c.variants? id =
          (((h.pairs data).filter Content.isEntry).map Content.cut).reverse.lookup id) ∧
        content.header = Utf8.decode (Content.headerBytes (h.pairs data)) ∧
        c.fields = Fields.parse content.header := by
  refine ⟨fun bytes => ⟨Utf8.existsUnique_reads bytes, fun _ => Utf8.decode_of_reads⟩,
    fun a b => ⟨Utf8.decode_append_nul a b, Utf8.decode_append_lineFeed a b⟩, ?_⟩
  intro data locale c hc
  obtain ⟨content, hd, made⟩ := ofBytes_eq_ok.mp hc
  obtain ⟨h, hr, _, rfl⟩ := decode_eq_ok_iff.mp hd
  refine ⟨h, _, hr, hd, fun id => ?_, ?_, made.fields⟩
  · rw [variants?, made.messages, Content.find_eq_ofPairs, Content.getElem?_ofPairs,
      Content.entries_eq_cut]
  · rw [Content.find_eq_ofPairs, Content.header_eq_headerBytes]

-- Characters that are broken off in front of a NUL and in front of another block of the header.
theorem variants?_of_ofBytes_broken :
    ∃ pairs, pairs = [([], [65, 58, 32, 0xe2, 0x82]), ([97, 0xc3, 0, 98], [0xf0, 0x9f, 0, 0xff]),
        ([], [66, 58, 32, 67])] ∧
      ∃ c, ofBytes (encode .big pairs) none = .ok c ∧
        c.variants? "a\uFFFD" = some ["\uFFFD", "\uFFFD"] ∧
        c.fields["A"]? = some "\uFFFD" ∧ c.fields["B"]? = some "C" := by
  let pairs : List (Bytes × Bytes) :=
    [([], [65, 58, 32, 0xe2, 0x82]), ([97, 0xc3, 0, 98], [0xf0, 0x9f, 0, 0xff]),
      ([], [66, 58, 32, 67])]
  have hf : Encoding.Fits pairs := ⟨by decide, by decide⟩
  have hb : Utf8.decode (Content.headerBytes pairs) = "A: \uFFFD\nB: C" := by decide
  obtain ⟨c, hc⟩ := exists_ofBytes_of_silent hf (by decide) .big none
  obtain ⟨h, content, hr, hd, hv, hh, hfields⟩ := variants?_of_ofBytes.right.right _ none _ hc
  cases hr.symm.trans (readHeader_encode hf .big)
  rw [pairs_encode hf] at hv hh
  rw [hh, hb] at hfields
  refine ⟨pairs, rfl, _, hc, (hv _).trans (by decide), ?_, ?_⟩
  · rw [hfields]
    decide
  · rw [hfields]
    decide

end Catalog

end MessageCatalog
