import MessageCatalog.Proofs.Catalog.Basic
import MessageCatalog.Proofs.Catalog.Fields
import MessageCatalog.Proofs.ObjectFile.Encoding
import MessageCatalog.Proofs.ObjectFile.Items
import MessageCatalog.Proofs.Plural.Meaning

namespace MessageCatalog

open ObjectFile Text

namespace Fields

variable {key value : List Char}

theorem splitLine_append (h : ':' ∉ key) :
    splitLine (key ++ ':' :: ' ' :: value) = some (key, value) :=
  splitLine_eq_some_iff.mpr ⟨rfl, fun hi => h (hi.subset (by simp))⟩

end Fields

-- A text has a NUL between two variants.
def joinVariants (variants : List String) : Bytes :=
  [0].intercalate (variants.map Utf8.ofString)

-- A message as it is written, with the plural of its id if there is one.
structure Message where
  id : String
  plural? : Option String
  variants : List String
  storable : Storable id variants
  text_ne : joinVariants variants ≠ []

namespace Message

variable (m : Message)

-- An id has a NUL before its plural.
def key : Bytes :=
  Utf8.ofString m.id ++ m.plural?.elim [] (0 :: Utf8.ofString ·)

def pair : Bytes × Bytes :=
  (m.key, joinVariants m.variants)

theorem id_ne : m.id ≠ "" :=
  m.storable.id_ne

theorem variants_ne : m.variants ≠ [] :=
  m.storable.variants_ne

theorem zero_not_mem_id : 0 ∉ Utf8.ofString m.id :=
  Utf8.zero_mem_ofString.not.mpr m.storable.id_clean

theorem takeWhile_key : m.key.takeWhile (· ≠ 0) = Utf8.ofString m.id := by
  rw [key]
  cases m.plural?
  case none => rw [Option.elim_none, List.append_nil, takeWhile_of_not_mem m.zero_not_mem_id]
  case some => exact takeWhile_of_append m.zero_not_mem_id _

theorem splitOn_text :
    (joinVariants m.variants).splitOn 0 = m.variants.map Utf8.ofString := by
  refine List.splitOn_intercalate 0 ?_ (by simpa using m.variants_ne)
  simp only [List.forall_mem_map, Utf8.zero_mem_ofString]
  exact m.storable.variants_clean

theorem entry_pair : Content.entry m.pair = (m.id, m.variants) := by
  rw [Content.entry, pair, m.takeWhile_key, m.splitOn_text, List.map_map, Utf8.decode_ofString]
  simp [Function.comp_def, Utf8.decode_ofString]

theorem key_ne : m.key ≠ [] := by
  simp [key, Utf8.ofString_eq_nil, m.id_ne]

theorem head?_key : m.key.head? ≠ some 0 := by
  rw [key, List.head?_append]
  cases hb : (Utf8.ofString m.id).head?
  case none => exact absurd (List.head?_eq_none_iff.mp hb) (Utf8.ofString_eq_nil.not.mpr m.id_ne)
  case some b =>
    rintro ⟨⟩
    exact m.zero_not_mem_id (List.mem_of_head? hb)

theorem isEntry_pair : Content.isEntry m.pair :=
  decide_eq_true ⟨m.text_ne, m.key_ne, m.head?_key⟩

theorem not_isHeader_pair : ¬Content.isHeader m.pair :=
  fun h => m.key_ne (of_decide_eq_true h).right

end Message

namespace Catalog

-- The header of a catalog that states a rule and nothing else.
def ruleHeader (source : String) : String :=
  ruleKey ++ ": " ++ source

theorem parse_ruleHeader {source : String} (h : '\n' ∉ source.toList) :
    (Fields.parse (ruleHeader source))[ruleKey]? = some source := by
  have hb : (ruleHeader source).toList = ruleKey.toList ++ ':' :: ' ' :: source.toList := by
    simp [ruleHeader]
  have hl : '\n' ∉ (ruleHeader source).toList := by
    rw [hb]
    simp only [List.mem_append, List.mem_cons, not_or]
    exact ⟨by decide, by decide, by decide, h⟩
  have ho : Fields.ofBlock (ruleHeader source) = [(ruleKey, source)] := by
    have hk : String.ofList (trim isWhite ruleKey.toList) = ruleKey := by decide
    rw [Fields.ofBlock, List.splitOn_eq_singleton hl, hb]
    simp [Fields.ofLine?, Fields.splitLine_append (show ':' ∉ ruleKey.toList by decide), hk]
  rw [Fields.parse, Fields.extend, ho]
  simp

-- A file is loaded if the rule that its headers state is accepted.
theorem ofBytes_encode_of_parse {pairs : List (Bytes × Bytes)} {rule : Plural.Rule}
    (fits : Encoding.Fits pairs)
    (parsed : Plural.Rule.parse (ruleSource (Fields.parse (Content.ofPairs pairs).header)) =
      .ok rule) (order : ByteOrder) (locale : Option String) :
    ofBytes (encode order pairs) locale =
      .ok ⟨locale, (Content.ofPairs pairs).messages,
        Fields.parse (Content.ofPairs pairs).header, rule⟩ :=
  ofBytes_eq_ok.mpr ⟨Content.ofPairs pairs, decode_encode_eq fits order, ⟨rfl, rfl, rfl, parsed⟩⟩

-- A header need not state a rule.
theorem exists_ofBytes_of_silent {pairs : List (Bytes × Bytes)} (fits : Encoding.Fits pairs)
    (silent : (Fields.parse (Content.ofPairs pairs).header)[ruleKey]? = none) (order : ByteOrder)
    (locale : Option String) : ∃ c, ofBytes (encode order pairs) locale = .ok c := by
  have source : ruleSource (Fields.parse (Content.ofPairs pairs).header) =
      Plural.Rule.defaultSource := by
    rw [ruleSource, silent, Option.getD_none]
  have parsed := (congrArg Plural.Rule.parse source).trans Plural.Rule.parse_defaultSource
  exact ⟨_, ofBytes_encode_of_parse fits parsed order locale⟩

-- The strings of an object file with a rule and some messages, in any order.
structure Written (source : String) (messages : List Message) (pairs : List (Bytes × Bytes)) :
    Prop where
  perm : pairs.Perm (([], Utf8.ofString (ruleHeader source)) :: messages.map Message.pair)
  distinct : (messages.map Message.id).Nodup
  fits : Encoding.Fits pairs

namespace Written

variable {source : String} {messages : List Message} {pairs : List (Bytes × Bytes)}
  (w : Written source messages pairs)
include w

theorem headers_eq : Content.headers pairs = [ruleHeader source] := by
  have hp := (w.perm.filter Content.isHeader).map fun pair => Utf8.decode pair.2
  have hr : ruleHeader source ≠ "" := by simp [ruleHeader, ruleKey]
  have hh : Content.isHeader ([], Utf8.ofString (ruleHeader source)) :=
    decide_eq_true ⟨Utf8.ofString_eq_nil.not.mpr hr, rfl⟩
  have hm : ∀ pair ∈ messages.map Message.pair, ¬Content.isHeader pair :=
    List.forall_mem_map.mpr fun m _ => m.not_isHeader_pair
  rw [List.filter_cons_of_pos hh, List.filter_eq_nil_iff.mpr hm, List.map_singleton,
    Utf8.decode_ofString] at hp
  exact hp.eq_singleton

theorem entries_perm :
    (Content.entries pairs).Perm (messages.map fun m => (m.id, m.variants)) := by
  have hp := (w.perm.filter Content.isEntry).map Content.entry
  have hh : ¬Content.isEntry ([], Utf8.ofString (ruleHeader source)) := by simp [Content.isEntry]
  have hm : ∀ pair ∈ messages.map Message.pair, Content.isEntry pair :=
    List.forall_mem_map.mpr fun m _ => m.isEntry_pair
  have he : Content.entry ∘ Message.pair = fun m => (m.id, m.variants) :=
    funext Message.entry_pair
  rwa [List.filter_cons_of_neg hh, List.filter_eq_self.mpr hm, List.map_map, he] at hp

-- The messages that are found are those that were written.
theorem lookup_entries {id : String} {variants : List String} :
    (Content.entries pairs).reverse.lookup id = some variants ↔
      ∃ m ∈ messages, m.id = id ∧ m.variants = variants := by
  have hp := (Content.entries pairs).reverse_perm.trans w.entries_perm
  have hd : ((Content.entries pairs).reverse.map Prod.fst).Nodup := by
    rw [(hp.map Prod.fst).nodup_iff, List.map_map]
    exact w.distinct
  rw [lookup_eq_some_iff_mem hd, hp.mem_iff]
  simp

variable {rule : Plural.Rule} (parsed : Plural.Rule.parse source = .ok rule)
  (line : '\n' ∉ source.toList)
include parsed line

-- The catalog that is loaded has the rule, and the messages that were written.
theorem exists_ofBytes (order : ByteOrder) (locale : Option String) :
    ∃ c, ofBytes (encode order pairs) locale = .ok c ∧ c.rule = rule ∧
      ∀ id variants, c.variants? id = some variants ↔
        ∃ m ∈ messages, m.id = id ∧ m.variants = variants := by
  have hr : Plural.Rule.parse (ruleSource (Fields.parse (Content.ofPairs pairs).header)) =
      .ok rule := by
    rw [Content.header_ofPairs, w.headers_eq, String.intercalate_singleton, ruleSource,
      parse_ruleHeader line]
    exact parsed
  refine ⟨_, ofBytes_encode_of_parse w.fits hr order locale, rfl, fun id variants => ?_⟩
  rw [variants?, Content.getElem?_ofPairs, w.lookup_entries]

end Written

open Translator in
theorem ofBytes_encode {source : String} {rule : Plural.Rule} {messages : List Message}
    {pairs : List (Bytes × Bytes)} (parsed : Plural.Rule.parse source = .ok rule)
    (line : '\n' ∉ source.toList) (w : Written source messages pairs)
    (order : ByteOrder) (locale : Option String) :
    ∃ c, ofBytes (encode order pairs) locale = .ok c ∧
      (∀ id, id ∈ c.messages ↔ ∃ m ∈ messages, m.id = id) ∧
      (∀ m ∈ messages, singular c m.id = m.variants.head m.variants_ne ∧
        ∀ n, counted c m.id n = variantAt m.variants m.variants_ne (rule.value n)) ∧
      ∀ text, (∀ m ∈ messages, m.id ≠ text) →
        singular c text = text ∧ ∀ n, counted c text n = text := by
  have ⟨c, hc, hr, hv⟩ := w.exists_ofBytes parsed line order locale
  have hn : ∀ id, (∀ m ∈ messages, m.id ≠ id) → c.variants? id = none := by
    intro id hm
    refine Option.eq_none_iff_forall_ne_some.mpr fun variants h => ?_
    have ⟨m, hm', hi, _⟩ := (hv id variants).mp h
    exact hm m hm' hi
  refine ⟨c, hc, ?_, ?_, ?_⟩
  · intro id
    simp only [mem_messages_iff, hv]
    exact ⟨fun ⟨_, m, h⟩ => ⟨m, h.left, h.right.left⟩, fun ⟨m, h⟩ => ⟨_, m, h.left, h.right, rfl⟩⟩
  · intro m hm
    have h := (hv m.id m.variants).mpr ⟨m, hm, rfl, rfl⟩
    refine ⟨lookup_none_eq_head m.id_ne m.variants_ne h, fun n => ?_⟩
    exact hr ▸ lookup_some_eq_variantAt m.id_ne m.variants_ne h n
  · intro text ht
    exact ⟨lookup_of_none (hn text ht), fun n => lookup_of_none (hn text ht)⟩

-- A message with a plural.
def dog : Message where
  id := "dog"
  plural? := some "dogs"
  variants := ["pes", "psi"]
  storable := ⟨by decide, by decide, by decide, by decide⟩
  text_ne := by decide

-- The header stands behind the message.
theorem written_dog : Written Plural.Rule.defaultSource [dog]
    [dog.pair, ([], Utf8.ofString (ruleHeader Plural.Rule.defaultSource))] :=
  ⟨.swap _ _ _, by decide, by decide, by decide⟩

open Translator in
theorem ofBytes_encode_dog :
    ∃ c, ofBytes (encode .big
        [dog.pair, ([], Utf8.ofString (ruleHeader Plural.Rule.defaultSource))]) none = .ok c ∧
      singular c "dog" = "pes" ∧ counted c "dog" 1 = "pes" ∧ counted c "dog" 5 = "psi" ∧
      counted c "dogs" 5 = "dogs" := by
  have ⟨c, hc, _, hd, ho⟩ :=
    ofBytes_encode Plural.Rule.parse_defaultSource (by decide) written_dog .big none
  have ⟨hs, hn⟩ := hd dog List.mem_cons_self
  exact ⟨c, hc, hs, hn 1, hn 5, (ho "dogs" (by decide)).right 5⟩

end Catalog

end MessageCatalog
