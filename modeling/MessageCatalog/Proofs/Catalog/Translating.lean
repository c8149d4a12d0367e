import MessageCatalog.Proofs.Catalog.Reachable

namespace MessageCatalog.Catalog

open ObjectFile Plural Text Translator

-- The texts that belong to a message: itself and its variants.
def Own (c : Catalog) (id text : String) : Prop :=
  text = id ∨ ∃ variants, c.variants? id = some variants ∧ text ∈ variants

-- What a catalog gives for a message.
structure Answers (c : Catalog) (id : String) : Prop where
  absent   : id = "" ∨ id ∉ c.messages → singular c id = id ∧ ∀ n, counted c id n = id
  present  : ∀ variants, id ≠ "" → c.variants? id = some variants → ∃ ne : variants ≠ [],
    singular c id = variants.head ne ∧
      ∀ n, counted c id n = variantAt variants ne (c.rule.value n)
  plain    : translate c id [] = .ok (singular c id)
  count    : ∀ n args, translate c id (.int n :: args) = format (counted c id n) (.int n :: args)
  noCount  : ∀ a args, (∀ n, a ≠ .int n) →
    translate c id (a :: args) = format (singular c id) (a :: args)
  own      : ∀ args, ∃ text, c.Own id text ∧
    translate c id args = if args = [] then .ok text else format text args
  -- Nothing but the variants of the message and the rule is looked at.
  agnostic : ∀ c' : Catalog, c'.variants? id = c.variants? id → c'.rule = c.rule →
    ∀ args, translate c' id args = translate c id args

section Translations

variable {c c' : Catalog} {id : String}

theorem lookup_of_absent (h : id = "" ∨ id ∉ c.messages) (count : Option Int64) :
    c.lookup id count = id := by
  by_cases hi : id = ""
  case pos => rw [lookup, if_pos hi]
  case neg =>
    have hn := mem_messages_iff.not.mp (h.resolve_left hi)
    exact lookup_of_none (Option.eq_none_iff_forall_ne_some.mpr fun variants hv =>
      hn ⟨variants, hv⟩)

theorem lookup_agnostic (hv : c'.variants? id = c.variants? id) (hr : c'.rule = c.rule)
    (count : Option Int64) : c'.lookup id count = c.lookup id count := by
  simp only [lookup, indexFor, hv, hr]

theorem Sound.own_lookup (h : c.Sound) (id : String) (count : Option Int64) :
    c.Own id (c.lookup id count) := by
  by_cases ha : id = "" ∨ id ∉ c.messages
  case pos => exact .inl (lookup_of_absent ha count)
  case neg =>
    rw [not_or, not_not, mem_messages_iff] at ha
    have ⟨hi, variants, hv⟩ := ha
    have ne := h.variants_ne id variants hv
    refine .inr ⟨variants, hv, ?_⟩
    cases count
    case none =>
      rw [lookup_none_eq_head hi ne hv]
      exact List.head_mem ne
    case some n =>
      rw [lookup_some_eq_variantAt hi ne hv]
      exact variantAt_mem variants ne _

-- The count is that of the first argument.
theorem translate_eq (c : Catalog) (id : String) (args : List Argument) :
    translate c id args =
      if args = [] then
        .ok (c.lookup id (args.head?.bind Argument.count?))
      else
        format (c.lookup id (args.head?.bind Argument.count?)) args := by
  rw [Translator.translate]
  cases args.head?.bind Argument.count? <;> rfl

theorem translate_of_reachable (r : Reachable c) (id : String) : c.Answers id where
  absent h := ⟨lookup_of_absent h none, fun n => lookup_of_absent h (some n)⟩
  present variants hi hv := by
    have ne := r.sound.variants_ne id variants hv
    exact ⟨ne, lookup_none_eq_head hi ne hv, lookup_some_eq_variantAt hi ne hv⟩
  plain := rfl
  count _ _ := rfl
  noCount a args h := by
    cases a
    case int n => exact absurd rfl (h n)
    all_goals rfl
  own args := ⟨_, r.sound.own_lookup id _, translate_eq c id args⟩
  agnostic c' hv hr args := by
    rw [translate_eq, translate_eq, lookup_agnostic hv hr]

end Translations

-- A count, and the same number as text.
theorem translate_of_reachable_dog :
    ∃ c, ofBytes (encode .little
        [dog.pair, ([], Utf8.ofString (ruleHeader Rule.defaultSource))]) none = .ok c ∧
      translate c "dog" [.int 5] = .ok "psi" ∧ translate c "dog" [.text "5"] = .ok "pes" ∧
      translate c "dogs" [] = .ok "dogs" := by
  have ⟨c, hc, hr, hv⟩ :=
    written_dog.exists_ofBytes Rule.parse_defaultSource (by decide) .little none
  have hd := (hv "dog" ["pes", "psi"]).mpr ⟨dog, List.mem_cons_self, rfl, rfl⟩
  have dog := translate_of_reachable (.loaded hc) "dog"
  have ⟨_, hs, hn⟩ := dog.present _ (by decide) hd
  have hn : counted c "dog" 5 = "psi" := (hn 5).trans (hr ▸ rfl)
  refine ⟨c, hc, ?_, ?_, ?_⟩
  · rw [dog.count, hn]
    cbv
  · rw [dog.noCount _ _ (by simp), hs]
    cbv
  · have dogs := translate_of_reachable (.loaded hc) "dogs"
    have ha : "dogs" ∉ c.messages := by simp [mem_messages_iff, hv, Catalog.dog]
    rw [dogs.plain, (dogs.absent (.inr ha)).left]

end MessageCatalog.Catalog
