import MessageCatalog.Proofs.Catalog.Fields

namespace MessageCatalog.Fields

open Text

-- The line for a field.
def line (key value : String) : String :=
  key ++ ": " ++ value

-- A field that a line can state.
structure Writable (key value : String) : Prop where
  key_line   : '\n' ∉ key.toList
  key_first  : ¬[':', ' '] <:+: key.toList
  key_trim   : trim isWhite key.toList = key.toList
  value_line : '\n' ∉ value.toList

instance (key value : String) : Decidable (Writable key value) :=
  decidable_of_iff ('\n' ∉ key.toList ∧ ¬[':', ' '] <:+: key.toList ∧
      trim isWhite key.toList = key.toList ∧ '\n' ∉ value.toList)
    ⟨fun ⟨hk, hf, ht, hv⟩ => ⟨hk, hf, ht, hv⟩, fun ⟨hk, hf, ht, hv⟩ => ⟨hk, hf, ht, hv⟩⟩

-- A line that states nothing.
structure Silent (l : String) : Prop where
  line  : '\n' ∉ l.toList
  never : ¬[':', ' '] <:+: l.toList

instance (l : String) : Decidable (Silent l) :=
  decidable_of_iff ('\n' ∉ l.toList ∧ ¬[':', ' '] <:+: l.toList)
    ⟨fun ⟨hl, hn⟩ => ⟨hl, hn⟩, fun ⟨hl, hn⟩ => ⟨hl, hn⟩⟩

section Lines

variable {key value l : String}

theorem toList_line (key value : String) :
    (line key value).toList = key.toList ++ ':' :: ' ' :: value.toList := by
  simp [line]

theorem Writable.not_mem_line (h : Writable key value) : '\n' ∉ (line key value).toList := by
  rw [toList_line]
  simp only [List.mem_append, List.mem_cons, not_or]
  exact ⟨h.key_line, by decide, by decide, h.value_line⟩

-- A key that ends in a colon is no trouble, since the next character is not the space.
theorem Writable.ofLine?_line (h : Writable key value) :
    ofLine? (line key value).toList = some (key, value) := by
  rw [toList_line, ofLine?_eq_some_iff]
  exact .intro h.key_first (trim_eq_iff.mp h.key_trim)

theorem Silent.ofLine?_eq_none (h : Silent l) : ofLine? l.toList = none := by
  refine Option.eq_none_iff_forall_ne_some.mpr fun (key, value) hl => h.never ?_
  generalize l.toList = cs at hl
  cases ofLine?_eq_some_iff.mp hl
  case intro before _ _ => exact ⟨before, value.toList, by simp⟩

end Lines

-- The lines of fields and lines that state nothing, in any order.
structure Written (fields : Fields) (ls : List String) : Prop where
  perm     : ∃ silent, (∀ l ∈ silent, Silent l) ∧
    ls.Perm (fields.toList.map (fun (key, value) => line key value) ++ silent)
  writable : ∀ field ∈ fields.toList, Writable field.1 field.2

namespace Written

variable {fields : Fields} {ls : List String} (w : Written fields ls)
include w

theorem lines_eq {l : String} (hl : l ∈ ls) : lines l = [l.toList] := by
  obtain ⟨silent, hs, hp⟩ := w.perm
  refine List.splitOn_eq_singleton ?_
  cases List.mem_append.mp (hp.mem_iff.mp hl)
  case inr hl => exact (hs l hl).line
  case inl hl =>
    obtain ⟨field, hf, rfl⟩ := List.mem_map.mp hl
    exact (w.writable _ hf).not_mem_line

theorem ofBlock_eq : ofBlock ("\n".intercalate ls) = ls.filterMap (ofLine? ∘ String.toList) := by
  rw [ofBlock_intercalate, ← List.filterMap_map, List.map_eq_flatMap,
    List.flatMap_congr fun _ => w.lines_eq]

theorem ofBlock_perm : (ofBlock ("\n".intercalate ls)).Perm fields.toList := by
  obtain ⟨silent, hs, hp⟩ := w.perm
  have hf : (fields.toList.map fun (key, value) => line key value).filterMap
      (ofLine? ∘ String.toList) = fields.toList := by
    rw [List.filterMap_map]
    exact (List.filterMap_congr fun _ hm => (w.writable _ hm).ofLine?_line).trans
      List.filterMap_some
  have hn : silent.filterMap (ofLine? ∘ String.toList) = [] :=
    List.filterMap_eq_nil_iff.mpr fun l hl => (hs l hl).ofLine?_eq_none
  have hp := hp.filterMap (ofLine? ∘ String.toList)
  rwa [← w.ofBlock_eq, List.filterMap_append, hf, hn, List.append_nil] at hp

-- Each key stands in one line, so that it does not matter which line is the last one.
theorem parse_eq : parse ("\n".intercalate ls) = fields := by
  have hp := (List.reverse_perm _).trans w.ofBlock_perm
  have hd : ((ofBlock ("\n".intercalate ls)).reverse.map Prod.fst).Nodup := by
    rw [(hp.map Prod.fst).nodup_iff, Std.ExtTreeMap.map_fst_toList_eq_keys]
    exact Std.ExtTreeMap.nodup_keys
  refine Std.ExtTreeMap.ext_getElem? fun key => Option.ext fun value => ?_
  rw [parse, getElem?_extend, Std.ExtTreeMap.getElem?_empty, Option.or_none,
    lookup_eq_some_iff_mem hd, hp.mem_iff, Std.ExtTreeMap.mem_toList_iff_getElem?_eq_some]

end Written

theorem extend_append (fields : Fields) (a b : String) :
    extend fields (a ++ "\n" ++ b) = extend (extend fields a) b := by
  have hb : ofBlock (a ++ "\n" ++ b) = ofBlock a ++ ofBlock b := by
    rw [ofBlock, ← lines, lines_append, List.filterMap_append]
    rfl
  rw [extend, hb, List.foldl_append]
  rfl

theorem extend_eq_union (fields : Fields) (block : String) :
    extend fields block = fields ∪ parse block := by
  refine Std.ExtTreeMap.ext_getElem? fun key => ?_
  rw [Std.ExtTreeMap.getElem?_union, parse, getElem?_extend, getElem?_extend]
  simp

theorem parse_lines :
    (∀ fields ls, Written fields ls → parse ("\n".intercalate ls) = fields) ∧
    (∀ fields a b, extend fields (a ++ "\n" ++ b) = extend (extend fields a) b) ∧
    ∀ fields block, extend fields block = fields ∪ parse block ∧
      ∀ key : String, (extend fields block)[key]? = (parse block)[key]?.or fields[key]? := by
  refine ⟨fun _ _ w => w.parse_eq, extend_append, fun fields block => ⟨?_, fun key => ?_⟩⟩
  · exact extend_eq_union fields block
  · rw [extend_eq_union, Std.ExtTreeMap.getElem?_union]

-- A key that ends in a colon, one that is empty, and values with blanks and a separator, among
-- lines that state nothing.
theorem written_odd : Written (.ofList [("a:", " b: c"), ("", ""), ("K", "v ")])
    ["K: v ", ":also none", ": ", "a::  b: c", ""] where
  perm     := ⟨[":also none", ""], by decide, by decide⟩
  writable := by decide

theorem parse_lines_odd :
    ∃ (fields : Fields) (ls : List String), ls = ["K: v ", ":also none", ": ", "a::  b: c", ""] ∧
      fields = .ofList [("a:", " b: c"), ("", ""), ("K", "v ")] ∧
      Written fields ls ∧ parse ("\n".intercalate ls) = fields :=
  ⟨_, _, rfl, rfl, written_odd, parse_lines.left _ _ written_odd⟩

end MessageCatalog.Fields
