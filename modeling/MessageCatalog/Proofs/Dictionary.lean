import Mathlib.Data.List.Basic
import Std.Data.ExtTreeMap

namespace MessageCatalog

variable {α β : Type}

theorem getElem?_foldl_insert (m : Std.ExtTreeMap String β) (entries : List (String × β))
    (key : String) :
    (entries.foldl (fun m entry => m.insert entry.1 entry.2) m)[key]? =
      (entries.reverse.lookup key).or m[key]? := by
  induction entries generalizing m
  case nil => rfl
  case cons entry entries ih =>
    have hk : (m.insert entry.1 entry.2)[key]? = ([entry].lookup key).or m[key]? := by
      have ⟨k, _⟩ := entry
      by_cases hk : key = k
      case pos => simp [hk]
      case neg =>
        have hb : (key == k) = false := beq_false_of_ne hk
        simp [List.lookup_cons, Std.ExtTreeMap.getElem?_insert, Ne.symm hk, hb]
    rw [List.foldl_cons, ih, hk, List.reverse_cons, List.lookup_append, Option.or_assoc]

section Lists

variable [BEq α] [LawfulBEq α] {key : α} {value : β} {l : List (α × β)}

-- With distinct keys, what is found under a key is what stands under it.
theorem lookup_eq_some_iff_mem (h : (l.map Prod.fst).Nodup) :
    l.lookup key = some value ↔ (key, value) ∈ l := by
  induction l
  case nil => simp
  case cons entry l ih =>
    rw [List.map_cons, List.nodup_cons] at h
    rw [List.lookup_cons, List.mem_cons]
    by_cases hk : key = entry.1
    case pos =>
      subst hk
      have hm : (entry.1, value) ∉ l := fun hm => h.left (List.mem_map.mpr ⟨_, hm, rfl⟩)
      simp [hm, Prod.ext_iff, eq_comm]
    case neg =>
      rw [beq_false_of_ne hk]
      simp [ih h.right, Prod.ext_iff, hk]

-- The entries of other keys are not looked at.
theorem lookup_filter (key : α) (l : List (α × β)) :
    (l.filter (·.1 == key)).lookup key = l.lookup key := by
  induction l
  case nil => rfl
  case cons entry l ih =>
    obtain ⟨k, _⟩ := entry
    by_cases hk : k = key
    case pos => simp [hk]
    case neg =>
      have hb : (key == k) = false := beq_false_of_ne (Ne.symm hk)
      simp [hk, hb, List.lookup_cons, ih]

end Lists

end MessageCatalog
