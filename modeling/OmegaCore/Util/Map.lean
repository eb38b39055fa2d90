import Mathlib.Algebra.Order.Ring.Nat
import Mathlib.Data.List.Basic

/-!
A finite map with extensional equality, used for every map the sources keep
(`immer::map`, `std::map`, `std::unordered_map`).  The type is the ordered tree
map of the standard library; this module only restates its lookup laws with
propositional equality of keys, and gives the list of stored values that a
`for (const auto& p : map)` loop runs over.
-/

namespace OmegaCore.Util

open List Std

/-- A finite map from `K` to `V`. -/
abbrev Map (K V : Type) [Ord K] := ExtTreeMap K V compare

namespace Map

variable {K V : Type} [Ord K] [TransOrd K] [LawfulEqOrd K]

theorem get_insert [DecidableEq K] (m : Map K V) (k a : K) (v : V) :
    (m.insert k v)[a]? = if a = k then some v else m[a]? := by
  rw [ExtTreeMap.getElem?_insert]
  by_cases h : a = k
  · simp [h]
  · have hne : k ≠ a := fun e => h e.symm
    simp [h, hne]

theorem get_erase [DecidableEq K] (m : Map K V) (k a : K) : (m.erase k)[a]? = if a = k then none else m[a]? := by
  rw [ExtTreeMap.getElem?_erase]
  by_cases h : a = k
  · simp [h]
  · have hne : k ≠ a := fun e => h e.symm
    simp [h, hne]

theorem get_of_get_erase [DecidableEq K] {m : Map K V} {k a : K} {v : V}
    (h : (m.erase k)[a]? = some v) : m[a]? = some v := by
  rw [get_erase] at h
  split_ifs at h
  exact h

theorem get_foldl_erase [DecidableEq K] {α : Type} (f : α → K) (es : List α) (m : Map K V) (a : K) :
    (es.foldl (fun m e => m.erase (f e)) m)[a]? = if a ∈ es.map f then none else m[a]? := by
  induction es generalizing m with
  | nil => simp
  | cons e es ih =>
    rw [foldl_cons, ih, get_erase, map_cons]
    by_cases he : a = f e
    · simp [he]
    · simp only [he, if_false, mem_cons, false_or]

theorem forall_insert [DecidableEq K] {P : K → V → Prop} {m : Map K V} {k : K} {v : V}
    (hm : ∀ a w, m[a]? = some w → P a w) (hv : P k v) (a : K) (w : V) (h : (m.insert k v)[a]? = some w) : P a w := by
  rw [get_insert] at h
  split_ifs at h with ha
  · cases h
    exact ha ▸ hv
  · exact hm a w h

theorem insert_insert [DecidableEq K] (m : Map K V) (k : K) (v w : V) : (m.insert k v).insert k w = m.insert k w := by
  apply ExtTreeMap.ext_getElem?
  intro a
  rw [get_insert, get_insert, get_insert]
  split_ifs <;> rfl

omit [LawfulEqOrd K] in
@[simp]
theorem get_empty (a : K) : (∅ : Map K V)[a]? = none :=
  ExtTreeMap.getElem?_empty

/-- `emplace`: insert a value unless the key is taken. -/
def emplace (m : Map K V) (k : K) (v : V) : Map K V :=
  if m[k]?.isSome then m else m.insert k v

theorem get_emplace [DecidableEq K] (m : Map K V) (k a : K) (v : V) :
    (m.emplace k v)[a]? = if a = k ∧ m[k]? = none then some v else m[a]? := by
  unfold emplace
  split_ifs with h₁ h₂ h₂
  · simp [h₂.2] at h₁
  · rfl
  · rw [get_insert, if_pos h₂.1]
  · rw [get_insert]
    refine if_neg fun h => h₂ ⟨h, ?_⟩
    simpa using h₁

theorem get_foldl_emplace [DecidableEq K] {α : Type} (f : α → K) (g : α → V) (es : List α) (m : Map K V) (a : K) :
    (es.foldl (fun m e => m.emplace (f e) (g e)) m)[a]? = m[a]?.or ((es.find? fun e => f e = a).map g) := by
  induction es generalizing m with
  | nil => simp
  | cons e es ih =>
    rw [foldl_cons, ih, get_emplace, find?_cons]
    by_cases he : f e = a
    · subst he
      cases m[f e]? <;> simp
    · simp [he, Ne.symm he]

omit [LawfulEqOrd K] in
theorem get_of_get_filter {m : Map K V} {f : K → V → Bool} {k : K} {v : V}
    (h : (m.filter f)[k]? = some v) : m[k]? = some v := by
  rw [ExtTreeMap.getElem?_filter] at h
  exact (Option.pfilter_eq_some_iff.mp h).elim fun hget _ => hget

/-- The stored values, in the order in which the map is iterated. -/
def values (m : Map K V) : List V :=
  m.toList.map Prod.snd

theorem mem_values (m : Map K V) (v : V) : v ∈ m.values ↔ ∃ k : K, m[k]? = some v := by
  simp only [values, mem_map, Prod.exists, exists_eq_right]
  exact exists_congr fun k => ExtTreeMap.mem_toList_iff_getElem?_eq_some

theorem filterMap_values_congr {V' W : Type} {m : Map K V} {m' : Map K V'} {f : V → Option W}
    {g : V' → Option W} (h : ∀ k : K, m[k]?.bind f = m'[k]?.bind g) :
    m.values.filterMap f = m'.values.filterMap g := by
  have hmap : m.filterMap (fun _ => f) = m'.filterMap (fun _ => g) := by
    apply ExtTreeMap.ext_getElem?
    intro k
    simpa [ExtTreeMap.getElem?_filterMap, Option.pbind_eq_bind] using h k
  have hlist := congrArg (fun m : Map K W => m.toList.map Prod.snd) hmap
  simpa [values, ExtTreeMap.toList_filterMap, map_filterMap, filterMap_map, Function.comp_def] using hlist

theorem nodup_keys (m : Map K V) : (m.toList.map Prod.fst).Nodup := by
  rw [nodup_iff_pairwise_ne, pairwise_map]
  refine ExtTreeMap.distinct_keys_toList.imp ?_
  intro a b hab heq
  exact hab (by simp [heq])

theorem mem_keys {m : Map K V} {k : K} : k ∈ m.toList.map Prod.fst ↔ ∃ v, m[k]? = some v := by
  simp only [mem_map, Prod.exists, exists_and_right, exists_eq_right,
    ExtTreeMap.mem_toList_iff_getElem?_eq_some]

theorem nodup_map_values {f : V → K} (m : Map K V) (hkey : ∀ k v, m[k]? = some v → f v = k) :
    (m.values.map f).Nodup := by
  have hfst : m.values.map f = m.toList.map Prod.fst := by
    rw [values, map_map]
    refine map_congr_left fun p hp => ?_
    exact hkey p.1 p.2 (ExtTreeMap.mem_toList_iff_getElem?_eq_some.mp hp)
  rw [hfst]
  exact nodup_keys m

end Map

end OmegaCore.Util
