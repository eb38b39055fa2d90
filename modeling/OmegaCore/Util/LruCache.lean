import Mathlib.Data.List.Sort
import OmegaCore.Util.Map

/-!
`unordered_lru_cache`: a map whose entries carry the time of their last access.  An
insertion that makes it larger than its threshold drops the entries that were not
accessed for the longest time.  What a user of the cache relies on is that a lookup
finds nothing but what was inserted last under the key.
-/

namespace OmegaCore.Util

structure LruCache (K V : Type) [Ord K] where
  cacheMap : Map K (V × ℕ) := ∅
  maxSize : ℕ
  truncateThreshold : ℕ
  accessCounter : ℕ := 0

namespace LruCache

variable {K V : Type} [Ord K] [Std.TransOrd K]

def create (maxSize : ℕ) (truncateThreshold : ℕ := 0) : LruCache K V where
  maxSize := maxSize
  truncateThreshold := if truncateThreshold = 0 then maxSize * 2 else truncateThreshold

variable (c : LruCache K V) (key : K)

/-- The entries by the time of their last access, the latest first. -/
def byAccess : List (K × V × ℕ) :=
  c.cacheMap.toList.insertionSort fun a b => b.2.2 ≤ a.2.2

def truncateIfNeeded : LruCache K V :=
  if c.cacheMap.size ≤ c.truncateThreshold then c
  else { c with cacheMap := (c.byAccess.drop c.maxSize).foldl (fun m e => m.erase e.1) c.cacheMap }

/-- Store an entry as accessed now. -/
def touch (v : V) : LruCache K V :=
  { c with
    cacheMap := c.cacheMap.insert key (v, c.accessCounter)
    accessCounter := c.accessCounter + 1 }

def insert (v : V) : LruCache K V :=
  (c.touch key v).truncateIfNeeded

def get : Option V × LruCache K V :=
  match c.cacheMap[key]? with
  | some e => (some e.1, c.touch key e.1)
  | none => (none, c)

def erase : LruCache K V :=
  { c with cacheMap := c.cacheMap.erase key }

def peek : Option V :=
  c.cacheMap[key]?.map Prod.fst

variable [Std.LawfulEqOrd K] [DecidableEq K] {c : LruCache K V} {k a : K} {v w : V}

omit [Std.LawfulEqOrd K] [DecidableEq K] in
@[simp]
theorem peek_create (n t : ℕ) : (create n t : LruCache K V).peek k = none := by
  simp [peek, create]

@[simp]
theorem peek_touch : (c.touch k v).peek a = if a = k then some v else c.peek a := by
  simp only [peek, touch, Map.get_insert]
  split_ifs <;> rfl

@[simp]
theorem peek_erase : (c.erase k).peek a = if a = k then none else c.peek a := by
  simp only [peek, erase, Map.get_erase]
  split_ifs <;> rfl

omit [Std.LawfulEqOrd K] [DecidableEq K] in
@[simp]
theorem fst_get : (c.get k).1 = c.peek k := by
  unfold get peek
  cases c.cacheMap[k]? <;> rfl

@[simp]
theorem peek_get : (c.get k).2.peek a = c.peek a := by
  unfold get
  cases hget : c.cacheMap[k]? with
  | none => rfl
  | some e =>
    rw [peek_touch]
    split_ifs with ha
    · rw [ha, peek, hget]
      rfl
    · rfl

theorem peek_of_peek_truncateIfNeeded (h : c.truncateIfNeeded.peek a = some w) : c.peek a = some w := by
  unfold truncateIfNeeded at h
  split_ifs at h
  · exact h
  · obtain ⟨e, he, rfl⟩ := Option.map_eq_some_iff.mp h
    rw [Map.get_foldl_erase] at he
    split_ifs at he
    exact Option.map_eq_some_iff.mpr ⟨e, he, rfl⟩

theorem peek_insert (h : (c.insert k v).peek a = some w) : (a = k ∧ w = v) ∨ (a ≠ k ∧ c.peek a = some w) := by
  have htouch := peek_of_peek_truncateIfNeeded h
  rw [peek_touch] at htouch
  split_ifs at htouch with ha
  · exact .inl ⟨ha, (Option.some.inj htouch).symm⟩
  · exact .inr ⟨ha, htouch⟩

end LruCache

end OmegaCore.Util
