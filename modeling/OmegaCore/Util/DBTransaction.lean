import OmegaCore.Util.Map

/-!
`CDBTransaction`: writes and deletes that are collected over a parent and given to it all
together.  A key is never both written and deleted.  A table is a map with one such
transaction on top of it; what is read from it is its view.  Committing keeps the view,
and rolling back returns to the map below.
-/

namespace OmegaCore.Util

/-- Pairs are ordered by their first and then by their second components. -/
instance instOrdProd {α β : Type} [Ord α] [Ord β] : Ord (α × β) := lexOrd

instance instTransOrdProd {α β : Type} [Ord α] [Ord β] [Std.TransOrd α] [Std.TransOrd β] : Std.TransOrd (α × β) :=
  inferInstanceAs (@Std.TransOrd (α × β) lexOrd)

instance instLawfulEqOrdProd {α β : Type} [Ord α] [Ord β] [Std.LawfulEqOrd α] [Std.LawfulEqOrd β] :
    Std.LawfulEqOrd (α × β) :=
  inferInstanceAs (@Std.LawfulEqOrd (α × β) lexOrd)

structure DBTransaction (K V : Type) [Ord K] [Std.TransOrd K] where
  writes : Map K V
  deletes : Map K Unit
  disjoint : ∀ k : K, deletes[k]? = some () → writes[k]? = none

namespace DBTransaction

variable {K V : Type} [Ord K] [Std.TransOrd K]
variable {t : DBTransaction K V} {k a : K} {v w : V} {parent : K → Option V} {m : Map K V}

def empty : DBTransaction K V where
  writes := ∅
  deletes := ∅
  disjoint := by simp

def read (parent : K → Option V) (t : DBTransaction K V) (key : K) : Option V :=
  if t.deletes[key]?.isSome then none
  else
    match t.writes[key]? with
    | some v => some v
    | none => parent key

def Touches (t : DBTransaction K V) (k : K) : Prop :=
  t.deletes[k]? = some () ∨ ∃ v, t.writes[k]? = some v

@[simp]
theorem read_empty : (empty : DBTransaction K V).read parent k = parent k := by
  simp [read, empty]

theorem read_of_not_touches (h : ¬ t.Touches k) : t.read parent k = parent k := by
  unfold Touches at h
  push Not at h
  obtain ⟨hdeletes, hwrites⟩ := h
  have hdel : t.deletes[k]? = none := by
    cases hget : t.deletes[k]? with
    | none => rfl
    | some u => exact absurd hget hdeletes
  have hwrite : t.writes[k]? = none := Option.eq_none_iff_forall_ne_some.mpr hwrites
  simp [read, hdel, hwrite]

theorem not_touches_empty : ¬ (empty : DBTransaction K V).Touches k := by
  simp [Touches, empty]

variable [Std.LawfulEqOrd K] [DecidableEq K]

def write (t : DBTransaction K V) (key : K) (v : V) : DBTransaction K V where
  writes := t.writes.insert key v
  deletes := t.deletes.erase key
  disjoint := by
    intro k hk
    rw [Map.get_erase] at hk
    split_ifs at hk with hkey
    rw [Map.get_insert, if_neg hkey]
    exact t.disjoint k hk

def erase (t : DBTransaction K V) (key : K) : DBTransaction K V where
  writes := t.writes.erase key
  deletes := t.deletes.insert key ()
  disjoint := by
    intro k hk
    rw [Map.get_insert] at hk
    rw [Map.get_erase]
    split_ifs at hk ⊢ with hkey
    · rfl
    · exact t.disjoint k hk

/-- Erase what is deleted, and then write what is written. -/
def commit (t : DBTransaction K V) (target : Map K V) : Map K V :=
  t.writes.toList.foldl (fun m p => m.insert p.1 p.2) (t.deletes.toList.foldl (fun m p => m.erase p.1) target)

@[simp]
theorem read_write : (t.write k v).read parent a = if a = k then some v else t.read parent a := by
  simp only [read, write, Map.get_erase, Map.get_insert]
  by_cases ha : a = k
  · simp [ha]
  · simp [ha]

@[simp]
theorem read_erase : (t.erase k).read parent a = if a = k then none else t.read parent a := by
  simp only [read, erase, Map.get_erase, Map.get_insert]
  by_cases ha : a = k
  · simp [ha]
  · simp [ha]

theorem touches_write : (t.write k v).Touches a ↔ a = k ∨ t.Touches a := by
  simp only [Touches, write, Map.get_erase, Map.get_insert]
  by_cases ha : a = k
  · simp [ha]
  · simp [ha]

/-! ### Commits -/

theorem get_foldl_insert (es : List (K × V)) (hes : (es.map Prod.fst).Nodup) (m : Map K V) :
    (es.foldl (fun m p => m.insert p.1 p.2) m)[k]? = some v ↔ (k, v) ∈ es ∨ (k ∉ es.map Prod.fst ∧ m[k]? = some v) := by
  induction es generalizing m with
  | nil => simp
  | cons e es ih =>
    rw [List.map_cons, List.nodup_cons] at hes
    obtain ⟨hnew, hes⟩ := hes
    rw [List.foldl_cons, ih hes, Map.get_insert, List.mem_cons, List.map_cons, List.mem_cons]
    by_cases he : k = e.1
    · subst he
      have hmem : (e.1, v) ∉ es := fun h => hnew (List.mem_map.mpr ⟨_, h, rfl⟩)
      simp only [hmem, hnew, not_false_eq_true, if_true, Option.some.injEq, true_and, false_or,
        not_true_eq_false, false_and, or_false]
      constructor
      · rintro rfl
        rfl
      · intro heq
        exact congrArg Prod.snd heq.symm
    · have hne : (k, v) ≠ e := fun h => he (congrArg Prod.fst h)
      simp [he, hne]

theorem get_commit : (t.commit m)[k]? = t.read (fun k => m[k]?) k := by
  apply Option.ext
  intro v
  rw [commit, get_foldl_insert _ (Map.nodup_keys _), Map.get_foldl_erase, read,
    Std.ExtTreeMap.mem_toList_iff_getElem?_eq_some, Map.mem_keys]
  cases hdel : t.deletes[k]? with
  | some u =>
    rw [if_pos (Map.mem_keys.mpr ⟨u, hdel⟩), t.disjoint k hdel]
    simp
  | none =>
    have hnot : k ∉ t.deletes.toList.map Prod.fst := by
      rw [Map.mem_keys, hdel]
      simp
    rw [if_neg hnot]
    cases hwrite : t.writes[k]? with
    | some w => simp
    | none => simp

end DBTransaction

/-- A map in the database with the current transaction on top of it. -/
structure Table (K V : Type) [Ord K] [Std.TransOrd K] where
  committed : Map K V
  cur : DBTransaction K V

namespace Table

variable {K V : Type} [Ord K] [Std.TransOrd K] {t : Table K V} {k a : K} {v : V}

def empty : Table K V := ⟨∅, .empty⟩

def read (t : Table K V) (key : K) : Option V :=
  t.cur.read (fun k => t.committed[k]?) key

def exists? (t : Table K V) (key : K) : Bool :=
  (t.read key).isSome

def rollback (t : Table K V) : Table K V :=
  { t with cur := .empty }

@[simp]
theorem read_rollback : t.rollback.read a = t.committed[a]? := by
  simp only [read, rollback, DBTransaction.read_empty]

theorem read_of_not_touches (h : ¬ t.cur.Touches a) : t.read a = t.committed[a]? :=
  DBTransaction.read_of_not_touches h

variable [Std.LawfulEqOrd K] [DecidableEq K]

def write (t : Table K V) (key : K) (v : V) : Table K V :=
  { t with cur := t.cur.write key v }

def erase (t : Table K V) (key : K) : Table K V :=
  { t with cur := t.cur.erase key }

def commit (t : Table K V) : Table K V :=
  ⟨t.cur.commit t.committed, .empty⟩

@[simp]
theorem read_write : (t.write k v).read a = if a = k then some v else t.read a :=
  DBTransaction.read_write

@[simp]
theorem read_erase : (t.erase k).read a = if a = k then none else t.read a :=
  DBTransaction.read_erase

@[simp]
theorem read_commit : t.commit.read a = t.read a := by
  simp only [read, commit, DBTransaction.read_empty, DBTransaction.get_commit]

end Table

end OmegaCore.Util
