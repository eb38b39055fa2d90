import OmegaCore.Util.Map

/-!
`CacheMap` and `CacheMultiMap`: containers that keep the last items that were added, newest
first.  The multi map keeps, under each key, the values in the order of their type; values that
neither is below the other are one value to it.
-/

namespace OmegaCore.Util

structure CacheMap (K V : Type) where
  nMaxSize : ℕ
  listItems : List (K × V) := []

namespace CacheMap

variable {K V : Type} [DecidableEq K]

def hasKey (c : CacheMap K V) (key : K) : Bool :=
  c.listItems.any (·.1 == key)

def insert (c : CacheMap K V) (key : K) (value : V) : CacheMap K V × Bool :=
  if c.hasKey key then (c, false)
  else
    let listItems := if c.listItems.length = c.nMaxSize then c.listItems.dropLast else c.listItems
    ({ c with listItems := (key, value) :: listItems }, true)

end CacheMap

structure CacheMultiMap (K V : Type) [Ord K] where
  nMaxSize : ℕ
  listItems : List (K × V) := []
  mapIndex : Map K (List V) := ∅

namespace CacheMultiMap

variable {K V : Type} [Ord K] [Std.TransOrd K] [DecidableEq K] (lt : V → V → Bool)

/-- The values are one key of a `std::map` with this order. -/
def same (v w : V) : Bool :=
  !lt v w && !lt w v

/-- `it_map_t::emplace` for a value that is not there. -/
def emplaceValue (value : V) : List V → List V
  | [] => [value]
  | v :: mapIt => if lt value v then value :: v :: mapIt else v :: emplaceValue value mapIt

variable (c : CacheMultiMap K V) (key : K)

def pruneLast : CacheMultiMap K V :=
  match c.listItems.getLast? with
  | none => c
  | some item =>
    let mapIndex :=
      match c.mapIndex[item.1]? with
      | none => c.mapIndex
      | some mapIt =>
        let mapIt := mapIt.eraseP (same lt item.2)
        if mapIt.isEmpty then c.mapIndex.erase item.1 else c.mapIndex.insert item.1 mapIt
    { c with listItems := c.listItems.dropLast, mapIndex := mapIndex }

/-- There is no result if the last item goes and was the only one under the key: the code then uses a
reference to an inner map that is erased. -/
def insert (value : V) : Option (CacheMultiMap K V × Bool) :=
  let c := { c with mapIndex := c.mapIndex.emplace key [] }
  if ((c.mapIndex[key]?).getD []).any (same lt value) then some (c, false)
  else
    let c := if c.listItems.length = c.nMaxSize then c.pruneLast lt else c
    match c.mapIndex[key]? with
    | none => none
    | some mapIt =>
      some ({ c with
        listItems := (key, value) :: c.listItems
        mapIndex := c.mapIndex.insert key (emplaceValue lt value mapIt) }, true)

def getAll : List V :=
  (c.mapIndex[key]?).getD []

/-- `Erase(key, value)`. -/
def eraseValue (value : V) : CacheMultiMap K V :=
  match c.mapIndex[key]? with
  | none => c
  | some mapIt =>
    if mapIt.any (same lt value) then
      let mapIt := mapIt.eraseP (same lt value)
      { c with
        listItems := c.listItems.eraseP fun item => item.1 == key && same lt value item.2
        mapIndex := if mapIt.isEmpty then c.mapIndex.erase key else c.mapIndex.insert key mapIt }
    else c

variable [Std.LawfulEqOrd K] {lt} {c : CacheMultiMap K V} {key : K} {value : V}

/-- An insertion that needs no room to be made. -/
theorem insert_of_lt (h : c.listItems.length < c.nMaxSize) :
    ∃ c' isNew, c.insert lt key value = some (c', isNew) ∧ c'.nMaxSize = c.nMaxSize ∧
      c'.listItems.length ≤ c.listItems.length + 1 ∧
      ∀ k, c'.getAll k = if k = key ∧ (c.getAll key).any (same lt value) = false then
        emplaceValue lt value (c.getAll key) else c.getAll k := by
  have hsame (k : K) : ((c.mapIndex.emplace key [])[k]?).getD [] = c.getAll k := by
    rw [Map.get_emplace, getAll]
    split_ifs with hnew
    · rw [hnew.1, hnew.2]
      rfl
    · rfl
  have hkey : (c.mapIndex.emplace key [])[key]? = some (c.getAll key) := by
    rw [getAll, Map.get_emplace]
    cases c.mapIndex[key]? with
    | none => simp
    | some mapIt => simp
  unfold insert
  dsimp only
  rw [if_neg h.ne, hkey, Option.getD_some]
  split_ifs with hany
  · refine ⟨_, _, rfl, rfl, Nat.le_succ _, fun k => ?_⟩
    rw [if_neg (by simp only [hany, Bool.true_eq_false, and_false, not_false_eq_true])]
    exact hsame k
  · refine ⟨_, _, rfl, rfl, le_refl _, fun k => ?_⟩
    rw [getAll, Map.get_insert, ← hsame k]
    by_cases hk : k = key
    · simp [hk, hany]
    · simp [hk]

end CacheMultiMap

end OmegaCore.Util
