import Mathlib.Data.List.MinMax
import Mathlib.Data.List.Sort

/-!
Sorting with a strict comparison, as `std::sort` is called with one.  If the comparison is the
one of keys in a linear order, a sorted list is left as it is.  A loop that keeps the better
element finds one with the least key.
-/

namespace OmegaCore.Util

variable {α κ : Type} [LinearOrder κ]

def sortBy (lt : α → α → Bool) (l : List α) : List α :=
  l.insertionSort fun a b => lt b a = false

theorem sortBy_perm (lt : α → α → Bool) (l : List α) : (sortBy lt l).Perm l :=
  List.perm_insertionSort _ l

variable {lt : α → α → Bool} {key : α → κ}

section

variable (hkey : ∀ a b, lt a b = true ↔ key a < key b)

include hkey

theorem sortBy_pairwise (l : List α) : (sortBy lt l).Pairwise fun a b => key a ≤ key b := by
  have hle : (fun a b => lt b a = false) = fun a b => key a ≤ key b := by
    funext a b
    rw [← Bool.not_eq_true, hkey, not_lt]
  unfold sortBy
  simp only [hle]
  exact List.pairwise_insertionSort _ l

theorem sortBy_eq_self {l : List α} (h : l.Pairwise fun a b => key a ≤ key b) : sortBy lt l = l := by
  apply List.Pairwise.insertionSort_eq
  refine h.imp fun {a b} hab => ?_
  rw [← Bool.not_eq_true, hkey]
  exact not_lt.mpr hab

theorem sortBy_eq_of_perm {l l' : List α} (hperm : l.Perm l')
    (h : l'.Pairwise fun a b => key a ≤ key b) (hinj : ∀ a ∈ l, ∀ b ∈ l, key a = key b → a = b) :
    sortBy lt l = l' := by
  have hall : (sortBy lt l).Perm l' := (sortBy_perm lt l).trans hperm
  refine hall.eq_of_pairwise (fun a b ha hb hab hba => ?_) (sortBy_pairwise hkey l) h
  exact hinj a ((sortBy_perm lt l).mem_iff.mp ha) b (hperm.mem_iff.mpr hb) (le_antisymm hab hba)

theorem sortBy_sortBy (l : List α) : sortBy lt (sortBy lt l) = sortBy lt l :=
  sortBy_eq_self hkey (sortBy_pairwise hkey l)

end

theorem foldl_eq_argmin {step : Option α → α → Option α} (hnone : ∀ a, step none a = some a)
    (hsome : ∀ a b, step (some b) a = if key a < key b then some a else some b) (l : List α) :
    l.foldl step none = l.argmin key := by
  unfold List.argmin
  congr 1
  funext best a
  cases best with
  | none => exact hnone a
  | some b => exact hsome a b

end OmegaCore.Util
