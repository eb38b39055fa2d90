import Mathlib.Data.List.Destutter
import Mathlib.Data.List.NodupEquivFin

/-!
A search for the items of one list, in order, in another list.  The search for an item
begins at the position of the last match, which it may use again, so equal neighbours
share a position: the search succeeds exactly if the first list without repeated
neighbours is a sublist of the second.
-/

namespace OmegaCore.Util

open List

variable {α β : Type} (m : β → α → Bool) (l : List α)

def findFrom (b : β) (start : ℕ) : Option ℕ :=
  ((l.drop start).findIdx? (m b)).map (· + start)

/-- Match the items one after the other. -/
def matchFrom : List β → ℕ → Bool
  | [], _ => true
  | b :: bs, start =>
    match findFrom m l b start with
    | some j => matchFrom bs j
    | none => false

variable {m l} {f : β → α}

variable (hm : ∀ b a, m b a = true ↔ f b = a)

include hm in
theorem findFrom_eq_none {b : β} {start : ℕ} : findFrom m l b start = none ↔ f b ∉ l.drop start := by
  rw [findFrom, Option.map_eq_none_iff, findIdx?_eq_none_iff]
  constructor
  · intro h hmem
    have hnot := h (f b) hmem
    rw [(hm b (f b)).mpr rfl] at hnot
    cases hnot
  · intro h a ha
    cases hmatch : m b a with
    | false => rfl
    | true => exact absurd ((hm b a).mp hmatch ▸ ha) h

include hm in
theorem findFrom_eq_some {b : β} {start j : ℕ} (h : findFrom m l b start = some j) :
    ∃ skipped, f b ∉ skipped ∧ l.drop start = skipped ++ l.drop j ∧ ∃ rest, l.drop j = f b :: rest := by
  rw [findFrom, Option.map_eq_some_iff] at h
  obtain ⟨i, hi, rfl⟩ := h
  obtain ⟨hlt, hmatch, hfirst⟩ := findIdx?_eq_some_iff_getElem.mp hi
  have hdrop : l.drop (i + start) = (l.drop start).drop i := by rw [drop_drop, Nat.add_comm]
  refine ⟨(l.drop start).take i, ?_, ?_, ?_⟩
  · intro hmem
    obtain ⟨k, hk, hget⟩ := mem_take_iff_getElem.mp hmem
    have hnot := hfirst k (by omega)
    exact hnot ((hm b _).mpr hget.symm)
  · rw [hdrop, take_append_drop]
  · rw [hdrop]
    exact ⟨_, by rw [(hm b _).mp hmatch, getElem_cons_drop]⟩

theorem cons_sublist_append_of_notMem {a : α} {t skipped rest : List α} (h : a ∉ skipped) :
    (a :: t).Sublist (skipped ++ rest) ↔ (a :: t).Sublist rest := by
  induction skipped with
  | nil => rfl
  | cons s skipped ih =>
    have hne : a ≠ s := fun heq => h (heq ▸ mem_cons_self)
    rw [cons_append, ← ih fun hmem => h (mem_cons_of_mem _ hmem)]
    constructor
    · intro hsub
      cases hsub with
      | cons _ hsub => exact hsub
      | cons_cons _ _ => exact absurd rfl hne
    · exact fun hsub => hsub.cons _

variable [DecidableEq α]

theorem exists_destutter'_eq_cons (a : α) (t : List α) : ∃ rest, t.destutter' (· ≠ ·) a = a :: rest := by
  induction t with
  | nil => exact ⟨[], rfl⟩
  | cons b t ih =>
    by_cases h : a ≠ b
    · exact ⟨_, destutter'_cons_pos _ h⟩
    · rwa [destutter'_cons_neg _ h]

theorem mem_destutter'_ne {a b : α} {t : List α} (h : b ∈ a :: t) : b ∈ t.destutter' (· ≠ ·) a := by
  induction t generalizing a with
  | nil => exact h
  | cons c t ih =>
    by_cases hne : a ≠ c
    · rw [destutter'_cons_pos _ hne]
      rcases mem_cons.mp h with rfl | h
      · exact mem_cons_self
      · exact mem_cons_of_mem _ (ih h)
    · rw [destutter'_cons_neg _ hne]
      obtain rfl := not_not.mp hne
      apply ih
      rcases mem_cons.mp h with rfl | h
      · exact mem_cons_self
      · exact h

theorem mem_destutter_ne {b : α} {t : List α} (h : b ∈ t) : b ∈ t.destutter (· ≠ ·) := by
  cases t with
  | nil => cases h
  | cons a t =>
    exact mem_destutter'_ne h

include hm in
/-- The search for an item skips what is before its first occurrence. -/
theorem matchFrom_cons {b : β} {bs : List β} {start : ℕ} (hbs : ∀ j rest, l.drop j = f b :: rest →
      (matchFrom m l bs j = true ↔ ((bs.map f).destutter' (· ≠ ·) (f b)).Sublist (l.drop j))) :
    matchFrom m l (b :: bs) start = true ↔ ((bs.map f).destutter' (· ≠ ·) (f b)).Sublist (l.drop start) := by
  obtain ⟨t, ht⟩ := exists_destutter'_eq_cons (f b) (bs.map f)
  rw [matchFrom]
  cases hfind : findFrom m l b start with
  | none =>
    have hnot := (findFrom_eq_none hm).mp hfind
    rw [ht]
    simp only [Bool.false_eq_true, false_iff]
    exact fun hsub => hnot (hsub.subset mem_cons_self)
  | some j =>
    obtain ⟨skipped, hskipped, hsplit, rest, hj⟩ := findFrom_eq_some hm hfind
    rw [hbs j rest hj, ht, hsplit]
    exact (cons_sublist_append_of_notMem hskipped).symm

include hm in
theorem matchFrom_of_matched {a : α} {bs : List β} {j : ℕ} {rest : List α} (hj : l.drop j = a :: rest) :
    matchFrom m l bs j = true ↔ ((bs.map f).destutter' (· ≠ ·) a).Sublist (l.drop j) := by
  induction bs generalizing a j rest with
  | nil => simp [matchFrom, hj]
  | cons b bs ih =>
    rw [map_cons]
    by_cases heq : a ≠ f b
    · obtain ⟨t, ht⟩ := exists_destutter'_eq_cons (f b) (bs.map f)
      have hnot : f b ∉ [a] := by simpa using heq.symm
      rw [matchFrom_cons hm fun j rest => ih, destutter'_cons_pos _ heq, hj, cons_sublist_cons, ht]
      exact cons_sublist_append_of_notMem hnot
    · have hfind : findFrom m l b j = some j := by
        simp [findFrom, hj, findIdx?_cons, (hm b a).mpr (not_not.mp heq).symm]
      rw [matchFrom, hfind, destutter'_cons_neg _ heq]
      exact ih hj

include hm in
theorem matchFrom_iff {bs : List β} {start : ℕ} :
    matchFrom m l bs start = true ↔ ((bs.map f).destutter (· ≠ ·)).Sublist (l.drop start) := by
  cases bs with
  | nil => simp [matchFrom]
  | cons b bs =>
    exact matchFrom_cons hm fun j rest => matchFrom_of_matched hm

end OmegaCore.Util
