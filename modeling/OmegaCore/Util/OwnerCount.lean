import OmegaCore.Util.Map

/-!
Reference-counted exclusive ownership.  A map sends each resource `h` to its only
owner and the number of times that owner holds it.  Acquiring a resource fails
when another owner holds it, releasing one fails when the caller does not hold it,
and an entry disappears with its last reference.  The map is read through
`count m p h`, the number of times `p` holds `h`: acquire and release are
increment and decrement of `count` at one point, and a map without zero entries
is determined by its counts.
-/

namespace OmegaCore.Util.OwnerCount

open Util

variable {H P : Type} [Ord H] [Std.TransOrd H]

def count [DecidableEq P] (m : Map H (P × ℕ)) (p : P) (h : H) : ℕ :=
  match m[h]? with
  | some (q, c) => if q = p then c else 0
  | none => 0

def Positive (m : Map H (P × ℕ)) : Prop :=
  ∀ (h : H) p c, m[h]? = some (p, c) → 0 < c

def acquire [DecidableEq P] (m : Map H (P × ℕ)) (p : P) (h : H) : Option (Map H (P × ℕ)) :=
  match m[h]? with
  | some (q, c) => if q ≠ p then none else some (m.insert h (p, c + 1))
  | none => some (m.insert h (p, 1))

def release [DecidableEq P] (m : Map H (P × ℕ)) (p : P) (h : H) : Option (Map H (P × ℕ)) :=
  match m[h]? with
  | some (q, c) =>
    if q ≠ p then none
    else if c = 1 then some (m.erase h)
    else some (m.insert h (p, c - 1))
  | none => none

variable {m m' : Map H (P × ℕ)} {p q : P} {h k : H} {c : ℕ} [DecidableEq P]

theorem count_of_get (hget : m[h]? = some (p, c)) : count m p h = c := by
  simp [count, hget]

theorem count_of_get_ne (hget : m[h]? = some (q, c)) (hne : q ≠ p) : count m p h = 0 := by
  simp [count, hget, hne]

theorem count_of_get_none (hget : m[h]? = none) : count m p h = 0 := by
  simp [count, hget]

@[simp]
theorem count_empty : count (∅ : Map H (P × ℕ)) p h = 0 := by
  simp [count]

omit [DecidableEq P] in
theorem positive_empty : Positive (∅ : Map H (P × ℕ)) := by
  intro h p c hget
  simp at hget

theorem get_of_count_pos (hpos : 0 < count m p h) : m[h]? = some (p, count m p h) := by
  unfold count at hpos ⊢
  split at hpos
  · next q c hget =>
    split_ifs at hpos with hq
    · simp [hget, hq]
    · omega
  · omega

theorem owner_unique (hp : 0 < count m p h) (hq : 0 < count m q h) : p = q := by
  have h1 := get_of_count_pos hp
  rw [get_of_count_pos hq] at h1
  simp only [Option.some.injEq, Prod.mk.injEq] at h1
  exact h1.1.symm

theorem get_eq_some_iff (hpos : Positive m) : m[h]? = some (p, c) ↔ 0 < c ∧ count m p h = c := by
  constructor
  · intro hget
    exact ⟨hpos h p c hget, count_of_get hget⟩
  · rintro ⟨hc, rfl⟩
    exact get_of_count_pos hc

theorem get_eq_none_iff (hpos : Positive m) : m[h]? = none ↔ ∀ p, count m p h = 0 := by
  constructor
  · intro hget p
    exact count_of_get_none hget
  · intro hz
    cases hget : m[h]? with
    | none => rfl
    | some e =>
      have hc := hpos h e.1 e.2 hget
      rw [← count_of_get (p := e.1) (c := e.2) hget, hz] at hc
      omega

theorem count_eq_zero_of_ne (hp : 0 < count m p h) (hq : q ≠ p) : count m q h = 0 := by
  by_contra hne
  exact hq (owner_unique (Nat.pos_of_ne_zero hne) hp)

theorem acquire_cases (hacq : acquire m p h = some m') :
    (∀ q, q ≠ p → count m q h = 0) ∧ m' = m.insert h (p, count m p h + 1) := by
  unfold acquire at hacq
  split at hacq
  · next r c hget =>
    split_ifs at hacq with hr
    cases hacq
    rw [ne_eq, not_not] at hr
    subst hr
    exact ⟨fun q hq => count_of_get_ne hget (Ne.symm hq), by rw [count_of_get hget]⟩
  · next hget =>
    cases hacq
    exact ⟨fun q _ => count_of_get_none hget, by rw [count_of_get_none hget]⟩

theorem release_cases (hpos : Positive m) (hrel : release m p h = some m') :
    0 < count m p h ∧ m' = if count m p h = 1 then m.erase h else m.insert h (p, count m p h - 1) := by
  unfold release at hrel
  split at hrel
  · next r c hget =>
    split_ifs at hrel with hr hone
    all_goals
      cases hrel
      rw [ne_eq, not_not] at hr
      subst hr
      rw [count_of_get hget]
      exact ⟨hpos h r c hget, by simp [hone]⟩
  · cases hrel

theorem exists_acquire (hfree : ∀ q, q ≠ p → count m q h = 0) (hpos : Positive m) : ∃ m', acquire m p h = some m' := by
  unfold acquire
  split
  · next q c hget =>
    by_cases hq : q = p
    · simp [hq]
    · have hc := hpos h q c hget
      rw [← count_of_get hget, hfree q hq] at hc
      omega
  · exact ⟨_, rfl⟩

theorem exists_release (hheld : 0 < count m p h) : ∃ m', release m p h = some m' := by
  simp only [release, get_of_count_pos hheld, ne_eq, not_true, if_false]
  split_ifs
  · exact ⟨_, rfl⟩
  · exact ⟨_, rfl⟩

section Ext

variable [Std.LawfulEqOrd H]

theorem ext_count (hm : Positive m) (hm' : Positive m') (heq : ∀ p h, count m p h = count m' p h) : m = m' := by
  refine Std.ExtTreeMap.ext_getElem? fun h => ?_
  cases hget : m[h]? with
  | none =>
    rw [get_eq_none_iff hm] at hget
    exact ((get_eq_none_iff hm').mpr fun p => heq p h ▸ hget p).symm
  | some e =>
    obtain ⟨hc, hcount⟩ := (get_eq_some_iff hm).mp hget
    exact ((get_eq_some_iff hm').mpr ⟨hc, heq e.1 h ▸ hcount⟩).symm

end Ext

variable [DecidableEq H]

/-! ### Sequences of steps -/

/-- `m'` arises from `m` when `p` releases the references `dels` and acquires `adds`. -/
structure Shifts (p : P) (dels adds : List H) (m m' : Map H (P × ℕ)) : Prop where
  positive : Positive m'
  other : ∀ q, q ≠ p → ∀ k, count m' q k = count m q k
  self : ∀ k, count m' p k + dels.count k = count m p k + adds.count k

theorem Shifts.refl (hpos : Positive m) (p : P) (hs : List H) : Shifts p hs hs m m :=
  ⟨hpos, fun _ _ _ => rfl, fun _ => rfl⟩

theorem Shifts.trans {m₁ m₂ m₃ : Map H (P × ℕ)} {dels₁ adds₁ dels₂ adds₂ : List H}
    (h₁ : Shifts p dels₁ adds₁ m₁ m₂) (h₂ : Shifts p dels₂ adds₂ m₂ m₃) :
    Shifts p (dels₁ ++ dels₂) (adds₁ ++ adds₂) m₁ m₃ := by
  refine ⟨h₂.positive, fun q hq k => ?_, fun k => ?_⟩
  · rw [h₂.other q hq, h₁.other q hq]
  · have e₁ := h₁.self k
    have e₂ := h₂.self k
    rw [List.count_append, List.count_append]
    omega

/-- `p` holds each of `hs` as often as it stands in the list. -/
def Holds (m : Map H (P × ℕ)) (p : P) (hs : List H) : Prop :=
  ∀ k, hs.count k ≤ count m p k

/-- Nobody but `p` holds one of `hs`. -/
def Free (m : Map H (P × ℕ)) (p : P) (hs : List H) : Prop :=
  ∀ h ∈ hs, ∀ q, q ≠ p → count m q h = 0

theorem Shifts.holds {dels adds hs : List H} (hshift : Shifts p dels adds m m')
    (hheld : Holds m p (dels ++ hs)) : Holds m' p hs := by
  intro k
  have hself := hshift.self k
  have hle := hheld k
  rw [List.count_append] at hle
  omega

theorem Shifts.free {dels adds hs : List H} (hshift : Shifts p dels adds m m')
    (hfree : Free m p hs) : Free m' p hs := by
  intro h hh q hq
  rw [hshift.other q hq]
  exact hfree h hh q hq

/-! ### The operations as shifts -/

variable [Std.LawfulEqOrd H]

theorem count_insert : count (m.insert h (p, c)) q k = if k = h then (if q = p then c else 0) else count m q k := by
  simp only [count, Map.get_insert]
  by_cases hk : k = h
  · simp only [hk, if_true]
    exact if_congr eq_comm rfl rfl
  · simp [hk]

theorem count_erase : count (m.erase h) q k = if k = h then 0 else count m q k := by
  simp only [count, Map.get_erase]
  by_cases hk : k = h <;> simp [hk]

omit [DecidableEq P] in
theorem positive_insert (hpos : Positive m) (hc : 0 < c) : Positive (m.insert h (p, c)) :=
  fun k q d hget => Map.forall_insert (P := fun _ e => 0 < e.2) (fun k e => hpos k e.1 e.2) hc k (q, d) hget

omit [DecidableEq P] in
theorem positive_erase (hpos : Positive m) : Positive (m.erase h) :=
  fun k q d hget => hpos k q d (Map.get_of_get_erase hget)

theorem shifts_of_acquire (hpos : Positive m) (hacq : acquire m p h = some m') : Shifts p [] [h] m m' := by
  obtain ⟨hother, rfl⟩ := acquire_cases hacq
  refine ⟨positive_insert hpos (Nat.succ_pos _), fun q hq k => ?_, fun k => ?_⟩
  · rw [count_insert]
    by_cases hk : k = h <;> simp [hk, hq, hother q hq]
  · rw [count_insert]
    by_cases hk : k = h
    · simp [hk]
    · simp [hk, Ne.symm hk]

theorem shifts_of_release (hpos : Positive m) (hrel : release m p h = some m') : Shifts p [h] [] m m' := by
  obtain ⟨hheld, rfl⟩ := release_cases hpos hrel
  split_ifs with hone
  · refine ⟨positive_erase hpos, fun q hq k => ?_, fun k => ?_⟩
    · rw [count_erase]
      by_cases hk : k = h <;> simp [hk, count_eq_zero_of_ne hheld hq]
    · rw [count_erase]
      by_cases hk : k = h
      · simp [hk, hone]
      · simp [hk, Ne.symm hk]
  · refine ⟨positive_insert hpos (by omega), fun q hq k => ?_, fun k => ?_⟩
    · rw [count_insert]
      by_cases hk : k = h <;> simp [hk, hq, count_eq_zero_of_ne hheld hq]
    · rw [count_insert]
      by_cases hk : k = h
      · simp only [hk, if_true, List.count_singleton_self, List.count_nil]
        omega
      · simp [hk, Ne.symm hk]

end OmegaCore.Util.OwnerCount
