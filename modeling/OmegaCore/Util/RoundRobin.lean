import Mathlib.Algebra.BigOperators.Group.List.Basic
import Mathlib.Data.List.Flatten
import Mathlib.Algebra.Order.Ring.Nat

/-!
Weighted round robin.  One participant is being served and may have turns left; the
others wait in a queue.  When the turns are used up the head of the queue is served
next, for as many turns in a row as its weight, and the one served before joins the
end of the queue.  Over one round everybody gets exactly as many turns as its weight,
wherever in its turns the current participant is when the round begins.
-/

namespace OmegaCore.Util

open List

structure RoundRobin (ι : Type) where
  waiting : List ι
  current : ι
  /-- The turns the current participant has left. -/
  left : ℕ

namespace RoundRobin

variable {ι : Type} (w : ι → ℕ)

/-- Who has the next turn, and the state after it. -/
def step (s : RoundRobin ι) : ι × RoundRobin ι :=
  match s.left, s.waiting with
  | 0, x :: xs => (x, ⟨xs ++ [s.current], x, w x - 1⟩)
  | 0, [] => (s.current, s)
  | n + 1, _ => (s.current, { s with left := n })

def turns : RoundRobin ι → ℕ → List ι
  | _, 0 => []
  | s, n + 1 => (s.step w).1 :: turns (s.step w).2 n

def members (s : RoundRobin ι) : List ι :=
  s.waiting ++ [s.current]

theorem perm_members_step (s : RoundRobin ι) : (s.step w).2.members.Perm s.members := by
  obtain ⟨waiting, current, left⟩ := s
  cases left with
  | succ n => exact .refl _
  | zero =>
    cases waiting with
    | nil => exact .refl _
    | cons x xs =>
      have hcomm : ((xs ++ [current]) ++ [x]).Perm (x :: (xs ++ [current])) := perm_append_singleton ..
      exact hcomm

variable {w} {waiting xs ys : List ι} {current x : ι}

theorem turns_left (left n : ℕ) :
    turns w ⟨waiting, current, left⟩ (left + n) = List.replicate left current ++ turns w ⟨waiting, current, 0⟩ n := by
  induction left with
  | zero => simp
  | succ k ih =>
    rw [Nat.succ_add, turns, replicate_succ, cons_append]
    exact congrArg (current :: ·) ih

theorem turns_cons (hw : 0 < w x) (n : ℕ) :
    turns w ⟨x :: xs, current, 0⟩ (w x + n) = List.replicate (w x) x ++ turns w ⟨xs ++ [current], x, 0⟩ n := by
  obtain ⟨k, hk⟩ : ∃ k, w x = k + 1 := ⟨w x - 1, by omega⟩
  have hstep : turns w ⟨x :: xs, current, 0⟩ (w x + n) = x :: turns w ⟨xs ++ [current], x, k⟩ (k + n) := by
    rw [hk, Nat.succ_add, turns]
    simp [step, hk]
  rw [hstep, turns_left, hk, replicate_succ, cons_append]

/-- The first part of the queue is served in order. -/
theorem turns_append (hw : ∀ x ∈ xs, 0 < w x) (n : ℕ) :
    turns w ⟨xs ++ ys, current, 0⟩ ((xs.map w).sum + n) = xs.flatMap (fun x => List.replicate (w x) x) ++
        turns w ⟨ys ++ (current :: xs).dropLast, (current :: xs).getLast (by simp), 0⟩ n := by
  induction xs generalizing ys current with
  | nil => simp
  | cons x xs ih =>
    rw [forall_mem_cons] at hw
    have hrest := @ih (ys ++ [current]) x hw.2
    rw [map_cons, sum_cons, Nat.add_assoc, cons_append, turns_cons hw.1, append_assoc, hrest,
      flatMap_cons]
    simp [dropLast]

theorem length_turns (s : RoundRobin ι) (n : ℕ) : (turns w s n).length = n := by
  induction n generalizing s with
  | zero => rfl
  | succ n ih => rw [turns, length_cons, ih]

theorem turns_take (s : RoundRobin ι) {m n : ℕ} (hmn : m ≤ n) : (turns w s n).take m = turns w s m := by
  induction m generalizing s n with
  | zero => rfl
  | succ m ih =>
    obtain ⟨k, rfl⟩ : ∃ k, n = k + 1 := ⟨n - 1, by omega⟩
    rw [turns, turns, take_succ_cons, ih _ (by omega)]

theorem turns_head {k : ℕ} (hk : k ≤ w x) : turns w ⟨x :: xs, current, 0⟩ k = List.replicate k x := by
  rcases Nat.eq_zero_or_pos (w x) with hzero | hpos
  · obtain rfl : k = 0 := by omega
    rfl
  · rw [← turns_take _ hk, ← Nat.add_zero (w x), turns_cons hpos]
    simp [turns, hk]

theorem turns_alone (left n : ℕ) : turns w ⟨[], current, left⟩ n = List.replicate n current := by
  induction n generalizing left with
  | zero => rfl
  | succ n ih =>
    cases left with
    | zero => exact congrArg (current :: ·) (ih 0)
    | succ k => exact congrArg (current :: ·) (ih k)

/-- The turns of the rest of a round, after a first turn of the current participant. -/
theorem turns_round {left : ℕ} (hleft : left < w current) (hw : ∀ x ∈ waiting, 0 < w x) :
    turns w ⟨waiting, current, left⟩ ((waiting.map w).sum + (w current - 1)) =
      List.replicate left current ++ waiting.flatMap (fun x => List.replicate (w x) x) ++
        List.replicate (w current - 1 - left) current := by
  have hlen : (waiting.map w).sum + (w current - 1) = left + ((waiting.map w).sum + (w current - 1 - left)) := by omega
  have happend : turns w ⟨waiting ++ [], current, 0⟩ _ = _ := turns_append hw (w current - 1 - left)
  rw [append_nil, nil_append] at happend
  rw [hlen, turns_left, happend, append_assoc]
  cases waiting with
  | nil => simp [turns_alone]
  | cons x xs => rw [dropLast_cons_of_ne_nil (by simp), turns_head (by omega)]

theorem take_swap_iff {before after : List ι} (hx : x ∉ after) (k n : ℕ) :
    (before ++ (List.replicate k x ++ after)).take n = (before ++ (after ++ List.replicate k x)).take n ↔
      n ≤ before.length ∨ k = 0 ∨ after = [] := by
  constructor
  · intro heq
    by_contra! hne
    obtain ⟨hlt, hk, hafter⟩ := hne
    obtain ⟨y, ys, rfl⟩ := exists_cons_of_ne_nil hafter
    obtain ⟨j, rfl⟩ : ∃ j, k = j + 1 := ⟨k - 1, by omega⟩
    have hat := congrArg (fun xs : List ι => xs[before.length]?) heq
    simp only [getElem?_take_of_lt hlt, getElem?_append_right le_rfl, Nat.sub_self,
      replicate_succ, cons_append, getElem?_cons_zero, Option.some.injEq] at hat
    exact hx (hat ▸ mem_cons_self)
  · rintro (hle | rfl | rfl)
    · rw [take_append_of_le_length hle, take_append_of_le_length hle]
    · simp
    · simp

theorem count_flatMap_replicate [DecidableEq ι] {p : ι} (hnodup : xs.Nodup) :
    (xs.flatMap fun x => List.replicate (w x) x).count p = if p ∈ xs then w p else 0 := by
  induction xs with
  | nil => simp
  | cons x xs ih =>
    rw [nodup_cons] at hnodup
    rw [flatMap_cons, count_append, ih hnodup.2, count_replicate]
    by_cases hp : x = p
    · subst hp
      simp [hnodup.1]
    · have hne : p ≠ x := fun h => hp h.symm
      simp [hp, hne]

end RoundRobin

end OmegaCore.Util
