import Mathlib.Tactic.Common

/-!
Steps that leave a record, and the way back.  A run keeps the records of its steps; going back takes the
steps and their records in reverse order.  If one step can be undone from every state that is related
to the one it left, then so can a run.
-/

namespace OmegaCore.Util.UndoLog

variable {σ τ α υ ε : Type*}

/-- The steps of a list with their records, or nothing if one of them fails. -/
def run (step : σ → α → Option (σ × υ)) : σ → List α → Option (σ × List υ)
  | s, [] => some (s, [])
  | s, a :: as =>
    match step s a with
    | none => none
    | some (s, u) =>
      match run step s as with
      | none => none
      | some (s, us) => some (s, u :: us)

variable {step : σ → α → Option (σ × υ)} {s s' : σ} {as : List α} {us : List υ}

theorem run_cons {a : α} (h : run step s (a :: as) = some (s', us)) :
    ∃ s₁ u us', step s a = some (s₁, u) ∧ run step s₁ as = some (s', us') ∧ us = u :: us' := by
  rw [run] at h
  split at h
  · cases h
  next s₁ u hstep =>
    split at h
    · cases h
    next s₂ us' hrun =>
      cases h
      exact ⟨s₁, u, us', hstep, hrun, rfl⟩

def unrun (back : τ → α × υ → Except ε τ) (t : τ) (as : List α) (us : List υ) : Except ε τ :=
  (as.zip us).reverse.foldlM back t

theorem unrun_cons (back : τ → α × υ → Except ε τ) (t : τ) (a : α) (as : List α) (u : υ) (us : List υ) :
    unrun back t (a :: as) (u :: us) = unrun back t as us >>= fun t => back t (a, u) := by
  unfold unrun
  simp

variable {P : σ → List α → Prop}

/-- A run whose steps can be undone can be undone. -/
theorem run_undone {back : τ → α × υ → Except ε τ} {R : τ → σ → Prop}
    (hstep : ∀ {s a as s' u}, P s (a :: as) → step s a = some (s', u) →
      P s' as ∧ ∀ t, R t s' → ∃ t', back t (a, u) = .ok t' ∧ R t' s)
    (hs : P s as) (h : run step s as = some (s', us)) :
    P s' [] ∧ us.length = as.length ∧ ∀ t, R t s' → ∃ t', unrun back t as us = .ok t' ∧ R t' s := by
  induction as generalizing s us with
  | nil =>
    cases h
    exact ⟨hs, rfl, fun t ht => ⟨t, rfl, ht⟩⟩
  | cons a as ih =>
    obtain ⟨s₁, u, us', hone, hrun, rfl⟩ := run_cons h
    obtain ⟨hnext, hback⟩ := hstep hs hone
    obtain ⟨hend, hlen, hundo⟩ := ih hnext hrun
    refine ⟨hend, by rw [List.length_cons, List.length_cons, hlen], fun t ht => ?_⟩
    obtain ⟨t₁, hunrun, ht₁⟩ := hundo t ht
    obtain ⟨t', hone', ht'⟩ := hback t₁ ht₁
    refine ⟨t', ?_, ht'⟩
    rw [unrun_cons, hunrun]
    exact hone'

end OmegaCore.Util.UndoLog
