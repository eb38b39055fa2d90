import Mathlib.Algebra.Order.Ring.Nat

/-!
While loops with a bound on the number of rounds.  A round may be undefined, as an
access out of bounds is in the source, and may leave the loop and the function around it
with a value.  The invariant rule says what holds at the end of a loop, and the variant
rule that a loop comes to its end within its bound.
-/

namespace OmegaCore.Util

/-- How a piece of code ends: with no result, by leaving the function around it, or normally. -/
inductive Outcome (ε α : Type*) where
  | undefined
  | left (e : ε)
  | done (a : α)
  deriving DecidableEq, Repr

namespace Outcome

variable {ε α β : Type*}

def bind : Outcome ε α → (α → Outcome ε β) → Outcome ε β
  | undefined, _ => undefined
  | left e, _ => left e
  | done a, f => f a

def toOption : Outcome ε α → Option α
  | done a => some a
  | _ => none

variable {x : Outcome ε α}

theorem toOption_eq_some_iff {a : α} : x.toOption = some a ↔ x = done a := by
  cases x <;> simp [toOption]

variable {f : α → Outcome ε β}

theorem bind_eq_done {b : β} : x.bind f = done b ↔ ∃ a, x = done a ∧ f a = done b := by
  cases x <;> simp [bind]

theorem bind_ne_undefined (hx : x ≠ undefined) (hf : ∀ a, x = done a → f a ≠ undefined) : x.bind f ≠ undefined := by
  cases x with
  | undefined => exact absurd rfl hx
  | left e => simp [bind]
  | done a => exact hf a rfl

end Outcome

variable {σ ε : Type*} {cond : σ → Bool} {body : σ → Outcome ε σ} {fuel : ℕ} {s s' : σ}

/-- `while (cond) body`, for at most `fuel` rounds; undefined if they do not suffice. -/
def whileLoop (cond : σ → Bool) (body : σ → Outcome ε σ) : ℕ → σ → Outcome ε σ
  | 0, s => if cond s then .undefined else .done s
  | fuel + 1, s => if cond s then (body s).bind (whileLoop cond body fuel) else .done s

theorem whileLoop_invariant (I : σ → Prop) (hbody : ∀ s s', I s → cond s = true → body s = .done s' → I s')
    (hloop : whileLoop cond body fuel s = .done s') (hs : I s) : I s' ∧ cond s' = false := by
  induction fuel generalizing s with
  | zero =>
    unfold whileLoop at hloop
    split_ifs at hloop with hcond
    cases hloop
    exact ⟨hs, by simpa using hcond⟩
  | succ fuel ih =>
    unfold whileLoop at hloop
    split_ifs at hloop with hcond
    · obtain ⟨s₁, hround, hrest⟩ := Outcome.bind_eq_done.mp hloop
      exact ih hrest (hbody s s₁ hs hcond hround)
    · cases hloop
      exact ⟨hs, by simpa using hcond⟩

/-- A loop whose rounds are defined and lower a variant comes to an end. -/
theorem whileLoop_ne_undefined (I : σ → Prop) (V : σ → ℕ) (hbody : ∀ s, I s → cond s = true → body s ≠ .undefined)
    (hround : ∀ s s', I s → cond s = true → body s = .done s' → I s' ∧ V s' < V s)
    (hs : I s) (hfuel : V s < fuel) : whileLoop cond body fuel s ≠ .undefined := by
  induction fuel generalizing s with
  | zero => omega
  | succ fuel ih =>
    unfold whileLoop
    split_ifs with hcond
    · refine Outcome.bind_ne_undefined (hbody s hs hcond) fun s₁ hstep => ?_
      obtain ⟨hs₁, hlt⟩ := hround s s₁ hs hcond hstep
      exact ih hs₁ (by omega)
    · simp

theorem exists_whileLoop_eq_done (I : σ → Prop) (V : σ → ℕ)
    (hround : ∀ s, I s → cond s = true → ∃ s', body s = .done s' ∧ I s' ∧ V s' < V s)
    (hs : I s) (hfuel : V s < fuel) : ∃ s', whileLoop cond body fuel s = .done s' ∧ I s' ∧ cond s' = false := by
  induction fuel generalizing s with
  | zero => omega
  | succ fuel ih =>
    unfold whileLoop
    split_ifs with hcond
    · obtain ⟨s₁, hstep, hs₁, hlt⟩ := hround s hs hcond
      rw [hstep]
      exact ih hs₁ (by omega)
    · exact ⟨s, rfl, hs, by simpa using hcond⟩

end OmegaCore.Util
