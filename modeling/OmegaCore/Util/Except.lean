import Mathlib.Data.List.Induction
import Mathlib.Algebra.Order.Ring.Nat

/-!
Inversion rules for computations that may throw: how a sequence of two steps
succeeds or fails, and what a loop of throwing steps preserves.
-/

namespace OmegaCore.Util

variable {ε α β σ : Type}

@[simp]
theorem ok_bind (a : α) (f : α → Except ε β) : (Except.ok a >>= f) = f a := rfl

variable {x : Except ε α}

variable {f : α → Except ε β}

theorem bind_eq_ok {b : β} : (x >>= f) = .ok b ↔ ∃ a, x = .ok a ∧ f a = .ok b := by
  cases x with
  | error e => simp [bind, Except.bind]
  | ok a => simp [bind, Except.bind]

theorem bind_eq_error {e : ε} : (x >>= f) = .error e ↔ x = .error e ∨ ∃ a, x = .ok a ∧ f a = .error e := by
  cases x with
  | error e => simp [bind, Except.bind]
  | ok a => simp [bind, Except.bind]

theorem exists_of_map_eq_ok {f : α → β} {b : β} (h : x.map f = .ok b) : ∃ a, x = .ok a ∧ f a = b := by
  cases x with
  | error e => cases h
  | ok a => exact ⟨a, rfl, Except.ok.inj h⟩

/-- The result of a computation, or a default value. -/
def okOr (x : Except ε α) (default : α) : α :=
  match x with
  | .ok a => a
  | .error _ => default

theorem eq_ok_okOr {x : Except ε α} {default : α} (h : x.isOk = true) : x = .ok (okOr x default) := by
  cases x with
  | error e => cases h
  | ok a => rfl

variable {l : List α}

theorem forM_eq_ok {f : α → Except ε Unit} (h : l.forM f = .ok ()) {a : α} (ha : a ∈ l) : f a = .ok () := by
  induction l with
  | nil => cases ha
  | cons b l ih =>
    obtain ⟨u, hb, hrest⟩ := bind_eq_ok.mp h
    rcases List.mem_cons.mp ha with rfl | ha
    · exact hb
    · exact ih hrest ha

theorem foldlM_preserves_prefix {P : σ → Prop} {f : σ → α → Except ε σ} {s₀ : σ}
    (hstep : ∀ pre a post s s', l = pre ++ a :: post → pre.foldlM f s₀ = .ok s → P s →
      f s a = .ok s' → P s') {s' : σ} (hs : P s₀) (hrun : l.foldlM f s₀ = .ok s') : P s' := by
  induction l using List.reverseRecOn generalizing s' with
  | nil =>
    cases hrun
    exact hs
  | append_singleton l a ih =>
    rw [List.foldlM_append, bind_eq_ok] at hrun
    obtain ⟨s, hpre, hlast⟩ := hrun
    rw [List.foldlM_cons, bind_eq_ok] at hlast
    obtain ⟨s₁, hlast, hend⟩ := hlast
    cases hend
    refine hstep l a [] s s' rfl hpre (ih (fun pre b post s s' heq => ?_) hpre) hlast
    exact hstep pre b (post ++ [a]) s s' (by rw [heq]; simp)

theorem mapM_map_eq_ok {g : β → α} (h : ∀ b, f (g b) = .ok b) (l : List β) : (l.map g).mapM f = .ok l := by
  induction l with
  | nil => rfl
  | cons b l ih => rw [List.map_cons, List.mapM_cons, h, ih]; rfl

theorem foldlM_preserves {P : σ → Prop} {f : σ → α → Except ε σ}
    (hstep : ∀ a ∈ l, ∀ s s', P s → f s a = .ok s' → P s') {s s' : σ} (hs : P s)
    (hrun : l.foldlM f s = .ok s') : P s' := by
  refine foldlM_preserves_prefix (fun pre a post s s' heq _ => hstep a ?_ s s') hs hrun
  rw [heq]
  exact List.mem_append_cons_self

/-! ### Logs

Computations that may fail and that keep a log, also of what they did before they failed.  One
computation refines another if the other one gives the same log and result whenever the first
succeeds.
-/

variable {ε τ α β : Type}

theorem ite_error_eq_ok {c : Prop} [Decidable c] {e : ε} {x : Except ε α} {a : α} :
    (if c then .error e else x) = .ok a ↔ ¬c ∧ x = .ok a := by
  by_cases hc : c <;> simp [hc]

/-- What succeeds on the left succeeds with the same value on the right. -/
def OkLe (x y : Except ε α) : Prop :=
  ∀ a, x = .ok a → y = .ok a

namespace OkLe

variable {x y : Except ε α}

theorem refl (x : Except ε α) : OkLe x x :=
  fun _ h => h

theorem error (e : ε) (y : Except ε α) : OkLe (.error e) y := by
  intro a h
  cases h

theorem bind (h : OkLe x y) {f g : α → Except ε β} (hfg : ∀ a, OkLe (f a) (g a)) : OkLe (x >>= f) (y >>= g) := by
  intro b hb
  cases x with
  | error e => cases hb
  | ok a =>
    rw [h a rfl]
    exact hfg a b hb

theorem guard {c c' : Prop} [Decidable c] [Decidable c'] {e e' : ε} (hc : c' → c) (h : OkLe x y) :
    OkLe (if c then .error e else x) (if c' then .error e' else y) := by
  split_ifs with hleft hright hright
  · exact error e _
  · exact error e _
  · exact absurd (hc hright) hleft
  · exact h

end OkLe

structure Logged (ε τ α : Type) where
  log : List τ
  result : Except ε α

namespace Logged

def fail (e : ε) : Logged ε τ α :=
  ⟨[], .error e⟩

def lift (x : Except ε α) : Logged ε τ α :=
  ⟨[], x⟩

instance instMonadLogged : Monad (Logged ε τ) where
  pure a := ⟨[], .ok a⟩
  bind x f :=
    match x.result with
    | .error e => ⟨x.log, .error e⟩
    | .ok a => ⟨x.log ++ (f a).log, (f a).result⟩

variable {x y : Logged ε τ α} {f g : α → Logged ε τ β}

theorem bind_of_ok {a : α} (h : x.result = .ok a) : x >>= f = ⟨x.log ++ (f a).log, (f a).result⟩ := by
  show (match x.result with | .error e => _ | .ok a => _) = _
  rw [h]

theorem bind_of_error {e : ε} (h : x.result = .error e) : x >>= f = ⟨x.log, .error e⟩ := by
  show (match x.result with | .error e => _ | .ok a => _) = _
  rw [h]

theorem result_bind_eq_ok {b : β} : (x >>= f).result = .ok b ↔ ∃ a, x.result = .ok a ∧ (f a).result = .ok b := by
  cases h : x.result with
  | error e =>
    rw [bind_of_error h]
    simp
  | ok a =>
    rw [bind_of_ok h]
    simp

@[simp]
theorem log_lift (x : Except ε α) : (lift x : Logged ε τ α).log = [] := rfl

@[simp]
theorem result_lift (x : Except ε α) : (lift x : Logged ε τ α).result = x := rfl

@[simp]
theorem log_fail (e : ε) : (fail e : Logged ε τ α).log = [] := rfl

@[simp]
theorem result_fail (e : ε) : (fail e : Logged ε τ α).result = .error e := rfl

@[simp]
theorem log_pure (a : α) : (pure a : Logged ε τ α).log = [] := rfl

@[simp]
theorem result_pure (a : α) : (pure a : Logged ε τ α).result = .ok a := rfl

theorem lift_ok_bind (a : α) : (lift (.ok a) >>= f : Logged ε τ β) = f a := rfl

theorem lift_error_bind (e : ε) : ((lift (.error e) : Logged ε τ α) >>= f) = fail e := rfl

/-! ### Logs -/

theorem log_bind_of_forall (hf : ∀ a, (f a).log = []) : (x >>= f).log = x.log := by
  cases h : x.result with
  | error e => rw [bind_of_error h]
  | ok a => rw [bind_of_ok h, hf a, List.append_nil]

theorem mem_log_bind {t : τ} (h : t ∈ (x >>= f).log) : t ∈ x.log ∨ ∃ a, x.result = .ok a ∧ t ∈ (f a).log := by
  cases hx : x.result with
  | error e =>
    rw [bind_of_error hx] at h
    exact .inl h
  | ok a =>
    rw [bind_of_ok hx] at h
    rcases List.mem_append.mp h with h | h
    · exact .inl h
    · exact .inr ⟨a, rfl, h⟩

theorem length_log_le_bind : x.log.length ≤ (x >>= f).log.length := by
  cases h : x.result with
  | error e => exact Nat.le_of_eq (by rw [bind_of_error h])
  | ok a =>
    rw [bind_of_ok h, List.length_append]
    exact Nat.le_add_right _ _

theorem length_log_bind_le {n k : ℕ} (hx : x.log.length ≤ n) (hf : ∀ a, x.result = .ok a → (f a).log.length ≤ k) :
    (x >>= f).log.length ≤ n + k := by
  cases h : x.result with
  | error e =>
    rw [bind_of_error h]
    exact Nat.le_add_right_of_le hx
  | ok a =>
    rw [bind_of_ok h, List.length_append]
    exact Nat.add_le_add hx (hf a h)

theorem length_log_lift_bind_le {z : Except ε α} {k : ℕ} (hf : ∀ a, z = .ok a → (f a).log.length ≤ k) :
    ((lift z : Logged ε τ α) >>= f).log.length ≤ k := by
  have hle := length_log_bind_le (x := (lift z : Logged ε τ α)) (f := f) (Nat.le_refl 0) hf
  rwa [Nat.zero_add] at hle

/-! ### Refinement -/

/-- What succeeds on the left gives the same log and result on the right. -/
def Refines (x y : Logged ε τ α) : Prop :=
  ∀ a, x.result = .ok a → y = x

namespace Refines

theorem refl (x : Logged ε τ α) : Refines x x :=
  fun _ _ => rfl

theorem fail (e : ε) (y : Logged ε τ α) : Refines (Logged.fail e) y := by
  intro a h
  cases h

theorem lift {x y : Except ε α} (h : OkLe x y) : Refines (Logged.lift x : Logged ε τ α) (Logged.lift y) := by
  intro a ha
  have hx : x = .ok a := ha
  rw [hx, h a hx]

theorem bind (h : Refines x y) (hfg : ∀ a, x.result = .ok a → Refines (f a) (g a)) : Refines (x >>= f) (y >>= g) := by
  intro b hb
  obtain ⟨a, hx, hf⟩ := result_bind_eq_ok.mp hb
  rw [h a hx, bind_of_ok hx, bind_of_ok hx, hfg a hx b hf]

theorem guard {c c' : Prop} [Decidable c] [Decidable c'] {e e' : ε} (hc : c' → c) (h : Refines x y) :
    Refines (if c then Logged.fail e else x) (if c' then Logged.fail e' else y) := by
  split_ifs with hleft hright hright
  · exact fail e _
  · exact fail e _
  · exact absurd (hc hright) hleft
  · exact h

theorem ite {c : Prop} [Decidable c] {x' y' : Logged ε τ α} (h : c → Refines x y) (h' : ¬c → Refines x' y') :
    Refines (if c then x else x') (if c then y else y') := by
  split_ifs with hc
  · exact h hc
  · exact h' hc

theorem result (h : Refines x y) {a : α} (ha : x.result = .ok a) : y.result = .ok a := by
  rw [h a ha]
  exact ha

end Refines

end Logged

end OmegaCore.Util
