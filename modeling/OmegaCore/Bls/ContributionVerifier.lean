import Mathlib.Algebra.Field.Rat
import Mathlib.Algebra.Module.BigOperators
import Mathlib.Algebra.Module.Torsion.Field

/-!
The verification of DKG contributions.  `ContributionVerifier` adds up the verification vectors and the secret key
shares of eight contributions at a time and looks at single ones only if the sums do not match.  Wrong shares
whose errors cancel within a batch are therefore accepted.
-/

namespace OmegaCore.Bls

open List

/-- A verification vector and the secret key share that came with it. -/
abbrev Contribution (F V : Type) := List V × F

variable {F V : Type} [Field F] [AddCommGroup V] [Module F V]

section

variable (g : V) (id : F) (c : Contribution F V) (cs : List (Contribution F V))

/-! ### Shares and their sums -/

/-- The value at `id` of the polynomial that the vector commits to, as a public key. -/
def committedValue (vvec : List V) : V :=
  ∑ j ∈ Finset.range vvec.length, id ^ j • vvec.getD j 0

/-- The distance of a share, as a public key, from the value of the polynomial. -/
def shareError : V :=
  c.2 • g - committedValue id c.1

/-- `Poly::Evaluate`, which throws for fewer than two coefficients. -/
def evaluate (vecIn : List V) : Option V :=
  if vecIn.length < 2 then none else some (vecIn.foldr (fun a y => id • y + a) 0)

/-- `VectorAggregator` and `Aggregator` for the contributions of one batch. -/
def aggregate (vecSize : ℕ) : Contribution F V :=
  ((range vecSize).map fun i => (cs.map (·.1.getD i 0)).sum, (cs.map Prod.snd).sum)

variable {g id c cs}

/-- For a vector that commits to the coefficients of a polynomial, a share has no error exactly if it is the value. -/
theorem shareError_commit (hg : g ≠ 0) (coeffs : List F) (share : F) :
    shareError g id (coeffs.map (· • g), share) = 0 ↔
      share = ∑ j ∈ Finset.range coeffs.length, id ^ j * coeffs.getD j 0 := by
  have hvalue : committedValue id (coeffs.map (· • g)) =
      (∑ j ∈ Finset.range coeffs.length, id ^ j * coeffs.getD j 0) • g := by
    rw [committedValue, length_map, Finset.sum_smul]
    refine Finset.sum_congr rfl fun j hj => ?_
    simp [Finset.mem_range.mp hj, mul_smul]
  rw [shareError, hvalue, ← sub_smul, smul_eq_zero, or_iff_left hg, sub_eq_zero]

theorem evaluate_eq (vvec : List V) :
    evaluate id vvec = if vvec.length < 2 then none else some (committedValue id vvec) := by
  have horner : vvec.foldr (fun a y => id • y + a) 0 = committedValue id vvec := by
    induction vvec with
    | nil => rfl
    | cons a vvec ih =>
      rw [foldr_cons, ih, committedValue, committedValue, length_cons, Finset.sum_range_succ', Finset.smul_sum]
      simp [smul_smul, pow_succ']
  rw [evaluate, horner]

/-- The error of the sums is the sum of the errors. -/
theorem shareError_aggregate {n : ℕ} (hcs : ∀ c ∈ cs, c.1.length = n) :
    shareError g id (aggregate cs n) = (cs.map (shareError g id)).sum := by
  have hvvec : committedValue id (aggregate cs n).1 =
      ∑ j ∈ Finset.range n, id ^ j • (cs.map (·.1.getD j 0)).sum := by
    rw [committedValue, aggregate, length_map, length_range]
    refine Finset.sum_congr rfl fun j hj => ?_
    simp [Finset.mem_range.mp hj]
  rw [shareError, hvvec, aggregate]
  clear hvvec
  induction cs with
  | nil => simp
  | cons c cs ih =>
    rw [forall_mem_cons] at hcs
    simp only [map_cons, sum_cons, smul_add, add_smul, Finset.sum_add_distrib, ← ih hcs.2, shareError,
      committedValue, hcs.1]
    exact add_sub_add_comm _ _ _ _

end

/-! ### The verifier -/

def batchAt {α : Type} (l : List α) (batchIdx : ℕ) : List α :=
  (l.drop (batchIdx * 8)).take 8

theorem mem_batchAt {α : Type} {l : List α} {a : α} {b : ℕ} : a ∈ batchAt l b ↔ ∃ i, l[i]? = some a ∧ i / 8 = b := by
  simp only [batchAt, mem_iff_getElem?, getElem?_take, getElem?_drop]
  constructor
  · rintro ⟨i, hi⟩
    split_ifs at hi with hlt
    exact ⟨b * 8 + i, hi, by omega⟩
  · rintro ⟨i, hi, rfl⟩
    refine ⟨i % 8, ?_⟩
    rw [if_pos (Nat.mod_lt i (by decide)), Nat.div_add_mod' i 8, hi]

theorem sum_eq_zero_of_batches {α : Type} {f : α → V} {l : List α} (h : ∀ b, ((batchAt l b).map f).sum = 0) :
    (l.map f).sum = 0 := by
  induction hn : l.length using Nat.strongRecOn generalizing l with
  | ind n ih =>
    cases l with
    | nil => rfl
    | cons a l =>
      have hdrop : (((a :: l).drop 8).map f).sum = 0 := by
        refine ih _ (by simp at hn ⊢; omega) (fun b => ?_) rfl
        have hb := h (b + 1)
        rwa [batchAt, show (b + 1) * 8 = 8 + b * 8 by omega, ← drop_drop] at hb
      rw [← take_append_drop 8 (a :: l), map_append, sum_append, hdrop, add_zero]
      exact h 0

variable [DecidableEq V] (g : V) (id : F) (c : Contribution F V) (cs : List (Contribution F V))
variable (forId : Option F) (aggregated : Bool)

/-- The share is the value of the polynomial at the id; an invalid id has none. -/
def isShare : Bool :=
  forId.any fun id => shareError g id c = 0

def verify : Bool :=
  evaluate id c.1 = some (c.2 • g)

def vecSize : ℕ :=
  (cs.headD ([], 0)).1.length

/-- A batch whose sums match is valid as a whole.  Otherwise, and if nothing is added up, its contributions are
verified one by one. -/
def verifyBatches : List Bool :=
  cs.mapIdx fun i c => aggregated && verify g id (aggregate (batchAt cs (i / 8)) (vecSize cs)) || verify g id c

/-- `VerifyVerificationVectors`, which compares the hashes of the keys. -/
def verifyVerificationVectors : Bool :=
  cs.all (·.1.length = vecSize cs) && (cs.flatMap Prod.fst).Nodup

/-- The result, or nothing if the callback is never called: without contributions no verification ends, and without
coefficients no aggregation does. -/
def verifyContributionShares : Option (List Bool) :=
  match forId with
  | none => some (replicate cs.length false)
  | some id =>
    if !verifyVerificationVectors cs then some (replicate cs.length false)
    else if cs.isEmpty || aggregated && vecSize cs = 0 then none
    else some (verifyBatches g id cs aggregated)

/-! ### Right reports -/

/-- No wrong shares of one batch have errors that cancel. -/
def NoneCancel : Prop :=
  ∀ b, ((batchAt cs b).map (shareError g id)).sum = 0 → ∀ c ∈ batchAt cs b, shareError g id c = 0

/-- What right reports need at a valid id: a contribution, and no errors of a batch that cancel if the vectors pass their
check with two coefficients at least.  If not, all shares have to be wrong, and the vectors not without coefficients. -/
def Reliable : Prop :=
  ∀ id, forId = some id → cs ≠ [] ∧
    if verifyVerificationVectors cs ∧ 2 ≤ vecSize cs then aggregated → NoneCancel g id cs
    else (∀ c ∈ cs, shareError g id c ≠ 0) ∧ ¬(aggregated ∧ verifyVerificationVectors cs ∧ vecSize cs = 0)

variable {g id c cs forId aggregated}

theorem verify_eq_true : verify g id c = true ↔ 2 ≤ c.1.length ∧ shareError g id c = 0 := by
  rw [verify, evaluate_eq, shareError, sub_eq_zero, decide_eq_true_iff]
  split_ifs with h
  · simp [h]
  · simp [Nat.not_lt.mp h, eq_comm]

theorem verifyBatches_eq_iff (hcs : ∀ c ∈ cs, c.1.length = vecSize cs) :
    verifyBatches g id cs aggregated = cs.map (isShare g · (some id)) ↔
      if 2 ≤ vecSize cs then aggregated → NoneCancel g id cs else ∀ c ∈ cs, shareError g id c ≠ 0 := by
  have hbatch (b : ℕ) : verify g id (aggregate (batchAt cs b) (vecSize cs)) = true ↔
      2 ≤ vecSize cs ∧ ((batchAt cs b).map (shareError g id)).sum = 0 := by
    have hlen : ∀ c ∈ batchAt cs b, c.1.length = vecSize cs := fun c hc => hcs c (mem_of_mem_drop (mem_of_mem_take hc))
    rw [verify_eq_true, shareError_aggregate hlen, aggregate, length_map, length_range]
  have hentries : verifyBatches g id cs aggregated = cs.map (isShare g · (some id)) ↔ ∀ i c, cs[i]? = some c →
      (aggregated ∧ 2 ≤ vecSize cs ∧ ((batchAt cs (i / 8)).map (shareError g id)).sum = 0 ∨
        2 ≤ vecSize cs ∧ shareError g id c = 0 ↔ shareError g id c = 0) := by
    rw [verifyBatches, List.ext_getElem?_iff]
    refine forall_congr' fun i => ?_
    rw [getElem?_mapIdx, getElem?_map]
    cases hi : cs[i]? with
    | none => simp
    | some c =>
      simp only [Option.map_some, Option.some.injEq, forall_eq']
      rw [Bool.eq_iff_iff, Bool.or_eq_true, Bool.and_eq_true, hbatch, verify_eq_true, hcs c (mem_of_getElem? hi)]
      simp [isShare]
  rw [hentries]
  split_ifs with hn
  · simp only [hn, true_and, or_iff_right_iff_imp, and_imp]
    constructor
    · intro h hon b hsum c hc
      obtain ⟨i, hi, rfl⟩ := mem_batchAt.mp hc
      exact h i c hi hon hsum
    · exact fun h i c hi hon hsum => h hon _ hsum c (mem_batchAt.mpr ⟨i, hi, rfl⟩)
  · simp only [hn, false_and, and_false, or_self, false_iff, mem_iff_getElem?]
    exact ⟨fun h c ⟨i, hi⟩ => h i c hi, fun h i c hi => h c ⟨i, hi⟩⟩

theorem verifyContributionShares_iff (g : V) (cs : List (Contribution F V)) (forId : Option F) (aggregated : Bool) :
    verifyContributionShares g cs forId aggregated = some (cs.map (isShare g · forId)) ↔
      Reliable g cs forId aggregated := by
  cases forId with
  | none => simp [verifyContributionShares, isShare, Reliable]
  | some id =>
    have hnone : replicate cs.length false = cs.map (isShare g · (some id)) ↔ ∀ c ∈ cs, shareError g id c ≠ 0 := by
      rw [eq_comm, map_eq_replicate_iff]
      simp [isShare]
    simp only [verifyContributionShares, Reliable, Option.some.injEq, forall_eq']
    by_cases hv : verifyVerificationVectors cs = true
    · have hcs : ∀ c ∈ cs, c.1.length = vecSize cs := by
        simp only [verifyVerificationVectors, Bool.and_eq_true, all_eq_true, decide_eq_true_iff] at hv
        exact hv.1
      by_cases hnil : cs = []
      · simp [hnil, verifyVerificationVectors]
      · by_cases hzero : aggregated = true ∧ vecSize cs = 0
        · simp [hv, hnil, hzero]
        · by_cases hn : 2 ≤ vecSize cs <;> simp [hv, hnil, hzero, hn, verifyBatches_eq_iff hcs]
    · have hne : cs ≠ [] := by
        rintro rfl
        exact hv rfl
      simp [hv, hne, hnone]

/-- Two contributors give shares that are one too large and one too small. -/
theorem verifyContributionShares_collusion :
    ¬∀ (g : ℚ) (cs : List (Contribution ℚ ℚ)) (forId : Option ℚ) (aggregated : Bool),
      verifyContributionShares g cs forId aggregated = some (cs.map (isShare g · forId)) := by
  intro h
  exact absurd (h 1 [([1, 3], 5), ([2, 5], 6)] (some 1) true) (by decide +kernel)

/-- Errors may cancel, but if no share is reported as wrong, then their sum is the share of the quorum. -/
theorem verify_aggregate_of_reports {reports : List Bool}
    (h : verifyContributionShares g cs (some id) aggregated = some reports) (hright : false ∉ reports) :
    verify g id (aggregate cs (vecSize cs)) = true := by
  simp only [verifyContributionShares] at h
  split_ifs at h with hv hnil <;> cases h
  · obtain rfl : cs = [] := by simpa using hright
    cases hv
  · have hlen : ∀ c ∈ cs, c.1.length = vecSize cs := by
      simp only [verifyVerificationVectors, Bool.not_eq_true', Bool.not_eq_false, Bool.and_eq_true, all_eq_true,
        decide_eq_true_iff] at hv
      exact hv.1
    have hlen' b : ∀ c ∈ batchAt cs b, c.1.length = vecSize cs := fun c hc => hlen c (mem_of_mem_drop (mem_of_mem_take hc))
    have hreport i c (hi : cs[i]? = some c) :
        verify g id (aggregate (batchAt cs (i / 8)) (vecSize cs)) = true ∨ verify g id c = true := by
      by_contra hwrong
      refine hright (mem_iff_getElem?.mpr ⟨i, ?_⟩)
      simp_all [verifyBatches]
    -- a batch matches in its sums or share by share
    have hbatch b : ((batchAt cs b).map (shareError g id)).sum = 0 := by
      by_cases hsum : verify g id (aggregate (batchAt cs b) (vecSize cs)) = true
      · rw [← shareError_aggregate (hlen' b)]
        exact (verify_eq_true.mp hsum).2
      · refine sum_eq_zero fun x hx => ?_
        obtain ⟨c, hc, rfl⟩ := mem_map.mp hx
        obtain ⟨i, hi, rfl⟩ := mem_batchAt.mp hc
        exact (verify_eq_true.mp ((hreport i c hi).resolve_left hsum)).2
    rw [verify_eq_true, shareError_aggregate hlen]
    refine ⟨?_, sum_eq_zero_of_batches hbatch⟩
    obtain ⟨c, cs, rfl⟩ := exists_cons_of_ne_nil (show cs ≠ [] by rintro rfl; exact hnil rfl)
    rcases hreport 0 c rfl with hsum | hshare
    · simpa [aggregate] using (verify_eq_true.mp hsum).1
    · simpa [aggregate, vecSize] using (verify_eq_true.mp hshare).1

/-- Two contributors whose errors cancel. -/
theorem verify_aggregate_collusion :
    verify (1 : ℚ) (1 : ℚ) (aggregate [([1, 3], 5), ([2, 5], 6)] 2) = true := by
  have hreports : verifyContributionShares (1 : ℚ) [([1, 3], (5 : ℚ)), ([2, 5], 6)] (some 1) true = some [true, true] := by
    decide +kernel
  exact verify_aggregate_of_reports hreports (by decide)

end OmegaCore.Bls
