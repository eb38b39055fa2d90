import Mathlib.Tactic.Linarith

/-!
The falling threshold of version bits deployments.  Each failed attempt lowers the number of blocks
that have to signal from `nThresholdStart` towards `nThresholdMin`.  The square of the attempt number
is computed in 32 bits, and a deployment without a timeout lives long enough for it to wrap around.
-/

namespace OmegaCore

/-- A deployment, with the defaults of its chain. -/
structure BIP9Deployment where
  nStartTime : Int
  nTimeout : Int
  nWindowSize : Int
  nThresholdStart : Int
  nThresholdMin : Int
  nFalloffCoeff : Int
  nRuleChangeActivationThreshold : Int
  nMinerConfirmationWindow : Int
  deriving DecidableEq

/-- The state of a period.  A started one is the attempt with this number. -/
inductive ThresholdState where
  | defined
  | started (nAttempt : ℕ)
  | lockedIn
  | active
  | failed

namespace BIP9Deployment

variable (d : BIP9Deployment)

def period : Int :=
  if d.nWindowSize ≠ 0 then d.nWindowSize else d.nMinerConfirmationWindow

/-- `Threshold`.  The attempt number, the period and the result are of type `int`. -/
def threshold (nAttempt : Int) : Int :=
  if d.nThresholdStart = 0 then d.nRuleChangeActivationThreshold
  else if d.nThresholdMin = 0 ∨ d.nFalloffCoeff = 0 then d.nThresholdStart
  else
    let nThresholdCalc :=
      d.nThresholdStart - (((nAttempt * nAttempt * d.period).bmod (2 ^ 32)).tdiv 100).tdiv d.nFalloffCoeff
    (max d.nThresholdMin nThresholdCalc).bmod (2 ^ 32)

/-- The state after a period in which `count` blocks signal, from `GetMedianTimePast` of its last block. -/
def nextState (count medianTimePast : Int) : ThresholdState → ThresholdState
  | .defined =>
    if medianTimePast ≥ d.nTimeout then .failed
    else if medianTimePast ≥ d.nStartTime then .started 0
    else .defined
  | .started nAttempt =>
    if medianTimePast ≥ d.nTimeout then .failed
    else if count ≥ d.threshold nAttempt then .lockedIn
    else .started (nAttempt + 1)
  | .lockedIn => .active
  | .active => .active
  | .failed => .failed

/-- The states of a chain after so many periods, up to a median time. -/
inductive Reaches : ℕ → Int → ThresholdState → Prop where
  | genesis (time : Int) : Reaches 0 time .defined
  | period {n : ℕ} {time : Int} {state : ThresholdState} (count medianTimePast : Int) (before : Reaches n time state)
      (later : time < medianTimePast) : Reaches (n + 1) medianTimePast (d.nextState count medianTimePast state)

/-- The threshold of an attempt is between the two bounds, and not above that of an earlier one. -/
def Falls (nAttempt : ℕ) : Prop :=
  d.nThresholdMin ≤ d.threshold nAttempt ∧ d.threshold nAttempt ≤ d.nThresholdStart ∧
    ∀ earlier : ℕ, earlier ≤ nAttempt → d.threshold nAttempt ≤ d.threshold earlier

end BIP9Deployment

def devnetV19 : BIP9Deployment :=
  ⟨1661990400, 999999999999, 100, 80, 60, 5, 1512, 2016⟩

/-- `DEPLOYMENT_REALLOC`, `DIP0020`, `DIP0024` and `V19` of the main network, a devnet and regtest. -/
def fallingDeployments : List BIP9Deployment :=
  ([(1601510400, 1633046400), (1625097600, 1656633600), (1660521600, 1692057600), (1686700800, 1718323200)].map
    fun time => ⟨time.1, time.2, 4032, 3226, 2420, 5, 1916, 2016⟩) ++
  ([1598918400, 1604188800, 1625097600, 1661990400].map fun nStartTime => { devnetV19 with nStartTime }) ++
  ([(500, 400, 300), (100, 80, 60), (300, 240, 180), (300, 240, 180)].map fun size =>
    ⟨0, 999999999999, size.1, size.2.1, size.2.2, 5, 108, 144⟩)

namespace BIP9Deployment

variable {d : BIP9Deployment} {n : ℕ}

theorem bounds_of_falling : ∀ d ∈ fallingDeployments, 0 < d.period ∧ 0 < d.nThresholdMin ∧
    d.nThresholdMin ≤ d.nThresholdStart ∧ d.nThresholdStart < 2 ^ 16 ∧ d.nFalloffCoeff = 5 := by
  decide

theorem threshold_eq (hd : d ∈ fallingDeployments) (hfit : n * n * d.period < 2 ^ 31) :
    d.threshold n = max d.nThresholdMin (d.nThresholdStart - n * n * d.period / 100 / 5) := by
  obtain ⟨hperiod, hmin, hle, hstart, hcoeff⟩ := bounds_of_falling d hd
  have hnonneg : 0 ≤ n * n * d.period := by positivity
  rw [threshold, if_neg (by omega), if_neg (by omega), Int.bmod_eq_of_le (n := n * n * d.period) (by omega) (by omega),
    hcoeff, Int.tdiv_eq_ediv_of_nonneg hnonneg, Int.tdiv_eq_ediv_of_nonneg (by omega)]
  exact Int.bmod_eq_of_le (by omega) (by omega)

/-- Up to an attempt the threshold falls from `nThresholdStart` to `nThresholdMin` if and only if the square of the
attempt number times the period is below 2^31. -/
theorem falls_iff (hd : d ∈ fallingDeployments) (n : ℕ) : (∀ m ≤ n, d.Falls m) ↔ n * n * d.period < 2 ^ 31 := by
  obtain ⟨hperiod, hmin, hle, hstart, -⟩ := bounds_of_falling d hd
  have hmono : ∀ {m k : ℕ}, m ≤ k → m * m * d.period ≤ k * k * d.period := fun h => by gcongr
  constructor
  · intro hfalls
    by_contra hwrap
    -- the first attempt that wraps around has a threshold above the start
    have hfirst : ∀ d ∈ fallingDeployments, ∃ m ∈ [730, 4635, 2073, 2676],
        ((m - 1 : ℕ) * (m - 1 : ℕ) * d.period : Int) < 2 ^ 31 ∧ d.nThresholdStart < d.threshold m := by decide
    obtain ⟨m, -, hfit, habove⟩ := hfirst d hd
    rcases Nat.lt_or_ge n m with hlt | hge
    · exact hwrap ((hmono (Nat.le_sub_one_of_lt hlt)).trans_lt hfit)
    · exact (hfalls m hge).2.1.not_gt habove
  · intro hfit m hm
    have hbelow := (hmono hm).trans_lt hfit
    have hnonneg : 0 ≤ m * m * d.period := by positivity
    rw [Falls, threshold_eq hd hbelow]
    refine ⟨le_max_left _ _, by omega, fun k hk => ?_⟩
    have hsquare := hmono hk
    rw [threshold_eq hd (hsquare.trans_lt hbelow)]
    omega

theorem falls_iff_devnet : devnetV19 ∈ fallingDeployments ∧ ∀ m ≤ 4634, devnetV19.Falls m :=
  ⟨by decide, (falls_iff (by decide) 4634).mpr (by decide)⟩

/-- Without signals each period of a devnet is a failed attempt. -/
theorem reaches_started (h : n ≤ 4635) : devnetV19.Reaches (n + 1) (1661990400 + n) (.started n) := by
  induction n with
  | zero => exact .period 0 1661990400 (.genesis 0) (by decide)
  | succ n ih =>
    have hstep := (ih (by omega)).period 0 (1661990400 + (n + 1 : ℕ)) (by omega)
    have hsquare : (n : Int) * n ≤ 4634 * 4634 := by gcongr <;> omega
    have hperiod : devnetV19.period = 100 := rfl
    have hmin : devnetV19.nThresholdMin = 60 := rfl
    have hout : devnetV19.nTimeout = 999999999999 := rfl
    have hthreshold := @threshold_eq devnetV19 n (by decide) (by rw [hperiod]; omega)
    rwa [nextState, if_neg (by omega), if_neg (by omega)] at hstep

/-- After 4635 failed attempts on a devnet more blocks have to signal than a period has. -/
theorem falls_wraps : ∃ d ∈ fallingDeployments, ∃ (periods : ℕ) (time : Int) (n : ℕ),
    periods * d.period < 2 ^ 31 ∧ d.Reaches periods time (.started n) ∧ ¬ d.Falls n :=
  ⟨devnetV19, by decide, 4636, _, 4635, by decide, reaches_started le_rfl, fun h => absurd h.2.1 (by decide)⟩

end BIP9Deployment

end OmegaCore
