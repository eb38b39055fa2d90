import OmegaCore.Pow.Lwma

/-!
Later timestamps and the next target.  The solve time of the last block grows with its
timestamp, and the target follows as long as the product of weighted times and targets
stays within the same multiple of `2 ^ 256`.  On the main network the product is always
below the first one; on a devnet it can pass one, and the target drops.
-/

namespace OmegaCore.Pow

open Util ArithUint256 Pow.CBlockIndex Nat

/-! ### The last timestamp -/

/-- The timestamp that the loop compares with after some blocks. -/
def lastTimestamp (previous : ℕ) (times : List ℕ) : ℕ :=
  times.foldl (fun previous time => max time (previous + 1)) previous

theorem solveTimes_append_singleton (longest previous time : ℕ) (times : List ℕ) :
    solveTimes longest previous (times ++ [time]) = solveTimes longest previous times ++
      [min longest (max time (lastTimestamp previous times + 1) - lastTimestamp previous times)] := by
  induction times generalizing previous with
  | nil => rfl
  | cons time' times ih => simp [solveTimes, lastTimestamp, ih]

theorem weightedSum_append_singleton (j s : ℕ) (ss : List ℕ) :
    weightedSum j (ss ++ [s]) = weightedSum j ss + s * (j + ss.length + 1) := by
  induction ss generalizing j with
  | nil => simp [weightedSum]
  | cons s' ss ih =>
    rw [List.cons_append, weightedSum, weightedSum, ih, List.length_cons]
    ring

namespace CBlockIndex

theorem nHeight_withTime (b : CBlockIndex) (nTime : BitVec 32) : (b.withTime nTime).nHeight = b.nHeight := by
  cases b <;> rfl

theorem recent_withTime {b : CBlockIndex} {n : ℕ} (h : 0 < b.nHeight) :
    ∃ before : List CBlockIndex, ∀ nTime, (b.withTime nTime).recent (n + 1) = before ++ [b.withTime nTime] := by
  cases b with
  | genesis nTime nBits => exact absurd h (Int.lt_irrefl 0)
  | child nTime nBits p => exact ⟨p.recent n, fun _ => rfl⟩

theorem getAncestor_withTime {b : CBlockIndex} {h : Int} (hlt : h < b.nHeight) (nTime : BitVec 32) :
    (b.withTime nTime).getAncestor h = b.getAncestor h := by
  cases b with
  | genesis nTime' nBits =>
    have hneg : h < 0 := hlt
    rw [getAncestor, getAncestor, if_pos (.inr hneg), if_pos (.inr hneg)]
  | child nTime' nBits p =>
    rw [nHeight_child] at hlt
    rw [withTime, getAncestor_child (by omega), getAncestor_child (by omega)]

end CBlockIndex

theorem targetOf_withTime (b : CBlockIndex) (nTime : BitVec 32) : targetOf (b.withTime nTime) = targetOf b := by
  cases b <;> rfl

theorem nTime_withTime (b : CBlockIndex) (nTime : BitVec 32) : (b.withTime nTime).nTime = nTime := by
  cases b <;> rfl

theorem withTime_nTime (b : CBlockIndex) : b.withTime b.nTime = b := by
  cases b <;> rfl

variable {p : CBlockIndex}

theorem sumTargets_withTime (hheight : 60 ≤ p.nHeight) (nTime : BitVec 32) :
    sumTargets 60 ((p.withTime nTime).recent 60) = sumTargets 60 (p.recent 60) := by
  obtain ⟨before, hbefore⟩ := recent_withTime (b := p) (n := 59) (by omega)
  have hself := hbefore p.nTime
  rw [withTime_nTime] at hself
  rw [hbefore nTime, hself]
  simp [sumTargets, targetOf_withTime]

/-- The weighted time as a function of the last timestamp: up to the clamps it grows by sixty each second. -/
def timeAt (T base previous time : ℕ) : ℕ :=
  max (base + min (6 * T) (max time (previous + 1) - previous) * 60) (60 * T / 20)

variable {T : ℕ}

theorem weightedTime_withTime (hheight : 60 ≤ p.nHeight) : ∃ base previous, ∀ nTime : BitVec 32,
      weightedTime T 60 (p.withTime nTime) = timeAt T base previous nTime.toNat := by
  obtain ⟨before, hbefore⟩ := recent_withTime (b := p) (n := 59) (by omega)
  have hlength : before.length = 59 := by
    have hrecent := length_recent (n := 60) (b := p.withTime 0)
      (by rw [nHeight_withTime]; omega)
    rw [hbefore 0, List.length_append] at hrecent
    simpa using hrecent
  have hstart (nTime : BitVec 32) : startTime 60 (p.withTime nTime) = startTime 60 p := by
    unfold startTime
    rw [nHeight_withTime, getAncestor_withTime (by omega)]
  refine ⟨weightedSum 0 (solveTimes (6 * T) (startTime 60 p) (before.map fun b => b.nTime.toNat)),
    lastTimestamp (startTime 60 p) (before.map fun b => b.nTime.toNat), fun nTime => ?_⟩
  rw [weightedTime, windowTimes, hstart, hbefore nTime, List.map_append, List.map_singleton, nTime_withTime,
    solveTimes_append_singleton, weightedSum_append_singleton, length_solveTimes, List.length_map, hlength]
  rfl

theorem timeAt_mono (T base previous : ℕ) {a b : ℕ} (h : a ≤ b) :
    timeAt T base previous a ≤ timeAt T base previous b := by
  unfold timeAt
  omega

theorem timeAt_succ_le (T base previous a : ℕ) : timeAt T base previous (a + 1) ≤ timeAt T base previous a + 60 := by
  unfold timeAt
  omega

/-! ### Passing a multiple -/

theorem mod_le_mod_of_div_eq {a b m : ℕ} (h : a ≤ b) (hdiv : a / m = b / m) : a % m ≤ b % m := by
  have ha := div_add_mod a m
  have hb := div_add_mod b m
  rw [hdiv] at ha
  omega

theorem exists_step_ne {g : ℕ → ℕ} {n : ℕ} (h : g 0 ≠ g n) : ∃ i < n, g i ≠ g (i + 1) := by
  induction n with
  | zero => exact absurd rfl h
  | succ n ih =>
    by_cases hn : g 0 = g n
    · exact ⟨n, lt_succ_self n, hn ▸ h⟩
    · obtain ⟨i, hi, hne⟩ := ih hn
      exact ⟨i, hi.trans (lt_succ_self n), hne⟩

theorem mod_add_lt_mod {a b m : ℕ} (hle : a ≤ b) (hstep : 2 * (b - a) < m) (hdiv : a / m ≠ b / m) :
    2 * (b % m) + m < 2 * (a % m) := by
  have ha := div_add_mod a m
  have hb := div_add_mod b m
  have hquotient : a / m + 1 ≤ b / m := Nat.lt_of_le_of_ne (Nat.div_le_div_right hle) hdiv
  have hmul := Nat.mul_le_mul_left m hquotient
  rw [mul_succ] at hmul
  omega

theorem truncateBytes_div_lt {v v' k : ℕ} (hk : 0 < k) (hkBound : k ≤ 2 ^ 64) (hv : v < 2 ^ 256)
    (h : 2 * v' + 2 ^ 256 < 2 * v) : truncateBytes (v' / k * 60) < truncateBytes (v / k * 60) := by
  have hgap : 2 ^ 255 / k + v' / k ≤ v / k := by
    calc 2 ^ 255 / k + v' / k ≤ (2 ^ 255 + v') / k := div_add_div_le_add_div
      _ ≤ v / k := Nat.div_le_div_right (by omega)
  have hsmall : v' / k ≤ 2 ^ 255 / k := Nat.div_le_div_right (by omega)
  have hpos : 0 < 2 ^ 255 / k := Nat.div_pos (hkBound.trans (by decide)) hk
  apply truncateBytes_lt
  omega

/-! ### The networks -/

/-- The product of the weighted times and the targets of the window, as a function of the last timestamp. -/
def productAt (T : ℕ) (p : CBlockIndex) (nTime : BitVec 32) : ℕ :=
  weightedTime T 60 (p.withTime nTime) * sumTargets 60 (p.recent 60)

theorem rawTarget_withTime (hheight : 60 ≤ p.nHeight) (nTime : BitVec 32) :
    rawTarget T 60 (p.withTime nTime) = productAt T p nTime % 2 ^ 256 / (60 * (60 + 1) * T / 2) := by
  rw [rawTarget, sumTargets_withTime hheight, productAt]

variable {nTime nTime' : BitVec 32}

theorem productAt_mono (hheight : 60 ≤ p.nHeight)
    (h : nTime ≤ nTime') : productAt T p nTime ≤ productAt T p nTime' := by
  obtain ⟨base, previous, htime⟩ := weightedTime_withTime (T := T) hheight
  unfold productAt
  rw [htime, htime]
  exact Nat.mul_le_mul_right _ (timeAt_mono T base previous (BitVec.le_def.mp h))

/-- The product stays within the same multiple for all timestamps. -/
def SameMultiple (T : ℕ) (p : CBlockIndex) : Prop :=
  productAt T p 0 / 2 ^ 256 = productAt T p (BitVec.allOnes 32) / 2 ^ 256

theorem SameMultiple.nextTarget_mono (hsame : SameMultiple T p)
    (hheight : 60 ≤ p.nHeight) (params : Params) (h : nTime ≤ nTime') :
    nextTarget params T 60 (p.withTime nTime) ≤ nextTarget params T 60 (p.withTime nTime') := by
  have hfirst := productAt_mono (T := T) hheight (BitVec.le_def.mpr (Nat.zero_le nTime.toNat) : 0#32 ≤ nTime)
  have hmiddle := productAt_mono (T := T) hheight h
  have hlast := productAt_mono (T := T) hheight (show nTime' ≤ BitVec.allOnes 32 by
    rw [BitVec.le_def, BitVec.toNat_allOnes]
    omega)
  have hdiv : productAt T p nTime / 2 ^ 256 = productAt T p nTime' / 2 ^ 256 := by
    apply le_antisymm (Nat.div_le_div_right hmiddle)
    calc productAt T p nTime' / 2 ^ 256 ≤ productAt T p (BitVec.allOnes 32) / 2 ^ 256 := Nat.div_le_div_right hlast
      _ = productAt T p 0 / 2 ^ 256 := hsame.symm
      _ ≤ productAt T p nTime / 2 ^ 256 := Nat.div_le_div_right hfirst
  have hraw : rawTarget T 60 (p.withTime nTime) ≤ rawTarget T 60 (p.withTime nTime') := by
    rw [rawTarget_withTime hheight, rawTarget_withTime hheight]
    exact Nat.div_le_div_right (mod_le_mod_of_div_eq hmiddle hdiv)
  unfold nextTarget
  rw [nHeight_withTime, nHeight_withTime]
  apply min_le_min_left
  split_ifs
  · exact Nat.mul_le_mul_right 60 hraw
  · exact hraw

variable {params : Params}

/-- Where the product passes a multiple, one second makes the target smaller. -/
theorem exists_nextTarget_lt (hT : 0 < T) (hfits : 60 * 61 * T < 2 ^ 63)
    (hheight : 60 ≤ p.nHeight) (hlimit : params.powLimit = widePowLimit)
    (hfix : p.nHeight + 1 ≥ params.nPowLWMAFixHeight) (htargets : ∀ b ∈ p.recent 60, targetOf b ≤ widePowLimit.toNat)
    (hpass : ¬ SameMultiple T p) :
    ∃ nTime nTime' : BitVec 32, nTime ≤ nTime' ∧ truncateBytes (nextTarget params T 60 (p.withTime nTime')) <
        truncateBytes (nextTarget params T 60 (p.withTime nTime)) := by
  obtain ⟨base, previous, htime⟩ := weightedTime_withTime (T := T) hheight
  have hlimitValue : widePowLimit.toNat = 2 ^ 255 - 1 := by decide
  have hsum := sumTargets_le hheight htargets
  have hproduct (n : ℕ) (hn : n < 2 ^ 32) : productAt T p (BitVec.ofNat 32 n) =
      timeAt T base previous n * sumTargets 60 (p.recent 60) := by
    rw [productAt, htime, BitVec.toNat_ofNat, mod_eq_of_lt hn]
  have hlast : BitVec.ofNat 32 (2 ^ 32 - 1) = BitVec.allOnes 32 := by decide
  have hends : productAt T p (BitVec.ofNat 32 0) / 2 ^ 256 ≠
      productAt T p (BitVec.ofNat 32 (2 ^ 32 - 1)) / 2 ^ 256 := by
    rw [hlast]
    exact hpass
  obtain ⟨n, hn, hne⟩ := exists_step_ne (g := fun n => productAt T p (BitVec.ofNat 32 n) / 2 ^ 256) hends
  have hstep : productAt T p (BitVec.ofNat 32 (n + 1)) ≤
      productAt T p (BitVec.ofNat 32 n) + 60 * sumTargets 60 (p.recent 60) := by
    rw [hproduct n (by omega), hproduct (n + 1) (by omega), ← Nat.add_mul]
    exact Nat.mul_le_mul_right _ (timeAt_succ_le T base previous n)
  have hle : BitVec.ofNat 32 n ≤ BitVec.ofNat 32 (n + 1) := by
    rw [BitVec.le_def, BitVec.toNat_ofNat, BitVec.toNat_ofNat]
    omega
  have hdrop := mod_add_lt_mod (productAt_mono (T := T) hheight hle) (by omega) hne
  have hvalue (nTime : BitVec 32) : nextTarget params T 60 (p.withTime nTime) =
      productAt T p nTime % 2 ^ 256 / (60 * (60 + 1) * T / 2) * 60 := by
    have hmul := div_mul_le_self (productAt T p nTime % 2 ^ 256) (60 * (60 + 1) * T / 2)
    have hdivisor : productAt T p nTime % 2 ^ 256 / (60 * (60 + 1) * T / 2) * 1830 ≤
        productAt T p nTime % 2 ^ 256 / (60 * (60 + 1) * T / 2) * (60 * (60 + 1) * T / 2) :=
      Nat.mul_le_mul_left _ (by omega)
    rw [nextTarget, nHeight_withTime, if_pos hfix, rawTarget_withTime hheight, hlimit, hlimitValue]
    apply Nat.min_eq_right
    omega
  refine ⟨_, _, hle, ?_⟩
  rw [hvalue, hvalue]
  exact truncateBytes_div_lt (by omega) (by omega) (mod_lt _ (Nat.two_pow_pos 256)) hdrop

theorem sameMultiple_of_lt {limit : ℕ} (hT : 0 < T) (hbound : T * limit < 2 ^ 247)
    (hheight : 60 ≤ p.nHeight) (htargets : ∀ b ∈ p.recent 60, targetOf b ≤ limit) : SameMultiple T p := by
  have hsum := sumTargets_le hheight htargets
  have hzero (nTime : BitVec 32) : productAt T p nTime / 2 ^ 256 = 0 := by
    have hheight' : 60 ≤ (p.withTime nTime).nHeight := by rwa [nHeight_withTime]
    have hle := (weightedSum_windowTimes hT hheight').2
    have htime : weightedTime T 60 (p.withTime nTime) ≤ 10980 * T := by
      unfold weightedTime
      omega
    apply div_eq_of_lt
    have hproduct : productAt T p nTime * 60 ≤ 10980 * (T * limit) := by
      calc productAt T p nTime * 60 = weightedTime T 60 (p.withTime nTime) * (sumTargets 60 (p.recent 60) * 60) :=
            Nat.mul_assoc _ _ _
        _ ≤ 10980 * T * limit := Nat.mul_le_mul htime hsum
        _ = 10980 * (T * limit) := Nat.mul_assoc _ _ _
    omega
  rw [SameMultiple, hzero, hzero]

/-- The target that the compact result of a chain stands for. -/
theorem toNat_lwma {r : BitVec 32} (hN : params.nLWMAWindow = 60)
    (hT : params.nPowTargetSpacing = T) (hpos : 0 < T) (hfits : 60 * 61 * T < 2 ^ 63) (hheight : 60 ≤ p.nHeight)
    (hresult : lwmaCalculateNextWorkRequired p params = .ok r) :
    (setCompact r).toNat = truncateBytes (nextTarget params T 60 p) := by
  rw [lwma_eq hN hT hpos hfits hheight] at hresult
  cases hresult
  rw [toNat_setCompact_getCompact, toNat_ofNat (nextTarget_lt _ _ _ _)]

theorem lwma_overflow (hN : params.nLWMAWindow = 60)
    (hlarge : 2 ^ 63 ≤ 60 * 61 * params.nPowTargetSpacing) (p : CBlockIndex) :
    lwmaCalculateNextWorkRequired p params = .error .signedOverflow := by
  have hoverflow : int64 (60 * (60 + 1) * params.nPowTargetSpacing) = .error .signedOverflow :=
    if_neg (by omega)
  unfold lwmaCalculateNextWorkRequired
  dsimp only
  rw [hN, int64_ok (by decide) (by decide), ok_bind, int64_ok (by decide) (by decide), ok_bind, hoverflow]
  rfl

/-- On a network with retargeting a later timestamp never makes the target smaller, for a given chain below the
last block and its targets, exactly if the product stays within the same multiple of `2 ^ 256`. -/
theorem lwma_later_iff (c : Chain) (p : CBlockIndex) (hretarget : c.consensus.fPowNoRetargeting = false)
    (hactive : p.nHeight + 1 ≥ c.consensus.nPowLWMAHeight)
    (htargets : ∀ b ∈ p.recent 60, targetOf b ≤ c.consensus.powLimit.toNat) :
    (∀ nTime nTime' r r' : BitVec 32, nTime ≤ nTime' →
      lwmaCalculateNextWorkRequired (p.withTime nTime) c.consensus = .ok r →
      lwmaCalculateNextWorkRequired (p.withTime nTime') c.consensus = .ok r' →
      (setCompact r).toNat ≤ (setCompact r').toNat) ↔
    2 ^ 63 ≤ 60 * 61 * c.consensus.nPowTargetSpacing ∨ SameMultiple c.consensus.nPowTargetSpacing.toNat p := by
  obtain ⟨hN, hspacing, hheight⟩ : c.consensus.nLWMAWindow = 60 ∧ 1 ≤ c.consensus.nPowTargetSpacing ∧
      60 ≤ p.nHeight := by
    cases c with
    | main => exact ⟨rfl, by decide, by simp only [Chain.consensus] at hactive; omega⟩
    | test => cases hretarget
    | devnet T parsed => exact ⟨rfl, parsed.1, by simp only [Chain.consensus] at hactive; omega⟩
    | regtest => cases hretarget
  obtain ⟨T, hT⟩ := Int.eq_ofNat_of_zero_le (show 0 ≤ c.consensus.nPowTargetSpacing by omega)
  by_cases hlarge : 2 ^ 63 ≤ 60 * 61 * c.consensus.nPowTargetSpacing
  · refine iff_of_true (fun nTime nTime' r r' _ hr _ => ?_) (.inl hlarge)
    rw [lwma_overflow hN hlarge] at hr
    cases hr
  rw [or_iff_right hlarge, hT, Int.toNat_natCast]
  have hheight' (nTime : BitVec 32) : 60 ≤ (p.withTime nTime).nHeight := by
    rwa [nHeight_withTime]
  have htarget {nTime r : BitVec 32} (hr : lwmaCalculateNextWorkRequired (p.withTime nTime) c.consensus = .ok r) :=
    toNat_lwma hN hT (by omega) (by omega) (hheight' nTime) hr
  constructor
  · intro hmono
    by_contra hpass
    cases c with
    | main =>
      have hvalue : T = 60 := by
        have h : (60 : Int) = T := hT
        omega
      subst hvalue
      exact hpass (sameMultiple_of_lt (by decide) (by decide) hheight htargets)
    | test => cases hretarget
    | devnet powTargetSpacing parsed =>
      have hfix : p.nHeight + 1 ≥ 0 := by omega
      obtain ⟨nTime, nTime', hle, hlt⟩ := exists_nextTarget_lt (by omega) (by omega) hheight
        (rfl : (Chain.devnet powTargetSpacing parsed).consensus.powLimit = widePowLimit) hfix htargets hpass
      have hr := lwma_eq (p := p.withTime nTime) hN hT (by omega) (by omega) (hheight' _)
      have hr' := lwma_eq (p := p.withTime nTime') hN hT (by omega) (by omega) (hheight' _)
      have hmono' := hmono nTime nTime' _ _ hle hr hr'
      rw [htarget hr, htarget hr'] at hmono'
      omega
    | regtest => cases hretarget
  · intro hsame nTime nTime' r r' hle hr hr'
    rw [htarget hr, htarget hr']
    exact truncateBytes_mono (hsame.nextTarget_mono hheight _ hle)

/-- On the main network, with the lowest difficulty in the window. -/
theorem lwma_later_iff_main : Chain.main.consensus.fPowNoRetargeting = false ∧ ∀ nTime nTime' r r' : BitVec 32, nTime ≤ nTime' →
    lwmaCalculateNextWorkRequired ((flatChain 0 0x1e0fffff 3200100).withTime nTime) Chain.main.consensus = .ok r →
    lwmaCalculateNextWorkRequired ((flatChain 0 0x1e0fffff 3200100).withTime nTime') Chain.main.consensus = .ok r' →
    (setCompact r).toNat ≤ (setCompact r').toNat := by
  have hheight := nHeight_flatChain 0 0x1e0fffff 3200100
  have hactive : (flatChain 0 0x1e0fffff 3200100).nHeight + 1 ≥ Chain.main.consensus.nPowLWMAHeight := by
    rw [hheight]
    decide
  exact ⟨rfl, (lwma_later_iff Chain.main _ rfl hactive targetOf_flatChain).mpr
    (.inr (sameMultiple_of_lt (by decide) (by decide) (by omega) targetOf_flatChain))⟩

def devnet150 : Chain :=
  .devnet 150 (by decide)

/-- A chain whose blocks have the same target and follow each other after the same time. -/
def steadyChain (nTime nBits : BitVec 32) (spacing : ℕ) : ℕ → CBlockIndex
  | 0 => .genesis nTime nBits
  | n + 1 => .child (nTime + BitVec.ofNat 32 (spacing * (n + 1))) nBits (steadyChain nTime nBits spacing n)

/-- Blocks of the lowest difficulty in the intended spacing, of which the last one comes after `solveTime` seconds. -/
def lowestChain (solveTime : ℕ) : CBlockIndex :=
  (steadyChain 1417713337 0x207fffff 150 4032).withTime (1417713337 + BitVec.ofNat 32 (150 * 4031 + solveTime))

/-- The last block comes a second or two late, and with the later timestamp the target drops. -/
theorem lwma_later_fails :
    devnet150.consensus.fPowNoRetargeting = false ∧ (lowestChain 151).nHeight + 1 ≥ devnet150.consensus.nPowLWMAHeight ∧
    (∀ b ∈ (lowestChain 151).recent 60, targetOf b ≤ devnet150.consensus.powLimit.toNat) ∧
    ∃ r r', lwmaCalculateNextWorkRequired (lowestChain 151) devnet150.consensus = .ok r ∧
      lwmaCalculateNextWorkRequired (lowestChain 152) devnet150.consensus = .ok r' ∧
      (setCompact r').toNat < (setCompact r).toNat := by
  have hwindow (solveTime : ℕ) : 60 ≤ (lowestChain solveTime).nHeight := by
    rw [lowestChain, nHeight_withTime]
    decide +kernel
  have hwindowSize : devnet150.consensus.nLWMAWindow = 60 := rfl
  have hresult (solveTime : ℕ) := lwma_eq (T := 150) hwindowSize rfl (by decide) (by decide) (hwindow solveTime)
  refine ⟨rfl, by decide +kernel, by decide +kernel, _, _, hresult 151, hresult 152, ?_⟩
  rw [toNat_setCompact_getCompact, toNat_setCompact_getCompact, toNat_ofNat (nextTarget_lt _ _ _ _),
    toNat_ofNat (nextTarget_lt _ _ _ _)]
  decide +kernel

end OmegaCore.Pow
