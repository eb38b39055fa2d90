import Mathlib.Algebra.Order.BigOperators.Group.List
import OmegaCore.Arith.Uint256
import OmegaCore.Util.Except

/-!
The difficulty of the next block.  `LwmaCalculateNextWorkRequired` averages the targets of
a window of blocks with their clamped solve times as weights, the latest ones counting most.
An overflow of its signed 64-bit integers has no defined result, and 256-bit numbers wrap
around.  With sixty blocks the former cannot happen, and on the main network neither does.
-/

namespace OmegaCore.Pow

open ArithUint256

/-- A block index entry with the fields of its header that the difficulty depends on. -/
inductive CBlockIndex where
  | genesis (nTime nBits : BitVec 32)
  | child (nTime nBits : BitVec 32) (pprev : CBlockIndex)
  deriving DecidableEq

namespace CBlockIndex

def nTime : CBlockIndex → BitVec 32
  | genesis nTime _ => nTime
  | child nTime _ _ => nTime

def nBits : CBlockIndex → BitVec 32
  | genesis _ nBits => nBits
  | child _ nBits _ => nBits

def height : CBlockIndex → ℕ
  | genesis _ _ => 0
  | child _ _ p => p.height + 1

def nHeight (b : CBlockIndex) : Int :=
  b.height

def getBlockTime (b : CBlockIndex) : Int :=
  b.nTime.toNat

/-- The entry `k` blocks below, if the chain is that long. -/
def down : CBlockIndex → ℕ → Option CBlockIndex
  | b, 0 => some b
  | genesis _ _, _ + 1 => none
  | child _ _ p, k + 1 => p.down k

/-- The source walks skip pointers; the entry it reaches is the one at that height. -/
def getAncestor (b : CBlockIndex) (h : Int) : Option CBlockIndex :=
  if h > b.nHeight ∨ h < 0 then none else b.down (b.height - h.toNat)

/-- The same chain with another timestamp of its last block. -/
def withTime : CBlockIndex → BitVec 32 → CBlockIndex
  | genesis _ nBits, nTime => genesis nTime nBits
  | child _ nBits pprev, nTime => child nTime nBits pprev

end CBlockIndex

/-! ### Parameters -/

/-- The consensus parameters of the proof of work. -/
structure Params where
  powLimit : Uint256
  fPowNoRetargeting : Bool
  nPowTargetSpacing : Int
  nPowLWMAHeight : Int
  nPowLWMAFixHeight : Int
  nLWMAWindow : Int

/-- The networks of `chainparams.cpp`.  A devnet can set its spacing with `-powtargetspacing`. -/
inductive Chain where
  | main
  | test
  | devnet (powTargetSpacing : Int) (parsed : 1 ≤ powTargetSpacing ∧ powTargetSpacing < 2 ^ 63)
  | regtest

/-- `~uint256(0) >> 1`. -/
def widePowLimit : Uint256 :=
  0x7fffffffffffffffffffffffffffffffffffffffffffffffffffffffffffffff

def Chain.consensus : Chain → Params
  | main =>
    { powLimit := 0x00000fffff000000000000000000000000000000000000000000000000000000
      fPowNoRetargeting := false
      nPowTargetSpacing := 60
      nPowLWMAHeight := 3200000
      nPowLWMAFixHeight := 3200075
      nLWMAWindow := 60 }
  | test =>
    { powLimit := widePowLimit
      fPowNoRetargeting := true
      nPowTargetSpacing := 60
      nPowLWMAHeight := 0
      nPowLWMAFixHeight := 0
      nLWMAWindow := 60 }
  | devnet powTargetSpacing _ =>
    { powLimit := widePowLimit
      fPowNoRetargeting := false
      nPowTargetSpacing := powTargetSpacing
      nPowLWMAHeight := 4001
      nPowLWMAFixHeight := 0
      nLWMAWindow := 60 }
  | regtest =>
    { powLimit := widePowLimit
      fPowNoRetargeting := true
      nPowTargetSpacing := 150
      nPowLWMAHeight := 0
      nPowLWMAFixHeight := 0
      nLWMAWindow := 60 }

/-! ### The algorithm -/

/-- How the computation can end without a result. -/
inductive Failure where
  | signedOverflow
  | uintError (what : String)
  | nullIndex
  deriving DecidableEq, Repr

/-- The result of an `int64_t` operation. -/
def int64 (x : Int) : Except Failure Int :=
  if -2 ^ 63 ≤ x ∧ x < 2 ^ 63 then .ok x else .error .signedOverflow

/-- The conversion of an `int64_t` through `base_uint(uint64_t)`. -/
def ofInt64 (x : Int) : ArithUint256 :=
  ofUint64 (BitVec.ofInt 64 x)

def divUint (a b : ArithUint256) : Except Failure ArithUint256 :=
  (a.div b).mapError Failure.uintError

structure LwmaState where
  t : Int := 0
  j : Int := 0
  previousTimestamp : Int
  sumTarget : ArithUint256 := ofUint64 0

/-- The timestamp of a block, at least one above the one before. -/
def nextTimestamp (blockTime previousTimestamp : Int) : Except Failure Int :=
  if blockTime > previousTimestamp then .ok blockTime else int64 (previousTimestamp + 1)

def lwmaStep (T N : Int) (s : LwmaState) (block : CBlockIndex) : Except Failure LwmaState := do
  let thisTimestamp ← nextTimestamp block.getBlockTime s.previousTimestamp
  let longest ← int64 (6 * T)
  let elapsed ← int64 (thisTimestamp - s.previousTimestamp)
  let solveTime := min longest elapsed
  let j ← int64 (s.j + 1)
  let weighted ← int64 (solveTime * j)
  let t ← int64 (s.t + weighted)
  let target := setCompact block.nBits
  let square ← int64 (N * N)
  let share ← divUint target (ofInt64 square)
  .ok { t, j, previousTimestamp := thisTimestamp, sumTarget := s.sumTarget.add share }

def blockAt (pindexLast : CBlockIndex) (i : Int) : Except Failure CBlockIndex :=
  match pindexLast.getAncestor i with
  | some block => .ok block
  | none => .error .nullIndex

def lwmaCalculateNextWorkRequired (pindexLast : CBlockIndex) (params : Params) : Except Failure (BitVec 32) := do
  let T := params.nPowTargetSpacing
  let N := params.nLWMAWindow
  let next ← int64 (N + 1)
  let pairs ← int64 (N * next)
  let product ← int64 (pairs * T)
  let k := product.tdiv 2
  let height := pindexLast.nHeight
  let powLimit := uintToArith256 params.powLimit
  if height < N then return powLimit.getCompact
  let blockPreviousTimestamp ← blockAt pindexLast (height - N)
  let heights := (List.range N.toNat).map fun i : ℕ => height - N + 1 + (i : Int)
  let s ← heights.foldlM (fun s i => blockAt pindexLast i >>= lwmaStep T N s)
    { previousTimestamp := blockPreviousTimestamp.getBlockTime : LwmaState }
  let span ← int64 (N * T)
  let t := if s.t < span.tdiv 20 then span.tdiv 20 else s.t
  let nextTarget ← divUint ((ofInt64 t).mul s.sumTarget) (ofInt64 k)
  let nextTarget :=
    if height + 1 ≥ params.nPowLWMAFixHeight then nextTarget.mulUint32 (BitVec.ofInt 32 N) else nextTarget
  let nextTarget := if nextTarget.compareTo powLimit = .gt then powLimit else nextTarget
  return nextTarget.getCompact

open Util List Pow.CBlockIndex

/-! ### The window -/

namespace CBlockIndex

/-- The last entries of a chain, the oldest one first. -/
def recent : ℕ → CBlockIndex → List CBlockIndex
  | 0, _ => []
  | _ + 1, genesis nTime nBits => [genesis nTime nBits]
  | n + 1, child nTime nBits p => recent n p ++ [child nTime nBits p]

theorem nHeight_child (nTime nBits : BitVec 32) (p : CBlockIndex) : (child nTime nBits p).nHeight = p.nHeight + 1 := by
  simp [nHeight, height]

theorem nHeight_nonneg (b : CBlockIndex) : 0 ≤ b.nHeight :=
  Int.natCast_nonneg _

theorem getAncestor_self (b : CBlockIndex) : b.getAncestor b.nHeight = some b := by
  have hnonneg := b.nHeight_nonneg
  rw [getAncestor, if_neg (by omega)]
  simp [nHeight, down]

theorem getAncestor_child {nTime nBits : BitVec 32} {p : CBlockIndex} {h : Int} (hle : h ≤ p.nHeight) :
    (child nTime nBits p).getAncestor h = p.getAncestor h := by
  unfold getAncestor
  rw [nHeight_child]
  by_cases hneg : h < 0
  · rw [if_pos (.inr hneg), if_pos (.inr hneg)]
  · have hindex : (child nTime nBits p).height - h.toNat = p.height - h.toNat + 1 := by
      unfold nHeight at hle
      simp only [height]
      omega
    rw [if_neg (by omega), if_neg (by omega), hindex, down]

variable {b : CBlockIndex}

theorem exists_down {k : ℕ} (h : k ≤ b.height) : ∃ b', b.down k = some b' := by
  induction k generalizing b with
  | zero => exact ⟨b, by cases b <;> rfl⟩
  | succ k ih =>
    cases b with
    | genesis nTime nBits => simp [height] at h
    | child nTime nBits p => exact ih (Nat.le_of_succ_le_succ h)

theorem exists_getAncestor {h : Int} (hnonneg : 0 ≤ h) (hle : h ≤ b.nHeight) : ∃ b', b.getAncestor h = some b' := by
  rw [getAncestor, if_neg (by omega)]
  exact exists_down (Nat.sub_le _ _)

theorem getAncestor_recent {n : ℕ} (h : (n : Int) ≤ b.nHeight + 1) :
    (List.range n).map (fun i : ℕ => b.getAncestor (b.nHeight - n + 1 + (i : Int))) = (recent n b).map some := by
  induction n generalizing b with
  | zero => rfl
  | succ n ih =>
    have hlast : b.nHeight - ((n + 1 : ℕ) : Int) + 1 + (n : Int) = b.nHeight := by omega
    rw [range_succ, map_append, map_singleton, hlast, getAncestor_self]
    cases b with
    | genesis nTime nBits =>
      have hn : n = 0 := by
        simp only [nHeight, height] at h
        omega
      rw [hn]
      rfl
    | child nTime nBits p =>
      rw [nHeight_child] at h ⊢
      rw [recent, map_append, ← ih (by omega)]
      congr 1
      apply map_congr_left
      intro i hi
      rw [mem_range] at hi
      rw [getAncestor_child (by omega)]
      congr 1
      omega

theorem length_recent {n : ℕ} (h : (n : Int) ≤ b.nHeight + 1) : (recent n b).length = n := by
  have hlength := congrArg length (getAncestor_recent h)
  simpa using hlength.symm

end CBlockIndex

/-! ### The weighted solve times -/

/-- Timestamps, each at least one above the one before. -/
def solveTimes (longest : ℕ) : ℕ → List ℕ → List ℕ
  | _, [] => []
  | previous, time :: times =>
    let this := max time (previous + 1)
    min longest (this - previous) :: solveTimes longest this times

def weightedSum : ℕ → List ℕ → ℕ
  | _, [] => 0
  | j, s :: ss => s * (j + 1) + weightedSum (j + 1) ss

def targetOf (b : CBlockIndex) : ℕ :=
  (setCompact b.nBits).toNat

def sumTargets (N : ℕ) (blocks : List CBlockIndex) : ℕ :=
  (blocks.map fun b => targetOf b / (N * N)).sum

@[simp] theorem length_solveTimes (longest previous : ℕ) (times : List ℕ) :
    (solveTimes longest previous times).length = times.length := by
  induction times generalizing previous with
  | nil => rfl
  | cons time times ih => simp [solveTimes, ih]

theorem mem_solveTimes {longest previous s : ℕ} {times : List ℕ} (hlongest : 0 < longest)
    (h : s ∈ solveTimes longest previous times) : 1 ≤ s ∧ s ≤ longest := by
  induction times generalizing previous with
  | nil => cases h
  | cons time times ih =>
    rcases mem_cons.mp h with rfl | h
    · omega
    · exact ih h

/-! ### 64-bit arithmetic -/

theorem int64_ok {x : Int} (hlow : -2 ^ 63 ≤ x) (hhigh : x < 2 ^ 63) : int64 x = .ok x :=
  if_pos ⟨hlow, hhigh⟩

theorem toNat_ofInt64 {x : Int} (hnonneg : 0 ≤ x) (h : x < 2 ^ 63) : (ofInt64 x).toNat = x.toNat := by
  rw [ofInt64, toNat_ofUint64, BitVec.toNat_ofInt]
  omega

theorem divUint_ok {a b : ArithUint256} (h : 0 < b.toNat) : ∃ q, divUint a b = .ok q ∧ q.toNat = a.toNat / b.toNat := by
  obtain ⟨q, hq, hvalue⟩ := div_eq_ok (a := a) h
  exact ⟨q, by rw [divUint, hq]; rfl, hvalue⟩

/-! ### The loop -/

/-- The state of the loop after some blocks, with the numbers it stands for. -/
structure LwmaState.Holds (s : LwmaState) (t j previous sum : ℕ) : Prop where
  t_eq : s.t = t
  j_eq : s.j = j
  previous_eq : s.previousTimestamp = previous
  sum_eq : s.sumTarget.toNat = sum % 2 ^ 256

/-- A step within the window of sixty blocks does not overflow. -/
theorem lwmaStep_ok {T t j previous sum : ℕ} {s : LwmaState} (block : CBlockIndex) (hs : s.Holds t j previous sum)
    (hT : 6 * T < 2 ^ 63) (hj : j < 60) (hprevious : previous ≤ 2 ^ 32 + j) (ht : t ≤ j * (60 * 2 ^ 32)) :
    ∃ s', lwmaStep T 60 s block = .ok s' ∧
      s'.Holds (t + min (6 * T) (max block.nTime.toNat (previous + 1) - previous) * (j + 1)) (j + 1)
        (max block.nTime.toNat (previous + 1)) (sum + targetOf block / (60 * 60)) := by
  have hsquare : (ofInt64 (60 * 60)).toNat = 60 * 60 := toNat_ofInt64 (by decide) (by decide)
  have hsquarePos : 0 < (ofInt64 (60 * 60)).toNat := by
    rw [hsquare]
    decide
  obtain ⟨q, hq, hvalue⟩ := divUint_ok (a := setCompact block.nBits) hsquarePos
  generalize hthis : max block.nTime.toNat (previous + 1) = this
  generalize hsolve : min (6 * T) (this - previous) = solve
  have hsolveLe : solve ≤ 2 ^ 32 := by omega
  have hproduct : solve * (j + 1) ≤ 60 * 2 ^ 32 := by
    calc solve * (j + 1) ≤ 2 ^ 32 * 60 := Nat.mul_le_mul hsolveLe (by omega)
      _ = 60 * 2 ^ 32 := Nat.mul_comm _ _
  have htimestamp : nextTimestamp block.getBlockTime previous = .ok (this : Int) := by
    unfold nextTimestamp getBlockTime
    split_ifs with h
    · congr 1
      omega
    · rw [int64_ok (by omega) (by omega)]
      congr 1
      omega
  have hsolveInt : min (6 * (T : Int)) ((this : Int) - previous) = (solve : Int) := by omega
  have hproductInt : (solve : Int) * ((j : Int) + 1) = (solve * (j + 1) : ℕ) := by push_cast; rfl
  unfold lwmaStep
  rw [hs.previous_eq, htimestamp, ok_bind, int64_ok (by omega) (by omega), ok_bind, int64_ok (by omega) (by omega),
    ok_bind, hsolveInt, hs.j_eq, int64_ok (by omega) (by omega), ok_bind, hproductInt,
    int64_ok (by omega) (by omega), ok_bind, hs.t_eq, int64_ok (by omega) (by omega), ok_bind,
    int64_ok (by decide) (by decide), ok_bind, hq, ok_bind]
  refine ⟨_, rfl, ?_, ?_, rfl, ?_⟩
  · rfl
  · rfl
  · rw [toNat_add, hs.sum_eq, hvalue, hsquare, Nat.mod_add_mod]
    rfl

variable {T : ℕ} {blocks : List CBlockIndex}

theorem foldlM_lwmaStep (hT : 6 * T < 2 ^ 63) {s : LwmaState}
    {t j previous sum : ℕ} (hs : s.Holds t j previous sum) (hj : j + blocks.length ≤ 60)
    (hprevious : previous ≤ 2 ^ 32 + j) (ht : t ≤ j * (60 * 2 ^ 32)) :
    ∃ s', blocks.foldlM (lwmaStep T 60) s = .ok s' ∧
      s'.t = (t + weightedSum j (solveTimes (6 * T) previous (blocks.map fun b => b.nTime.toNat)) : ℕ) ∧
      s'.t ≤ 60 * (60 * 2 ^ 32) ∧ s'.sumTarget.toNat = (sum + sumTargets 60 blocks) % 2 ^ 256 := by
  induction blocks generalizing s t j previous sum with
  | nil =>
    have ht' := hs.t_eq
    exact ⟨s, rfl, by simpa [solveTimes, weightedSum] using ht', by omega, by simpa [sumTargets] using hs.sum_eq⟩
  | cons block blocks ih =>
    rw [length_cons] at hj
    obtain ⟨s₁, hstep, hs₁⟩ := lwmaStep_ok block hs hT (by omega) hprevious ht
    have hproduct : min (6 * T) (max block.nTime.toNat (previous + 1) - previous) * (j + 1) ≤ 60 * 2 ^ 32 := by
      calc min (6 * T) (max block.nTime.toNat (previous + 1) - previous) * (j + 1) ≤ 2 ^ 32 * 60 :=
            Nat.mul_le_mul (by omega) (by omega)
        _ = 60 * 2 ^ 32 := Nat.mul_comm _ _
    obtain ⟨s', hrest, ht', hle, hsum'⟩ := ih hs₁ (by omega) (by omega) (by omega)
    refine ⟨s', by rw [foldlM_cons, hstep, ok_bind, hrest], ?_, hle, ?_⟩
    · rw [ht', map_cons, solveTimes, weightedSum]
      omega
    · rw [hsum', sumTargets, sumTargets, map_cons, sum_cons, Nat.add_assoc]

variable {p : CBlockIndex}

theorem foldlM_blockAt {heights : List Int}
    (h : heights.map p.getAncestor = blocks.map some) (f : LwmaState → CBlockIndex → Except Failure LwmaState)
    (s : LwmaState) : heights.foldlM (fun s i => blockAt p i >>= f s) s = blocks.foldlM f s := by
  induction heights generalizing blocks s with
  | nil =>
    cases blocks with
    | nil => rfl
    | cons block blocks => cases h
  | cons i heights ih =>
    cases blocks with
    | nil => cases h
    | cons block blocks =>
      obtain ⟨hi, hrest⟩ := cons_eq_cons.mp h
      have hblock : blockAt p i = .ok block := by rw [blockAt, hi]
      rw [foldlM_cons, foldlM_cons, hblock, ok_bind]
      congr 1
      funext s'
      exact ih hrest s'

/-! ### The result -/

def startTime (N : ℕ) (p : CBlockIndex) : ℕ :=
  ((p.getAncestor (p.nHeight - N)).map fun b => b.nTime.toNat).getD 0

def windowTimes (T N : ℕ) (p : CBlockIndex) : List ℕ :=
  solveTimes (6 * T) (startTime N p) ((p.recent N).map fun b => b.nTime.toNat)

/-- The weighted sum of the solve times, at least a twentieth of the time the window should take. -/
def weightedTime (T N : ℕ) (p : CBlockIndex) : ℕ :=
  max (weightedSum 0 (windowTimes T N p)) (N * T / 20)

/-- The target before the correction and the limit, in 256 bits. -/
def rawTarget (T N : ℕ) (p : CBlockIndex) : ℕ :=
  weightedTime T N p * sumTargets N (p.recent N) % 2 ^ 256 / (N * (N + 1) * T / 2)

def nextTarget (params : Params) (T N : ℕ) (p : CBlockIndex) : ℕ :=
  min params.powLimit.toNat (if p.nHeight + 1 ≥ params.nPowLWMAFixHeight then rawTarget T N p * N else rawTarget T N p)

theorem nextTarget_lt (params : Params) (T N : ℕ) (p : CBlockIndex) : nextTarget params T N p < 2 ^ 256 :=
  (Nat.min_le_left _ _).trans_lt params.powLimit.isLt

theorem rawTarget_mul_lt (hT : 0 < T) (p : CBlockIndex) : rawTarget T 60 p * 60 < 2 ^ 256 := by
  have hle : rawTarget T 60 p * 60 ≤ weightedTime T 60 p * sumTargets 60 (p.recent 60) % 2 ^ 256 :=
    calc rawTarget T 60 p * 60 ≤ rawTarget T 60 p * (60 * (60 + 1) * T / 2) :=
          Nat.mul_le_mul_left _ (by omega)
      _ ≤ weightedTime T 60 p * sumTargets 60 (p.recent 60) % 2 ^ 256 := Nat.div_mul_le_self _ _
  omega

theorem toNat_limit (x y : ArithUint256) : (if x.compareTo y = .gt then y else x).toNat = min y.toNat x.toNat := by
  rw [compareTo_eq]
  split_ifs with h
  · rw [Nat.compare_eq_gt] at h
    exact (Nat.min_eq_left h.le).symm
  · rw [Nat.compare_eq_gt] at h
    exact (Nat.min_eq_right (Nat.le_of_not_lt h)).symm

theorem foldlM_window (hT : 6 * T < 2 ^ 63) (hheight : 60 ≤ p.nHeight) :
    ∃ start s, blockAt p (p.nHeight - 60) = .ok start ∧
      ((List.range 60).map fun i : ℕ => p.nHeight - 60 + 1 + (i : Int)).foldlM
        (fun s i => blockAt p i >>= lwmaStep T 60 s) { previousTimestamp := start.getBlockTime } = .ok s ∧
      s.t = weightedSum 0 (windowTimes T 60 p) ∧ s.t ≤ 60 * (60 * 2 ^ 32) ∧
      s.sumTarget.toNat = sumTargets 60 (p.recent 60) % 2 ^ 256 := by
  obtain ⟨start, hstart⟩ := exists_getAncestor (b := p) (h := p.nHeight - 60) (by omega) (by omega)
  have hstartTime : startTime 60 p = start.nTime.toNat := by
    rw [startTime]
    simp [hstart]
  have hlength := length_recent (n := 60) (b := p) (by omega)
  have hinit : ({ previousTimestamp := start.getBlockTime : LwmaState }).Holds 0 0 (startTime 60 p) 0 :=
    ⟨rfl, rfl, by rw [hstartTime]; rfl, rfl⟩
  have hheights : ((range 60).map fun i : ℕ => p.nHeight - 60 + 1 + (i : Int)).map p.getAncestor =
      (p.recent 60).map some := by
    rw [map_map]
    exact getAncestor_recent (n := 60) (by omega)
  obtain ⟨s, hloop, ht, hle, hsum⟩ := foldlM_lwmaStep hT hinit (Nat.le_of_eq (by rw [hlength])) (by omega) (by omega)
  rw [Nat.zero_add] at ht hsum
  exact ⟨start, s, by rw [blockAt, hstart], by rw [foldlM_blockAt hheights, hloop], ht, hle, hsum⟩

theorem lwma_eq {params : Params} (hN : params.nLWMAWindow = 60)
    (hT : params.nPowTargetSpacing = T) (hpos : 0 < T) (hfits : 60 * 61 * T < 2 ^ 63) (hheight : 60 ≤ p.nHeight) :
    lwmaCalculateNextWorkRequired p params = .ok (ofNat (nextTarget params T 60 p)).getCompact := by
  obtain ⟨start, s, hstart, hloop, ht, hle, hsum⟩ := foldlM_window (T := T) (by omega) hheight
  have hguard : (if s.t < ((60 : Int) * T).tdiv 20 then ((60 : Int) * T).tdiv 20 else s.t) =
      (weightedTime T 60 p : Int) := by
    have hspan : ((60 : Int) * T).tdiv 20 = ((60 * T / 20 : ℕ) : Int) := by
      rw [Int.tdiv_eq_ediv_of_nonneg (by omega)]
      rfl
    rw [hspan, ht, weightedTime]
    split_ifs with h
    · omega
    · omega
  have hk : ((60 : Int) * (60 + 1) * T).tdiv 2 = ((60 * (60 + 1) * T / 2 : ℕ) : Int) := by
    rw [Int.tdiv_eq_ediv_of_nonneg (by omega)]
    rfl
  have htValue : (ofInt64 (weightedTime T 60 p : Int)).toNat = weightedTime T 60 p := by
    rw [ht] at hle
    rw [toNat_ofInt64 (by omega) (by unfold weightedTime; omega), Int.toNat_natCast]
  have hkValue : (ofInt64 ((60 * (60 + 1) * T / 2 : ℕ) : Int)).toNat = 60 * (60 + 1) * T / 2 := by
    rw [toNat_ofInt64 (by omega) (by omega), Int.toNat_natCast]
  have hkPos : 0 < (ofInt64 ((60 * (60 + 1) * T / 2 : ℕ) : Int)).toNat := by
    rw [hkValue]
    omega
  obtain ⟨q, hq, hvalue⟩ := divUint_ok (a := (ofInt64 (weightedTime T 60 p)).mul s.sumTarget) hkPos
  have hraw : q.toNat = rawTarget T 60 p := by
    rw [hvalue, hkValue, toNat_mul, htValue, hsum, Nat.mul_mod_mod]
    rfl
  have hrange : (60 : Int).toNat = 60 := rfl
  unfold lwmaCalculateNextWorkRequired
  dsimp only
  rw [hN, hT, int64_ok (by decide) (by decide), ok_bind, int64_ok (by decide) (by decide), ok_bind,
    int64_ok (by omega) (by omega), ok_bind, if_neg (by omega), hstart, ok_bind, hrange, hloop, ok_bind,
    int64_ok (by omega) (by omega), ok_bind, hguard, hk, hq, ok_bind]
  congr 2
  apply ext_toNat
  rw [toNat_limit, toNat_uintToArith256, toNat_ofNat (nextTarget_lt _ _ _ _), nextTarget]
  congr 1
  split_ifs with hfix
  · rw [toNat_mulUint32, hraw]
    exact Nat.mod_eq_of_lt (rawTarget_mul_lt hpos p)
  · exact hraw

/-! ### The main network -/

theorem weightedSum_bounds {ss : List ℕ} {a b : ℕ} (h : ∀ s ∈ ss, a ≤ s ∧ s ≤ b) (j : ℕ) :
    a * weightedSum j (List.replicate ss.length 1) ≤ weightedSum j ss ∧
      weightedSum j ss ≤ b * weightedSum j (List.replicate ss.length 1) := by
  induction ss generalizing j with
  | nil => simp [weightedSum]
  | cons s ss ih =>
    obtain ⟨⟨ha, hb⟩, hrest⟩ := forall_mem_cons.mp h
    obtain ⟨hlow, hhigh⟩ := ih hrest (j + 1)
    rw [length_cons, replicate_succ, weightedSum, weightedSum, Nat.one_mul, Nat.mul_add a, Nat.mul_add b]
    exact ⟨Nat.add_le_add (Nat.mul_le_mul_right _ ha) hlow, Nat.add_le_add (Nat.mul_le_mul_right _ hb) hhigh⟩

theorem weightedSum_sixty : weightedSum 0 (List.replicate 60 1) = 1830 := by
  decide

theorem weightedSum_windowTimes (hT : 0 < T) (hheight : 60 ≤ p.nHeight) :
    1830 ≤ weightedSum 0 (windowTimes T 60 p) ∧ weightedSum 0 (windowTimes T 60 p) ≤ 6 * T * 1830 := by
  have hlength : (windowTimes T 60 p).length = 60 := by
    rw [windowTimes, length_solveTimes, length_map, length_recent (by omega)]
  have hmem (s : ℕ) (hs : s ∈ windowTimes T 60 p) : 1 ≤ s ∧ s ≤ 6 * T := mem_solveTimes (by omega) hs
  have hbounds := weightedSum_bounds hmem 0
  rw [hlength, weightedSum_sixty] at hbounds
  exact ⟨by omega, hbounds.2⟩

theorem sumTargets_mul_le (N : ℕ) (blocks : List CBlockIndex) :
    sumTargets N blocks * (N * N) ≤ (blocks.map targetOf).sum := by
  induction blocks with
  | nil => simp [sumTargets]
  | cons b blocks ih =>
    have hb := Nat.div_mul_le_self (targetOf b) (N * N)
    rw [sumTargets, map_cons, sum_cons, map_cons, sum_cons, Nat.add_mul]
    exact Nat.add_le_add hb ih

theorem sum_targetOf_le {limit : ℕ} (h : ∀ b ∈ blocks, targetOf b ≤ limit) :
    (blocks.map targetOf).sum ≤ blocks.length * limit := by
  have hle := sum_le_card_nsmul (blocks.map targetOf) limit (by simpa using h)
  simpa using hle

theorem sumTargets_le {limit : ℕ} (hheight : 60 ≤ p.nHeight)
    (h : ∀ b ∈ p.recent 60, targetOf b ≤ limit) : sumTargets 60 (p.recent 60) * 60 ≤ limit := by
  have hscaled := sumTargets_mul_le 60 (p.recent 60)
  have hsum := sum_targetOf_le h
  rw [length_recent (by omega)] at hsum
  omega

/-- With the spacing, the window and the limit of the main network the target is the exact one: nothing wraps
around, and it is at most six times the average of the window. -/
theorem lwma_exact (params : Params) (p : CBlockIndex) (hT : params.nPowTargetSpacing = 60)
    (hN : params.nLWMAWindow = 60) (hlimit : params.powLimit.toNat < 2 ^ 236) (hheight : 60 ≤ p.nHeight)
    (hfix : p.nHeight + 1 ≥ params.nPowLWMAFixHeight)
    (htargets : ∀ b ∈ p.recent 60, targetOf b ≤ params.powLimit.toNat) :
    let t := weightedSum 0 (windowTimes 60 60 p)
    let S := sumTargets 60 (p.recent 60)
    let k := 60 * (60 + 1) * 60 / 2
    let target := min params.powLimit.toNat (60 * (t * S / k))
    (∀ s ∈ windowTimes 60 60 p, 1 ≤ s ∧ s ≤ 6 * 60) ∧ 60 * 60 / 20 ≤ t ∧ S < 2 ^ 256 ∧ t * S < 2 ^ 256 ∧
      60 * (t * S / k) < 2 ^ 256 ∧
      lwmaCalculateNextWorkRequired p params = .ok (ofNat target).getCompact ∧
      60 * target ≤ 6 * ((p.recent 60).map targetOf).sum := by
  intro t S k target
  obtain ⟨hlow, hhigh⟩ := weightedSum_windowTimes (T := 60) (by decide) hheight
  have hsum : S * 60 ≤ params.powLimit.toNat := sumTargets_le hheight htargets
  have hscaled : S * (60 * 60) ≤ ((p.recent 60).map targetOf).sum := sumTargets_mul_le 60 (p.recent 60)
  have hproduct : t * S ≤ 6 * 60 * 1830 * S := Nat.mul_le_mul_right S hhigh
  have hdiv : t * S / k ≤ 6 * S := Nat.div_le_of_le_mul (by omega)
  have hexact : t * S % 2 ^ 256 = t * S := Nat.mod_eq_of_lt (by omega)
  have htime : weightedTime 60 60 p = t := Nat.max_eq_left (by omega)
  have hraw : rawTarget 60 60 p = t * S / k := by
    rw [rawTarget, htime, hexact]
  have htarget : nextTarget params 60 60 p = target := by
    rw [nextTarget, if_pos hfix, hraw, Nat.mul_comm (t * S / k)]
  refine ⟨fun s hs => mem_solveTimes (by decide) hs, by omega, by omega, by omega, by omega, ?_, ?_⟩
  · rw [lwma_eq (T := 60) hN hT (by decide) (by decide) hheight, htarget]
  · omega

/-- A chain whose blocks all have the same timestamp and target. -/
def flatChain (nTime nBits : BitVec 32) : ℕ → CBlockIndex
  | 0 => .genesis nTime nBits
  | n + 1 => .child nTime nBits (flatChain nTime nBits n)

theorem nHeight_flatChain (nTime nBits : BitVec 32) (n : ℕ) : (flatChain nTime nBits n).nHeight = n := by
  induction n with
  | zero => rfl
  | succ n ih =>
    rw [flatChain, nHeight_child, ih]
    omega

theorem mem_recent_flatChain {nTime nBits : BitVec 32} {n m : ℕ} {b : CBlockIndex}
    (h : b ∈ (flatChain nTime nBits m).recent n) : b.nTime = nTime ∧ b.nBits = nBits := by
  induction n generalizing m with
  | zero => cases h
  | succ n ih =>
    cases m with
    | zero =>
      rcases mem_singleton.mp h with rfl
      exact ⟨rfl, rfl⟩
    | succ m =>
      rcases mem_append.mp h with h | h
      · exact ih h
      · rcases mem_singleton.mp h with rfl
        exact ⟨rfl, rfl⟩

theorem targetOf_flatChain : ∀ b ∈ (flatChain 0 0x1e0fffff 3200100).recent 60,
    targetOf b ≤ Chain.main.consensus.powLimit.toNat := by
  intro b hb
  rw [targetOf, (mem_recent_flatChain hb).2, toNat_setCompact]
  decide +kernel

/-- The main network after the correction, with the lowest difficulty and equal timestamps. -/
theorem lwma_exact_main :
    lwmaCalculateNextWorkRequired (flatChain 0 0x1e0fffff 3200100) Chain.main.consensus =
      .ok (ofNat (min Chain.main.consensus.powLimit.toNat
        (60 * (weightedSum 0 (windowTimes 60 60 (flatChain 0 0x1e0fffff 3200100)) *
          sumTargets 60 ((flatChain 0 0x1e0fffff 3200100).recent 60) / (60 * (60 + 1) * 60 / 2))))).getCompact := by
  have hheight := nHeight_flatChain 0 0x1e0fffff 3200100
  have hfix : (flatChain 0 0x1e0fffff 3200100).nHeight + 1 ≥ Chain.main.consensus.nPowLWMAFixHeight := by
    rw [hheight]
    decide
  exact (lwma_exact Chain.main.consensus _ rfl rfl (by decide) (by omega) hfix targetOf_flatChain).2.2.2.2.2.1

end OmegaCore.Pow
