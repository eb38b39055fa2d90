import Mathlib.Data.Prod.Lex
import Mathlib.Algebra.BigOperators.Group.List.Basic
import OmegaCore.Primitives
import OmegaCore.Util.Bytes
import OmegaCore.Util.Except
import OmegaCore.Util.StrictSort

/-!
What the two sides of a mixing session share.  Inputs and outputs are of one denomination, the
order of a transaction is that of BIP69, and `IsValidInOuts` asks that no script occurs twice
among the outputs and the outputs that are spent.
-/

namespace OmegaCore.CoinJoin

open Util List

/-! ### Transactions -/

structure CTxIn where
  prevout : COutPoint
  scriptSig : CScript := []
  nSequence : BitVec 32 := -1
  deriving DecidableEq

/-- A mixing input.  What it has besides `CTxIn` is in memory only. -/
structure CTxDSIn extends CTxIn where
  prevPubKey : CScript := []
  fHasSig : Bool := false
  nRounds : Int := -10
  deriving DecidableEq

structure CMutableTransaction where
  vin : List CTxIn := []
  vout : List CTxOut := []
  nVersion : Int := 2
  nType : BitVec 16 := 0
  nLockTime : BitVec 32 := 0
  vExtraPayload : Bytes := []
  deriving DecidableEq

/-- A client's transaction in the mixing pool. -/
structure CCoinJoinEntry where
  vecTxDSIn : List CTxDSIn := []
  vecTxOut : List CTxOut := []
  txCollateral : CMutableTransaction := {}
  addr : CService := {}
  deriving DecidableEq

inductive PoolMessage where
  | errAlreadyHave | errDenom | errEntriesFull | errExistingTx | errFees | errInvalidCollateral
  | errInvalidInput | errInvalidScript | errInvalidTx | errMaximum | errMnList | errMode
  | errNonStandardPubkey | errNotAMn | errQueueFull | errRecent | errSession | errMissingTx | errVersion
  | msgNoErr | msgSuccess | msgEntriesAdded | errSizeMismatch
  deriving DecidableEq, Repr

inductive PoolState where
  | idle | queue | acceptingEntries | signing | error
  deriving DecidableEq, Repr

/-! ### Denominations -/

/-- `vecStandardDenominations`. -/
def standardDenominations : List Int :=
  [10 * coin + 10000, 1 * coin + 1000, coin / 10 + 100, coin / 100 + 10, coin / 1000 + 1]

/-- The loop of `AmountToDenomination` from an index on. -/
def denominationFrom (nInputAmount : Int) : ℕ → List Int → Int
  | _, [] => 0
  | i, d :: rest => if nInputAmount = d then 2 ^ i else denominationFrom nInputAmount (i + 1) rest

def amountToDenomination (nInputAmount : Int) : Int :=
  denominationFrom nInputAmount 0 standardDenominations

/-- The loop of `DenominationToAmount` from an index on. -/
def amountFrom (nDenom : ℕ) : ℕ → List Int → Int
  | _, [] => -3
  | i, d :: rest => if nDenom &&& 2 ^ i ≠ 0 then d else amountFrom nDenom (i + 1) rest

def denominationToAmount (nDenom : Int) : Int :=
  if nDenom = 0 then 0
  else if nDenom ≥ 2 ^ standardDenominations.length ∨ nDenom < 0 then -1
  else if nDenom.toNat &&& (nDenom.toNat - 1) ≠ 0 then -2
  else amountFrom nDenom.toNat 0 standardDenominations

def isValidDenomination (nDenom : Int) : Bool :=
  decide (denominationToAmount nDenom > 0)

theorem denominationToAmount_amountToDenomination {v : Int} (h : amountToDenomination v ≠ 0) :
    denominationToAmount (amountToDenomination v) = v := by
  simp only [amountToDenomination, standardDenominations, denominationFrom] at h ⊢
  split_ifs at h ⊢ with h₁ h₂ h₃ h₄ h₅
  · rw [h₁]; rfl
  · rw [h₂]; rfl
  · rw [h₃]; rfl
  · rw [h₄]; rfl
  · rw [h₅]; rfl
  · exact absurd rfl h

theorem ne_zero_of_isValidDenomination {nDenom : Int} (h : isValidDenomination nDenom = true) : nDenom ≠ 0 := by
  rintro rfl
  cases h

/-! ### The order of BIP69 -/

/-- `CompareInputBIP69`: by the hash as a number, then by the index. -/
def compareInputBIP69 (a b : CTxIn) : Bool :=
  if a.prevout.hash = b.prevout.hash then decide (a.prevout.n < b.prevout.n)
  else decide (a.prevout.hash < b.prevout.hash)

/-- The loop of `prevector::operator<` over scripts of one size. -/
def bytesLt : CScript → CScript → Bool
  | x :: xs, y :: ys => if x < y then true else if y < x then false else bytesLt xs ys
  | _, _ => false

def scriptLt (a b : CScript) : Bool :=
  if a.length < b.length then true
  else if a.length > b.length then false
  else bytesLt a b

def compareOutputBIP69 (a b : CTxOut) : Bool :=
  decide (a.nValue < b.nValue) || (decide (a.nValue = b.nValue) && scriptLt a.scriptPubKey b.scriptPubKey)

def CMutableTransaction.sortBIP69 (tx : CMutableTransaction) : CMutableTransaction :=
  { tx with vin := sortBy compareInputBIP69 tx.vin, vout := sortBy compareOutputBIP69 tx.vout }

def inputKey (a : CTxIn) : ℕ ×ₗ ℕ :=
  toLex (a.prevout.hash.toNat, a.prevout.n.toNat)

theorem compareInputBIP69_iff (a b : CTxIn) : compareInputBIP69 a b = true ↔ inputKey a < inputKey b := by
  unfold compareInputBIP69 inputKey
  rw [Prod.Lex.toLex_lt_toLex]
  split_ifs with h
  · rw [decide_eq_true_eq, h]
    simp [BitVec.lt_def]
  · have hne : a.prevout.hash.toNat ≠ b.prevout.hash.toNat := fun he => h (BitVec.eq_of_toNat_eq he)
    simp [BitVec.lt_def, hne]

/-- The bytes as a number, the first one the most significant. -/
def beValue : CScript → ℕ
  | [] => 0
  | x :: xs => x.toNat * 256 ^ xs.length + beValue xs

theorem beValue_lt (s : CScript) : beValue s < 256 ^ s.length := by
  induction s with
  | nil => exact Nat.one_pos
  | cons x xs ih =>
    have hx := x.toNat_lt
    have hmul : (x.toNat + 1) * 256 ^ xs.length ≤ 256 * 256 ^ xs.length := Nat.mul_le_mul_right _ (by omega)
    rw [Nat.add_mul] at hmul
    rw [beValue, length_cons, pow_succ]
    omega

theorem bytesLt_iff {a b : CScript} (h : a.length = b.length) : bytesLt a b = true ↔ beValue a < beValue b := by
  induction a generalizing b with
  | nil =>
    cases b with
    | nil => simp [bytesLt, beValue]
    | cons y ys => cases h
  | cons x xs ih =>
    cases b with
    | nil => cases h
    | cons y ys =>
      have hlen : xs.length = ys.length := Nat.succ.inj h
      have hxs := beValue_lt xs
      have hys := beValue_lt ys
      rw [bytesLt, beValue, beValue, ← hlen]
      rw [← hlen] at hys
      split_ifs with hlt hgt
      · have hmul : (x.toNat + 1) * 256 ^ xs.length ≤ y.toNat * 256 ^ xs.length := Nat.mul_le_mul_right _ hlt
        rw [Nat.add_mul] at hmul
        simp only [true_iff]
        omega
      · have hmul : (y.toNat + 1) * 256 ^ xs.length ≤ x.toNat * 256 ^ xs.length := Nat.mul_le_mul_right _ hgt
        rw [Nat.add_mul] at hmul
        simp only [false_iff]
        omega
      · have heq : x.toNat = y.toNat := by
          have h₁ : ¬ x.toNat < y.toNat := hlt
          have h₂ : ¬ y.toNat < x.toNat := hgt
          omega
        rw [ih hlen, heq]
        omega

def outputKey (a : CTxOut) : Int ×ₗ ℕ ×ₗ ℕ :=
  toLex (a.nValue, toLex (a.scriptPubKey.length, beValue a.scriptPubKey))

theorem compareOutputBIP69_iff (a b : CTxOut) : compareOutputBIP69 a b = true ↔ outputKey a < outputKey b := by
  unfold compareOutputBIP69 outputKey scriptLt
  rw [Prod.Lex.toLex_lt_toLex, Prod.Lex.toLex_lt_toLex, Bool.or_eq_true, Bool.and_eq_true, decide_eq_true_eq,
    decide_eq_true_eq]
  split_ifs with hlt hgt
  · simp [hlt]
  · have hne : a.scriptPubKey.length ≠ b.scriptPubKey.length := by omega
    simp [hlt, hne]
  · have heq : a.scriptPubKey.length = b.scriptPubKey.length := by omega
    rw [bytesLt_iff heq]
    simp [heq]

theorem sortBIP69_sortBIP69 (tx : CMutableTransaction) : tx.sortBIP69.sortBIP69 = tx.sortBIP69 := by
  unfold CMutableTransaction.sortBIP69
  simp only [sortBy_sortBy compareInputBIP69_iff, sortBy_sortBy compareOutputBIP69_iff]

/-! ### Valid inputs and outputs -/

/-- `CCoinsViewMemPool` and the InstantSend locks. -/
structure CoinsView where
  getCoin : COutPoint → Option Coin
  /-- The coin has the height `MEMPOOL_HEIGHT`. -/
  inMempool : COutPoint → Bool
  /-- `CInstantSendManager::IsLocked`. -/
  isLocked : Uint256 → Bool

/-- A refusal: `nMessageIDRet` and `fConsumeCollateralRet`. -/
structure PoolError where
  nMessageID : PoolMessage
  fConsumeCollateral : Bool := false
  deriving DecidableEq

/-- `checkTxOut`, which returns the scripts that were seen so far. -/
def checkTxOut (nSessionDenom : Int) (setScripPubKeys : List CScript) (txout : CTxOut) :
    Except PoolError (List CScript) :=
  if amountToDenomination txout.nValue ≠ nSessionDenom then .error ⟨.errDenom, true⟩
  else if !txout.scriptPubKey.isPayToPublicKeyHash then .error ⟨.errInvalidScript, true⟩
  else if txout.scriptPubKey ∈ setScripPubKeys then .error ⟨.errAlreadyHave, true⟩
  else .ok (txout.scriptPubKey :: setScripPubKeys)

/-- The output an input spends, if it may be spent. -/
def spentOutput (view : CoinsView) (txin : CTxIn) : Except PoolError CTxOut :=
  if txin.prevout = {} then .error ⟨.errInvalidInput, true⟩
  else
    match view.getCoin txin.prevout with
    | none => .error ⟨.errMissingTx, false⟩
    | some coin =>
      if coin.isSpent || (view.inMempool txin.prevout && !view.isLocked txin.prevout.hash) then
        .error ⟨.errMissingTx, false⟩
      else .ok coin.out

def checkOutputs (nSessionDenom : Int) : List CTxOut → List CScript × Int → Except PoolError (List CScript × Int)
  | [], s => .ok s
  | txout :: vout, (setScripPubKeys, nFees) =>
    match checkTxOut nSessionDenom setScripPubKeys txout with
    | .error e => .error e
    | .ok setScripPubKeys => checkOutputs nSessionDenom vout (setScripPubKeys, nFees - txout.nValue)

def checkInputs (nSessionDenom : Int) (view : CoinsView) :
    List CTxIn → List CScript × Int → Except PoolError (List CScript × Int)
  | [], s => .ok s
  | txin :: vin, (setScripPubKeys, nFees) =>
    match spentOutput view txin with
    | .error e => .error e
    | .ok out =>
      match checkTxOut nSessionDenom setScripPubKeys out with
      | .error e => .error e
      | .ok setScripPubKeys => checkInputs nSessionDenom view vin (setScripPubKeys, nFees + out.nValue)

def isValidInOuts (nSessionDenom : Int) (view : CoinsView) (vin : List CTxIn) (vout : List CTxOut) :
    Except PoolError Unit :=
  if vin.length ≠ vout.length then .error ⟨.errSizeMismatch, true⟩
  else
    match checkOutputs nSessionDenom vout ([], 0) with
    | .error e => .error e
    | .ok s =>
      match checkInputs nSessionDenom view vin s with
      | .error e => .error e
      | .ok (_, nFees) => if nFees ≠ 0 then .error ⟨.errFees, false⟩ else .ok ()

section Valid

variable {nSessionDenom : Int} {view : CoinsView} {seen seen' : List CScript} {nFees nFees' : Int}

def Mixable (nSessionDenom : Int) (txout : CTxOut) : Prop :=
  amountToDenomination txout.nValue = nSessionDenom ∧ txout.scriptPubKey.isPayToPublicKeyHash = true

/-- The output an input spends; a null one if there is none. -/
def spentBy (view : CoinsView) (txin : CTxIn) : CTxOut :=
  match spentOutput view txin with
  | .error _ => ⟨-1, []⟩
  | .ok out => out

def valueOf (outs : List CTxOut) : Int :=
  (outs.map (·.nValue)).sum

theorem checkTxOut_eq_ok {txout : CTxOut} :
    checkTxOut nSessionDenom seen txout = .ok seen' ↔
      Mixable nSessionDenom txout ∧ txout.scriptPubKey ∉ seen ∧ seen' = txout.scriptPubKey :: seen := by
  unfold checkTxOut Mixable
  split_ifs with hdenom hscript hseen
  · simp [hdenom]
  · simp at hscript
    simp [hscript]
  · simp [hseen]
  · rw [Bool.not_eq_true, Bool.not_eq_false'] at hscript
    rw [not_not] at hdenom
    simp [hdenom, hscript, hseen, eq_comm]

theorem checkOutputs_eq_ok {vout : List CTxOut} :
    checkOutputs nSessionDenom vout (seen, nFees) = .ok (seen', nFees') ↔
      (∀ o ∈ vout, Mixable nSessionDenom o) ∧ (vout.map (·.scriptPubKey)).Nodup ∧
      (∀ o ∈ vout, o.scriptPubKey ∉ seen) ∧ seen' = (vout.map (·.scriptPubKey)).reverse ++ seen ∧
      nFees' = nFees - valueOf vout := by
  induction vout generalizing seen nFees with
  | nil => simp [checkOutputs, valueOf, eq_comm]
  | cons o vout ih =>
    rw [checkOutputs]
    cases hcheck : checkTxOut nSessionDenom seen o with
    | error e =>
      simp only [reduceCtorEq, false_iff, not_and]
      intro hmix _ hseen
      have hok := checkTxOut_eq_ok.mpr ⟨hmix o mem_cons_self, hseen o mem_cons_self, rfl⟩
      rw [hcheck] at hok
      cases hok
    | ok next =>
      obtain ⟨hmix, hnot, rfl⟩ := checkTxOut_eq_ok.mp hcheck
      rw [ih]
      simp only [mem_cons, forall_eq_or_imp, map_cons, nodup_cons, mem_map, not_exists, not_and,
        reverse_cons, append_assoc, singleton_append, valueOf, sum_cons, not_or]
      constructor
      · rintro ⟨hall, hnodup, hnew, hset, hfees⟩
        exact ⟨⟨hmix, hall⟩, ⟨fun x hx he => (hnew x hx).1 he, hnodup⟩, ⟨hnot, fun x hx => (hnew x hx).2⟩, hset,
          by omega⟩
      · rintro ⟨⟨-, hall⟩, ⟨hhead, hnodup⟩, ⟨-, hnew⟩, hset, hfees⟩
        exact ⟨hall, hnodup, fun x hx => ⟨hhead x hx, hnew x hx⟩, hset, by omega⟩

def Spendable (view : CoinsView) (txin : CTxIn) : Prop :=
  ∃ out, spentOutput view txin = .ok out

theorem spentBy_eq {txin : CTxIn} {out : CTxOut} (h : spentOutput view txin = .ok out) : spentBy view txin = out := by
  rw [spentBy, h]

/-- The inputs are checked as the outputs they spend, with the fees the other way. -/
theorem checkInputs_eq_ok {vin : List CTxIn} :
    checkInputs nSessionDenom view vin (seen, nFees) = .ok (seen', nFees') ↔
      (∀ i ∈ vin, Spendable view i) ∧
        checkOutputs nSessionDenom (vin.map (spentBy view)) (seen, -nFees) = .ok (seen', -nFees') := by
  induction vin generalizing seen nFees with
  | nil => simp [checkInputs, checkOutputs]
  | cons i vin ih =>
    rw [checkInputs, map_cons, checkOutputs]
    cases hspent : spentOutput view i with
    | error e =>
      simp only [reduceCtorEq, false_iff, not_and]
      intro hall
      obtain ⟨out, hout⟩ := hall i mem_cons_self
      rw [hspent] at hout
      cases hout
    | ok out =>
      rw [spentBy_eq hspent]
      dsimp only
      cases hcheck : checkTxOut nSessionDenom seen out with
      | error e => simp
      | ok next =>
        have hi : Spendable view i := ⟨out, hspent⟩
        rw [ih, forall_mem_cons, and_iff_right hi, neg_add, sub_eq_add_neg]

theorem isValidInOuts_iff {vin : List CTxIn} {vout : List CTxOut} :
    isValidInOuts nSessionDenom view vin vout = .ok () ↔
      vin.length = vout.length ∧ (∀ i ∈ vin, Spendable view i) ∧
      (∀ o ∈ vout ++ vin.map (spentBy view), Mixable nSessionDenom o) ∧
      ((vout ++ vin.map (spentBy view)).map (·.scriptPubKey)).Nodup ∧
      valueOf vout = valueOf (vin.map (spentBy view)) := by
  by_cases hlen : vin.length = vout.length
  swap
  · simp [isValidInOuts, hlen]
  have hchecks : isValidInOuts nSessionDenom view vin vout = .ok () ↔
      ∃ seen nFees, checkOutputs nSessionDenom vout ([], 0) = .ok (seen, nFees) ∧
        ∃ seen', checkInputs nSessionDenom view vin (seen, nFees) = .ok (seen', 0) := by
    rw [isValidInOuts, if_neg (not_not.mpr hlen)]
    rcases checkOutputs nSessionDenom vout ([], 0) with e | ⟨seen, nFees⟩
    · simp
    · rcases hin : checkInputs nSessionDenom view vin (seen, nFees) with e | ⟨seen', nFees'⟩ <;> simp [hin]
  rw [hchecks, and_iff_right hlen]
  simp only [checkOutputs_eq_ok, checkInputs_eq_ok, forall_mem_append, map_append, nodup_append]
  generalize vin.map (spentBy view) = spent
  constructor
  · rintro ⟨_, _, ⟨hmix, hnodup, -, rfl, rfl⟩, _, hspend, hmix', hnodup', hnew, -, hfees⟩
    refine ⟨hspend, ⟨hmix, hmix'⟩, ⟨hnodup, hnodup', fun a ha b hb he => ?_⟩, by omega⟩
    obtain ⟨o, ho, rfl⟩ := mem_map.mp hb
    exact hnew o ho (by simpa [← he] using ha)
  · rintro ⟨hspend, ⟨hmix, hmix'⟩, ⟨hnodup, hnodup', hdisjoint⟩, hvalue⟩
    refine ⟨_, _, ⟨hmix, hnodup, fun o _ => not_mem_nil, rfl, rfl⟩, _,
      hspend, hmix', hnodup', fun o ho hmem => ?_, rfl, by omega⟩
    exact hdisjoint _ (by simpa using hmem) _ (mem_map_of_mem ho) rfl

theorem isValidInOuts_perm {vin vin' : List CTxIn} {vout vout' : List CTxOut} (hin : vin.Perm vin')
    (hout : vout.Perm vout') :
    isValidInOuts nSessionDenom view vin vout = .ok () ↔ isValidInOuts nSessionDenom view vin' vout' = .ok () := by
  have hall := hout.append (hin.map (spentBy view))
  rw [isValidInOuts_iff, isValidInOuts_iff, hin.length_eq, hout.length_eq, (hall.map _).nodup_iff]
  have hsum : valueOf vout = valueOf vout' := (hout.map _).sum_eq
  have hsum' : valueOf (vin.map (spentBy view)) = valueOf (vin'.map (spentBy view)) :=
    ((hin.map _).map _).sum_eq
  rw [hsum, hsum']
  simp only [hin.mem_iff, hall.mem_iff]

end Valid

end OmegaCore.CoinJoin
