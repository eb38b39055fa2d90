import Mathlib.Algebra.BigOperators.Group.List.Lemmas
import Mathlib.Algebra.Order.BigOperators.Group.List
import OmegaCore.Evo.Chain
import OmegaCore.Util.OrderedMatch

/-!
Superblocks.  A trigger is a governance object with a list of payments for one block
height.  The votes of the masternodes decide whether a superblock is triggered and which
trigger is the best one.  The check of a coinbase finds its payments in order, but equal
neighbours in one output.
-/

namespace OmegaCore

/-- `MAX_MONEY`, in base units. -/
def maxMoney : Int := 21000000 * coin

def moneyRange (nValue : Int) : Bool :=
  decide (nValue ≥ 0) && decide (nValue ≤ maxMoney)

end OmegaCore

namespace OmegaCore.Evo

/-- The loop of `GetValueOut`, which throws if an amount is out of range. -/
def addValues (nValueOut : Int) : List CTxOut → Except String Int
  | [] => .ok nValueOut
  | txOut :: vout =>
    if !moneyRange txOut.nValue || !moneyRange (nValueOut + txOut.nValue) then
      .error "GetValueOut: value out of range"
    else addValues (nValueOut + txOut.nValue) vout

def CTransaction.getValueOut (tx : CTransaction) : Except String Int :=
  addValues 0 tx.vout

end OmegaCore.Evo

namespace OmegaCore.Governance

open Util Evo

structure BudgetEnv extends Env where
  nBudgetPaymentsStartBlock : Int
  nBudgetPaymentsCycleBlocks : Int
  nBudgetPaymentsWindowBlocks : Int
  nSuperblockStartBlock : Int
  nGovernanceMinQuorum : Int
  /-- `GetBlockSubsidy` of a previous height for the superblock part, with the bits `GetPaymentsLimit` uses. -/
  superblockPart : Int → Int
  superblockPart_nonneg : ∀ nPrevHeight, 0 ≤ superblockPart nPrevHeight
  nSuperblockCycle_pos : 0 < params.nSuperblockCycle
  /-- Superblocks replace the old budgets. -/
  budgetsFirst : nBudgetPaymentsStartBlock ≤ nSuperblockStartBlock

/-- The parts of the node that payments depend on, besides the governance objects. -/
structure Node where
  /-- `GetListAtChainTip`. -/
  listAtChainTip : CDeterministicMNList
  /-- `::ChainActive()`. -/
  chainActive : Int → CBlockIndex
  /-- `GetListForBlock`. -/
  getListForBlock : CBlockIndex → CDeterministicMNList
  /-- `SPORK_9_SUPERBLOCKS_ENABLED`. -/
  areSuperblocksEnabled : Bool
  /-- `CMasternodeSync::IsSynced`. -/
  isSynced : Bool
  fDisableGovernance : Bool
  adjustedTime : Int

/-! ### Votes -/

inductive VoteOutcome where
  | none | yes | no | abstain
  deriving DecidableEq, Repr

inductive VoteSignal where
  | none | funding | valid | delete | endorsed
  deriving DecidableEq, Repr

structure VoteInstance where
  eOutcome : VoteOutcome := .none
  nTime : Int := 0
  nCreationTime : Int := 0
  deriving DecidableEq, Repr

/-- The votes of a masternode on an object, one for each signal. -/
structure VoteRec where
  mapInstances : VoteSignal → Option VoteInstance

structure CGovernanceObject where
  mapCurrentMNVotes : Map COutPoint VoteRec := ∅
  nDeletionTime : Int := 0
  fCachedFunding : Bool := false
  fCachedValid : Bool := true
  fCachedDelete : Bool := false
  fCachedEndorsed : Bool := false
  fDirtyCache : Bool := true

section Votes

variable (E : BudgetEnv) (node : Node)

namespace CGovernanceObject

variable (obj : CGovernanceObject) (eVoteSignal : VoteSignal)

/-- The weight of the votes with an outcome, of masternodes that are in the list. -/
def countMatchingVotes (eVoteOutcome : VoteOutcome) : ℕ :=
  obj.mapCurrentMNVotes.toList.foldl (fun nCount votepair =>
      match votepair.2.mapInstances eVoteSignal with
      | some vote =>
        if vote.eOutcome = eVoteOutcome then
          match node.listAtChainTip.getMNByCollateral E.toCodec votepair.1 with
          | some dmn => nCount + dmn.nType.params.votingWeight
          | none => nCount
        else nCount
      | none => nCount)
    0

def getAbsoluteYesCount : Int :=
  obj.countMatchingVotes E node eVoteSignal .yes - obj.countMatchingVotes E node eVoteSignal .no

def getAbsoluteNoCount : Int :=
  obj.countMatchingVotes E node eVoteSignal .no - obj.countMatchingVotes E node eVoteSignal .yes

/-- Recompute the flags of an object.  Without valid masternodes they stay as they are. -/
def updateSentinelVariables : CGovernanceObject :=
  let nWeightedMnCount : Int := node.listAtChainTip.getValidWeightedMNsCount
  if nWeightedMnCount = 0 then obj
  else
    let nAbsVoteReq := max E.nGovernanceMinQuorum (nWeightedMnCount / 10)
    let nAbsDeleteReq := max E.nGovernanceMinQuorum (2 * nWeightedMnCount / 3)
    let deleted := decide (obj.getAbsoluteYesCount E node .delete ≥ nAbsDeleteReq) && !obj.fCachedDelete
    { obj with
      fCachedFunding := decide (obj.getAbsoluteYesCount E node .funding ≥ nAbsVoteReq)
      fCachedDelete := obj.fCachedDelete || deleted
      nDeletionTime := if deleted && obj.nDeletionTime = 0 then node.adjustedTime else obj.nDeletionTime
      fCachedEndorsed := decide (obj.getAbsoluteYesCount E node .endorsed ≥ nAbsVoteReq)
      fCachedValid := !decide (obj.getAbsoluteNoCount E node .valid ≥ nAbsVoteReq)
      fDirtyCache := false }

end CGovernanceObject

end Votes

/-! ### Superblocks -/

/-- A payment of a trigger.  Its amount has passed `ParsePaymentAmount`. -/
structure CGovernancePayment where
  script : CScript
  nAmount : Int
  inRange : moneyRange nAmount = true
  deriving DecidableEq

/-- `CTxOut(payment.nAmount, payment.script)`. -/
def CGovernancePayment.txOut (payment : CGovernancePayment) : CTxOut :=
  ⟨payment.nAmount, payment.script⟩

structure CSuperblock where
  nGovObjHash : Uint256
  nBlockHeight : Int
  vecPayments : List CGovernancePayment
  deriving DecidableEq

section Superblocks

variable (E : BudgetEnv)

namespace CSuperblock

/-- Superblocks happen after the fork and once in a cycle. -/
def isValidBlockHeight (nBlockHeight : Int) : Bool :=
  decide (nBlockHeight ≥ E.nSuperblockStartBlock) && decide (nBlockHeight.tmod E.params.nSuperblockCycle = 0)

def getPaymentsLimit (nBlockHeight : Int) : Int :=
  if isValidBlockHeight E nBlockHeight then E.superblockPart (nBlockHeight - 1) * E.params.nSuperblockCycle
  else 0

def getPaymentsTotalAmount (sb : CSuperblock) : Int :=
  (sb.vecPayments.map (·.nAmount)).sum

def paymentMatch (payment : CGovernancePayment) (txOut : CTxOut) : Bool :=
  payment.script == txOut.scriptPubKey && payment.nAmount == txOut.nValue

/-- Whether a coinbase has the payments of the superblock.  The search for a payment begins at the output
of the last one. -/
def isValid (sb : CSuperblock) (txNew : CTransaction) (nBlockHeight : Int) (blockReward : Int) : Except String Bool :=
  let nOutputs : Int := txNew.vout.length
  let nPayments : Int := sb.vecPayments.length
  let nMinerAndMasternodePayments := nOutputs - nPayments
  let nPaymentsTotalAmount := sb.getPaymentsTotalAmount
  if !isValidBlockHeight E nBlockHeight then .ok false
  else if nMinerAndMasternodePayments < 0 then .ok false
  else if nPaymentsTotalAmount > getPaymentsLimit E nBlockHeight then .ok false
  else
    match txNew.getValueOut with
    | .error e => .error e
    | .ok nBlockValue =>
      if nBlockValue > blockReward + nPaymentsTotalAmount then .ok false
      else .ok (matchFrom paymentMatch txNew.vout sb.vecPayments 0)

end CSuperblock

end Superblocks

/-! ### The trigger manager -/

/-- The governance objects and the triggers among them. -/
structure CGovernanceManager where
  mapObjects : Map Uint256 CGovernanceObject
  mapTrigger : Map Uint256 CSuperblock

section Triggers

variable (E : BudgetEnv) (node : Node)

namespace CGovernanceManager

variable (g : CGovernanceManager) (nBlockHeight : Int)

def findGovernanceObject (nHash : Uint256) : Option CGovernanceObject :=
  g.mapObjects[nHash]?

def getActiveTriggers : List CSuperblock :=
  g.mapTrigger.toList.filterMap fun pair =>
    if (g.findGovernanceObject pair.1).isSome then some pair.2 else none

/-- The loop of `IsSuperblockTriggered`, which updates the flags of the objects it looks at. -/
def findTriggered (nBlockHeight : Int) (g : CGovernanceManager) : List CSuperblock → Bool × CGovernanceManager
  | [] => (false, g)
  | pSuperblock :: rest =>
    match g.findGovernanceObject pSuperblock.nGovObjHash with
    | none => findTriggered nBlockHeight g rest
    | some pObj =>
      if nBlockHeight ≠ pSuperblock.nBlockHeight then findTriggered nBlockHeight g rest
      else
        let pObj := pObj.updateSentinelVariables E node
        let g := { g with mapObjects := g.mapObjects.insert pSuperblock.nGovObjHash pObj }
        if pObj.fCachedFunding then (true, g) else findTriggered nBlockHeight g rest

def isSuperblockTriggered : Bool × CGovernanceManager :=
  if !CSuperblock.isValidBlockHeight E nBlockHeight then (false, g)
  else g.findTriggered E node nBlockHeight g.getActiveTriggers

/-- A trigger for the height wins if it has more votes than the best one before it. -/
def betterTrigger (best : Int × Option CSuperblock) (pSuperblock : CSuperblock) : Int × Option CSuperblock :=
  if nBlockHeight ≠ pSuperblock.nBlockHeight then best
  else
    match g.findGovernanceObject pSuperblock.nGovObjHash with
    | none => best
    | some pObj =>
      let nTempYesCount := pObj.getAbsoluteYesCount E node .funding
      if nTempYesCount > best.1 then (nTempYesCount, some pSuperblock) else best

def getBestSuperblock : Option CSuperblock :=
  if !CSuperblock.isValidBlockHeight E nBlockHeight then none
  else
    let best := g.getActiveTriggers.foldl (g.betterTrigger E node nBlockHeight) (0, none)
    if best.1 > 0 then best.2 else none

def getSuperblockPayments : Option (List CTxOut) :=
  (g.getBestSuperblock E node nBlockHeight).map fun pSuperblock =>
    pSuperblock.vecPayments.map CGovernancePayment.txOut

def isValid (txNew : CTransaction) (nBlockHeight : Int) (blockReward : Int) : Except String Bool :=
  match g.getBestSuperblock E node nBlockHeight with
  | some pSuperblock => pSuperblock.isValid E txNew nBlockHeight blockReward
  | none => .ok false

end CGovernanceManager

end Triggers

/-! ### The search for a triggered superblock

The search for a triggered superblock changes the flags of governance objects, but
neither the triggers nor the votes.  The best trigger is the same after it.
-/

open Option

variable {E : BudgetEnv} {node : Node} {g g' g₁ : CGovernanceManager} {nBlockHeight : Int}

namespace CGovernanceObject

theorem updateSentinelVariables_votes (obj : CGovernanceObject) :
    (obj.updateSentinelVariables E node).mapCurrentMNVotes = obj.mapCurrentMNVotes := by
  unfold updateSentinelVariables
  dsimp only
  split_ifs <;> rfl

theorem getAbsoluteYesCount_congr {obj obj' : CGovernanceObject}
    (h : obj'.mapCurrentMNVotes = obj.mapCurrentMNVotes) (eVoteSignal : VoteSignal) :
    obj'.getAbsoluteYesCount E node eVoteSignal = obj.getAbsoluteYesCount E node eVoteSignal := by
  simp only [getAbsoluteYesCount, countMatchingVotes, h]

end CGovernanceObject

namespace CGovernanceManager

def votesOn (g : CGovernanceManager) (nHash : Uint256) : Option (Map COutPoint VoteRec) :=
  (g.findGovernanceObject nHash).map (·.mapCurrentMNVotes)

/-- The managers have the same triggers, objects and votes. -/
structure SameVotes (g g' : CGovernanceManager) : Prop where
  mapTrigger : g'.mapTrigger = g.mapTrigger
  votesOn : g'.votesOn = g.votesOn

theorem SameVotes.refl (g : CGovernanceManager) : SameVotes g g :=
  ⟨rfl, rfl⟩

theorem SameVotes.trans (h₁ : SameVotes g g₁) (h₂ : SameVotes g₁ g') : SameVotes g g' :=
  ⟨h₂.mapTrigger.trans h₁.mapTrigger, h₂.votesOn.trans h₁.votesOn⟩

theorem sameVotes_update {nHash : Uint256} {pObj : CGovernanceObject} (h : g.findGovernanceObject nHash = some pObj) :
    SameVotes g { g with mapObjects := g.mapObjects.insert nHash (pObj.updateSentinelVariables E node) } := by
  refine ⟨rfl, funext fun hash => ?_⟩
  unfold CGovernanceManager.votesOn findGovernanceObject
  dsimp only
  rw [Map.get_insert]
  split_ifs with heq
  · rw [heq]
    unfold findGovernanceObject at h
    rw [h, map_some, map_some, CGovernanceObject.updateSentinelVariables_votes]
  · rfl

theorem findTriggered_sameVotes (g : CGovernanceManager) (triggers : List CSuperblock) :
    SameVotes g (g.findTriggered E node nBlockHeight triggers).2 := by
  induction triggers generalizing g with
  | nil => exact .refl g
  | cons pSuperblock rest ih =>
    unfold findTriggered
    split
    · exact ih g
    · next pObj hfound =>
      dsimp only
      split_ifs
      · exact ih g
      · exact sameVotes_update hfound
      · exact (sameVotes_update hfound).trans (ih _)

theorem isSuperblockTriggered_sameVotes (E : BudgetEnv) (node : Node) (g : CGovernanceManager) (nBlockHeight : Int) :
    SameVotes g (g.isSuperblockTriggered E node nBlockHeight).2 := by
  unfold isSuperblockTriggered
  split_ifs
  · exact .refl g
  · exact findTriggered_sameVotes g _

/-! ### The best trigger -/

section

variable (h : SameVotes g g')

include h

theorem SameVotes.isSome_find (nHash : Uint256) :
    (g'.findGovernanceObject nHash).isSome = (g.findGovernanceObject nHash).isSome := by
  have hvotes := congrArg isSome (congrFun h.votesOn nHash)
  rwa [CGovernanceManager.votesOn, CGovernanceManager.votesOn, isSome_map, isSome_map] at hvotes

theorem SameVotes.getActiveTriggers : g'.getActiveTriggers = g.getActiveTriggers := by
  unfold CGovernanceManager.getActiveTriggers
  rw [h.mapTrigger]
  congr 1
  funext pair
  rw [h.isSome_find]

theorem SameVotes.betterTrigger : g'.betterTrigger E node nBlockHeight = g.betterTrigger E node nBlockHeight := by
  funext best pSuperblock
  have hvotes := congrFun h.votesOn pSuperblock.nGovObjHash
  unfold CGovernanceManager.betterTrigger
  unfold CGovernanceManager.votesOn at hvotes
  cases hfound : g.findGovernanceObject pSuperblock.nGovObjHash with
  | none =>
    rw [hfound, map_none, map_eq_none_iff] at hvotes
    rw [hvotes]
  | some pObj =>
    rw [hfound, map_some, map_eq_some_iff] at hvotes
    obtain ⟨pObj', hfound', hsame⟩ := hvotes
    rw [hfound']
    dsimp only
    rw [CGovernanceObject.getAbsoluteYesCount_congr hsame]

theorem SameVotes.getBestSuperblock :
    g'.getBestSuperblock E node nBlockHeight = g.getBestSuperblock E node nBlockHeight := by
  unfold CGovernanceManager.getBestSuperblock
  rw [h.getActiveTriggers, h.betterTrigger]

theorem SameVotes.isValid (txNew : CTransaction) (blockReward : Int) :
    g'.isValid E node txNew nBlockHeight blockReward = g.isValid E node txNew nBlockHeight blockReward := by
  unfold CGovernanceManager.isValid
  rw [h.getBestSuperblock]

end

theorem isValidBlockHeight_of_triggered (h : (g.isSuperblockTriggered E node nBlockHeight).1 = true) :
    CSuperblock.isValidBlockHeight E nBlockHeight = true := by
  unfold isSuperblockTriggered at h
  cases hheight : CSuperblock.isValidBlockHeight E nBlockHeight with
  | true => rfl
  | false => simp [hheight] at h

theorem le_of_isValidBlockHeight (h : CSuperblock.isValidBlockHeight E nBlockHeight = true) :
    E.nSuperblockStartBlock ≤ nBlockHeight := by
  simp only [CSuperblock.isValidBlockHeight, Bool.and_eq_true, decide_eq_true_eq] at h
  exact h.1

end CGovernanceManager

end OmegaCore.Governance

namespace OmegaCore.Governance

open Util Evo List

variable {E : BudgetEnv} {sb : CSuperblock} {txNew : CTransaction} {nBlockHeight : Int}
variable {blockReward : Int} {vout : List CTxOut}

/-! ### Sums of outputs -/

def valueOf (vout : List CTxOut) : Int :=
  (vout.map (·.nValue)).sum

@[simp]
theorem valueOf_nil : valueOf [] = 0 :=
  rfl

@[simp]
theorem valueOf_cons (o : CTxOut) (vout : List CTxOut) : valueOf (o :: vout) = o.nValue + valueOf vout := by
  simp [valueOf]

@[simp]
theorem valueOf_append (vout vout' : List CTxOut) : valueOf (vout ++ vout') = valueOf vout + valueOf vout' := by
  simp [valueOf]

theorem valueOf_perm {vout' : List CTxOut} (h : vout.Perm vout') : valueOf vout = valueOf vout' :=
  (h.map _).sum_eq

theorem valueOf_nonneg (h : ∀ o ∈ vout, 0 ≤ o.nValue) : 0 ≤ valueOf vout := by
  refine sum_nonneg fun v hv => ?_
  obtain ⟨o, ho, rfl⟩ := mem_map.mp hv
  exact h o ho

theorem valueOf_le_of_subperm {vout' : List CTxOut} (h : vout.Subperm vout') (hpos : ∀ o ∈ vout', 0 ≤ o.nValue) :
    valueOf vout ≤ valueOf vout' := by
  obtain ⟨part, hperm, hsub⟩ := h
  rw [← valueOf_perm hperm]
  refine (hsub.map _).sum_le_sum fun v hv => ?_
  obtain ⟨o, ho, rfl⟩ := mem_map.mp hv
  exact hpos o ho

theorem moneyRange_iff {v : Int} : moneyRange v = true ↔ 0 ≤ v ∧ v ≤ maxMoney := by
  simp [moneyRange]

theorem addValues_eq_ok {acc v : Int} (hacc : moneyRange acc = true) :
    addValues acc vout = .ok v ↔ (∀ o ∈ vout, 0 ≤ o.nValue) ∧ v = acc + valueOf vout ∧ v ≤ maxMoney := by
  induction vout generalizing acc with
  | nil =>
    have hle := (moneyRange_iff.mp hacc).2
    simp only [addValues, Except.ok.injEq, valueOf_nil, add_zero, not_mem_nil, false_implies, implies_true,
      true_and]
    omega
  | cons o vout ih =>
    rw [addValues, forall_mem_cons, valueOf_cons]
    have hacc := moneyRange_iff.mp hacc
    split_ifs with hrange
    · -- an output or a partial sum out of range keeps the sum out of range
      simp only [false_iff, not_and]
      rintro ⟨ho, hpos⟩ hv hle
      have hrest := valueOf_nonneg hpos
      simp only [Bool.or_eq_true, Bool.not_eq_true', ← Bool.not_eq_true, moneyRange_iff] at hrange
      omega
    · simp only [Bool.or_eq_true, Bool.not_eq_true', ← Bool.not_eq_true, moneyRange_iff, not_or, not_not] at hrange
      rw [ih (moneyRange_iff.mpr hrange.2), add_assoc]
      exact ⟨fun h => ⟨⟨hrange.1.1, h.1⟩, h.2⟩, fun h => ⟨h.1.2, h.2⟩⟩

theorem getValueOut_eq_ok {v : Int} :
    txNew.getValueOut = .ok v ↔ (∀ o ∈ txNew.vout, 0 ≤ o.nValue) ∧ v = valueOf txNew.vout ∧ v ≤ maxMoney := by
  rw [CTransaction.getValueOut, addValues_eq_ok (by decide), zero_add]

/-! ### The payments of a trigger -/

namespace CGovernancePayment

theorem txOut_nonneg (payment : CGovernancePayment) : 0 ≤ payment.txOut.nValue :=
  (moneyRange_iff.mp payment.inRange).1

theorem paymentMatch_iff (payment : CGovernancePayment) (txOut : CTxOut) :
    CSuperblock.paymentMatch payment txOut = true ↔ payment.txOut = txOut := by
  cases txOut
  simp [CSuperblock.paymentMatch, CGovernancePayment.txOut, and_comm]

end CGovernancePayment

namespace CSuperblock

def outputs (sb : CSuperblock) : List CTxOut :=
  sb.vecPayments.map CGovernancePayment.txOut

/-- The outputs the check looks for: equal neighbours are found in one place. -/
def distinctOutputs (sb : CSuperblock) : List CTxOut :=
  sb.outputs.destutter (· ≠ ·)

theorem outputs_nonneg (sb : CSuperblock) : ∀ o ∈ sb.outputs, 0 ≤ o.nValue := by
  intro o ho
  obtain ⟨payment, -, rfl⟩ := mem_map.mp ho
  exact payment.txOut_nonneg

theorem valueOf_outputs (sb : CSuperblock) : valueOf sb.outputs = sb.getPaymentsTotalAmount := by
  rw [valueOf, outputs, map_map]
  rfl

theorem distinctOutputs_sublist (sb : CSuperblock) : sb.distinctOutputs.Sublist sb.outputs :=
  destutter_sublist _ _

theorem getPaymentsLimit_nonneg (E : BudgetEnv) (nBlockHeight : Int) : 0 ≤ getPaymentsLimit E nBlockHeight := by
  unfold getPaymentsLimit
  split_ifs
  · exact Int.mul_nonneg (E.superblockPart_nonneg _) E.nSuperblockCycle_pos.le
  · exact le_refl 0

theorem isValid_iff :
    sb.isValid E txNew nBlockHeight blockReward = .ok true ↔
      isValidBlockHeight E nBlockHeight = true ∧ sb.vecPayments.length ≤ txNew.vout.length ∧
      sb.getPaymentsTotalAmount ≤ getPaymentsLimit E nBlockHeight ∧
      (∀ o ∈ txNew.vout, 0 ≤ o.nValue) ∧ valueOf txNew.vout ≤ maxMoney ∧
      valueOf txNew.vout ≤ blockReward + sb.getPaymentsTotalAmount ∧
      sb.distinctOutputs.Sublist txNew.vout := by
  have hmatch : matchFrom paymentMatch txNew.vout sb.vecPayments 0 = true ↔ sb.distinctOutputs.Sublist txNew.vout :=
    matchFrom_iff CGovernancePayment.paymentMatch_iff
  unfold isValid
  dsimp only
  split_ifs with hheight hcount hlimit
  · simp_all
  · simp only [Except.ok.injEq, Bool.false_eq_true, false_iff]
    rintro ⟨-, h, -⟩
    omega
  · simp only [Except.ok.injEq, Bool.false_eq_true, false_iff]
    rintro ⟨-, -, h, -⟩
    omega
  · cases hvalue : txNew.getValueOut with
    | error e =>
      simp only [reduceCtorEq, false_iff]
      rintro ⟨-, -, -, hpos, hmoney, -⟩
      rw [getValueOut_eq_ok.mpr ⟨hpos, rfl, hmoney⟩] at hvalue
      cases hvalue
    | ok v =>
      obtain ⟨hpos, rfl, hmoney⟩ := getValueOut_eq_ok.mp hvalue
      dsimp only
      split_ifs with hblock
      · simp only [Except.ok.injEq, Bool.false_eq_true, false_iff]
        rintro ⟨-, -, -, -, -, h, -⟩
        omega
      · simp only [Except.ok.injEq, hmatch]
        refine ⟨fun h => ⟨by simpa using hheight, by omega, by omega, hpos, hmoney, by omega, h⟩, ?_⟩
        exact fun h => h.2.2.2.2.2.2

/-! ### Outputs of their own -/

/-- The payments are assigned, in order, to different outputs with their scripts and amounts. -/
def OwnOutputs (sb : CSuperblock) (vout : List CTxOut) : Prop :=
  ∃ position : Fin sb.vecPayments.length ↪o Fin vout.length, ∀ i,
    (vout.get (position i)).scriptPubKey = (sb.vecPayments.get i).script ∧
      (vout.get (position i)).nValue = (sb.vecPayments.get i).nAmount

theorem ownOutputs_iff : sb.OwnOutputs vout ↔ sb.outputs.Sublist vout := by
  have hlength : sb.outputs.length = sb.vecPayments.length := by rw [outputs, length_map]
  have hget (i : Fin sb.outputs.length) : sb.outputs.get i = (sb.vecPayments.get (Fin.cast hlength i)).txOut := by
    rw [get_eq_getElem, get_eq_getElem]
    exact getElem_map CGovernancePayment.txOut
  rw [sublist_iff_exists_fin_orderEmbedding_get_eq]
  constructor
  · rintro ⟨position, h⟩
    refine ⟨(Fin.castOrderIso hlength).toOrderEmbedding.trans position, fun i => ?_⟩
    obtain ⟨hscript, hamount⟩ := h (Fin.cast hlength i)
    rw [hget, CGovernancePayment.txOut, ← hscript, ← hamount]
    rfl
  · rintro ⟨position, h⟩
    refine ⟨(Fin.castOrderIso hlength.symm).toOrderEmbedding.trans position, fun i => ?_⟩
    have hi : (sb.vecPayments.get i).txOut = vout.get (position (Fin.cast hlength.symm i)) := by
      rw [← h, hget]
      rfl
    exact ⟨(congrArg CTxOut.scriptPubKey hi).symm, (congrArg CTxOut.nValue hi).symm⟩

/-- A coinbase for the payments can be accepted at all. -/
structure Payable (E : BudgetEnv) (sb : CSuperblock) (nBlockHeight : Int) (blockReward : Int) : Prop where
  height : isValidBlockHeight E nBlockHeight = true
  limit : sb.getPaymentsTotalAmount ≤ getPaymentsLimit E nBlockHeight
  money : valueOf sb.distinctOutputs ≤ maxMoney
  reward : valueOf sb.distinctOutputs ≤ blockReward + sb.getPaymentsTotalAmount

theorem payable_of_isValid (h : sb.isValid E txNew nBlockHeight blockReward = .ok true) :
    Payable E sb nBlockHeight blockReward := by
  obtain ⟨hheight, -, hlimit, hpos, hmoney, hreward, hsub⟩ := isValid_iff.mp h
  have hvalue := valueOf_le_of_subperm hsub.subperm hpos
  exact ⟨hheight, hlimit, by omega, by omega⟩

theorem exists_fresh_script (vout : List CTxOut) : ∃ script : CScript, ∀ o ∈ vout, o.scriptPubKey ≠ script := by
  obtain ⟨script, hfresh⟩ := Infinite.exists_notMem_finset (vout.map (·.scriptPubKey)).toFinset
  refine ⟨script, fun o ho heq => hfresh ?_⟩
  rw [mem_toFinset]
  exact mem_map.mpr ⟨o, ho, heq⟩

theorem exists_fillers (vout : List CTxOut) (n : ℕ) :
    ∃ fillers : List CTxOut, fillers.length = n ∧ valueOf fillers = 0 ∧ (∀ o ∈ fillers, 0 ≤ o.nValue) ∧
      List.Disjoint vout fillers := by
  obtain ⟨script, hfresh⟩ := exists_fresh_script vout
  refine ⟨replicate n ⟨0, script⟩, length_replicate, ?_, ?_, ?_⟩
  · simp [valueOf]
  · intro o ho
    rw [eq_of_mem_replicate ho]
  · intro o ho hfiller
    rw [eq_of_mem_replicate hfiller] at ho
    exact hfresh _ ho rfl

/-- The outputs the check looks for, filled up to the number of payments, are accepted. -/
theorem Payable.isValid_filled (h : Payable E sb nBlockHeight blockReward) {fillers : List CTxOut}
    (hlength : fillers.length = sb.vecPayments.length) (hzero : valueOf fillers = 0)
    (hpos : ∀ o ∈ fillers, 0 ≤ o.nValue) (hash : Uint256) :
    sb.isValid E { hash := hash, vout := sb.distinctOutputs ++ fillers } nBlockHeight blockReward = .ok true := by
  have hvalue : valueOf (sb.distinctOutputs ++ fillers) = valueOf sb.distinctOutputs := by
    rw [valueOf_append, hzero, add_zero]
  refine isValid_iff.mpr ⟨h.height, ?_, h.limit, ?_, ?_, ?_, sublist_append_left _ _⟩
  · rw [length_append]
    omega
  · intro o ho
    rcases mem_append.mp ho with ho | ho
    · exact sb.outputs_nonneg o (sb.distinctOutputs_sublist.subset ho)
    · exact hpos o ho
  · rw [hvalue]
    exact h.money
  · rw [hvalue]
    exact h.reward

/-- In every accepted coinbase the payments have outputs of their own, exactly if no two neighbours among
them are equal or no coinbase is accepted. -/
theorem isValid_ownOutputs_iff (E : BudgetEnv) (sb : CSuperblock) (nBlockHeight : Int) (blockReward : Int) :
    (∀ txNew : CTransaction, sb.isValid E txNew nBlockHeight blockReward = .ok true → sb.OwnOutputs txNew.vout) ↔
      (Payable E sb nBlockHeight blockReward → sb.outputs.IsChain (· ≠ ·)) := by
  constructor
  · intro h hpayable
    obtain ⟨fillers, hlength, hzero, hpos, hdisjoint⟩ := exists_fillers sb.outputs sb.vecPayments.length
    have hsub := ownOutputs_iff.mp (h _ (hpayable.isValid_filled hlength hzero hpos 0))
    -- the fillers match no payment, so the payments are among the outputs without repeated neighbours
    have hdistinct : sb.outputs.Sublist sb.distinctOutputs := by
      obtain ⟨front, back, heq, hfront, hback⟩ := sublist_append_iff.mp hsub
      have hnil : back = [] := by
        refine eq_nil_iff_forall_not_mem.mpr fun o ho => hdisjoint ?_ (hback.subset ho)
        rw [heq]
        exact mem_append_right _ ho
      rw [heq, hnil, append_nil]
      exact hfront
    exact (destutter_eq_self_iff _ _).mp (sb.distinctOutputs_sublist.antisymm hdistinct)
  · intro h txNew hvalid
    rw [ownOutputs_iff, ← destutter_of_isChain _ _ (h (payable_of_isValid hvalid))]
    exact (isValid_iff.mp hvalid).2.2.2.2.2.2

/-- A devnet with superblocks from height 4200 on. -/
def devnetBudget : BudgetEnv :=
  { sampleEnv with
    nBudgetPaymentsStartBlock := 4100
    nBudgetPaymentsCycleBlocks := 50
    nBudgetPaymentsWindowBlocks := 10
    nSuperblockStartBlock := 4200
    nGovernanceMinQuorum := 1
    superblockPart := fun _ => 3 * coin / 2
    superblockPart_nonneg := fun _ => by decide
    nSuperblockCycle_pos := by decide
    budgetsFirst := by decide }

def samplePayment : CGovernancePayment where
  script := sampleScript
  nAmount := 10 * coin
  inRange := by decide

/-- A trigger that pays the same amount twice to one script. -/
def repeatedTrigger : CSuperblock where
  nGovObjHash := 30
  nBlockHeight := 4200
  vecPayments := [samplePayment, samplePayment]

def onePaid : CTransaction where
  hash := 31
  vout := [⟨27 * coin / 2, [0x51]⟩, samplePayment.txOut]

/-- A coinbase with one of two equal payments is accepted. -/
theorem isValid_ownOutputs_fails :
    repeatedTrigger.isValid devnetBudget onePaid 4200 (27 * coin / 2) = .ok true ∧
      ¬ repeatedTrigger.OwnOutputs onePaid.vout := by
  refine ⟨by decide +kernel, ?_⟩
  rw [ownOutputs_iff]
  decide +kernel

end CSuperblock

end OmegaCore.Governance
