import OmegaCore.Evo.Checks

/-!
`BuildNewListFromBlock`, phase by phase: confirmations, penalty decrease, the two
one-time bans, the special transactions of the block in order, spent collaterals,
the periodic liveness check, and the payment of the payee that the previous list
selected.  An exception of a list operation leaves the function and fails the
block.
-/

namespace OmegaCore.Evo

open CDeterministicMNList

/-- Why a block does not yield a list. -/
inductive BlockError where
  | invalid (verdict : Invalid)
  | thrown (error : ListError)
  deriving DecidableEq, Repr

/-- Let an exception of a list operation pass. -/
def liftThrown (x : Except Thrown CDeterministicMNList) : Except BlockError CDeterministicMNList :=
  match x with
  | .ok l => .ok l
  | .error t => .error (.thrown t.error)

/-- `return _state.Invalid(...)`. -/
def invalid (verdict : Invalid) : Except BlockError CDeterministicMNList :=
  .error (.invalid verdict)

/-! ### Payee selection -/

def compareByLastPaidGetHeight (dmn : CDeterministicMN) : Int :=
  let s := dmn.pdmnState
  if s.nPoSeRevivedHeight ≠ -1 ∧ s.nPoSeRevivedHeight > s.nLastPaidHeight then s.nPoSeRevivedHeight
  else if s.nLastPaidHeight = 0 then s.nRegisteredHeight
  else s.nLastPaidHeight

def compareByLastPaid (a b : CDeterministicMN) : Bool :=
  let ah := compareByLastPaidGetHeight a
  let bh := compareByLastPaidGetHeight b
  if ah = bh then decide (a.proTxHash < b.proTxHash) else decide (ah < bh)

variable (E : Env)

namespace CDeterministicMNList

variable (l : CDeterministicMNList)

/-- The last payee, if it is a high-performance masternode with consecutive payments left. -/
def unfinishedPayee : Option CDeterministicMN :=
  (l.forEachMN true).foldl (fun best dmn =>
      if dmn.pdmnState.nLastPaidHeight = l.nHeight ∧ dmn.nType = .highPerformance ∧
          dmn.pdmnState.nConsecutivePayments < (MnType.highPerformance.params.votingWeight : Int) then
        some dmn
      else best)
    none

/-- The masternode that waits longest for a payment. -/
def nextPayee : Option CDeterministicMN :=
  (l.forEachMN true).foldl (fun best dmn =>
      match best with
      | none => some dmn
      | some b => if compareByLastPaid dmn b then some dmn else some b)
    none

def getMNPayee (pindex : CBlockIndex) : Option CDeterministicMN :=
  if E.isV19Active pindex then
    match l.unfinishedPayee with
    | some dmn => some dmn
    | none => l.nextPayee
  else l.nextPayee

end CDeterministicMNList

/-! ### Before the transactions -/

variable (nHeight : Int) (ctx : BlockContext) (payee : Option CDeterministicMN) (l : CDeterministicMNList)
  (dmn : CDeterministicMN)

/-- The state of an unconfirmed masternode that has enough confirmations. -/
def confirmMN : Except Thrown CDeterministicMNList :=
  if dmn.pdmnState.confirmedHash ≠ 0 then .ok l
  else if ctx.pindexPrev.nHeight - dmn.pdmnState.nRegisteredHeight ≥
      E.params.nMasternodeMinimumConfirmations then
    l.updateMN E.toCodec dmn.proTxHash
      (dmn.pdmnState.updateConfirmedHash E.sha256 dmn.proTxHash ctx.pindexPrev.getBlockHash)
  else .ok l

def confirmMNs (oldList newList : CDeterministicMNList) : Except Thrown CDeterministicMNList :=
  (oldList.forEachMN false).foldlM (confirmMN E ctx) newList

def decreasePoSePenalties : Except Thrown CDeterministicMNList :=
  let toDecrease := ((l.forEachMN true).filter fun dmn =>
    decide (dmn.pdmnState.nPoSePenalty > 0)).map (·.proTxHash)
  toDecrease.foldlM (fun l proTxHash => l.poSeDecrease E.toCodec proTxHash) l

def banMN (proTxHash : Uint256) : Except Thrown CDeterministicMNList :=
  match l.getMN proTxHash with
  | none => .error ⟨.assertion, l⟩
  | some dmn => l.updateMN E.toCodec proTxHash (dmn.pdmnState.banIfNotBanned nHeight)

def banWhere (cond : CDeterministicMN → Bool) (l : CDeterministicMNList) : Except Thrown CDeterministicMNList :=
  (((l.forEachMN true).filter cond).map (·.proTxHash)).foldlM (banMN E nHeight) l

/-- Registered for a payment cycle and not paid within one. -/
def isGhost : Bool :=
  dmn.pdmnState.confirmedHash != 0 &&
    !decide (dmn.pdmnState.nRegisteredHeight ≥ nHeight - E.params.nSuperblockCycle) &&
    !decide (dmn.pdmnState.nLastPaidHeight ≥ nHeight - E.params.nSuperblockCycle)

def ghostCleanup : Except Thrown CDeterministicMNList :=
  if nHeight = E.params.nHPMasternodeHeight then banWhere E nHeight (isGhost E nHeight) l else .ok l

def phantomPurge : Except Thrown CDeterministicMNList :=
  if E.params.nPhantomPurgeHeight > 0 ∧ nHeight = E.params.nPhantomPurgeHeight then
    banWhere E nHeight (fun dmn => E.phantomExclusions.contains dmn.proTxHash) l
  else .ok l

/-! ### Special transactions -/

variable (tx : CTransaction) (ptx : CProRegTx) (s : CDeterministicMNState)

/-- The outpoint a `ProRegTx` stakes: an external one, or an output of the transaction itself. -/
def proRegCollateral : COutPoint :=
  if ptx.collateralOutpoint.hash = 0 then ⟨tx.hash, ptx.collateralOutpoint.n⟩
  else ptx.collateralOutpoint

/-- Whether an external collateral is missing, spent or of the wrong amount. -/
def badCollateral (view : CCoinsViewCache) (ptx : CProRegTx) (collateral : COutPoint) : Bool :=
  ptx.collateralOutpoint.hash != 0 &&
    match view.getCoin collateral with
    | none => true
    | some coin => coin.isSpent || coin.out.nValue != ptx.nType.params.collatAmount

def proRegEntry : CDeterministicMN :=
  let s := { CDeterministicMNState.ofProRegTx ptx with nRegisteredHeight := nHeight }
  { internalId := ⟨l.nTotalRegisteredCount.val, by omega⟩
    nType := ptx.nType
    proTxHash := tx.hash
    collateralOutpoint := proRegCollateral tx ptx
    nOperatorReward := ptx.nOperatorReward
    pdmnState := if ptx.addr = {} then s.banIfNotBanned nHeight else s }

/-- Remove the masternode that used the collateral before, if there is one. -/
def removeReplaced (collateral : COutPoint) : Except Thrown CDeterministicMNList :=
  match l.getMNByCollateral E.toCodec collateral with
  | some replacedDmn => l.removeMN E.toCodec replacedDmn.proTxHash
  | none => .ok l

def applyProReg : Except BlockError CDeterministicMNList :=
  if ptx.nType = .highPerformance ∧ !E.isV19Active ctx.pindexPrev then
    invalid (.consensus "bad-protx-payload")
  else if badCollateral ctx.view ptx (proRegCollateral tx ptx) then
    invalid (.consensus "bad-protx-collateral")
  else do
    let dmn := proRegEntry ctx.nHeight l tx ptx
    let l ← liftThrown (removeReplaced E l (proRegCollateral tx ptx))
    if l.hasUniqueProperty E.toCodec ptx.addr then
      invalid (.consensusDuplicate "bad-protx-dup-addr")
    else if l.hasUniqueProperty E.toCodec ptx.keyIDOwner ||
        l.hasUniqueProperty E.toCodec ptx.pubKeyOperator then
      invalid (.consensusDuplicate "bad-protx-dup-key")
    else liftThrown (l.addMN E.toCodec dmn)

def proUpServState (ptx : CProUpServTx) : CDeterministicMNState :=
  let s := { s with addr := ptx.addr, scriptOperatorPayout := ptx.scriptOperatorPayout }
  let s :=
    if ptx.nType = .highPerformance then
      { s with
        platformNodeID := ptx.platformNodeID
        platformP2PPort := ptx.platformP2PPort
        platformHTTPPort := ptx.platformHTTPPort }
    else s
  -- a banned masternode is revived only when all its keys are set
  if s.isBanned ∧ s.pubKeyOperator.isValid ∧ s.keyIDVoting ≠ 0 ∧ s.keyIDOwner ≠ 0 then s.revive nHeight
  else s

def applyProUpServ (ptx : CProUpServTx) : Except BlockError CDeterministicMNList :=
  if ptx.nType = .highPerformance ∧ !E.isV19Active ctx.pindexPrev then
    invalid (.consensus "bad-protx-payload")
  else if takenByOther E l ptx.addr fun other => other.proTxHash == ptx.proTxHash then
    invalid (.consensusDuplicate "bad-protx-dup-addr")
  else
    match l.getMN ptx.proTxHash with
    | none => invalid (.consensus "bad-protx-hash")
    | some dmn =>
      if ptx.nType ≠ dmn.nType then invalid (.consensus "bad-protx-type-mismatch")
      else if !ptx.nType.isValid then invalid (.consensus "bad-protx-type")
      else liftThrown (l.updateMN E.toCodec ptx.proTxHash (proUpServState ctx.nHeight dmn.pdmnState ptx))

/-- The state a `ProUpRegTx` stores: a new operator key resets the operator fields and bans. -/
def proUpRegState (ptx : CProUpRegTx) : CDeterministicMNState :=
  let s :=
    if !s.pubKeyOperator.eq ptx.pubKeyOperator then
      { s.resetOperatorFields.banIfNotBanned nHeight with
        nVersion := ptx.nVersion
        pubKeyOperator := ptx.pubKeyOperator }
    else s
  { s with keyIDVoting := ptx.keyIDVoting, scriptPayout := ptx.scriptPayout }

def proUpRevState (ptx : CProUpRevTx) : CDeterministicMNState :=
  { s.resetOperatorFields.banIfNotBanned nHeight with nRevocationReason := ptx.nReason }

/-- Replace the state of a stored masternode; shared by the registrar update and the revocation. -/
def applyToStored (proTxHash : Uint256)
    (f : CDeterministicMNState → CDeterministicMNState) : Except BlockError CDeterministicMNList :=
  match l.getMN proTxHash with
  | none => invalid (.consensus "bad-protx-hash")
  | some dmn => liftThrown (l.updateMN E.toCodec proTxHash (f dmn.pdmnState))

def applyProUpReg (ptx : CProUpRegTx) : Except BlockError CDeterministicMNList :=
  applyToStored E l ptx.proTxHash (proUpRegState ctx.nHeight · ptx)

def applyProUpRev (ptx : CProUpRevTx) : Except BlockError CDeterministicMNList :=
  applyToStored E l ptx.proTxHash (proUpRevState ctx.nHeight · ptx)

/-- What a final commitment does to one quorum member: punish a failed one, record the success
of a valid one. -/
def handleMember (member : CDeterministicMN) (valid : Bool) : Except Thrown CDeterministicMNList :=
  match l.getMN member.proTxHash with
  | none => .ok l
  | some dmn =>
    if !valid then l.poSePunish E.toCodec member.proTxHash (l.calcPenalty 66)
    else if !dmn.pdmnState.isBanned ∧ dmn.pdmnState.nPoSeSuccessHeight < l.nHeight then
      l.updateMN E.toCodec member.proTxHash { dmn.pdmnState with nPoSeSuccessHeight := l.nHeight }
    else .ok l

def handleQuorumCommitment (qc : CFinalCommitment) (pQuorumBaseBlockIndex : CBlockIndex)
    (l : CDeterministicMNList) : Except Thrown CDeterministicMNList :=
  (E.getAllQuorumMembers qc.llmqType pQuorumBaseBlockIndex).zipIdx.foldlM
    (fun l m => handleMember E l m.1 (qc.validMembers.getD m.2 false)) l

def applyQuorumCommitment (qc : CFinalCommitmentTxPayload) : Except BlockError CDeterministicMNList :=
  if qc.commitment.isNull then .ok l
  else
    match E.getLLMQParams qc.commitment.llmqType with
    | none => invalid (.consensus "bad-qc-commitment-type")
    | some llmqParams =>
      let qcnHeight := qc.nHeight.toInt
      let quorumHeight := qcnHeight - qcnHeight.tmod llmqParams.dkgInterval + qc.commitment.quorumIndex
      match ctx.pindexPrev.getAncestor quorumHeight with
      | none => invalid (.consensus "bad-qc-quorum-hash")
      | some pQuorumBaseBlockIndex =>
        if pQuorumBaseBlockIndex.getBlockHash ≠ qc.commitment.quorumHash then
          invalid (.consensus "bad-qc-quorum-hash")
        else liftThrown (handleQuorumCommitment E qc.commitment pQuorumBaseBlockIndex l)

/-- One round of the loop over the block's transactions. -/
def processTx : Except BlockError CDeterministicMNList :=
  if tx.nVersion ≠ 3 then .ok l
  else
    match tx.payload with
    | .proReg (some ptx) => applyProReg E ctx l tx ptx
    | .proUpServ (some ptx) => applyProUpServ E ctx l ptx
    | .proUpReg (some ptx) => applyProUpReg E ctx l ptx
    | .proUpRev (some ptx) => applyProUpRev E ctx l ptx
    | .quorumCommitment (some qc) => applyQuorumCommitment E ctx l qc
    | .proReg none | .proUpServ none | .proUpReg none | .proUpRev none =>
      invalid (.consensus "bad-protx-payload")
    | .quorumCommitment none => invalid (.consensus "bad-qc-payload")
    | .normal | .coinbase | .mnhfSignal | .smsgRoom | .unknown _ => .ok l

def processTxs (txs : List CTransaction) : Except BlockError CDeterministicMNList :=
  txs.foldlM (processTx E ctx) l

/-! ### After the transactions -/

def removeSpent (prevout : COutPoint) : Except Thrown CDeterministicMNList :=
  match l.getMNByCollateral E.toCodec prevout with
  | some dmn => if dmn.collateralOutpoint = prevout then l.removeMN E.toCodec dmn.proTxHash else .ok l
  | none => .ok l

def removeSpentCollaterals (txs : List CTransaction) : Except Thrown CDeterministicMNList :=
  (txs.flatMap (·.vin)).foldlM (removeSpent E) l

/-- The look-back of the liveness check, half a superblock cycle. -/
def livenessLookback : Int :=
  E.params.nSuperblockCycle.tdiv 2

def livenessDue : Bool :=
  decide (nHeight > E.params.nHPMasternodeHeight) && decide (nHeight.tmod (E.params.nSuperblockCycle.tdiv 4) = 0)

/-- Whether some valid masternode took part in a quorum recently. -/
def quorumsActive : Bool :=
  (l.forEachMN true).any fun dmn =>
    decide (dmn.pdmnState.nPoSeSuccessHeight ≥ nHeight - livenessLookback E)

/-- Whether the liveness check bans a valid masternode. -/
def failsLiveness : Bool :=
  dmn.pdmnState.confirmedHash != 0 &&
    !decide (dmn.pdmnState.nRegisteredHeight ≥ nHeight - E.params.nSuperblockCycle) &&
    !decide (dmn.pdmnState.nPoSeSuccessHeight ≥ nHeight - livenessLookback E)

def livenessCheck : Except Thrown CDeterministicMNList :=
  if livenessDue E nHeight && quorumsActive E nHeight l then
    banWhere E nHeight (failsLiveness E nHeight) l
  else .ok l

def paidState : CDeterministicMNState :=
  let s := { dmn.pdmnState with nLastPaidHeight := nHeight }
  if dmn.nType = .highPerformance then { s with nConsecutivePayments := s.nConsecutivePayments + 1 }
  else s

def payPayee : Except Thrown CDeterministicMNList :=
  match payee with
  | none => .ok l
  | some p =>
    match l.getMN p.proTxHash with
    | none => .ok l
    | some dmn => l.updateMN E.toCodec p.proTxHash (paidState nHeight dmn)

/-- Whether an unpaid masternode has a payment counter to reset. -/
def needsReset : Bool :=
  !(payee.any fun p => dmn.proTxHash == p.proTxHash) && dmn.nType == .highPerformance &&
    dmn.pdmnState.nConsecutivePayments != 0

def resetConsecutivePayments : Except Thrown CDeterministicMNList :=
  ((l.forEachMN false).filter (needsReset payee)).foldlM
    (fun l dmn => l.updateMN E.toCodec dmn.proTxHash { dmn.pdmnState with nConsecutivePayments := 0 }) l

/-! ### The whole function -/

def beforeTxs (oldList : CDeterministicMNList) : Except Thrown CDeterministicMNList := do
  let newList := (oldList.setBlockHash 0).setHeight ctx.nHeight
  let newList ← confirmMNs E ctx oldList newList
  let newList ← decreasePoSePenalties E newList
  let newList ← ghostCleanup E ctx.nHeight newList
  phantomPurge E ctx.nHeight newList

def afterTxs : Except Thrown CDeterministicMNList := do
  let l ← livenessCheck E ctx.nHeight l
  let l ← payPayee E ctx.nHeight payee l
  resetConsecutivePayments E payee l

def buildNewListFromBlock (block : CBlock) (oldList : CDeterministicMNList) :
    Except BlockError CDeterministicMNList := do
  -- the coinbase is skipped in both loops
  let txs := block.vtx.drop 1
  let payee := oldList.getMNPayee E ctx.pindexPrev
  let newList ← liftThrown (beforeTxs E ctx oldList)
  let newList ← processTxs E ctx newList txs
  let newList ← liftThrown (removeSpentCollaterals E newList txs)
  liftThrown (afterTxs E ctx payee newList)

end OmegaCore.Evo
