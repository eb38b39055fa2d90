import OmegaCore.Evo.Env

/-!
The checks a special transaction has to pass before its block is processed.  They
run against the list of the previous block, for all transactions of the block,
before any of them takes effect.
-/

namespace OmegaCore.Evo

open CDeterministicMNList

variable (E : Env)

/-! ### Payload checks without a list -/

/-- The checks the four `IsTriviallyValid` begin with. -/
def checkVersion (nVersion : ℕ) (isBasicSchemeActive : Bool) : Except Invalid Unit :=
  reject (nVersion == 0 || decide (nVersion > getVersion isBasicSchemeActive)) (.consensus "bad-protx-version")

/-- The encoding of an operator key has to match the payload version. -/
def checkOperatorKeyScheme (nVersion : ℕ) (pubKeyOperator : CBLSLazyPublicKey) : Except Invalid Unit :=
  reject (pubKeyOperator.isLegacy != (nVersion == legacyBlsVersion)) (.special "bad-protx-operator-pubkey")

def checkPayee (scriptPayout : CScript) : Except Invalid Unit :=
  reject (!scriptPayout.isPayToPublicKeyHash && !scriptPayout.isPayToScriptHash) (.special "bad-protx-payee")

variable (ctx : BlockContext) (mnList : CDeterministicMNList) (checkSigs : Bool) (tx : CTransaction)
  (ptx : CProRegTx)

def CProRegTx.isTriviallyValid (isBasicSchemeActive : Bool) : Except Invalid Unit := do
  checkVersion ptx.nVersion isBasicSchemeActive
  reject (!ptx.nType.isValid) (.consensus "bad-protx-type")
  reject (ptx.nMode != 0) (.consensus "bad-protx-mode")
  reject (ptx.keyIDOwner == 0 || !ptx.pubKeyOperator.isValid || ptx.keyIDVoting == 0) (.special "bad-protx-key-null")
  checkOperatorKeyScheme ptx.nVersion ptx.pubKeyOperator
  checkPayee ptx.scriptPayout
  match E.extractDestination ptx.scriptPayout with
  | none => .error (.special "bad-protx-payee-dest")
  | some payoutDest =>
    reject (payoutDest == .pkHash ptx.keyIDOwner || payoutDest == .pkHash ptx.keyIDVoting)
      (.special "bad-protx-payee-reuse")
    reject (decide (ptx.nOperatorReward > 10000)) (.special "bad-protx-operator-reward")

def CProUpServTx.isTriviallyValid (ptx : CProUpServTx) (isBasicSchemeActive : Bool) : Except Invalid Unit :=
  checkVersion ptx.nVersion isBasicSchemeActive

def CProUpRegTx.isTriviallyValid (ptx : CProUpRegTx) (isBasicSchemeActive : Bool) : Except Invalid Unit := do
  checkVersion ptx.nVersion isBasicSchemeActive
  reject (ptx.nMode != 0) (.consensus "bad-protx-mode")
  reject (!ptx.pubKeyOperator.isValid || ptx.keyIDVoting == 0) (.special "bad-protx-key-null")
  checkOperatorKeyScheme ptx.nVersion ptx.pubKeyOperator
  checkPayee ptx.scriptPayout

def CProUpRevTx.isTriviallyValid (ptx : CProUpRevTx) (isBasicSchemeActive : Bool) : Except Invalid Unit := do
  checkVersion ptx.nVersion isBasicSchemeActive
  reject (decide (ptx.nReason > reasonLast)) (.consensus "bad-protx-reason")

def checkService (addr : CService) : Except Invalid Unit := do
  reject (!E.addrIsValid addr) (.special "bad-protx-ipaddr")
  reject (E.requireRoutableExternalIP && !E.addrIsRoutable addr) (.special "bad-protx-ipaddr")
  reject (if E.isMainnet then addr.port != E.mainnetDefaultPort else addr.port == E.mainnetDefaultPort)
    (.special "bad-protx-ipaddr-port")
  reject (!addr.isIPv4) (.special "bad-protx-ipaddr")

def checkPlatformFields (platformNodeID : Uint160) (platformP2PPort platformHTTPPort : BitVec 16)
    (addr : CService) : Except Invalid Unit := do
  reject (platformNodeID == 0) (.special "bad-protx-platform-nodeid")
  reject (E.isMainnet && platformP2PPort != E.mainnetPlatformP2PPort) (.special "bad-protx-platform-p2p-port")
  reject (E.isMainnet && platformHTTPPort != E.mainnetPlatformHTTPPort) (.special "bad-protx-platform-http-port")
  reject (platformP2PPort == E.mainnetDefaultPort) (.special "bad-protx-platform-p2p-port")
  reject (platformHTTPPort == E.mainnetDefaultPort) (.special "bad-protx-platform-http-port")
  reject (platformP2PPort == platformHTTPPort || platformP2PPort == addr.port || platformHTTPPort == addr.port)
    (.special "bad-protx-platform-dup-ports")

def checkInputsHash (inputsHash : Uint256) : Except Invalid Unit :=
  reject (E.calcTxInputsHash tx.vin != inputsHash) (.consensus "bad-protx-inputs-hash")

/-! ### Checks against the previous list -/

section Lists

variable {T : Type} [UniqueProperty T]

/-- `HasUniqueProperty(v) && GetUniquePropertyMN(v)->...`: whether `v` is taken by a masternode
that does not satisfy `allowed`.  A missing entry would be a null dereference. -/
def takenByOther (mnList : CDeterministicMNList) (v : T) (allowed : CDeterministicMN → Bool) : Bool :=
  mnList.hasUniqueProperty E.toCodec v &&
    match mnList.getUniquePropertyMN E.toCodec v with
    | some mn => !allowed mn
    | none => true

end Lists

/-- Where a `ProRegTx` takes its collateral from: the destination, the key that has to sign, and
the outpoint.  Only an external collateral needs a signature. -/
def findCollateral (view : CCoinsViewCache) : Except Invalid (CTxDestination × Option CKeyID × COutPoint) :=
  if ptx.collateralOutpoint.hash ≠ 0 then
    match view.getCoin ptx.collateralOutpoint with
    | none => .error (.special "bad-protx-collateral")
    | some coin =>
      if coin.isSpent || coin.out.nValue != ptx.nType.params.collatAmount then
        .error (.special "bad-protx-collateral")
      else
        match E.extractDestination coin.out.scriptPubKey with
        | none => .error (.special "bad-protx-collateral-dest")
        | some (.scriptHash _) => .error (.special "bad-protx-collateral-pkh")
        | some (.pkHash k) => .ok (.pkHash k, some k, ptx.collateralOutpoint)
  else
    match tx.vout[ptx.collateralOutpoint.n.toNat]? with
    | none => .error (.special "bad-protx-collateral-index")
    | some out =>
      if out.nValue != ptx.nType.params.collatAmount then .error (.special "bad-protx-collateral")
      else
        match E.extractDestination out.scriptPubKey with
        | none => .error (.special "bad-protx-collateral-dest")
        | some dest => .ok (dest, none, ⟨tx.hash, ptx.collateralOutpoint.n⟩)

/-- The uniqueness checks of a `ProRegTx`.  An address may be reused by the transaction that
replaces its masternode; keys never. -/
def checkProRegUnique (collateralOutpoint : COutPoint) (mnList : CDeterministicMNList) : Except Invalid Unit := do
  reject (takenByOther E mnList ptx.addr fun mn => mn.collateralOutpoint == collateralOutpoint)
    (.specialDuplicate "bad-protx-dup-addr")
  reject (mnList.hasUniqueProperty E.toCodec ptx.keyIDOwner || mnList.hasUniqueProperty E.toCodec ptx.pubKeyOperator)
    (.specialDuplicate "bad-protx-dup-key")
  reject (ptx.nType == .highPerformance && mnList.hasUniqueProperty E.toCodec ptx.platformNodeID)
    (.specialDuplicate "bad-protx-dup-platformnodeid")

/-- The body of `CheckProRegTx` for a decoded payload. -/
def checkProReg : Except Invalid Unit := do
  ptx.isTriviallyValid E (E.isV19Active ctx.pindexPrev)
  checkIf (ptx.addr ≠ {}) (checkService E ptx.addr)
  checkIf (ptx.nType = .highPerformance)
    (reject (decide (ctx.nHeight < E.params.nHPMasternodeHeight)) (.special "bad-protx-hpmn-not-active"))
  checkIf (ptx.nType = .highPerformance)
    (checkPlatformFields E ptx.platformNodeID ptx.platformP2PPort ptx.platformHTTPPort ptx.addr)
  let (collateralTxDest, keyForPayloadSig, collateralOutpoint) ← findCollateral E tx ptx ctx.view
  reject (collateralTxDest == .pkHash ptx.keyIDOwner || collateralTxDest == .pkHash ptx.keyIDVoting)
    (.special "bad-protx-collateral-reuse")
  checkProRegUnique E ptx collateralOutpoint mnList
  reject (!E.isDIP3Enforced ctx.pindexPrev.nHeight && ptx.keyIDOwner != ptx.keyIDVoting)
    (.special "bad-protx-key-not-same")
  checkInputsHash E tx ptx.inputsHash
  match keyForPayloadSig with
  | some key =>
    reject (checkSigs && !E.verifyMessage key ptx.vchSig (E.makeSignString ptx)) (.consensus "bad-protx-sig")
  | none => reject (!ptx.vchSig.isEmpty) (.consensus "bad-protx-sig")

def checkProUpServ (ptx : CProUpServTx) : Except Invalid Unit := do
  ptx.isTriviallyValid (E.isV19Active ctx.pindexPrev)
  checkService E ptx.addr
  checkIf (ptx.nType = .highPerformance)
    (checkPlatformFields E ptx.platformNodeID ptx.platformP2PPort ptx.platformHTTPPort ptx.addr)
  match mnList.getMN ptx.proTxHash with
  | none => .error (.consensus "bad-protx-hash")
  | some mn =>
    reject (takenByOther E mnList ptx.addr fun other => other.proTxHash == ptx.proTxHash)
      (.specialDuplicate "bad-protx-dup-addr")
    reject (ptx.nType == .highPerformance &&
        takenByOther E mnList ptx.platformNodeID fun other => other.proTxHash == ptx.proTxHash)
      (.specialDuplicate "bad-protx-dup-platformnodeid")
    reject (ptx.scriptOperatorPayout != [] && mn.nOperatorReward == 0) (.special "bad-protx-operator-payee")
    reject (ptx.scriptOperatorPayout != [] && !ptx.scriptOperatorPayout.isPayToPublicKeyHash &&
        !ptx.scriptOperatorPayout.isPayToScriptHash)
      (.special "bad-protx-operator-payee")
    checkInputsHash E tx ptx.inputsHash
    reject (checkSigs && !E.verifyInsecure ctx.blsLegacyScheme ptx.sig mn.pdmnState.pubKeyOperator.get
        (E.hashProUpServTx ptx))
      (.consensus "bad-protx-sig")

/-- The payee and collateral keys may not double as owner or voting key. -/
def checkProUpRegKeys (dmn : CDeterministicMN) (ptx : CProUpRegTx)
    (payoutDest : CTxDestination) : Except Invalid Unit := do
  reject (payoutDest == .pkHash dmn.pdmnState.keyIDOwner || payoutDest == .pkHash ptx.keyIDVoting)
    (.special "bad-protx-payee-reuse")
  match ctx.view.getCoin dmn.collateralOutpoint with
  | none => .error (.consensus "bad-protx-collateral")
  | some coin =>
    reject coin.isSpent (.consensus "bad-protx-collateral")
    match E.extractDestination coin.out.scriptPubKey with
    | none => .error (.consensus "bad-protx-collateral-dest")
    | some collateralTxDest =>
      reject (collateralTxDest == .pkHash dmn.pdmnState.keyIDOwner || collateralTxDest == .pkHash ptx.keyIDVoting)
        (.special "bad-protx-collateral-reuse")

def checkProUpReg (ptx : CProUpRegTx) : Except Invalid Unit := do
  ptx.isTriviallyValid (E.isV19Active ctx.pindexPrev)
  match E.extractDestination ptx.scriptPayout with
  | none => .error (.special "bad-protx-payee-dest")
  | some payoutDest =>
    match mnList.getMN ptx.proTxHash with
    | none => .error (.consensus "bad-protx-hash")
    | some dmn =>
      checkProUpRegKeys E ctx dmn ptx payoutDest
      reject (takenByOther E mnList ptx.pubKeyOperator fun other => other.proTxHash == ptx.proTxHash)
        (.specialDuplicate "bad-protx-dup-key")
      reject (!E.isDIP3Enforced ctx.pindexPrev.nHeight && dmn.pdmnState.keyIDOwner != ptx.keyIDVoting)
        (.special "bad-protx-key-not-same")
      checkInputsHash E tx ptx.inputsHash
      reject (checkSigs && !E.verifyHash (E.hashProUpRegTx ptx) dmn.pdmnState.keyIDOwner ptx.vchSig)
        (.consensus "bad-protx-sig")

def checkProUpRev (ptx : CProUpRevTx) : Except Invalid Unit := do
  ptx.isTriviallyValid (E.isV19Active ctx.pindexPrev)
  match mnList.getMN ptx.proTxHash with
  | none => .error (.consensus "bad-protx-hash")
  | some dmn =>
    checkInputsHash E tx ptx.inputsHash
    reject (checkSigs && !E.verifyInsecure ctx.blsLegacyScheme ptx.sig dmn.pdmnState.pubKeyOperator.get
        (E.hashProUpRevTx ptx))
      (.consensus "bad-protx-sig")

/-- `CheckSpecialTx`, with `mnList` the list of the previous block. -/
def checkSpecialTx : Except Invalid Unit :=
  if tx.nVersion ≠ 3 ∨ tx.payload = .normal then .ok ()
  else if ctx.nHeight < E.params.DIP0003Height then .error (.special "bad-tx-type")
  else
    match tx.payload with
    | .proReg (some ptx) => checkProReg E ctx mnList checkSigs tx ptx
    | .proUpServ (some ptx) => checkProUpServ E ctx mnList checkSigs tx ptx
    | .proUpReg (some ptx) => checkProUpReg E ctx mnList checkSigs tx ptx
    | .proUpRev (some ptx) => checkProUpRev E ctx mnList checkSigs tx ptx
    | .proReg none | .proUpServ none | .proUpReg none | .proUpRev none =>
      .error (.consensus "bad-protx-payload")
    | .coinbase | .quorumCommitment _ | .mnhfSignal | .smsgRoom => E.checkOther tx ctx.pindexPrev
    | .normal | .unknown _ => .error (.special "bad-tx-type-check")

end OmegaCore.Evo
