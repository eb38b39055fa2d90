import OmegaCore.Evo.Env
import OmegaCore.Util.LruCache

/-!
`CQuorumBlockProcessor`: the final commitments of quorums that blocks bring in.  A block
in the mining phase of a quorum type has to carry a commitment, possibly a null one, for
every quorum that has none yet.  Mined commitments are stored in tables of the masternode
database, with an index by the inverted height, and whether a quorum has one is cached.
What processing a block can do is stated case by case, for later results to use.
-/

namespace OmegaCore.Llmq

open Util Evo

/-- What quorum processing depends on besides the masternode code. -/
structure LlmqEnv extends Env where
  /-- `minSize` of the parameters of a type. -/
  minSize : ℕ → ℕ
  isDIP0024Active : CBlockIndex → Bool
  isQuorumTypeEnabled : ℕ → CBlockIndex → Bool
  buildCommitmentHash : ℕ → Uint256 → List Bool → CBLSPublicKey → Uint256 → Uint256
  verifySecureAggregated : CBLSSignature → List CBLSPublicKey → Uint256 → Bool
  /-- `SerializeHash` of a final commitment. -/
  hashCommitment : CFinalCommitment → Uint256

/-- The active chain, which is empty while blocks are replayed after a crash, and the block index. -/
structure ChainState where
  tip : Option CBlockIndex
  lookupBlockIndex : Uint256 → Option CBlockIndex
  /-- The value of `bls::bls_legacy_scheme`. -/
  blsLegacyScheme : Bool

namespace ChainState

/-- `ChainActive().Height()`. -/
def height (chain : ChainState) : Int :=
  match chain.tip with
  | some tip => tip.nHeight
  | none => -1

def getBlockHash (chain : ChainState) (nBlockHeight : Int) : Option Uint256 :=
  match chain.tip with
  | none => none
  | some tip =>
    if nBlockHeight < -1 ∨ nBlockHeight > tip.nHeight then none
    else (tip.getAncestor (if nBlockHeight = -1 then tip.nHeight else nBlockHeight)).map CBlockIndex.getBlockHash

end ChainState

/-- How quorum processing fails: with a verdict, without one, by an exception or by an assertion. -/
inductive Failure where
  | invalid (verdict : Invalid)
  | failed
  | thrown
  | aborted
  deriving DecidableEq, Repr

section Quorums

variable (E : LlmqEnv)

/-- Rotation is on if it was active one block before the start of the cycle. -/
def isQuorumRotationEnabled (llmqParams : LLMQParams) (pindex : CBlockIndex) : Bool :=
  if !llmqParams.useRotation then false
  else
    let cycleQuorumBaseHeight := pindex.nHeight - pindex.nHeight % llmqParams.dkgInterval
    if cycleQuorumBaseHeight < 1 then false
    else
      match pindex.getAncestor (cycleQuorumBaseHeight - 1) with
      | some pindexBefore => E.isDIP0024Active pindexBefore
      | none => false

def getEnabledQuorumParams (pindex : CBlockIndex) : List LLMQParams :=
  E.params.llmqs.filter fun params => E.isQuorumTypeEnabled params.type pindex

/-- The hash of the base block of a quorum of the current cycle, or null if it is not known yet. -/
def getQuorumBlockHash (chain : ChainState) (llmqParams : LLMQParams) (nHeight quorumIndex : Int) : Uint256 :=
  (chain.getBlockHash (nHeight - nHeight % llmqParams.dkgInterval + quorumIndex)).getD 0

/-- Whether commitments are mined at a height.  The height must not be above the next block's. -/
def isMiningPhase (chain : ChainState) (llmqParams : LLMQParams) (nHeight : Int) : Except Failure Bool :=
  if nHeight > chain.height + 1 then .error .aborted
  else
    let quorumCycleStartHeight := nHeight - nHeight % llmqParams.dkgInterval
    .ok (decide (nHeight ≥ quorumCycleStartHeight + llmqParams.dkgMiningWindowStart) &&
      decide (nHeight ≤ quorumCycleStartHeight + llmqParams.dkgMiningWindowEnd))

end Quorums

/-! ### Commitments -/

end OmegaCore.Llmq

namespace OmegaCore.Evo.CFinalCommitment

open Llmq

variable (E : LlmqEnv)

def countSigners (qc : CFinalCommitment) : ℕ :=
  qc.signers.count true

def countValidMembers (qc : CFinalCommitment) : ℕ :=
  qc.validMembers.count true

/-- The version of a commitment, with an index if rotation is on. -/
def getVersion (isRotationEnabled isBasicSchemeActive : Bool) : ℕ :=
  if isRotationEnabled then (if isBasicSchemeActive then 4 else 2) else (if isBasicSchemeActive then 3 else 1)

def verifySizes (params : LLMQParams) (qc : CFinalCommitment) : Bool :=
  qc.signers.length == params.size && qc.validMembers.length == params.size

def verifyNull (qc : CFinalCommitment) : Bool :=
  match E.getLLMQParams qc.llmqType with
  | none => false
  | some params => qc.isNull && verifySizes params qc

/-- The checks of the members of a quorum: no bit is set beyond them, and they signed. -/
def verifyMembers (chain : ChainState) (params : LLMQParams) (qc : CFinalCommitment)
    (members : List CDeterministicMN) (checkSigs : Bool) : Bool :=
  -- the range over the missing members throws if there are more members than the size
  decide (members.length ≤ params.size) &&
    (qc.validMembers.drop members.length).all (!·) && (qc.signers.drop members.length).all (!·) &&
    (!checkSigs ||
      let commitmentHash := E.buildCommitmentHash params.type qc.quorumHash qc.validMembers
        qc.quorumPublicKey qc.quorumVvecHash
      let memberPubKeys := ((members.zip qc.signers).filter (·.2)).map (·.1.pdmnState.pubKeyOperator.get)
      E.verifySecureAggregated qc.membersSig memberPubKeys commitmentHash &&
        E.verifyInsecure chain.blsLegacyScheme qc.quorumSig qc.quorumPublicKey commitmentHash)

def verify (chain : ChainState) (qc : CFinalCommitment) (pQuorumBaseBlockIndex : CBlockIndex)
    (checkSigs : Bool) : Bool :=
  match E.getLLMQParams qc.llmqType with
  | none => false
  | some params =>
    let expectedVersion := getVersion (isQuorumRotationEnabled E params pQuorumBaseBlockIndex)
      (E.isV19Active pQuorumBaseBlockIndex)
    !(qc.nVersion == 0 || qc.nVersion != expectedVersion) &&
      pQuorumBaseBlockIndex.getBlockHash == qc.quorumHash &&
      decide (pQuorumBaseBlockIndex.nHeight % params.dkgInterval = qc.quorumIndex) &&
      verifySizes params qc &&
      !decide (qc.countValidMembers < E.minSize params.type) &&
      !decide (qc.countSigners < E.minSize params.type) &&
      qc.quorumPublicKey.isSome && qc.quorumVvecHash != 0 && qc.membersSig.isSome && qc.quorumSig.isSome &&
      verifyMembers E chain params qc (E.getAllQuorumMembers qc.llmqType pQuorumBaseBlockIndex) checkSigs

end OmegaCore.Evo.CFinalCommitment

namespace OmegaCore.Llmq

open Util Evo

/-- `qcs.emplace`: a multimap from the quorum types keeps the order within a type. -/
def emplaceCommitment (ret : List CFinalCommitment) (qc : CFinalCommitment) : List CFinalCommitment :=
  ret.takeWhile (·.llmqType ≤ qc.llmqType) ++ qc :: ret.dropWhile (·.llmqType ≤ qc.llmqType)

def collectCommitments (E : LlmqEnv) (pindex : CBlockIndex) :
    List CTransaction → List CFinalCommitment → Except Failure (List CFinalCommitment)
  | [], ret => .ok ret
  | tx :: txs, ret =>
    match tx.payload with
    | .quorumCommitment none => .error (.invalid (.consensus "bad-qc-payload"))
    | .quorumCommitment (some qc) =>
      match E.getLLMQParams qc.commitment.llmqType with
      | none => .error (.invalid (.consensus "bad-qc-commitment-type"))
      | some params =>
        -- one commitment for a type in a block, unless the type is rotated
        if !isQuorumRotationEnabled E params pindex &&
            ret.any (·.llmqType == qc.commitment.llmqType) then
          .error (.invalid (.consensus "bad-qc-dup"))
        else collectCommitments E pindex txs (emplaceCommitment ret qc.commitment)
    | _ => collectCommitments E pindex txs ret

def getCommitmentsFromBlock (E : LlmqEnv) (block : CBlock) (pindex : CBlockIndex) :
    Except Failure (List CFinalCommitment) :=
  match collectCommitments E pindex block.vtx [] with
  | .error e => .error e
  | .ok ret =>
    if pindex.nHeight < E.params.DIP0003Height ∧ ret ≠ [] then
      .error (.invalid (.consensus "bad-qc-premature"))
    else .ok ret

/-! ### The block processor -/

instance instTransOrdNatUint256 : Std.TransOrd (ℕ × Uint256) := inferInstance

instance instTransOrdNatNat : Std.TransOrd (ℕ × ℕ) := inferInstance

instance instTransOrdNatIntNat : Std.TransOrd (ℕ × Int × ℕ) := inferInstance

/-- The tables of the database and the members of the block processor. -/
structure CQuorumBlockProcessor where
  /-- The mined commitments with the hashes of the blocks that brought them in. -/
  minedCommitment : Table (ℕ × Uint256) (CFinalCommitment × Uint256)
  /-- The heights of the quorum base blocks by type and inverted height of the mining block. -/
  minedByInversedHeight : Table (ℕ × ℕ) Int
  /-- The same for rotated types, by type, quorum index and inverted height. -/
  minedByInversedHeightIndexed : Table (ℕ × Int × ℕ) Int
  bestBlockUpgrade : Table String Uint256
  mapHasMinedCommitmentCache : Map ℕ (LruCache Uint256 Bool)
  minableCommitmentsByQuorum : Map (ℕ × Uint256) Uint256
  minableCommitments : Map Uint256 CFinalCommitment

/-- `max - nMinedHeight` in 32 bits, whose big-endian bytes order the keys. -/
def inversedHeight (nMinedHeight : Int) : ℕ :=
  ((2 ^ 32 - 1 - nMinedHeight) % 2 ^ 32).toNat

namespace CQuorumBlockProcessor

variable (E : LlmqEnv) (chain : ChainState)

/-- A cache for each quorum type of the network, over an empty database. -/
def create : CQuorumBlockProcessor where
  minedCommitment := .empty
  minedByInversedHeight := .empty
  minedByInversedHeightIndexed := .empty
  bestBlockUpgrade := .empty
  mapHasMinedCommitmentCache :=
    E.params.llmqs.foldl (fun m llmq => m.emplace llmq.type (.create llmq.keepOldConnections)) ∅
  minableCommitmentsByQuorum := ∅
  minableCommitments := ∅

variable (s : CQuorumBlockProcessor) (llmqParams : LLMQParams) (nHeight : Int) (blockHash : Uint256)
  (qc : CFinalCommitment)

/-- Take the current transaction of the database over. -/
def commit : CQuorumBlockProcessor :=
  { s with
    minedCommitment := s.minedCommitment.commit
    minedByInversedHeight := s.minedByInversedHeight.commit
    minedByInversedHeightIndexed := s.minedByInversedHeightIndexed.commit
    bestBlockUpgrade := s.bestBlockUpgrade.commit }

def rollback : CQuorumBlockProcessor :=
  { s with
    minedCommitment := s.minedCommitment.rollback
    minedByInversedHeight := s.minedByInversedHeight.rollback
    minedByInversedHeightIndexed := s.minedByInversedHeightIndexed.rollback
    bestBlockUpgrade := s.bestBlockUpgrade.rollback }

def setCache (llmqType : ℕ) (cache : LruCache Uint256 Bool) : CQuorumBlockProcessor :=
  { s with mapHasMinedCommitmentCache := s.mapHasMinedCommitmentCache.insert llmqType cache }

def eraseCached (llmqType : ℕ) (quorumHash : Uint256) : CQuorumBlockProcessor :=
  match s.mapHasMinedCommitmentCache[llmqType]? with
  | some cache => s.setCache llmqType (cache.erase quorumHash)
  | none => s

/-- A type that the network does not have has no cache, and making one fails an assertion. -/
def hasMinedCommitment (llmqType : ℕ) (quorumHash : Uint256) : Except Failure Bool × CQuorumBlockProcessor :=
  match s.mapHasMinedCommitmentCache[llmqType]? with
  | none => (.error .aborted, s)
  | some cache =>
    match cache.get quorumHash with
    | (some fExists, cache) => (.ok fExists, s.setCache llmqType cache)
    | (none, cache) =>
      let fExists := s.minedCommitment.exists? (llmqType, quorumHash)
      (.ok fExists, s.setCache llmqType (cache.insert quorumHash fExists))

/-- The quorums among some indices that are known and have no mined commitment. -/
def countRequired (s : CQuorumBlockProcessor) (llmqParams : LLMQParams) (nHeight : Int) :
    List ℕ → ℕ → Except Failure ℕ × CQuorumBlockProcessor
  | [], ret => (.ok ret, s)
  | quorumIndex :: indices, ret =>
    let quorumHash := getQuorumBlockHash chain llmqParams nHeight quorumIndex
    if quorumHash = 0 then s.countRequired llmqParams nHeight indices ret
    else
      match s.hasMinedCommitment llmqParams.type quorumHash with
      | (.error e, s) => (.error e, s)
      | (.ok true, s) => s.countRequired llmqParams nHeight indices ret
      | (.ok false, s) => s.countRequired llmqParams nHeight indices (ret + 1)

def quorumsNum : ℕ :=
  match chain.tip with
  | none => 1
  | some tip =>
    match if tip.nHeight < nHeight then some tip else tip.getAncestor nHeight with
    | some pindex => if isQuorumRotationEnabled E llmqParams pindex then llmqParams.signingActiveQuorumCount else 1
    | none => 1

def getNumCommitmentsRequired : Except Failure ℕ × CQuorumBlockProcessor :=
  match isMiningPhase chain llmqParams nHeight with
  | .error e => (.error e, s)
  | .ok false => (.ok 0, s)
  | .ok true =>
    s.countRequired chain llmqParams nHeight (List.range (quorumsNum E chain llmqParams nHeight)) 0

/-- Every enabled type has as many commitments in the block as are required. -/
def checkCounts (s : CQuorumBlockProcessor) (nHeight : Int) (qcs : List CFinalCommitment) :
    List LLMQParams → Except Failure Unit × CQuorumBlockProcessor
  | [] => (.ok (), s)
  | params :: rest =>
    match s.getNumCommitmentsRequired E chain params nHeight with
    | (.error e, s) => (.error e, s)
    | (.ok numCommitmentsRequired, s) =>
      let numCommitmentsInNewBlock := qcs.countP (·.llmqType == params.type)
      if numCommitmentsRequired < numCommitmentsInNewBlock then
        (.error (.invalid (.consensus "bad-qc-not-allowed")), s)
      else if numCommitmentsRequired > numCommitmentsInNewBlock then
        (.error (.invalid (.consensus "bad-qc-missing")), s)
      else s.checkCounts nHeight qcs rest

def storeCommitment (pQuorumBaseBlockIndex : CBlockIndex) : CQuorumBlockProcessor :=
  let rotationEnabled := isQuorumRotationEnabled E llmqParams pQuorumBaseBlockIndex
  let s := { s with
    minedCommitment := s.minedCommitment.write (llmqParams.type, qc.quorumHash) (qc, blockHash) }
  let s :=
    if rotationEnabled then
      let key := (llmqParams.type, qc.quorumIndex, inversedHeight nHeight)
      { s with
        minedByInversedHeightIndexed :=
          s.minedByInversedHeightIndexed.write key pQuorumBaseBlockIndex.nHeight }
    else
      let key := (llmqParams.type, inversedHeight nHeight)
      { s with minedByInversedHeight := s.minedByInversedHeight.write key pQuorumBaseBlockIndex.nHeight }
  let s := s.eraseCached qc.llmqType qc.quorumHash
  { s with
    minableCommitmentsByQuorum := s.minableCommitmentsByQuorum.erase (llmqParams.type, qc.quorumHash)
    minableCommitments := s.minableCommitments.erase (E.hashCommitment qc) }

/-- The checks of a commitment that is not null, and its storage. -/
def processNonNull (fJustCheck fBLSChecks : Bool) : Except Failure Unit × CQuorumBlockProcessor :=
  match s.hasMinedCommitment llmqParams.type qc.quorumHash with
  | (.error e, s) => (.error e, s)
  | (.ok true, s) => (.error (.invalid (.consensus "bad-qc-dup")), s)
  | (.ok false, s) =>
    match isMiningPhase chain llmqParams nHeight with
    | .error e => (.error e, s)
    | .ok false => (.error (.invalid (.consensus "bad-qc-height")), s)
    | .ok true =>
      match chain.lookupBlockIndex qc.quorumHash with
      | none => (.error .aborted, s)
      | some pQuorumBaseBlockIndex =>
        if !qc.verify E chain pQuorumBaseBlockIndex fBLSChecks then
          (.error (.invalid (.consensus "bad-qc-invalid")), s)
        else if fJustCheck then (.ok (), s)
        else (.ok (), s.storeCommitment E llmqParams nHeight blockHash qc pQuorumBaseBlockIndex)

def processCommitment (fJustCheck fBLSChecks : Bool) : Except Failure Unit × CQuorumBlockProcessor :=
  match E.getLLMQParams qc.llmqType with
  | none => (.error .failed, s)
  | some llmqParams =>
    -- while blocks are replayed after a crash, the hash is not checked
    let quorumHash := if chain.tip.isNone then qc.quorumHash
      else getQuorumBlockHash chain llmqParams nHeight qc.quorumIndex
    if quorumHash = 0 then (.error (.invalid (.consensus "bad-qc-block")), s)
    else if quorumHash ≠ qc.quorumHash then (.error (.invalid (.consensus "bad-qc-block")), s)
    else if qc.isNull then
      if !qc.verifyNull E then (.error (.invalid (.consensus "bad-qc-invalid-null")), s) else (.ok (), s)
    else s.processNonNull E chain llmqParams nHeight blockHash qc fJustCheck fBLSChecks

def processCommitments (s : CQuorumBlockProcessor) (nHeight : Int) (blockHash : Uint256)
    (fJustCheck fBLSChecks : Bool) : List CFinalCommitment → Except Failure Unit × CQuorumBlockProcessor
  | [] => (.ok (), s)
  | qc :: qcs =>
    match s.processCommitment E chain nHeight blockHash qc fJustCheck fBLSChecks with
    | (.error e, s) => (.error e, s)
    | (.ok (), s) => s.processCommitments nHeight blockHash fJustCheck fBLSChecks qcs

def writeBestBlock : CQuorumBlockProcessor :=
  { s with bestBlockUpgrade := s.bestBlockUpgrade.write "q_bbu2" blockHash }

/-- The counts are not checked while blocks are replayed after a crash.  They are those of the types that
were enabled at the previous block. -/
def checkBlockCounts (pindex : CBlockIndex) (qcs : List CFinalCommitment) :
    Except Failure Unit × CQuorumBlockProcessor :=
  match pindex.pprev with
  | none => (.error .aborted, s)
  | some pprev =>
    if chain.tip.isNone then (.ok (), s)
    else s.checkCounts E chain pindex.nHeight qcs (getEnabledQuorumParams E pprev)

def processBlock (block : CBlock) (pindex : CBlockIndex)
    (fJustCheck fBLSChecks : Bool) : Except Failure Unit × CQuorumBlockProcessor :=
  if pindex.nHeight < E.params.DIP0003Height then (.ok (), s.writeBestBlock pindex.getBlockHash)
  else
    match getCommitmentsFromBlock E block pindex with
    | .error e => (.error e, s)
    | .ok qcs =>
      match s.checkBlockCounts E chain pindex qcs with
      | (.error e, s) => (.error e, s)
      | (.ok (), s) =>
        match s.processCommitments E chain pindex.nHeight pindex.getBlockHash fJustCheck fBLSChecks qcs with
        | (.error e, s) => (.error e, s)
        | (.ok (), s) => (.ok (), s.writeBestBlock pindex.getBlockHash)

/-! ### Undoing a block -/

/-- Remember a commitment for mining if it is new or has more signers than the known one. -/
def addMineableCommitment (fqc : CFinalCommitment) : Except Failure Unit × CQuorumBlockProcessor :=
  let commitmentHash := E.hashCommitment fqc
  let k := (fqc.llmqType, fqc.quorumHash)
  match s.minableCommitmentsByQuorum[k]? with
  | none =>
    (.ok (), { s with
      minableCommitmentsByQuorum := s.minableCommitmentsByQuorum.insert k commitmentHash
      minableCommitments := s.minableCommitments.emplace commitmentHash fqc })
  | some oldHash =>
    match s.minableCommitments[oldHash]? with
    | none => (.error .thrown, s)
    | some oldFqc =>
      if fqc.countSigners > oldFqc.countSigners then
        -- what is erased is stored under the new hash
        (.ok (), { s with
          minableCommitmentsByQuorum := s.minableCommitmentsByQuorum.insert k commitmentHash
          minableCommitments := Map.emplace (s.minableCommitments.erase commitmentHash) commitmentHash fqc })
      else (.ok (), s)

def eraseCommitment (pindex : CBlockIndex) (qc : CFinalCommitment) : CQuorumBlockProcessor :=
  let s := { s with minedCommitment := s.minedCommitment.erase (qc.llmqType, qc.quorumHash) }
  let s :=
    if isQuorumRotationEnabled E llmqParams pindex then
      let key := (qc.llmqType, qc.quorumIndex, inversedHeight pindex.nHeight)
      { s with minedByInversedHeightIndexed := s.minedByInversedHeightIndexed.erase key }
    else
      let key := (qc.llmqType, inversedHeight pindex.nHeight)
      { s with minedByInversedHeight := s.minedByInversedHeight.erase key }
  s.eraseCached qc.llmqType qc.quorumHash

def undoCommitments (s : CQuorumBlockProcessor) (pindex : CBlockIndex) :
    List CFinalCommitment → Except Failure Unit × CQuorumBlockProcessor
  | [] => (.ok (), s)
  | qc :: qcs =>
    if qc.isNull then s.undoCommitments pindex qcs
    else
      match E.getLLMQParams qc.llmqType with
      | none =>
        (.error .aborted, { s with
          minedCommitment := s.minedCommitment.erase (qc.llmqType, qc.quorumHash) })
      | some llmqParams =>
        match (s.eraseCommitment E llmqParams pindex qc).addMineableCommitment E qc with
        | (.error e, s) => (.error e, s)
        | (.ok (), s) => s.undoCommitments pindex qcs

def undoBlock (block : CBlock) (pindex : CBlockIndex) : Except Failure Unit × CQuorumBlockProcessor :=
  match getCommitmentsFromBlock E block pindex with
  | .error e => (.error e, s)
  | .ok qcs =>
    match s.undoCommitments E pindex qcs with
    | (.error e, s) => (.error e, s)
    | (.ok (), s) =>
      match pindex.pprev with
      | none => (.error .aborted, s)
      | some pprev => (.ok (), s.writeBestBlock pprev.getBlockHash)

end CQuorumBlockProcessor

namespace CQuorumBlockProcessor

variable {E : LlmqEnv} {chain : ChainState} {s s' s₁ : CQuorumBlockProcessor} {nHeight : Int}
variable {blockHash quorumHash : Uint256} {qc : CFinalCommitment} {qcs : List CFinalCommitment}
variable {fJustCheck fBLSChecks : Bool} {r : Except Failure Unit} {llmqType : ℕ} {block : CBlock}
variable {pindex : CBlockIndex} {params : LLMQParams}

theorem getLLMQParams_type (h : E.getLLMQParams llmqType = some params) : params.type = llmqType := by
  have hfound := List.find?_some h
  simpa using hfound

theorem getLLMQParams_mem (h : E.getLLMQParams llmqType = some params) : params ∈ E.params.llmqs :=
  List.mem_of_find?_eq_some h

/-- The block that a commitment names is the base block of its quorum. -/
def NamesQuorum (chain : ChainState) (params : LLMQParams) (nHeight : Int) (qc : CFinalCommitment) : Prop :=
  qc.quorumHash ≠ 0 ∧ (chain.tip.isSome = true → getQuorumBlockHash chain params nHeight qc.quorumIndex = qc.quorumHash)

section

variable (E : LlmqEnv) (chain : ChainState) (block : CBlock) (pindex : CBlockIndex) (nHeight : Int) (blockHash : Uint256)
  (qc : CFinalCommitment) (fJustCheck fBLSChecks : Bool) (s : CQuorumBlockProcessor)

inductive CommitmentStep : Except Failure Unit → CQuorumBlockProcessor → Prop where
  | rejected (e : Failure) : CommitmentStep (.error e) s
  | null (params : LLMQParams) (known : E.getLLMQParams qc.llmqType = some params)
      (names : NamesQuorum chain params nHeight qc) (isNull : qc.isNull = true) : CommitmentStep (.ok ()) s
  | refused (e : Failure) (q : Except Failure Bool) (s₁ : CQuorumBlockProcessor) (notNull : qc.isNull = false)
      (queried : s.hasMinedCommitment qc.llmqType qc.quorumHash = (q, s₁)) : CommitmentStep (.error e) s₁
  | accepted (params : LLMQParams) (known : E.getLLMQParams qc.llmqType = some params)
      (names : NamesQuorum chain params nHeight qc) (notNull : qc.isNull = false)
      (s₁ : CQuorumBlockProcessor)
      (queried : s.hasMinedCommitment qc.llmqType qc.quorumHash = (.ok false, s₁))
      (mining : isMiningPhase chain params nHeight = .ok true) (base : CBlockIndex)
      (found : chain.lookupBlockIndex qc.quorumHash = some base)
      (verified : qc.verify E chain base fBLSChecks = true) :
      CommitmentStep (.ok ()) (if fJustCheck then s₁ else s₁.storeCommitment E params nHeight blockHash qc base)

/-- The processing of some commitments, one after the other, up to the first that fails. -/
inductive CommitmentSteps :
    CQuorumBlockProcessor → List CFinalCommitment → Except Failure Unit → CQuorumBlockProcessor → Prop where
  | nil (s : CQuorumBlockProcessor) : CommitmentSteps s [] (.ok ()) s
  | fail {s s' : CQuorumBlockProcessor} {qc : CFinalCommitment} (qcs : List CFinalCommitment) {e : Failure}
      (step : CommitmentStep E chain nHeight blockHash qc fJustCheck fBLSChecks s (.error e) s') :
      CommitmentSteps s (qc :: qcs) (.error e) s'
  | cons {s s₁ s' : CQuorumBlockProcessor} {qc : CFinalCommitment} {qcs : List CFinalCommitment}
      {r : Except Failure Unit}
      (step : CommitmentStep E chain nHeight blockHash qc fJustCheck fBLSChecks s (.ok ()) s₁)
      (rest : CommitmentSteps s₁ qcs r s') :
      CommitmentSteps s (qc :: qcs) r s'

/-- The processing of a block: nothing is done to the commitments, or they are counted, which only queries,
and then processed. -/
inductive BlockStep : Except Failure Unit → CQuorumBlockProcessor → Prop where
  | inactive (early : pindex.nHeight < E.params.DIP0003Height) :
      BlockStep (.ok ()) (s.writeBestBlock pindex.getBlockHash)
  | unreadable (e : Failure) (unreadable : getCommitmentsFromBlock E block pindex = .error e) : BlockStep (.error e) s
  | miscounted {qcs : List CFinalCommitment} {e : Failure} {s₁ : CQuorumBlockProcessor}
      (collected : getCommitmentsFromBlock E block pindex = .ok qcs)
      (counted : s.checkBlockCounts E chain pindex qcs = (.error e, s₁)) : BlockStep (.error e) s₁
  | failed {qcs : List CFinalCommitment} {e : Failure} {s₁ s' : CQuorumBlockProcessor}
      (collected : getCommitmentsFromBlock E block pindex = .ok qcs)
      (counted : s.checkBlockCounts E chain pindex qcs = (.ok (), s₁))
      (steps : CommitmentSteps E chain pindex.nHeight pindex.getBlockHash fJustCheck fBLSChecks s₁ qcs (.error e) s') :
      BlockStep (.error e) s'
  | processed {qcs : List CFinalCommitment} {s₁ s' : CQuorumBlockProcessor}
      (active : ¬ pindex.nHeight < E.params.DIP0003Height)
      (collected : getCommitmentsFromBlock E block pindex = .ok qcs)
      (counted : s.checkBlockCounts E chain pindex qcs = (.ok (), s₁))
      (steps : CommitmentSteps E chain pindex.nHeight pindex.getBlockHash fJustCheck fBLSChecks s₁ qcs (.ok ()) s') :
      BlockStep (.ok ()) (s'.writeBestBlock pindex.getBlockHash)

end

theorem processNonNull_step (known : E.getLLMQParams qc.llmqType = some params)
    (names : NamesQuorum chain params nHeight qc) (notNull : qc.isNull = false)
    (h : s.processNonNull E chain params nHeight blockHash qc fJustCheck fBLSChecks = (r, s')) :
    CommitmentStep E chain nHeight blockHash qc fJustCheck fBLSChecks s r s' := by
  unfold processNonNull at h
  rw [getLLMQParams_type known] at h
  split at h
  · next e s₁ queried =>
    cases h
    exact .refused e _ _ notNull queried
  · next s₁ queried =>
    cases h
    exact .refused _ _ _ notNull queried
  · next s₁ queried =>
    split at h
    · next e _ =>
      cases h
      exact .refused e _ _ notNull queried
    · cases h
      exact .refused _ _ _ notNull queried
    · next mining =>
      split at h
      · cases h
        exact .refused _ _ _ notNull queried
      · next base found =>
        split_ifs at h with hverify hjust
        · cases h
          exact .refused _ _ _ notNull queried
        · cases h
          have hstep : CommitmentStep E chain nHeight blockHash qc fJustCheck fBLSChecks s (.ok ()) (if _ then _ else _) :=
            .accepted params known names notNull _ queried mining base found (by simpa using hverify)
          rwa [if_pos hjust] at hstep
        · cases h
          have hstep : CommitmentStep E chain nHeight blockHash qc fJustCheck fBLSChecks s (.ok ()) (if _ then _ else _) :=
            .accepted params known names notNull s₁ queried mining base found (by simpa using hverify)
          rwa [if_neg hjust] at hstep

theorem processCommitment_step (h : s.processCommitment E chain nHeight blockHash qc fJustCheck fBLSChecks = (r, s')) :
    CommitmentStep E chain nHeight blockHash qc fJustCheck fBLSChecks s r s' := by
  unfold processCommitment at h
  split at h
  · cases h
    exact .rejected _
  · next params known =>
    dsimp only at h
    generalize hhash : (if chain.tip.isNone = true then qc.quorumHash
      else getQuorumBlockHash chain params nHeight qc.quorumIndex) = hash at h
    split_ifs at h with hnull hne hqc hverify
    · cases h
      exact .rejected _
    · cases h
      exact .rejected _
    all_goals
      obtain rfl : hash = qc.quorumHash := not_not.mp hne
      have names : NamesQuorum chain params nHeight qc := by
        refine ⟨hnull, fun htip => ?_⟩
        have hnone : ¬ chain.tip.isNone = true := by
          rw [Option.isNone_eq_false_iff.mpr htip]
          simp
        rwa [if_neg hnone] at hhash
    · cases h
      exact .rejected _
    · cases h
      exact .null params known names hqc
    · exact processNonNull_step known names (by simpa using hqc) h

theorem processCommitments_steps
    (h : s.processCommitments E chain nHeight blockHash fJustCheck fBLSChecks qcs = (r, s')) :
    CommitmentSteps E chain nHeight blockHash fJustCheck fBLSChecks s qcs r s' := by
  induction qcs generalizing s with
  | nil =>
    cases h
    exact .nil _
  | cons qc qcs ih =>
    unfold processCommitments at h
    split at h
    · next e s₁ hstep =>
      cases h
      exact .fail qcs (processCommitment_step hstep)
    · next s₁ hstep => exact .cons (processCommitment_step hstep) (ih h)

/-! ### Queries -/

inductive Queries : CQuorumBlockProcessor → CQuorumBlockProcessor → Prop where
  | refl (s : CQuorumBlockProcessor) : Queries s s
  | query {s s₁ s' : CQuorumBlockProcessor} {llmqType : ℕ} {quorumHash : Uint256} {q : Except Failure Bool}
      (queried : s.hasMinedCommitment llmqType quorumHash = (q, s₁)) (rest : Queries s₁ s') : Queries s s'

theorem Queries.trans (h₁ : Queries s s₁) (h₂ : Queries s₁ s') : Queries s s' := by
  induction h₁ with
  | refl => exact h₂
  | query queried _ ih => exact .query queried (ih h₂)

theorem countRequired_queries {indices : List ℕ} {n : ℕ} {q : Except Failure ℕ}
    (h : s.countRequired chain params nHeight indices n = (q, s')) : Queries s s' := by
  induction indices generalizing s n with
  | nil =>
    cases h
    exact .refl _
  | cons i indices ih =>
    unfold countRequired at h
    dsimp only at h
    split_ifs at h
    · exact ih h
    · split at h
      · next e s₁ queried =>
        cases h
        exact .query queried (.refl _)
      · next s₁ queried => exact .query queried (ih h)
      · next s₁ queried => exact .query queried (ih h)

theorem getNumCommitmentsRequired_queries {q : Except Failure ℕ}
    (h : s.getNumCommitmentsRequired E chain params nHeight = (q, s')) : Queries s s' := by
  unfold getNumCommitmentsRequired at h
  split at h
  · cases h
    exact .refl _
  · cases h
    exact .refl _
  · exact countRequired_queries h

theorem checkCounts_queries {paramsList : List LLMQParams}
    (h : s.checkCounts E chain nHeight qcs paramsList = (r, s')) : Queries s s' := by
  induction paramsList generalizing s with
  | nil =>
    cases h
    exact .refl _
  | cons params rest ih =>
    unfold checkCounts at h
    split at h
    · next e s₁ hnum =>
      cases h
      exact getNumCommitmentsRequired_queries hnum
    · next n s₁ hnum =>
      dsimp only at h
      have hqueries := getNumCommitmentsRequired_queries hnum
      split_ifs at h
      · cases h
        exact hqueries
      · cases h
        exact hqueries
      · exact hqueries.trans (ih h)

theorem checkBlockCounts_queries (h : s.checkBlockCounts E chain pindex qcs = (r, s')) : Queries s s' := by
  unfold checkBlockCounts at h
  split at h
  · cases h
    exact .refl _
  · split_ifs at h
    · cases h
      exact .refl _
    · exact checkCounts_queries h

theorem processBlock_step (h : s.processBlock E chain block pindex fJustCheck fBLSChecks = (r, s')) :
    BlockStep E chain block pindex fJustCheck fBLSChecks s r s' := by
  unfold processBlock at h
  split_ifs at h with hactive
  · cases h
    exact .inactive hactive
  · split at h
    · next e hcollect =>
      cases h
      exact .unreadable e hcollect
    · next qcs collected =>
      split at h
      · next e s₁ counted =>
        cases h
        exact .miscounted collected counted
      · next s₁ counted =>
        split at h
        · next e s₂ hsteps =>
          cases h
          exact .failed collected counted (processCommitments_steps hsteps)
        · next s₂ hsteps =>
          cases h
          exact .processed hactive collected counted (processCommitments_steps hsteps)

/-! ### The commitments of a block -/

def blockCommitments (block : CBlock) : List CFinalCommitment :=
  block.vtx.filterMap fun tx =>
    match tx.payload with
    | .quorumCommitment (some qc) => some qc.commitment
    | _ => none

theorem emplaceCommitment_perm (ret : List CFinalCommitment) (qc : CFinalCommitment) :
    (emplaceCommitment ret qc).Perm (qc :: ret) := by
  unfold emplaceCommitment
  refine List.perm_middle.trans ?_
  rw [List.takeWhile_append_dropWhile]

theorem collectCommitments_perm {txs : List CTransaction} {ret : List CFinalCommitment}
    (h : collectCommitments E pindex txs ret = .ok qcs) : qcs.Perm (ret ++ blockCommitments ⟨txs⟩) := by
  induction txs generalizing ret with
  | nil =>
    cases h
    simp [blockCommitments]
  | cons tx txs ih =>
    unfold collectCommitments at h
    split at h
    · cases h
    · next qc hpayload =>
      split at h
      · cases h
      · split_ifs at h
        have hrest := ih h
        have hcons : blockCommitments ⟨tx :: txs⟩ = qc.commitment :: blockCommitments ⟨txs⟩ := by
          simp [blockCommitments, hpayload]
        rw [hcons]
        refine hrest.trans (((emplaceCommitment_perm ret qc.commitment).append_right _).trans ?_)
        exact List.perm_middle.symm
    · next hnone hsome =>
      have hcons : blockCommitments ⟨tx :: txs⟩ = blockCommitments ⟨txs⟩ := by
        unfold blockCommitments
        rw [List.filterMap_cons]
        split
        · rfl
        · next qc hqc =>
          split at hqc
          · next p hp => exact absurd hp (hsome p)
          · cases hqc
      rw [hcons]
      exact ih h

theorem getCommitmentsFromBlock_perm (h : getCommitmentsFromBlock E block pindex = .ok qcs) :
    qcs.Perm (blockCommitments block) := by
  unfold getCommitmentsFromBlock at h
  split at h
  · cases h
  · next ret hcollect =>
    split_ifs at h
    cases h
    simpa using collectCommitments_perm hcollect

end CQuorumBlockProcessor

end OmegaCore.Llmq
