import OmegaCore.Bls

/-!
The types of masternodes, the payloads of the special transactions that change the masternode list, and the
transactions and blocks that carry them.  A transaction's `nType` and the bytes of
its payload are one value here: the constructor is the type, and `none` inside it
is a payload that `GetTxPayload` cannot decode.
-/

namespace OmegaCore.Evo

/-- `MnType`; `other` stands for the values from `COUNT` on. -/
inductive MnType where
  | regular
  | highPerformance
  | other (value : ℕ)
  deriving DecidableEq, Repr

structure MnTypeStruct where
  votingWeight : ℕ
  collatAmount : Int
  deriving Repr

namespace MnType

/-- `GetMnType`: the parameters of a type, `dmn_types::Invalid` for unknown ones. -/
def params : MnType → MnTypeStruct
  | regular => ⟨1, 1000 * coin⟩
  | highPerformance => ⟨10, 10000 * coin⟩
  | other _ => ⟨0, 21000000 * coin⟩

/-- `IsValidMnType`. -/
def isValid : MnType → Bool
  | regular | highPerformance => true
  | other _ => false

theorem votingWeight_pos {t : MnType} (ht : t.isValid = true) : 0 < t.params.votingWeight := by
  cases t <;> simp_all [isValid, params]

end MnType

/-- `LEGACY_BLS_VERSION`, the version whose keys use the legacy encoding. -/
def legacyBlsVersion : ℕ := 1

def basicBlsVersion : ℕ := 2

/-- `GetVersion`, the highest payload version that is allowed. -/
def getVersion (isBasicSchemeActive : Bool) : ℕ :=
  if isBasicSchemeActive then basicBlsVersion else legacyBlsVersion

structure CProRegTx where
  nVersion : ℕ := legacyBlsVersion
  nType : MnType := .regular
  nMode : ℕ := 0
  collateralOutpoint : COutPoint := {}
  addr : CService := {}
  platformNodeID : Uint160 := 0
  platformP2PPort : BitVec 16 := 0
  platformHTTPPort : BitVec 16 := 0
  keyIDOwner : CKeyID := 0
  pubKeyOperator : CBLSLazyPublicKey := .null
  keyIDVoting : CKeyID := 0
  nOperatorReward : ℕ := 0
  scriptPayout : CScript := []
  inputsHash : Uint256 := 0
  vchSig : List UInt8 := []
  deriving DecidableEq, Repr

structure CProUpServTx where
  nVersion : ℕ := legacyBlsVersion
  nType : MnType := .regular
  proTxHash : Uint256 := 0
  addr : CService := {}
  platformNodeID : Uint160 := 0
  platformP2PPort : BitVec 16 := 0
  platformHTTPPort : BitVec 16 := 0
  scriptOperatorPayout : CScript := []
  inputsHash : Uint256 := 0
  sig : CBLSSignature := none
  deriving DecidableEq, Repr

structure CProUpRegTx where
  nVersion : ℕ := legacyBlsVersion
  proTxHash : Uint256 := 0
  nMode : ℕ := 0
  pubKeyOperator : CBLSLazyPublicKey := .null
  keyIDVoting : CKeyID := 0
  scriptPayout : CScript := []
  inputsHash : Uint256 := 0
  vchSig : List UInt8 := []
  deriving DecidableEq, Repr

structure CProUpRevTx where
  nVersion : ℕ := legacyBlsVersion
  proTxHash : Uint256 := 0
  nReason : ℕ := 0
  inputsHash : Uint256 := 0
  sig : CBLSSignature := none
  deriving DecidableEq, Repr

/-- `CProUpRevTx::REASON_NOT_SPECIFIED` and `REASON_LAST`. -/
def reasonNotSpecified : ℕ := 0

def reasonLast : ℕ := 3

/-- The members of a final commitment that list and quorum processing read. -/
structure CFinalCommitment where
  nVersion : ℕ := 1
  llmqType : ℕ := 0
  quorumHash : Uint256 := 0
  quorumIndex : Int := 0
  signers : List Bool := []
  validMembers : List Bool := []
  quorumPublicKey : CBLSPublicKey := none
  quorumVvecHash : Uint256 := 0
  quorumSig : CBLSSignature := none
  membersSig : CBLSSignature := none
  deriving DecidableEq, Repr

/-- A null commitment records that no quorum was formed. -/
def CFinalCommitment.isNull (qc : CFinalCommitment) : Bool :=
  !(qc.signers.any id || qc.validMembers.any id) &&
    !(qc.quorumPublicKey.isSome || qc.quorumVvecHash != 0 || qc.membersSig.isSome || qc.quorumSig.isSome)

structure CFinalCommitmentTxPayload where
  nVersion : ℕ := 1
  nHeight : BitVec 32 := -1
  commitment : CFinalCommitment := {}
  deriving DecidableEq, Repr

/-- A transaction's type and payload. -/
inductive Payload where
  | normal
  | proReg (ptx : Option CProRegTx)
  | proUpServ (ptx : Option CProUpServTx)
  | proUpReg (ptx : Option CProUpRegTx)
  | proUpRev (ptx : Option CProUpRevTx)
  | coinbase
  | quorumCommitment (qc : Option CFinalCommitmentTxPayload)
  | mnhfSignal
  | smsgRoom
  | unknown (nType : ℕ)
  deriving DecidableEq, Repr

structure CTransaction where
  hash : Uint256
  nVersion : Int := 3
  vin : List COutPoint := []
  vout : List CTxOut := []
  payload : Payload := .normal
  deriving DecidableEq, Repr

structure CBlock where
  vtx : List CTransaction
  deriving DecidableEq, Repr

end OmegaCore.Evo
