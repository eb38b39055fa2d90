import OmegaCore.Evo.MNList

/-!
Everything the masternode code takes from outside: the consensus parameters, the
hash and signature functions, address classification, deployment state and quorum
membership.  The theorems hold for every choice of these.  `Invalid` is the
verdict a failed check puts into the validation state, with its reason, reject
code and text.
-/

namespace OmegaCore.Evo

/-- The quorum parameters the modelled code reads. -/
structure LLMQParams where
  type : ℕ
  useRotation : Bool
  size : ℕ
  dkgInterval : ℕ
  dkgMiningWindowStart : ℕ
  dkgMiningWindowEnd : ℕ
  signingActiveQuorumCount : ℕ
  keepOldConnections : ℕ
  deriving DecidableEq, Repr

structure ConsensusParams where
  nSuperblockCycle : Int
  nMasternodeMinimumConfirmations : Int
  DIP0003Height : Int
  DIP0003EnforcementHeight : Int
  DIP0003EnforcementHash : Uint256 := 0
  nHPMasternodeHeight : Int
  nPhantomPurgeHeight : Int
  llmqs : List LLMQParams

/-- `ValidationInvalidReason`, as far as it is used here. -/
inductive ValidationInvalidReason where
  | consensus | txBadSpecial
  deriving DecidableEq, Repr

inductive RejectCode where
  | invalid | duplicate
  deriving DecidableEq, Repr

/-- What `state.Invalid` records. -/
structure Invalid where
  reason : ValidationInvalidReason
  code : RejectCode
  text : String
  deriving DecidableEq, Repr

namespace Invalid

/-- `CONSENSUS` with `REJECT_INVALID`. -/
def consensus (text : String) : Invalid := ⟨.consensus, .invalid, text⟩

/-- `CONSENSUS` with `REJECT_DUPLICATE`. -/
def consensusDuplicate (text : String) : Invalid := ⟨.consensus, .duplicate, text⟩

/-- `TX_BAD_SPECIAL` with `REJECT_INVALID`. -/
def special (text : String) : Invalid := ⟨.txBadSpecial, .invalid, text⟩

/-- `TX_BAD_SPECIAL` with `REJECT_DUPLICATE`. -/
def specialDuplicate (text : String) : Invalid := ⟨.txBadSpecial, .duplicate, text⟩

end Invalid

structure Env extends Codec where
  params : ConsensusParams
  /-- The single SHA-256 over a `proTxHash` and a block hash. -/
  sha256 : Uint256 → Uint256 → Uint256
  isV19Active : CBlockIndex → Bool
  extractDestination : CScript → Option CTxDestination
  addrIsValid : CService → Bool
  addrIsRoutable : CService → Bool
  requireRoutableExternalIP : Bool
  /-- `NetworkIDString() == MAIN`. -/
  isMainnet : Bool
  mainnetDefaultPort : BitVec 16
  mainnetPlatformP2PPort : BitVec 16
  mainnetPlatformHTTPPort : BitVec 16
  calcTxInputsHash : List COutPoint → Uint256
  makeSignString : CProRegTx → String
  /-- `CMessageSigner::VerifyMessage`. -/
  verifyMessage : CKeyID → List UInt8 → String → Bool
  /-- `CHashSigner::VerifyHash`. -/
  verifyHash : Uint256 → CKeyID → List UInt8 → Bool
  /-- Signature verification of valid points under the legacy or the basic scheme. -/
  blsVerify : Bool → G2Element → G1Element → Uint256 → Bool
  /-- `SerializeHash` of a payload, which leaves its signature out. -/
  hashProUpServTx : CProUpServTx → Uint256
  hashProUpRegTx : CProUpRegTx → Uint256
  hashProUpRevTx : CProUpRevTx → Uint256
  /-- The checks of the special transactions that do not touch the masternode list. -/
  checkOther : CTransaction → CBlockIndex → Except Invalid Unit
  /-- `GetAllQuorumMembers`. -/
  getAllQuorumMembers : ℕ → CBlockIndex → List CDeterministicMN
  /-- `mainnetPhantomExclusions`. -/
  phantomExclusions : List Uint256

namespace Env

def getLLMQParams (E : Env) (llmqType : ℕ) : Option LLMQParams :=
  E.params.llmqs.find? fun p => p.type == llmqType

/-- `IsDIP3Enforced` for a given height. -/
def isDIP3Enforced (E : Env) (nHeight : Int) : Bool :=
  decide (nHeight ≥ E.params.DIP0003EnforcementHeight)

/-- `VerifyInsecure`: an invalid signature or key never verifies. -/
def verifyInsecure (E : Env) (blsLegacyScheme : Bool) (sig : CBLSSignature) (pubKey : CBLSPublicKey)
    (hash : Uint256) : Bool :=
  match sig, pubKey with
  | some s, some k => E.blsVerify blsLegacyScheme s k hash
  | _, _ => false

end Env

/-- What processing a block reads besides the block and the previous list. -/
structure BlockContext where
  pindexPrev : CBlockIndex
  view : CCoinsViewCache
  /-- The value of `bls::bls_legacy_scheme`. -/
  blsLegacyScheme : Bool

def BlockContext.nHeight (ctx : BlockContext) : Int :=
  ctx.pindexPrev.nHeight + 1

/-- `if (bad) return state.Invalid(...)`. -/
def reject (bad : Bool) (verdict : Invalid) : Except Invalid Unit :=
  if bad then .error verdict else .ok ()

theorem reject_eq_ok {bad : Bool} {verdict : Invalid} {u : Unit} : reject bad verdict = .ok u ↔ bad = false := by
  cases bad <;> simp [reject]

def checkIf (c : Prop) [Decidable c] (check : Except Invalid Unit) : Except Invalid Unit :=
  if c then check else .ok ()

end OmegaCore.Evo
