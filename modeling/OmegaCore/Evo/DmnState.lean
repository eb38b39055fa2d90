import OmegaCore.Evo.ProviderTx

/-!
The mutable part of a masternode, `CDeterministicMNState`, and the field-wise
difference between two states that list diffs are made of.  A difference carries a
set of fields and a state of which only those fields are meaningful.  It compares
operator keys with the lazy wrapper's `operator==`, so a key that is only encoded
in the other scheme counts as unchanged; `applyToState_diff` says exactly what
survives a round trip.
-/

namespace OmegaCore.Evo

structure CDeterministicMNState where
  nPoSeBanHeight : Int := -1
  nVersion : ℕ := legacyBlsVersion
  nRegisteredHeight : Int := -1
  nLastPaidHeight : Int := 0
  nConsecutivePayments : Int := 0
  nPoSePenalty : Int := 0
  nPoSeRevivedHeight : Int := -1
  nPoSeSuccessHeight : Int := -1
  nRevocationReason : ℕ := reasonNotSpecified
  confirmedHash : Uint256 := 0
  confirmedHashWithProRegTxHash : Uint256 := 0
  keyIDOwner : CKeyID := 0
  pubKeyOperator : CBLSLazyPublicKey := .null
  keyIDVoting : CKeyID := 0
  addr : CService := {}
  scriptPayout : CScript := []
  scriptOperatorPayout : CScript := []
  platformNodeID : Uint160 := 0
  platformP2PPort : BitVec 16 := 0
  platformHTTPPort : BitVec 16 := 0
  deriving DecidableEq, Repr

namespace CDeterministicMNState

def ofProRegTx (proTx : CProRegTx) : CDeterministicMNState where
  nVersion := proTx.nVersion
  keyIDOwner := proTx.keyIDOwner
  pubKeyOperator := proTx.pubKeyOperator
  keyIDVoting := proTx.keyIDVoting
  addr := proTx.addr
  scriptPayout := proTx.scriptPayout
  platformNodeID := proTx.platformNodeID
  platformP2PPort := proTx.platformP2PPort
  platformHTTPPort := proTx.platformHTTPPort

variable (s : CDeterministicMNState)

def resetOperatorFields : CDeterministicMNState :=
  { s with
    nVersion := legacyBlsVersion
    pubKeyOperator := .null
    addr := {}
    scriptOperatorPayout := []
    nRevocationReason := reasonNotSpecified
    platformNodeID := 0 }

def isBanned : Bool :=
  s.nPoSeBanHeight != -1

def banIfNotBanned (height : Int) : CDeterministicMNState :=
  if s.isBanned then s else { s with nPoSeBanHeight := height }

def revive (nRevivedHeight : Int) : CDeterministicMNState :=
  { s with nPoSePenalty := 0, nPoSeBanHeight := -1, nPoSeRevivedHeight := nRevivedHeight }

/-- `sha256` is the single SHA-256 over a masternode's hash and its confirmed block hash. -/
def updateConfirmedHash (sha256 : Uint256 → Uint256 → Uint256) (s : CDeterministicMNState)
    (proTxHash confirmedHash : Uint256) : CDeterministicMNState :=
  { s with
    confirmedHash := confirmedHash
    confirmedHashWithProRegTxHash := sha256 proTxHash confirmedHash }

/-- The states agree on the unique properties a masternode list indexes. -/
structure SameProperties (a b : CDeterministicMNState) : Prop where
  addr : a.addr = b.addr
  keyIDOwner : a.keyIDOwner = b.keyIDOwner
  pubKeyOperator : a.pubKeyOperator = b.pubKeyOperator
  platformNodeID : a.platformNodeID = b.platformNodeID

theorem SameProperties.refl (s : CDeterministicMNState) : SameProperties s s :=
  ⟨rfl, rfl, rfl, rfl⟩

theorem SameProperties.trans {a b c : CDeterministicMNState} (h₁ : SameProperties a b)
    (h₂ : SameProperties b c) : SameProperties a c :=
  ⟨h₁.addr.trans h₂.addr, h₁.keyIDOwner.trans h₂.keyIDOwner,
    h₁.pubKeyOperator.trans h₂.pubKeyOperator, h₁.platformNodeID.trans h₂.platformNodeID⟩

theorem sameProperties_banIfNotBanned (s : CDeterministicMNState) (height : Int) :
    SameProperties s (s.banIfNotBanned height) := by
  unfold banIfNotBanned
  split_ifs
  · exact .refl s
  · exact ⟨rfl, rfl, rfl, rfl⟩

end CDeterministicMNState

/-! ### State differences -/

inductive Field where
  | nRegisteredHeight | nLastPaidHeight | nPoSePenalty | nPoSeRevivedHeight | nPoSeBanHeight
  | nRevocationReason | confirmedHash | confirmedHashWithProRegTxHash | keyIDOwner
  | pubKeyOperator | keyIDVoting | addr | scriptPayout | scriptOperatorPayout
  | nConsecutivePayments | platformNodeID | platformP2PPort | platformHTTPPort
  | nVersion | nPoSeSuccessHeight
  deriving DecidableEq, Repr

def Field.all : List Field :=
  [.nRegisteredHeight, .nLastPaidHeight, .nPoSePenalty, .nPoSeRevivedHeight, .nPoSeBanHeight,
    .nRevocationReason, .confirmedHash, .confirmedHashWithProRegTxHash, .keyIDOwner,
    .pubKeyOperator, .keyIDVoting, .addr, .scriptPayout, .scriptOperatorPayout,
    .nConsecutivePayments, .platformNodeID, .platformP2PPort, .platformHTTPPort,
    .nVersion, .nPoSeSuccessHeight]

structure CDeterministicMNStateDiff where
  fields : Field → Bool
  state : CDeterministicMNState

namespace CDeterministicMNStateDiff

/-- `DMN_STATE_DIFF_LINE`'s comparison; a changed operator key also carries `nVersion`. -/
def differs (a b : CDeterministicMNState) : Field → Bool
  | .nRegisteredHeight => a.nRegisteredHeight != b.nRegisteredHeight
  | .nLastPaidHeight => a.nLastPaidHeight != b.nLastPaidHeight
  | .nPoSePenalty => a.nPoSePenalty != b.nPoSePenalty
  | .nPoSeRevivedHeight => a.nPoSeRevivedHeight != b.nPoSeRevivedHeight
  | .nPoSeBanHeight => a.nPoSeBanHeight != b.nPoSeBanHeight
  | .nRevocationReason => a.nRevocationReason != b.nRevocationReason
  | .confirmedHash => a.confirmedHash != b.confirmedHash
  | .confirmedHashWithProRegTxHash =>
    a.confirmedHashWithProRegTxHash != b.confirmedHashWithProRegTxHash
  | .keyIDOwner => a.keyIDOwner != b.keyIDOwner
  | .pubKeyOperator => !a.pubKeyOperator.eq b.pubKeyOperator
  | .keyIDVoting => a.keyIDVoting != b.keyIDVoting
  | .addr => a.addr != b.addr
  | .scriptPayout => a.scriptPayout != b.scriptPayout
  | .scriptOperatorPayout => a.scriptOperatorPayout != b.scriptOperatorPayout
  | .nConsecutivePayments => a.nConsecutivePayments != b.nConsecutivePayments
  | .platformNodeID => a.platformNodeID != b.platformNodeID
  | .platformP2PPort => a.platformP2PPort != b.platformP2PPort
  | .platformHTTPPort => a.platformHTTPPort != b.platformHTTPPort
  | .nVersion => a.nVersion != b.nVersion || !a.pubKeyOperator.eq b.pubKeyOperator
  | .nPoSeSuccessHeight => a.nPoSeSuccessHeight != b.nPoSeSuccessHeight

def hasFields (d : CDeterministicMNStateDiff) : Bool :=
  Field.all.any d.fields

theorem fields_eq_false {d : CDeterministicMNStateDiff} (hd : d.hasFields = false) (f : Field) :
    d.fields f = false := by
  have hall := List.any_eq_false.mp hd f (by cases f <;> decide)
  simpa using hall

/-- The assignments `dst.f = src.f` for the fields `f` that are on. -/
def copyFields (on : Field → Bool) (src dst : CDeterministicMNState) : CDeterministicMNState where
  nPoSeBanHeight := if on .nPoSeBanHeight then src.nPoSeBanHeight else dst.nPoSeBanHeight
  nVersion := if on .nVersion then src.nVersion else dst.nVersion
  nRegisteredHeight := if on .nRegisteredHeight then src.nRegisteredHeight else dst.nRegisteredHeight
  nLastPaidHeight := if on .nLastPaidHeight then src.nLastPaidHeight else dst.nLastPaidHeight
  nConsecutivePayments := if on .nConsecutivePayments then src.nConsecutivePayments else dst.nConsecutivePayments
  nPoSePenalty := if on .nPoSePenalty then src.nPoSePenalty else dst.nPoSePenalty
  nPoSeRevivedHeight := if on .nPoSeRevivedHeight then src.nPoSeRevivedHeight else dst.nPoSeRevivedHeight
  nPoSeSuccessHeight := if on .nPoSeSuccessHeight then src.nPoSeSuccessHeight else dst.nPoSeSuccessHeight
  nRevocationReason := if on .nRevocationReason then src.nRevocationReason else dst.nRevocationReason
  confirmedHash := if on .confirmedHash then src.confirmedHash else dst.confirmedHash
  confirmedHashWithProRegTxHash :=
    if on .confirmedHashWithProRegTxHash then src.confirmedHashWithProRegTxHash else dst.confirmedHashWithProRegTxHash
  keyIDOwner := if on .keyIDOwner then src.keyIDOwner else dst.keyIDOwner
  pubKeyOperator := if on .pubKeyOperator then src.pubKeyOperator else dst.pubKeyOperator
  keyIDVoting := if on .keyIDVoting then src.keyIDVoting else dst.keyIDVoting
  addr := if on .addr then src.addr else dst.addr
  scriptPayout := if on .scriptPayout then src.scriptPayout else dst.scriptPayout
  scriptOperatorPayout := if on .scriptOperatorPayout then src.scriptOperatorPayout else dst.scriptOperatorPayout
  platformNodeID := if on .platformNodeID then src.platformNodeID else dst.platformNodeID
  platformP2PPort := if on .platformP2PPort then src.platformP2PPort else dst.platformP2PPort
  platformHTTPPort := if on .platformHTTPPort then src.platformHTTPPort else dst.platformHTTPPort

def diff (a b : CDeterministicMNState) : CDeterministicMNStateDiff where
  fields := differs a b
  state := copyFields (differs a b) b {}

def applyToState (d : CDeterministicMNStateDiff) (target : CDeterministicMNState) :
    CDeterministicMNState :=
  copyFields d.fields d.state target

theorem copyFields_copyFields (on : Field → Bool) (a b c : CDeterministicMNState) :
    copyFields on (copyFields on a b) c = copyFields on a c := by
  have ite_idem {α : Type} (p : Bool) (x y z : α) : (if p then if p then x else y else z) = if p then x else z := by
    cases p <;> rfl
  simp only [copyFields, ite_idem]

theorem applyToState_of_not_hasFields {d : CDeterministicMNStateDiff} (hd : d.hasFields = false)
    (target : CDeterministicMNState) : d.applyToState target = target := by
  simp [applyToState, copyFields, fields_eq_false hd]

/-- Applying the difference of two states to the first gives the second, except that an
operator key which compares equal keeps its old encoding. -/
theorem applyToState_diff (a b : CDeterministicMNState) :
    (diff a b).applyToState a =
      { b with
        pubKeyOperator :=
          if a.pubKeyOperator.eq b.pubKeyOperator then a.pubKeyOperator else b.pubKeyOperator } := by
  rw [applyToState, diff, copyFields_copyFields]
  cases hkey : a.pubKeyOperator.eq b.pubKeyOperator with
  | true => simp [copyFields, differs, hkey]
  | false => simp [copyFields, differs, hkey]

theorem applyToState_diff_of_not_reencodes {a b : CDeterministicMNState}
    (hno : ¬ a.pubKeyOperator.Reencodes b.pubKeyOperator) : (diff a b).applyToState a = b := by
  rw [applyToState_diff]
  split_ifs with hkey
  · rw [CBLSLazyPublicKey.eq_of_not_reencodes (CBLSLazyPublicKey.eq_iff.mp hkey) hno]
  · rfl

end CDeterministicMNStateDiff

end OmegaCore.Evo
