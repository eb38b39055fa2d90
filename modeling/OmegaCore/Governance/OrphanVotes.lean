import OmegaCore.Masternode.BlockPayments
import OmegaCore.Util.Bytes
import OmegaCore.Util.CacheMap

/-!
The votes on a governance object.  An object keeps for each masternode and signal the vote that
counts; a newer one replaces it, not more than once an hour while rates are checked.  Votes that
arrive before their object are kept as orphans.  The object is copied into the store before they
are replayed on the copy that was given, so no vote that came first is recorded.
-/

namespace OmegaCore.Governance

open Util Evo

/-- `GOVERNANCE_UPDATE_MIN`, in seconds. -/
def governanceUpdateMin : Int := 60 * 60

/-- A vote.  `GetSignal` and `GetOutcome` read the two numbers as values of their enumerations. -/
structure CGovernanceVote where
  nVoteSignal : ℕ := 0
  masternodeOutpoint : COutPoint := {}
  nParentHash : Uint256 := 0
  nVoteOutcome : ℕ := 0
  nTime : Int := 0
  vchSig : Bytes := []
  deriving DecidableEq

inductive ObjectType where
  | unknown | proposal | trigger
  deriving DecidableEq, Repr

/-- What the votes depend on besides the budget. -/
structure VoteEnv extends BudgetEnv where
  nGovernanceMinQuorum_pos : 0 < nGovernanceMinQuorum
  /-- The hash of a vote.  It covers all fields but the signature. -/
  updateHash : COutPoint → Uint256 → ℕ → ℕ → Int → Uint256
  /-- `CheckSignature` with the id of a voting key. -/
  checkKeySignature : CKeyID → CGovernanceVote → Bool
  /-- `CheckSignature` with an operator key. -/
  checkOperatorSignature : CBLSPublicKey → CGovernanceVote → Bool
  /-- `IsValidLocally` of the object with this hash, its collateral included. -/
  isValidLocally : Node → Uint256 → Except String Unit
  /-- The constructor of `CSuperblock` for the object with this hash; `none` if it throws. -/
  superblockOf : Uint256 → Option CSuperblock

inductive ExceptionType where
  | none | warning | permanentError | temporaryError | internalError
  deriving DecidableEq, Repr

/-- The message is the text before the outpoint and the hashes. -/
structure CGovernanceException where
  strMessage : String := ""
  eType : ExceptionType := .none
  nNodePenalty : ℕ := 0
  deriving DecidableEq

/-- The numbers of `vote_outcome_enum_t`. -/
def VoteOutcome.number : VoteOutcome → ℕ
  | .none => 0
  | .yes => 1
  | .no => 2
  | .abstain => 3

/-- The outcome with a number that `IsValid` lets through. -/
def VoteOutcome.ofNumber : ℕ → VoteOutcome
  | 0 => .none
  | 1 => .yes
  | 2 => .no
  | _ => .abstain

def VoteSignal.ofNumber? : ℕ → Option VoteSignal
  | 0 => some .none
  | 1 => some .funding
  | 2 => some .valid
  | 3 => some .delete
  | 4 => some .endorsed
  | _ => none

namespace CGovernanceVote

/-- `operator<`. -/
def lt (vote1 vote2 : CGovernanceVote) : Bool :=
  let fResult := decide (compare vote1.masternodeOutpoint vote2.masternodeOutpoint = .lt)
  if !fResult then false
  else
    let fResult := decide (vote1.masternodeOutpoint = vote2.masternodeOutpoint)
    let fResult := fResult && decide (vote1.nParentHash < vote2.nParentHash)
    if !fResult then false
    else
      let fResult := decide (vote1.nParentHash = vote2.nParentHash)
      let fResult := fResult && decide (vote1.nVoteOutcome < vote2.nVoteOutcome)
      if !fResult then false
      else
        let fResult := decide (vote1.nVoteOutcome = vote2.nVoteOutcome)
        let fResult := fResult && decide (vote1.nVoteSignal = vote2.nVoteSignal)
        if !fResult then false
        else
          let fResult := decide (vote1.nVoteSignal = vote2.nVoteSignal)
          fResult && decide (vote1.nTime < vote2.nTime)

variable (E : VoteEnv) (node : Node)

def getHash (vote : CGovernanceVote) : Uint256 :=
  E.updateHash vote.masternodeOutpoint vote.nParentHash vote.nVoteSignal vote.nVoteOutcome vote.nTime

def isValid (vote : CGovernanceVote) (useVotingKey : Bool) : Bool :=
  if vote.nTime > node.adjustedTime + 60 * 60 then false
  else if vote.nVoteSignal > 4 then false
  else if vote.nVoteOutcome > 3 then false
  else
    match node.listAtChainTip.getMNByCollateral E.toCodec vote.masternodeOutpoint with
    | none => false
    | some dmn =>
      if useVotingKey then E.checkKeySignature dmn.pdmnState.keyIDVoting vote
      else E.checkOperatorSignature dmn.pdmnState.pubKeyOperator.get vote

end CGovernanceVote

/-! ### The file of votes -/

structure CGovernanceObjectVoteFile where
  listVotes : List CGovernanceVote := []

namespace CGovernanceObjectVoteFile

variable (E : VoteEnv)

variable (file : CGovernanceObjectVoteFile)

def hasVote (nHash : Uint256) : Bool :=
  file.listVotes.any fun vote => vote.getHash E == nHash

/-- An older vote of the same masternode on the same signal. -/
def isOldVote (vote other : CGovernanceVote) : Bool :=
  other.masternodeOutpoint == vote.masternodeOutpoint && other.nParentHash == vote.nParentHash &&
    other.nVoteSignal == vote.nVoteSignal && decide (other.nTime < vote.nTime)

def removeOldVotes (vote : CGovernanceVote) : CGovernanceObjectVoteFile :=
  ⟨file.listVotes.filter fun other => !isOldVote vote other⟩

def addVote (vote : CGovernanceVote) : CGovernanceObjectVoteFile :=
  if file.hasVote E (vote.getHash E) then file
  else removeOldVotes ⟨vote :: file.listVotes⟩ vote

variable {E} {file : CGovernanceObjectVoteFile} {vote : CGovernanceVote}

theorem addVote_ne_nil (h : file.listVotes ≠ []) : (file.addVote E vote).listVotes ≠ [] := by
  unfold addVote removeOldVotes
  split_ifs
  · exact h
  · rw [List.filter_cons_of_pos (by simp [isOldVote])]
    exact List.cons_ne_nil _ _

theorem addVote_nil (h : file.listVotes = []) : (file.addVote E vote).listVotes = [vote] := by
  simp [addVote, removeOldVotes, hasVote, isOldVote, h]

end CGovernanceObjectVoteFile

/-! ### The votes of an object -/

structure VotedObject extends CGovernanceObject where
  nHash : Uint256
  nObjectType : ObjectType
  fExpired : Bool := false
  fileVotes : CGovernanceObjectVoteFile := {}

namespace VotedObject

variable (E : VoteEnv) (node : Node)

variable (obj : VotedObject) (outpoint : COutPoint)

/-- `mapCurrentMNVotes.emplace`. -/
def emplaceRecord : VotedObject :=
  { obj with mapCurrentMNVotes := obj.mapCurrentMNVotes.emplace outpoint ⟨fun _ => none⟩ }

def voteRecord : VoteRec :=
  (obj.mapCurrentMNVotes[outpoint]?).getD ⟨fun _ => none⟩

/-- The instance of a signal, as it is after `mapInstances.emplace`. -/
def voteInstance (eSignal : VoteSignal) : VoteInstance :=
  ((obj.voteRecord outpoint).mapInstances eSignal).getD {}

def setInstance (eSignal : VoteSignal) (inst : VoteInstance) : VotedObject :=
  { obj with
    mapCurrentMNVotes := obj.mapCurrentMNVotes.insert outpoint
      ⟨fun signal => if signal = eSignal then some inst else (obj.voteRecord outpoint).mapInstances signal⟩ }

/-- Only the voting key decides on the funding of a proposal. -/
def onlyVotingKeyAllowed (vote : CGovernanceVote) : Bool :=
  decide (obj.nObjectType = .proposal) && decide (vote.nVoteSignal = 1)

/-- The invalid votes are those of the manager, which a vote with a wrong signature is added to. -/
def processVote (fRateChecksEnabled : Bool) (obj : VotedObject) (invalid : CacheMap Uint256 CGovernanceVote)
    (vote : CGovernanceVote) :
    Except CGovernanceException Unit × VotedObject × CacheMap Uint256 CGovernanceVote :=
  if obj.fileVotes.hasVote E (vote.getHash E) then
    (.error ⟨"CGovernanceObject::ProcessVote -- Already known valid vote", .none, 0⟩, obj, invalid)
  else
    match node.listAtChainTip.getMNByCollateral E.toCodec vote.masternodeOutpoint with
    | none => (.error ⟨"CGovernanceObject::ProcessVote -- Masternode ", .permanentError, 20⟩, obj, invalid)
    | some _ =>
      let obj := obj.emplaceRecord vote.masternodeOutpoint
      match VoteSignal.ofNumber? vote.nVoteSignal with
      | none =>
        (.error ⟨"CGovernanceObject::ProcessVote -- Unsupported vote signal: ", .permanentError, 20⟩, obj, invalid)
      | some eSignal =>
        if eSignal = .none then
          (.error ⟨"CGovernanceObject::ProcessVote -- Vote signal: none", .warning, 0⟩, obj, invalid)
        else
          let inst := obj.voteInstance vote.masternodeOutpoint eSignal
          let obj := obj.setInstance vote.masternodeOutpoint eSignal inst
          if vote.nTime < inst.nCreationTime then
            (.error ⟨"CGovernanceObject::ProcessVote -- Obsolete vote", .none, 0⟩, obj, invalid)
          else if vote.nTime = inst.nCreationTime ∧ vote.nVoteOutcome < inst.eOutcome.number then
            (.error ⟨"CGovernanceObject::ProcessVote -- Invalid vote, same timestamp for the different outcome, rejected",
              .none, 0⟩, obj, invalid)
          else if fRateChecksEnabled ∧ node.adjustedTime - inst.nTime < governanceUpdateMin then
            (.error ⟨"CGovernanceObject::ProcessVote -- Masternode voting too often", .temporaryError, 0⟩, obj, invalid)
          else if !vote.isValid E node (obj.onlyVotingKeyAllowed vote) then
            (.error ⟨"CGovernanceObject::ProcessVote -- Invalid vote", .permanentError, 20⟩, obj,
              (invalid.insert (vote.getHash E) vote).1)
          else
            let nVoteTimeUpdate := if fRateChecksEnabled then node.adjustedTime else inst.nTime
            let obj := obj.setInstance vote.masternodeOutpoint eSignal
              ⟨VoteOutcome.ofNumber vote.nVoteOutcome, nVoteTimeUpdate, vote.nTime⟩
            (.ok (), { obj with fileVotes := obj.fileVotes.addVote E vote, fDirtyCache := true }, invalid)

/-- `UpdateSentinelVariables`. -/
def updateSentinel : VotedObject :=
  { obj with toCGovernanceObject := obj.toCGovernanceObject.updateSentinelVariables E.toBudgetEnv node }

def prepareDeletion (nDeletionTime : Int) : VotedObject :=
  { obj with
    fCachedDelete := true
    nDeletionTime := if obj.nDeletionTime = 0 then nDeletionTime else obj.nDeletionTime }

def received (nHash : Uint256) (nObjectType : ObjectType) : VotedObject where
  nHash := nHash
  nObjectType := nObjectType

end VotedObject

open List Option

/-- `GOVERNANCE_ORPHAN_EXPIRATION_TIME`, in seconds. -/
def governanceOrphanExpirationTime : Int := 10 * 60

/-- The order of the orphan votes compares the votes only. -/
def orphanLt (p1 p2 : CGovernanceVote × Int) : Bool :=
  p1.1.lt p2.1

def Node.at (node : Node) (adjustedTime : Int) : Node :=
  { node with adjustedTime := adjustedTime }

/-- The objects with their votes, and the votes that are known besides. -/
structure VoteManager where
  mapObjects : Map Uint256 VotedObject
  mapTrigger : Map Uint256 CSuperblock
  /-- The object of a vote, by its hash in place of its address. -/
  cmapVoteToObject : CacheMap Uint256 Uint256
  cmapInvalidVotes : CacheMap Uint256 CGovernanceVote
  cmmapOrphanVotes : CacheMultiMap Uint256 (CGovernanceVote × Int)
  fRateChecksEnabled : Bool := true

namespace VoteManager

variable (E : VoteEnv) (node : Node)

variable (g : VoteManager) (nHash : Uint256)

def replayOrphan (s : VoteManager × VotedObject) (pairVote : CGovernanceVote × Int) : VoteManager × VotedObject :=
  let remove (g : VoteManager) :=
    { g with cmmapOrphanVotes := g.cmmapOrphanVotes.eraseValue orphanLt nHash pairVote }
  if pairVote.2 < node.adjustedTime then (remove s.1, s.2)
  else
    let (result, govobj, invalid) := s.2.processVote E node s.1.fRateChecksEnabled s.1.cmapInvalidVotes pairVote.1
    let g := { s.1 with cmapInvalidVotes := invalid }
    match result with
    | .ok () => (remove g, govobj)
    | .error _ => (g, govobj)

/-- The replay on the given object, with the rate checks off. -/
def checkOrphanVotes (govobj : VotedObject) : VoteManager × VotedObject :=
  let vecVotePairs := g.cmmapOrphanVotes.getAll govobj.nHash
  let s := vecVotePairs.foldl (replayOrphan E node govobj.nHash) ({ g with fRateChecksEnabled := false }, govobj)
  ({ s.1 with fRateChecksEnabled := g.fRateChecksEnabled }, s.2)

def addNewTrigger : Option VoteManager :=
  if g.mapTrigger[nHash]?.isSome then none
  else (E.superblockOf nHash).map fun pSuperblock => { g with mapTrigger := g.mapTrigger.insert nHash pSuperblock }

/-- The second part is what becomes of the caller's object. -/
def addGovernanceObject (govobj : VotedObject) : VoteManager × VotedObject :=
  let nHash := govobj.nHash
  let govobj := govobj.updateSentinel E node
  match E.isValidLocally node nHash with
  | .error _ => (g, govobj)
  | .ok () =>
    if g.mapObjects[nHash]?.isSome then (g, govobj)
    else
      let g := { g with mapObjects := g.mapObjects.insert nHash govobj }
      if govobj.nObjectType = .trigger then
        match g.addNewTrigger E nHash with
        | none =>
          ({ g with mapObjects := g.mapObjects.insert nHash (govobj.prepareDeletion node.adjustedTime) }, govobj)
        | some g => g.checkOrphanVotes E node govobj
      else g.checkOrphanVotes E node govobj

/-- There is no result where the insertion of an orphan has none. -/
def processVote (vote : CGovernanceVote) : Option (Bool × CGovernanceException × VoteManager) :=
  let nHashVote := vote.getHash E
  if g.cmapVoteToObject.hasKey nHashVote then some (false, {}, g)
  else if g.cmapInvalidVotes.hasKey nHashVote then
    some (false, ⟨"CGovernanceManager::ProcessVote -- Old invalid vote ", .permanentError, 20⟩, g)
  else
    match g.mapObjects[vote.nParentHash]? with
    | none =>
      (g.cmmapOrphanVotes.insert orphanLt vote.nParentHash
        (vote, node.adjustedTime + governanceOrphanExpirationTime)).map fun r =>
          (false, ⟨"CGovernanceManager::ProcessVote -- Unknown parent object ", .warning, 0⟩,
            { g with cmmapOrphanVotes := r.1 })
    | some govobj =>
      if govobj.fCachedDelete || govobj.fExpired then some (false, {}, g)
      else
        let (result, govobj, invalid) := govobj.processVote E node g.fRateChecksEnabled g.cmapInvalidVotes vote
        let g := { g with mapObjects := g.mapObjects.insert vote.nParentHash govobj, cmapInvalidVotes := invalid }
        match result with
        | .error exception => some (false, exception, g)
        | .ok () =>
          let r := g.cmapVoteToObject.insert nHashVote vote.nParentHash
          some (r.2, {}, { g with cmapVoteToObject := r.1 })

/-- Votes one after the other, each with the time of its arrival. -/
def deliverVotes (g : VoteManager) : List (CGovernanceVote × Int) → Option VoteManager
  | [] => some g
  | (vote, nNow) :: rest => (g.processVote E (node.at nNow) vote).bind fun r => r.2.2.deliverVotes rest

/-! ### What is recorded -/

def votesOn : List CGovernanceVote :=
  (g.mapObjects[nHash]?).elim [] (·.fileVotes.listVotes)

/-- The outcome and the time of the vote that counts. -/
def currentVote (outpoint : COutPoint) (eSignal : VoteSignal) : VoteOutcome × Int :=
  (g.mapObjects[nHash]?).elim (.none, 0) fun obj =>
    ((obj.voteInstance outpoint eSignal).eOutcome, (obj.voteInstance outpoint eSignal).nCreationTime)

def SameVotesOn (g g' : VoteManager) (nHash : Uint256) : Prop :=
  (∀ vote, vote ∈ g.votesOn nHash ↔ vote ∈ g'.votesOn nHash) ∧
    ∀ outpoint eSignal, g.currentVote nHash outpoint eSignal = g'.currentVote nHash outpoint eSignal

/-- The store takes the object: it is valid, and a trigger can be added. -/
def Accepts (nObjectType : ObjectType) : Prop :=
  E.isValidLocally node nHash = .ok () ∧
    (nObjectType = .trigger → g.mapTrigger[nHash]? = none ∧ (E.superblockOf nHash).isSome = true)

/-- A vote has a signal, a time and does not come in the first hour of the clock. -/
def Recordable (d : CGovernanceVote × Int) : Prop :=
  d.1.nVoteSignal ≠ 0 ∧ 0 ≤ d.1.nTime ∧ (g.fRateChecksEnabled = true → governanceUpdateMin ≤ d.2)

end VoteManager

/-! ### One vote on an object -/

namespace VotedObject

variable {E : VoteEnv} {node : Node} {rate : Bool} {obj : VotedObject} {invalid : CacheMap Uint256 CGovernanceVote}
variable {vote : CGovernanceVote}

/-- No vote is recorded, though there may be places for some. -/
structure Blank (obj : VotedObject) : Prop where
  file : obj.fileVotes.listVotes = []
  inst : ∀ outpoint eSignal, obj.voteInstance outpoint eSignal = {}

theorem voteInstance_emplaceRecord (outpoint o : COutPoint) (s : VoteSignal) :
    (obj.emplaceRecord outpoint).voteInstance o s = obj.voteInstance o s := by
  unfold voteInstance voteRecord emplaceRecord
  rw [Map.get_emplace]
  split_ifs with h
  · rw [h.1, h.2]
    rfl
  · rfl

theorem voteInstance_setInstance (outpoint o : COutPoint) (eSignal s : VoteSignal) (inst : VoteInstance) :
    (obj.setInstance outpoint eSignal inst).voteInstance o s =
      if o = outpoint ∧ s = eSignal then inst else obj.voteInstance o s := by
  unfold voteInstance setInstance
  rw [voteRecord, Map.get_insert]
  by_cases ho : o = outpoint
  · subst ho
    simp only [if_true, getD_some, true_and]
    split_ifs <;> rfl
  · simp only [ho, if_false, false_and]
    rfl

theorem Blank.emplaceRecord (h : obj.Blank) (outpoint : COutPoint) : (obj.emplaceRecord outpoint).Blank :=
  ⟨h.file, fun o s => (voteInstance_emplaceRecord outpoint o s).trans (h.inst o s)⟩

theorem Blank.setInstance (h : obj.Blank) (outpoint : COutPoint) (eSignal : VoteSignal) :
    (obj.setInstance outpoint eSignal {}).Blank := by
  refine ⟨h.file, fun o s => ?_⟩
  rw [voteInstance_setInstance]
  split_ifs
  · rfl
  · exact h.inst o s

/-- What no vote changes. -/
structure SameObject (obj obj' : VotedObject) : Prop where
  fCachedDelete : obj'.fCachedDelete = obj.fCachedDelete
  fExpired : obj'.fExpired = obj.fExpired
  nObjectType : obj'.nObjectType = obj.nObjectType

theorem processVote_cases :
    ∃ result obj' invalid', obj.processVote E node rate invalid vote = (result, obj', invalid') ∧
      (obj'.fileVotes = obj.fileVotes ∨ obj'.fileVotes = obj.fileVotes.addVote E vote) ∧ SameObject obj obj' := by
  unfold processVote
  dsimp only
  repeat' split
  all_goals first
    | exact ⟨_, _, _, rfl, .inl rfl, rfl, rfl, rfl⟩
    | exact ⟨_, _, _, rfl, .inr rfl, rfl, rfl, rfl⟩

theorem sameObject_processVote : SameObject obj (obj.processVote E node rate invalid vote).2.1 := by
  obtain ⟨_, _, _, heq, -, hsame⟩ := @processVote_cases E node rate obj invalid vote
  rw [heq]
  exact hsame

theorem processVote_ne_nil (h : obj.fileVotes.listVotes ≠ []) :
    (obj.processVote E node rate invalid vote).2.1.fileVotes.listVotes ≠ [] := by
  obtain ⟨_, _, _, heq, hfile | hfile, -⟩ := @processVote_cases E node rate obj invalid vote
  · rw [heq]
    exact hfile ▸ h
  · rw [heq]
    exact hfile ▸ CGovernanceObjectVoteFile.addVote_ne_nil h

theorem getMNByCollateral_of_isValid {useVotingKey : Bool} (h : vote.isValid E node useVotingKey = true) :
    vote.nVoteSignal ≤ 4 ∧
      ∃ dmn, node.listAtChainTip.getMNByCollateral E.toCodec vote.masternodeOutpoint = some dmn := by
  unfold CGovernanceVote.isValid at h
  split at h
  · cases h
  split at h
  · cases h
  next hsignal =>
  split at h
  · cases h
  refine ⟨not_lt.mp hsignal, ?_⟩
  cases hmn : node.listAtChainTip.getMNByCollateral E.toCodec vote.masternodeOutpoint with
  | none =>
    rw [hmn] at h
    cases h
  | some dmn => exact ⟨dmn, rfl⟩

theorem ofNumber?_of_le {n : ℕ} (h : n ≤ 4) : ∃ eSignal, VoteSignal.ofNumber? n = some eSignal ∧
    (eSignal = .none ↔ n = 0) := by
  match n, h with
  | 0, _ => exact ⟨.none, rfl, by simp⟩
  | 1, _ => exact ⟨.funding, rfl, by simp⟩
  | 2, _ => exact ⟨.valid, rfl, by simp⟩
  | 3, _ => exact ⟨.delete, rfl, by simp⟩
  | 4, _ => exact ⟨.endorsed, rfl, by simp⟩

/-- The first vote on an object: it is recorded if it has a signal, a time and passes the rate check. -/
theorem processVote_of_blank (hblank : obj.Blank)
    (hvalid : vote.isValid E node (obj.onlyVotingKeyAllowed vote) = true) :
    (obj.processVote E node rate invalid vote).2.2 = invalid ∧
    (vote.nVoteSignal ≠ 0 ∧ 0 ≤ vote.nTime ∧ (rate = true → governanceUpdateMin ≤ node.adjustedTime) →
      (obj.processVote E node rate invalid vote).2.1.fileVotes.listVotes ≠ []) ∧
    (¬ (vote.nVoteSignal ≠ 0 ∧ 0 ≤ vote.nTime ∧ (rate = true → governanceUpdateMin ≤ node.adjustedTime)) →
      (∃ exception, (obj.processVote E node rate invalid vote).1 = .error exception) ∧
        (obj.processVote E node rate invalid vote).2.1.Blank) := by
  obtain ⟨hsignal, dmn, hmn⟩ := getMNByCollateral_of_isValid hvalid
  obtain ⟨eSignal, hof, hnone⟩ := ofNumber?_of_le hsignal
  have hfile : obj.fileVotes.hasVote E (vote.getHash E) = false := by
    simp [CGovernanceObjectVoteFile.hasVote, hblank.file]
  have hrecord := hblank.emplaceRecord vote.masternodeOutpoint
  have hinst := hrecord.inst vote.masternodeOutpoint eSignal
  have hset := hrecord.setInstance vote.masternodeOutpoint eSignal
  unfold processVote
  simp only [hfile, hmn, hof, Bool.false_eq_true, if_false]
  by_cases hsig : eSignal = .none
  · rw [if_pos hsig]
    exact ⟨rfl, fun h => absurd (hnone.mp hsig) h.1, fun _ => ⟨⟨_, rfl⟩, hrecord⟩⟩
  rw [if_neg hsig, hinst]
  by_cases htime : vote.nTime < 0
  · rw [if_pos htime]
    exact ⟨rfl, fun h => absurd h.2.1 (not_le.mpr htime), fun _ => ⟨⟨_, rfl⟩, hset⟩⟩
  rw [if_neg htime, if_neg fun h => absurd h.2 (Nat.not_lt_zero _), sub_zero]
  by_cases hrate : rate = true ∧ node.adjustedTime < governanceUpdateMin
  · rw [if_pos hrate]
    exact ⟨rfl, fun h => absurd (h.2.2 hrate.1) (not_le.mpr hrate.2), fun _ => ⟨⟨_, rfl⟩, hset⟩⟩
  have hok : vote.nVoteSignal ≠ 0 ∧ 0 ≤ vote.nTime ∧ (rate = true → governanceUpdateMin ≤ node.adjustedTime) :=
    ⟨fun h => hsig (hnone.mpr h), not_lt.mp htime, fun h => not_lt.mp fun hlt => hrate ⟨h, hlt⟩⟩
  have hkey : vote.isValid E node
      (((obj.emplaceRecord vote.masternodeOutpoint).setInstance vote.masternodeOutpoint eSignal
        {}).onlyVotingKeyAllowed vote) = true := hvalid
  rw [if_neg hrate, hkey]
  refine ⟨rfl, fun _ h => ?_, fun h => absurd hok h⟩
  cases (CGovernanceObjectVoteFile.addVote_nil hblank.file).symm.trans h

theorem Blank.prepareDeletion (h : obj.Blank) (nDeletionTime : Int) : (obj.prepareDeletion nDeletionTime).Blank :=
  ⟨h.file, h.inst⟩

theorem Blank.received (nHash : Uint256) (nObjectType : ObjectType) : (received nHash nObjectType).Blank :=
  ⟨rfl, fun outpoint eSignal => by simp [voteInstance, voteRecord, VotedObject.received]⟩

theorem updateSentinel_received (nHash : Uint256) (nObjectType : ObjectType) :
    ((received nHash nObjectType).updateSentinel E node).Blank ∧
      ((received nHash nObjectType).updateSentinel E node).fCachedDelete = false := by
  have hcount : (received nHash nObjectType).toCGovernanceObject.getAbsoluteYesCount E.toBudgetEnv node .delete =
      0 := rfl
  unfold updateSentinel CGovernanceObject.updateSentinelVariables
  dsimp only
  split
  · exact ⟨.received nHash nObjectType, rfl⟩
  · refine ⟨⟨rfl, (Blank.received nHash nObjectType).inst⟩, ?_⟩
    rw [hcount, decide_eq_false (not_le.mpr (lt_max_of_lt_left E.nGovernanceMinQuorum_pos))]
    rfl

end VotedObject

/-! ### Deliveries -/

namespace VoteManager

variable {E : VoteEnv} {node : Node} {g : VoteManager} {nHash : Uint256} {nObjectType : ObjectType}
  {vote : CGovernanceVote} {obj : VotedObject}

def NoVotesOn (g : VoteManager) (nHash : Uint256) : Prop :=
  ∀ obj, g.mapObjects[nHash]? = some obj → obj.Blank

theorem NoVotesOn.votesOn (h : g.NoVotesOn nHash) : g.votesOn nHash = [] := by
  unfold VoteManager.votesOn
  cases hget : g.mapObjects[nHash]? with
  | none => rfl
  | some obj => exact (h obj hget).file

theorem NoVotesOn.currentVote (h : g.NoVotesOn nHash) (outpoint : COutPoint) (eSignal : VoteSignal) :
    g.currentVote nHash outpoint eSignal = (.none, 0) := by
  unfold VoteManager.currentVote
  cases hget : g.mapObjects[nHash]? with
  | none => rfl
  | some obj =>
    rw [elim_some, (h obj hget).inst]

/-- A vote on a stored object is skipped or given to it. -/
theorem processVote_of_stored (hget : g.mapObjects[vote.nParentHash]? = some obj) :
    ∃ ok exception g', g.processVote E node vote = some (ok, exception, g') ∧
      g'.fRateChecksEnabled = g.fRateChecksEnabled ∧
      ((g' = g ∧ (g.cmapVoteToObject.hasKey (vote.getHash E) = true ∨
          g.cmapInvalidVotes.hasKey (vote.getHash E) = true ∨ (obj.fCachedDelete || obj.fExpired) = true)) ∨
        (obj.fCachedDelete = false ∧
          let r := obj.processVote E node g.fRateChecksEnabled g.cmapInvalidVotes vote
          g'.mapObjects[vote.nParentHash]? = some r.2.1 ∧ g'.cmapInvalidVotes = r.2.2 ∧
            ((∃ e, r.1 = .error e) → g'.cmapVoteToObject = g.cmapVoteToObject))) := by
  unfold processVote
  rw [hget]
  dsimp only
  split
  next hknown => exact ⟨_, _, g, rfl, rfl, .inl ⟨rfl, .inl hknown⟩⟩
  split
  next hold => exact ⟨_, _, g, rfl, rfl, .inl ⟨rfl, .inr (.inl hold)⟩⟩
  split
  next hlive => exact ⟨_, _, g, rfl, rfl, .inl ⟨rfl, .inr (.inr hlive)⟩⟩
  next hlive =>
  have hdelete := (Bool.or_eq_false_iff.mp (Bool.not_eq_true _ ▸ hlive)).1
  generalize obj.processVote E node g.fRateChecksEnabled g.cmapInvalidVotes vote = r
  obtain ⟨result, obj', invalid⟩ := r
  have hput : (g.mapObjects.insert vote.nParentHash obj')[vote.nParentHash]? = some obj' := by
    rw [Map.get_insert, if_pos rfl]
  cases result with
  | error e => exact ⟨_, _, _, rfl, rfl, .inr ⟨hdelete, hput, rfl, fun _ => rfl⟩⟩
  | ok u =>
    refine ⟨_, _, _, rfl, rfl, .inr ⟨hdelete, hput, rfl, ?_⟩⟩
    rintro ⟨e, he⟩
    cases he

/-- A vote on an unknown object leaves the objects alone, and takes at most one place among the orphans. -/
theorem processVote_of_unknown (hnone : g.mapObjects[vote.nParentHash]? = none)
    (hfits : g.cmmapOrphanVotes.listItems.length < g.cmmapOrphanVotes.nMaxSize) :
    ∃ ok exception g', g.processVote E node vote = some (ok, exception, g') ∧ g'.mapObjects = g.mapObjects ∧
      g'.cmmapOrphanVotes.nMaxSize = g.cmmapOrphanVotes.nMaxSize ∧
      g'.cmmapOrphanVotes.listItems.length ≤ g.cmmapOrphanVotes.listItems.length + 1 := by
  unfold processVote
  dsimp only
  split
  · exact ⟨_, _, _, rfl, rfl, rfl, Nat.le_succ _⟩
  split
  · exact ⟨_, _, _, rfl, rfl, rfl, Nat.le_succ _⟩
  rw [hnone]
  obtain ⟨c, isNew, hinsert, hmax, hlength, -⟩ :=
    @CacheMultiMap.insert_of_lt _ _ _ _ _ orphanLt _ g.cmmapOrphanVotes vote.nParentHash
      (vote, node.adjustedTime + governanceOrphanExpirationTime) hfits
  rw [hinsert]
  exact ⟨_, _, _, rfl, rfl, hmax, hlength⟩

section

variable (votes : List (CGovernanceVote × Int)) (hparent : ∀ d ∈ votes, d.1.nParentHash = nHash)

include hparent

/-- Votes that arrive before the object leave the objects alone. -/
theorem deliverVotes_unknown (hnone : g.mapObjects[nHash]? = none)
    (hfits : g.cmmapOrphanVotes.listItems.length + votes.length ≤ g.cmmapOrphanVotes.nMaxSize) :
    ∃ g', g.deliverVotes E node votes = some g' ∧ g'.mapObjects = g.mapObjects := by
  induction votes generalizing g with
  | nil => exact ⟨g, rfl, rfl⟩
  | cons d rest ih =>
    obtain ⟨vote, nNow⟩ := d
    obtain ⟨hhead, hrest⟩ := forall_mem_cons.mp hparent
    rw [length_cons] at hfits
    obtain ⟨ok, exception, g', heq, hobjects, hmax, hlength⟩ :=
      @processVote_of_unknown E (node.at nNow) g vote (hhead ▸ hnone) (by omega)
    obtain ⟨g'', hdeliver, hobjects'⟩ :=
      ih hrest (hobjects ▸ hnone) (by omega)
    refine ⟨g'', ?_, hobjects'.trans hobjects⟩
    rw [deliverVotes, heq]
    exact hdeliver

/-- Votes that are recorded are not lost to later ones. -/
theorem deliverVotes_ne_nil (hget : g.mapObjects[nHash]? = some obj) (hfile : obj.fileVotes.listVotes ≠ []) :
    ∃ g', g.deliverVotes E node votes = some g' ∧ g'.votesOn nHash ≠ [] := by
  induction votes generalizing g obj with
  | nil =>
    refine ⟨g, rfl, ?_⟩
    rw [votesOn, hget]
    exact hfile
  | cons d rest ih =>
    obtain ⟨vote, nNow⟩ := d
    obtain ⟨hhead, hrest⟩ := forall_mem_cons.mp hparent
    obtain ⟨ok, exception, g', heq, -, hcases⟩ :=
      @processVote_of_stored E (node.at nNow) g vote obj (hhead ▸ hget)
    rw [deliverVotes, heq, bind_some]
    rcases hcases with ⟨rfl, -⟩ | ⟨-, hget', -⟩
    · exact ih hrest hget hfile
    · exact ih hrest (hhead ▸ hget') (VotedObject.processVote_ne_nil hfile)

/-- The first vote that can be recorded is, unless the object is to be deleted. -/
theorem deliverVotes_of_blank (hget : g.mapObjects[nHash]? = some obj) (hblank : obj.Blank)
    (hexpired : obj.fExpired = false)
    (hvalid : ∀ d ∈ votes, d.1.isValid E (node.at d.2) (obj.onlyVotingKeyAllowed d.1) = true)
    (hnew : ∀ d ∈ votes, g.cmapVoteToObject.hasKey (d.1.getHash E) = false ∧
      g.cmapInvalidVotes.hasKey (d.1.getHash E) = false) :
    ∃ g', g.deliverVotes E node votes = some g' ∧
      (obj.fCachedDelete = false → (∃ d ∈ votes, g.Recordable d) → g'.votesOn nHash ≠ []) ∧
      ((obj.fCachedDelete = true ∨ ∀ d ∈ votes, ¬ g.Recordable d) → g'.NoVotesOn nHash) := by
  induction votes generalizing g obj with
  | nil =>
    refine ⟨g, rfl, fun _ h => by simp at h, fun _ obj' hget' => ?_⟩
    cases hget.symm.trans hget'
    exact hblank
  | cons d rest ih =>
    obtain ⟨vote, nNow⟩ := d
    obtain ⟨hhead, hrest⟩ := forall_mem_cons.mp hparent
    obtain ⟨hvalidHead, hvalid⟩ := forall_mem_cons.mp hvalid
    obtain ⟨⟨hknown, hold⟩, hnew⟩ := forall_mem_cons.mp hnew
    simp only [mem_cons, exists_eq_or_imp, forall_eq_or_imp]
    obtain ⟨ok, exception, g', heq, hrate, hcases⟩ :=
      @processVote_of_stored E (node.at nNow) g vote obj (hhead ▸ hget)
    rw [deliverVotes, heq, bind_some]
    rcases hcases with ⟨rfl, hskip⟩ | ⟨hdelete, hget', hinvalid, hsame⟩
    · have hdelete : obj.fCachedDelete = true := by simpa [hknown, hold, hexpired] using hskip
      obtain ⟨g'', hdeliver, -, hno⟩ := ih hrest hget hblank hexpired hvalid hnew
      exact ⟨g'', hdeliver, fun h => absurd (h.symm.trans hdelete) Bool.false_ne_true, fun _ => hno (.inl hdelete)⟩
    obtain ⟨hkeep, hyes, hno⟩ := @VotedObject.processVote_of_blank E (node.at nNow) g.fRateChecksEnabled obj
      g.cmapInvalidVotes vote hblank hvalidHead
    rw [hdelete]
    by_cases hd : g.Recordable (vote, nNow)
    · obtain ⟨g'', hdeliver, hvotes⟩ := deliverVotes_ne_nil rest hrest (hhead ▸ hget') (hyes hd)
      exact ⟨g'', hdeliver, fun _ _ => hvotes, fun h => absurd hd (h.resolve_left Bool.false_ne_true).1⟩
    · have hresult := hno hd
      have hobj := @VotedObject.sameObject_processVote E (node.at nNow) g.fRateChecksEnabled obj g.cmapInvalidVotes vote
      have hrecord (d : CGovernanceVote × Int) : g'.Recordable d ↔ g.Recordable d := by
        rw [Recordable, hrate, Recordable]
      obtain ⟨g'', hdeliver, hyes', hno'⟩ := ih hrest (hhead ▸ hget') hresult.2 (hobj.fExpired.trans hexpired)
        (fun d hd => by
          rw [VotedObject.onlyVotingKeyAllowed, hobj.nObjectType]
          exact hvalid d hd)
        (fun d hd => by
          rw [hsame hresult.1, hinvalid, hkeep]
          exact hnew d hd)
      simp only [hrecord] at hyes' hno'
      exact ⟨g'', hdeliver, fun _ h => hyes' (hobj.fCachedDelete.trans hdelete) (h.resolve_left hd),
        fun h => hno' (.inr (h.resolve_left Bool.false_ne_true).2)⟩

end

/-! ### Adding the object -/

theorem replayOrphan_mapObjects (s : VoteManager × VotedObject) (pairVote : CGovernanceVote × Int) :
    (replayOrphan E node nHash s pairVote).1.mapObjects = s.1.mapObjects := by
  unfold replayOrphan
  dsimp only
  split
  · rfl
  split
  · rfl
  · rfl

theorem checkOrphanVotes_mapObjects (govobj : VotedObject) :
    (g.checkOrphanVotes E node govobj).1.mapObjects = g.mapObjects := by
  exact foldlRecOn (motive := fun s => s.1.mapObjects = g.mapObjects)
    (b := ({ g with fRateChecksEnabled := false }, govobj)) _ (replayOrphan E node govobj.nHash) rfl
    fun s h p _ => (replayOrphan_mapObjects s p).trans h

theorem checkOrphanVotes_nil {govobj : VotedObject} (h : g.cmmapOrphanVotes.getAll govobj.nHash = []) :
    g.checkOrphanVotes E node govobj = (g, govobj) := by
  unfold checkOrphanVotes
  rw [h]
  rfl

/-- An object that is not valid is not stored.  Otherwise a copy is, to be deleted if it is refused. -/
theorem addGovernanceObject_cases (hnone : g.mapObjects[nHash]? = none) :
    (¬ g.Accepts E node nHash nObjectType ∧ (g.addGovernanceObject E node (.received nHash nObjectType)).1 = g) ∨
    ∃ obj mapTrigger, obj.Blank ∧ obj.nObjectType = nObjectType ∧ obj.fExpired = false ∧
      (obj.fCachedDelete = false ↔ g.Accepts E node nHash nObjectType) ∧
      (g.addGovernanceObject E node (.received nHash nObjectType)).1.mapObjects = g.mapObjects.insert nHash obj ∧
      (g.cmmapOrphanVotes.getAll nHash = [] → (g.addGovernanceObject E node (.received nHash nObjectType)).1 =
        { g with mapObjects := g.mapObjects.insert nHash obj, mapTrigger := mapTrigger }) := by
  obtain ⟨hblank, hdelete⟩ := @VotedObject.updateSentinel_received E node nHash nObjectType
  have hsome : ¬ g.mapObjects[nHash]?.isSome = true := by simp [hnone]
  unfold addGovernanceObject
  dsimp only [VotedObject.received]
  cases hvalid : E.isValidLocally node nHash with
  | error e =>
    refine .inl ⟨fun h => ?_, rfl⟩
    cases hvalid.symm.trans h.1
  | ok u =>
    rw [if_neg hsome]
    by_cases htype : nObjectType = .trigger
    · rw [if_pos (by exact htype)]
      unfold addNewTrigger
      by_cases hhave : g.mapTrigger[nHash]?.isSome = true
      · rw [if_pos hhave, Map.insert_insert]
        refine .inr ⟨_, _, hblank.prepareDeletion node.adjustedTime, rfl, rfl, iff_of_false nofun fun h => ?_, rfl,
          fun _ => rfl⟩
        rw [(h.2 htype).1] at hhave
        cases hhave
      · rw [if_neg hhave]
        cases hblock : E.superblockOf nHash with
        | none =>
          rw [Map.insert_insert]
          refine .inr ⟨_, _, hblank.prepareDeletion node.adjustedTime, rfl, rfl, iff_of_false nofun fun h => ?_, rfl,
            fun _ => rfl⟩
          have hsuper := (h.2 htype).2
          rw [hblock] at hsuper
          cases hsuper
        | some pSuperblock =>
          have haccepts : g.Accepts E node nHash nObjectType :=
            ⟨hvalid, fun _ => ⟨by simpa using hhave, by rw [hblock]; rfl⟩⟩
          exact .inr ⟨_, _, hblank, rfl, rfl, iff_of_true hdelete haccepts, checkOrphanVotes_mapObjects _,
            fun hnil => congrArg Prod.fst (checkOrphanVotes_nil hnil)⟩
    · rw [if_neg (by exact htype)]
      exact .inr ⟨_, _, hblank, rfl, rfl, iff_of_true hdelete ⟨hvalid, fun h => absurd h htype⟩,
        checkOrphanVotes_mapObjects _, fun hnil => congrArg Prod.fst (checkOrphanVotes_nil hnil)⟩

theorem noVotesOn_addGovernanceObject (hnone : g.mapObjects[nHash]? = none) :
    (g.addGovernanceObject E node (.received nHash nObjectType)).1.NoVotesOn nHash := by
  intro obj hget
  rcases @addGovernanceObject_cases E node g nHash nObjectType hnone with ⟨-, heq⟩ | ⟨obj', _, hblank, -, -, -, heq, -⟩
  · rw [heq, hnone] at hget
    cases hget
  · rw [heq, Map.get_insert, if_pos rfl] at hget
    cases hget
    exact hblank

/-- Votes after their object and before it leave the same votes on the stored object exactly if the object is
refused or none of the votes can be recorded at all. -/
theorem sameVotesOn_orphans_iff (hnone : g.mapObjects[nHash]? = none)
    (horphans : g.cmmapOrphanVotes.getAll nHash = []) (nNow nNow' : Int) (after before : List (CGovernanceVote × Int))
    (hsame : ∀ vote, vote ∈ before.map Prod.fst ↔ vote ∈ after.map Prod.fst)
    (hparent : ∀ d ∈ after, d.1.nParentHash = nHash) (hvalid : ∀ d ∈ after, d.1.isValid E (node.at d.2)
      ((VotedObject.received nHash nObjectType).onlyVotingKeyAllowed d.1) = true)
    (hnew : ∀ d ∈ after, g.cmapVoteToObject.hasKey (d.1.getHash E) = false ∧
      g.cmapInvalidVotes.hasKey (d.1.getHash E) = false)
    (hfits : g.cmmapOrphanVotes.listItems.length + max before.length after.length ≤ g.cmmapOrphanVotes.nMaxSize) :
    ∃ gAfter gBefore,
      deliverVotes E node (g.addGovernanceObject E (node.at nNow) (.received nHash nObjectType)).1 after =
        some gAfter ∧
      (g.deliverVotes E node before).map (fun g =>
        (g.addGovernanceObject E (node.at nNow') (.received nHash nObjectType)).1) = some gBefore ∧
      (gAfter.SameVotesOn gBefore nHash ↔
        ¬ g.Accepts E (node.at nNow) nHash nObjectType ∨ ∀ d ∈ after, ¬ g.Recordable d) := by
  have hparentBefore : ∀ d ∈ before, d.1.nParentHash = nHash := by
    intro d hd
    obtain ⟨d', hd', heq⟩ := mem_map.mp ((hsame d.1).mp (mem_map_of_mem hd))
    rw [← heq]
    exact hparent d' hd'
  obtain ⟨gOrphans, hbefore, hobjects⟩ := @deliverVotes_unknown E node g nHash before hparentBefore hnone (by omega)
  have hnoBefore : (gOrphans.addGovernanceObject E (node.at nNow') (.received nHash nObjectType)).1.NoVotesOn nHash :=
    noVotesOn_addGovernanceObject (hobjects ▸ hnone)
  -- without votes on either side the two agree
  have hagree : ∀ {gAfter : VoteManager}, gAfter.NoVotesOn nHash → gAfter.SameVotesOn
      (gOrphans.addGovernanceObject E (node.at nNow') (.received nHash nObjectType)).1 nHash := by
    intro gAfter hno
    refine ⟨fun vote => ?_, fun outpoint eSignal => ?_⟩
    · rw [hno.votesOn, hnoBefore.votesOn]
    · rw [hno.currentVote, hnoBefore.currentVote]
  rw [hbefore, map_some]
  rcases @addGovernanceObject_cases E (node.at nNow) g nHash nObjectType hnone with
    ⟨hrefused, heq⟩ | ⟨obj, mapTrigger, hblank, htype, hexpired, hdelete, -, heq⟩
  · obtain ⟨gAfter, hafter, hobjects'⟩ := @deliverVotes_unknown E node g nHash after hparent hnone (by omega)
    refine ⟨gAfter, _, by rw [heq, hafter], rfl, fun _ => .inl hrefused, fun _ => hagree fun obj hsome => ?_⟩
    rw [hobjects', hnone] at hsome
    cases hsome
  · obtain ⟨gAfter, hafter, hyes, hno⟩ := @deliverVotes_of_blank E node
      { g with mapObjects := g.mapObjects.insert nHash obj, mapTrigger := mapTrigger } nHash obj after hparent
      (by rw [Map.get_insert, if_pos rfl]) hblank hexpired
      (fun d hd => by
        rw [VotedObject.onlyVotingKeyAllowed, htype]
        exact hvalid d hd) hnew
    rw [heq horphans]
    refine ⟨gAfter, _, hafter, rfl, fun h => ?_, fun h => hagree (hno ?_)⟩
    · by_contra! hrec
      obtain ⟨vote, hvote⟩ := exists_mem_of_ne_nil _ (hyes (hdelete.mpr hrec.1) hrec.2)
      have hmem := (h.1 vote).mp hvote
      rw [hnoBefore.votesOn] at hmem
      cases hmem
    · exact h.imp_left fun hrefused => Bool.not_eq_false _ ▸ mt hdelete.mp hrefused

/-- All objects are valid locally, every signature is good, and the hash is the time of the vote. -/
def sampleVoteEnv : VoteEnv :=
  { CSuperblock.devnetBudget with
    nGovernanceMinQuorum_pos := by decide
    updateHash := fun _ _ _ _ nTime => BitVec.ofInt 256 nTime
    checkKeySignature := fun _ _ => true
    checkOperatorSignature := fun _ _ => true
    isValidLocally := fun _ _ => .ok ()
    superblockOf := fun _ => none }

def sampleVote : CGovernanceVote where
  nVoteSignal := 1
  masternodeOutpoint := ⟨11, 0⟩
  nParentHash := 30
  nVoteOutcome := 1
  nTime := 1000000

def emptyManager : VoteManager where
  mapObjects := ∅
  mapTrigger := ∅
  cmapVoteToObject := ⟨10, []⟩
  cmapInvalidVotes := ⟨10, []⟩
  cmmapOrphanVotes := { nMaxSize := 10 }

theorem sameVotesOn_orphans_iff_sample : ∃ gAfter gBefore,
      deliverVotes sampleVoteEnv Masternode.votingNode (emptyManager.addGovernanceObject sampleVoteEnv
        (Masternode.votingNode.at 1000050) (.received 30 .proposal)).1 [(sampleVote, 1000100)] = some gAfter ∧
      (emptyManager.deliverVotes sampleVoteEnv Masternode.votingNode [(sampleVote, 1000000)]).map (fun g =>
        (g.addGovernanceObject sampleVoteEnv (Masternode.votingNode.at 1000050) (.received 30 .proposal)).1) =
        some gBefore ∧
      (gAfter.SameVotesOn gBefore 30 ↔
        ¬ emptyManager.Accepts sampleVoteEnv (Masternode.votingNode.at 1000050) 30 .proposal ∨
          ∀ d ∈ [(sampleVote, 1000100)], ¬ emptyManager.Recordable d) := by
  refine sameVotesOn_orphans_iff (by simp [emptyManager]) (by simp [emptyManager, CacheMultiMap.getAll]) 1000050
    1000050 [(sampleVote, 1000100)] [(sampleVote, 1000000)] (fun vote => Iff.rfl) ?_ ?_ ?_ (by decide)
  · intro d hd
    rw [mem_singleton.mp hd]
    rfl
  · intro d hd
    rw [mem_singleton.mp hd]
    decide +kernel
  · intro d hd
    rw [mem_singleton.mp hd]
    decide

/-- A valid vote that is recorded after its object and lost before it. -/
theorem orphanVote_lost :
    sampleVote.isValid sampleVoteEnv (Masternode.votingNode.at 1000000) true = true ∧
    (deliverVotes sampleVoteEnv Masternode.votingNode (emptyManager.addGovernanceObject sampleVoteEnv
      (Masternode.votingNode.at 1000050) (.received 30 .proposal)).1 [(sampleVote, 1000100)]).map (·.votesOn 30) =
      some [sampleVote] ∧
    ((emptyManager.deliverVotes sampleVoteEnv Masternode.votingNode [(sampleVote, 1000000)]).map (fun g =>
      (g.addGovernanceObject sampleVoteEnv (Masternode.votingNode.at 1000050) (.received 30 .proposal)).1)).map
      (·.votesOn 30) = some [] := by
  exact ⟨by decide +kernel, by decide +kernel, by decide +kernel⟩

end VoteManager

/-! ### The store of orphan votes -/

/-- `operator==`. -/
def CGovernanceVote.eqv (vote1 vote2 : CGovernanceVote) : Bool :=
  vote1.masternodeOutpoint == vote2.masternodeOutpoint && vote1.nParentHash == vote2.nParentHash &&
    vote1.nVoteOutcome == vote2.nVoteOutcome && vote1.nVoteSignal == vote2.nVoteSignal && vote1.nTime == vote2.nTime

/-- The outpoint of the first vote would have to be below the one of the second and equal to it. -/
theorem CGovernanceVote.lt_eq_false (vote1 vote2 : CGovernanceVote) : vote1.lt vote2 = false := by
  unfold lt
  by_cases heq : vote1.masternodeOutpoint = vote2.masternodeOutpoint
  · simp [heq]
  · simp [heq]

/-- Pairs that are inserted one after the other, each under its object hash. -/
def insertOrphans (c : CacheMultiMap Uint256 (CGovernanceVote × Int))
    (ds : List (Uint256 × CGovernanceVote × Int)) : Option (CacheMultiMap Uint256 (CGovernanceVote × Int)) :=
  ds.foldlM (fun c d => (c.insert orphanLt d.1 d.2).map Prod.fst) c

/-- An object hash keeps the first pair that is inserted under it. -/
theorem getAll_insertOrphans {c : CacheMultiMap Uint256 (CGovernanceVote × Int)}
    {ds : List (Uint256 × CGovernanceVote × Int)} (hroom : c.listItems.length + ds.length ≤ c.nMaxSize) :
    ∃ c', insertOrphans c ds = some c' ∧ ∀ nHash, c'.getAll nHash =
      if c.getAll nHash = [] then ((ds.find? (·.1 == nHash)).map Prod.snd).toList else c.getAll nHash := by
  induction ds generalizing c with
  | nil => exact ⟨c, rfl, fun nHash => by simp +contextual⟩
  | cons d ds ih =>
    rw [length_cons] at hroom
    obtain ⟨c₁, isNew, hinsert, hmax, hlength, hget⟩ :=
      @CacheMultiMap.insert_of_lt _ _ _ _ _ orphanLt _ c d.1 d.2 (by omega)
    obtain ⟨c', hrun, hall⟩ := ih (c := c₁) (by omega)
    refine ⟨c', by rw [insertOrphans, foldlM_cons, hinsert]; exact hrun, fun nHash => ?_⟩
    rw [hall, hget]
    by_cases hd : nHash = d.1
    · cases hc : c.getAll d.1 with
      | nil => simp [hd, hc, CacheMultiMap.emplaceValue]
      | cons v rest => simp [hd, hc, CacheMultiMap.same, orphanLt, CGovernanceVote.lt_eq_false]
    · simp [hd, Ne.symm hd]

/-- No two votes are told apart by their order, and below its capacity the store keeps every pair exactly
if no two pairs are inserted under one hash.  `CheckOrphanVotes` visits what is kept. -/
theorem orphanVotes_kept_iff (n : ℕ) (ds : List (Uint256 × CGovernanceVote × Int)) (hroom : ds.length ≤ n) :
    (∀ v w : CGovernanceVote, ((v.lt w = false ∧ w.lt v = false) ↔ v.eqv w = true) ↔ v.eqv w = true) ∧
    ∃ c, insertOrphans { nMaxSize := n } ds = some c ∧
      ((∀ d ∈ ds, d.2 ∈ c.getAll d.1) ↔ ∀ d ∈ ds, ∀ d' ∈ ds, d.1 = d'.1 → d.2 = d'.2) ∧
      ∀ E node (g : VoteManager) govobj, g.cmmapOrphanVotes = c →
        let s := (c.getAll govobj.nHash).foldl (VoteManager.replayOrphan E node govobj.nHash)
          ({ g with fRateChecksEnabled := false }, govobj)
        g.checkOrphanVotes E node govobj = ({ s.1 with fRateChecksEnabled := g.fRateChecksEnabled }, s.2) := by
  refine ⟨fun v w => by simp [CGovernanceVote.lt_eq_false], ?_⟩
  obtain ⟨c, hrun, hall⟩ := @getAll_insertOrphans { nMaxSize := n } ds (by simpa using hroom)
  have hkept {nHash : Uint256} {p : CGovernanceVote × Int} :
      p ∈ c.getAll nHash ↔ ∃ d, ds.find? (·.1 == nHash) = some d ∧ d.2 = p := by
    rw [hall, if_pos (by simp [CacheMultiMap.getAll]), mem_toList, map_eq_some_iff]
  refine ⟨c, hrun, ⟨fun h d hd d' hd' heq => ?_, fun h d hd => ?_⟩, fun E node g govobj hg => ?_⟩
  · obtain ⟨p, hp, hpd⟩ := hkept.mp (h d hd)
    obtain ⟨p', hp', hpd'⟩ := hkept.mp (h d' hd')
    rw [← heq, hp] at hp'
    cases hp'
    exact hpd.symm.trans hpd'
  · have hsome : (ds.find? (·.1 == d.1)).isSome := find?_isSome.mpr ⟨d, hd, beq_self_eq_true d.1⟩
    obtain ⟨p, hp⟩ := isSome_iff_exists.mp hsome
    have hkey : p.1 = d.1 := by simpa using find?_some hp
    exact hkept.mpr ⟨p, hp, h p (mem_of_find?_eq_some hp) d hd hkey⟩
  · subst hg
    rfl

/-- The votes of two masternodes on one object; only the first is kept. -/
def twoOrphans : List (Uint256 × CGovernanceVote × Int) :=
  [(30, { masternodeOutpoint := ⟨11, 0⟩ }, 600), (30, { masternodeOutpoint := ⟨12, 0⟩ }, 600)]

theorem orphanVotes_kept_iff_two : ∃ c, insertOrphans { nMaxSize := 10 } twoOrphans = some c ∧
    ((∀ d ∈ twoOrphans, d.2 ∈ c.getAll d.1) ↔ ∀ d ∈ twoOrphans, ∀ d' ∈ twoOrphans, d.1 = d'.1 → d.2 = d'.2) := by
  obtain ⟨c, hrun, hkept, -⟩ := (orphanVotes_kept_iff 10 twoOrphans (by decide)).2
  exact ⟨c, hrun, hkept⟩

theorem orphanVotes_drops_second : ∃ c, insertOrphans { nMaxSize := 10 } twoOrphans = some c ∧
    ¬ ∀ d ∈ twoOrphans, d.2 ∈ c.getAll d.1 :=
  ⟨_, rfl, by decide +kernel⟩

end OmegaCore.Governance
