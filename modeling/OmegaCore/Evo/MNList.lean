import OmegaCore.Util.OwnerCount
import OmegaCore.Evo.DmnState

/-!
`CDeterministicMNList`: the masternodes by `proTxHash`, the index of their internal
ids, and the reference-counted map of the hashes of their unique properties.  The
operations are written as the source writes them.  A list operation that throws
does so after restoring the checkpoint it took, and `Thrown` carries the list it
leaves behind, because some callers catch the exception and go on.
-/

namespace OmegaCore.Evo

open Util

instance instNeZeroTwoPow32 : NeZero (2 ^ 32) := ⟨by decide⟩

structure CDeterministicMN where
  /-- The value `2 ^ 64 - 1` marks an id that was not set; the constructor rejects it. -/
  internalId : Fin (2 ^ 64 - 1)
  nType : MnType := .regular
  proTxHash : Uint256
  collateralOutpoint : COutPoint := {}
  nOperatorReward : ℕ := 0
  pdmnState : CDeterministicMNState := {}
  deriving DecidableEq, Repr

/-! ### Unique properties -/

/-- The bytes a unique property is hashed from.  Key ids and platform node ids are both
20 raw bytes; the other kinds differ in length. -/
inductive PropertyBytes where
  | outPoint (o : COutPoint)
  | service (s : CService)
  | bytes20 (b : BitVec 160)
  | bytes48 (b : BitVec 384)
  deriving DecidableEq, Repr

/-- Hashing and key encoding, which the list is parametric in. -/
structure Codec where
  /-- `SerializeHash`. -/
  serializeHash : PropertyBytes → Uint256
  /-- The 48 bytes of a key in the legacy (`true`) or the basic (`false`) encoding. -/
  encode : Bool → G1Element → BitVec 384

/-- What the property templates ask of a type: a null value, `operator==` and bytes. -/
class UniqueProperty (T : Type) where
  nullValue : T
  eq : T → T → Bool
  serialize : Codec → T → PropertyBytes

instance : UniqueProperty COutPoint where
  nullValue := {}
  eq a b := decide (a = b)
  serialize _ := .outPoint

instance : UniqueProperty CService where
  nullValue := {}
  eq a b := decide (a = b)
  serialize _ := .service

instance instUniquePropertyUint160 : UniqueProperty Uint160 where
  nullValue := 0
  eq a b := decide (a = b)
  serialize _ := .bytes20

instance : UniqueProperty CBLSLazyPublicKey where
  nullValue := .null
  eq := CBLSLazyPublicKey.eq
  serialize C
    | .null => .bytes48 0
    | .valid legacy k => .bytes48 (C.encode legacy k)

open UniqueProperty (nullValue)

/-- The map of unique properties: hash to owner and reference count. -/
abbrev MnUniquePropertyMap := Map Uint256 (Uint256 × ℕ)

structure CDeterministicMNList where
  blockHash : Uint256 := 0
  nHeight : Int := -1
  nTotalRegisteredCount : Fin (2 ^ 32) := 0
  mnMap : Map Uint256 CDeterministicMN := ∅
  mnInternalIdMap : Map ℕ Uint256 := ∅
  mnUniquePropertyMap : MnUniquePropertyMap := ∅

/-- The unique property an error message names. -/
inductive PropertyName where
  | collateralOutpoint | address | keyIDOwner | pubKeyOperator | platformNodeID
  deriving DecidableEq, Repr

inductive ListError where
  | duplicateProTxHash
  | duplicateInternalId
  | cantAdd (property : PropertyName)
  | cantUpdate (property : PropertyName)
  | cantDelete (property : PropertyName)
  | notFound
  | removedNotFound
  /-- `at` on a key that a map does not have. -/
  | outOfRange
  /-- A failed `assert` or a dereferenced null pointer, which ends the process. -/
  | assertion
  deriving DecidableEq, Repr

/-- An exception, with the list as it is when the exception leaves the operation. -/
structure Thrown where
  error : ListError
  left : CDeterministicMNList

namespace CDeterministicMNList

variable (C : Codec)

section Properties

variable {T : Type} [UniqueProperty T]

variable (l : CDeterministicMNList) (dmn : CDeterministicMN) (v : T)

/-- `v == nullValue`. -/
def isNullValue : Bool :=
  UniqueProperty.eq v nullValue

def getUniquePropertyHash : Uint256 :=
  C.serializeHash (UniqueProperty.serialize C v)

def addUniqueProperty : Bool × CDeterministicMNList :=
  if isNullValue v then (false, l)
  else
    match l.mnUniquePropertyMap[getUniquePropertyHash C v]? with
    | some (owner, cnt) =>
      if owner ≠ dmn.proTxHash then (false, l)
      else
        (true, { l with
          mnUniquePropertyMap :=
            l.mnUniquePropertyMap.insert (getUniquePropertyHash C v) (dmn.proTxHash, cnt + 1) })
    | none =>
      (true, { l with
        mnUniquePropertyMap :=
          l.mnUniquePropertyMap.insert (getUniquePropertyHash C v) (dmn.proTxHash, 1) })

def deleteUniqueProperty (oldValue : T) : Bool × CDeterministicMNList :=
  if isNullValue oldValue then (false, l)
  else
    match l.mnUniquePropertyMap[getUniquePropertyHash C oldValue]? with
    | some (owner, cnt) =>
      if owner ≠ dmn.proTxHash then (false, l)
      else if cnt = 1 then
        (true, { l with
          mnUniquePropertyMap := l.mnUniquePropertyMap.erase (getUniquePropertyHash C oldValue) })
      else
        (true, { l with
          mnUniquePropertyMap :=
            l.mnUniquePropertyMap.insert (getUniquePropertyHash C oldValue) (dmn.proTxHash, cnt - 1) })
    | none => (false, l)

/-- `v == nullValue || AddUniqueProperty(dmn, v)`, the guarded form most callers use. -/
def addIfSet : Bool × CDeterministicMNList :=
  if isNullValue v then (true, l) else l.addUniqueProperty C dmn v

/-- `v == nullValue || DeleteUniqueProperty(dmn, v)`. -/
def deleteIfSet : Bool × CDeterministicMNList :=
  if isNullValue v then (true, l) else l.deleteUniqueProperty C dmn v

def updateUniqueProperty (oldValue newValue : T) : Bool × CDeterministicMNList :=
  if UniqueProperty.eq oldValue newValue then (true, l)
  else
    match l.deleteIfSet C dmn oldValue with
    | (false, l) => (false, l)
    | (true, l) => l.addIfSet C dmn newValue

def hasUniqueProperty : Bool :=
  l.mnUniquePropertyMap[getUniquePropertyHash C v]?.isSome

def getUniquePropertyMN : Option CDeterministicMN :=
  match l.mnUniquePropertyMap[getUniquePropertyHash C v]? with
  | some (owner, _) => l.mnMap[owner]?
  | none => none

end Properties

/-! ### Lookup -/

variable (l : CDeterministicMNList) (proTxHash : Uint256) (dmn : CDeterministicMN) (oldDmn : CDeterministicMN)
  (pdmnState : CDeterministicMNState)

def getMN : Option CDeterministicMN :=
  l.mnMap[proTxHash]?

def hasMN : Bool :=
  (l.getMN proTxHash).isSome

def getMNByCollateral (collateralOutpoint : COutPoint) : Option CDeterministicMN :=
  l.getUniquePropertyMN C collateralOutpoint

def getMNByInternalId (internalId : ℕ) : Option CDeterministicMN :=
  match l.mnInternalIdMap[internalId]? with
  | some proTxHash => l.getMN proTxHash
  | none => none

def isMNPoSeBannedEntry : Bool :=
  dmn.pdmnState.isBanned

def isMNValidEntry : Bool :=
  !isMNPoSeBannedEntry dmn

def isMNValid : Bool :=
  match l.mnMap[proTxHash]? with
  | some dmn => isMNValidEntry dmn
  | none => false

def isMNPoSeBanned : Bool :=
  match l.mnMap[proTxHash]? with
  | some dmn => isMNPoSeBannedEntry dmn
  | none => false

def forEachMN (onlyValid : Bool) : List CDeterministicMN :=
  l.mnMap.values.filter fun dmn => !onlyValid || isMNValidEntry dmn

def getAllMNsCount : ℕ :=
  l.mnMap.size

def getValidWeightedMNsCount : ℕ :=
  l.mnMap.values.foldl (fun res dmn => if isMNValidEntry dmn then res + dmn.nType.params.votingWeight else res) 0

theorem getValidWeightedMNsCount_eq_sum (l : CDeterministicMNList) :
    l.getValidWeightedMNsCount = ((l.forEachMN true).map (·.nType.params.votingWeight)).sum := by
  rw [List.sum_eq_foldl, List.foldl_map, forEachMN, List.foldl_filter]
  rfl

def setBlockHash (blockHash : Uint256) : CDeterministicMNList :=
  { l with blockHash := blockHash }

def setHeight (nHeight : Int) : CDeterministicMNList :=
  { l with nHeight := nHeight }

/-! ### Operations -/

/-- Go on after a property step, or restore the saved property map and throw. -/
def rollback (saved : MnUniquePropertyMap) (error : ListError)
    (step : Bool × CDeterministicMNList) : Except Thrown CDeterministicMNList :=
  if step.1 then .ok step.2
  else .error ⟨error, { step.2 with mnUniquePropertyMap := saved }⟩

/-- The property insertions of `AddMN`, from its checkpoint on. -/
def addProperties : Except Thrown CDeterministicMNList := do
  let saved := l.mnUniquePropertyMap
  let s := dmn.pdmnState
  let l ← rollback saved (.cantAdd .collateralOutpoint) (l.addUniqueProperty C dmn dmn.collateralOutpoint)
  let l ← rollback saved (.cantAdd .address) (l.addIfSet C dmn s.addr)
  let l ← rollback saved (.cantAdd .keyIDOwner) (l.addUniqueProperty C dmn s.keyIDOwner)
  let l ← rollback saved (.cantAdd .pubKeyOperator) (l.addIfSet C dmn s.pubKeyOperator)
  rollback saved (.cantAdd .platformNodeID)
    (if dmn.nType = .highPerformance then l.addIfSet C dmn s.platformNodeID else (true, l))

/-- The counter after `AddMN`: a 64-bit maximum, stored into 32 bits. -/
def bumpedCount (fBumpTotalCount : Bool) : Fin (2 ^ 32) :=
  if fBumpTotalCount then
    Fin.ofNat (2 ^ 32) (max (dmn.internalId.val + 1) l.nTotalRegisteredCount.val)
  else l.nTotalRegisteredCount

def addMN (fBumpTotalCount : Bool := true) : Except Thrown CDeterministicMNList :=
  if l.mnMap[dmn.proTxHash]?.isSome then .error ⟨.duplicateProTxHash, l⟩
  else if l.mnInternalIdMap[dmn.internalId.val]?.isSome then .error ⟨.duplicateInternalId, l⟩
  else do
    let l ← l.addProperties C dmn
    .ok { l with
      nTotalRegisteredCount := l.bumpedCount dmn fBumpTotalCount
      mnMap := l.mnMap.insert dmn.proTxHash dmn
      mnInternalIdMap := l.mnInternalIdMap.insert dmn.internalId.val dmn.proTxHash }

/-- The property updates of `UpdateMN`, from its checkpoint on. -/
def updateProperties : Except Thrown CDeterministicMNList := do
  let saved := l.mnUniquePropertyMap
  let oldState := oldDmn.pdmnState
  let l ← rollback saved (.cantUpdate .address) (l.updateUniqueProperty C oldDmn oldState.addr pdmnState.addr)
  let l ← rollback saved (.cantUpdate .keyIDOwner)
    (l.updateUniqueProperty C oldDmn oldState.keyIDOwner pdmnState.keyIDOwner)
  let l ← rollback saved (.cantUpdate .pubKeyOperator)
    (l.updateUniqueProperty C oldDmn oldState.pubKeyOperator pdmnState.pubKeyOperator)
  rollback saved (.cantUpdate .platformNodeID)
    (if oldDmn.nType = .highPerformance then
      l.updateUniqueProperty C oldDmn oldState.platformNodeID pdmnState.platformNodeID
    else (true, l))

/-- `UpdateMN(const CDeterministicMN&, state)`. -/
def updateEntry : Except Thrown CDeterministicMNList := do
  let l ← l.updateProperties C oldDmn pdmnState
  .ok { l with
    mnMap := l.mnMap.insert oldDmn.proTxHash { oldDmn with pdmnState := pdmnState } }

def updateMN : Except Thrown CDeterministicMNList :=
  match l.mnMap[proTxHash]? with
  | none => .error ⟨.notFound, l⟩
  | some oldDmn => l.updateEntry C oldDmn pdmnState

/-- `UpdateMN(const CDeterministicMN&, diff)`. -/
def updateDiff (stateDiff : CDeterministicMNStateDiff) : Except Thrown CDeterministicMNList :=
  l.updateEntry C oldDmn (stateDiff.applyToState oldDmn.pdmnState)

/-- The property deletions of `RemoveMN`, from its checkpoint on. -/
def deleteProperties : Except Thrown CDeterministicMNList := do
  let saved := l.mnUniquePropertyMap
  let s := dmn.pdmnState
  let l ← rollback saved (.cantDelete .collateralOutpoint) (l.deleteUniqueProperty C dmn dmn.collateralOutpoint)
  let l ← rollback saved (.cantDelete .address) (l.deleteIfSet C dmn s.addr)
  let l ← rollback saved (.cantDelete .keyIDOwner) (l.deleteUniqueProperty C dmn s.keyIDOwner)
  let l ← rollback saved (.cantDelete .pubKeyOperator) (l.deleteIfSet C dmn s.pubKeyOperator)
  rollback saved (.cantDelete .platformNodeID)
    (if dmn.nType = .highPerformance then l.deleteIfSet C dmn s.platformNodeID else (true, l))

def removeMN : Except Thrown CDeterministicMNList :=
  match l.getMN proTxHash with
  | none => .error ⟨.notFound, l⟩
  | some dmn => do
    let l ← l.deleteProperties C dmn
    .ok { l with
      mnMap := l.mnMap.erase proTxHash
      mnInternalIdMap := l.mnInternalIdMap.erase dmn.internalId.val }

def calcMaxPoSePenalty : Int :=
  max 100 l.getAllMNsCount

def calcPenalty (percent : Int) : Int :=
  (l.calcMaxPoSePenalty * percent).tdiv 100

def punishedState (s : CDeterministicMNState) (penalty : Int) : CDeterministicMNState :=
  let maxPenalty := l.calcMaxPoSePenalty
  let s := { s with nPoSePenalty := min maxPenalty (s.nPoSePenalty + penalty) }
  if s.nPoSePenalty ≥ maxPenalty ∧ !s.isBanned then s.banIfNotBanned l.nHeight else s

def poSePunish (penalty : Int) : Except Thrown CDeterministicMNList :=
  if penalty ≤ 0 then .error ⟨.assertion, l⟩
  else
    match l.getMN proTxHash with
    | none => .error ⟨.notFound, l⟩
    | some dmn => l.updateMN C proTxHash (l.punishedState dmn.pdmnState penalty)

def poSeDecrease : Except Thrown CDeterministicMNList :=
  match l.getMN proTxHash with
  | none => .error ⟨.notFound, l⟩
  | some dmn =>
    if dmn.pdmnState.nPoSePenalty ≤ 0 ∨ dmn.pdmnState.isBanned then .error ⟨.assertion, l⟩
    else
      l.updateMN C proTxHash { dmn.pdmnState with nPoSePenalty := dmn.pdmnState.nPoSePenalty - 1 }

end CDeterministicMNList

end OmegaCore.Evo
