import OmegaCore.Evo.Env
import OmegaCore.Util.Loop

/-!
Quorum rotation.  The members of a rotated quorum are four quarters.  Each cycle selects
one new quarter for every quorum by a cyclic scan over the sorted masternodes, and
stores a snapshot from which later cycles select the same quarter again.  The quorum
base block enters through what the functions read about it.
-/

namespace OmegaCore

def COutPoint.lt (a b : COutPoint) : Bool :=
  decide (a.hash < b.hash) || (a.hash == b.hash && decide (a.n < b.n))

namespace Evo.CDeterministicMNList

def getValidMNsCount (l : CDeterministicMNList) : ℕ :=
  l.mnMap.values.countP isMNValidEntry

/-- The confirmed valid masternodes with their scores. -/
def calculateScores (E : Env) (l : CDeterministicMNList) (modifier : Uint256)
    (onlyHighPerformanceMasternodes : Bool) : List (Uint256 × CDeterministicMN) :=
  ((l.forEachMN true).filter fun dmn =>
    dmn.pdmnState.confirmedHash != 0 && !(onlyHighPerformanceMasternodes && dmn.nType != .highPerformance)).map
    fun dmn => (E.sha256 dmn.pdmnState.confirmedHashWithProRegTxHash modifier, dmn)

def scoreLt (a b : Uint256 × CDeterministicMN) : Bool :=
  if a.1 = b.1 then a.2.collateralOutpoint.lt b.2.collateralOutpoint else decide (a.1 < b.1)

/-- The masternodes with the highest scores, in descending order. -/
def calculateQuorum (E : Env) (l : CDeterministicMNList) (maxSize : ℕ) (modifier : Uint256)
    (onlyHighPerformanceMasternodes : Bool := false) : List CDeterministicMN :=
  (((l.calculateScores E modifier onlyHighPerformanceMasternodes).insertionSort
    fun a b => !scoreLt a b).map (·.2)).take maxSize

/-- `AddMN` in a `try` block that catches what it throws. -/
def tryAddMN (C : Codec) (l : CDeterministicMNList) (dmn : CDeterministicMN) : CDeterministicMNList :=
  match l.addMN C dmn with
  | .ok l' => l'
  | .error t => t.left

end Evo.CDeterministicMNList

namespace Llmq

open Util Evo CDeterministicMNList

inductive SnapshotSkipMode where
  | noSkipping | skippingEntries | noSkippingEntries | allSkipped
  deriving DecidableEq, Repr

structure CQuorumSnapshot where
  activeQuorumMembers : List Bool
  mnSkipListMode : SnapshotSkipMode
  mnSkipList : List Int
  deriving DecidableEq, Repr

/-- What is read about a quorum base block: the list of its work block, eight blocks below it, the
hash over the quorum type and the work block, and whether V19 is active or the network is testnet. -/
structure QuorumBase where
  allMns : CDeterministicMNList
  modifier : Uint256
  skipRemovedMNs : Bool

/-- The quarters of the three previous cycles, with the members for each quorum. -/
structure PreviousQuorumQuarters where
  quarterHMinusC : List (List CDeterministicMN)
  quarterHMinus2C : List (List CDeterministicMN)
  quarterHMinus3C : List (List CDeterministicMN)

def PreviousQuorumQuarters.empty (nQuorums : ℕ) : PreviousQuorumQuarters where
  quarterHMinusC := List.replicate nQuorums []
  quarterHMinus2C := List.replicate nQuorums []
  quarterHMinus3C := List.replicate nQuorums []

/-- The members of a quorum in the previous quarters, in the order in which they are read. -/
def PreviousQuorumQuarters.members (q : PreviousQuorumQuarters) (i : ℕ) : List CDeterministicMN :=
  q.quarterHMinusC.getD i [] ++ q.quarterHMinus2C.getD i [] ++ q.quarterHMinus3C.getD i []

def quarterSize (llmqParams : LLMQParams) : ℕ :=
  llmqParams.size / 4

variable (E : Env) (llmqParams : LLMQParams) (base : QuorumBase)

/-! ### The usage of the masternodes -/

/-- Count a member of a previous quarter as used, unless it was removed or banned since. -/
def addUsed (l : CDeterministicMNList) (mn : CDeterministicMN) : CDeterministicMNList :=
  if base.skipRemovedMNs && !base.allMns.hasMN mn.proTxHash then l
  else if base.allMns.isMNPoSeBanned mn.proTxHash then l
  else l.tryAddMN E.toCodec mn

variable (sorted : List CDeterministicMN) (s : Selection) (previousQuarters : PreviousQuorumQuarters)

def mnsUsedAtH : CDeterministicMNList :=
  (List.range llmqParams.signingActiveQuorumCount).foldl
    (fun l i => (previousQuarters.members i).foldl (addUsed E base) l) {}

def mnsUsedAtHIndexed (i : ℕ) : CDeterministicMNList :=
  (previousQuarters.members i).foldl (addUsed E base) {}

def mnsNotUsedAtH (used : CDeterministicMNList) : CDeterministicMNList :=
  (base.allMns.forEachMN false).foldl (fun l dmn => if used.hasMN dmn.proTxHash || dmn.pdmnState.isBanned then l
      else l.tryAddMN E.toCodec dmn) {}

/-- The unused masternodes by their scores, and after them the used ones. -/
def sortedCombinedMns (used notUsed : CDeterministicMNList) : List CDeterministicMN :=
  notUsed.calculateQuorum E notUsed.getAllMNsCount base.modifier ++
    used.calculateQuorum E used.getAllMNsCount base.modifier

/-! ### The selection of a new quarter -/

structure Selection where
  quarterQuorumMembers : List CDeterministicMN
  mnsUsedAtHIndexed : CDeterministicMNList
  idx : ℕ
  updated : Bool
  skipList : List Int
  firstSkippedIndex : ℕ

/-- Record that the current entry is skipped: the first one by its index, and those after it relative
to the first.  An index 0 does not count as a first one. -/
def Selection.skip : Selection :=
  if s.firstSkippedIndex = 0 then
    { s with firstSkippedIndex := s.idx, skipList := s.skipList ++ [(s.idx : Int)] }
  else { s with skipList := s.skipList ++ [(s.idx : Int) - s.firstSkippedIndex] }

/-- Take the current entry, or skip it if the quorum uses it already or cannot add it. -/
def Selection.visit (mn : CDeterministicMN) : Selection :=
  if s.mnsUsedAtHIndexed.hasMN mn.proTxHash then s.skip
  else
    match s.mnsUsedAtHIndexed.addMN E.toCodec mn with
    | .ok l => { s with
        mnsUsedAtHIndexed := l
        quarterQuorumMembers := s.quarterQuorumMembers ++ [mn]
        updated := true }
    | .error t => { s with mnsUsedAtHIndexed := t.left }.skip

/-- The next index on the way round a list of this length. -/
def nextIdx (idx size : ℕ) : ℕ :=
  if idx + 1 = size then 0 else idx + 1

/-- One round of the selection loop.  A lap without a new member leaves the function. -/
def selectRound (initialLoopIdx : ℕ) (s : Selection) : Outcome Unit Selection :=
  match sorted[s.idx]? with
  | none => .undefined
  | some mn =>
    let s := s.visit E mn
    let s := { s with idx := nextIdx s.idx sorted.length }
    if s.idx = initialLoopIdx then
      if s.updated then .done { s with updated := false } else .left ()
    else .done s

/-- Whether a quorum still needs members and masternodes are left for it. -/
def needsMembers (quarterSize usedMNsCount size : ℕ) (s : Selection) : Bool :=
  decide (s.quarterQuorumMembers.length < quarterSize) && decide (usedMNsCount + s.quarterQuorumMembers.length < size)

/-- The selection loop for one quorum.  It ends within a lap for each member and one lap more. -/
def selectQuarter : Outcome Unit Selection :=
  whileLoop (needsMembers (quarterSize llmqParams) s.mnsUsedAtHIndexed.getAllMNsCount sorted.length)
    (selectRound E sorted s.idx) ((quarterSize llmqParams + 2) * sorted.length + 1) s

/-- The loop over the quorums, with the masternodes that each of them uses. -/
def selectQuarters (sorted : List CDeterministicMN) :
    List CDeterministicMNList → ℕ → List Int → ℕ → Outcome Unit (List (List CDeterministicMN) × List Int)
  | [], _, skipList, _ => .done ([], skipList)
  | used :: usedLists, idx, skipList, firstSkippedIndex =>
    (selectQuarter E llmqParams sorted ⟨[], used, idx, false, skipList, firstSkippedIndex⟩).bind fun s =>
      (selectQuarters sorted usedLists s.idx s.skipList s.firstSkippedIndex).bind fun r =>
        .done (s.quarterQuorumMembers :: r.1, r.2)

/-- The snapshot marks which of the sorted masternodes are used, and has the skipped entries. -/
def buildQuorumSnapshot (mnUsedAtH : CDeterministicMNList) (skipList : List Int) : CQuorumSnapshot :=
  let sortedAllMns := base.allMns.calculateQuorum E base.allMns.getAllMNsCount base.modifier
  { activeQuorumMembers := (sortedAllMns.map fun dmn => mnUsedAtH.hasMN dmn.proTxHash) ++
      List.replicate (base.allMns.getAllMNsCount - sortedAllMns.length) false
    mnSkipListMode := if skipList = [] then .noSkipping else .skippingEntries
    mnSkipList := skipList }

/-- The new quarter of every quorum, and the snapshot if one is stored. -/
def buildNewQuorumQuarterMembers : Option (List (List CDeterministicMN) × Option CQuorumSnapshot) :=
  let nQuorums := llmqParams.signingActiveQuorumCount
  if base.allMns.getValidMNsCount < quarterSize llmqParams then
    some (List.replicate nQuorums [], none)
  else
    let used := mnsUsedAtH E llmqParams base previousQuarters
    let sorted := sortedCombinedMns E base used (mnsNotUsedAtH E base used)
    match selectQuarters E llmqParams sorted
      ((List.range nQuorums).map (mnsUsedAtHIndexed E base previousQuarters)) 0 [] 0 with
    | .undefined => none
    | .left _ => some (List.replicate nQuorums [], none)
    | .done (quarters, skipList) => some (quarters, some (buildQuorumSnapshot E base used skipList))

/-! ### The selection by a snapshot -/

/-- The used and the unused masternodes that a snapshot marks. -/
def getMNUsageBySnapshot (snapshot : CQuorumSnapshot) : CDeterministicMNList × CDeterministicMNList :=
  (base.allMns.calculateQuorum E base.allMns.getAllMNsCount base.modifier).zipIdx.foldl (fun lists x =>
      if snapshot.activeQuorumMembers.getD x.2 false then (lists.1.tryAddMN E.toCodec x.1, lists.2)
      else if x.1.pdmnState.isBanned then lists
      else (lists.1, lists.2.tryAddMN E.toCodec x.1)) ({}, {})

/-- The skipped entries by their indices. -/
def processedSkipList : Int → List Int → List Int
  | _, [] => []
  | firstEntryIndex, s :: skipList =>
    if firstEntryIndex = 0 then s :: processedSkipList s skipList
    else (firstEntryIndex + s) :: processedSkipList firstEntryIndex skipList

/-- The variables of the loop that selects by a skip list. -/
structure SnapshotSelection where
  quarterQuorumMembers : List CDeterministicMN
  idx : ℕ
  itsk : List Int

def snapshotRound (s : SnapshotSelection) : Outcome Unit SnapshotSelection :=
  match sorted[s.idx]? with
  | none => .undefined
  | some mn =>
    let s := if s.itsk.head? = some (s.idx : Int) then { s with itsk := s.itsk.tail }
      else { s with quarterQuorumMembers := s.quarterQuorumMembers ++ [mn] }
    .done { s with idx := nextIdx s.idx sorted.length }

/-- A round without a skip list. -/
def copyRound (s : SnapshotSelection) : Outcome Unit SnapshotSelection :=
  match sorted[s.idx]? with
  | none => .undefined
  | some mn => .done { s with
      quarterQuorumMembers := s.quarterQuorumMembers ++ [mn]
      idx := nextIdx s.idx sorted.length }

/-- The loop over the quorums; each of them takes its quarter. -/
def snapshotQuarters (round : SnapshotSelection → Outcome Unit SnapshotSelection) :
    ℕ → ℕ → List Int → Outcome Unit (List (List CDeterministicMN))
  | 0, _, _ => .done []
  | nQuorums + 1, idx, itsk =>
    (whileLoop (fun s => decide (s.quarterQuorumMembers.length < quarterSize llmqParams)) round
      (quarterSize llmqParams + itsk.length + 1) ⟨[], idx, itsk⟩).bind fun s =>
      (snapshotQuarters round nQuorums s.idx s.itsk).bind fun r => .done (s.quarterQuorumMembers :: r)

/-- The quarter of every quorum that a snapshot leads to. -/
def getQuorumQuarterMembersBySnapshot (snapshot : CQuorumSnapshot) : Outcome Unit (List (List CDeterministicMN)) :=
  let numQuorums := llmqParams.signingActiveQuorumCount
  let usage := getMNUsageBySnapshot E base snapshot
  let sorted := sortedCombinedMns E base usage.1 usage.2
  if sorted = [] then .done (List.replicate numQuorums [])
  else
    match snapshot.mnSkipListMode with
    | .noSkipping => snapshotQuarters llmqParams (copyRound sorted) numQuorums 0 []
    | .skippingEntries =>
      snapshotQuarters llmqParams (snapshotRound sorted) numQuorums 0 (processedSkipList 0 snapshot.mnSkipList)
    | .noSkippingEntries | .allSkipped => .done (List.replicate numQuorums [])

end Llmq

end OmegaCore
