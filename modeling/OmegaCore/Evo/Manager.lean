import OmegaCore.Evo.DiffReplay

/-!
`CDeterministicMNManager`: the lists of all processed blocks, kept as snapshots and
differences in two caches and in the database.  `GetListForBlock` walks back from a
block to the nearest snapshot and replays the differences forward.  The database
maps are the records of the evo database under the keys for snapshots and
differences; a read returns the last write.  An unordered map of updates may be
walked in a different order each time a difference is applied, so every call takes
the order it walks in.
-/

namespace OmegaCore.Evo

open Util CDeterministicMNList

/-- A tree of blocks: what the block index, the block files and the coins view know about each
block.  A block hash names one block. -/
structure BlockTree where
  mem : CBlockIndex → Prop
  pprev_mem : ∀ {h p}, mem (.child h p) → mem p
  hash_inj : ∀ {a b : CBlockIndex}, mem a → mem b → a.getBlockHash = b.getBlockHash → a = b
  block : CBlockIndex → CBlock
  view : CBlockIndex → CCoinsViewCache
  blsLegacyScheme : CBlockIndex → Bool

/-- What processing the block `h` on top of `p` reads. -/
def BlockTree.context (T : BlockTree) (h : Uint256) (p : CBlockIndex) : BlockContext where
  pindexPrev := p
  view := T.view (.child h p)
  blsLegacyScheme := T.blsLegacyScheme (.child h p)

/-- The order in which the updates of each block's difference are walked. -/
structure WalkOrder where
  walk : CBlockIndex → List (ℕ × CDeterministicMNStateDiff) → List (ℕ × CDeterministicMNStateDiff)
  perm : ∀ b us, (walk b us).Perm us

structure CDeterministicMNManager where
  mnListsCache : Map Uint256 CDeterministicMNList := ∅
  mnListDiffsCache : Map Uint256 CDeterministicMNListDiff := ∅
  tipIndex : Option CBlockIndex := none
  /-- The records under `DB_LIST_SNAPSHOT`. -/
  dbListSnapshot : Map Uint256 CDeterministicMNList := ∅
  /-- The records under `DB_LIST_DIFF`. -/
  dbListDiff : Map Uint256 CDeterministicMNListDiff := ∅

def diskSnapshotPeriod : Int := 576

/-- `llmq_max_blocks()`; the maximum is attained by `LLMQ_400_85`. -/
def llmqMaxBlocks : Int := 4 * (24 * 24)

def listDiffsCacheSize : Int :=
  diskSnapshotPeriod * (llmqMaxBlocks.tdiv diskSnapshotPeriod + 1)

def initialList (b : CBlockIndex) : CDeterministicMNList :=
  { blockHash := b.getBlockHash }

namespace CDeterministicMNManager

/-- The result of a call that may throw, and the manager it leaves. -/
abbrev Call (α : Type) := Except ListError α × CDeterministicMNManager

variable (b : CBlockIndex) (m : CDeterministicMNManager)

def cacheList (blockHash : Uint256) (l : CDeterministicMNList) : CDeterministicMNManager :=
  { m with mnListsCache := m.mnListsCache.emplace blockHash l }

def cacheDiff (blockHash : Uint256) (diff : CDeterministicMNListDiff) : CDeterministicMNManager :=
  { m with mnListDiffsCache := m.mnListDiffsCache.emplace blockHash diff }

/-- One round of the walk back; `next` goes on at the previous block. -/
def visit (next : CDeterministicMNManager → Call (CDeterministicMNList × List CBlockIndex)) :
    Call (CDeterministicMNList × List CBlockIndex) :=
  match m.mnListsCache[b.getBlockHash]? with
  | some snapshot => (.ok (snapshot, []), m)
  | none =>
    match m.dbListSnapshot[b.getBlockHash]? with
    | some snapshot => (.ok (snapshot, []), m.cacheList b.getBlockHash snapshot)
    | none =>
      match m.mnListDiffsCache[b.getBlockHash]? with
      | some _ => next m
      | none =>
        match m.dbListDiff[b.getBlockHash]? with
        | none => (.ok (initialList b, []), m.cacheList b.getBlockHash (initialList b))
        | some diff => next (m.cacheDiff b.getBlockHash { diff with nHeight := b.nHeight })

/-- The walk back to a snapshot, with the blocks whose differences are to be applied, oldest first.
The genesis block has no predecessor to go on at. -/
def findSnapshot : CBlockIndex → CDeterministicMNManager → Call (CDeterministicMNList × List CBlockIndex)
  | .genesis h, m => visit (.genesis h) m fun m => (.error .assertion, m)
  | .child h p, m => visit (.child h p) m fun m =>
      match findSnapshot p m with
      | (.ok (snapshot, indexes), m) => (.ok (snapshot, indexes ++ [.child h p]), m)
      | (.error e, m) => (.error e, m)

variable (E : Env)

def replayBlock (order : WalkOrder) (m : CDeterministicMNManager) (snapshot : CDeterministicMNList)
    (b : CBlockIndex) : Except ListError CDeterministicMNList :=
  match m.mnListDiffsCache[b.getBlockHash]? with
  | none => .error .outOfRange
  | some diff =>
    if diff.hasChanges then
      (snapshot.applyDiff E.toCodec b { diff with updatedMNs := order.walk b diff.updatedMNs }).mapError Thrown.error
    else .ok ((snapshot.setBlockHash b.getBlockHash).setHeight b.nHeight)

/-- Whether a quorum that is still alive at the tip may need the list. -/
def usedByQuorum (listHeight tipHeight : Int) : Bool :=
  E.params.llmqs.any fun params =>
    decide (listHeight.tmod params.dkgInterval = 0) &&
      decide (listHeight + params.dkgInterval * (params.keepOldConnections + 1) ≥ tipHeight)

/-- Keep the list in the cache if it is the tip's or a quorum's. -/
def keepSnapshot (m : CDeterministicMNManager) (snapshot : CDeterministicMNList) :
    CDeterministicMNManager :=
  match m.tipIndex with
  | none => m
  | some tip =>
    if snapshot.blockHash = tip.getBlockHash ∨ usedByQuorum E snapshot.nHeight tip.nHeight then
      m.cacheList snapshot.blockHash snapshot
    else m

def getListForBlock (order : WalkOrder) (b : CBlockIndex) (m : CDeterministicMNManager) : Call CDeterministicMNList :=
  match findSnapshot b m with
  | (.error e, m) => (.error e, m)
  | (.ok (snapshot, indexes), m) =>
    match indexes.foldlM (replayBlock E order m) snapshot with
    | .error e => (.error e, m)
    | .ok snapshot => (.ok snapshot, keepSnapshot E m snapshot)

def writesSnapshot (nHeight : Int) (oldList : CDeterministicMNList) : Bool :=
  decide (nHeight.tmod diskSnapshotPeriod = 0) || decide (oldList.nHeight = -1)

/-- The records and cache entries `ProcessBlock` makes for a block. -/
def storeBlock (oldList newList : CDeterministicMNList) (m : CDeterministicMNManager) : CDeterministicMNManager :=
  let diff := oldList.buildDiff newList
  let m := { m with dbListDiff := m.dbListDiff.insert newList.blockHash diff }
  let m :=
    if writesSnapshot b.nHeight oldList then
      { m with dbListSnapshot := m.dbListSnapshot.insert newList.blockHash newList }.cacheList newList.blockHash newList
    else m
  m.cacheDiff b.getBlockHash { diff with nHeight := b.nHeight }

/-- The height and hash `ProcessBlock` gives the new list. -/
def finishList (newList : CDeterministicMNList) : CDeterministicMNList :=
  (if newList.nHeight = -1 then newList.setHeight b.nHeight else newList).setBlockHash b.getBlockHash

/-- `ProcessBlock` catches what is thrown; a failed `assert` ends the process. -/
def caught : BlockError → BlockError
  | .thrown .assertion => .thrown .assertion
  | .thrown _ => .invalid (.consensus "failed-dmn-block")
  | .invalid verdict => .invalid verdict

/-- `ProcessBlock`; the result is the list it computes and stores, if it does.  It asks for the
previous list twice. -/
def processBlock (T : BlockTree) (order₁ order₂ : WalkOrder) (fJustCheck : Bool) :
    CBlockIndex → CDeterministicMNManager → Except BlockError (Option CDeterministicMNList) × CDeterministicMNManager
  | .genesis h, m =>
    if (CBlockIndex.genesis h).nHeight < E.params.DIP0003Height then (.ok none, m)
    else (.error (.thrown .assertion), m)
  | .child h p, m =>
    if (CBlockIndex.child h p).nHeight < E.params.DIP0003Height then (.ok none, m)
    else
      match getListForBlock E order₁ p m with
      | (.error e, m) => (.error (caught (.thrown e)), m)
      | (.ok prevList, m) =>
        match buildNewListFromBlock E (T.context h p) (T.block (.child h p)) prevList with
        | .error e => (.error (caught e), m)
        | .ok newList =>
          if fJustCheck then (.ok none, m)
          else
            let newList := finishList (.child h p) newList
            match getListForBlock E order₂ p m with
            | (.error e, m) => (.error (caught (.thrown e)), m)
            | (.ok oldList, m) =>
              let m := storeBlock (.child h p) oldList newList m
              if (CBlockIndex.child h p).nHeight = E.params.DIP0003EnforcementHeight ∧
                  E.params.DIP0003EnforcementHash ≠ 0 ∧ E.params.DIP0003EnforcementHash ≠ h then
                (.error (.invalid (.consensus "bad-dip3-enf-block")), m)
              else (.ok (some newList), m)

def eraseBlock : CDeterministicMNManager :=
  { m with
    mnListsCache := m.mnListsCache.erase b.getBlockHash
    mnListDiffsCache := m.mnListDiffsCache.erase b.getBlockHash }

/-- `UndoBlock`.  A block with changes has its list and the previous one looked up first, for the
signals that are sent. -/
def undoBlock (order₁ order₂ : WalkOrder) (b : CBlockIndex) (m : CDeterministicMNManager) : Call Unit :=
  match m.dbListDiff[b.getBlockHash]? with
  | none => (.ok (), m.eraseBlock b)
  | some diff =>
    if diff.hasChanges then
      match getListForBlock E order₁ b m with
      | (.error e, m) => (.error e, m)
      | (.ok _, m) =>
        match b.pprev with
        | none => (.error .assertion, m)
        | some p =>
          match getListForBlock E order₂ p m with
          | (.error e, m) => (.error e, m)
          | (.ok _, m) => (.ok (), m.eraseBlock b)
    else (.ok (), m.eraseBlock b)

def updatedBlockTip : CDeterministicMNManager :=
  { m with tipIndex := some b }

def dropsList (m : CDeterministicMNManager) (nHeight : Int) (blockHash : Uint256) (l : CDeterministicMNList) : Bool :=
  decide (l.nHeight + listDiffsCacheSize < nHeight) ||
    (!(m.tipIndex.any fun tip => blockHash == tip.getBlockHash) && !usedByQuorum E l.nHeight nHeight)

def cleanupCache (nHeight : Int) (m : CDeterministicMNManager) : CDeterministicMNManager :=
  { m with
    mnListsCache := m.mnListsCache.filter fun blockHash l => !dropsList E m nHeight blockHash l
    mnListDiffsCache := m.mnListDiffsCache.filter fun _ diff =>
      !decide (diff.nHeight + listDiffsCacheSize < nHeight) }

end CDeterministicMNManager

/-! ### The lists of a tree

The list of every block of a tree, computed without caches, differences or a
database.  A block below the activation height has the initial list; a later one has
the list built on that of its predecessor.  The counter of registered masternodes is
the only field that depends on how the list is kept: a list that is not written to
disk is replayed, and the replay does not count masternodes that the block registers
and removes again.
-/

open CDeterministicMNManager

variable {l r old new : CDeterministicMNList}

/-- The list kept for a block: the built one, or the replayed one. -/
def storedList (b : CBlockIndex) (old new : CDeterministicMNList) : CDeterministicMNList :=
  if writesSnapshot b.nHeight old then new
  else { new with nTotalRegisteredCount := replayedCount old new }

def blockList (E : Env) (T : BlockTree) : CBlockIndex → Except BlockError CDeterministicMNList
  | .genesis h => .ok (initialList (.genesis h))
  | .child h p =>
    if (CBlockIndex.child h p).nHeight < E.params.DIP0003Height then .ok (initialList (.child h p))
    else do
      let old ← blockList E T p
      let new ← buildNewListFromBlock E (T.context h p) (T.block (.child h p)) old
      .ok (storedList (.child h p) old (finishList (.child h p) new))

variable {E : Env} {T : BlockTree} {b p : CBlockIndex} {h : Uint256}

theorem blockList_of_initial (hb : b.nHeight < E.params.DIP0003Height ∨ b.pprev = none) :
    blockList E T b = .ok (initialList b) := by
  cases b with
  | genesis h => rfl
  | child h p =>
    rcases hb with hb | hb
    · rw [blockList, if_pos hb]
    · cases hb

theorem blockList_child (hactive : E.params.DIP0003Height ≤ (CBlockIndex.child h p).nHeight)
    (hprev : blockList E T p = .ok old)
    (hbuilt : buildNewListFromBlock E (T.context h p) (T.block (.child h p)) old = .ok new) :
    blockList E T (.child h p) = .ok (storedList (.child h p) old (finishList (.child h p) new)) := by
  rw [blockList, if_neg (by omega), hprev, ok_bind, hbuilt, ok_bind]

/-- The lists of a tree agree with the built ones in everything but the counter. -/
structure SameList (l l' : CDeterministicMNList) : Prop where
  blockHash : l.blockHash = l'.blockHash
  nHeight : l.nHeight = l'.nHeight
  mnMap : l.mnMap = l'.mnMap
  mnInternalIdMap : l.mnInternalIdMap = l'.mnInternalIdMap
  mnUniquePropertyMap : l.mnUniquePropertyMap = l'.mnUniquePropertyMap

theorem storedList_same (b : CBlockIndex) (old new : CDeterministicMNList) : SameList (storedList b old new) new := by
  unfold storedList
  split
  · exact ⟨rfl, rfl, rfl, rfl, rfl⟩
  · exact ⟨rfl, rfl, rfl, rfl, rfl⟩

@[simp]
theorem finishList_blockHash : (finishList b new).blockHash = b.getBlockHash := rfl

theorem finishList_maps (b : CBlockIndex) (new : CDeterministicMNList) :
    (finishList b new).mnMap = new.mnMap ∧ (finishList b new).mnInternalIdMap = new.mnInternalIdMap ∧
      (finishList b new).mnUniquePropertyMap = new.mnUniquePropertyMap := by
  unfold finishList
  split
  · exact ⟨rfl, rfl, rfl⟩
  · exact ⟨rfl, rfl, rfl⟩

theorem SameList.sound (hl : SameList l r) (hr : Sound E r) : Sound E l :=
  ⟨hr.indexed.congr hl.mnMap hl.mnInternalIdMap hl.mnUniquePropertyMap, by
    intro q d hget
    exact hr.owned q d (hl.mnMap ▸ hget)⟩

theorem sound_finishList (hnew : Sound E new) : Sound E (finishList b new) := by
  obtain ⟨hmap, hid, hprop⟩ := finishList_maps b new
  exact ⟨hnew.indexed.congr hmap hid hprop, fun q d hget => hnew.owned q d (hmap ▸ hget)⟩

theorem blockList_sound (hl : blockList E T b = .ok l) : Sound E l := by
  have hinitial (b : CBlockIndex) : Sound E (initialList b) :=
    ⟨indexed_of_mnMap_empty rfl rfl rfl, by simp [Owned, initialList]⟩
  induction b generalizing l with
  | genesis h =>
    cases hl
    exact hinitial _
  | child h p ih =>
    rw [blockList] at hl
    split_ifs at hl with hbelow
    · cases hl
      exact hinitial _
    · simp only [bind_eq_ok] at hl
      obtain ⟨old, hprev, new, hbuilt, hl⟩ := hl
      cases hl
      obtain ⟨l₁, l₂, hrun⟩ := buildNewListFromBlock_ok (ih hprev).indexed hbuilt
      exact (storedList_same _ old _).sound (sound_finishList (hrun.sound (ih hprev)))

theorem blockList_blockHash (hl : blockList E T b = .ok l) : l.blockHash = b.getBlockHash := by
  cases b with
  | genesis h =>
    cases hl
    rfl
  | child h p =>
    rw [blockList] at hl
    split_ifs at hl
    · cases hl
      rfl
    · simp only [bind_eq_ok] at hl
      obtain ⟨old, -, new, -, hl⟩ := hl
      cases hl
      exact (storedList_same _ old _).blockHash

end OmegaCore.Evo
