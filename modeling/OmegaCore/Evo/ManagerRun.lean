import OmegaCore.Evo.Manager

/-!
The manager over whole histories.  Every cached list and every snapshot is the list
of its block, every stored difference leads from the list of the previous block to
that of its block, and a block whose list is written to disk has a snapshot there.
`GetListForBlock` therefore returns the list of the block whatever the caches hold, as
long as no processed block brings an operator key back in the other encoding.
-/

namespace OmegaCore.Evo

open Util CDeterministicMNList CDeterministicMNManager CBlockIndex Except Option

variable {E : Env} {T : BlockTree} {b p : CBlockIndex} {h : Uint256}
variable {l r old new : CDeterministicMNList} {diff : CDeterministicMNListDiff}

/-! ### Replaying one block -/

/-- What the caller of `ProcessBlock` has made sure of: the special transactions pass their checks
against the previous list, and transaction ids are unique along a chain.  Property hashes of the
values that occur do not collide. -/
structure Processable (E : Env) (T : BlockTree) (h : Uint256) (p : CBlockIndex)
    (old : CDeterministicMNList) : Prop where
  checked : ∃ checkSigs, (T.block (.child h p)).vtx.forM (checkSpecialTx E (T.context h p) old checkSigs) = .ok ()
  fresh : ∀ tx ∈ (T.block (.child h p)).vtx, old.mnMap[tx.hash]? = none
  noCollisions : NoCollisions E.toCodec old (T.block (.child h p))

theorem Processable.accepted (hproc : Processable E T h p old)
    (hbuilt : buildNewListFromBlock E (T.context h p) (T.block (.child h p)) old = .ok new) :
    ∃ checkSigs, Accepted E (T.context h p) (T.block (.child h p)) checkSigs old new := by
  obtain ⟨checkSigs, hchecked⟩ := hproc.checked
  refine ⟨checkSigs, ?_, hproc.fresh⟩
  rw [processSpecialTxsInBlock, hchecked]
  exact hbuilt

theorem eq_of_header (hheader : l.header = r.header) (hmap : l.mnMap = r.mnMap)
    (hid : l.mnInternalIdMap = r.mnInternalIdMap)
    (hprop : l.mnUniquePropertyMap = r.mnUniquePropertyMap) : l = r := by
  cases l
  cases r
  simp_all [header]

theorem buildDiff_finishList : old.buildDiff (finishList b new) = old.buildDiff new := by
  unfold finishList
  split
  · rfl
  · rfl

theorem finishList_nHeight (hold : Sound E old)
    (hbuilt : buildNewListFromBlock E (T.context h p) (T.block (.child h p)) old = .ok new) :
    (finishList (.child h p) new).nHeight = (CBlockIndex.child h p).nHeight := by
  obtain ⟨l₁, l₂, hrun⟩ := buildNewListFromBlock_ok hold.indexed hbuilt
  have hheight : new.nHeight = (T.context h p).nHeight := (hrun.inBlock hold.indexed).nHeight
  unfold finishList
  split
  · rfl
  · exact hheight

/-- Replaying a block that keeps the encodings, in any order. -/
theorem Processable.replayed (hproc : Processable E T h p old) (hold : Sound E old)
    (hkeeps : KeepsEncodings old (T.block (.child h p)))
    (hbuilt : buildNewListFromBlock E (T.context h p) (T.block (.child h p)) old = .ok new)
    {us : List (ℕ × CDeterministicMNStateDiff)} (hperm : us.Perm (old.buildDiff new).updatedMNs) :
    old.applyDiff E.toCodec (.child h p) { old.buildDiff new with updatedMNs := us } =
      .ok { finishList (.child h p) new with
        nTotalRegisteredCount := replayedCount old (finishList (.child h p) new) } := by
  obtain ⟨checkSigs, hacc⟩ := hproc.accepted hbuilt
  have hexact := (hacc.replaysExactly_iff hold hproc.noCollisions (.child h p)).mpr hkeeps
  obtain ⟨r, hr, hmap, hid, hprop⟩ := hexact us hperm
  obtain ⟨hmap', hid', hprop'⟩ := finishList_maps (.child h p) new
  rw [hr]
  refine congrArg ok (eq_of_header ?_ (hmap.trans hmap'.symm) (hid.trans hid'.symm) (hprop.trans hprop'.symm))
  rw [applyDiff_header hr]
  simp only [header, finishList_blockHash, finishList_nHeight hold hbuilt, replayedCount, buildDiff_finishList]

/-! ### The invariant -/

variable {m m₁ m₂ m' : CDeterministicMNManager}

/-- A block whose list can be asked for: its list is the initial one, or it has been processed. -/
def Available (E : Env) (m : CDeterministicMNManager) (b : CBlockIndex) : Prop :=
  b.nHeight < E.params.DIP0003Height ∨ b.pprev = none ∨ (m.dbListDiff[b.getBlockHash]?).isSome

/-- A stored difference and where it comes from. -/
inductive Stored (E : Env) (T : BlockTree) (m : CDeterministicMNManager) :
    CBlockIndex → CDeterministicMNListDiff → Prop where
  | intro {h : Uint256} {p : CBlockIndex} {old new : CDeterministicMNList}
      (active : E.params.DIP0003Height ≤ (CBlockIndex.child h p).nHeight)
      (parent : Available E m p) (prev : blockList E T p = .ok old)
      (built : buildNewListFromBlock E (T.context h p) (T.block (.child h p)) old = .ok new)
      (processable : Processable E T h p old) (keeps : KeepsEncodings old (T.block (.child h p)))
      (snapshot : writesSnapshot (CBlockIndex.child h p).nHeight old = true → (m.dbListSnapshot[h]?).isSome) :
      Stored E T m (.child h p) (old.buildDiff new)

structure Consistent (E : Env) (T : BlockTree) (m : CDeterministicMNManager) : Prop where
  lists : ∀ {b l}, T.mem b → m.mnListsCache[b.getBlockHash]? = some l → blockList E T b = .ok l
  snapshots : ∀ {b l}, T.mem b → m.dbListSnapshot[b.getBlockHash]? = some l → blockList E T b = .ok l
  cachedDiffs : ∀ {b diff}, T.mem b → m.mnListDiffsCache[b.getBlockHash]? = some diff →
    ∃ diff', m.dbListDiff[b.getBlockHash]? = some diff' ∧ diff = { diff' with nHeight := b.nHeight }
  stored : ∀ {b diff}, T.mem b → m.dbListDiff[b.getBlockHash]? = some diff → Stored E T m b diff

/-- A look-up may fill the caches, and nothing else. -/
structure Extends (m m' : CDeterministicMNManager) : Prop where
  tipIndex : m'.tipIndex = m.tipIndex
  dbListSnapshot : m'.dbListSnapshot = m.dbListSnapshot
  dbListDiff : m'.dbListDiff = m.dbListDiff
  cachedDiffs : ∀ {blockHash : Uint256} {diff : CDeterministicMNListDiff},
    m.mnListDiffsCache[blockHash]? = some diff → m'.mnListDiffsCache[blockHash]? = some diff

theorem Extends.refl (m : CDeterministicMNManager) : Extends m m :=
  ⟨rfl, rfl, rfl, id⟩

theorem Extends.trans (h₁ : Extends m m₁) (h₂ : Extends m₁ m₂) : Extends m m₂ :=
  ⟨h₂.tipIndex.trans h₁.tipIndex, h₂.dbListSnapshot.trans h₁.dbListSnapshot,
    h₂.dbListDiff.trans h₁.dbListDiff, fun hget => h₂.cachedDiffs (h₁.cachedDiffs hget)⟩

theorem isSome_get_insert {V : Type} {db : Map Uint256 V} {q : Uint256} {v : V} (r : Uint256) (h : (db[r]?).isSome) :
    ((db.insert q v)[r]?).isSome := by
  rw [Map.get_insert]
  split_ifs
  · rfl
  · exact h

theorem Available.mono (hb : Available E m b)
    (hdiff : ∀ r : Uint256, (m.dbListDiff[r]?).isSome → (m'.dbListDiff[r]?).isSome) : Available E m' b :=
  hb.imp_right (Or.imp_right (hdiff _))

theorem Stored.mono (hs : Stored E T m b diff)
    (hdiff : ∀ r : Uint256, (m.dbListDiff[r]?).isSome → (m'.dbListDiff[r]?).isSome)
    (hsnap : ∀ r : Uint256, (m.dbListSnapshot[r]?).isSome → (m'.dbListSnapshot[r]?).isSome) :
    Stored E T m' b diff := by
  cases hs with
  | intro active parent prev built processable keeps snapshot =>
    exact .intro active (parent.mono hdiff) prev built processable keeps fun hwrites => hsnap _ (snapshot hwrites)

theorem extends_cacheList (m : CDeterministicMNManager) (blockHash : Uint256) (l : CDeterministicMNList) :
    Extends m (m.cacheList blockHash l) :=
  ⟨rfl, rfl, rfl, id⟩

theorem extends_cacheDiff (m : CDeterministicMNManager) (blockHash : Uint256)
    (diff : CDeterministicMNListDiff) : Extends m (m.cacheDiff blockHash diff) := by
  refine ⟨rfl, rfl, rfl, fun {q d} hget => ?_⟩
  simp only [cacheDiff, Map.get_emplace]
  split_ifs with hq
  · rw [hq.1, hq.2] at hget
    cases hget
  · exact hget

theorem Consistent.cacheList (hm : Consistent E T m) (hb : T.mem b) (hl : blockList E T b = .ok l) :
    Consistent E T (m.cacheList b.getBlockHash l) where
  lists := by
    intro c k hc hget
    simp only [CDeterministicMNManager.cacheList, Map.get_emplace] at hget
    split_ifs at hget with hq
    · cases hget
      rw [T.hash_inj hc hb hq.1, hl]
    · exact hm.lists hc hget
  snapshots := hm.snapshots
  cachedDiffs := hm.cachedDiffs
  stored hc hget := (hm.stored hc hget).mono (fun _ => id) (fun _ => id)

theorem Consistent.cacheDiff (hm : Consistent E T m) (hb : T.mem b)
    (hdiff : m.dbListDiff[b.getBlockHash]? = some diff) :
    Consistent E T (m.cacheDiff b.getBlockHash { diff with nHeight := b.nHeight }) where
  lists := hm.lists
  snapshots := hm.snapshots
  cachedDiffs := by
    intro c d hc hget
    simp only [CDeterministicMNManager.cacheDiff, Map.get_emplace] at hget
    split_ifs at hget with hq
    · cases hget
      obtain rfl := T.hash_inj hc hb hq.1
      exact ⟨diff, hdiff, rfl⟩
    · exact hm.cachedDiffs hc hget
  stored hc hget := (hm.stored hc hget).mono (fun _ => id) (fun _ => id)

/-! ### Looking a list up -/

/-- The walked difference is without changes exactly if the stored one is, so applying it is what
either branch of the source does. -/
theorem replayBlock_eq (order : WalkOrder) (hget : m.mnListDiffsCache[b.getBlockHash]? = some diff) :
    replayBlock E order m l b = (l.applyDiff E.toCodec b
      { diff with updatedMNs := order.walk b diff.updatedMNs }).mapError Thrown.error := by
  simp only [replayBlock, hget]
  split_ifs with hchanges
  · rfl
  · have hempty : ({ diff with updatedMNs := order.walk b diff.updatedMNs } :
        CDeterministicMNListDiff).hasChanges = false := by
      simp only [CDeterministicMNListDiff.hasChanges, Bool.not_eq_true, Bool.or_eq_false_iff,
        Bool.not_eq_false', List.isEmpty_iff] at hchanges ⊢
      have hperm := order.perm b diff.updatedMNs
      rw [hchanges.1.2] at hperm ⊢
      exact ⟨⟨hchanges.1.1, hperm.eq_nil⟩, hchanges.2⟩
    rw [applyDiff_of_hasChanges_eq_false hempty]
    rfl

/-- Replaying the cached difference of a block without a snapshot. -/
theorem Consistent.replayBlock (hm : Consistent E T m) (hb : T.mem (.child h p))
    (hcached : (m.mnListDiffsCache[h]?).isSome) (hsnap : m.dbListSnapshot[h]? = none)
    (hprev : blockList E T p = .ok old) (order : WalkOrder) :
    ∃ l, blockList E T (.child h p) = .ok l ∧
      replayBlock E order m old (.child h p) = .ok l := by
  obtain ⟨cached, hcached⟩ := isSome_iff_exists.mp hcached
  obtain ⟨diff, hdiff, rfl⟩ := hm.cachedDiffs hb hcached
  cases hm.stored hb hdiff with
  | @intro _ _ old' new active parent prev built processable keeps snapshot =>
    rw [hprev, ok.injEq] at prev
    subst prev
    have hwrites : ¬ writesSnapshot (child h p).nHeight old = true := by
      intro hwrites
      have hsome := snapshot hwrites
      rw [hsnap] at hsome
      cases hsome
    have hreplay := processable.replayed (blockList_sound hprev) keeps built
      (order.perm (.child h p) (old.buildDiff new).updatedMNs)
    refine ⟨_, blockList_child active hprev built, ?_⟩
    rw [replayBlock_eq order hcached, storedList, if_neg hwrites]
    exact congrArg (Except.mapError Thrown.error) hreplay

/-- A walk back that found what it takes to rebuild the list of the block. -/
def Found (E : Env) (T : BlockTree) (b : CBlockIndex) (m : CDeterministicMNManager)
    (result : Call (CDeterministicMNList × List CBlockIndex)) : Prop :=
  ∃ l snapshot indexes m', result = (.ok (snapshot, indexes), m') ∧ Consistent E T m' ∧ Extends m m' ∧
    blockList E T b = .ok l ∧
    ∀ order, indexes.foldlM (replayBlock E order m') snapshot = .ok l

section

variable (hm : Consistent E T m)

include hm

theorem Consistent.visit (hb : T.mem b) (hav : Available E m b)
    {next : CDeterministicMNManager → Call (CDeterministicMNList × List CBlockIndex)}
    (hnext : ∀ m₁, Consistent E T m₁ → Extends m m₁ → (m.dbListDiff[b.getBlockHash]?).isSome →
      (m₁.mnListDiffsCache[b.getBlockHash]?).isSome → m.dbListSnapshot[b.getBlockHash]? = none →
      Found E T b m₁ (next m₁)) : Found E T b m (CDeterministicMNManager.visit b m next) := by
  unfold CDeterministicMNManager.visit
  split
  · next snapshot hget =>
    exact ⟨snapshot, snapshot, [], m, rfl, hm, .refl m, hm.lists hb hget, fun _ => rfl⟩
  · split
    · next snapshot hget =>
      have hl := hm.snapshots hb hget
      exact ⟨snapshot, snapshot, [], _, rfl, hm.cacheList hb hl, extends_cacheList m _ _, hl, fun _ => rfl⟩
    · next hsnap =>
      split
      · next cached hget =>
        obtain ⟨diff, hdiff, -⟩ := hm.cachedDiffs hb hget
        exact hnext m hm (.refl m) (by rw [hdiff]; rfl) (by rw [hget]; rfl) hsnap
      · next hnone =>
        split
        · next hdiff =>
          have hinitial : b.nHeight < E.params.DIP0003Height ∨ b.pprev = none := by
            rcases hav with hbelow | hgenesis | hsome
            · exact .inl hbelow
            · exact .inr hgenesis
            · rw [hdiff] at hsome
              cases hsome
          have hl := blockList_of_initial (T := T) hinitial
          exact ⟨_, _, [], _, rfl, hm.cacheList hb hl, extends_cacheList m _ _, hl, fun _ => rfl⟩
        · next diff hdiff =>
          have hext := extends_cacheDiff m b.getBlockHash { diff with nHeight := b.nHeight }
          obtain ⟨l, s, is, m', hres, hm', hext', hl⟩ := hnext _ (hm.cacheDiff hb hdiff) hext (by rw [hdiff]; rfl)
            (by simp [CDeterministicMNManager.cacheDiff, Map.get_emplace, hnone]) hsnap
          exact ⟨l, s, is, m', hres, hm', hext.trans hext', hl⟩

theorem Consistent.findSnapshot (hb : T.mem b) (hav : Available E m b) : Found E T b m (findSnapshot b m) := by
  induction b generalizing m with
  | genesis h =>
    refine hm.visit hb hav fun m₁ _ _ hdiff _ _ => ?_
    obtain ⟨diff, hdiff⟩ := isSome_iff_exists.mp hdiff
    cases hm.stored hb hdiff
  | child h p ih =>
    refine hm.visit hb hav fun m₁ hm₁ hext hdiff hcached hsnap => ?_
    obtain ⟨diff, hdiff⟩ := isSome_iff_exists.mp hdiff
    have hparent : Available E m₁ p := by
      cases hm.stored hb hdiff with
      | intro _ parent => exact parent.mono fun _ => hext.dbListDiff ▸ id
    obtain ⟨old, snapshot, indexes, m', hres, hm', hext', hprev, hreplay⟩ :=
      ih hm₁ (T.pprev_mem hb) hparent
    obtain ⟨cached, hcached⟩ := isSome_iff_exists.mp hcached
    have hcached' : m'.mnListDiffsCache[h]? = some cached := hext'.cachedDiffs hcached
    have hblock := hm'.replayBlock hb (by rw [hcached']; rfl)
      (by rw [hext'.dbListSnapshot, hext.dbListSnapshot]; exact hsnap) hprev
    obtain ⟨l, hl, -⟩ := hblock ⟨fun _ us => us, fun _ us => .refl us⟩
    refine ⟨l, snapshot, indexes ++ [.child h p], m', by rw [hres], hm', hext', hl, fun order => ?_⟩
    obtain ⟨l', hl', hstep⟩ := hblock order
    rw [hl, ok.injEq] at hl'
    rw [List.foldlM_append, hreplay order, ok_bind, List.foldlM_cons, hstep, ← hl']
    rfl

/-- Every look-up of an available block returns its list. -/
theorem Consistent.getListForBlock (hb : T.mem b) (hav : Available E m b) (order : WalkOrder) :
    ∃ l m', blockList E T b = .ok l ∧
      CDeterministicMNManager.getListForBlock E order b m = (.ok l, m') ∧ Consistent E T m' ∧
      Extends m m' := by
  obtain ⟨l, snapshot, indexes, m₁, hfind, hm₁, hext, hl, hreplay⟩ := hm.findSnapshot hb hav
  have hget : CDeterministicMNManager.getListForBlock E order b m = (.ok l, keepSnapshot E m₁ l) := by
    simp only [CDeterministicMNManager.getListForBlock, hfind, hreplay order]
  refine ⟨l, _, hl, hget, ?_⟩
  unfold keepSnapshot
  split
  · exact ⟨hm₁, hext⟩
  · split_ifs
    · rw [blockList_blockHash hl]
      exact ⟨hm₁.cacheList hb hl, hext.trans (extends_cacheList m₁ _ l)⟩
    · exact ⟨hm₁, hext⟩

/-! ### The operations keep the invariant -/

theorem Consistent.drop (hsnap : m'.dbListSnapshot = m.dbListSnapshot) (hdiff : m'.dbListDiff = m.dbListDiff)
    (hlists : ∀ (q : Uint256) l, m'.mnListsCache[q]? = some l → m.mnListsCache[q]? = some l)
    (hdiffs : ∀ (q : Uint256) d, m'.mnListDiffsCache[q]? = some d → m.mnListDiffsCache[q]? = some d) :
    Consistent E T m' where
  lists hb hget := hm.lists hb (hlists _ _ hget)
  snapshots hb hget := hm.snapshots hb (hsnap ▸ hget)
  cachedDiffs hb hget := hdiff ▸ hm.cachedDiffs hb (hdiffs _ _ hget)
  stored hb hget := (hm.stored hb (hdiff ▸ hget)).mono (fun _ => hdiff ▸ id) (fun _ => hsnap ▸ id)

theorem Consistent.eraseBlock (b : CBlockIndex) : Consistent E T (m.eraseBlock b) :=
  hm.drop rfl rfl (fun _ _ hget => Map.get_of_get_erase hget) (fun _ _ hget => Map.get_of_get_erase hget)

theorem Consistent.cleanupCache (nHeight : Int) : Consistent E T (m.cleanupCache E nHeight) :=
  hm.drop rfl rfl (fun _ _ hget => Map.get_of_get_filter hget) (fun _ _ hget => Map.get_of_get_filter hget)

theorem Consistent.updatedBlockTip (b : CBlockIndex) : Consistent E T (m.updatedBlockTip b) :=
  hm.drop rfl rfl (fun _ _ hget => hget) (fun _ _ hget => hget)

end

/-- What is known when the records of a block are written. -/
structure Writes (E : Env) (T : BlockTree) (m : CDeterministicMNManager) (h : Uint256) (p : CBlockIndex)
    (old new : CDeterministicMNList) : Prop where
  mem : T.mem (.child h p)
  active : E.params.DIP0003Height ≤ (CBlockIndex.child h p).nHeight
  parent : Available E m p
  prev : blockList E T p = .ok old
  built : buildNewListFromBlock E (T.context h p) (T.block (.child h p)) old = .ok new
  processable : Processable E T h p old
  keeps : KeepsEncodings old (T.block (.child h p))

theorem Writes.diff_eq (hw : Writes E T m h p old new) (hs : Stored E T m (.child h p) diff) :
    diff = old.buildDiff new := by
  cases hs with
  | intro _ _ prev built =>
    rw [hw.prev, ok.injEq] at prev
    subst prev
    rw [hw.built, ok.injEq] at built
    rw [built]

def withRecords (b : CBlockIndex) (old newList : CDeterministicMNList) (m : CDeterministicMNManager) :
    CDeterministicMNManager :=
  { m with
    dbListDiff := m.dbListDiff.insert b.getBlockHash (old.buildDiff newList)
    dbListSnapshot :=
      if writesSnapshot b.nHeight old then m.dbListSnapshot.insert b.getBlockHash newList
      else m.dbListSnapshot }

theorem Consistent.writeRecords (hm : Consistent E T m) (hw : Writes E T m h p old new) :
    Consistent E T (withRecords (.child h p) old (finishList (.child h p) new) m) := by
  have hdiff : (withRecords (.child h p) old (finishList (.child h p) new) m).dbListDiff =
      m.dbListDiff.insert h (old.buildDiff new) := by
    rw [← buildDiff_finishList (b := .child h p)]
    rfl
  have hsnap (r : Uint256) (hsome : (m.dbListSnapshot[r]?).isSome) : ((withRecords
      (.child h p) old (finishList (.child h p) new) m).dbListSnapshot[r]?).isSome := by
    simp only [withRecords]
    split_ifs
    · exact isSome_get_insert r hsome
    · exact hsome
  constructor
  · exact hm.lists
  · intro c l hc hget
    simp only [withRecords] at hget
    split_ifs at hget with hwrites
    · rw [Map.get_insert] at hget
      split_ifs at hget with hq
      · cases hget
        rw [T.hash_inj hc hw.mem hq, blockList_child hw.active hw.prev hw.built, storedList, if_pos hwrites]
      · exact hm.snapshots hc hget
    · exact hm.snapshots hc hget
  · intro c d hc hget
    obtain ⟨d', hd', heq⟩ := hm.cachedDiffs hc hget
    refine ⟨d', ?_, heq⟩
    rw [hdiff, Map.get_insert]
    split_ifs with hq
    · obtain rfl := T.hash_inj hc hw.mem hq
      rw [hw.diff_eq (hm.stored hc hd')]
    · exact hd'
  · intro c d hc hget
    rw [hdiff, Map.get_insert] at hget
    split_ifs at hget with hq
    · cases hget
      obtain rfl := T.hash_inj hc hw.mem hq
      refine .intro hw.active (hw.parent.mono (hdiff ▸ isSome_get_insert)) hw.prev hw.built hw.processable hw.keeps ?_
      intro hwrites
      simp only [withRecords, if_pos hwrites, Map.get_insert]
      rw [if_pos hq.symm]
      rfl
    · exact (hm.stored hc hget).mono (hdiff ▸ isSome_get_insert) hsnap

theorem Consistent.storeBlock (hm : Consistent E T m) (hw : Writes E T m h p old new) :
    Consistent E T (storeBlock (.child h p) old (finishList (.child h p) new) m) ∧
      ((storeBlock (.child h p) old (finishList (.child h p) new) m).dbListDiff =
        m.dbListDiff.insert h (old.buildDiff (finishList (.child h p) new))) := by
  have hrecords := hm.writeRecords hw
  have hl := blockList_child hw.active hw.prev hw.built
  have hcached : (withRecords (.child h p) old (finishList (.child h p) new) m).dbListDiff[
      (child h p).getBlockHash]? = some (old.buildDiff (finishList (.child h p) new)) := by
    simp [withRecords]
  unfold CDeterministicMNManager.storeBlock
  by_cases hwrites : writesSnapshot (child h p).nHeight old = true
  · rw [storedList, if_pos hwrites] at hl
    have hlist := (hrecords.cacheList hw.mem hl).cacheDiff hw.mem hcached
    simp only [withRecords, if_pos hwrites] at hlist ⊢
    exact ⟨hlist, rfl⟩
  · have hdiffs := hrecords.cacheDiff hw.mem hcached
    simp only [withRecords, if_neg hwrites] at hdiffs ⊢
    exact ⟨hdiffs, rfl⟩

theorem Consistent.undoBlock (hm : Consistent E T m) (hb : T.mem b) (order₁ order₂ : WalkOrder) :
    Consistent E T (undoBlock E order₁ order₂ b m).2 ∧ (undoBlock E order₁ order₂ b m).2.dbListDiff = m.dbListDiff := by
  unfold CDeterministicMNManager.undoBlock
  split
  · exact ⟨hm.eraseBlock b, rfl⟩
  · next diff hdiff =>
    split_ifs
    · have hstored := hm.stored hb hdiff
      obtain ⟨l, m₁, -, hget, hm₁, hext⟩ := hm.getListForBlock hb (.inr (.inr (by rw [hdiff]; rfl))) order₁
      rw [hget]
      cases hstored with
      | @intro h p _ _ _ parent =>
        obtain ⟨l', m₂, -, hget', hm₂, hext'⟩ := hm₁.getListForBlock (T.pprev_mem hb)
          (parent.mono fun _ => hext.dbListDiff ▸ id) order₂
        simp only [pprev, hget']
        exact ⟨hm₂.eraseBlock _, (hext.trans hext').dbListDiff⟩
    · exact ⟨hm.eraseBlock b, rfl⟩

/-! ### Histories -/

/-- The lists `ProcessBlock` has computed, after one more call. -/
def record (computed : CBlockIndex → Option CDeterministicMNList) (b : CBlockIndex)
    (result : Except BlockError (Option CDeterministicMNList)) : CBlockIndex → Option CDeterministicMNList :=
  fun c => if c = b then result.toOption.join <|> computed c else computed c

variable {computed : CBlockIndex → Option CDeterministicMNList}
variable {Q : CDeterministicMNList → CBlock → Prop}

/-- A block that is below the activation height or has been processed. -/
def Processed (E : Env) (computed : CBlockIndex → Option CDeterministicMNList) (b : CBlockIndex) : Prop :=
  b.nHeight < E.params.DIP0003Height ∨ b.pprev = none ∨ (computed b).isSome

/-- A block that is connected: its predecessor has been processed, its transactions were checked,
and it satisfies the condition `Q` together with the list of its predecessor. -/
def Ready (E : Env) (T : BlockTree) (Q : CDeterministicMNList → CBlock → Prop)
    (computed : CBlockIndex → Option CDeterministicMNList) (b : CBlockIndex) : Prop :=
  ∀ h p, b = .child h p → E.params.DIP0003Height ≤ b.nHeight → Processed E computed p ∧
    ∀ old, blockList E T p = .ok old → Processable E T h p old ∧ Q old (T.block b)

variable (E T Q) in
/-- The managers that interleavings of the operations lead to, with the lists computed so far. -/
inductive ManagerRun : CDeterministicMNManager → (CBlockIndex → Option CDeterministicMNList) → Prop where
  | start : ManagerRun {} fun _ => none
  | processBlock {m : CDeterministicMNManager} {computed : CBlockIndex → Option CDeterministicMNList}
      {b : CBlockIndex} (run : ManagerRun m computed) (mem : T.mem b)
      (ready : Ready E T Q computed b) (order₁ order₂ : WalkOrder) (fJustCheck : Bool) :
      ManagerRun (processBlock E T order₁ order₂ fJustCheck b m).2
        (record computed b (processBlock E T order₁ order₂ fJustCheck b m).1)
  | undoBlock {m : CDeterministicMNManager} {computed : CBlockIndex → Option CDeterministicMNList}
      {b : CBlockIndex} (run : ManagerRun m computed) (mem : T.mem b) (order₁ order₂ : WalkOrder) :
      ManagerRun (undoBlock E order₁ order₂ b m).2 computed
  | getListForBlock {m : CDeterministicMNManager} {computed : CBlockIndex → Option CDeterministicMNList}
      {b : CBlockIndex} (run : ManagerRun m computed) (mem : T.mem b)
      (processed : Processed E computed b) (order : WalkOrder) : ManagerRun (getListForBlock E order b m).2 computed
  | updatedBlockTip {m : CDeterministicMNManager} {computed : CBlockIndex → Option CDeterministicMNList}
      (run : ManagerRun m computed) (b : CBlockIndex) : ManagerRun (m.updatedBlockTip b) computed
  | cleanupCache {m : CDeterministicMNManager} {computed : CBlockIndex → Option CDeterministicMNList}
      (run : ManagerRun m computed) (nHeight : Int) : ManagerRun (m.cleanupCache E nHeight) computed

/-- The computed lists are the lists of their blocks, and their differences are in the database. -/
def Recorded (E : Env) (T : BlockTree) (m : CDeterministicMNManager)
    (computed : CBlockIndex → Option CDeterministicMNList) : Prop :=
  ∀ b new, computed b = some new → (m.dbListDiff[b.getBlockHash]?).isSome ∧
    ∃ l, blockList E T b = .ok l ∧ SameList l new

theorem Processed.available (hb : Processed E computed b) (hrec : Recorded E T m computed) : Available E m b := by
  rcases hb with hbelow | hgenesis | hsome
  · exact .inl hbelow
  · exact .inr (.inl hgenesis)
  · obtain ⟨new, hnew⟩ := isSome_iff_exists.mp hsome
    exact .inr (.inr (hrec b new hnew).1)

theorem Recorded.mono (hrec : Recorded E T m computed)
    (hdiff : ∀ r : Uint256, (m.dbListDiff[r]?).isSome → (m'.dbListDiff[r]?).isSome) : Recorded E T m' computed :=
  fun b new hnew => (hrec b new hnew).imp_left (hdiff _)

theorem record_of_none {result : Except BlockError (Option CDeterministicMNList)}
    (hnone : result.toOption.join = none) : record computed b result = computed := by
  funext c
  simp [record, hnone]

theorem Recorded.record (hrec : Recorded E T m computed)
    (hdb : (m.dbListDiff[b.getBlockHash]?).isSome) (hl : blockList E T b = .ok l) (hsame : SameList l new) :
    Recorded E T m (record computed b (.ok (some new))) := by
  intro c new' hnew'
  simp only [OmegaCore.Evo.record, Except.toOption, join_some] at hnew'
  split_ifs at hnew' with hc
  · cases hnew'
    subst hc
    exact ⟨hdb, l, hl, hsame⟩
  · exact hrec c new' hnew'

theorem Consistent.processBlock (hm : Consistent E T m) (hrec : Recorded E T m computed)
    (hb : T.mem b) (hready : Ready E T KeepsEncodings computed b) (order₁ order₂ : WalkOrder) (fJustCheck : Bool) :
    Consistent E T (processBlock E T order₁ order₂ fJustCheck b m).2 ∧
      Recorded E T (processBlock E T order₁ order₂ fJustCheck b m).2
        (record computed b (processBlock E T order₁ order₂ fJustCheck b m).1) := by
  cases b with
  | genesis h =>
    simp only [processBlock]
    split_ifs
    · exact ⟨hm, by rwa [record_of_none rfl]⟩
    · exact ⟨hm, by rwa [record_of_none rfl]⟩
  | child h p =>
    simp only [processBlock]
    by_cases hbelow : (child h p).nHeight < E.params.DIP0003Height
    · rw [if_pos hbelow]
      exact ⟨hm, by rwa [record_of_none rfl]⟩
    rw [if_neg hbelow]
    have hactive : E.params.DIP0003Height ≤ (child h p).nHeight := by omega
    obtain ⟨hprocessed, hcond⟩ := hready h p rfl hactive
    obtain ⟨old, m₁, hprev, hget, hm₁, hext⟩ := hm.getListForBlock (T.pprev_mem hb) (hprocessed.available hrec) order₁
    have hrec₁ : Recorded E T m₁ computed := hrec.mono fun _ => hext.dbListDiff ▸ id
    rw [hget]
    dsimp only
    split
    · exact ⟨hm₁, by rwa [record_of_none rfl]⟩
    next new hbuilt =>
    by_cases hjust : fJustCheck = true
    · rw [if_pos hjust]
      exact ⟨hm₁, by rwa [record_of_none rfl]⟩
    obtain ⟨old₂, m₂, hprev₂, hget₂, hm₂, hext₂⟩ := hm₁.getListForBlock (T.pprev_mem hb)
      (hprocessed.available hrec₁) order₂
    rw [hprev, ok.injEq] at hprev₂
    subst hprev₂
    have hrec₂ : Recorded E T m₂ computed := hrec₁.mono fun _ => hext₂.dbListDiff ▸ id
    have hw : Writes E T m₂ h p old new :=
      ⟨hb, hactive, hprocessed.available hrec₂, hprev, hbuilt, (hcond old hprev).1, (hcond old hprev).2⟩
    obtain ⟨hm₃, hdb⟩ := hm₂.storeBlock hw
    have hrec₃ := hrec₂.mono (hdb ▸ isSome_get_insert)
    rw [hget₂]
    -- a wrong enforcement block fails after its records were written
    split_ifs
    · exact ⟨hm₃, by rwa [record_of_none rfl]⟩
    · refine ⟨hm₃, hrec₃.record ?_ (blockList_child hactive hprev hbuilt) (storedList_same _ _ _)⟩
      rw [hdb, Map.get_insert, if_pos (by rfl)]
      rfl

theorem ManagerRun.consistent (hrun : ManagerRun E T KeepsEncodings m computed) :
    Consistent E T m ∧ Recorded E T m computed := by
  induction hrun with
  | start => exact ⟨⟨by simp, by simp, by simp, by simp⟩, fun _ _ hnew => by cases hnew⟩
  | processBlock _ mem ready order₁ order₂ fJustCheck ih =>
    exact ih.1.processBlock ih.2 mem ready order₁ order₂ fJustCheck
  | undoBlock _ mem order₁ order₂ ih =>
    obtain ⟨hm, hdb⟩ := ih.1.undoBlock mem order₁ order₂
    exact ⟨hm, ih.2.mono fun _ => hdb ▸ id⟩
  | getListForBlock _ mem processed order ih =>
    obtain ⟨l, m', -, hget, hm', hext⟩ := ih.1.getListForBlock mem (processed.available ih.2) order
    rw [hget]
    exact ⟨hm', ih.2.mono fun _ => hext.dbListDiff ▸ id⟩
  | updatedBlockTip _ b ih => exact ⟨ih.1.updatedBlockTip b, ih.2.mono fun _ => id⟩
  | cleanupCache _ nHeight ih => exact ⟨ih.1.cleanupCache nHeight, ih.2.mono fun _ => id⟩

/-- In every interleaving whose processed blocks keep the encodings of the operator keys, a look-up
returns the list that was computed for the block, and the initial list below the activation height. -/
theorem getListForBlock_sameList (E : Env) (T : BlockTree) (m : CDeterministicMNManager)
    (computed : CBlockIndex → Option CDeterministicMNList) (hrun : ManagerRun E T KeepsEncodings m computed)
    (order : WalkOrder) (b : CBlockIndex) (hb : T.mem b) :
    (∀ new, computed b = some new →
        ∃ l, (getListForBlock E order b m).1 = .ok l ∧ SameList l new) ∧
      (b.nHeight < E.params.DIP0003Height → (getListForBlock E order b m).1 = .ok (initialList b)) := by
  obtain ⟨hm, hrec⟩ := hrun.consistent
  constructor
  · intro new hnew
    obtain ⟨hdb, l, hl, hsame⟩ := hrec b new hnew
    obtain ⟨l', m', hl', hget, -, -⟩ := hm.getListForBlock hb (.inr (.inr hdb)) order
    rw [hl, ok.injEq] at hl'
    subst hl'
    exact ⟨l, by rw [hget], hsame⟩
  · intro hbelow
    obtain ⟨l', m', hl', hget, -, -⟩ := hm.getListForBlock hb (.inl hbelow) order
    rw [blockList_of_initial (.inl hbelow), ok.injEq] at hl'
    rw [hget, hl']

/-! ### A concrete tree -/

/-- A second block on top of the first one with masternodes. -/
def sampleTip₃' : CBlockIndex :=
  .child 4 sampleTip₂

/-- One block registers the sample masternode; of the two blocks on top of it, one takes the operator
key away and brings it back in the other encoding, the other sets a new key. -/
def sampleTree : BlockTree where
  mem b := b ∈ [.genesis 0, sampleTip, sampleTip₂, sampleTip₃, sampleTip₃']
  pprev_mem := by
    intro h p hmem
    simp only [sampleTip, sampleTip₂, sampleTip₃, sampleTip₃', List.mem_cons, reduceCtorEq,
      CBlockIndex.child.injEq, List.not_mem_nil, or_false, false_or] at hmem ⊢
    rcases hmem with ⟨-, rfl⟩ | ⟨-, rfl⟩ | ⟨-, rfl⟩ | ⟨-, rfl⟩ <;> simp
  hash_inj := by
    intro a b ha hb heq
    have hall : ∀ a ∈ [.genesis 0, sampleTip, sampleTip₂, sampleTip₃, sampleTip₃'],
        ∀ b ∈ [.genesis 0, sampleTip, sampleTip₂, sampleTip₃, sampleTip₃'],
          a.getBlockHash = b.getBlockHash → a = b := by decide
    exact hall a ha b hb heq
  block b :=
    if b = sampleTip₂ then sampleBlock₂
    else if b = sampleTip₃ then revokeAndRestore
    else ⟨[sampleCoinbase 19, sampleProUpReg 20 (.valid false ⟨8⟩)]⟩
  view _ := (sampleContext sampleTip).view
  blsLegacyScheme _ := false

def inOrder : WalkOrder :=
  ⟨fun _ us => us, fun _ us => .refl us⟩

/-- The manager and the computed lists after one more block. -/
def connectSample (b : CBlockIndex) (s : CDeterministicMNManager × (CBlockIndex → Option CDeterministicMNList)) :
    CDeterministicMNManager × (CBlockIndex → Option CDeterministicMNList) :=
  let result := processBlock sampleEnv sampleTree inOrder inOrder false b s.1
  (result.2, record s.2 b result.1)

/-- A concrete block is ready, by evaluation. -/
theorem ready_of_checks (hprev : blockList E T p = .ok old) (hprocessed : Processed E computed p)
    (hchecked : ((T.block (.child h p)).vtx.forM (checkSpecialTx E (T.context h p) old true)).isOk = true)
    (hfresh : (T.block (.child h p)).vtx.all fun tx => old.mnMap[tx.hash]?.isNone)
    (hno : ∀ x ∈ occurring E.toCodec old (T.block (.child h p)), ∀ y ∈ occurring E.toCodec old (T.block (.child h p)),
        E.serializeHash x = E.serializeHash y → x = y)
    (hcond : Q old (T.block (.child h p))) : Ready E T Q computed (.child h p) := by
  intro h' p' heq _
  cases heq
  refine ⟨hprocessed, fun old' hold' => ?_⟩
  rw [hprev, ok.injEq] at hold'
  subst hold'
  have hok : (T.block (.child h p)).vtx.forM (checkSpecialTx E (T.context h p) old true) = .ok () :=
    @eq_ok_okOr _ _ _ () hchecked
  refine ⟨⟨⟨true, hok⟩, fun tx htx => ?_, noCollisions_of_occurring hno⟩, hcond⟩
  simpa using List.all_eq_true.mp hfresh tx htx

/-- The history in which the first block with masternodes has been processed. -/
def sampleHistory₂ : CDeterministicMNManager × (CBlockIndex → Option CDeterministicMNList) :=
  connectSample sampleTip₂ ({}, fun _ => none)

theorem run_sampleHistory₂ (hQ : Q { blockHash := 1 } sampleBlock₂) :
    ManagerRun sampleEnv sampleTree Q sampleHistory₂.1 sampleHistory₂.2 := by
  have hfirst : blockList sampleEnv sampleTree sampleTip = .ok { blockHash := 1 } :=
    blockList_of_initial (.inl (by decide))
  have hready : Ready sampleEnv sampleTree Q (fun _ => none) sampleTip₂ :=
    ready_of_checks hfirst (.inl (by decide)) (by decide +kernel) (by decide +kernel) (by decide +kernel) hQ
  exact .processBlock .start (by decide : sampleTip₂ ∈ _) hready inOrder inOrder false

theorem blockList_sampleTip₂ : blockList sampleEnv sampleTree sampleTip₂ =
    .ok (okOr (blockList sampleEnv sampleTree sampleTip₂) {}) :=
  eq_ok_okOr (by decide +kernel)

/-- The branch with the new key: the list is replayed from a snapshot and one difference. -/
theorem getListForBlock_sameList_newKey :
    ∃ new l, (connectSample sampleTip₃' sampleHistory₂).2 sampleTip₃' = some new ∧
      (getListForBlock sampleEnv inOrder sampleTip₃' (connectSample sampleTip₃' sampleHistory₂).1).1 =
        .ok l ∧ SameList l new := by
  have hkeeps : KeepsEncodings { blockHash := 1 } sampleBlock₂ := by decide +kernel
  have hready : Ready sampleEnv sampleTree KeepsEncodings sampleHistory₂.2 sampleTip₃' :=
    ready_of_checks blockList_sampleTip₂ (.inr (.inr (by decide +kernel))) (by decide +kernel)
      (by decide +kernel) (by decide +kernel) (by decide +kernel)
  have hrun := ManagerRun.processBlock (run_sampleHistory₂ hkeeps) (by decide : sampleTip₃' ∈ _)
    hready inOrder inOrder false
  have hsome : ((connectSample sampleTip₃' sampleHistory₂).2 sampleTip₃').isSome := by decide +kernel
  obtain ⟨new, hnew⟩ := isSome_iff_exists.mp hsome
  obtain ⟨l, hl, hsame⟩ := (getListForBlock_sameList sampleEnv sampleTree _ _ hrun inOrder sampleTip₃'
    (by decide : sampleTip₃' ∈ _)).1 new hnew
  exact ⟨new, l, hnew, hl, hsame⟩

/-- On the other branch the look-up returns the operator key in the legacy encoding, where the
computed list has it in the basic one. -/
theorem getListForBlock_sameList_fails :
    ∃ m computed new l, ManagerRun sampleEnv sampleTree (fun _ _ => True) m computed ∧
      computed sampleTip₃ = some new ∧ (getListForBlock sampleEnv inOrder sampleTip₃ m).1 = .ok l ∧
      ¬ SameList l new := by
  have hready : Ready sampleEnv sampleTree (fun _ _ => True) sampleHistory₂.2 sampleTip₃ :=
    ready_of_checks blockList_sampleTip₂ (.inr (.inr (by decide +kernel))) (by decide +kernel)
      (by decide +kernel) (by decide +kernel) trivial
  have hrun := ManagerRun.processBlock (run_sampleHistory₂ trivial) (by decide : sampleTip₃ ∈ _)
    hready inOrder inOrder false
  have hcomputed : ((connectSample sampleTip₃ sampleHistory₂).2 sampleTip₃).map
      (fun new => new.mnMap[(10 : Uint256)]?.map (·.pdmnState.pubKeyOperator)) =
        some (some (.valid false ⟨7⟩)) := by decide +kernel
  have hfound : (getListForBlock sampleEnv inOrder sampleTip₃ (connectSample sampleTip₃ sampleHistory₂).1).1.map
      (fun l => l.mnMap[(10 : Uint256)]?.map (·.pdmnState.pubKeyOperator)) =
        .ok (some (.valid true ⟨7⟩)) := by decide +kernel
  obtain ⟨new, hnew, hkey⟩ := map_eq_some_iff.mp hcomputed
  obtain ⟨l, hl, hkey'⟩ := exists_of_map_eq_ok hfound
  refine ⟨_, _, new, l, hrun, hnew, hl, fun hsame => ?_⟩
  rw [hsame.mnMap, hkey] at hkey'
  exact absurd hkey' (by decide)

end OmegaCore.Evo
