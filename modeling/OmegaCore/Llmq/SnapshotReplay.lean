import OmegaCore.Llmq.Selection

/-!
Snapshots of the rotation.  A cycle that stores a snapshot returns new quarters, and the
snapshot leads to quarters again.  They are the same exactly if every quorum got a full
quarter and the scan over the sorted masternodes did not take a whole lap in a row
before it skipped one: the skip list cannot say in which lap an entry is skipped, and the
loop by the snapshot does not stop where too few masternodes are left.
-/

namespace OmegaCore.Llmq

open Util Evo CDeterministicMNList List

variable {E : Env} {llmqParams : LLMQParams} {base : QuorumBase} {q : PreviousQuorumQuarters}
variable {members quarters : List (List CDeterministicMN)} {snapshot : CQuorumSnapshot}

def hashes (quarters : List (List CDeterministicMN)) : List (List Uint256) :=
  quarters.map (List.map (·.proTxHash))

def sortedAt (E : Env) (llmqParams : LLMQParams) (base : QuorumBase) (q : PreviousQuorumQuarters) :
    List CDeterministicMN :=
  sortedCombinedMns E base (mnsUsedAtH E llmqParams base q) (mnsNotUsedAtH E base (mnsUsedAtH E llmqParams base q))

def usedLists (E : Env) (llmqParams : LLMQParams) (base : QuorumBase) (q : PreviousQuorumQuarters) :
    List CDeterministicMNList :=
  (List.range llmqParams.signingActiveQuorumCount).map (mnsUsedAtHIndexed E base q)

/-- For every quorum there are a quarter of masternodes besides the ones it uses, and scanning the
sorted masternodes for the quorums in turn, no lap is taken in a row before one is skipped. -/
structure Unambiguous (E : Env) (llmqParams : LLMQParams) (base : QuorumBase) (q : PreviousQuorumQuarters) :
    Prop where
  enough : ∀ used ∈ usedLists E llmqParams base q,
    used.getAllMNsCount + quarterSize llmqParams ≤ (sortedAt E llmqParams base q).length
  unlapped : ∀ ds, Walks (accept E) (sortedAt E llmqParams base q) (quarterSize llmqParams) 0
    (usedLists E llmqParams base q) ds → ShortRuns (sortedAt E llmqParams base q).length true 0 ds

/-- A cycle whose snapshot leads to its quarters again: there is nothing to select, or the scan is
unambiguous. -/
def Replayable (E : Env) (llmqParams : LLMQParams) (base : QuorumBase) (q : PreviousQuorumQuarters) : Prop :=
  sortedAt E llmqParams base q = [] ∨ quarterSize llmqParams = 0 ∨ Unambiguous E llmqParams base q

/-- The quarters that a cycle with a snapshot returns, from the selection loop. -/
theorem buildNewQuorumQuarterMembers_snapshot
    (hbuilt : buildNewQuorumQuarterMembers E llmqParams base q = some (members, some snapshot)) :
    ∃ skipList, selectQuarters E llmqParams (sortedAt E llmqParams base q) (usedLists E llmqParams base q)
        0 [] 0 = .done (members, skipList) ∧
      snapshot = buildQuorumSnapshot E base (mnsUsedAtH E llmqParams base q) skipList := by
  unfold buildNewQuorumQuarterMembers at hbuilt
  dsimp only at hbuilt
  split_ifs at hbuilt
  · cases hbuilt
  · split at hbuilt
    · cases hbuilt
    · cases hbuilt
    · next hselect =>
      cases hbuilt
      exact ⟨_, hselect, rfl⟩

theorem buildNewQuorumQuarterMembers_isSome (E : Env) (llmqParams : LLMQParams) (base : QuorumBase)
    (q : PreviousQuorumQuarters) : (buildNewQuorumQuarterMembers E llmqParams base q).isSome = true := by
  have hdefined : selectQuarters E llmqParams (sortedAt E llmqParams base q) (usedLists E llmqParams base q)
      0 [] 0 ≠ .undefined :=
    selectQuarters_ne_undefined length_pos_iff.mpr
  unfold buildNewQuorumQuarterMembers
  dsimp only
  split_ifs
  · rfl
  · split
    · next hselect => exact absurd hselect hdefined
    · rfl
    · rfl

theorem getQuorumQuarterMembersBySnapshot_eq (E : Env) (llmqParams : LLMQParams) (base : QuorumBase)
    (used : CDeterministicMNList) (skipList : List Int) :
    let snapshot := buildQuorumSnapshot E base used skipList
    let usage := getMNUsageBySnapshot E base snapshot
    let sorted := sortedCombinedMns E base usage.1 usage.2
    getQuorumQuarterMembersBySnapshot E llmqParams base snapshot =
      if sorted = [] then .done (replicate llmqParams.signingActiveQuorumCount [])
      else snapshotQuarters llmqParams (if skipList = [] then copyRound sorted else snapshotRound sorted)
        llmqParams.signingActiveQuorumCount 0 (processedSkipList 0 skipList) := by
  intro snapshot usage sorted
  unfold getQuorumQuarterMembersBySnapshot
  dsimp only
  split_ifs with hempty hskip
  · rfl
  · have hmode : snapshot.mnSkipListMode = .noSkipping := if_pos hskip
    rw [hmode, hskip]
    rfl
  · have hmode : snapshot.mnSkipListMode = .skippingEntries := if_neg hskip
    rw [hmode]
    rfl

variable {sorted : List CDeterministicMN}

theorem copyRound_eq {t : SnapshotSelection} (h : t.itsk = []) : copyRound sorted t = snapshotRound sorted t := by
  unfold copyRound snapshotRound
  rw [h]
  rfl

variable {used : CDeterministicMNList}

/-- The selection by a snapshot replays a scan over the sorted masternodes of its cycle from the skipped
entries, and gives every quorum a quarter. -/
theorem UsedList.exists_replay (hused : UsedList E base used)
    (llmqParams : LLMQParams) (hall : Sound E base.allMns) {skipList : List Int} {S : List ℕ}
    (hS : processedSkipList 0 skipList = S.map Nat.cast)
    (hne : sortedCombinedMns E base used (mnsNotUsedAtH E base used) ≠ []) :
    let sorted := sortedCombinedMns E base used (mnsNotUsedAtH E base used)
    ∃ quarters ds S', getQuorumQuarterMembersBySnapshot E llmqParams base
        (buildQuorumSnapshot E base used skipList) = .done quarters ∧
      Replay sorted.length 0 S ds S' ∧ EndsTaking ds ∧
      quarters.map length =
        replicate llmqParams.signingActiveQuorumCount (quarterSize llmqParams) ∧
      quarters.flatten.map (·.proTxHash) = (marks sorted.length true 0 ds).map (hashAt sorted) := by
  intro sorted
  have hsame := hused.sortedCombinedMns_eq hall skipList
  have hselect := getQuorumQuarterMembersBySnapshot_eq E llmqParams base used skipList
  dsimp only at hsame hselect
  generalize hsorted' : sortedCombinedMns E base
    (getMNUsageBySnapshot E base (buildQuorumSnapshot E base used skipList)).1
    (getMNUsageBySnapshot E base (buildQuorumSnapshot E base used skipList)).2 = sorted' at hsame hselect
  have hlen : sorted'.length = sorted.length := by simpa using congrArg length hsame
  have hpos : 0 < sorted'.length := hlen ▸ length_pos_iff.mpr hne
  have hhash : hashAt sorted' = hashAt sorted := by
    funext j
    rw [hashAt, hsame, hashAt]
  have hround : ∀ t : SnapshotSelection, t.itsk <:+ S.map Nat.cast →
      (if skipList = [] then copyRound sorted' else snapshotRound sorted') t = snapshotRound sorted' t := by
    intro t ht
    split_ifs with hskip
    · rw [← hS, hskip] at ht
      exact copyRound_eq (suffix_nil.mp ht)
    · rfl
  rw [if_neg (ne_nil_of_length_pos hpos), hS] at hselect
  obtain ⟨quarters, ds, S', hok, hreplay, hends, hlens, hmembers⟩ :=
    snapshotQuarters_replay hpos hround (Nat.zero_mod _).symm
  rw [hlen] at hreplay hmembers
  rw [hhash] at hmembers
  exact ⟨quarters, ds, S', hselect.trans hok, hreplay, hends, hlens, hmembers⟩

theorem map_hashAt_inj (hnodup : (sorted.map (·.proTxHash)).Nodup)
    {a b : List ℕ} (ha : ∀ x ∈ a, x < sorted.length) (hb : ∀ x ∈ b, x < sorted.length) :
    a.map (hashAt sorted) = b.map (hashAt sorted) ↔ a = b := by
  refine ⟨fun heq => ?_, fun heq => by rw [heq]⟩
  have hinv : ∀ c : List ℕ, (∀ x ∈ c, x < sorted.length) →
      (c.map (hashAt sorted)).map (sorted.map (·.proTxHash)).idxOf = c := by
    intro c hc
    rw [map_map]
    refine (map_congr_left fun x hx => ?_).trans (map_id c)
    have hlt : x < (sorted.map (·.proTxHash)).length := by simpa using hc x hx
    rw [Function.comp_apply, hashAt, getD_eq_getElem?_getD, getElem?_eq_getElem hlt]
    exact hnodup.idxOf_getElem x hlt
  rw [← hinv a ha, heq, hinv b hb]

theorem hashes_eq_iff (hlens : quarters.map List.length = members.map List.length) :
    hashes quarters = hashes members ↔ quarters.flatten.map (·.proTxHash) = members.flatten.map (·.proTxHash) := by
  have hlens' : (hashes quarters).map length = (hashes members).map length := by
    simpa [hashes, Function.comp_def] using hlens
  rw [eq_iff_flatten_eq, and_iff_left hlens', hashes, hashes, map_flatten, map_flatten]

/-- Quarters that a walk and the replay of its skipped entries lead to. -/
theorem walks_hashes_eq_iff {quota : ℕ} {states : List CDeterministicMNList}
    {ds ds' : List Bool} {S' : List ℕ} (hwalk : Walks (accept E) sorted quota 0 states ds)
    (hnodup : (sorted.map (·.proTxHash)).Nodup) (hn : 0 < sorted.length)
    (hreplay : Replay sorted.length 0 (marks sorted.length false 0 ds) ds' S') (hends' : EndsTaking ds')
    (hlens' : quarters.map List.length = List.replicate states.length quota)
    (hlens : members.map List.length = List.replicate states.length quota)
    (hflat' : quarters.flatten.map (·.proTxHash) = (marks sorted.length true 0 ds').map (hashAt sorted))
    (hflat : members.flatten.map (·.proTxHash) = (marks sorted.length true 0 ds).map (hashAt sorted)) :
    hashes quarters = hashes members ↔ ShortRuns sorted.length true 0 ds := by
  have htakes : ds'.count true = ds.count true := by
    have hlength := congrArg length hflat'
    rw [length_map, length_map, length_flatten, hlens', length_marks] at hlength
    rw [hwalk.count, ← hlength]
    simp
  have hlt : ∀ ds, ∀ x ∈ marks sorted.length true 0 ds, x < sorted.length := fun ds x hx => marks_lt hn hx
  rw [Llmq.hashes_eq_iff (hlens'.trans hlens.symm), hflat', hflat, map_hashAt_inj hnodup (hlt ds') (hlt ds),
    hreplay.marks_eq_iff hn hwalk.shortRuns hwalk.endsTaking hends' htakes]

/-- Without sorted masternodes no quorum gets members, by the snapshot either. -/
theorem UsedList.bySnapshot_of_sorted_nil (hused : UsedList E base used)
    (hall : Sound E base.allMns) (skipList : List Int)
    (hnil : sortedCombinedMns E base used (mnsNotUsedAtH E base used) = []) :
    getQuorumQuarterMembersBySnapshot E llmqParams base (buildQuorumSnapshot E base used skipList) =
      .done (List.replicate llmqParams.signingActiveQuorumCount []) := by
  have hsame := hused.sortedCombinedMns_eq hall skipList
  rw [hnil, map_nil, map_eq_nil_iff] at hsame
  rw [getQuorumQuarterMembersBySnapshot_eq, if_pos hsame]

theorem hashes_eq_of_lengths_zero {m : ℕ} (hquarters : quarters.map List.length = List.replicate m 0)
    (hmembers : members.map List.length = List.replicate m 0) : hashes quarters = hashes members := by
  have hflat : ∀ l : List (List CDeterministicMN), l.map length = replicate m 0 → l.flatten = [] := by
    intro l hl
    apply eq_nil_of_length_eq_zero
    rw [length_flatten, hl]
    simp
  rw [hashes_eq_iff (hquarters.trans hmembers.symm), hflat _ hquarters, hflat _ hmembers]

/-- A snapshot leads to the quarters of its cycle if and only if there was nothing to select or the scan
is unambiguous. -/
theorem UsedList.bySnapshot_iff (hused : UsedList E base (mnsUsedAtH E llmqParams base q)) (hall : Sound E base.allMns)
    (hbuilt : buildNewQuorumQuarterMembers E llmqParams base q = some (members, some snapshot)) :
    (∃ quarters, getQuorumQuarterMembersBySnapshot E llmqParams base snapshot = .done quarters ∧
        hashes quarters = hashes members) ↔ Replayable E llmqParams base q := by
  obtain ⟨skipList, hselect, rfl⟩ := buildNewQuorumQuarterMembers_snapshot hbuilt
  obtain ⟨hlens, ⟨S, hS⟩, hwalks⟩ := selectQuarters_walks hselect (Nat.zero_mod _).symm records_nil
  have hcount : (usedLists E llmqParams base q).length = llmqParams.signingActiveQuorumCount := by
    simp [usedLists]
  have hmin {k : ℕ} (hk : ∀ used ∈ usedLists E llmqParams base q, min (quarterSize llmqParams)
      ((sortedAt E llmqParams base q).length - used.getAllMNsCount) = k) :
      members.map length = replicate llmqParams.signingActiveQuorumCount k := by
    rw [hlens, map_congr_left hk, map_const', hcount]
  by_cases hempty : sortedAt E llmqParams base q = []
  · -- nothing to select
    refine iff_of_true ⟨_, hused.bySnapshot_of_sorted_nil hall skipList hempty, ?_⟩ (.inl hempty)
    apply hashes_eq_of_lengths_zero (m := llmqParams.signingActiveQuorumCount) (by simp)
    exact hmin fun used _ => by simp [hempty]
  · obtain ⟨quarters, ds', S', hok, hreplay, hends', hlens', hflat'⟩ :=
      hused.exists_replay llmqParams hall hS hempty
    simp only [hok, Outcome.done.injEq, exists_eq_left']
    by_cases hq : quarterSize llmqParams = 0
    · -- quarters without members
      refine iff_of_true ?_ (.inr (.inl hq))
      rw [hq] at hlens'
      exact hashes_eq_of_lengths_zero hlens' (hmin fun used _ => by simp [hq])
    · by_cases hfull : ∀ used ∈ usedLists E llmqParams base q,
          used.getAllMNsCount + quarterSize llmqParams ≤ (sortedAt E llmqParams base q).length
      · -- full quarters on both sides: compare the two scans
        obtain ⟨ds, hwalk, hflat, hskips⟩ := hwalks hfull
        have hlensFull : members.map length =
            replicate llmqParams.signingActiveQuorumCount (quarterSize llmqParams) := by
          refine hmin fun used hmem => ?_
          have hle := hfull used hmem
          omega
        rw [hS, nil_append] at hskips
        rw [map_injective_iff.mpr Int.ofNat_injective hskips] at hreplay
        rw [← hcount] at hlens' hlensFull
        rw [walks_hashes_eq_iff hwalk (nodup_sortedCombinedMns hall hused.indexed.keyed)
          (length_pos_iff.mpr hempty) hreplay hends' hlens' hlensFull hflat' hflat]
        constructor
        · intro hruns
          refine .inr (.inr ⟨hfull, fun ds₂ hwalk₂ => ?_⟩)
          rw [← hwalk.unique hwalk₂]
          exact hruns
        · rintro (hnil | hzero | hunambiguous)
          · exact absurd hnil hempty
          · exact absurd hzero hq
          · exact hunambiguous.unlapped ds hwalk
      · -- some quorum got less than a quarter, and gets a full one by the snapshot
        refine iff_of_false (fun heq => hfull fun used hmem => ?_) ?_
        · have hlensEq : quarters.map length = members.map length := by
            have hlen := congrArg (map length) heq
            simpa [hashes, Function.comp_def] using hlen
          rw [hlens', hlens] at hlensEq
          have hmin := eq_of_mem_replicate (hlensEq ▸ mem_map_of_mem hmem)
          omega
        · rintro (hnil | hzero | hunambiguous)
          · exact hempty hnil
          · exact hq hzero
          · exact hfull hunambiguous.enough

/-- For every masternode list of a work block, every previous quarters and every quorum parameters with
removals skipped: if the cycle stores a snapshot, then the snapshot leads to the quarters that the cycle
returned if and only if there was nothing to select or the scan is unambiguous. -/
theorem getQuorumQuarterMembersBySnapshot_eq_iff (E : Env) (llmqParams : LLMQParams) (base : QuorumBase)
    (q : PreviousQuorumQuarters) (members : List (List CDeterministicMN)) (snapshot : CQuorumSnapshot)
    (hall : Sound E base.allMns) (hskip : base.skipRemovedMNs = true)
    (hagree : ∀ mn ∈ q.all llmqParams.signingActiveQuorumCount, Agrees base.allMns mn)
    (hbuilt : buildNewQuorumQuarterMembers E llmqParams base q = some (members, some snapshot)) :
    (∃ quarters, getQuorumQuarterMembersBySnapshot E llmqParams base snapshot = .done quarters ∧
        hashes quarters = hashes members) ↔ Replayable E llmqParams base q := by
  have hfrom : FromMembers E base (q.all llmqParams.signingActiveQuorumCount) (mnsUsedAtH E llmqParams base q) :=
    fromMembers_mnsUsedAtH q
  exact (hfrom.usedList (.inl hskip) hagree).bySnapshot_iff hall hbuilt

/-! ### Three masternodes, and one -/

/-- The rotated quorum type of a regression test network: two quorums of four members. -/
def llmqTestDip0024 : LLMQParams where
  type := 103
  useRotation := true
  size := 4
  dkgInterval := 24
  dkgMiningWindowStart := 12
  dkgMiningWindowEnd := 20
  signingActiveQuorumCount := 2
  keepOldConnections := 4

/-- The chain after the registration of one masternode and three blocks more. -/
def soloBlock : CBlock :=
  ⟨[sampleCoinbase 9, sampleServedReg 11 .regular 11 4]⟩

def soloStart : CDeterministicMNList :=
  (listAfter sampleEnv (sampleContext sampleTip) soloBlock { blockHash := 1 }).setBlockHash 2

def soloChain : CBlockIndex × CDeterministicMNList :=
  emptyBlocks sampleEnv 3 (sampleTip₂, soloStart)

theorem reachable_soloChain : Reachable sampleEnv (fun _ _ _ => True) soloChain.1 soloChain.2 := by
  have hstart : Reachable sampleEnv (fun _ _ _ => True) sampleTip₂ soloStart :=
    reachable_sampleTip.next 2 soloBlock (by decide) (by decide +kernel) (by decide +kernel)
  exact reachable_emptyBlocks (n := 3) (s := (sampleTip₂, soloStart)) (by decide +kernel) hstart

def soloBase : QuorumBase where
  allMns := soloChain.2
  modifier := 5
  skipRemovedMNs := true

/-- The quarters in which both quorums have the masternode. -/
def soloQuarters : PreviousQuorumQuarters :=
  { PreviousQuorumQuarters.empty 2 with
    quarterHMinusC := List.replicate 2 (soloChain.2.forEachMN true) }

/-- The masternodes of a list agree with it. -/
theorem agrees_of_mem_forEachMN {l : CDeterministicMNList} {mns : List CDeterministicMN} (hl : l.Keyed)
    (hmns : ∀ mn ∈ mns, mn ∈ l.forEachMN true)
    (hfields : ∀ mn ∈ l.forEachMN true, mn.pdmnState.isBanned = false ∧ mn.pdmnState.confirmedHash ≠ 0) :
    ∀ mn ∈ mns, Agrees l mn := by
  intro mn hmem
  obtain ⟨hvalid, hconf⟩ := hfields mn (hmns mn hmem)
  refine ⟨hvalid, hconf, fun d hget => ?_⟩
  rw [hl.get_of_mem (hmns mn hmem), Option.some.injEq] at hget
  subst hget
  exact ⟨rfl, rfl, rfl⟩

def hashesBySnapshot (E : Env) (llmqParams : LLMQParams) (base : QuorumBase) (snapshot : CQuorumSnapshot) :
    Option (List (List Uint256)) :=
  (getQuorumQuarterMembersBySnapshot E llmqParams base snapshot).toOption.map hashes

theorem exists_of_hashesBySnapshot {hs : List (List Uint256)}
    (h : hashesBySnapshot E llmqParams base snapshot = some hs) :
    ∃ quarters, getQuorumQuarterMembersBySnapshot E llmqParams base snapshot = .done quarters ∧
      hashes quarters = hs := by
  obtain ⟨quarters, hdone, hhashes⟩ := Option.map_eq_some_iff.mp h
  exact ⟨quarters, Outcome.toOption_eq_some_iff.mp hdone, hhashes⟩

theorem exists_of_map_hashes {x : Option (List (List CDeterministicMN) × Option CQuorumSnapshot)}
    {hs : List (List Uint256)} {stored : Option CQuorumSnapshot}
    (h : x.map (fun x => (hashes x.1, x.2)) = some (hs, stored)) :
    ∃ members, x = some (members, stored) ∧ hashes members = hs := by
  obtain ⟨⟨members, stored'⟩, rfl, hresult⟩ := Option.map_eq_some_iff.mp h
  obtain ⟨hmembers, rfl⟩ := Prod.mk.inj hresult
  exact ⟨members, rfl, hmembers⟩

/-- The chain after the registration of three masternodes and three blocks more. -/
def trioBlock : CBlock :=
  ⟨[sampleCoinbase 9, sampleServedReg 11 .regular 11 4, sampleServedReg 12 .regular 12 5,
    sampleServedReg 13 .regular 13 6]⟩

def trioStart : CDeterministicMNList :=
  (listAfter sampleEnv (sampleContext sampleTip) trioBlock { blockHash := 1 }).setBlockHash 2

def trioChain : CBlockIndex × CDeterministicMNList :=
  emptyBlocks sampleEnv 3 (sampleTip₂, trioStart)

theorem reachable_trioChain : Reachable sampleEnv (fun _ _ _ => True) trioChain.1 trioChain.2 := by
  have hstart : Reachable sampleEnv (fun _ _ _ => True) sampleTip₂ trioStart :=
    reachable_sampleTip.next 2 trioBlock (by decide) (by decide +kernel) (by decide +kernel)
  exact reachable_emptyBlocks (n := 3) (s := (sampleTip₂, trioStart)) (by decide +kernel) hstart

def trioBase : QuorumBase :=
  { soloBase with allMns := trioChain.2 }

/-- The quarters in which the first quorum has the masternode 11 and the second one 12. -/
def trioQuarters : PreviousQuorumQuarters :=
  { PreviousQuorumQuarters.empty 2 with
    quarterHMinusC := [11, 12].map fun proTxHash => (trioChain.2.forEachMN true).filter (·.proTxHash = proTxHash) }

/-- The first quorum gets the masternode 13.  The second one passes over 12, which it has, and gets 11; the entry that is
passed over is in the skip list, and the snapshot leads to the same quarters. -/
theorem getQuorumQuarterMembersBySnapshot_eq_iff_solo :
    (buildNewQuorumQuarterMembers sampleEnv llmqTestDip0024 trioBase trioQuarters).map (fun x => (hashes x.1, x.2)) =
      some ([[13], [11]], some ⟨[false, true, true], .skippingEntries, [1]⟩) ∧
    Replayable sampleEnv llmqTestDip0024 trioBase trioQuarters := by
  have hbuilt : (buildNewQuorumQuarterMembers sampleEnv llmqTestDip0024 trioBase trioQuarters).map
      (fun x => (hashes x.1, x.2)) =
        some ([[13], [11]], some ⟨[false, true, true], .skippingEntries, [1]⟩) := by decide +kernel
  have hreplay : hashesBySnapshot sampleEnv llmqTestDip0024 trioBase
      ⟨[false, true, true], .skippingEntries, [1]⟩ = some [[13], [11]] := by decide +kernel
  have hagree : ∀ mn ∈ trioQuarters.all llmqTestDip0024.signingActiveQuorumCount, Agrees trioBase.allMns mn :=
    agrees_of_mem_forEachMN reachable_trioChain.sound.indexed.keyed (by decide +kernel) (by decide +kernel)
  obtain ⟨members, hmembers, hhashes⟩ := exists_of_map_hashes hbuilt
  refine ⟨hbuilt, (getQuorumQuarterMembersBySnapshot_eq_iff sampleEnv llmqTestDip0024 trioBase trioQuarters members _
    reachable_trioChain.sound rfl hagree hmembers).mp ?_⟩
  rw [hhashes]
  exact exists_of_hashesBySnapshot hreplay

/-- With one masternode, which both quorums have, no quorum gets a new member, and both get the masternode by the
snapshot. -/
theorem getQuorumQuarterMembersBySnapshot_eq_fails :
    ∃ members snapshot quarters, Sound sampleEnv soloBase.allMns ∧ soloBase.skipRemovedMNs = true ∧
      (∀ mn ∈ soloQuarters.all llmqTestDip0024.signingActiveQuorumCount, Agrees soloBase.allMns mn) ∧
      buildNewQuorumQuarterMembers sampleEnv llmqTestDip0024 soloBase soloQuarters =
        some (members, some snapshot) ∧
      getQuorumQuarterMembersBySnapshot sampleEnv llmqTestDip0024 soloBase snapshot = .done quarters ∧
      hashes quarters = [[11], [11]] ∧ hashes members = [[], []] := by
  have hbuilt : (buildNewQuorumQuarterMembers sampleEnv llmqTestDip0024 soloBase soloQuarters).map
      (fun x => (hashes x.1, x.2)) = some ([[], []], some ⟨[true], .noSkipping, []⟩) := by
    decide +kernel
  obtain ⟨members, hbuilt, hmembers⟩ := exists_of_map_hashes hbuilt
  have hsnapshot : hashesBySnapshot sampleEnv llmqTestDip0024 soloBase ⟨[true], .noSkipping, []⟩ =
      some [[11], [11]] := by decide +kernel
  obtain ⟨quarters, hdone, hquarters⟩ := exists_of_hashesBySnapshot hsnapshot
  have hagree : ∀ mn ∈ soloQuarters.all llmqTestDip0024.signingActiveQuorumCount, Agrees soloBase.allMns mn :=
    agrees_of_mem_forEachMN reachable_soloChain.sound.indexed.keyed (by decide +kernel) (by decide +kernel)
  exact ⟨members, _, quarters, reachable_soloChain.sound, rfl, hagree, hbuilt, hdone, hquarters, hmembers⟩

end OmegaCore.Llmq
