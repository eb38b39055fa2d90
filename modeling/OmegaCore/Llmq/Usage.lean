import OmegaCore.Evo.Chain
import OmegaCore.Llmq.Rotation

/-!
The sorted masternodes of a cycle.  The selection of a new quarter and the selection by
its snapshot sort the same masternodes, the former with the entries of earlier cycles
for those that are in use.  Both orders are the same as long as these entries agree
with the current ones in what the scores depend on.
-/

namespace OmegaCore.Evo.CDeterministicMNList

open Util List

variable {E : Env} {C : Codec} {l m : CDeterministicMNList} {d e dmn : CDeterministicMN} {p : Uint256}
variable {modifier : Uint256}

/-! ### Sorting by keys -/

/-- What decides the place of a masternode among the sorted ones, with its hash. -/
def scoreKey (E : Env) (modifier : Uint256) (dmn : CDeterministicMN) : Option (Uint256 × COutPoint × Uint256) :=
  if isMNValidEntry dmn && dmn.pdmnState.confirmedHash != 0 then
    some (E.sha256 dmn.pdmnState.confirmedHashWithProRegTxHash modifier, dmn.collateralOutpoint, dmn.proTxHash)
  else none

/-- The order of the keys that `scoreLt` gives. -/
def keyLt (a b : Uint256 × COutPoint × Uint256) : Bool :=
  if a.1 = b.1 then a.2.1.lt b.2.1 else decide (a.1 < b.1)

theorem calculateScores_map_key (l : CDeterministicMNList) : (l.calculateScores E modifier false).map
        (fun x => (x.1, x.2.collateralOutpoint, x.2.proTxHash)) =
      l.mnMap.values.filterMap (scoreKey E modifier) := by
  unfold calculateScores forEachMN
  rw [filter_filter, map_map, ← filterMap_eq_filter, map_filterMap]
  refine filterMap_congr fun d _ => ?_
  unfold scoreKey
  by_cases hkey : (isMNValidEntry d && d.pdmnState.confirmedHash != 0) = true
  · rw [if_pos hkey, Option.guard, if_pos (by simpa [and_comm] using hkey)]
    rfl
  · rw [if_neg hkey, Option.guard, if_neg (by simpa [and_comm] using hkey)]
    rfl

theorem length_calculateScores_le (l : CDeterministicMNList) (b : Bool) :
    (l.calculateScores E modifier b).length ≤ l.getAllMNsCount := by
  have hsize : (Map.values l.mnMap).length = l.getAllMNsCount := by
    rw [Map.values, length_map]
    exact Std.ExtTreeMap.length_toList
  unfold calculateScores forEachMN
  rw [length_map, ← hsize]
  exact (length_filter_le _ _).trans (length_filter_le _ _)

/-- The hashes of all masternodes in the order of their scores. -/
theorem calculateQuorum_map_proTxHash (l : CDeterministicMNList) :
    (l.calculateQuorum E l.getAllMNsCount modifier).map (·.proTxHash) =
      ((l.mnMap.values.filterMap (scoreKey E modifier)).insertionSort fun a b => !keyLt a b).map (·.2.2) := by
  have hlen : ((l.calculateScores E modifier false).insertionSort fun a b => !scoreLt a b).length ≤
      l.getAllMNsCount := by
    rw [length_insertionSort]
    exact length_calculateScores_le l false
  unfold calculateQuorum
  rw [take_of_length_le (by simpa using hlen), ← calculateScores_map_key,
    ← map_insertionSort (fun a b => (!scoreLt a b) = true) (fun a b => (!keyLt a b) = true) _ _
      fun a _ b _ => Iff.rfl]
  simp [Function.comp_def]

theorem mem_calculateQuorum (hl : l.Keyed) :
    d ∈ l.calculateQuorum E l.getAllMNsCount modifier ↔
      l.mnMap[d.proTxHash]? = some d ∧ isMNValidEntry d = true ∧ d.pdmnState.confirmedHash ≠ 0 := by
  unfold calculateQuorum
  rw [take_of_length_le (by simpa using length_calculateScores_le l false)]
  simp only [mem_map, mem_insertionSort, calculateScores, mem_filter, Bool.and_eq_true,
    bne_iff_ne, Bool.false_and, Bool.not_false, and_true]
  constructor
  · rintro ⟨x, ⟨d', ⟨hmem, hconf⟩, rfl⟩, rfl⟩
    exact ⟨hl.get_of_mem hmem, (mem_forEachMN.mp hmem).2 rfl, hconf⟩
  · rintro ⟨hget, hvalid, hconf⟩
    exact ⟨_, ⟨d, ⟨mem_forEachMN.mpr ⟨⟨_, hget⟩, fun _ => hvalid⟩, hconf⟩, rfl⟩, rfl⟩

/-- Lists that agree on the keys of their masternodes have them in the same order. -/
theorem calculateQuorum_map_congr (h : ∀ p : Uint256,
    l.mnMap[p]?.bind (scoreKey E modifier) = m.mnMap[p]?.bind (scoreKey E modifier)) :
    (l.calculateQuorum E l.getAllMNsCount modifier).map (·.proTxHash) =
      (m.calculateQuorum E m.getAllMNsCount modifier).map (·.proTxHash) := by
  rw [calculateQuorum_map_proTxHash, calculateQuorum_map_proTxHash, Map.filterMap_values_congr h]

theorem nodup_calculateQuorum (hl : l.Keyed) (n : ℕ) : ((l.calculateQuorum E n modifier).map (·.proTxHash)).Nodup := by
  have hsub : ((l.calculateScores E modifier false).map (·.2)).Sublist (l.forEachMN true) := by
    unfold calculateScores
    rw [map_map]
    simp [Function.comp_def]
  have hscores : ((l.calculateScores E modifier false).map (·.2.proTxHash)).Nodup := by
    have hsub' := hsub.map (·.proTxHash)
    rw [map_map] at hsub'
    exact hsub'.nodup (hl.nodup_forEachMN true)
  have hsorted := (((perm_insertionSort (fun a b => (!scoreLt a b) = true) _).map
    (·.2.proTxHash)).nodup_iff).mpr hscores
  unfold calculateQuorum
  rw [map_take, map_map]
  exact hsorted.sublist (take_sublist _ _)

/-! ### Additions that may fail -/

theorem tryAddMN_cases (l : CDeterministicMNList) (d : CDeterministicMN) :
    l.tryAddMN C d = l ∨ l.addMN C d = .ok (l.tryAddMN C d) := by
  unfold tryAddMN
  cases hadd : l.addMN C d with
  | ok l' => exact .inr rfl
  | error t => exact .inl (addMN_left hadd)

theorem tryAddMN_indexed (hl : Indexed C l) (d : CDeterministicMN) : Indexed C (l.tryAddMN C d) := by
  rcases tryAddMN_cases (C := C) l d with heq | hadd
  · rwa [heq]
  · exact addMN_indexed hl hadd

theorem get_tryAddMN (hl : Indexed C l) (hget : (l.tryAddMN C d).mnMap[p]? = some e) :
    l.mnMap[p]? = some e ∨ (e = d ∧ p = d.proTxHash) := by
  rcases tryAddMN_cases (C := C) l d with heq | hadd
  · exact .inl (heq ▸ hget)
  · exact (addMN_get hl hadd p e).mp hget

theorem get_tryAddMN_of_get (hl : Indexed C l) (hget : l.mnMap[p]? = some e) : (l.tryAddMN C d).mnMap[p]? = some e := by
  rcases tryAddMN_cases (C := C) l d with heq | hadd
  · rwa [heq]
  · exact (addMN_get hl hadd p e).mpr (.inl hget)

/-- Every masternode of `l` is in `m`, with the same entry. -/
def PartOf (l m : CDeterministicMNList) : Prop :=
  ∀ (p : Uint256) d, l.mnMap[p]? = some d → m.mnMap[p]? = some d

theorem PartOf.get_tryAddMN_self (hpart : l.PartOf m) (hl : Indexed C l) (hm : Indexed C m)
    (howned : m.Owned) (hd : m.mnMap[d.proTxHash]? = some d) : (l.tryAddMN C d).mnMap[d.proTxHash]? = some d := by
  cases hget : l.mnMap[d.proTxHash]? with
  | some e =>
    have he := hpart _ _ hget
    rw [hd, Option.some.injEq] at he
    exact get_tryAddMN_of_get hl (he ▸ hget)
  | none =>
    have hid : l.mnInternalIdMap[d.internalId.val]? = none := by
      rw [Option.eq_none_iff_forall_ne_some]
      intro q hq
      obtain ⟨e, he, heq⟩ := (hl.internalId _ _).mp hq
      have hq' := hm.internalId_unique (hpart q e he) hd (Fin.ext heq)
      rw [hq', hget] at he
      cases he
    have hfree : SlotsFree C l d := fun h hh q e hq he =>
      hm.slots_disjoint hd (hpart q e he) hq.symm hh
    obtain ⟨l', hadd⟩ := exists_addMN (b := true) hl hget hid (hm.collateral _ _ hd) (howned _ _ hd) hfree
    have htry : l.tryAddMN C d = l' := by
      unfold tryAddMN
      rw [hadd]
    rw [htry]
    exact (addMN_get hl hadd _ _).mpr (.inr ⟨rfl, rfl⟩)

theorem PartOf.tryAddMN (hpart : l.PartOf m) (hl : Indexed C l) (hd : m.mnMap[d.proTxHash]? = some d) :
    (l.tryAddMN C d).PartOf m := by
  intro p e hget
  rcases get_tryAddMN hl hget with hold | ⟨rfl, rfl⟩
  · exact hpart p e hold
  · exact hd

/-- Adding some of the masternodes of a well-formed list one by one. -/
theorem get_foldl_tryAddMN (keep : CDeterministicMN → Bool) (hm : Indexed C m) (howned : m.Owned)
    {ds : List CDeterministicMN} (hds : ∀ d ∈ ds, m.mnMap[d.proTxHash]? = some d) (hl : Indexed C l)
    (hpart : l.PartOf m) :
    (ds.foldl (fun l d => if keep d then l.tryAddMN C d else l) l).mnMap[p]? = some e ↔
      l.mnMap[p]? = some e ∨ (e ∈ ds ∧ keep e = true ∧ p = e.proTxHash) := by
  induction ds generalizing l with
  | nil => simp
  | cons d ds ih =>
    obtain ⟨hd, htail⟩ := forall_mem_cons.mp hds
    rw [foldl_cons]
    by_cases hkeep : keep d = true
    · rw [if_pos hkeep, ih htail (tryAddMN_indexed hl d) (hpart.tryAddMN hl hd)]
      constructor
      · rintro (hget | ⟨hmem, hk, hp⟩)
        · rcases get_tryAddMN hl hget with hold | ⟨rfl, hp⟩
          · exact .inl hold
          · exact .inr ⟨mem_cons_self, hkeep, hp⟩
        · exact .inr ⟨mem_cons_of_mem _ hmem, hk, hp⟩
      · rintro (hget | ⟨hmem, hk, rfl⟩)
        · exact .inl (get_tryAddMN_of_get hl hget)
        · rcases mem_cons.mp hmem with rfl | hmem
          · exact .inl (hpart.get_tryAddMN_self hl hm howned hd)
          · exact .inr ⟨hmem, hk, rfl⟩
    · rw [if_neg hkeep, ih htail hl hpart]
      refine or_congr_right ⟨fun ⟨hmem, hk⟩ => ⟨mem_cons_of_mem _ hmem, hk⟩, ?_⟩
      rintro ⟨hmem, hk, hp⟩
      rcases mem_cons.mp hmem with rfl | hmem
      · exact absurd hk hkeep
      · exact ⟨hmem, hk, hp⟩

/-- The masternodes of a part of a well-formed list that are kept. -/
theorem get_foldl_kept (keep : CDeterministicMN → Bool) (hm : Indexed C m) (howned : m.Owned)
    {ds : List CDeterministicMN} {P : CDeterministicMN → Prop}
    (hds : ∀ d, d ∈ ds ↔ m.mnMap[d.proTxHash]? = some d ∧ P d) :
    (ds.foldl (fun l d => if keep d then tryAddMN C l d else l) {}).mnMap[p]? = some e ↔
      m.mnMap[p]? = some e ∧ P e ∧ keep e = true := by
  rw [get_foldl_tryAddMN keep hm howned (fun d hd => ((hds d).mp hd).1) (indexed_of_mnMap_empty rfl rfl rfl)
    (fun p d hget => by simp at hget), hds]
  simp only [Map.get_empty, reduceCtorEq, false_or]
  constructor
  · rintro ⟨⟨hget, hP⟩, hkeep, rfl⟩
    exact ⟨hget, hP, hkeep⟩
  · rintro ⟨hget, hP, hkeep⟩
    obtain rfl := hm.keyed p e hget
    exact ⟨⟨hget, hP⟩, hkeep, rfl⟩

end OmegaCore.Evo.CDeterministicMNList

namespace OmegaCore.Llmq

open Util Evo CDeterministicMNList List

variable {E : Env} {llmqParams : LLMQParams} {base : QuorumBase} {q : PreviousQuorumQuarters}
variable {l used : CDeterministicMNList} {mn d e : CDeterministicMN} {p : Uint256} {i : ℕ}

/-! ### Masternodes of previous quarters -/

/-- A member of a previous quarter that counts as used. -/
structure StillValid (base : QuorumBase) (mn : CDeterministicMN) : Prop where
  stored : base.skipRemovedMNs = true → base.allMns.hasMN mn.proTxHash = true
  valid : base.allMns.isMNPoSeBanned mn.proTxHash = false

theorem addUsed_of_stillValid (h : StillValid base mn) (l : CDeterministicMNList) :
    addUsed E base l mn = l.tryAddMN E.toCodec mn := by
  have hstored : (base.skipRemovedMNs && !base.allMns.hasMN mn.proTxHash) = false := by
    cases hskip : base.skipRemovedMNs with
    | false => rfl
    | true => rw [h.stored hskip]; rfl
  rw [addUsed, hstored, h.valid]
  simp

theorem addUsed_of_not_stillValid (h : ¬ StillValid base mn) (l : CDeterministicMNList) : addUsed E base l mn = l := by
  unfold addUsed
  split_ifs with hremoved hbanned
  · rfl
  · rfl
  · refine absurd ⟨fun hskip => ?_, by simpa using hbanned⟩ h
    simpa [hskip] using hremoved

theorem addUsed_indexed (hl : Indexed E.toCodec l) (mn : CDeterministicMN) :
    Indexed E.toCodec (addUsed E base l mn) := by
  by_cases h : StillValid base mn
  · rw [addUsed_of_stillValid h]
    exact tryAddMN_indexed hl mn
  · rwa [addUsed_of_not_stillValid h]

/-- The masternodes of a list of used ones are previous members that count as used. -/
structure FromMembers (E : Env) (base : QuorumBase) (mns : List CDeterministicMN) (l : CDeterministicMNList) :
    Prop where
  indexed : Indexed E.toCodec l
  entry : ∀ (p : Uint256) mn, l.mnMap[p]? = some mn → mn ∈ mns ∧ StillValid base mn

theorem FromMembers.foldl_addUsed {mns mns' : List CDeterministicMN} (h : FromMembers E base mns l)
    (hsub : ∀ mn ∈ mns', mn ∈ mns) : FromMembers E base mns (mns'.foldl (addUsed E base) l) := by
  induction mns' generalizing l with
  | nil => exact h
  | cons mn mns' ih =>
    rw [forall_mem_cons] at hsub
    refine ih ⟨addUsed_indexed h.indexed mn, fun p e hget => ?_⟩ hsub.2
    by_cases hvalid : StillValid base mn
    · rw [addUsed_of_stillValid hvalid] at hget
      rcases get_tryAddMN h.indexed hget with hold | ⟨rfl, -⟩
      · exact h.entry p e hold
      · exact ⟨hsub.1, hvalid⟩
    · rw [addUsed_of_not_stillValid hvalid] at hget
      exact h.entry p e hget

theorem indexed_empty (C : Codec) : Indexed C {} :=
  indexed_of_mnMap_empty rfl rfl rfl

theorem fromMembers_empty (E : Env) (base : QuorumBase) (mns : List CDeterministicMN) : FromMembers E base mns {} :=
  ⟨indexed_empty _, fun p mn hget => by simp at hget⟩

theorem fromMembers_mnsUsedAtHIndexed (q : PreviousQuorumQuarters) (i : ℕ) :
    FromMembers E base (q.members i) (mnsUsedAtHIndexed E base q i) :=
  (fromMembers_empty E base _).foldl_addUsed fun _ => id

def PreviousQuorumQuarters.all (q : PreviousQuorumQuarters) (nQuorums : ℕ) : List CDeterministicMN :=
  (List.range nQuorums).flatMap q.members

theorem fromMembers_mnsUsedAtH (q : PreviousQuorumQuarters) :
    FromMembers E base (q.all llmqParams.signingActiveQuorumCount) (mnsUsedAtH E llmqParams base q) := by
  have hflat : mnsUsedAtH E llmqParams base q =
      (q.all llmqParams.signingActiveQuorumCount).foldl (addUsed E base) {} := by
    rw [mnsUsedAtH, PreviousQuorumQuarters.all, foldl_flatMap]
  rw [hflat]
  exact (fromMembers_empty E base _).foldl_addUsed fun _ => id

/-! ### The unused masternodes -/

variable (hall : Sound E base.allMns)

include hall in
theorem get_mnsNotUsedAtH : (mnsNotUsedAtH E base used).mnMap[p]? = some d ↔
      base.allMns.mnMap[p]? = some d ∧ used.hasMN p = false ∧ d.pdmnState.isBanned = false := by
  have hfold : (fun (l : CDeterministicMNList) (dmn : CDeterministicMN) =>
      if used.hasMN dmn.proTxHash || dmn.pdmnState.isBanned then l else l.tryAddMN E.toCodec dmn) =
      fun l dmn => if !(used.hasMN dmn.proTxHash || dmn.pdmnState.isBanned) then
        l.tryAddMN E.toCodec dmn else l := by
    funext l dmn
    cases used.hasMN dmn.proTxHash || dmn.pdmnState.isBanned <;> rfl
  rw [mnsNotUsedAtH, hfold, get_foldl_kept (P := fun _ => True) _ hall.indexed hall.owned
    (by simp [hall.indexed.mem_forEachMN_iff])]
  refine and_congr_right fun hget => ?_
  simp [hall.indexed.keyed p d hget]

/-! ### The usage that a snapshot marks -/

/-- The masternodes that are marked by their place in the sorted list are the used ones. -/
theorem getMNUsageBySnapshot_eq (used : CDeterministicMNList) (skipList : List Int) :
    getMNUsageBySnapshot E base (buildQuorumSnapshot E base used skipList) =
      (base.allMns.calculateQuorum E base.allMns.getAllMNsCount base.modifier).foldl (fun lists dmn =>
          if used.hasMN dmn.proTxHash then (lists.1.tryAddMN E.toCodec dmn, lists.2)
          else if dmn.pdmnState.isBanned then lists
          else (lists.1, lists.2.tryAddMN E.toCodec dmn)) ({}, {}) := by
  unfold getMNUsageBySnapshot buildQuorumSnapshot
  generalize base.allMns.calculateQuorum E base.allMns.getAllMNsCount base.modifier = sorted
  conv_rhs => rw [← zipIdx_map_fst 0 sorted, foldl_map]
  refine foldl_ext _ _ _ fun lists x hx => ?_
  have hget : sorted[x.2]? = some x.1 := mem_zipIdx_iff_getElem?.mp hx
  have hlt : x.2 < sorted.length := (List.getElem?_eq_some_iff.mp hget).1
  have hflag : ((sorted.map fun dmn => used.hasMN dmn.proTxHash) ++
      replicate (base.allMns.getAllMNsCount - sorted.length) false).getD x.2 false = used.hasMN x.1.proTxHash := by
    rw [getD_eq_getElem?_getD, getElem?_append_left (by simpa using hlt), getElem?_map, hget]
    rfl
  rw [hflag]

theorem foldl_usage_eq (used : CDeterministicMNList) (ds : List CDeterministicMN)
    (lists : CDeterministicMNList × CDeterministicMNList) :
    ds.foldl (fun lists dmn =>
        if used.hasMN dmn.proTxHash then (lists.1.tryAddMN E.toCodec dmn, lists.2)
        else if dmn.pdmnState.isBanned then lists
        else (lists.1, lists.2.tryAddMN E.toCodec dmn)) lists =
      (ds.foldl (fun l dmn => if used.hasMN dmn.proTxHash then l.tryAddMN E.toCodec dmn else l) lists.1,
        ds.foldl (fun l dmn => if !(used.hasMN dmn.proTxHash || dmn.pdmnState.isBanned) then
          l.tryAddMN E.toCodec dmn else l) lists.2) := by
  induction ds generalizing lists with
  | nil => rfl
  | cons d ds ih =>
    simp only [foldl_cons]
    rw [ih]
    cases used.hasMN d.proTxHash <;> cases d.pdmnState.isBanned <;> rfl

include hall in
theorem get_usage (used : CDeterministicMNList) (skipList : List Int) :
    let usage := getMNUsageBySnapshot E base (buildQuorumSnapshot E base used skipList)
    ∀ (p : Uint256) d,
      (usage.1.mnMap[p]? = some d ↔ base.allMns.mnMap[p]? = some d ∧ d.pdmnState.isBanned = false ∧
        d.pdmnState.confirmedHash ≠ 0 ∧ used.hasMN p = true) ∧
      (usage.2.mnMap[p]? = some d ↔ base.allMns.mnMap[p]? = some d ∧ d.pdmnState.isBanned = false ∧
        d.pdmnState.confirmedHash ≠ 0 ∧ used.hasMN p = false) := by
  intro usage p d
  have hmem (d : CDeterministicMN) : d ∈ base.allMns.calculateQuorum E base.allMns.getAllMNsCount base.modifier ↔ _ :=
    mem_calculateQuorum hall.indexed.keyed
  have husage : usage = _ := (getMNUsageBySnapshot_eq used skipList).trans (foldl_usage_eq used _ _)
  have hvalid : isMNValidEntry d = true ↔ d.pdmnState.isBanned = false := by
    simp [isMNValidEntry, isMNPoSeBannedEntry]
  rw [husage, get_foldl_kept _ hall.indexed hall.owned hmem, get_foldl_kept _ hall.indexed hall.owned hmem, hvalid]
  constructor <;>
  · refine and_congr_right fun hget => ?_
    simp only [hall.indexed.keyed p d hget, Bool.not_eq_true', Bool.or_eq_false_iff]
    tauto

/-! ### Both orders are the same -/

/-- An entry of an earlier cycle was valid and confirmed, and its masternode still has the collateral
and the hashes that its score depends on. -/
structure Agrees (allMns : CDeterministicMNList) (mn : CDeterministicMN) : Prop where
  valid : mn.pdmnState.isBanned = false
  confirmed : mn.pdmnState.confirmedHash ≠ 0
  same : ∀ d, allMns.mnMap[mn.proTxHash]? = some d →
    d.collateralOutpoint = mn.collateralOutpoint ∧
    d.pdmnState.confirmedHash = mn.pdmnState.confirmedHash ∧
    d.pdmnState.confirmedHashWithProRegTxHash = mn.pdmnState.confirmedHashWithProRegTxHash

theorem scoreKey_eq_none_iff {modifier : Uint256} :
    scoreKey E modifier d = none ↔ ¬ (d.pdmnState.isBanned = false ∧ d.pdmnState.confirmedHash ≠ 0) := by
  unfold scoreKey isMNValidEntry isMNPoSeBannedEntry
  cases d.pdmnState.isBanned <;> simp

theorem scoreKey_eq {modifier : Uint256} (hban : d.pdmnState.isBanned = false) (hconf : d.pdmnState.confirmedHash ≠ 0) :
    scoreKey E modifier d = some (E.sha256 d.pdmnState.confirmedHashWithProRegTxHash modifier,
      d.collateralOutpoint, d.proTxHash) := by
  have hcond : (isMNValidEntry d && d.pdmnState.confirmedHash != 0) = true := by
    rw [isMNValidEntry, isMNPoSeBannedEntry, hban, bne_iff_ne.mpr hconf]
    rfl
  rw [scoreKey, if_pos hcond]

theorem Agrees.scoreKey_eq {modifier : Uint256} (h : Agrees base.allMns mn)
    (hget : base.allMns.mnMap[mn.proTxHash]? = some d) (hkeyed : base.allMns.Keyed)
    (hban : d.pdmnState.isBanned = false) : scoreKey E modifier d = scoreKey E modifier mn := by
  obtain ⟨hcol, hconf, hhash⟩ := h.same d hget
  rw [Llmq.scoreKey_eq h.valid h.confirmed, Llmq.scoreKey_eq hban (hconf ▸ h.confirmed), hcol, hhash, hkeyed _ d hget]

/-- A list of used masternodes as a cycle with removals skipped builds it. -/
structure UsedList (E : Env) (base : QuorumBase) (used : CDeterministicMNList) : Prop where
  indexed : Indexed E.toCodec used
  stored : ∀ (p : Uint256) mn, used.mnMap[p]? = some mn → ∃ d, base.allMns.mnMap[p]? = some d ∧
    d.pdmnState.isBanned = false ∧ Agrees base.allMns mn

theorem FromMembers.usedList {mns : List CDeterministicMN} (h : FromMembers E base mns used)
    (hskip : base.skipRemovedMNs = true ∨ ∀ mn ∈ mns, base.allMns.hasMN mn.proTxHash = true)
    (hagree : ∀ mn ∈ mns, Agrees base.allMns mn) : UsedList E base used := by
  refine ⟨h.indexed, fun p mn hget => ?_⟩
  obtain ⟨hmem, hvalid⟩ := h.entry p mn hget
  have hp : mn.proTxHash = p := h.indexed.keyed p mn hget
  have hstored : base.allMns.hasMN mn.proTxHash = true := hskip.elim hvalid.stored fun hall => hall mn hmem
  rw [hp, hasMN, getMN, Option.isSome_iff_exists] at hstored
  obtain ⟨d, hd⟩ := hstored
  have hban := hvalid.valid
  rw [hp, isMNPoSeBanned, hd] at hban
  exact ⟨d, hd, hban, hagree mn hmem⟩

theorem UsedList.sortedCombinedMns_eq (h : UsedList E base used) (hall : Sound E base.allMns) (skipList : List Int) :
    let usage := getMNUsageBySnapshot E base (buildQuorumSnapshot E base used skipList)
    (sortedCombinedMns E base usage.1 usage.2).map (·.proTxHash) =
      (sortedCombinedMns E base used (mnsNotUsedAtH E base used)).map (·.proTxHash) := by
  intro usage
  have husage := get_usage hall used skipList
  unfold sortedCombinedMns
  rw [map_append, map_append]
  congr 1
  · refine calculateQuorum_map_congr fun p => Option.ext fun k => ?_
    simp only [Option.bind_eq_some_iff, (husage p _).2, usage, get_mnsNotUsedAtH hall]
    constructor
    · rintro ⟨d, ⟨hget, hban, -, hused⟩, hk⟩
      exact ⟨d, ⟨hget, hused, hban⟩, hk⟩
    · rintro ⟨d, ⟨hget, hused, hban⟩, hk⟩
      have hconf : d.pdmnState.isBanned = false ∧ d.pdmnState.confirmedHash ≠ 0 := by
        by_contra hno
        rw [scoreKey_eq_none_iff.mpr hno] at hk
        cases hk
      exact ⟨d, ⟨hget, hban, hconf.2, hused⟩, hk⟩
  · refine calculateQuorum_map_congr fun p => Option.ext fun k => ?_
    simp only [Option.bind_eq_some_iff, (husage p _).1, usage, hasMN, getMN, Option.isSome_iff_exists]
    have hkeyed := hall.indexed.keyed
    constructor
    · rintro ⟨d, ⟨hget, hban, hconf, mn, hmn⟩, hk⟩
      obtain ⟨d', hd', hban', hagree⟩ := h.stored p mn hmn
      have hp : mn.proTxHash = p := h.indexed.keyed p mn hmn
      rw [hget, Option.some.injEq] at hd'
      exact ⟨mn, hmn, by rw [← hagree.scoreKey_eq (hp ▸ hget) hkeyed hban, hk]⟩
    · rintro ⟨mn, hmn, hk⟩
      obtain ⟨d, hd, hban, hagree⟩ := h.stored p mn hmn
      have hp : mn.proTxHash = p := h.indexed.keyed p mn hmn
      have hconf : d.pdmnState.confirmedHash ≠ 0 := (hagree.same d (hp ▸ hd)).2.1 ▸ hagree.confirmed
      exact ⟨d, ⟨hd, hban, hconf, mn, hmn⟩, by rw [hagree.scoreKey_eq (hp ▸ hd) hkeyed hban, hk]⟩

include hall in
theorem keyed_mnsNotUsedAtH : (mnsNotUsedAtH E base used).Keyed :=
  fun p d hget => hall.indexed.keyed p d ((get_mnsNotUsedAtH hall).mp hget).1

include hall in
/-- The sorted masternodes are the confirmed ones among the unused and the used. -/
theorem mem_sortedCombinedMns (hused : used.Keyed) : d ∈ sortedCombinedMns E base used (mnsNotUsedAtH E base used) ↔
      (base.allMns.mnMap[d.proTxHash]? = some d ∧ used.hasMN d.proTxHash = false ∨
        used.mnMap[d.proTxHash]? = some d) ∧
      d.pdmnState.isBanned = false ∧ d.pdmnState.confirmedHash ≠ 0 := by
  have hvalid : isMNValidEntry d = true ↔ d.pdmnState.isBanned = false := by
    simp [isMNValidEntry, isMNPoSeBannedEntry]
  rw [sortedCombinedMns, mem_append, mem_calculateQuorum (keyed_mnsNotUsedAtH hall),
    mem_calculateQuorum hused, get_mnsNotUsedAtH hall, hvalid]
  tauto

include hall in
theorem nodup_sortedCombinedMns (hused : used.Keyed) :
    ((sortedCombinedMns E base used (mnsNotUsedAtH E base used)).map (·.proTxHash)).Nodup := by
  unfold sortedCombinedMns
  rw [map_append, nodup_append]
  refine ⟨nodup_calculateQuorum (keyed_mnsNotUsedAtH hall) _, nodup_calculateQuorum hused _, ?_⟩
  intro p hp p' hp' heq
  obtain ⟨d, hd, rfl⟩ := mem_map.mp hp
  obtain ⟨e, he, rfl⟩ := mem_map.mp hp'
  have hnot := ((get_mnsNotUsedAtH hall).mp ((mem_calculateQuorum (keyed_mnsNotUsedAtH hall)).mp hd).1).2.1
  have hget := ((mem_calculateQuorum hused).mp he).1
  rw [heq, hasMN, getMN, hget] at hnot
  cases hnot

end OmegaCore.Llmq
