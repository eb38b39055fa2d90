import OmegaCore.Evo.Phases

/-!
List differences: `BuildDiff` and `ApplyDiff`.  A difference holds the added
masternodes, a state difference for each changed one and the internal ids of the
removed ones.  `applyDiff_get` gives the entries of a replayed list in closed form,
whatever order the unordered map of updates is walked in; `exists_applyDiff` says
when a replay cannot throw.
-/

namespace OmegaCore.Evo

open Util CDeterministicMNList List CDeterministicMNStateDiff

structure CDeterministicMNListDiff where
  nHeight : Int := -1
  addedMNs : List CDeterministicMN := []
  /-- An unordered map; the list is the order in which it is walked. -/
  updatedMNs : List (ℕ × CDeterministicMNStateDiff) := []
  removedMns : List ℕ := []

namespace CDeterministicMNListDiff

def hasChanges (diff : CDeterministicMNListDiff) : Bool :=
  !diff.addedMNs.isEmpty || !diff.updatedMNs.isEmpty || !diff.removedMns.isEmpty

end CDeterministicMNListDiff

namespace CDeterministicMNList

/-- The update of one masternode that is in both lists.  The source first compares pointers, which
saves the comparison of a state with itself. -/
def stateDiff (l : CDeterministicMNList) (toPtr : CDeterministicMN) : Option (ℕ × CDeterministicMNStateDiff) :=
  match l.getMN toPtr.proTxHash with
  | none => none
  | some fromPtr =>
    let stateDiff := diff fromPtr.pdmnState toPtr.pdmnState
    if stateDiff.hasFields then some (toPtr.internalId.val, stateDiff) else none

def buildDiff (l toList : CDeterministicMNList) : CDeterministicMNListDiff where
  addedMNs := ((toList.forEachMN false).filter fun toPtr => !l.hasMN toPtr.proTxHash).insertionSort
    fun a b => a.internalId ≤ b.internalId
  updatedMNs := (toList.forEachMN false).filterMap l.stateDiff
  removedMns := (((l.forEachMN false).filter fun fromPtr => !toList.hasMN fromPtr.proTxHash).map
    (·.internalId.val)).insertionSort (· ≤ ·)

variable (C : Codec)

def applyRemoved (result : CDeterministicMNList) (id : ℕ) : Except Thrown CDeterministicMNList :=
  match result.getMNByInternalId id with
  | none => .error ⟨.removedNotFound, result⟩
  | some dmn => result.removeMN C dmn.proTxHash

def applyUpdated (result : CDeterministicMNList) (p : ℕ × CDeterministicMNStateDiff) :
    Except Thrown CDeterministicMNList :=
  match result.getMNByInternalId p.1 with
  | none => .error ⟨.assertion, result⟩
  | some dmn => result.updateDiff C dmn p.2

def applyDiff (l : CDeterministicMNList) (pindex : CBlockIndex) (diff : CDeterministicMNListDiff) :
    Except Thrown CDeterministicMNList := do
  let result := (l.setBlockHash pindex.getBlockHash).setHeight pindex.nHeight
  let result ← diff.removedMns.foldlM (applyRemoved C) result
  let result ← diff.addedMNs.foldlM (fun result dmn => result.addMN C dmn) result
  diff.updatedMNs.foldlM (applyUpdated C) result

variable {C} {l l' m m' old new : CDeterministicMNList} {dmn : CDeterministicMN} {p q : Uint256}

/-! ### Removals -/

/-- Every masternode has an owner key, so that it can be removed. -/
def Owned (l : CDeterministicMNList) : Prop :=
  ∀ (p : Uint256) dmn, l.mnMap[p]? = some dmn → dmn.pdmnState.keyIDOwner ≠ 0

theorem applyRemoved_ok (hm : Indexed C m) (howned : m.Owned) (hget : m.mnMap[p]? = some dmn) :
    ∃ m', applyRemoved C m dmn.internalId.val = .ok m' ∧ Indexed C m' ∧ m'.mnMap = m.mnMap.erase p := by
  obtain ⟨m', hrem⟩ := exists_removeMN hm hget (howned p dmn hget)
  refine ⟨m', ?_, removeMN_indexed hm hrem, ?_⟩
  · simp only [applyRemoved, hm.get_by_internalId hget, hm.proTxHash p dmn hget, hrem]
  · obtain ⟨_, -, _, -, rfl⟩ := removeMN_ok hm.positive hrem
    rfl

/-- The removals succeed and take out the entries with the given internal ids. -/
theorem foldlM_applyRemoved {ids : List ℕ} (hm : Indexed C m) (howned : m.Owned) (hnodup : ids.Nodup)
    (hids : ∀ i ∈ ids, ∃ (p : Uint256) (dmn : CDeterministicMN), m.mnMap[p]? = some dmn ∧ dmn.internalId.val = i) :
    ∃ m', ids.foldlM (applyRemoved C) m = .ok m' ∧ Indexed C m' ∧ m'.Owned ∧
      ∀ (p : Uint256) d, m'.mnMap[p]? = some d ↔ m.mnMap[p]? = some d ∧ d.internalId.val ∉ ids := by
  induction ids generalizing m with
  | nil => exact ⟨m, rfl, hm, howned, by simp⟩
  | cons i ids ih =>
    rw [nodup_cons] at hnodup
    obtain ⟨p, dmn, hget, rfl⟩ := hids i mem_cons_self
    obtain ⟨m₁, hstep, hm₁, hmap⟩ := applyRemoved_ok hm howned hget
    have hentry (q : Uint256) (d : CDeterministicMN) : m₁.mnMap[q]? = some d ↔
        m.mnMap[q]? = some d ∧ d.internalId.val ≠ dmn.internalId.val := by
      rw [hmap, Map.get_erase]
      split_ifs with hq
      · subst hq
        simp only [hget, Option.some.injEq, false_iff, not_and, not_not]
        rintro rfl
        rfl
      · refine ⟨fun hd => ⟨hd, fun heq => hq ?_⟩, fun hd => hd.1⟩
        exact hm.internalId_unique hd hget (Fin.ext heq)
    obtain ⟨m', hrest, hm', howned', hmap'⟩ := ih hm₁
      (fun q d hd => howned q d ((hentry q d).mp hd).1) hnodup.2 fun j hj => by
        obtain ⟨q, d, hd, rfl⟩ := hids j (mem_cons_of_mem _ hj)
        exact ⟨q, d, (hentry q d).mpr ⟨hd, fun heq => hnodup.1 (heq ▸ hj)⟩, rfl⟩
    refine ⟨m', by rw [foldlM_cons, hstep, ok_bind, hrest], hm', howned', fun q d => ?_⟩
    rw [hmap', hentry, mem_cons, not_or, and_assoc]

/-! ### Additions -/

theorem addMN_get {b : Bool} (hm : Indexed C m) (hadd : m.addMN C dmn b = .ok m') (q : Uint256) (d : CDeterministicMN) :
    m'.mnMap[q]? = some d ↔ m.mnMap[q]? = some d ∨ (d = dmn ∧ q = dmn.proTxHash) := by
  obtain ⟨hnew, -, -, -, u, -, rfl⟩ := addMN_ok hm.positive hadd
  simp only [Map.get_insert]
  split_ifs with hq
  · subst hq
    simp [hnew, eq_comm]
  · simp [hq]

variable {ds : List CDeterministicMN}

/-- Additions that succeed put in the given masternodes. -/
theorem foldlM_addMN (hm : Indexed C m) (hok : ds.foldlM (fun result dmn => result.addMN C dmn) m = .ok m') :
    Indexed C m' ∧ ∀ (p : Uint256) d, m'.mnMap[p]? = some d ↔ m.mnMap[p]? = some d ∨ (d ∈ ds ∧ p = d.proTxHash) := by
  induction ds generalizing m with
  | nil =>
    cases hok
    exact ⟨hm, by simp⟩
  | cons d₀ ds ih =>
    rw [foldlM_cons, bind_eq_ok] at hok
    obtain ⟨m₁, hadd, hrest⟩ := hok
    obtain ⟨hm', hmap⟩ := ih (addMN_indexed hm hadd) hrest
    refine ⟨hm', fun p d => ?_⟩
    rw [hmap, addMN_get hm hadd, mem_cons]
    constructor
    · rintro ((hd | ⟨rfl, rfl⟩) | ⟨hd, rfl⟩)
      · exact .inl hd
      · exact .inr ⟨.inl rfl, rfl⟩
      · exact .inr ⟨.inr hd, rfl⟩
    · rintro (hd | ⟨rfl | hd, rfl⟩)
      · exact .inl (.inl hd)
      · exact .inl (.inr ⟨rfl, rfl⟩)
      · exact .inr ⟨hd, rfl⟩

/-- The masternodes have different hashes, internal ids and unique properties. -/
def Apart (C : Codec) (d e : CDeterministicMN) : Prop :=
  d.proTxHash ≠ e.proTxHash ∧ d.internalId ≠ e.internalId ∧ ∀ h ∈ slots C e, h ∉ slots C d

/-- Additions of masternodes that are apart succeed. -/
theorem exists_foldlM_addMN (hm : Indexed C m) (hwf : ∀ d ∈ ds, d.collateralOutpoint ≠ {} ∧ d.pdmnState.keyIDOwner ≠ 0)
    (hpresent : ∀ d ∈ ds, ∀ (q : Uint256) e, m.mnMap[q]? = some e → Apart C e d) (hapart : ds.Pairwise (Apart C)) :
    ∃ m', ds.foldlM (fun result dmn => result.addMN C dmn) m = .ok m' := by
  induction ds generalizing m with
  | nil => exact ⟨m, rfl⟩
  | cons d ds ih =>
    rw [pairwise_cons] at hapart
    rw [forall_mem_cons] at hwf hpresent
    have hnew : m.mnMap[d.proTxHash]? = none := by
      rw [Option.eq_none_iff_forall_ne_some]
      intro e he
      exact (hpresent.1 _ e he).1 (hm.proTxHash _ e he)
    have hid : m.mnInternalIdMap[d.internalId.val]? = none := by
      rw [Option.eq_none_iff_forall_ne_some]
      intro q hq
      obtain ⟨e, he, heq⟩ := (hm.internalId _ _).mp hq
      exact (hpresent.1 q e he).2.1 (Fin.ext heq)
    obtain ⟨m₁, hadd⟩ := exists_addMN (b := true) hm hnew hid hwf.1.1 hwf.1.2
      fun h hh q e _ he => (hpresent.1 q e he).2.2 h hh
    obtain ⟨m', hrest⟩ := ih (addMN_indexed hm hadd) hwf.2 (fun e he q x hx => by
        rcases (addMN_get hm hadd q x).mp hx with hx | ⟨rfl, -⟩
        · exact hpresent.2 e he q x hx
        · exact hapart.1 e he) hapart.2
    exact ⟨m', by rw [foldlM_cons, hadd, ok_bind, hrest]⟩

/-! ### Updates -/

variable {final : Uint256 → CDeterministicMNState} {u : ℕ × CDeterministicMNStateDiff}
variable {us : List (ℕ × CDeterministicMNStateDiff)}

/-- The update brings a masternode of `m` to its final state, and does not re-encode its key. -/
def Finishes (m : CDeterministicMNList) (final : Uint256 → CDeterministicMNState)
    (u : ℕ × CDeterministicMNStateDiff) (p : Uint256) (dmn : CDeterministicMN) : Prop :=
  m.mnMap[p]? = some dmn ∧ dmn.internalId.val = u.1 ∧ u.2.applyToState dmn.pdmnState = final p ∧
    ¬ dmn.pdmnState.pubKeyOperator.Reencodes (final p).pubKeyOperator

theorem applyUpdated_eq (hm : Indexed C m) (hu : Finishes m final u p dmn) :
    applyUpdated C m u = m.updateEntry C dmn (final p) := by
  obtain ⟨hget, hid, hfinal, -⟩ := hu
  simp only [applyUpdated, ← hid, hm.get_by_internalId hget, updateDiff, hfinal]

theorem applyUpdated_ok (hm : Indexed C m) (hu : Finishes m final u p dmn) (hok : applyUpdated C m u = .ok m') :
    Indexed C m' ∧ m'.mnMap = m.mnMap.insert p { dmn with pdmnState := final p } := by
  rw [applyUpdated_eq hm hu] at hok
  obtain ⟨hget, -, -, hno⟩ := hu
  obtain rfl : dmn.proTxHash = p := hm.proTxHash p dmn hget
  refine ⟨updateEntry_indexed hm hget hno hok, ?_⟩
  obtain ⟨v, -, rfl⟩ := updateEntry_ok hm.positive hno hok
  rfl

theorem Finishes.after {u' : ℕ × CDeterministicMNStateDiff} {d : CDeterministicMN}
    (hu : Finishes m final u p dmn) (hu' : Finishes m final u' q d) (hne : u'.1 ≠ u.1)
    (hmap : m'.mnMap = m.mnMap.insert p { dmn with pdmnState := final p }) : Finishes m' final u' q d := by
  refine ⟨?_, hu'.2⟩
  have hqp : q ≠ p := by
    rintro rfl
    have heq := hu.1.symm.trans hu'.1
    cases heq
    exact hne (hu'.2.1.symm.trans hu.2.1)
  rw [hmap, Map.get_insert, if_neg hqp]
  exact hu'.1

/-- The final slots of every masternode are apart from the current and the final slots of the
others, so that the updates can be made in any order. -/
def FinallyApart (C : Codec) (m : CDeterministicMNList) (final : Uint256 → CDeterministicMNState) : Prop :=
  ∀ (p q : Uint256) d e, m.mnMap[p]? = some d → m.mnMap[q]? = some e → p ≠ q →
    ∀ h ∈ slots C { d with pdmnState := final p }, h ∉ slots C e ∧ h ∉ slots C { e with pdmnState := final q }

theorem FinallyApart.after (hapart : FinallyApart C m final) (hget : m.mnMap[p]? = some dmn)
    (hmap : m'.mnMap = m.mnMap.insert p { dmn with pdmnState := final p }) : FinallyApart C m' final := by
  intro q r d e hd he hqr h hh
  rw [hmap, Map.get_insert] at hd he
  split_ifs at hd he with hq hr hr
  · exact absurd (hq.trans hr.symm) hqr
  · cases hd
    subst hq
    exact hapart _ _ dmn e hget he hqr h hh
  · cases he
    subst hr
    have hapart' := hapart _ _ d dmn hd hget hqr h hh
    exact ⟨hapart'.2, hapart'.2⟩
  · exact hapart _ _ d e hd he hqr h hh

/-- Updates with final slots that are apart succeed, and updates that succeed bring their masternodes to the
final states, in whatever order. -/
theorem foldlM_applyUpdated (hm : Indexed C m) (hnodup : (us.map Prod.fst).Nodup)
    (hus : ∀ u ∈ us, ∃ p dmn, Finishes m final u p dmn) :
    (FinallyApart C m final → ∃ m', us.foldlM (applyUpdated C) m = .ok m') ∧
    ∀ m', us.foldlM (applyUpdated C) m = .ok m' → Indexed C m' ∧
      ∀ p : Uint256, m'.mnMap[p]? = (m.mnMap[p]?).map fun d =>
        if d.internalId.val ∈ us.map Prod.fst then { d with pdmnState := final p } else d := by
  induction us generalizing m with
  | nil =>
    refine ⟨fun _ => ⟨m, rfl⟩, fun m' hok => ?_⟩
    cases hok
    exact ⟨hm, by simp⟩
  | cons u us ih =>
    rw [map_cons, nodup_cons] at hnodup
    obtain ⟨p, dmn, hu⟩ := hus u mem_cons_self
    have hfinish {m₁ : CDeterministicMNList} (hmap : m₁.mnMap = m.mnMap.insert p { dmn with pdmnState := final p }) :
        ∀ u' ∈ us, ∃ q d, Finishes m₁ final u' q d := by
      intro u' hu'
      obtain ⟨q, d, hq⟩ := hus u' (mem_cons_of_mem _ hu')
      refine ⟨q, d, hu.after hq (fun heq => hnodup.1 ?_) hmap⟩
      exact heq ▸ mem_map_of_mem hu'
    refine ⟨fun hapart => ?_, fun m' hok => ?_⟩
    · obtain ⟨m₁, hupd⟩ := exists_updateEntry hm hu.1 hu.2.2.2 (fun h hh q e hq he => by
        have hp : dmn.proTxHash = p := hm.proTxHash p dmn hu.1
        exact (hapart p q dmn e hu.1 he (fun heq => hq (heq.symm.trans hp.symm)) h hh).1)
      have hstep := (applyUpdated_eq hm hu).trans hupd
      obtain ⟨hm₁, hmap⟩ := applyUpdated_ok hm hu hstep
      rw [foldlM_cons, hstep, ok_bind]
      exact (ih hm₁ hnodup.2 (hfinish hmap)).1 (hapart.after hu.1 hmap)
    · rw [foldlM_cons, bind_eq_ok] at hok
      obtain ⟨m₁, hstep, hrest⟩ := hok
      obtain ⟨hm₁, hmap⟩ := applyUpdated_ok hm hu hstep
      obtain ⟨hm', hmap'⟩ := (ih hm₁ hnodup.2 (hfinish hmap)).2 m' hrest
      refine ⟨hm', fun q => ?_⟩
      rw [hmap', hmap, Map.get_insert, map_cons]
      split_ifs with hq
      · subst hq
        simp [hu.1, hu.2.1, hnodup.1]
      · cases hget : m.mnMap[q]? with
        | none => rfl
        | some d =>
          have hne : d.internalId.val ≠ u.1 := fun heq =>
            hq (hm.internalId_unique hget hu.1 (Fin.ext (heq.trans hu.2.1.symm)))
          simp only [Option.map_some, mem_cons, hne, false_or]

/-! ### What a built difference contains -/

theorem hasMN_eq_false : l.hasMN p = false ↔ l.mnMap[p]? = none := by
  rw [hasMN, getMN, Option.isSome_eq_false_iff, Option.isNone_iff_eq_none]

theorem Indexed.mem_forEachMN_iff (hl : Indexed C l) :
    dmn ∈ l.forEachMN false ↔ l.mnMap[dmn.proTxHash]? = some dmn := by
  refine ⟨hl.keyed.get_of_mem, fun hget => mem_forEachMN.mpr ⟨⟨_, hget⟩, by simp⟩⟩

theorem Indexed.nodup_internalIds (hl : Indexed C l) : ((l.forEachMN false).map (·.internalId.val)).Nodup := by
  refine Nodup.map_on (fun d hd e he heq => ?_) (hl.keyed.nodup_forEachMN false).of_map
  rw [hl.mem_forEachMN_iff] at hd he
  have hp := hl.internalId_unique hd he (Fin.ext heq)
  rw [hp, he, Option.some.injEq] at hd
  exact hd.symm

theorem mem_addedMNs (hnew : Indexed C new) :
    dmn ∈ (old.buildDiff new).addedMNs ↔ new.mnMap[dmn.proTxHash]? = some dmn ∧ old.mnMap[dmn.proTxHash]? = none := by
  simp [buildDiff, mem_insertionSort, hnew.mem_forEachMN_iff, hasMN_eq_false]

theorem nodup_addedMNs (hnew : Indexed C new) : (old.buildDiff new).addedMNs.Nodup := by
  refine (perm_insertionSort _ _).nodup_iff.mpr (Nodup.filter _ ?_)
  exact (hnew.keyed.nodup_forEachMN false).of_map

theorem mem_removedMns (hold : Indexed C old) {i : ℕ} :
    i ∈ (old.buildDiff new).removedMns ↔
      ∃ (p : Uint256) (d : CDeterministicMN), old.mnMap[p]? = some d ∧ new.mnMap[p]? = none ∧ d.internalId.val = i := by
  simp only [buildDiff, mem_insertionSort, mem_map, mem_filter, hold.mem_forEachMN_iff,
    Bool.not_eq_true', hasMN_eq_false]
  constructor
  · rintro ⟨d, ⟨hd, hnone⟩, rfl⟩
    exact ⟨_, d, hd, hnone, rfl⟩
  · rintro ⟨p, d, hd, hnone, rfl⟩
    obtain rfl : d.proTxHash = p := hold.proTxHash p d hd
    exact ⟨d, ⟨hd, hnone⟩, rfl⟩

theorem nodup_removedMns (hold : Indexed C old) : (old.buildDiff new).removedMns.Nodup := by
  refine (perm_insertionSort _ _).nodup_iff.mpr ?_
  exact hold.nodup_internalIds.sublist (filter_sublist.map _)

variable {e : CDeterministicMN} {u : ℕ × CDeterministicMNStateDiff}

theorem stateDiff_eq_some :
    old.stateDiff e = some u ↔ ∃ d, old.mnMap[e.proTxHash]? = some d ∧
      (diff d.pdmnState e.pdmnState).hasFields = true ∧
      u = (e.internalId.val, diff d.pdmnState e.pdmnState) := by
  unfold stateDiff getMN
  cases hget : old.mnMap[e.proTxHash]? with
  | none => simp
  | some d =>
    simp only [Option.some.injEq, exists_eq_left']
    split_ifs with hfields
    · simp [hfields, eq_comm]
    · simp [hfields]

theorem mem_updatedMNs (hnew : Indexed C new) :
    u ∈ (old.buildDiff new).updatedMNs ↔
      ∃ (p : Uint256) (d e : CDeterministicMN), old.mnMap[p]? = some d ∧ new.mnMap[p]? = some e ∧
        (diff d.pdmnState e.pdmnState).hasFields = true ∧
        u = (e.internalId.val, diff d.pdmnState e.pdmnState) := by
  simp only [buildDiff, mem_filterMap, hnew.mem_forEachMN_iff, stateDiff_eq_some]
  constructor
  · rintro ⟨e, he, d, hd, hrest⟩
    exact ⟨_, d, e, hd, he, hrest⟩
  · rintro ⟨p, d, e, hd, he, hrest⟩
    obtain rfl : e.proTxHash = p := hnew.proTxHash p e he
    exact ⟨e, he, d, hd, hrest⟩

theorem nodup_updatedMNs (hnew : Indexed C new) : ((old.buildDiff new).updatedMNs.map Prod.fst).Nodup := by
  have hids := hnew.nodup_internalIds
  rw [nodup_iff_pairwise_ne, pairwise_map] at hids ⊢
  rw [buildDiff, pairwise_filterMap]
  refine hids.imp fun {d e} hne u hu v hv => ?_
  obtain ⟨_, -, -, rfl⟩ := stateDiff_eq_some.mp hu
  obtain ⟨_, -, -, rfl⟩ := stateDiff_eq_some.mp hv
  exact hne

/-! ### Replaying a difference -/

/-- A masternode of both lists differs in its state only. -/
def SameIdentity (old new : CDeterministicMNList) : Prop :=
  ∀ (p : Uint256) d e, old.mnMap[p]? = some d → new.mnMap[p]? = some e → e = { d with pdmnState := e.pdmnState }

/-- The new slots of a masternode are not old slots of another one that stays. -/
def ApartFrom (C : Codec) (old new : CDeterministicMNList) : Prop :=
  ∀ (p q : Uint256) d e f, new.mnMap[p]? = some e → old.mnMap[q]? = some d → new.mnMap[q]? = some f →
    p ≠ q → ∀ h ∈ slots C e, h ∉ slots C d

/-- The state of a masternode of the new list after its difference to the old list is applied. -/
def replayState (old : CDeterministicMNList) (e : CDeterministicMN) : CDeterministicMNState :=
  match old.mnMap[e.proTxHash]? with
  | some d => (diff d.pdmnState e.pdmnState).applyToState d.pdmnState
  | none => e.pdmnState

/-- The state every masternode has at the end of a replay. -/
def replayFinal (old new : CDeterministicMNList) (p : Uint256) : CDeterministicMNState :=
  match new.mnMap[p]? with
  | some e => old.replayState e
  | none => {}

theorem replayFinal_of_get (he : new.mnMap[p]? = some e) : replayFinal old new p = old.replayState e := by
  simp [replayFinal, he]

variable {d e : CDeterministicMN}

theorem replayState_of_get (hd : old.mnMap[e.proTxHash]? = some d) :
    old.replayState e = (diff d.pdmnState e.pdmnState).applyToState d.pdmnState := by
  simp [replayState, hd]

theorem replayState_of_get_none (hnone : old.mnMap[e.proTxHash]? = none) : old.replayState e = e.pdmnState := by
  simp [replayState, hnone]

theorem replayState_not_reencodes (hd : old.mnMap[e.proTxHash]? = some d) :
    ¬ d.pdmnState.pubKeyOperator.Reencodes (old.replayState e).pubKeyOperator := by
  rw [replayState_of_get hd, applyToState_diff]
  split_ifs with heq
  · exact CBLSLazyPublicKey.not_reencodes_self _
  · exact fun hre => heq (CBLSLazyPublicKey.eq_iff.mpr hre.1)

section Replay

variable (hold : Indexed C old) (hnew : Indexed C new) (hsame : SameIdentity old new)
  (howned : old.Owned)

/-- The entries after the removals and the additions: those that stay, as they were, and the new
ones. -/
def MidReplay (old new m : CDeterministicMNList) : Prop :=
  ∀ (p : Uint256) d, m.mnMap[p]? = some d ↔
    (old.mnMap[p]? = some d ∧ new.mnMap[p]? ≠ none) ∨ (new.mnMap[p]? = some d ∧ old.mnMap[p]? = none)

include hold in
theorem midReplay_of_steps {m₀ m₁ m₂ : CDeterministicMNList} (hm₀ : m₀.mnMap = old.mnMap)
    (hm₁ : ∀ (p : Uint256) d, m₁.mnMap[p]? = some d ↔
      m₀.mnMap[p]? = some d ∧ d.internalId.val ∉ (old.buildDiff new).removedMns)
    (hm₂ : ∀ (p : Uint256) d, m₂.mnMap[p]? = some d ↔
      m₁.mnMap[p]? = some d ∨ (d ∈ (old.buildDiff new).addedMNs ∧ p = d.proTxHash))
    (hnew : Indexed C new) : MidReplay old new m₂ := by
  intro p d
  rw [hm₂, hm₁, hm₀, mem_removedMns hold, mem_addedMNs hnew]
  refine or_congr (and_congr_right fun hd => ?_) ?_
  · refine not_congr ⟨?_, fun hnone => ⟨p, d, hd, hnone, rfl⟩⟩
    rintro ⟨q, e, he, hnone, hid⟩
    rwa [hold.internalId_unique hd he (Fin.ext hid.symm)]
  · constructor
    · rintro ⟨⟨hd, hnone⟩, rfl⟩
      exact ⟨hd, hnone⟩
    · rintro ⟨hd, hnone⟩
      obtain rfl : d.proTxHash = p := hnew.proTxHash p d hd
      exact ⟨⟨hd, hnone⟩, rfl⟩

variable {m : CDeterministicMNList}

include hnew hsame in
theorem MidReplay.finishes (hm : MidReplay old new m)
    {u : ℕ × CDeterministicMNStateDiff} (hu : u ∈ (old.buildDiff new).updatedMNs) :
    ∃ p d, Finishes m (replayFinal old new) u p d := by
  obtain ⟨p, d, e, hd, he, -, rfl⟩ := (mem_updatedMNs hnew).mp hu
  obtain rfl : e.proTxHash = p := hnew.proTxHash p e he
  refine ⟨e.proTxHash, d, (hm _ d).mpr (.inl ⟨hd, by simp [he]⟩), ?_, ?_, ?_⟩
  · rw [hsame _ d e hd he]
  · rw [replayFinal_of_get he, replayState_of_get hd]
  · rw [replayFinal_of_get he]
    exact replayState_not_reencodes hd

include hnew hsame in
theorem MidReplay.updated {m m' : CDeterministicMNList} (hm : MidReplay old new m)
    {us : List (ℕ × CDeterministicMNStateDiff)} (hperm : us.Perm (old.buildDiff new).updatedMNs)
    (hmap : ∀ p : Uint256, m'.mnMap[p]? = (m.mnMap[p]?).map fun d =>
      if d.internalId.val ∈ us.map Prod.fst then { d with pdmnState := replayFinal old new p } else d) :
    m'.mnMap = (new.updateStates old.replayState).mnMap := by
  refine Std.ExtTreeMap.ext_getElem? fun p => ?_
  rw [hmap, get_updateStates]
  cases he : new.mnMap[p]? with
  | none =>
    have hnone : m.mnMap[p]? = none := by
      rw [Option.eq_none_iff_forall_ne_some]
      intro d hd
      rcases (hm p d).mp hd with ⟨-, hne⟩ | ⟨hd, -⟩
      · exact hne he
      · rw [he] at hd
        cases hd
    rw [hnone]
    rfl
  | some e =>
    obtain rfl : e.proTxHash = p := hnew.proTxHash p e he
    -- the internal id is updated exactly if the two states differ
    have hmem : e.internalId.val ∈ us.map Prod.fst ↔ ∃ d, old.mnMap[e.proTxHash]? = some d ∧
        (diff d.pdmnState e.pdmnState).hasFields = true := by
      rw [(hperm.map Prod.fst).mem_iff, mem_map]
      constructor
      · rintro ⟨u, hu, hid⟩
        obtain ⟨q, d, e', hd, he', hfields, rfl⟩ := (mem_updatedMNs hnew).mp hu
        obtain rfl := hnew.internalId_unique he' he (Fin.ext hid)
        rw [he, Option.some.injEq] at he'
        exact ⟨d, hd, he' ▸ hfields⟩
      · rintro ⟨d, hd, hfields⟩
        exact ⟨_, (mem_updatedMNs hnew).mpr ⟨_, d, e, hd, he, hfields, rfl⟩, rfl⟩
    rw [Option.map_some]
    cases hd : old.mnMap[e.proTxHash]? with
    | none =>
      have hout : e.internalId.val ∉ us.map Prod.fst := by
        rw [hmem, hd]
        simp
      rw [(hm _ e).mpr (.inr ⟨he, hd⟩), Option.map_some, if_neg hout, replayState_of_get_none hd]
    | some d =>
      have hd' : m.mnMap[e.proTxHash]? = some d := (hm _ d).mpr (.inl ⟨hd, by simp [he]⟩)
      have heq := hsame _ d e hd he
      have hid : d.internalId = e.internalId := by rw [heq]
      rw [hd', Option.map_some, replayState_of_get hd, hid]
      split_ifs with hin
      · rw [replayFinal_of_get he, replayState_of_get hd, heq]
      · have hno : (diff d.pdmnState e.pdmnState).hasFields = false := by
          by_contra hfields
          exact hin (hmem.mpr ⟨d, hd, by simpa using hfields⟩)
        rw [applyToState_of_not_hasFields hno]
        rw [heq]

variable {pindex : CBlockIndex} {us : List (ℕ × CDeterministicMNStateDiff)}

include hold howned in
variable (new) in
/-- The removals of a built difference succeed. -/
theorem exists_replayRemoved (pindex : CBlockIndex) : ∃ m₁, (old.buildDiff new).removedMns.foldlM (applyRemoved C)
        ((old.setBlockHash pindex.getBlockHash).setHeight pindex.nHeight) = .ok m₁ ∧ Indexed C m₁ ∧
      ∀ (p : Uint256) d, m₁.mnMap[p]? = some d ↔
        old.mnMap[p]? = some d ∧ d.internalId.val ∉ (old.buildDiff new).removedMns := by
  have hset : Indexed C ((old.setBlockHash pindex.getBlockHash).setHeight pindex.nHeight) :=
    hold.congr rfl rfl rfl
  obtain ⟨m₁, hok, hm₁, -, hmap⟩ := foldlM_applyRemoved hset howned (nodup_removedMns hold) fun i hi => by
      obtain ⟨p, d, hd, -, hid⟩ := (mem_removedMns hold).mp hi
      exact ⟨p, d, hd, hid⟩
  exact ⟨m₁, hok, hm₁, hmap⟩

include hold hnew hsame howned in
theorem applyDiff_get {r : CDeterministicMNList} (hperm : us.Perm (old.buildDiff new).updatedMNs)
    (hok : old.applyDiff C pindex { old.buildDiff new with updatedMNs := us } = .ok r) :
    Indexed C r ∧ r.mnMap = (new.updateStates old.replayState).mnMap := by
  obtain ⟨m₁, hrem, hm₁, hmap₁⟩ := exists_replayRemoved new hold howned pindex
  simp only [applyDiff, hrem, ok_bind, bind_eq_ok] at hok
  obtain ⟨m₂, hadd, hupd⟩ := hok
  obtain ⟨hm₂, hmap₂⟩ := foldlM_addMN hm₁ hadd
  have hmid : MidReplay old new m₂ := midReplay_of_steps hold rfl hmap₁ hmap₂ hnew
  have hnodup : (us.map Prod.fst).Nodup := (hperm.map Prod.fst).nodup_iff.mpr (nodup_updatedMNs hnew)
  obtain ⟨hr, hmap⟩ :=
    (foldlM_applyUpdated hm₂ hnodup fun u hu => hmid.finishes hnew hsame (hperm.mem_iff.mp hu)).2 r hupd
  exact ⟨hr, hmid.updated hnew hsame hperm hmap⟩

/-- The entries a masternode of the new list has before and after. -/
def Version (old new : CDeterministicMNList) (p : Uint256) (x : CDeterministicMN) : Prop :=
  new.mnMap[p]? = some x ∨ (old.mnMap[p]? = some x ∧ new.mnMap[p]? ≠ none)

variable {h : Uint256}

include hold hnew in
theorem version_slots_disjoint (hapart : ApartFrom C old new) {x y : CDeterministicMN}
    (hx : Version old new p x) (hy : Version old new q y) (hpq : p ≠ q) (hh : h ∈ slots C x) : h ∉ slots C y := by
  rcases hx with hx | ⟨hx, hx'⟩ <;> rcases hy with hy | ⟨hy, hy'⟩
  · exact hnew.slots_disjoint hx hy hpq hh
  · obtain ⟨f, hf⟩ := Option.ne_none_iff_exists'.mp hy'
    exact hapart p q y x f hx hy hf hpq h hh
  · obtain ⟨f, hf⟩ := Option.ne_none_iff_exists'.mp hx'
    exact fun hh' => hapart q p x y f hy hx hf hpq.symm h hh' hh
  · exact hold.slots_disjoint hx hy hpq hh

theorem MidReplay.version (hm : MidReplay old new m) (hget : m.mnMap[p]? = some dmn) : Version old new p dmn := by
  rcases (hm p dmn).mp hget with ⟨hd, hne⟩ | ⟨hd, -⟩
  · exact .inr ⟨hd, hne⟩
  · exact .inl hd

theorem slots_replayState {d e : CDeterministicMN} (hsame : e = { d with pdmnState := e.pdmnState })
    (hd : old.mnMap[e.proTxHash]? = some d)
    (hh : h ∈ slots C { d with pdmnState := old.replayState e }) : h ∈ slots C d ∨ h ∈ slots C e := by
  have htype : e.nType = d.nType := by rw [hsame]
  have hcol : e.collateralOutpoint = d.collateralOutpoint := by rw [hsame]
  rw [replayState_of_get hd, applyToState_diff] at hh
  simp only [slots, stateSlots, mem_cons, mem_append, htype, hcol] at hh ⊢
  by_cases heq : d.pdmnState.pubKeyOperator.eq e.pdmnState.pubKeyOperator = true
  · rw [if_pos heq] at hh
    tauto
  · rw [if_neg heq] at hh
    tauto

include hnew hsame in
theorem MidReplay.version_of_slot (hm : MidReplay old new m) (hget : m.mnMap[p]? = some dmn)
    (hh : h ∈ slots C { dmn with pdmnState := replayFinal old new p }) :
    ∃ x, Version old new p x ∧ h ∈ slots C x := by
  rcases (hm p dmn).mp hget with ⟨hd, hne⟩ | ⟨he, hnone⟩
  · obtain ⟨e, he⟩ := Option.ne_none_iff_exists'.mp hne
    obtain rfl : e.proTxHash = p := hnew.proTxHash p e he
    rw [replayFinal_of_get he] at hh
    rcases slots_replayState (hsame _ dmn e hd he) hd hh with hh | hh
    · exact ⟨dmn, .inr ⟨hd, hne⟩, hh⟩
    · exact ⟨e, .inl he, hh⟩
  · obtain rfl : dmn.proTxHash = p := hnew.proTxHash p dmn he
    rw [replayFinal_of_get he, replayState_of_get_none hnone] at hh
    exact ⟨dmn, .inl he, hh⟩

include hold hnew hsame howned in
theorem exists_applyDiff (hapart : ApartFrom C old new) (howned' : new.Owned)
    (hperm : us.Perm (old.buildDiff new).updatedMNs) (pindex : CBlockIndex) :
    ∃ r, old.applyDiff C pindex { old.buildDiff new with updatedMNs := us } = .ok r := by
  obtain ⟨m₁, hrem, hm₁, hmap₁⟩ := exists_replayRemoved new hold howned pindex
  have hkept {q : Uint256} {e : CDeterministicMN} (he : m₁.mnMap[q]? = some e) :
      old.mnMap[q]? = some e ∧ new.mnMap[q]? ≠ none := by
    obtain ⟨he, hkept⟩ := (hmap₁ q e).mp he
    exact ⟨he, fun hnone => hkept ((mem_removedMns hold).mpr ⟨q, e, he, hnone, rfl⟩)⟩
  -- the additions
  obtain ⟨m₂, hadd⟩ : ∃ m₂, (old.buildDiff new).addedMNs.foldlM (fun result dmn => result.addMN C dmn) m₁ =
      .ok m₂ := exists_foldlM_addMN hm₁
    (fun d hd => by
      have hd := ((mem_addedMNs hnew).mp hd).1
      exact ⟨hnew.collateral _ d hd, howned' _ d hd⟩)
    (fun d hd q e he => by
      obtain ⟨hdnew, hdold⟩ := (mem_addedMNs hnew).mp hd
      obtain ⟨heold, hne⟩ := hkept he
      have hq : q ≠ d.proTxHash := by
        rintro rfl
        rw [heold] at hdold
        cases hdold
      obtain ⟨f, hf⟩ := Option.ne_none_iff_exists'.mp hne
      refine ⟨hold.proTxHash q e heold ▸ hq, fun hid => hq (hnew.internalId_unique hf hdnew ?_), fun h hh =>
        version_slots_disjoint hold hnew hapart (.inl hdnew) (.inr (hkept he)) hq.symm hh⟩
      rw [hsame q e f heold hf]
      exact hid)
    (Nodup.pairwise_of_forall_ne (nodup_addedMNs hnew) fun d hd e he hne => by
      have hd := ((mem_addedMNs hnew).mp hd).1
      have he := ((mem_addedMNs hnew).mp he).1
      have hp : d.proTxHash ≠ e.proTxHash := by
        intro heq
        rw [heq, he, Option.some.injEq] at hd
        exact hne hd.symm
      exact ⟨hp, fun hid => hp (hnew.internalId_unique hd he hid), fun h hh => hnew.slots_disjoint he hd hp.symm hh⟩)
  obtain ⟨hm₂, hmap₂⟩ := foldlM_addMN hm₁ hadd
  have hmid : MidReplay old new m₂ := midReplay_of_steps hold rfl hmap₁ hmap₂ hnew
  -- the updates
  have hnodup : (us.map Prod.fst).Nodup := (hperm.map Prod.fst).nodup_iff.mpr (nodup_updatedMNs hnew)
  obtain ⟨r, hupd⟩ := (foldlM_applyUpdated hm₂ hnodup fun u hu =>
    hmid.finishes hnew hsame (hperm.mem_iff.mp hu)).1 (fun p q d e hd he hpq h hh => by
      obtain ⟨x, hx, hxh⟩ := hmid.version_of_slot hnew hsame hd hh
      refine ⟨version_slots_disjoint hold hnew hapart hx (hmid.version he) hpq hxh, fun hh' => ?_⟩
      obtain ⟨y, hy, hyh⟩ := hmid.version_of_slot hnew hsame he hh'
      exact version_slots_disjoint hold hnew hapart hx hy hpq hxh hyh)
  exact ⟨r, by simp only [applyDiff, hrem, ok_bind, hadd, hupd]⟩

end Replay

/-! ### The other fields of a replayed list -/

/-- The counter after a masternode with this internal id was added. -/
def bumpCount (count : Fin (2 ^ 32)) (dmn : CDeterministicMN) : Fin (2 ^ 32) :=
  Fin.ofNat (2 ^ 32) (max (dmn.internalId.val + 1) count.val)

def replayedCount (old new : CDeterministicMNList) : Fin (2 ^ 32) :=
  (old.buildDiff new).addedMNs.foldl bumpCount old.nTotalRegisteredCount

variable {r : CDeterministicMNList} {diff : CDeterministicMNListDiff}

theorem foldlM_addMN_header (hok : ds.foldlM (fun result dmn => result.addMN C dmn) l = .ok r) :
    r.header = (l.blockHash, l.nHeight, ds.foldl bumpCount l.nTotalRegisteredCount) := by
  induction ds generalizing l with
  | nil =>
    cases hok
    rfl
  | cons d ds ih =>
    rw [foldlM_cons, bind_eq_ok] at hok
    obtain ⟨l₁, hadd, hrest⟩ := hok
    have hstep := addMN_header hadd
    simp only [header, Prod.mk.injEq] at hstep
    rw [ih hrest, hstep.1, hstep.2.1, hstep.2.2]
    rfl

theorem applyDiff_header {pindex : CBlockIndex} (hok : l.applyDiff C pindex diff = .ok r) :
    r.header = (pindex.getBlockHash, pindex.nHeight, diff.addedMNs.foldl bumpCount l.nTotalRegisteredCount) := by
  simp only [applyDiff, bind_eq_ok] at hok
  obtain ⟨l₁, hrem, l₂, hadd, hupd⟩ := hok
  have h₁ : l₁.header = ((l.setBlockHash pindex.getBlockHash).setHeight pindex.nHeight).header := by
    refine foldlM_preserves (P := fun x : CDeterministicMNList => x.header = _) ?_ rfl hrem
    intro i _ s s' hs hstep
    unfold applyRemoved at hstep
    split at hstep
    · cases hstep
    · exact (removeMN_header hstep).trans hs
  have h₂ := foldlM_addMN_header hadd
  have h₃ : r.header = l₂.header := by
    refine foldlM_preserves (P := fun x : CDeterministicMNList => x.header = _) ?_ rfl hupd
    intro u _ s s' hs hstep
    unfold applyUpdated at hstep
    split at hstep
    · cases hstep
    · exact (updateEntry_header hstep).trans hs
  simp only [header, Prod.mk.injEq] at h₁
  rw [h₃, h₂, h₁.1, h₁.2.1, h₁.2.2]
  rfl

theorem applyDiff_of_hasChanges_eq_false (hno : diff.hasChanges = false) (pindex : CBlockIndex) :
    l.applyDiff C pindex diff = .ok ((l.setBlockHash pindex.getBlockHash).setHeight pindex.nHeight) := by
  simp only [CDeterministicMNListDiff.hasChanges, Bool.or_eq_false_iff, Bool.not_eq_false', List.isEmpty_iff] at hno
  simp [applyDiff, hno.1.1, hno.1.2, hno.2, pure, Except.pure]

end CDeterministicMNList

end OmegaCore.Evo
