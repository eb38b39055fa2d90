import OmegaCore.Evo.MNListIndex
import OmegaCore.Evo.BuildNewList

/-!
Closed forms for the phases of `BuildNewListFromBlock` that run over the whole
list.  None of them changes a unique property, so none can throw, and each is a
map over the entries: `updateStates` with an explicit function on states.  What is
left of the function is then the loop over the transactions and the removal of
spent collaterals, between two such maps.
-/

namespace OmegaCore.Evo

open Util CDeterministicMNList List

namespace CDeterministicMNList

variable {C : Codec} {l : CDeterministicMNList} {dmn : CDeterministicMN} {p : Uint256}

def updateStates (l : CDeterministicMNList) (g : CDeterministicMN → CDeterministicMNState) :
    CDeterministicMNList :=
  { l with mnMap := l.mnMap.map fun _ dmn => { dmn with pdmnState := g dmn } }

/-- Every entry is stored under its own `proTxHash`. -/
def Keyed (l : CDeterministicMNList) : Prop :=
  ∀ (p : Uint256) dmn, l.mnMap[p]? = some dmn → dmn.proTxHash = p

theorem Indexed.keyed (hl : Indexed C l) : l.Keyed := hl.proTxHash

theorem get_updateStates (l : CDeterministicMNList) (g : CDeterministicMN → CDeterministicMNState) (p : Uint256) :
    (l.updateStates g).mnMap[p]? = (l.mnMap[p]?).map fun dmn => { dmn with pdmnState := g dmn } := by
  simp [updateStates, Std.ExtTreeMap.getElem?_map]

variable {g : CDeterministicMN → CDeterministicMNState}

theorem get_of_get_updateStates {d' : CDeterministicMN} (hget : (l.updateStates g).mnMap[p]? = some d') :
    ∃ d, l.mnMap[p]? = some d ∧ d' = { d with pdmnState := g d } := by
  rw [get_updateStates, Option.map_eq_some_iff] at hget
  obtain ⟨d, hd, rfl⟩ := hget
  exact ⟨d, hd, rfl⟩

theorem setMap_congr {m m' : Map Uint256 CDeterministicMN} (h : ∀ p : Uint256, m[p]? = m'[p]?) :
    { l with mnMap := m } = { l with mnMap := m' } := by
  rw [Std.ExtTreeMap.ext_getElem? h]

theorem updateStates_congr {g g' : CDeterministicMN → CDeterministicMNState}
    (h : ∀ (p : Uint256) dmn, l.mnMap[p]? = some dmn → g dmn = g' dmn) : l.updateStates g = l.updateStates g' := by
  refine setMap_congr fun p => ?_
  rw [Std.ExtTreeMap.getElem?_map, Std.ExtTreeMap.getElem?_map]
  cases hget : l.mnMap[p]? with
  | none => rfl
  | some dmn => simp [h p dmn hget]

theorem updateStates_self (l : CDeterministicMNList) : l.updateStates (·.pdmnState) = l := by
  rw [updateStates, Std.ExtTreeMap.map_id]

def andThen (g g' : CDeterministicMN → CDeterministicMNState) (dmn : CDeterministicMN) :
    CDeterministicMNState :=
  g' { dmn with pdmnState := g dmn }

theorem updateStates_updateStates (g g' : CDeterministicMN → CDeterministicMNState) :
    (l.updateStates g).updateStates g' = l.updateStates (andThen g g') := by
  simp only [updateStates, Std.ExtTreeMap.map_map, andThen]

theorem Keyed.updateStates (hl : l.Keyed) (g : CDeterministicMN → CDeterministicMNState) :
    (l.updateStates g).Keyed := by
  intro p dmn hget
  obtain ⟨d, hd, rfl⟩ := get_of_get_updateStates hget
  exact hl p d hd

theorem stateSlots_congr {nType : MnType} {s s' : CDeterministicMNState} (h : s.SameProperties s') :
    stateSlots C nType s = stateSlots C nType s' := by
  rw [stateSlots, stateSlots, h.addr, h.keyIDOwner, h.pubKeyOperator, h.platformNodeID]

theorem Indexed.updateStates_of_get (hl : Indexed C l)
    (hg : ∀ (p : Uint256) dmn, l.mnMap[p]? = some dmn → dmn.pdmnState.SameProperties (g dmn)) :
    Indexed C (l.updateStates g) where
  proTxHash := hl.keyed.updateStates g
  collateral := by
    intro p dmn hget
    obtain ⟨d, hd, rfl⟩ := get_of_get_updateStates hget
    exact hl.collateral p d hd
  internalId := by
    intro i p
    rw [get_updateStates]
    refine (hl.internalId i p).trans ?_
    cases l.mnMap[p]? <;> simp
  positive := hl.positive
  count := by
    intro p h
    refine (hl.count p h).trans ?_
    simp only [slotCount, get_updateStates]
    cases hget : l.mnMap[p]? with
    | none => rfl
    | some dmn => simp [slots, stateSlots_congr (hg p dmn hget)]

theorem Indexed.updateStates (hl : Indexed C l) (hg : ∀ dmn : CDeterministicMN, dmn.pdmnState.SameProperties (g dmn)) :
    Indexed C (l.updateStates g) :=
  hl.updateStates_of_get fun _ dmn _ => hg dmn

/-! ### Updates that keep the unique properties -/

theorem updateUniqueProperty_self {T : Type} [UniqueProperty T] {v : T}
    (hv : UniqueProperty.eq v v = true) : l.updateUniqueProperty C dmn v v = (true, l) := by
  simp [updateUniqueProperty, hv]

variable {s : CDeterministicMNState}

theorem updateEntry_same (h : dmn.pdmnState.SameProperties s) :
    l.updateEntry C dmn s = .ok { l with mnMap := l.mnMap.insert dmn.proTxHash { dmn with pdmnState := s } } := by
  have hprops : l.updateProperties C dmn s = .ok l := by
    have haddr : l.updateUniqueProperty C dmn s.addr s.addr = (true, l) :=
      updateUniqueProperty_self (decide_eq_true rfl)
    have howner : l.updateUniqueProperty C dmn s.keyIDOwner s.keyIDOwner = (true, l) :=
      updateUniqueProperty_self (decide_eq_true rfl)
    have hkey : l.updateUniqueProperty C dmn s.pubKeyOperator s.pubKeyOperator = (true, l) :=
      updateUniqueProperty_self (decide_eq_true rfl)
    have hnode : l.updateUniqueProperty C dmn s.platformNodeID s.platformNodeID = (true, l) :=
      updateUniqueProperty_self (decide_eq_true rfl)
    simp [updateProperties, h.addr, h.keyIDOwner, h.pubKeyOperator, h.platformNodeID, haddr,
      howner, hkey, hnode, ite_self, rollback_bind_eq_ok, rollback_eq_ok, Prod.mk.injEq, true_and,
      exists_eq_left']
  rw [updateEntry, hprops]
  rfl

section

variable (hl : l.Keyed) (hget : l.mnMap[p]? = some dmn)

include hl hget

theorem updateMN_same (h : dmn.pdmnState.SameProperties s) :
    l.updateMN C p s = .ok { l with mnMap := l.mnMap.insert p { dmn with pdmnState := s } } := by
  simp only [updateMN, hget]
  rw [updateEntry_same h, hl p dmn hget]

/-- Storing a state at one masternode is a map over the entries. -/
theorem updateMN_eq_updateStates (hs : dmn.pdmnState.SameProperties s) :
    l.updateMN C p s = .ok (l.updateStates fun d => if d.proTxHash = p then s else d.pdmnState) := by
  rw [updateMN_same hl hget hs]
  refine congrArg Except.ok (setMap_congr fun q => ?_)
  rw [Map.get_insert, Std.ExtTreeMap.getElem?_map]
  split_ifs with hq
  · rw [hq, hget]
    simp [hl p dmn hget]
  · cases hq' : l.mnMap[q]? with
    | none => rfl
    | some d =>
      have hne : d.proTxHash ≠ p := by rwa [hl q d hq']
      simp [hne]

theorem Keyed.eq_of_proTxHash {q : Uint256} {d : CDeterministicMN}
    (hd : l.mnMap[q]? = some d) (hp : d.proTxHash = p) : d = dmn := by
  rw [← hp, hl q d hd, hd, Option.some.injEq] at hget
  exact hget

end

/-- A loop over masternodes of the list that stores a state with the same unique properties at each,
or does nothing, is a map over the entries. -/
theorem foldlM_eq_updateStates {items : List CDeterministicMN}
    {step : CDeterministicMNList → CDeterministicMN → Except Thrown CDeterministicMNList} (hl : l.Keyed)
    (hnodup : (items.map (·.proTxHash)).Nodup) (hitems : ∀ d ∈ items, l.mnMap[d.proTxHash]? = some d)
    (hg : ∀ dmn : CDeterministicMN, dmn.pdmnState.SameProperties (g dmn))
    (hstep : ∀ d ∈ items, ∀ l' : CDeterministicMNList, l'.mnMap[d.proTxHash]? = some d →
      step l' d = l'.updateMN C d.proTxHash (g d) ∨ (step l' d = .ok l' ∧ g d = d.pdmnState)) :
    items.foldlM step l = .ok (l.updateStates fun d => if d ∈ items then g d else d.pdmnState) := by
  induction items generalizing l with
  | nil => simp [updateStates_self, pure, Except.pure]
  | cons dmn items ih =>
    rw [forall_mem_cons] at hitems hstep
    rw [map_cons, nodup_cons] at hnodup
    have hget := hitems.1
    -- one round stores `g dmn`, also when it does nothing
    have hround : step l dmn =
        .ok (l.updateStates fun d => if d.proTxHash = dmn.proTxHash then g dmn else d.pdmnState) := by
      rcases hstep.1 l hget with hupd | ⟨hskip, hsame⟩
      · rw [hupd]
        exact updateMN_eq_updateStates hl hget (hg dmn)
      · refine hskip.trans (congrArg Except.ok ((updateStates_self l).symm.trans (updateStates_congr fun q d hd => ?_)))
        split_ifs with hq
        · rw [hl.eq_of_proTxHash hget hd hq, hsame]
        · rfl
    rw [foldlM_cons, hround]
    refine (ih (hl.updateStates _) hnodup.2 (fun d hd => ?_) hstep.2).trans ?_
    · have hne : d.proTxHash ≠ dmn.proTxHash := fun heq => hnodup.1 (heq ▸ mem_map_of_mem hd)
      rw [get_updateStates, hitems.2 d hd, Option.map_some, if_neg hne]
    · rw [updateStates_updateStates]
      refine congrArg Except.ok (updateStates_congr fun q d hd => ?_)
      by_cases hq : d.proTxHash = dmn.proTxHash
      · obtain rfl := hl.eq_of_proTxHash hget hd hq
        have hnot : { d with pdmnState := g d } ∉ items := fun hmem => hnodup.1 (mem_map.mpr ⟨_, hmem, rfl⟩)
        simp [andThen, hnot]
      · have hne : d ≠ dmn := fun heq => hq (congrArg _ heq)
        simp [andThen, hq, hne]

/-! ### Iteration -/

variable {onlyValid : Bool}

theorem mem_forEachMN :
    dmn ∈ l.forEachMN onlyValid ↔
      (∃ p : Uint256, l.mnMap[p]? = some dmn) ∧ (onlyValid = true → isMNValidEntry dmn = true) := by
  cases onlyValid <;> simp [forEachMN, Map.mem_values]

theorem Keyed.get_of_mem (hl : l.Keyed) (hmem : dmn ∈ l.forEachMN onlyValid) : l.mnMap[dmn.proTxHash]? = some dmn := by
  obtain ⟨⟨p, hp⟩, -⟩ := mem_forEachMN.mp hmem
  rwa [hl p dmn hp]

theorem Keyed.nodup_forEachMN (hl : l.Keyed) (onlyValid : Bool) :
    ((l.forEachMN onlyValid).map (·.proTxHash)).Nodup := by
  have hall := Map.nodup_map_values (f := CDeterministicMN.proTxHash) l.mnMap hl
  exact hall.sublist (filter_sublist.map _)

theorem Keyed.nodup_filter (hl : l.Keyed) (onlyValid : Bool) (cond : CDeterministicMN → Bool) :
    (((l.forEachMN onlyValid).filter cond).map (·.proTxHash)).Nodup :=
  (hl.nodup_forEachMN onlyValid).sublist (filter_sublist.map _)

/-- A loop over the masternodes that satisfy a condition. -/
theorem Keyed.foldlM_filter (hl : l.Keyed) (onlyValid : Bool) (cond : CDeterministicMN → Bool)
    {step : CDeterministicMNList → CDeterministicMN → Except Thrown CDeterministicMNList}
    (hg : ∀ dmn : CDeterministicMN, dmn.pdmnState.SameProperties (g dmn))
    (hstep : ∀ d ∈ (l.forEachMN onlyValid).filter cond, ∀ l' : CDeterministicMNList, l'.mnMap[d.proTxHash]? = some d →
      step l' d = l'.updateMN C d.proTxHash (g d) ∨ (step l' d = .ok l' ∧ g d = d.pdmnState)) :
    ((l.forEachMN onlyValid).filter cond).foldlM step l = .ok (l.updateStates fun d =>
      if (onlyValid = true → isMNValidEntry d = true) ∧ cond d = true then g d else d.pdmnState) := by
  rw [foldlM_eq_updateStates hl (hl.nodup_filter onlyValid cond)
    (fun d hd => hl.get_of_mem (mem_of_mem_filter hd)) hg hstep]
  refine congrArg Except.ok (updateStates_congr fun p d hd => if_congr ?_ rfl rfl)
  rw [mem_filter, mem_forEachMN, and_iff_right (by exact ⟨p, hd⟩ : ∃ p : Uint256, l.mnMap[p]? = some d)]

end CDeterministicMNList

/-! ### The phases -/

variable {E : Env} {ctx : BlockContext} {l : CDeterministicMNList} {nHeight : Int}

def confirmedState (E : Env) (ctx : BlockContext) (dmn : CDeterministicMN) : CDeterministicMNState :=
  if dmn.pdmnState.confirmedHash ≠ 0 then dmn.pdmnState
  else if ctx.pindexPrev.nHeight - dmn.pdmnState.nRegisteredHeight ≥
      E.params.nMasternodeMinimumConfirmations then
    dmn.pdmnState.updateConfirmedHash E.sha256 dmn.proTxHash ctx.pindexPrev.getBlockHash
  else dmn.pdmnState

variable (payee : Option CDeterministicMN) (dmn : CDeterministicMN)

def decreasedState : CDeterministicMNState :=
  if isMNValidEntry dmn ∧ dmn.pdmnState.nPoSePenalty > 0 then
    { dmn.pdmnState with nPoSePenalty := dmn.pdmnState.nPoSePenalty - 1 }
  else dmn.pdmnState

def bannedState (nHeight : Int) (cond : CDeterministicMN → Bool) (dmn : CDeterministicMN) :
    CDeterministicMNState :=
  if isMNValidEntry dmn ∧ cond dmn then dmn.pdmnState.banIfNotBanned nHeight else dmn.pdmnState

def payeeState (nHeight : Int) (payee : Option CDeterministicMN) (dmn : CDeterministicMN) :
    CDeterministicMNState :=
  if payee.any (fun p => dmn.proTxHash == p.proTxHash) then paidState nHeight dmn else dmn.pdmnState

def resetState : CDeterministicMNState :=
  if needsReset payee dmn then { dmn.pdmnState with nConsecutivePayments := 0 } else dmn.pdmnState

theorem confirmedState_same : dmn.pdmnState.SameProperties (confirmedState E ctx dmn) := by
  unfold confirmedState
  split_ifs <;> exact ⟨rfl, rfl, rfl, rfl⟩

theorem decreasedState_same : dmn.pdmnState.SameProperties (decreasedState dmn) := by
  unfold decreasedState
  split_ifs <;> exact ⟨rfl, rfl, rfl, rfl⟩

theorem bannedState_same (cond : CDeterministicMN → Bool) (dmn : CDeterministicMN) :
    dmn.pdmnState.SameProperties (bannedState nHeight cond dmn) := by
  unfold bannedState
  split_ifs
  · exact CDeterministicMNState.sameProperties_banIfNotBanned _ _
  · exact .refl _

theorem paidState_same : dmn.pdmnState.SameProperties (paidState nHeight dmn) := by
  simp only [paidState]
  split_ifs <;> exact ⟨rfl, rfl, rfl, rfl⟩

theorem payeeState_same : dmn.pdmnState.SameProperties (payeeState nHeight payee dmn) := by
  unfold payeeState
  split_ifs
  · exact paidState_same dmn
  · exact .refl _

theorem resetState_same : dmn.pdmnState.SameProperties (resetState payee dmn) := by
  unfold resetState
  split_ifs <;> exact ⟨rfl, rfl, rfl, rfl⟩

theorem confirmMNs_eq {oldList : CDeterministicMNList} (hl : l.Keyed) (hmap : oldList.mnMap = l.mnMap) :
    confirmMNs E ctx oldList l = .ok (l.updateStates (confirmedState E ctx)) := by
  have hall : oldList.forEachMN false = (l.forEachMN false).filter fun _ => true := by simp [forEachMN, hmap]
  rw [confirmMNs, hall, hl.foldlM_filter (C := E.toCodec) (g := confirmedState E ctx) false _ confirmedState_same]
  · simp
  · intro dmn _ l' _
    unfold confirmMN confirmedState
    split_ifs
    · exact .inr ⟨rfl, rfl⟩
    · exact .inl rfl
    · exact .inr ⟨rfl, rfl⟩

theorem decreasePoSePenalties_eq (hl : l.Keyed) : decreasePoSePenalties E l = .ok (l.updateStates decreasedState) := by
  rw [decreasePoSePenalties, foldlM_map, hl.foldlM_filter (C := E.toCodec)
    (g := fun dmn => { dmn.pdmnState with nPoSePenalty := dmn.pdmnState.nPoSePenalty - 1 }) true _
    fun _ => ⟨rfl, rfl, rfl, rfl⟩]
  · simp only [forall_const, decide_eq_true_eq]
    rfl
  · intro dmn hmem l' hget
    obtain ⟨hmem, hpen⟩ := mem_filter.mp hmem
    have hvalid := (mem_forEachMN.mp hmem).2 rfl
    have hpen' : ¬ dmn.pdmnState.nPoSePenalty ≤ 0 := by simpa using hpen
    have hban : dmn.pdmnState.isBanned = false := by
      simpa [isMNValidEntry, isMNPoSeBannedEntry] using hvalid
    simp [poSeDecrease, getMN, hget, hpen', hban]

theorem banWhere_eq (hl : l.Keyed) (cond : CDeterministicMN → Bool) :
    banWhere E nHeight cond l = .ok (l.updateStates (bannedState nHeight cond)) := by
  rw [banWhere, foldlM_map, hl.foldlM_filter (C := E.toCodec)
    (g := fun dmn => dmn.pdmnState.banIfNotBanned nHeight) true cond
    fun _ => CDeterministicMNState.sameProperties_banIfNotBanned _ _]
  · simp only [forall_const]
    rfl
  · intro dmn _ l' hget
    simp [banMN, getMN, hget]

theorem payPayee_eq (hl : l.Keyed) (payee : Option CDeterministicMN) :
    payPayee E nHeight payee l = .ok (l.updateStates (payeeState nHeight payee)) := by
  have hskip (h : ∀ (p : Uint256) dmn, l.mnMap[p]? = some dmn →
      payee.any (fun q => dmn.proTxHash == q.proTxHash) = false) :
      l.updateStates (payeeState nHeight payee) = l := by
    refine (updateStates_congr fun p dmn hget => ?_).trans (updateStates_self l)
    simp [payeeState, h p dmn hget]
  cases payee with
  | none => rw [hskip (by simp)]; rfl
  | some q =>
    simp only [payPayee, getMN]
    cases hget : l.mnMap[q.proTxHash]? with
    | none =>
      rw [hskip]
      intro p dmn hp
      have hne : dmn.proTxHash ≠ q.proTxHash := by
        intro heq
        rw [← heq, hl p dmn hp, hp] at hget
        cases hget
      simp [hne]
    | some dmn =>
      dsimp only
      rw [updateMN_eq_updateStates hl hget (paidState_same dmn)]
      refine congrArg Except.ok (updateStates_congr fun p d hd => ?_)
      by_cases hp : d.proTxHash = q.proTxHash
      · simp [payeeState, hl.eq_of_proTxHash hget hd hp, hl _ dmn hget]
      · simp [payeeState, hp]

theorem resetConsecutivePayments_eq (hl : l.Keyed) (payee : Option CDeterministicMN) :
    resetConsecutivePayments E payee l = .ok (l.updateStates (resetState payee)) := by
  rw [resetConsecutivePayments, hl.foldlM_filter (C := E.toCodec)
    (g := fun dmn => { dmn.pdmnState with nConsecutivePayments := 0 }) false _ fun _ => ⟨rfl, rfl, rfl, rfl⟩]
  · simp only [Bool.false_eq_true, false_implies, true_and]
    rfl
  · exact fun dmn _ l' _ => .inl rfl

end OmegaCore.Evo
