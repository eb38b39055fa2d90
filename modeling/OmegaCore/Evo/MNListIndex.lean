import OmegaCore.Evo.MNList
import OmegaCore.Util.Except

/-!
The index invariant of a masternode list.  A property step touches nothing but the
property map: the hash of the old value goes, the hash of the new one comes, and an
operation that throws leaves the list as it was.  `Indexed` says that the entries are
stored under their own `proTxHash`, that `mnInternalIdMap` is the inverse of their
internal ids, and that `mnUniquePropertyMap` counts, for every masternode, how many of
its unique properties have a given hash.  Every operation keeps it, but for an `UpdateMN`
that replaces the operator key by the same key in the other encoding.  The entries of an
indexed list determine its indexes.
-/

namespace OmegaCore.Evo.CDeterministicMNList

open Util OwnerCount

variable {C : Codec} {l l' : CDeterministicMNList} {dmn : CDeterministicMN} {b : Bool}

/-! ### Null values and hashes -/

@[simp]
theorem isNullValue_outPoint (v : COutPoint) : isNullValue v = decide (v = {}) := rfl

@[simp]
theorem isNullValue_service (v : CService) : isNullValue v = decide (v = {}) := rfl

@[simp]
theorem isNullValue_uint160 (v : Uint160) : isNullValue v = decide (v = 0) := rfl

@[simp]
theorem isNullValue_pubKey (v : CBLSLazyPublicKey) : isNullValue v = !v.isValid := by
  cases v <;> rfl

section Hashes

variable {T : Type} [UniqueProperty T]

def propertyHashes (C : Codec) (v : T) : List Uint256 :=
  if isNullValue v then [] else [getUniquePropertyHash C v]

theorem propertyHashes_of_null {v : T} (hv : isNullValue v = true) : propertyHashes C v = [] := by
  simp [propertyHashes, hv]

theorem propertyHashes_of_ne_null {v : T} (hv : isNullValue v = false) :
    propertyHashes C v = [getUniquePropertyHash C v] := by
  simp [propertyHashes, hv]

/-- The hashes `UpdateUniqueProperty` leaves: a value that compares equal is not touched. -/
def updatedHashes (C : Codec) (v w : T) : List Uint256 :=
  if UniqueProperty.eq v w then propertyHashes C v else propertyHashes C w

theorem updatedHashes_eq {v w : T} (heq : UniqueProperty.eq v w = true → v = w) :
    updatedHashes C v w = propertyHashes C w := by
  unfold updatedHashes
  split_ifs with h
  · rw [heq h]
  · rfl

end Hashes

def stateSlots (C : Codec) (nType : MnType) (s : CDeterministicMNState) : List Uint256 :=
  propertyHashes C s.addr ++ propertyHashes C s.keyIDOwner ++ propertyHashes C s.pubKeyOperator ++
    if nType = .highPerformance then propertyHashes C s.platformNodeID else []

def updatedSlots (C : Codec) (nType : MnType) (s s' : CDeterministicMNState) : List Uint256 :=
  updatedHashes C s.addr s'.addr ++ updatedHashes C s.keyIDOwner s'.keyIDOwner ++
    updatedHashes C s.pubKeyOperator s'.pubKeyOperator ++
    if nType = .highPerformance then updatedHashes C s.platformNodeID s'.platformNodeID else []

/-- An operator key in its other encoding compares equal and keeps the hash of the old one. -/
theorem updatedSlots_eq (nType : MnType) {s s' : CDeterministicMNState}
    (hno : ¬ s.pubKeyOperator.Reencodes s'.pubKeyOperator) : updatedSlots C nType s s' = stateSlots C nType s' := by
  unfold updatedSlots stateSlots
  rw [updatedHashes_eq (v := s.addr) of_decide_eq_true, updatedHashes_eq (v := s.keyIDOwner) of_decide_eq_true,
    updatedHashes_eq (v := s.platformNodeID) of_decide_eq_true, updatedHashes_eq fun h =>
      CBLSLazyPublicKey.eq_of_not_reencodes (CBLSLazyPublicKey.eq_iff.mp h) hno]

/-- The hashes of a masternode's unique properties: its collateral outpoint, and each of its
address, owner key id, operator key and (high-performance only) platform node id that is set. -/
def slots (C : Codec) (dmn : CDeterministicMN) : List Uint256 :=
  getUniquePropertyHash C dmn.collateralOutpoint :: stateSlots C dmn.nType dmn.pdmnState

/-! ### Property steps -/

def OnlyProperties (l l' : CDeterministicMNList) : Prop :=
  { l' with mnUniquePropertyMap := l.mnUniquePropertyMap } = l

theorem onlyProperties_refl (l : CDeterministicMNList) : OnlyProperties l l := rfl

theorem onlyProperties_set (l : CDeterministicMNList) (u : MnUniquePropertyMap) :
    OnlyProperties l { l with mnUniquePropertyMap := u } := rfl

theorem OnlyProperties.eq (h : OnlyProperties l l') :
    l' = { l with mnUniquePropertyMap := l'.mnUniquePropertyMap } := by
  rw [← h]

theorem OnlyProperties.trans {l₁ l₂ l₃ : CDeterministicMNList} (h₁ : OnlyProperties l₁ l₂)
    (h₂ : OnlyProperties l₂ l₃) : OnlyProperties l₁ l₃ := by
  rw [h₁.eq] at h₂
  rw [h₂.eq]
  exact onlyProperties_set l₁ _

/-- What a property operation does for masternode `p`: it changes nothing but the property map,
when it succeeds then `ok` holds and the references `dels` have become `adds`, and it succeeds
when `ok` holds, `p` holds `dels` and nobody else holds one of `adds`. -/
structure Moves (p : Uint256) (ok : Prop) (dels adds : List Uint256)
    (op : CDeterministicMNList → Bool × CDeterministicMNList) : Prop where
  frame : ∀ l, OnlyProperties l (op l).2
  shifts : ∀ l l', Positive l.mnUniquePropertyMap → op l = (true, l') →
    ok ∧ Shifts p dels adds l.mnUniquePropertyMap l'.mnUniquePropertyMap
  succeeds : ∀ l, Positive l.mnUniquePropertyMap → ok →
    Holds l.mnUniquePropertyMap p dels → Free l.mnUniquePropertyMap p adds →
    ∃ l', op l = (true, l')

section Moves

variable {p : Uint256} {ok : Prop} {dels adds : List Uint256}
variable {op : CDeterministicMNList → Bool × CDeterministicMNList}

theorem moves_skip (p : Uint256) (hs : List Uint256) : Moves p True hs hs fun l => (true, l) where
  frame := onlyProperties_refl
  shifts l l' hpos hop := by
    cases hop
    exact ⟨trivial, .refl hpos p hs⟩
  succeeds l _ _ _ _ := ⟨l, rfl⟩

theorem Moves.of_ok (h : Moves p ok dels adds op) (hok : ok) : Moves p True dels adds op where
  frame := h.frame
  shifts l l' hpos hop := ⟨trivial, (h.shifts l l' hpos hop).2⟩
  succeeds l hpos _ := h.succeeds l hpos hok

theorem Moves.guard (h : Moves p True dels adds op) (c : Prop) [Decidable c] :
    Moves p True (if c then dels else []) (if c then adds else []) fun l => if c then op l else (true, l) := by
  split_ifs
  · exact h
  · exact moves_skip p []

variable {T : Type} [UniqueProperty T] {v w : T}

/-- Both templates refuse a null value and otherwise run one operation of the property map. -/
theorem moves_of_map {g : MnUniquePropertyMap → Option MnUniquePropertyMap}
    (hop : ∀ l, op l = if isNullValue v then (false, l)
      else match g l.mnUniquePropertyMap with
        | some u => (true, { l with mnUniquePropertyMap := u })
        | none => (false, l))
    (hshift : ∀ u u', isNullValue v = false → Positive u → g u = some u' →
      Shifts p dels adds u u')
    (hrun : ∀ u, isNullValue v = false → Positive u → Holds u p dels →
      Free u p adds → ∃ u', g u = some u') :
    Moves p (isNullValue v = false) dels adds op where
  frame l := by
    rw [hop]
    split_ifs
    · exact onlyProperties_refl l
    · split
      · exact onlyProperties_set l _
      · exact onlyProperties_refl l
  shifts l l' hpos heq := by
    rw [hop] at heq
    split_ifs at heq with hv
    · cases heq
    · split at heq
      · next u hu =>
        cases heq
        rw [Bool.not_eq_true] at hv
        exact ⟨hv, hshift _ u hv hpos hu⟩
      · cases heq
  succeeds l hpos hv hheld hfree := by
    obtain ⟨u, hu⟩ := hrun _ hv hpos hheld hfree
    rw [hop, hv, hu]
    exact ⟨_, rfl⟩

theorem addUniqueProperty_moves : Moves dmn.proTxHash (isNullValue v = false) [] (propertyHashes C v)
      fun l => l.addUniqueProperty C dmn v := by
  refine moves_of_map (g := fun u => acquire u dmn.proTxHash (getUniquePropertyHash C v)) ?_ ?_ ?_
  · intro l
    unfold addUniqueProperty acquire
    split_ifs
    · rfl
    · rcases l.mnUniquePropertyMap[getUniquePropertyHash C v]? with _ | ⟨owner, cnt⟩
      · rfl
      · by_cases ho : owner = dmn.proTxHash <;> simp [ho]
  · intro u u' hv hpos hu
    rw [propertyHashes_of_ne_null hv]
    exact shifts_of_acquire hpos hu
  · intro u hv hpos _ hfree
    rw [propertyHashes_of_ne_null hv] at hfree
    exact exists_acquire (hfree _ List.mem_cons_self) hpos

theorem deleteUniqueProperty_moves : Moves dmn.proTxHash (isNullValue v = false) (propertyHashes C v) []
      fun l => l.deleteUniqueProperty C dmn v := by
  refine moves_of_map (g := fun u => release u dmn.proTxHash (getUniquePropertyHash C v)) ?_ ?_ ?_
  · intro l
    unfold deleteUniqueProperty release
    split_ifs
    · rfl
    · rcases l.mnUniquePropertyMap[getUniquePropertyHash C v]? with _ | ⟨owner, cnt⟩
      · rfl
      · by_cases ho : owner = dmn.proTxHash
        · by_cases hc : cnt = 1 <;> simp [ho, hc]
        · simp [ho]
  · intro u u' hv hpos hu
    rw [propertyHashes_of_ne_null hv]
    exact shifts_of_release hpos hu
  · intro u hv _ hheld _
    rw [propertyHashes_of_ne_null hv] at hheld
    have hle := hheld (getUniquePropertyHash C v)
    rw [List.count_singleton_self] at hle
    exact exists_release hle

theorem addIfSet_moves : Moves dmn.proTxHash True [] (propertyHashes C v) fun l => l.addIfSet C dmn v := by
  unfold addIfSet
  split_ifs with hv
  · rw [propertyHashes_of_null hv]
    exact moves_skip _ []
  · exact addUniqueProperty_moves.of_ok (by simpa using hv)

theorem deleteIfSet_moves : Moves dmn.proTxHash True (propertyHashes C v) [] fun l => l.deleteIfSet C dmn v := by
  unfold deleteIfSet
  split_ifs with hv
  · rw [propertyHashes_of_null hv]
    exact moves_skip _ []
  · exact deleteUniqueProperty_moves.of_ok (by simpa using hv)

theorem updateUniqueProperty_moves : Moves dmn.proTxHash True (propertyHashes C v) (updatedHashes C v w)
      fun l => l.updateUniqueProperty C dmn v w := by
  have hdel : Moves dmn.proTxHash True (propertyHashes C v) [] _ := deleteIfSet_moves
  have hadd : Moves dmn.proTxHash True [] (propertyHashes C w) _ := addIfSet_moves
  unfold updateUniqueProperty updatedHashes
  split_ifs
  · exact moves_skip _ _
  · refine ⟨fun l => ?_, fun l l' hpos hop => ?_, fun l hpos _ hheld hfree => ?_⟩
    · have hframe := hdel.frame l
      rcases hd : l.deleteIfSet C dmn v with ⟨deleted, l₁⟩
      rw [hd] at hframe
      cases deleted with
      | false => exact hframe
      | true => exact hframe.trans (hadd.frame l₁)
    · split at hop
      · cases hop
      · next l₁ hd =>
        have hshift := (hdel.shifts l l₁ hpos hd).2
        have hshift' := (hadd.shifts l₁ l' hshift.positive hop).2
        exact ⟨trivial, by simpa using hshift.trans hshift'⟩
    · obtain ⟨l₁, hd⟩ := hdel.succeeds l hpos trivial hheld fun _ hh => by cases hh
      have hshift := (hdel.shifts l l₁ hpos hd).2
      simp only [hd]
      exact hadd.succeeds l₁ hshift.positive trivial (fun _ => Nat.zero_le _) (hshift.free hfree)

end Moves

/-! ### Throwing and rolling back -/

variable {saved : MnUniquePropertyMap} {e : ListError} {st : Bool × CDeterministicMNList}
variable {f : CDeterministicMNList → Except Thrown CDeterministicMNList} {t : Thrown}

theorem rollback_eq_ok : rollback saved e st = .ok l' ↔ st = (true, l') := by
  rcases st with ⟨b, l₁⟩
  cases b <;> simp [rollback]

theorem rollback_bind_eq_ok : (rollback saved e st >>= f) = .ok l' ↔ ∃ l₁, st = (true, l₁) ∧ f l₁ = .ok l' := by
  simp only [bind_eq_ok, rollback_eq_ok]

/-- The same for the rest `r` of an operation on `l`, run from the list `l₁` that its first property
steps have left: when it throws, the list is `l` again. -/
structure Rolls (l l₁ : CDeterministicMNList) (p : Uint256) (ok : Prop) (dels adds : List Uint256)
    (r : Except Thrown CDeterministicMNList) : Prop where
  frame : ∀ {l'}, r = .ok l' → OnlyProperties l₁ l'
  left : OnlyProperties l l₁ → ∀ {t}, r = .error t → t.left = l
  shifts : ∀ {l'}, Positive l₁.mnUniquePropertyMap → r = .ok l' →
    ok ∧ Shifts p dels adds l₁.mnUniquePropertyMap l'.mnUniquePropertyMap
  succeeds : Positive l₁.mnUniquePropertyMap → ok →
    Holds l₁.mnUniquePropertyMap p dels → Free l₁.mnUniquePropertyMap p adds →
    ∃ l', r = .ok l'

section Rolls

variable {l₁ : CDeterministicMNList} {p : Uint256} {ok ok' : Prop}
variable {dels adds dels' adds' : List Uint256}
variable {op : CDeterministicMNList → Bool × CDeterministicMNList}

theorem Moves.rolls (h : Moves p ok dels adds op) :
    Rolls l l₁ p ok dels adds (rollback l.mnUniquePropertyMap e (op l₁)) where
  frame hok := by
    have hframe := h.frame l₁
    rwa [rollback_eq_ok.mp hok] at hframe
  left hl₁ t hthrow := by
    unfold rollback at hthrow
    split_ifs at hthrow
    cases hthrow
    exact hl₁.trans (h.frame l₁)
  shifts hpos hok := h.shifts l₁ _ hpos (rollback_eq_ok.mp hok)
  succeeds hpos hok hheld hfree := by
    simpa only [rollback_eq_ok] using h.succeeds l₁ hpos hok hheld hfree

theorem Moves.rolls_bind (h : Moves p ok dels adds op) (hf : ∀ l₂, Rolls l l₂ p ok' dels' adds' (f l₂)) :
    Rolls l l₁ p (ok ∧ ok') (dels ++ dels') (adds ++ adds') (rollback l.mnUniquePropertyMap e (op l₁) >>= f) where
  frame hok := by
    obtain ⟨l₂, h₂, hrest⟩ := bind_eq_ok.mp hok
    exact (h.rolls.frame h₂).trans ((hf l₂).frame hrest)
  left hl₁ t hthrow := by
    rcases bind_eq_error.mp hthrow with hthrow | ⟨l₂, h₂, hthrow⟩
    · exact h.rolls.left hl₁ hthrow
    · exact (hf l₂).left (hl₁.trans (h.rolls.frame h₂)) hthrow
  shifts hpos hok := by
    obtain ⟨l₂, h₂, hrest⟩ := bind_eq_ok.mp hok
    obtain ⟨hfirst, hshift⟩ := h.rolls.shifts hpos h₂
    obtain ⟨hsecond, hshift'⟩ := (hf l₂).shifts hshift.positive hrest
    exact ⟨⟨hfirst, hsecond⟩, hshift.trans hshift'⟩
  succeeds hpos hok hheld hfree := by
    have hfirst : Rolls l l₁ p ok dels adds (rollback l.mnUniquePropertyMap e (op l₁)) := h.rolls
    obtain ⟨l₂, h₂⟩ := hfirst.succeeds hpos hok.1
      (fun k => ((List.sublist_append_left dels dels').count_le k).trans (hheld k))
      fun k hk => hfree k (List.mem_append_left _ hk)
    have hshift := (hfirst.shifts hpos h₂).2
    obtain ⟨l', hrest⟩ := (hf l₂).succeeds hshift.positive hok.2 (hshift.holds hheld)
      (hshift.free fun k hk => hfree k (List.mem_append_right _ hk))
    exact ⟨l', bind_eq_ok.mpr ⟨l₂, h₂, hrest⟩⟩

end Rolls

section

variable (l dmn)

theorem addProperties_rolls : Rolls l l dmn.proTxHash (dmn.collateralOutpoint ≠ {} ∧ dmn.pdmnState.keyIDOwner ≠ 0) []
      (propertyHashes C dmn.collateralOutpoint ++ stateSlots C dmn.nType dmn.pdmnState)
      (l.addProperties C dmn) := by
  have h : Rolls l l dmn.proTxHash _ _ _ (l.addProperties C dmn) :=
    addUniqueProperty_moves.rolls_bind fun _ => addIfSet_moves.rolls_bind fun _ =>
      addUniqueProperty_moves.rolls_bind fun _ => addIfSet_moves.rolls_bind fun _ =>
        (addIfSet_moves.guard _).rolls
  simpa [stateSlots] using h

theorem deleteProperties_rolls : Rolls l l dmn.proTxHash (dmn.collateralOutpoint ≠ {} ∧ dmn.pdmnState.keyIDOwner ≠ 0)
      (propertyHashes C dmn.collateralOutpoint ++ stateSlots C dmn.nType dmn.pdmnState) []
      (l.deleteProperties C dmn) := by
  have h : Rolls l l dmn.proTxHash _ _ _ (l.deleteProperties C dmn) :=
    deleteUniqueProperty_moves.rolls_bind fun _ => deleteIfSet_moves.rolls_bind fun _ =>
      deleteUniqueProperty_moves.rolls_bind fun _ => deleteIfSet_moves.rolls_bind fun _ =>
        (deleteIfSet_moves.guard _).rolls
  simpa [stateSlots] using h

theorem updateProperties_rolls (s : CDeterministicMNState) :
    Rolls l l dmn.proTxHash True (stateSlots C dmn.nType dmn.pdmnState)
      (updatedSlots C dmn.nType dmn.pdmnState s) (l.updateProperties C dmn s) := by
  have h : Rolls l l dmn.proTxHash _ _ _ (l.updateProperties C dmn s) :=
    updateUniqueProperty_moves.rolls_bind fun _ => updateUniqueProperty_moves.rolls_bind fun _ =>
      updateUniqueProperty_moves.rolls_bind fun _ => (updateUniqueProperty_moves.guard _).rolls
  simpa [stateSlots, updatedSlots] using h

end

theorem addMN_left (hthrow : l.addMN C dmn b = .error t) : t.left = l := by
  unfold addMN at hthrow
  split_ifs at hthrow
  · cases hthrow
    rfl
  · cases hthrow
    rfl
  · rw [bind_eq_error] at hthrow
    rcases hthrow with hthrow | ⟨l₁, -, hthrow⟩
    · exact (addProperties_rolls l dmn).left rfl hthrow
    · cases hthrow

variable {s : CDeterministicMNState}

theorem updateEntry_left (hthrow : l.updateEntry C dmn s = .error t) : t.left = l := by
  rw [updateEntry, bind_eq_error] at hthrow
  rcases hthrow with hthrow | ⟨l₁, -, hthrow⟩
  · exact (updateProperties_rolls l dmn s).left rfl hthrow
  · cases hthrow

variable {p : Uint256}

theorem updateMN_left (hthrow : l.updateMN C p s = .error t) : t.left = l := by
  unfold updateMN at hthrow
  split at hthrow
  · cases hthrow
    rfl
  · exact updateEntry_left hthrow

theorem removeMN_left (hthrow : l.removeMN C p = .error t) : t.left = l := by
  unfold removeMN at hthrow
  split at hthrow
  · cases hthrow
    rfl
  · next dmn _ =>
    rw [bind_eq_error] at hthrow
    rcases hthrow with hthrow | ⟨l₁, -, hthrow⟩
    · exact (deleteProperties_rolls l dmn).left rfl hthrow
    · cases hthrow

theorem sameProperties_punishedState (l : CDeterministicMNList) (s : CDeterministicMNState)
    (n : Int) : s.SameProperties (l.punishedState s n) := by
  simp only [punishedState]
  split_ifs
  · refine .trans ?_ (CDeterministicMNState.sameProperties_banIfNotBanned _ _)
    exact ⟨rfl, rfl, rfl, rfl⟩
  · exact ⟨rfl, rfl, rfl, rfl⟩

theorem poSePunish_left {n : Int} (hthrow : l.poSePunish C p n = .error t) : t.left = l := by
  unfold poSePunish at hthrow
  split_ifs at hthrow
  · cases hthrow
    rfl
  · split at hthrow
    · cases hthrow
      rfl
    · exact updateMN_left hthrow

theorem poSeDecrease_left (hthrow : l.poSeDecrease C p = .error t) : t.left = l := by
  unfold poSeDecrease at hthrow
  split at hthrow
  · cases hthrow
    rfl
  · split_ifs at hthrow
    · cases hthrow
      rfl
    · exact updateMN_left hthrow

/-! ### Successful operations -/

theorem slots_eq (hcol : dmn.collateralOutpoint ≠ {}) :
    slots C dmn = propertyHashes C dmn.collateralOutpoint ++ stateSlots C dmn.nType dmn.pdmnState := by
  rw [propertyHashes_of_ne_null (by simpa using hcol)]
  rfl

section

variable (hpos : Positive l.mnUniquePropertyMap)

include hpos

theorem addMN_ok (hadd : l.addMN C dmn b = .ok l') :
    l.mnMap[dmn.proTxHash]? = none ∧ l.mnInternalIdMap[dmn.internalId.val]? = none ∧
      dmn.collateralOutpoint ≠ {} ∧ dmn.pdmnState.keyIDOwner ≠ 0 ∧
      ∃ u, Shifts dmn.proTxHash [] (slots C dmn) l.mnUniquePropertyMap u ∧
        l' = { l with
          nTotalRegisteredCount := l.bumpedCount dmn b
          mnMap := l.mnMap.insert dmn.proTxHash dmn
          mnInternalIdMap := l.mnInternalIdMap.insert dmn.internalId.val dmn.proTxHash
          mnUniquePropertyMap := u } := by
  unfold addMN at hadd
  split_ifs at hadd with hmn hid
  rw [bind_eq_ok] at hadd
  obtain ⟨l₁, h₁, hres⟩ := hadd
  have hrolls := addProperties_rolls (C := C) l dmn
  obtain ⟨⟨hcol, hown⟩, hshift⟩ := hrolls.shifts hpos h₁
  rw [← slots_eq hcol] at hshift
  rw [(hrolls.frame h₁).eq] at hres
  cases hres
  exact ⟨by simpa using hmn, by simpa using hid, hcol, hown, _, hshift, rfl⟩

theorem updateEntry_ok (hno : ¬ dmn.pdmnState.pubKeyOperator.Reencodes s.pubKeyOperator)
    (hupd : l.updateEntry C dmn s = .ok l') :
    ∃ u, Shifts dmn.proTxHash (stateSlots C dmn.nType dmn.pdmnState)
        (stateSlots C dmn.nType s) l.mnUniquePropertyMap u ∧
      l' = { l with
        mnMap := l.mnMap.insert dmn.proTxHash { dmn with pdmnState := s }
        mnUniquePropertyMap := u } := by
  rw [updateEntry, bind_eq_ok] at hupd
  obtain ⟨l₁, h₁, hres⟩ := hupd
  have hrolls := updateProperties_rolls (C := C) l dmn s
  have hshift := (hrolls.shifts hpos h₁).2
  rw [updatedSlots_eq _ hno] at hshift
  rw [(hrolls.frame h₁).eq] at hres
  cases hres
  exact ⟨_, hshift, rfl⟩

theorem removeMN_ok (hrem : l.removeMN C p = .ok l') :
    ∃ dmn, l.mnMap[p]? = some dmn ∧
      ∃ u, Shifts dmn.proTxHash (slots C dmn) [] l.mnUniquePropertyMap u ∧
        l' = { l with
          mnMap := l.mnMap.erase p
          mnInternalIdMap := l.mnInternalIdMap.erase dmn.internalId.val
          mnUniquePropertyMap := u } := by
  unfold removeMN getMN at hrem
  split at hrem
  · cases hrem
  · next dmn hget =>
    rw [bind_eq_ok] at hrem
    obtain ⟨l₁, h₁, hres⟩ := hrem
    have hrolls := deleteProperties_rolls (C := C) l dmn
    obtain ⟨⟨hcol, -⟩, hshift⟩ := hrolls.shifts hpos h₁
    rw [← slots_eq hcol] at hshift
    rw [(hrolls.frame h₁).eq] at hres
    cases hres
    exact ⟨dmn, hget, _, hshift, rfl⟩

end

/-! ### The fields that are not maps -/

def header (l : CDeterministicMNList) : Uint256 × Int × Fin (2 ^ 32) :=
  (l.blockHash, l.nHeight, l.nTotalRegisteredCount)

theorem OnlyProperties.header_eq (h : OnlyProperties l l') : l'.header = l.header := by
  rw [h.eq]
  rfl

theorem removeMN_header (hrem : l.removeMN C p = .ok l') : l'.header = l.header := by
  unfold removeMN at hrem
  split at hrem
  · cases hrem
  · rw [bind_eq_ok] at hrem
    obtain ⟨l₁, h₁, hres⟩ := hrem
    cases hres
    exact ((deleteProperties_rolls l _).frame h₁).header_eq

theorem updateEntry_header (hupd : l.updateEntry C dmn s = .ok l') : l'.header = l.header := by
  rw [updateEntry, bind_eq_ok] at hupd
  obtain ⟨l₁, h₁, hres⟩ := hupd
  cases hres
  exact ((updateProperties_rolls l dmn s).frame h₁).header_eq

theorem addMN_header (hadd : l.addMN C dmn b = .ok l') : l'.header = (l.blockHash, l.nHeight, l.bumpedCount dmn b) := by
  unfold addMN at hadd
  split_ifs at hadd
  rw [bind_eq_ok] at hadd
  obtain ⟨l₁, h₁, hres⟩ := hadd
  cases hres
  rw [((addProperties_rolls l dmn).frame h₁).eq]
  rfl

open Option

variable {p q h : Uint256}

/-- How many of the slots of masternode `p` have hash `h`. -/
def slotCount (C : Codec) (l : CDeterministicMNList) (p h : Uint256) : ℕ :=
  match l.mnMap[p]? with
  | some dmn => (slots C dmn).count h
  | none => 0

structure Indexed (C : Codec) (l : CDeterministicMNList) : Prop where
  proTxHash : ∀ (p : Uint256) dmn, l.mnMap[p]? = some dmn → dmn.proTxHash = p
  collateral : ∀ (p : Uint256) dmn, l.mnMap[p]? = some dmn → dmn.collateralOutpoint ≠ {}
  internalId : ∀ (i : ℕ) p, l.mnInternalIdMap[i]? = some p ↔ ∃ dmn, l.mnMap[p]? = some dmn ∧ dmn.internalId.val = i
  positive : OwnerCount.Positive l.mnUniquePropertyMap
  count : ∀ p h, OwnerCount.count l.mnUniquePropertyMap p h = slotCount C l p h

variable (hl : Indexed C l) (hget : l.mnMap[p]? = some dmn)

include hget in
theorem slotCount_of_get : slotCount C l p h = (slots C dmn).count h := by
  simp [slotCount, hget]

theorem slotCount_of_get_none (hget : l.mnMap[p]? = none) : slotCount C l p h = 0 := by
  simp [slotCount, hget]

theorem slotCount_pos_iff : 0 < slotCount C l p h ↔ ∃ dmn, l.mnMap[p]? = some dmn ∧ h ∈ slots C dmn := by
  cases hget : l.mnMap[p]? with
  | none => simp [slotCount, hget]
  | some dmn => simp [slotCount, hget, List.count_pos_iff]

variable {m : CDeterministicMNList}

theorem slotCount_insert (hm : m.mnMap = l.mnMap.insert p dmn) :
    slotCount C m q h = if q = p then (slots C dmn).count h else slotCount C l q h := by
  simp only [slotCount, hm, Map.get_insert]
  by_cases hq : q = p <;> simp [hq]

theorem slotCount_erase (hm : m.mnMap = l.mnMap.erase p) :
    slotCount C m q h = if q = p then 0 else slotCount C l q h := by
  simp only [slotCount, hm, Map.get_erase]
  by_cases hq : q = p <;> simp [hq]

theorem slots_setState (dmn : CDeterministicMN) (s : CDeterministicMNState) :
    slots C { dmn with pdmnState := s } =
      getUniquePropertyHash C dmn.collateralOutpoint :: stateSlots C dmn.nType s := rfl

theorem mem_slots_collateral : getUniquePropertyHash C dmn.collateralOutpoint ∈ slots C dmn :=
  List.mem_cons_self

theorem mem_slots_pubKeyOperator (hvalid : dmn.pdmnState.pubKeyOperator.isValid = true) :
    getUniquePropertyHash C dmn.pdmnState.pubKeyOperator ∈ slots C dmn := by
  have hset : propertyHashes C dmn.pdmnState.pubKeyOperator = [getUniquePropertyHash C dmn.pdmnState.pubKeyOperator] :=
    propertyHashes_of_ne_null (by simp [hvalid])
  simp [slots, stateSlots, hset]

namespace Indexed

include hl in
theorem owner_unique (hp : 0 < slotCount C l p h) (hq : 0 < slotCount C l q h) : p = q := by
  rw [← hl.count] at hp hq
  exact OwnerCount.owner_unique hp hq

variable {d e : CDeterministicMN}

section

variable (hl : Indexed C l) (hd : l.mnMap[p]? = some d) (he : l.mnMap[q]? = some e)

include hl hd he

theorem slots_disjoint (hpq : p ≠ q) (hh : h ∈ slots C d) : h ∉ slots C e := by
  intro hh'
  exact hpq (hl.owner_unique (slotCount_pos_iff.mpr ⟨d, hd, hh⟩) (slotCount_pos_iff.mpr ⟨e, he, hh'⟩))

theorem collateral_ne (hpq : p ≠ q) : d.collateralOutpoint ≠ e.collateralOutpoint := by
  intro heq
  have hmem : getUniquePropertyHash C e.collateralOutpoint ∈ slots C e := mem_slots_collateral
  exact hl.slots_disjoint hd he hpq mem_slots_collateral (heq ▸ hmem)

theorem pubKeyOperator_ne (hpq : p ≠ q) (hvalid : d.pdmnState.pubKeyOperator.isValid = true) :
    d.pdmnState.pubKeyOperator ≠ e.pdmnState.pubKeyOperator := by
  intro heq
  have hmem : getUniquePropertyHash C e.pdmnState.pubKeyOperator ∈ slots C e :=
    mem_slots_pubKeyOperator (heq ▸ hvalid)
  exact hl.slots_disjoint hd he hpq (mem_slots_pubKeyOperator hvalid) (heq ▸ hmem)

theorem internalId_unique (hid : d.internalId = e.internalId) : p = q := by
  have h₁ := (hl.internalId d.internalId.val p).mpr ⟨d, hd, rfl⟩
  have h₂ := (hl.internalId d.internalId.val q).mpr ⟨e, he, by rw [hid]⟩
  rw [h₁, some.injEq] at h₂
  exact h₂

end

section

variable (hl : Indexed C l)

include hl

include hget in
theorem get_by_internalId : l.getMNByInternalId dmn.internalId.val = some dmn := by
  have hid := (hl.internalId dmn.internalId.val p).mpr ⟨dmn, hget, rfl⟩
  simp [getMNByInternalId, getMN, hid, hget]

theorem get_property_iff {c : ℕ} : l.mnUniquePropertyMap[h]? = some (p, c) ↔ 0 < c ∧ slotCount C l p h = c := by
  rw [get_eq_some_iff hl.positive, hl.count]

theorem get_property_none_iff : l.mnUniquePropertyMap[h]? = none ↔ ∀ p, slotCount C l p h = 0 := by
  rw [get_eq_none_iff hl.positive]
  simp only [hl.count]

theorem getUniquePropertyMN_eq_some_iff {T : Type} [UniqueProperty T] {v : T} :
    l.getUniquePropertyMN C v = some dmn ↔
      ∃ p : Uint256, l.mnMap[p]? = some dmn ∧ getUniquePropertyHash C v ∈ slots C dmn := by
  unfold getUniquePropertyMN
  constructor
  · intro hsome
    split at hsome
    · next p c hprop =>
      obtain ⟨hpos, hcount⟩ := hl.get_property_iff.mp hprop
      obtain ⟨d, hd, hmem⟩ := slotCount_pos_iff.mp (hcount ▸ hpos)
      rw [hsome, some.injEq] at hd
      exact ⟨p, hsome, hd ▸ hmem⟩
    · cases hsome
  · rintro ⟨p, hget, hmem⟩
    have hpos := slotCount_pos_iff.mpr ⟨dmn, hget, hmem⟩
    rw [hl.get_property_iff.mpr ⟨hpos, rfl⟩]
    exact hget

theorem hasUniqueProperty_eq_false_iff {T : Type} [UniqueProperty T] {v : T} :
    l.hasUniqueProperty C v = false ↔
      ∀ (p : Uint256) dmn, l.mnMap[p]? = some dmn → getUniquePropertyHash C v ∉ slots C dmn := by
  rw [hasUniqueProperty, isSome_eq_false_iff, isNone_iff_eq_none, hl.get_property_none_iff]
  refine forall_congr' fun p => ?_
  rw [← Nat.le_zero, ← Nat.not_lt, slotCount_pos_iff]
  push Not
  rfl

theorem getUniquePropertyMN_eq_none_iff {T : Type} [UniqueProperty T] {v : T} :
    l.getUniquePropertyMN C v = none ↔
      ∀ (p : Uint256) dmn, l.mnMap[p]? = some dmn → getUniquePropertyHash C v ∉ slots C dmn := by
  rw [eq_none_iff_forall_ne_some]
  simp only [ne_eq, hl.getUniquePropertyMN_eq_some_iff]
  push Not
  exact forall_comm

theorem ext (hl' : Indexed C l') (hmap : l.mnMap = l'.mnMap) :
    l.mnInternalIdMap = l'.mnInternalIdMap ∧ l.mnUniquePropertyMap = l'.mnUniquePropertyMap := by
  constructor
  · refine Std.ExtTreeMap.ext_getElem? fun i => Option.ext fun p => ?_
    rw [hl.internalId, hl'.internalId, hmap]
  · refine ext_count hl.positive hl'.positive fun p h => ?_
    rw [hl.count, hl'.count, slotCount, slotCount, hmap]

end

end Indexed

theorem indexed_of_mnMap_empty (hmap : l.mnMap = ∅) (hid : l.mnInternalIdMap = ∅)
    (hprop : l.mnUniquePropertyMap = ∅) : Indexed C l where
  proTxHash := by simp [hmap]
  collateral := by simp [hmap]
  internalId := by simp [hmap, hid]
  positive := hprop ▸ positive_empty
  count := by simp [hmap, hprop, slotCount]

include hl in
/-- The invariant does not look at the block hash, the height or the counter. -/
theorem Indexed.congr (hmap : l'.mnMap = l.mnMap) (hid : l'.mnInternalIdMap = l.mnInternalIdMap)
    (hprop : l'.mnUniquePropertyMap = l.mnUniquePropertyMap) : Indexed C l' where
  proTxHash := by rw [hmap]; exact hl.proTxHash
  collateral := by rw [hmap]; exact hl.collateral
  internalId := by rw [hmap, hid]; exact hl.internalId
  positive := by rw [hprop]; exact hl.positive
  count := by simp only [hprop, slotCount, hmap]; exact hl.count

/-! ### Preservation -/

include hl in
theorem addMN_indexed (hadd : l.addMN C dmn b = .ok l') : Indexed C l' := by
  obtain ⟨hmn, hid, hcol, -, u, hshift, rfl⟩ := addMN_ok hl.positive hadd
  refine ⟨Map.forall_insert hl.proTxHash rfl, Map.forall_insert hl.collateral hcol, ?_, hshift.positive, ?_⟩
  · intro i p
    simp only [Map.get_insert]
    by_cases hp : p = dmn.proTxHash
    · subst hp
      by_cases hi : i = dmn.internalId.val
      · simp [hi]
      · have hnot : l.mnInternalIdMap[i]? ≠ some dmn.proTxHash := by
          intro hc
          obtain ⟨d, hd, -⟩ := (hl.internalId i _).mp hc
          rw [hmn] at hd
          cases hd
        simp [hi, hnot, Ne.symm hi]
    · by_cases hi : i = dmn.internalId.val
      · subst hi
        simp only [hp, if_true, if_false, some.injEq, Ne.symm hp, false_iff]
        intro hex
        rw [← hl.internalId, hid] at hex
        cases hex
      · simp only [hp, hi, if_false]
        exact hl.internalId i p
  · intro p h
    change count u p h = _
    rw [slotCount_insert (l := l) rfl]
    split_ifs with hp
    · have hself := hshift.self h
      rw [hl.count, slotCount_of_get_none hmn, List.count_nil] at hself
      rw [hp]
      omega
    · rw [hshift.other p hp]
      exact hl.count p h

variable {s : CDeterministicMNState}

include hl hget in
theorem updateEntry_indexed (hno : ¬ dmn.pdmnState.pubKeyOperator.Reencodes s.pubKeyOperator)
    (hupd : l.updateEntry C dmn s = .ok l') : Indexed C l' := by
  obtain rfl : dmn.proTxHash = p := hl.proTxHash p dmn hget
  obtain ⟨u, hshift, rfl⟩ := updateEntry_ok hl.positive hno hupd
  refine ⟨Map.forall_insert hl.proTxHash rfl,
    Map.forall_insert hl.collateral (hl.collateral _ dmn hget), ?_, hshift.positive, ?_⟩
  · intro i q
    simp only [Map.get_insert, hl.internalId]
    split_ifs with hqp
    · simp [hqp, hget]
    · rfl
  · intro q k
    rw [slotCount_insert (l := l) rfl, slots_setState]
    split_ifs with hqp
    · have hself := hshift.self k
      rw [hl.count, slotCount_of_get hget, slots] at hself
      rw [hqp]
      simp only [List.count_cons] at hself ⊢
      omega
    · rw [hshift.other q hqp]
      exact hl.count q k

include hl in
theorem updateMN_indexed (hno : ∀ dmn, l.mnMap[p]? = some dmn →
      ¬ dmn.pdmnState.pubKeyOperator.Reencodes s.pubKeyOperator)
    (hupd : l.updateMN C p s = .ok l') : Indexed C l' := by
  unfold updateMN at hupd
  split at hupd
  · cases hupd
  · next dmn hget => exact updateEntry_indexed hl hget (hno dmn hget) hupd

include hl hget in
theorem updateMN_ok (hno : ¬ dmn.pdmnState.pubKeyOperator.Reencodes s.pubKeyOperator)
    (hupd : l.updateMN C p s = .ok l') :
    ∃ u, l' = { l with
      mnMap := l.mnMap.insert p { dmn with pdmnState := s }
      mnUniquePropertyMap := u } := by
  obtain rfl : dmn.proTxHash = p := hl.proTxHash p dmn hget
  simp only [updateMN, hget] at hupd
  obtain ⟨u, -, heq⟩ := updateEntry_ok hl.positive hno hupd
  exact ⟨u, heq⟩

include hl in
theorem removeMN_indexed (hrem : l.removeMN C p = .ok l') : Indexed C l' := by
  obtain ⟨dmn, hget, u, hshift, rfl⟩ := removeMN_ok hl.positive hrem
  obtain rfl : dmn.proTxHash = p := hl.proTxHash p dmn hget
  refine ⟨fun q d hq => hl.proTxHash q d (Map.get_of_get_erase hq),
    fun q d hq => hl.collateral q d (Map.get_of_get_erase hq), ?_, hshift.positive, ?_⟩
  · intro i q
    simp only [Map.get_erase]
    by_cases hi : i = dmn.internalId.val
    · subst hi
      simp only [if_true, reduceCtorEq, false_iff]
      rintro ⟨d, hd, hdi⟩
      split_ifs at hd with hq
      exact hq (hl.internalId_unique hd hget (Fin.ext hdi))
    · rw [if_neg hi, hl.internalId]
      split_ifs with hq
      · subst hq
        simp only [hget, some.injEq, false_and, exists_false, iff_false]
        rintro ⟨d, rfl, hdi⟩
        exact hi hdi.symm
      · rfl
  · intro q k
    change count u q k = _
    rw [slotCount_erase (l := l) rfl]
    split_ifs with hqp
    · have hself := hshift.self k
      rw [hl.count, slotCount_of_get hget] at hself
      rw [hqp]
      simp only [List.count_nil] at hself
      omega
    · rw [hshift.other q hqp]
      exact hl.count q k

/-! ### Progress -/

include hl hget in
theorem exists_removeMN (howner : dmn.pdmnState.keyIDOwner ≠ 0) : ∃ l', l.removeMN C p = .ok l' := by
  obtain rfl : dmn.proTxHash = p := hl.proTxHash p dmn hget
  have hcol := hl.collateral _ dmn hget
  have hheld : Holds l.mnUniquePropertyMap dmn.proTxHash (slots C dmn) := fun k => by
    rw [hl.count, slotCount_of_get hget]
  rw [slots_eq hcol] at hheld
  obtain ⟨l', hdel⟩ := (deleteProperties_rolls l dmn).succeeds hl.positive ⟨hcol, howner⟩ hheld fun _ hh => by cases hh
  simp only [removeMN, getMN, hget, hdel]
  exact ⟨_, rfl⟩

/-- The slots of `dmn` are not taken by other masternodes of `l`. -/
def SlotsFree (C : Codec) (l : CDeterministicMNList) (dmn : CDeterministicMN) : Prop :=
  ∀ h ∈ slots C dmn, ∀ (q : Uint256) e, q ≠ dmn.proTxHash → l.mnMap[q]? = some e → h ∉ slots C e

theorem SlotsFree.free (hfree : SlotsFree C l dmn) (hl : Indexed C l) :
    OwnerCount.Free l.mnUniquePropertyMap dmn.proTxHash (slots C dmn) := by
  intro h hh q hq
  rw [hl.count, ← Nat.le_zero, ← Nat.not_lt, slotCount_pos_iff]
  rintro ⟨e, he, hmem⟩
  exact hfree h hh q e hq he hmem

include hl in
/-- A masternode with fresh ids and free slots can be added. -/
theorem exists_addMN (hnew : l.mnMap[dmn.proTxHash]? = none)
    (hid : l.mnInternalIdMap[dmn.internalId.val]? = none) (hcol : dmn.collateralOutpoint ≠ {})
    (howner : dmn.pdmnState.keyIDOwner ≠ 0) (hfree : SlotsFree C l dmn) : ∃ l', l.addMN C dmn b = .ok l' := by
  have hslots := hfree.free hl
  rw [slots_eq hcol] at hslots
  obtain ⟨l', hadd⟩ := (addProperties_rolls l dmn).succeeds hl.positive ⟨hcol, howner⟩ (fun _ => Nat.zero_le _) hslots
  simp only [addMN, hnew, hid, isSome_none, Bool.false_eq_true, if_false, hadd]
  exact ⟨_, rfl⟩

include hl hget in
theorem exists_updateEntry (hno : ¬ dmn.pdmnState.pubKeyOperator.Reencodes s.pubKeyOperator)
    (hfree : SlotsFree C l { dmn with pdmnState := s }) : ∃ l', l.updateEntry C dmn s = .ok l' := by
  obtain rfl : dmn.proTxHash = p := hl.proTxHash p dmn hget
  have hheld : Holds l.mnUniquePropertyMap dmn.proTxHash
      (stateSlots C dmn.nType dmn.pdmnState) := fun k => by
    rw [hl.count, slotCount_of_get hget]
    exact (List.sublist_cons_self _ _).count_le k
  have hslots : Free l.mnUniquePropertyMap dmn.proTxHash
      (updatedSlots C dmn.nType dmn.pdmnState s) := fun h hh =>
    hfree.free hl h (List.mem_cons_of_mem _ (updatedSlots_eq _ hno ▸ hh))
  obtain ⟨l', hupd⟩ := (updateProperties_rolls l dmn s).succeeds hl.positive trivial hheld hslots
  simp only [updateEntry, hupd]
  exact ⟨_, rfl⟩

end OmegaCore.Evo.CDeterministicMNList
