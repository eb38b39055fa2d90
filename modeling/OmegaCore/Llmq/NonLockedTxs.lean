import OmegaCore.Llmq.InstantSendLocks

/-!
The transactions that are neither locked nor in a ChainLocked block.  They are found by their
hash, with placeholders for parents that are not known, and by the outpoints they spend.  A lock
looks up by outpoint the mined transactions it conflicts with.  The index has one slot for each
outpoint, so it is complete as long as no two tracked transactions spend the same one and no child
is added before its parent.
-/

namespace OmegaCore.Llmq

open Util

/-- The entry of a transaction, or of a parent that is not known, which has no `tx`. -/
structure NonLockedTxInfo where
  pindexMined : Option Uint256 := none
  hasTx : Bool := false
  children : List Uint256 := []

/-- `nonLockedTxs` and what goes with it. -/
structure NonLocked where
  nonLockedTxs : Map Uint256 NonLockedTxInfo := ∅
  nonLockedTxsByOutpoints : Map COutPoint Uint256 := ∅
  pendingRetryTxs : List Uint256 := []
  pendingNoTxInstantSendLocks : List PendingLock := []
  pendingInstantSendLocks : List PendingLock := []

namespace NonLocked

variable (vin : Uint256 → List COutPoint)

variable (txid : Uint256) (s : NonLocked)

/-- One input of a new transaction: its parent gets a child, and its outpoint a slot if that is free. -/
def addInput (prevout : COutPoint) : NonLocked :=
  let info := s.nonLockedTxs[prevout.hash]?.getD {}
  { s with
    nonLockedTxs :=
      s.nonLockedTxs.insert prevout.hash { info with children := info.children.insert txid }
    nonLockedTxsByOutpoints := s.nonLockedTxsByOutpoints.emplace prevout txid }

/-- A lock that came before its transaction is verified again. -/
def retryPendingNoTx : NonLocked :=
  match s.pendingNoTxInstantSendLocks.find? fun p => p.islock.txid == txid with
  | none => s
  | some p =>
    { s with
      pendingInstantSendLocks :=
        if s.pendingInstantSendLocks.any fun q => q.hash == p.hash then s.pendingInstantSendLocks
        else s.pendingInstantSendLocks ++ [p]
      pendingNoTxInstantSendLocks := s.pendingNoTxInstantSendLocks.erase p }

/-- A transaction is known by its hash, and `vin` has its inputs. -/
def addNonLockedTx (txid : Uint256) (pindexMined : Option Uint256) : NonLocked :=
  let s :=
    match s.nonLockedTxs[txid]? with
    | some info => { s with nonLockedTxs := s.nonLockedTxs.insert txid { info with pindexMined := pindexMined } }
    | none =>
      (vin txid).foldl (addInput txid)
        { s with nonLockedTxs := s.nonLockedTxs.insert txid { pindexMined := pindexMined, hasTx := true } }
  s.retryPendingNoTx txid

def removeInput (prevout : COutPoint) : NonLocked :=
  let nonLockedTxs :=
    match s.nonLockedTxs[prevout.hash]? with
    | none => s.nonLockedTxs
    | some info =>
      let info := { info with children := info.children.erase txid }
      if !info.hasTx && info.children.isEmpty then s.nonLockedTxs.erase prevout.hash
      else s.nonLockedTxs.insert prevout.hash info
  { s with
    nonLockedTxs := nonLockedTxs
    nonLockedTxsByOutpoints := s.nonLockedTxsByOutpoints.erase prevout }

def removeNonLockedTx (txid : Uint256) (retryChildren : Bool) : NonLocked :=
  match s.nonLockedTxs[txid]? with
  | none => s
  | some info =>
    let s :=
      if retryChildren then { s with pendingRetryTxs := info.children.foldl (fun l c => l.insert c) s.pendingRetryTxs }
      else s
    let s := if info.hasTx then (vin txid).foldl (removeInput txid) s else s
    { s with nonLockedTxs := s.nonLockedTxs.erase txid }

/-- The mined transactions that `ResolveBlockConflicts` finds for a lock, with their blocks. -/
def conflicts (islock : CInstantSendLock) : List (Uint256 × Uint256) :=
  islock.inputs.filterMap fun prevout =>
    match s.nonLockedTxsByOutpoints[prevout]? with
    | none => none
    | some conflictTxid =>
      if conflictTxid = islock.txid then none
      else
        match s.nonLockedTxs[conflictTxid]? with
        | none => none
        | some info => if info.hasTx then info.pindexMined.map fun pindex => (pindex, conflictTxid) else none

end NonLocked

inductive NonLockedOp where
  | add (txid : Uint256) (pindexMined : Option Uint256)
  | remove (txid : Uint256) (retryChildren : Bool)

def NonLockedOp.step (vin : Uint256 → List COutPoint) (s : NonLocked) : NonLockedOp → NonLocked
  | .add txid pindexMined => s.addNonLockedTx vin txid pindexMined
  | .remove txid retryChildren => s.removeNonLockedTx vin txid retryChildren

/-- The block of the last call that added a transaction, unless it was removed since. -/
def lastAdded (txid : Uint256) (last : Option (Option Uint256)) : NonLockedOp → Option (Option Uint256)
  | .add txid' pindexMined => if txid' = txid then some pindexMined else last
  | .remove txid' _ => if txid' = txid then none else last

/-- A transaction is added again, or it has no entry yet and the slots of its inputs are free. -/
def NonLockedOp.isSeparate (vin : Uint256 → List COutPoint) (s : NonLocked) : NonLockedOp → Bool
  | .add txid _ =>
    match s.nonLockedTxs[txid]? with
    | some info => info.hasTx
    | none => (vin txid).all fun prevout => s.nonLockedTxsByOutpoints[prevout]?.isNone
  | .remove _ _ => true

/-- Every step of a sequence is separate in the state it meets. -/
def isSeparateRun (vin : Uint256 → List COutPoint) : NonLocked → List NonLockedOp → Bool
  | _, [] => true
  | s, op :: ops => op.isSeparate vin s && isSeparateRun vin (op.step vin s) ops

namespace NonLocked

variable {vin : Uint256 → List COutPoint}

/-! ### What the loops leave of an entry -/

/-- An entry with a `tx` is there, mined in some block or in none. -/
def Tracked (s : NonLocked) (txid : Uint256) (pindexMined : Option Uint256) : Prop :=
  ∃ info, s.nonLockedTxs[txid]? = some info ∧ info.hasTx = true ∧ info.pindexMined = pindexMined

/-- Whatever is tracked has the slots of all its inputs. -/
def Indexed (vin : Uint256 → List COutPoint) (s : NonLocked) : Prop :=
  ∀ txid pindexMined, s.Tracked txid pindexMined → ∀ prevout ∈ vin txid, s.nonLockedTxsByOutpoints[prevout]? = some txid

variable {txid t : Uint256} {pindexMined : Option Uint256}

theorem tracked_addInput (s : NonLocked) (prevout : COutPoint) :
    (s.addInput txid prevout).Tracked t pindexMined ↔ s.Tracked t pindexMined := by
  unfold Tracked addInput
  dsimp only
  rw [Map.get_insert]
  split_ifs with ht
  · subst ht
    cases hget : s.nonLockedTxs[prevout.hash]? with
    | none => simp
    | some info => simp
  · rfl

theorem tracked_foldl_inputs {f : NonLocked → COutPoint → NonLocked}
    (hf : ∀ s prevout, (f s prevout).Tracked t pindexMined ↔ s.Tracked t pindexMined) (ins : List COutPoint)
    (s : NonLocked) : (ins.foldl f s).Tracked t pindexMined ↔ s.Tracked t pindexMined := by
  induction ins generalizing s with
  | nil => rfl
  | cons prevout ins ih => rw [List.foldl_cons, ih, hf]

theorem slot_foldl_addInput {txid : Uint256} (ins : List COutPoint) (s : NonLocked) (o : COutPoint) :
    (ins.foldl (addInput txid) s).nonLockedTxsByOutpoints[o]? =
      if o ∈ ins ∧ s.nonLockedTxsByOutpoints[o]? = none then some txid else s.nonLockedTxsByOutpoints[o]? := by
  induction ins generalizing s with
  | nil => simp
  | cons prevout ins ih =>
    rw [List.foldl_cons, ih]
    simp only [addInput, Map.get_emplace, List.mem_cons]
    by_cases ho : o = prevout
    · subst ho
      cases s.nonLockedTxsByOutpoints[o]? with
      | none => simp
      | some t => simp
    · simp [ho]

theorem tracked_removeInput (s : NonLocked) (prevout : COutPoint) :
    (s.removeInput txid prevout).Tracked t pindexMined ↔ s.Tracked t pindexMined := by
  unfold Tracked removeInput
  dsimp only
  split
  · rfl
  next info hget =>
  split_ifs with hempty
  · -- only a placeholder is erased
    simp only [Bool.and_eq_true, Bool.not_eq_true'] at hempty
    rw [Map.get_erase]
    split_ifs with ht
    · subst ht
      simp [hget, hempty.1]
    · rfl
  · rw [Map.get_insert]
    split_ifs with ht
    · subst ht
      simp [hget]
    · rfl

theorem slot_foldl_removeInput {txid : Uint256} (ins : List COutPoint) (s : NonLocked) (o : COutPoint) :
    (ins.foldl (removeInput txid) s).nonLockedTxsByOutpoints[o]? =
      if o ∈ ins then none else s.nonLockedTxsByOutpoints[o]? := by
  have hmap : ins.foldl (fun m prevout => m.erase (id prevout)) s.nonLockedTxsByOutpoints =
      (ins.foldl (removeInput txid) s).nonLockedTxsByOutpoints := List.foldl_hom nonLockedTxsByOutpoints fun _ _ => rfl
  rw [← hmap, Map.get_foldl_erase, List.map_id]

/-! ### The steps -/

variable {s : NonLocked} {txid t : Uint256} {p pindexMined : Option Uint256} {o : COutPoint}

theorem retryPendingNoTx_same (s : NonLocked) (txid : Uint256) :
    (s.retryPendingNoTx txid).nonLockedTxs = s.nonLockedTxs ∧
      (s.retryPendingNoTx txid).nonLockedTxsByOutpoints = s.nonLockedTxsByOutpoints := by
  unfold retryPendingNoTx
  split
  · exact ⟨rfl, rfl⟩
  · exact ⟨rfl, rfl⟩

theorem tracked_addNonLockedTx (hsep : (NonLockedOp.add txid pindexMined).isSeparate vin s = true) :
    (s.addNonLockedTx vin txid pindexMined).Tracked t p ↔
      if t = txid then p = pindexMined else s.Tracked t p := by
  have hinsert : ∀ info : NonLockedTxInfo, info.hasTx = true → info.pindexMined = pindexMined →
      (Tracked { s with nonLockedTxs := s.nonLockedTxs.insert txid info } t p ↔
        if t = txid then p = pindexMined else s.Tracked t p) := by
    intro info htx hmined
    unfold Tracked
    dsimp only
    rw [Map.get_insert]
    split_ifs with ht
    · constructor
      · rintro ⟨info', heq, -, hp⟩
        rw [← hp, ← Option.some.inj heq, hmined]
      · rintro rfl
        exact ⟨info, rfl, htx, hmined⟩
    · rfl
  unfold NonLockedOp.isSeparate at hsep
  dsimp only at hsep
  unfold addNonLockedTx Tracked
  rw [(retryPendingNoTx_same _ _).1]
  split at hsep
  next info hget => exact hinsert _ hsep rfl
  next hget => exact (tracked_foldl_inputs tracked_addInput _ _).trans (hinsert _ rfl rfl)

theorem slot_addNonLockedTx :
    (s.addNonLockedTx vin txid pindexMined).nonLockedTxsByOutpoints[o]? =
      if o ∈ vin txid ∧ s.nonLockedTxsByOutpoints[o]? = none ∧ s.nonLockedTxs[txid]? = none then some txid
      else s.nonLockedTxsByOutpoints[o]? := by
  unfold addNonLockedTx
  rw [(retryPendingNoTx_same _ _).2]
  split
  next info hget => simp [hget]
  next hget =>
    rw [slot_foldl_addInput]
    simp [hget]

theorem Indexed.addNonLockedTx (h : Indexed vin s) (hsep : (NonLockedOp.add txid pindexMined).isSeparate vin s = true) :
    Indexed vin (s.addNonLockedTx vin txid pindexMined) := by
  intro t p ht o ho
  rw [tracked_addNonLockedTx hsep] at ht
  rw [slot_addNonLockedTx]
  split_ifs at ht with heq
  · subst heq
    unfold NonLockedOp.isSeparate at hsep
    dsimp only at hsep
    split at hsep
    next info hget =>
      rw [if_neg (by simp [hget])]
      exact h t info.pindexMined ⟨info, hget, hsep, rfl⟩ o ho
    next hget =>
      have hfree : s.nonLockedTxsByOutpoints[o]? = none := by simpa using List.all_eq_true.mp hsep o ho
      rw [if_pos ⟨ho, hfree, hget⟩]
  · -- the slot of another transaction is not free
    have hslot := h t p ht o ho
    rw [if_neg (by simp [hslot]), hslot]

theorem tracked_removeNonLockedTx (retryChildren : Bool) :
    (s.removeNonLockedTx vin txid retryChildren).Tracked t p ↔ t ≠ txid ∧ s.Tracked t p := by
  unfold removeNonLockedTx
  split
  next hget =>
    refine ⟨fun h => ⟨?_, h⟩, fun h => h.2⟩
    rintro rfl
    obtain ⟨info, hinfo, -⟩ := h
    rw [hget] at hinfo
    cases hinfo
  next info hget =>
    dsimp only
    generalize hs' : (if retryChildren = true then _ else s : NonLocked) = s'
    have hsame : ∀ t p, s'.Tracked t p ↔ s.Tracked t p := by
      intro t p
      rw [← hs']
      split_ifs <;> rfl
    have hloop : ∀ t p, (if info.hasTx = true then (vin txid).foldl (removeInput txid) s' else s').Tracked t p ↔
        s.Tracked t p := by
      intro t p
      split_ifs
      · rw [tracked_foldl_inputs tracked_removeInput, hsame]
      · exact hsame t p
    rw [← hloop]
    unfold Tracked
    dsimp only
    rw [Map.get_erase]
    split_ifs with ht <;> simp [ht]

theorem slot_removeNonLockedTx (retryChildren : Bool) :
    (s.removeNonLockedTx vin txid retryChildren).nonLockedTxsByOutpoints[o]? = s.nonLockedTxsByOutpoints[o]? ∨
      (o ∈ vin txid ∧ ∃ p, s.Tracked txid p) := by
  unfold removeNonLockedTx
  split
  · exact .inl rfl
  next info hget =>
    dsimp only
    generalize hs' : (if retryChildren = true then _ else s : NonLocked) = s'
    have hsame : s'.nonLockedTxsByOutpoints = s.nonLockedTxsByOutpoints := by
      rw [← hs']
      split_ifs <;> rfl
    split_ifs with htx
    · rw [slot_foldl_removeInput, hsame]
      by_cases ho : o ∈ vin txid
      · exact .inr ⟨ho, info.pindexMined, info, hget, htx, rfl⟩
      · rw [if_neg ho]
        exact .inl rfl
    · exact .inl (by rw [hsame])

theorem Indexed.removeNonLockedTx (h : Indexed vin s) (retryChildren : Bool) :
    Indexed vin (s.removeNonLockedTx vin txid retryChildren) := by
  intro t p ht o ho
  rw [tracked_removeNonLockedTx] at ht
  have hslot := h t p ht.2 o ho
  rcases @slot_removeNonLockedTx vin s txid o retryChildren with hsame | ⟨ho', p', hp'⟩
  · rw [hsame, hslot]
  · -- the two would share a slot
    rw [h txid p' hp' o ho', Option.some.injEq] at hslot
    exact absurd hslot.symm ht.1

end NonLocked

/-! ### Runs -/

/-- In a run of separate steps all that was added last and not removed is tracked, and has its slots. -/
theorem tracked_foldl {vin : Uint256 → List COutPoint} {s : NonLocked} (ops : List NonLockedOp)
    (hsep : isSeparateRun vin s ops = true) (hs : s.Indexed vin) (txid : Uint256) (last : Option (Option Uint256))
    (hlast : ∀ p, last = some p → s.Tracked txid p) :
    (ops.foldl (NonLockedOp.step vin) s).Indexed vin ∧
      ∀ p, ops.foldl (lastAdded txid) last = some p → (ops.foldl (NonLockedOp.step vin) s).Tracked txid p := by
  induction ops generalizing s last with
  | nil => exact ⟨hs, hlast⟩
  | cons op ops ih =>
    rw [isSeparateRun, Bool.and_eq_true] at hsep
    rw [List.foldl_cons, List.foldl_cons]
    cases op with
    | add txid' pindexMined =>
      refine ih hsep.2 (hs.addNonLockedTx hsep.1) _ fun p hp => ?_
      rw [NonLockedOp.step, NonLocked.tracked_addNonLockedTx hsep.1]
      rw [lastAdded] at hp
      by_cases heq : txid = txid'
      · rw [if_pos heq]
        rw [if_pos heq.symm, Option.some.injEq] at hp
        exact hp.symm
      · rw [if_neg heq]
        rw [if_neg (Ne.symm heq)] at hp
        exact hlast p hp
    | remove txid' retryChildren =>
      refine ih hsep.2 (hs.removeNonLockedTx retryChildren) _ fun p hp => ?_
      rw [NonLockedOp.step, NonLocked.tracked_removeNonLockedTx]
      rw [lastAdded] at hp
      split_ifs at hp with heq
      exact ⟨Ne.symm heq, hlast p hp⟩

/-- In every run of separate steps, a lock for another transaction that spends an input of a mined one finds it. -/
theorem mem_conflicts_of_lastAdded (vin : Uint256 → List COutPoint) (ops : List NonLockedOp)
    (hsep : isSeparateRun vin {} ops = true) (txid pindex : Uint256)
    (hlast : ops.foldl (lastAdded txid) none = some (some pindex)) (prevout : COutPoint) (hprevout : prevout ∈ vin txid)
    (islock : CInstantSendLock) (hother : islock.txid ≠ txid) (hspends : prevout ∈ islock.inputs) :
    (pindex, txid) ∈ (ops.foldl (NonLockedOp.step vin) {}).conflicts islock := by
  have hstart : NonLocked.Indexed vin {} := by
    rintro t p ⟨info, hinfo, -⟩
    simp at hinfo
  obtain ⟨hindexed, htracked⟩ := tracked_foldl ops hsep hstart txid none nofun
  obtain ⟨info, hget, htx, hmined⟩ := htracked _ hlast
  have hslot := hindexed txid _ ⟨info, hget, htx, hmined⟩ prevout hprevout
  refine List.mem_filterMap.mpr ⟨prevout, hspends, ?_⟩
  rw [hslot]
  dsimp only
  rw [if_neg (Ne.symm hother), hget]
  simp [htx, hmined]

def sampleVin (txid : Uint256) : List COutPoint :=
  if txid = 1 ∨ txid = 2 then [⟨7#256, 0#32⟩] else []

def conflictingLock : CInstantSendLock :=
  { inputs := [⟨7#256, 0#32⟩], txid := 3#256, cycleHash := 0#256, sig := none }

theorem mem_conflicts_of_lastAdded_sample :
    isSeparateRun sampleVin {} [.add 1 none, .remove 1 false, .add 2 (some 9#256)] = true ∧
      (9#256, 2#256) ∈ ([.add 1 none, .remove 1 false, .add 2 (some 9#256)].foldl (NonLockedOp.step sampleVin) {}).conflicts
        conflictingLock := by
  have hsep : isSeparateRun sampleVin {} [.add 1 none, .remove 1 false, .add 2 (some 9#256)] = true := by
    decide +kernel
  refine ⟨hsep, ?_⟩
  exact mem_conflicts_of_lastAdded sampleVin _ hsep 2#256 9#256 rfl ⟨7#256, 0#32⟩ (by decide) conflictingLock
    (by decide) (by decide)

/-- With a conflicting transaction from the mempool added before, the mined one is not found. -/
theorem minedConflict_missed :
    ([.add 1 none, .add 2 (some 9#256)].foldl (lastAdded 2#256) none = some (some 9#256)) ∧
      ⟨7#256, 0#32⟩ ∈ sampleVin 2#256 ∧ conflictingLock.txid ≠ 2#256 ∧ ⟨7#256, 0#32⟩ ∈ conflictingLock.inputs ∧
      ([.add 1 none, .add 2 (some 9#256)].foldl (NonLockedOp.step sampleVin) {}).conflicts conflictingLock = [] := by
  refine ⟨rfl, ?_, ?_, ?_, ?_⟩
  · decide
  · decide
  · decide
  · decide +kernel

end OmegaCore.Llmq
