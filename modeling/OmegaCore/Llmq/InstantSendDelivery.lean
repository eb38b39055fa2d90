import OmegaCore.Llmq.InstantSendAuthenticity

/-!
Which valid locks of a batch are handed on.  A lock for which no quorum can be selected ends a
verification without a result, so that the other locks of the batch are lost with it.
-/

namespace OmegaCore.Llmq

open CBLSBatchVerifier List

/-- The lock is valid under the current or the previous active set. -/
def isValidLock (E₀ E₁ : LockEnv) (p : PendingLock) : Bool :=
  hasValidSig E₀ 0 p || hasValidSig E₁ E₀.dkgInterval p

/-- Every valid lock is handed on. -/
def Delivers (E₀ E₁ : LockEnv) (pend : List PendingLock) : Prop :=
  ∀ p ∈ pend, isValidLock E₀ E₁ p = true →
    p ∈ (processPendingInstantSendLocks E₀ E₁ pend).1.processed ∨
      p ∈ (processPendingInstantSendLocks E₀ E₁ pend).2.processed

/-- The locks that are checked on the current set and fail. -/
def failingLocks (E : LockEnv) (pend : List PendingLock) : List PendingLock :=
  pend.filter fun p => isCheckable E p && !hasValidSig E 0 p

/-- Quorums are selected for the locks beside a valid one, also for those that fail, on the previous set. -/
structure Selectable (E₀ E₁ : LockEnv) (pend : List PendingLock) : Prop where
  current : ∀ p ∈ pend, isValidLock E₀ E₁ p = true → QuorumsSelected E₀ 0 pend
  previous : ∀ p ∈ failingLocks E₀ pend, isValidLock E₀ E₁ p = true →
    QuorumsSelected E₁ E₀.dkgInterval (failingLocks E₀ pend)

variable {E E₀ E₁ : LockEnv} {signOffset : Int} {pend batch : List PendingLock} {p : PendingLock}

theorem mem_failingLocks :
    p ∈ failingLocks E pend ↔ p ∈ pend ∧ isCheckable E p = true ∧ hasValidSig E 0 p = false := by
  simp [failingLocks]

theorem Selectable.perm (h : Selectable E₀ E₁ batch) (hperm : pend.Perm batch) : Selectable E₀ E₁ pend where
  current p hp hvalid x hx := h.current p (hperm.mem_iff.mp hp) hvalid x (hperm.mem_iff.mp hx)
  previous p hp hvalid x hx :=
    h.previous p ((hperm.filter _).mem_iff.mp hp) hvalid x ((hperm.filter _).mem_iff.mp hx)

/-! ### Locks that are lost -/

/-- Nothing is verified if no quorum is selected for the first lock. -/
theorem processLocks_cons_eq (hcheck : isCheckable E p = true) (hnone : messageFor E signOffset p = none) (ban : Bool) :
    processLocks E signOffset (p :: pend) ban = {} := by
  apply processLocks_of_pushLocks_eq_none
  rw [pushLocks]
  cases hone : pushLock E signOffset (startVerifier, []) p with
  | none => rfl
  | some s =>
    rcases pushLock_cases hone with ⟨hbad, -⟩ | ⟨hcheck', -⟩ | ⟨hmarks, -⟩ | ⟨-, -, msg, hmsg, -⟩
    · cases hbad
    · cases hcheck.symm.trans hcheck'
    · cases hcheck.symm.trans (@of_marksPeer E signOffset p hmarks).1
    · cases hnone.symm.trans hmsg

/-- The first locks of a batch are all pushed if they are checked and fewer than a sub-batch. -/
theorem mem_badISLocks_of_mem_prefix {a c : List PendingLock} (hnodup : ((a ++ c).map (·.hash)).Nodup)
    (hq : QuorumsSelected E signOffset (a ++ c)) (hcheck : ∀ x ∈ a, isCheckable E x = true) (hlen : a.length < 8)
    (hp : p ∈ a) (hinvalid : hasValidSig E signOffset p = false) (ban : Bool) :
    p.hash ∈ (processLocks E signOffset (a ++ c) ban).badISLocks := by
  obtain ⟨s, hall⟩ := pushLocks_isSome hq (startVerifier, [])
  have hnodup_a := ((sublist_append_left a c).map (·.hash)).nodup hnodup
  obtain ⟨s₁, fl, cu, ha, hd, hmap⟩ := (@dispatched_start E signOffset).pushAll (s := (startVerifier, [])) (a := a)
    (by simpa using hlen.le) (by simpa [seenLocks] using hnodup_a) fun x hx =>
      ⟨(Bool.and_eq_true _ _).mpr ⟨hcheck x hx, hq x (mem_append_left _ hx) (hcheck x hx)⟩, not_mem_nil⟩
  have hrest := hall
  rw [pushLocks_append, ha, Option.bind_some] at hrest
  rw [append_nil, map_nil, nil_append] at hmap
  have hperm : (seenLocks fl cu []).Perm a := by rw [seenLocks, hmap, append_nil]
  obtain ⟨r, hr, rfl⟩ := mem_map.mp (hmap ▸ hp)
  have hperm' := hperm.append_right c
  obtain ⟨mk₂, fl₂, cu₂, sk₂, hd₂, hperm₂, -, hkeep⟩ := hd.pushLocks ((hperm'.map _).nodup_iff.mpr hnodup) hrest
  rw [(mem_processLocks hd₂ hnodup (hperm₂.trans hperm') hall ban (mem_append_left _ hp)).2]
  exact ⟨mem_map_of_mem (hkeep r hr), hinvalid⟩

section Orders

variable (h : ∀ pend : List PendingLock, pend.Perm batch → Delivers E₀ E₁ pend)

include h

/-- A lock without a quorum that comes first is the end of the call. -/
theorem quorumsSelected_of_delivers (hp : p ∈ batch) (hvalid : isValidLock E₀ E₁ p = true) :
    QuorumsSelected E₀ 0 batch := by
  intro x hx hcheck
  by_contra hnone
  rw [Option.not_isSome_iff_eq_none] at hnone
  have hperm := (perm_cons_erase hx).symm
  have hpassed := h _ hperm p (hperm.mem_iff.mpr hp) hvalid
  unfold processPendingInstantSendLocks at hpassed
  rw [processLocks_cons_eq hcheck hnone] at hpassed
  rcases hpassed with hpassed | hpassed <;> cases hpassed

theorem quorumsSelected_failingLocks (hnodup : (batch.map (·.hash)).Nodup) (hp : p ∈ failingLocks E₀ batch)
    (hvalid : isValidLock E₀ E₁ p = true) : QuorumsSelected E₁ E₀.dkgInterval (failingLocks E₀ batch) := by
  intro x hx hcheck
  by_contra hnone
  rw [Option.not_isSome_iff_eq_none] at hnone
  obtain ⟨hp, hp', hpinvalid⟩ := mem_failingLocks.mp hp
  obtain ⟨hx, hx', hxinvalid⟩ := mem_failingLocks.mp hx
  have hne : p ≠ x := by
    rintro rfl
    simp [isValidLock, hpinvalid, hasValidSig.eq_def E₁, hnone] at hvalid
  have hperm : ([x, p] ++ (batch.erase x).erase p).Perm batch :=
    ((perm_cons_erase hx).trans ((perm_cons_erase ((mem_erase_of_ne hne).mpr hp)).cons x)).symm
  -- both are bad, and the one without a quorum comes first again
  have hbad : ∀ y ∈ [x, p], y.hash ∈ (processLocks E₀ 0 ([x, p] ++ (batch.erase x).erase p) false).badISLocks := by
    intro y hy
    refine mem_badISLocks_of_mem_prefix ((hperm.map _).nodup_iff.mpr hnodup)
      (fun z hz => quorumsSelected_of_delivers h hp hvalid z (hperm.mem_iff.mp hz)) ?_ (by simp) hy ?_ false
    · simp [hx', hp']
    · rcases mem_pair.mp hy with rfl | rfl
      · exact hxinvalid
      · exact hpinvalid
  have hpassed := h _ hperm p (hperm.mem_iff.mpr hp) hvalid
  rw [processPendingInstantSendLocks_fst] at hpassed
  rcases hpassed with hpassed | hpassed
  · exact (mem_pend_of_mem_processed hpassed).2 (hbad p (by simp))
  · unfold processPendingInstantSendLocks at hpassed
    dsimp only at hpassed
    generalize processLocks E₀ 0 ([x, p] ++ (batch.erase x).erase p) false = first at hbad hpassed
    rw [cons_append, filter_cons_of_pos (by simpa using hbad x (by simp)),
      processLocks_cons_eq hcheck hnone] at hpassed
    split_ifs at hpassed <;> cases hpassed

end Orders

/-! ### Locks that are handed on -/

theorem Selectable.delivers (h : Selectable E₀ E₁ pend) (hnodup : (pend.map (·.hash)).Nodup) : Delivers E₀ E₁ pend := by
  intro p hp hvalid
  have hfirst := fun x (hx : x ∈ pend) => mem_processed_iff hnodup (h.current p hp hvalid) false hx
  have hmem : ∀ x, x ∈ (pend.filter fun y => (processLocks E₀ 0 pend false).badISLocks.contains y.hash) ↔
      x ∈ pend ∧ x.hash ∈ (processLocks E₀ 0 pend false).badISLocks := by
    simp [mem_filter]
  have hfailing : ∀ x, x ∈ (pend.filter fun y => (processLocks E₀ 0 pend false).badISLocks.contains y.hash) →
      x ∈ failingLocks E₀ pend := by
    intro x hx
    obtain ⟨hx, hbad⟩ := (hmem x).mp hx
    exact mem_failingLocks.mpr ⟨hx, (hfirst x hx).2 hbad⟩
  rw [processPendingInstantSendLocks_fst, (hfirst p hp).1]
  by_cases hbad : p.hash ∈ (processLocks E₀ 0 pend false).badISLocks
  · right
    have hp' := (hmem p).mpr ⟨hp, hbad⟩
    have hsecond := mem_processed_iff ((filter_sublist.map _).nodup hnodup)
      (fun x hx => h.previous p (hfailing p hp') hvalid x (hfailing x hx)) true hp'
    unfold processPendingInstantSendLocks
    dsimp only
    rw [if_neg (by rw [List.isEmpty_iff]; exact List.ne_nil_of_mem hbad)]
    refine hsecond.1.mpr fun hbad' => ?_
    simp [isValidLock, ((hfirst p hp).2 hbad).2, (hsecond.2 hbad').2] at hvalid
  · exact .inl hbad

/-- For every content of the queue: the valid locks of a batch are handed on, in whatever order the batch comes, exactly
if a quorum is selected for each lock that is checked beside a valid one. -/
theorem processPendingInstantSendLocks_delivers (E₀ E₁ : LockEnv) (pending : PendingLocks) (deterministic : Bool) :
    (∀ pend : List PendingLock, pend.Perm (takeLocks deterministic 0 pending.locks).1 → Delivers E₀ E₁ pend) ↔
      Selectable E₀ E₁ (takeLocks deterministic 0 pending.locks).1 := by
  have hnodup : ((takeLocks deterministic 0 pending.locks).1.map (·.hash)).Nodup :=
    ((takeLocks_sublist deterministic 0 pending.locks).map _).nodup pending.nodup
  refine ⟨fun h => ⟨fun p hp hvalid => ?_, fun p hp hvalid => ?_⟩, fun h pend hperm => ?_⟩
  · exact quorumsSelected_of_delivers h hp hvalid
  · exact quorumsSelected_failingLocks h hnodup hp hvalid
  · exact (h.perm hperm).delivers ((hperm.map _).nodup_iff.mpr hnodup)

/-- There is no quorum yet in the cycle of the first block. -/
def sampleCycleEnv : LockEnv :=
  { sampleLockEnv with
    lookupBlockIndex := fun cycleHash => some cycleHash.toNat
    selectQuorumForSigning := fun _ nSignHeight _ => if nSignHeight < 24 then none else some ⟨9#256, ⟨1#383⟩⟩ }

def sampleCycleLock (nodeId : NodeId) (cycleHash : Uint256) (sig : CBLSSignature) : PendingLock :=
  { sampleLock nodeId sig with islock := { (sampleLock nodeId sig).islock with nVersion := 1, cycleHash := cycleHash } }

/-- A lock of the first cycle takes a valid lock of another peer with it. -/
theorem validLock_lost : ∃ (E : LockEnv) (pending : PendingLocks),
    ¬ Delivers E E (takeLocks true 0 pending.locks).1 := by
  refine ⟨sampleCycleEnv, ⟨[sampleCycleLock 2 0 (some ⟨2⟩), sampleCycleLock 1 72 (some ⟨1⟩)], by decide⟩, fun h => ?_⟩
  have := h (sampleCycleLock 1 72 (some ⟨1⟩)) (by decide) (by decide)
  revert this
  decide

end OmegaCore.Llmq
