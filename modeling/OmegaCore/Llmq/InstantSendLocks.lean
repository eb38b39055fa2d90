import Mathlib.Data.Set.Finite.Basic
import OmegaCore.Bls.BatchVerifier

/-!
The verification of pending InstantSend locks.  A call takes up to 32 locks from the queue and
verifies them against the current active set, and those that fail against the previous one.  Every
lock that the batch verifier does not report as a bad message is handed on.
-/

namespace OmegaCore.Llmq

open CBLSBatchVerifier List

abbrev NodeId := Int

/-- The signature is decoded when it is looked at. -/
structure CInstantSendLock where
  nVersion : BitVec 8 := 0
  inputs : List COutPoint
  txid : Uint256
  cycleHash : Uint256
  sig : CBLSSignature
  deriving DecidableEq

/-- `islock_version` is 0. -/
def CInstantSendLock.isDeterministic (islock : CInstantSendLock) : Bool :=
  decide (islock.nVersion ≠ 0)

/-- An element of `pendingInstantSendLocks`. -/
structure PendingLock where
  hash : Uint256
  nodeId : NodeId
  islock : CInstantSendLock
  deriving DecidableEq

/-- What `pendingInstantSendLocks` holds, in the order of its iteration. -/
structure PendingLocks where
  locks : List PendingLock
  nodup : (locks.map (·.hash)).Nodup

/-- A quorum and its valid public key. -/
structure CQuorum where
  quorumHash : Uint256
  quorumPublicKey : G1Element
  deriving DecidableEq

structure CRecoveredSig where
  quorumHash : Uint256
  id : Uint256
  msgHash : Uint256
  sig : CBLSSignature
  deriving DecidableEq

/-- What a verification looks up, for the LLMQ type of the call. -/
structure LockEnv where
  getRequestId : List COutPoint → Uint256
  hasRecoveredSig : Uint256 → Uint256 → Bool
  hasRecoveredSigForId : Uint256 → Bool
  /-- The height of a known block. -/
  lookupBlockIndex : Uint256 → Option Int
  chainHeight : Int
  dkgInterval : Int
  /-- `SelectQuorumForSigning` for a request id, a sign height and an offset. -/
  selectQuorumForSigning : Uint256 → Int → Int → Option CQuorum
  buildSignHash : Uint256 → Uint256 → Uint256 → Uint256
  verifyInsecure : G1Element → Uint256 → G2Element → Bool

variable (E : LockEnv) (signOffset : Int)

/-- `nSignHeight`, unless the block of the cycle is unknown. -/
def LockEnv.signHeight (islock : CInstantSendLock) : Option Int :=
  if islock.isDeterministic then
    (E.lookupBlockIndex islock.cycleHash).map fun nHeight =>
      if nHeight + E.dkgInterval < E.chainHeight then nHeight + E.dkgInterval - 1 else -1
  else some (-1)

/-! ### One verification -/

abbrev LockVerifier := CBLSBatchVerifier NodeId Uint256

/-- `recSigs.try_emplace`. -/
def addRecSig (hash : Uint256) (recSig : CRecoveredSig) (recSigs : List (Uint256 × CRecoveredSig)) :
    List (Uint256 × CRecoveredSig) :=
  if (recSigs.lookup hash).isSome then recSigs else recSigs ++ [(hash, recSig)]

/-- One lock of the first loop.  There is no result if no quorum can be selected. -/
def pushLock (s : LockVerifier × List (Uint256 × CRecoveredSig)) (p : PendingLock) :
    Option (LockVerifier × List (Uint256 × CRecoveredSig)) :=
  if p.nodeId ∈ s.1.badSources then some s
  else
    match p.islock.sig with
    | none => some ({ s.1 with badSources := s.1.badSources.insert p.nodeId }, s.2)
    | some sig =>
      let id := E.getRequestId p.islock.inputs
      -- no need to verify a lock whose recovered signature was verified
      if E.hasRecoveredSig id p.islock.txid then some s
      else
        match E.signHeight p.islock with
        | none => some ({ s.1 with badSources := s.1.badSources.insert p.nodeId }, s.2)
        | some nSignHeight =>
          match E.selectQuorumForSigning id nSignHeight signOffset with
          | none => none
          | some quorum =>
            let signHash := E.buildSignHash quorum.quorumHash id p.islock.txid
            let batchVerifier :=
              s.1.pushMessage E.verifyInsecure p.nodeId ⟨p.hash, signHash, sig, quorum.quorumPublicKey⟩
            let recSigs :=
              if !E.hasRecoveredSigForId id then
                addRecSig p.hash ⟨quorum.quorumHash, id, p.islock.txid, p.islock.sig⟩ s.2
              else s.2
            some (batchVerifier, recSigs)

def pushLocks : List PendingLock → LockVerifier × List (Uint256 × CRecoveredSig) →
    Option (LockVerifier × List (Uint256 × CRecoveredSig))
  | [], s => some s
  | p :: pend, s =>
    match pushLock E signOffset s p with
    | none => none
    | some s => pushLocks pend s

/-- What a verification does: the locks for `ProcessInstantSendLock`, those that are bad, the signatures for the
signing manager, and the peers that are punished. -/
structure LockResult where
  processed : List PendingLock := []
  badISLocks : List Uint256 := []
  reconstructed : List CRecoveredSig := []
  misbehaving : List NodeId := []
  deriving DecidableEq

/-- `ProcessPendingInstantSendLocks` with an offset. -/
def processLocks (pend : List PendingLock) (ban : Bool) : LockResult :=
  match pushLocks E signOffset pend ({ perMessageFallback := true, subBatchSize := 8 }, []) with
  | none => {}
  | some (batchVerifier, recSigs) =>
    let batchVerifier := batchVerifier.verify E.verifyInsecure
    let processed := pend.filter fun p => !batchVerifier.badMessages.contains p.hash
    { processed := processed
      badISLocks := (pend.filter fun p => batchVerifier.badMessages.contains p.hash).map (·.hash)
      reconstructed :=
        (processed.filterMap fun p => recSigs.lookup p.hash).filter fun recSig => !E.hasRecoveredSigForId recSig.id
      misbehaving := if ban then batchVerifier.badSources else [] }

/-! ### A call -/

/-- The batch that is taken, after some locks were, and whether there is more. -/
def takeLocks (deterministic : Bool) : ℕ → List PendingLock → List PendingLock × Bool
  | _, [] => ([], false)
  | n, p :: pending =>
    if n ≥ 32 then ([], true)
    else if p.islock.isDeterministic ≠ deterministic then takeLocks deterministic n pending
    else
      let rest := takeLocks deterministic (n + 1) pending
      (p :: rest.1, rest.2)

/-- The two verifications of a call for the batch it took, in the order in which that map is iterated.  What is looked
up may have changed before the second. -/
def processPendingInstantSendLocks (E₀ E₁ : LockEnv) (pend : List PendingLock) : LockResult × LockResult :=
  let first := processLocks E₀ 0 pend false
  if first.badISLocks.isEmpty then (first, {})
  else
    (first, processLocks E₁ E₀.dkgInterval (pend.filter fun p => first.badISLocks.contains p.hash) true)

/-! ### What is pushed and what is not -/

/-- What the verifier is asked about a lock, if a quorum is selected for it. -/
def messageFor (p : PendingLock) : Option (BatchMessage Uint256) :=
  match p.islock.sig, E.signHeight p.islock with
  | some sig, some nSignHeight =>
    (E.selectQuorumForSigning (E.getRequestId p.islock.inputs) nSignHeight signOffset).map fun quorum =>
      ⟨p.hash, E.buildSignHash quorum.quorumHash (E.getRequestId p.islock.inputs) p.islock.txid, sig,
        quorum.quorumPublicKey⟩
  | _, _ => none

/-- The signature verifies for the request id and the transaction, under the key of the quorum that is selected. -/
def hasValidSig (p : PendingLock) : Bool :=
  match messageFor E signOffset p with
  | none => false
  | some msg => verifiesMessage E.verifyInsecure msg

/-- The lock has a signature and a known cycle, and no recovered signature. -/
def isCheckable (p : PendingLock) : Bool :=
  p.islock.sig.isSome && !E.hasRecoveredSig (E.getRequestId p.islock.inputs) p.islock.txid &&
    (E.signHeight p.islock).isSome

/-- The lock makes its peer bad without a verification: it has no signature, or its cycle is unknown. -/
def marksPeer (p : PendingLock) : Bool :=
  p.islock.sig.isNone ||
    (!E.hasRecoveredSig (E.getRequestId p.islock.inputs) p.islock.txid && (E.signHeight p.islock).isNone)

/-- The lock is pushed, unless its peer is bad. -/
def isPushable (p : PendingLock) : Bool :=
  isCheckable E p && (messageFor E signOffset p).isSome

variable {E signOffset}

variable {p : PendingLock} {msg : BatchMessage Uint256}

theorem of_marksPeer (h : marksPeer E p = true) : isCheckable E p = false ∧ hasValidSig E signOffset p = false := by
  simp only [marksPeer, Bool.or_eq_true, Option.isNone_iff_eq_none, Bool.and_eq_true, Bool.not_eq_true'] at h
  rcases h with hsig | ⟨-, hheight⟩
  · simp [isCheckable, hasValidSig, messageFor, hsig]
  · cases hsig : p.islock.sig <;> simp [isCheckable, hasValidSig, messageFor, hsig, hheight]

theorem messageFor_msgId (h : messageFor E signOffset p = some msg) : msg.msgId = p.hash := by
  unfold messageFor at h
  split at h
  · obtain ⟨quorum, -, rfl⟩ := Option.map_eq_some_iff.mp h
    rfl
  · cases h

theorem hasValidSig_of_messageFor (h : messageFor E signOffset p = some msg) :
    hasValidSig E signOffset p = verifiesMessage E.verifyInsecure msg := by
  rw [hasValidSig, h]

theorem pushLock_cases {s s' : LockVerifier × List (Uint256 × CRecoveredSig)}
    (h : pushLock E signOffset s p = some s') :
    (p.nodeId ∈ s.1.badSources ∧ s' = s) ∨
    (isCheckable E p = false ∧ marksPeer E p = false ∧ s' = s) ∨
    (marksPeer E p = true ∧ s'.1 = { s.1 with badSources := s.1.badSources.insert p.nodeId }) ∨
    (isCheckable E p = true ∧ p.nodeId ∉ s.1.badSources ∧
      ∃ msg, messageFor E signOffset p = some msg ∧ s'.1 = s.1.pushMessage E.verifyInsecure p.nodeId msg) := by
  unfold pushLock at h
  split at h
  next hbad =>
    cases h
    exact .inl ⟨hbad, rfl⟩
  next hbad =>
  cases hsig : p.islock.sig with
  | none =>
    rw [hsig] at h
    cases h
    exact .inr (.inr (.inl ⟨by simp [marksPeer, hsig], rfl⟩))
  | some sig =>
    rw [hsig] at h
    dsimp only at h
    split at h
    next hrecovered =>
      cases h
      exact .inr (.inl ⟨by simp [isCheckable, hrecovered], by simp [marksPeer, hsig, hrecovered], rfl⟩)
    next hrecovered =>
    cases hheight : E.signHeight p.islock with
    | none =>
      rw [hheight] at h
      cases h
      exact .inr (.inr (.inl ⟨by simp [marksPeer, hheight, hrecovered], rfl⟩))
    | some nSignHeight =>
      rw [hheight] at h
      dsimp only at h
      split at h
      · cases h
      next quorum hquorum =>
        cases h
        refine .inr (.inr (.inr ⟨?_, hbad, _, ?_, rfl⟩))
        · simpa [isCheckable, hsig, hheight] using hrecovered
        · simp [messageFor, hsig, hheight, hquorum]

theorem pushLock_isSome {s : LockVerifier × List (Uint256 × CRecoveredSig)} {p : PendingLock}
    (h : isCheckable E p = true → (messageFor E signOffset p).isSome = true) :
    (pushLock E signOffset s p).isSome = true := by
  unfold pushLock
  split
  · rfl
  cases hsig : p.islock.sig with
  | none => rfl
  | some sig =>
    dsimp only
    split
    · rfl
    next hrecovered =>
    cases hheight : E.signHeight p.islock with
    | none => rfl
    | some nSignHeight =>
      have hsome := h (by simpa [isCheckable, hsig, hheight] using hrecovered)
      simp only [messageFor, hsig, hheight, Option.isSome_map] at hsome
      obtain ⟨quorum, hquorum⟩ := Option.isSome_iff_exists.mp hsome
      simp [hquorum]

theorem pushLocks_append (l₁ l₂ : List PendingLock) (s : LockVerifier × List (Uint256 × CRecoveredSig)) :
    pushLocks E signOffset (l₁ ++ l₂) s = (pushLocks E signOffset l₁ s).bind (pushLocks E signOffset l₂) := by
  induction l₁ generalizing s with
  | nil => rfl
  | cons p l₁ ih =>
    rw [cons_append, pushLocks, pushLocks]
    cases pushLock E signOffset s p with
    | none => rfl
    | some s₁ => exact ih s₁

def pushedAs (q : PendingLock × BatchMessage Uint256) : NodeId × BatchMessage Uint256 :=
  (q.1.nodeId, q.2)

/-- The locks of a prefix: pushed in full sub-batches, pushed since, or left out. -/
structure Dispatched (E : LockEnv) (signOffset : Int) (v : LockVerifier) (marked : List NodeId)
    (flushed current : List (PendingLock × BatchMessage Uint256)) (skipped : List PendingLock) : Prop where
  tracks : Tracks E.verifyInsecure 8 v marked (flushed.map pushedAs) (current.map pushedAs)
  isPushed : ∀ q ∈ flushed ++ current, isCheckable E q.1 = true ∧ messageFor E signOffset q.1 = some q.2
  isFull : 8 ∣ flushed.length
  isPending : current.length < 8
  count : v.messages.length = current.length
  isMarked : ∀ n ∈ marked, ∃ p ∈ skipped, p.nodeId = n ∧ marksPeer E p = true
  isSkipped : ∀ p ∈ skipped, isCheckable E p = true →
    p.nodeId ∈ marked ∨ ∃ q ∈ flushed, q.1.nodeId = p.nodeId ∧ hasValidSig E signOffset q.1 = false

section Dispatched

variable {v : LockVerifier} {marked : List NodeId} {flushed current : List (PendingLock × BatchMessage Uint256)}
  {skipped : List PendingLock} (h : Dispatched E signOffset v marked flushed current skipped)

include h

/-- A peer is bad that sent a lock without a signature or with an unknown cycle, or one that failed in a full
sub-batch. -/
theorem Dispatched.mem_badSources (n : NodeId) :
    n ∈ v.badSources ↔ n ∈ marked ∨ ∃ q ∈ flushed, q.1.nodeId = n ∧ hasValidSig E signOffset q.1 = false := by
  rw [h.tracks.badSources]
  refine or_congr Iff.rfl ⟨?_, ?_⟩
  · rintro ⟨r, hr, rfl, hfail⟩
    obtain ⟨q, hq, rfl⟩ := mem_map.mp hr
    refine ⟨q, hq, rfl, ?_⟩
    rw [hasValidSig_of_messageFor (h.isPushed q (mem_append_left _ hq)).2]
    exact hfail
  · rintro ⟨q, hq, rfl, hfail⟩
    refine ⟨pushedAs q, mem_map_of_mem hq, rfl, ?_⟩
    rw [hasValidSig_of_messageFor (h.isPushed q (mem_append_left _ hq)).2] at hfail
    exact hfail

theorem Dispatched.skip {p : PendingLock} (hp : isCheckable E p = true → p.nodeId ∈ v.badSources) :
    Dispatched E signOffset v marked flushed current (skipped ++ [p]) := by
  refine ⟨h.tracks, h.isPushed, h.isFull, h.isPending, h.count, fun n hn => ?_, fun x hx hcheck => ?_⟩
  · obtain ⟨x, hx, hrest⟩ := h.isMarked n hn
    exact ⟨x, mem_append_left _ hx, hrest⟩
  · rcases mem_append.mp hx with hx | hx
    · exact h.isSkipped x hx hcheck
    · rw [mem_singleton.mp hx] at hcheck ⊢
      exact (h.mem_badSources _).mp (hp hcheck)

variable {p : PendingLock}

theorem Dispatched.mark (hmarks : marksPeer E p = true) :
    Dispatched E signOffset { v with badSources := v.badSources.insert p.nodeId } (p.nodeId :: marked) flushed current
      (skipped ++ [p]) := by
  refine ⟨h.tracks.mark p.nodeId, h.isPushed, h.isFull, h.isPending, h.count, fun n hn => ?_, fun x hx hx' => ?_⟩
  · rcases mem_cons.mp hn with rfl | hn
    · exact ⟨p, mem_append_right _ mem_cons_self, rfl, hmarks⟩
    · obtain ⟨x, hx, hrest⟩ := h.isMarked n hn
      exact ⟨x, mem_append_left _ hx, hrest⟩
  · rcases mem_append.mp hx with hx | hx
    · exact (h.isSkipped x hx hx').imp_left (mem_cons_of_mem _)
    · rw [mem_singleton.mp hx, (@of_marksPeer E signOffset p hmarks).1] at hx'
      cases hx'

theorem Dispatched.push {msg : BatchMessage Uint256} (hnew : ∀ q ∈ current, q.1.hash ≠ p.hash) (hcheck : isCheckable E p = true)
    (hmsg : messageFor E signOffset p = some msg) :
    ∃ fl cu, Dispatched E signOffset (v.pushMessage E.verifyInsecure p.nodeId msg) marked fl cu skipped ∧
      fl ++ cu = flushed ++ (current ++ [(p, msg)]) := by
  have htracks := h.tracks.pushMessage p.nodeId msg (by
    intro r hr
    obtain ⟨q, hq, rfl⟩ := mem_map.mp hr
    have hid := messageFor_msgId (h.isPushed q (mem_append_right _ hq)).2
    rw [messageFor_msgId hmsg]
    show q.2.msgId ≠ p.hash
    rw [hid]
    exact hnew q hq)
  have hpushed : ∀ q ∈ flushed ++ (current ++ [(p, msg)]),
      isCheckable E q.1 = true ∧ messageFor E signOffset q.1 = some q.2 := by
    intro q hq
    rw [← append_assoc] at hq
    rcases mem_append.mp hq with hq | hq
    · exact h.isPushed q hq
    · rw [mem_singleton.mp hq]
      exact ⟨hcheck, hmsg⟩
  rw [h.count] at htracks
  split_ifs at htracks with hfull
  · refine ⟨flushed ++ (current ++ [(p, msg)]), [], ⟨?_, ?_, ?_, by simp, ?_, h.isMarked, fun x hx hx' => ?_⟩,
      append_nil _⟩
    · rw [map_append, map_append]
      exact htracks.1
    · rw [append_nil]
      exact hpushed
    · have hfull' := h.isFull
      have hpending := h.isPending
      rw [length_append, length_append, length_singleton]
      omega
    · rw [htracks.2]
      rfl
    · refine (h.isSkipped x hx hx').imp_right ?_
      rintro ⟨q, hq, hrest⟩
      exact ⟨q, mem_append_left _ hq, hrest⟩
  · refine ⟨flushed, current ++ [(p, msg)], ⟨?_, hpushed, h.isFull, ?_, ?_, h.isMarked, h.isSkipped⟩, rfl⟩
    · rw [map_append]
      exact htracks.1
    · rw [length_append, length_singleton]
      omega
    · rw [htracks.2, length_append, length_append, h.count]
      rfl

def seenLocks (flushed current : List (PendingLock × BatchMessage Uint256)) (skipped : List PendingLock) :
    List PendingLock :=
  (flushed ++ current).map Prod.fst ++ skipped

omit h

variable {s s' : LockVerifier × List (Uint256 × CRecoveredSig)}

theorem Dispatched.pushLock (h : Dispatched E signOffset s.1 marked flushed current skipped) {rest : List PendingLock}
    (hnodup : ((seenLocks flushed current skipped ++ p :: rest).map (·.hash)).Nodup)
    (hpush : pushLock E signOffset s p = some s') :
    ∃ mk fl cu sk, Dispatched E signOffset s'.1 mk fl cu sk ∧
      (seenLocks fl cu sk ++ rest).Perm (seenLocks flushed current skipped ++ p :: rest) ∧ (∀ x ∈ skipped, x ∈ sk) ∧
      (∀ q ∈ flushed ++ current, q ∈ fl ++ cu) ∧ (p.nodeId ∈ s.1.badSources → p ∈ sk) := by
  by_cases hskip : ∃ mk, Dispatched E signOffset s'.1 mk flushed current (skipped ++ [p])
  · obtain ⟨mk, hd⟩ := hskip
    refine ⟨mk, flushed, current, skipped ++ [p], hd, ?_, ?_, fun q hq => hq, ?_⟩
    · simp [seenLocks]
    · exact fun x hx => mem_append_left _ hx
    · exact fun _ => mem_append_right _ mem_cons_self
  · rcases pushLock_cases hpush with ⟨hbad, rfl⟩ | ⟨hcheck, -, rfl⟩ | ⟨hmarks, heq⟩ | ⟨hcheck, hbad, msg, hmsg, heq⟩
    · exact absurd ⟨marked, h.skip fun _ => hbad⟩ hskip
    · exact absurd ⟨marked, h.skip (by simp [hcheck])⟩ hskip
    · exact absurd ⟨_, heq ▸ h.mark hmarks⟩ hskip
    · have hnew : ∀ q ∈ current, q.1.hash ≠ p.hash := by
        intro q hq he
        rw [map_append, nodup_append] at hnodup
        refine hnodup.2.2 _ (mem_map_of_mem ?_) _ (mem_map_of_mem mem_cons_self) he
        exact mem_append_left _ (mem_map_of_mem (mem_append_right _ hq))
      obtain ⟨fl, cu, hd, happ⟩ := h.push hnew hcheck hmsg
      refine ⟨marked, fl, cu, skipped, heq ▸ hd, ?_, fun x hx => hx, ?_, fun hmem => absurd hmem hbad⟩
      swap
      · rw [happ, ← append_assoc]
        exact fun q hq => mem_append_left _ hq
      rw [seenLocks, happ, seenLocks, ← append_assoc, map_append, append_assoc, append_assoc,
        append_assoc]
      exact Perm.append_left _ (@perm_middle _ p skipped rest).symm

theorem Dispatched.pushLocks (h : Dispatched E signOffset s.1 marked flushed current skipped) {pend : List PendingLock}
    (hnodup : ((seenLocks flushed current skipped ++ pend).map (·.hash)).Nodup)
    (hpush : pushLocks E signOffset pend s = some s') :
    ∃ mk fl cu sk, Dispatched E signOffset s'.1 mk fl cu sk ∧
      (seenLocks fl cu sk).Perm (seenLocks flushed current skipped ++ pend) ∧ (∀ x ∈ skipped, x ∈ sk) ∧
      ∀ q ∈ flushed ++ current, q ∈ fl ++ cu := by
  induction pend generalizing s marked flushed current skipped with
  | nil =>
    cases hpush
    refine ⟨marked, flushed, current, skipped, h, ?_, fun x hx => hx, fun q hq => hq⟩
    rw [append_nil]
  | cons p pend ih =>
    rw [Llmq.pushLocks] at hpush
    cases hone : Llmq.pushLock E signOffset s p with
    | none =>
      rw [hone] at hpush
      cases hpush
    | some s₁ =>
      rw [hone] at hpush
      obtain ⟨mk, fl, cu, sk, hd, hperm, hsub, hkeep, -⟩ := h.pushLock hnodup hone
      obtain ⟨mk', fl', cu', sk', hd', hperm', hsub', hkeep'⟩ := ih hd ((hperm.map _).nodup_iff.mpr hnodup) hpush
      exact ⟨mk', fl', cu', sk', hd', hperm'.trans hperm, fun x hx => hsub' x (hsub x hx),
        fun q hq => hkeep' q (hkeep q hq)⟩

theorem pushLock_of_isPushable (hp : isPushable E signOffset p = true) (hgood : p.nodeId ∉ s.1.badSources) :
    ∃ s' msg, Llmq.pushLock E signOffset s p = some s' ∧ messageFor E signOffset p = some msg ∧
      s'.1 = s.1.pushMessage E.verifyInsecure p.nodeId msg := by
  obtain ⟨hcheck, hsome⟩ := (Bool.and_eq_true _ _).mp hp
  obtain ⟨s', hs'⟩ := Option.isSome_iff_exists.mp (@pushLock_isSome E signOffset s p fun _ => hsome)
  rcases pushLock_cases hs' with ⟨hbad, -⟩ | ⟨hcheck', -⟩ | ⟨hmarks, -⟩ | ⟨-, -, msg, hmsg, heq⟩
  · exact absurd hbad hgood
  · cases hcheck.symm.trans hcheck'
  · cases hcheck.symm.trans (@of_marksPeer E signOffset p hmarks).1
  · exact ⟨s', msg, hs', hmsg, heq⟩

/-- Locks that fit into the current sub-batch are all pushed: nobody gets bad before it is full. -/
theorem Dispatched.pushAll (h : Dispatched E signOffset s.1 marked flushed current skipped) {a : List PendingLock}
    (hlen : current.length + a.length ≤ 8) (hnodup : ((seenLocks flushed current skipped ++ a).map (·.hash)).Nodup)
    (ha : ∀ p ∈ a, isPushable E signOffset p = true ∧ p.nodeId ∉ s.1.badSources) :
    ∃ s' fl cu, Llmq.pushLocks E signOffset a s = some s' ∧ Dispatched E signOffset s'.1 marked fl cu skipped ∧
      (fl ++ cu).map Prod.fst = (flushed ++ current).map Prod.fst ++ a := by
  induction a generalizing s flushed current with
  | nil => exact ⟨s, flushed, current, rfl, h, (append_nil _).symm⟩
  | cons p a ih =>
    obtain ⟨⟨hp, hgood⟩, ha⟩ := forall_mem_cons.mp ha
    obtain ⟨s₁, msg, hone, hmsg, heq⟩ := pushLock_of_isPushable hp hgood
    have hnew : ∀ q ∈ current, q.1.hash ≠ p.hash := by
      intro q hq he
      rw [map_append, nodup_append] at hnodup
      refine hnodup.2.2 _ (mem_map_of_mem ?_) _ (mem_map_of_mem mem_cons_self) he
      exact mem_append_left _ (mem_map_of_mem (mem_append_right _ hq))
    obtain ⟨fl, cu, hd, happ⟩ := h.push hnew ((Bool.and_eq_true _ _).mp hp).1 hmsg
    rw [← heq] at hd
    have hlengths := congrArg length happ
    simp only [length_append, length_cons, length_nil] at hlengths hlen
    have hfull := h.isFull
    have hfull' := hd.isFull
    have hpending := hd.isPending
    have hmap : (fl ++ cu).map Prod.fst = (flushed ++ current).map Prod.fst ++ [p] := by
      rw [happ, ← append_assoc, map_append]
      rfl
    have hseen : (seenLocks fl cu skipped ++ a).Perm (seenLocks flushed current skipped ++ p :: a) := by
      rw [seenLocks, hmap, seenLocks, append_assoc, append_assoc, append_assoc]
      exact Perm.append_left _ (@perm_middle _ p skipped a).symm
    obtain ⟨s', fl', cu', hpush, hd', hmap'⟩ := ih hd (by omega) ((hseen.map _).nodup_iff.mpr hnodup) fun q hq => by
      have hpos := length_pos_of_mem hq
      obtain ⟨rfl, -⟩ := append_inj happ (by omega)
      refine ⟨(ha q hq).1, fun hbad => (ha q hq).2 ?_⟩
      rw [h.mem_badSources]
      exact (hd.mem_badSources _).mp hbad
    refine ⟨s', fl', cu', ?_, hd', ?_⟩
    · rw [Llmq.pushLocks, hone]
      exact hpush
    · rw [hmap', hmap, append_assoc, singleton_append]

/-- Eight locks are a full sub-batch. -/
theorem Dispatched.pushGroup (h : Dispatched E signOffset s.1 marked flushed [] skipped) {a : List PendingLock}
    (hlen : a.length = 8) (hnodup : ((seenLocks flushed [] skipped ++ a).map (·.hash)).Nodup)
    (ha : ∀ p ∈ a, isPushable E signOffset p = true ∧ p.nodeId ∉ s.1.badSources) :
    ∃ s' fl, Llmq.pushLocks E signOffset a s = some s' ∧ Dispatched E signOffset s'.1 marked fl [] skipped ∧
      fl.map Prod.fst = flushed.map Prod.fst ++ a := by
  obtain ⟨s', fl, cu, hpush, hd, hmap⟩ := h.pushAll (by simp [hlen]) hnodup ha
  have hlengths := congrArg length hmap
  have hfull := h.isFull
  have hfull' := hd.isFull
  have hpending := hd.isPending
  simp only [length_map, length_append, length_nil, hlen] at hlengths
  obtain rfl : cu = [] := length_eq_zero_iff.mp (by omega)
  refine ⟨s', fl, hpush, hd, ?_⟩
  rwa [append_nil, append_nil] at hmap

/-- Full sub-batches without a common peer are all pushed. -/
theorem Dispatched.pushGroups (h : Dispatched E signOffset s.1 marked flushed [] skipped) {gs : List (List PendingLock)}
    (hgs : ∀ g ∈ gs, g.length = 8 ∧ ∀ p ∈ g, isPushable E signOffset p = true ∧ p.nodeId ∉ s.1.badSources)
    (hnodup : ((seenLocks flushed [] skipped ++ gs.flatten).map (·.hash)).Nodup)
    (hapart : gs.Pairwise fun g g' => ∀ p ∈ g, ∀ q ∈ g', p.nodeId ≠ q.nodeId) :
    ∃ s' fl, Llmq.pushLocks E signOffset gs.flatten s = some s' ∧ Dispatched E signOffset s'.1 marked fl [] skipped ∧
      fl.map Prod.fst = flushed.map Prod.fst ++ gs.flatten := by
  induction gs generalizing s flushed with
  | nil => exact ⟨s, flushed, rfl, h, (append_nil _).symm⟩
  | cons g gs ih =>
    obtain ⟨⟨hlen, hg⟩, hgs⟩ := forall_mem_cons.mp hgs
    obtain ⟨hfirst, hapart⟩ := pairwise_cons.mp hapart
    rw [flatten_cons, ← append_assoc] at hnodup
    obtain ⟨s₁, fl₁, hpush₁, hd₁, hmap₁⟩ := h.pushGroup hlen (((sublist_append_left _ _).map _).nodup hnodup) hg
    have hseen : (seenLocks fl₁ [] skipped).Perm (seenLocks flushed [] skipped ++ g) := by
      rw [seenLocks, append_nil, hmap₁, seenLocks, append_nil, append_assoc, append_assoc]
      exact Perm.append_left _ perm_append_comm
    have hgood : ∀ g' ∈ gs, ∀ p ∈ g', p.nodeId ∉ s₁.1.badSources := by
      intro g' hg' p hp hbad
      refine ((hgs g' hg').2 p hp).2 ((h.mem_badSources _).mpr ?_)
      refine ((hd₁.mem_badSources _).mp hbad).imp_right ?_
      rintro ⟨q, hq, hnode, hfail⟩
      rcases mem_append.mp (hmap₁ ▸ mem_map_of_mem hq) with hold | hnew
      · obtain ⟨r, hr, heq⟩ := mem_map.mp hold
        exact ⟨r, hr, heq ▸ hnode, heq ▸ hfail⟩
      · exact absurd hnode (hfirst g' hg' q.1 hnew p hp)
    obtain ⟨s', fl, hpush, hd, hmap⟩ := ih hd₁ (fun g' hg' => ⟨(hgs g' hg').1, fun p hp =>
      ⟨((hgs g' hg').2 p hp).1, hgood g' hg' p hp⟩⟩) (((hseen.append_right _).map _).nodup_iff.mpr hnodup) hapart
    refine ⟨s', fl, ?_, hd, ?_⟩
    · rw [flatten_cons, pushLocks_append, hpush₁]
      exact hpush
    · rw [hmap, hmap₁, flatten_cons, append_assoc]

end Dispatched

variable {E : LockEnv} {signOffset : Int}

/-- A batch for which no invalid lock is left out by the verifier, in whatever order it comes. -/
structure Screened (E : LockEnv) (signOffset : Int) (pend : List PendingLock) : Prop where
  checked : ∀ p ∈ pend, hasValidSig E signOffset p = false → isCheckable E p = true
  once : (pend.filter (isCheckable E)).length ≤ 8 ∨
    ((pend.filter fun p => !hasValidSig E signOffset p).map (·.nodeId)).Nodup

/-- A quorum is selected for every lock that is checked. -/
def QuorumsSelected (E : LockEnv) (signOffset : Int) (pend : List PendingLock) : Prop :=
  ∀ p ∈ pend, isCheckable E p = true → (messageFor E signOffset p).isSome = true

theorem Screened.perm {pend pend' : List PendingLock} (h : Screened E signOffset pend) (hperm : pend'.Perm pend) :
    Screened E signOffset pend' where
  checked p hp := h.checked p (hperm.mem_iff.mp hp)
  once := by
    rw [(hperm.filter _).length_eq, ((hperm.filter _).map _).nodup_iff]
    exact h.once

/-! ### The result of a verification -/

def startVerifier : LockVerifier :=
  { perMessageFallback := true, subBatchSize := 8 }

theorem dispatched_start : Dispatched E signOffset startVerifier [] [] [] [] where
  tracks := by
    refine ⟨rfl, rfl, fun m => ?_, fun s m => ?_, fun s => ?_, fun id => ?_⟩
    · simp [startVerifier]
    · simp [startVerifier]
    · simp [startVerifier]
    · simp [startVerifier]
  isPushed q hq := absurd hq not_mem_nil
  isFull := dvd_zero 8
  isPending := by simp
  count := rfl
  isMarked n hn := absurd hn not_mem_nil
  isSkipped p hp := absurd hp not_mem_nil

section Result

variable {v : LockVerifier} {recSigs : List (Uint256 × CRecoveredSig)} {marked : List NodeId}
  {flushed current : List (PendingLock × BatchMessage Uint256)} {skipped pend : List PendingLock} {p : PendingLock}
  (h : Dispatched E signOffset v marked flushed current skipped) (hnodup : (pend.map (·.hash)).Nodup)
  (hperm : (seenLocks flushed current skipped).Perm pend)

include h hnodup hperm

/-- The bad messages are the invalid locks among those that were pushed. -/
theorem Dispatched.mem_badMessages (hp : p ∈ pend) :
    p.hash ∈ (v.verify E.verifyInsecure).badMessages ↔
      p ∈ (flushed ++ current).map Prod.fst ∧ hasValidSig E signOffset p = false := by
  rw [h.tracks.verify.2.2.1, ← map_append]
  constructor
  · rintro ⟨r, hr, hid, hfail⟩
    obtain ⟨q, hq, rfl⟩ := mem_map.mp hr
    have hmsg := (h.isPushed q hq).2
    have hmem : q.1 ∈ pend := hperm.mem_iff.mp (mem_append_left _ (mem_map_of_mem hq))
    have heq : q.1 = p := by
      refine inj_on_of_nodup_map hnodup hmem hp ?_
      rw [← messageFor_msgId hmsg]
      exact hid
    rw [← heq]
    refine ⟨mem_map_of_mem hq, ?_⟩
    rw [hasValidSig_of_messageFor hmsg]
    exact hfail
  · rintro ⟨hpushed, hfail⟩
    obtain ⟨q, hq, rfl⟩ := mem_map.mp hpushed
    have hmsg := (h.isPushed q hq).2
    rw [hasValidSig_of_messageFor hmsg] at hfail
    exact ⟨pushedAs q, mem_map_of_mem hq, messageFor_msgId hmsg, hfail⟩

section

variable (hpush : pushLocks E signOffset pend (startVerifier, []) = some (v, recSigs)) (ban : Bool)

include hpush

theorem mem_processLocks (hp : p ∈ pend) :
    (p ∈ (processLocks E signOffset pend ban).processed ↔
      ¬ (p ∈ (flushed ++ current).map Prod.fst ∧ hasValidSig E signOffset p = false)) ∧
    (p.hash ∈ (processLocks E signOffset pend ban).badISLocks ↔
      p ∈ (flushed ++ current).map Prod.fst ∧ hasValidSig E signOffset p = false) := by
  have hbad := h.mem_badMessages hnodup hperm hp
  unfold processLocks
  rw [show ({ perMessageFallback := true, subBatchSize := 8 } : LockVerifier) = startVerifier from rfl, hpush]
  rw [← hbad]
  refine ⟨?_, ?_⟩
  · simp [mem_filter, hp]
  · rw [mem_map]
    constructor
    · rintro ⟨x, hx, heq⟩
      rw [mem_filter, contains_iff_mem] at hx
      rw [← heq]
      exact hx.2
    · exact fun hmem => ⟨p, mem_filter.mpr ⟨hp, contains_iff_mem.mpr hmem⟩, rfl⟩

/-- A lock that is left out is handed on. -/
theorem mem_processed_of_mem_skipped (hp : p ∈ skipped) : p ∈ (processLocks E signOffset pend ban).processed := by
  have hmem : p ∈ pend := hperm.mem_iff.mp (mem_append_right _ hp)
  rw [(mem_processLocks h hnodup hperm hpush ban hmem).1]
  rintro ⟨hpushed, -⟩
  have hseen : (seenLocks flushed current skipped).Nodup := hperm.nodup_iff.mpr (hnodup.of_map _)
  rw [seenLocks, nodup_append] at hseen
  exact hseen.2.2 p hpushed p hp rfl

end

/-- No invalid lock of a screened batch is left out. -/
theorem Screened.hasValidSig_of_mem_skipped (hs : Screened E signOffset pend) (hp : p ∈ skipped) :
    hasValidSig E signOffset p = true := by
  by_contra hinvalid
  rw [Bool.not_eq_true] at hinvalid
  have hmem : ∀ x ∈ skipped, x ∈ pend := fun x hx => hperm.mem_iff.mp (mem_append_right _ hx)
  have hcheck := hs.checked p (hmem p hp) hinvalid
  rcases h.isSkipped p hp hcheck with hmarked | ⟨q, hq, hnode, hfail⟩
  · obtain ⟨x, hx, -, hmarks⟩ := h.isMarked _ hmarked
    obtain ⟨hx', hfail⟩ := of_marksPeer hmarks
    rw [hs.checked x (hmem x hx) hfail] at hx'
    cases hx'
  have hseen : (seenLocks flushed current skipped).Nodup := hperm.nodup_iff.mpr (hnodup.of_map _)
  rw [seenLocks, map_append, append_assoc, nodup_append] at hseen
  have hapart : ∀ r ∈ flushed, r.1 ≠ p := fun r hr =>
    hseen.2.2 _ (mem_map_of_mem hr) _ (mem_append_right _ hp)
  have hflushed : ∀ r ∈ flushed, r.1 ∈ pend := fun r hr =>
    hperm.mem_iff.mp (mem_append_left _ (mem_map_of_mem (mem_append_left _ hr)))
  rcases hs.once with hfew | honce
  · -- a full sub-batch and this lock are too many
    have hsub : (p :: flushed.map Prod.fst).Subperm (pend.filter (isCheckable E)) := by
      apply subperm_of_subset
      · rw [nodup_cons]
        refine ⟨fun hpf => ?_, hseen.1⟩
        obtain ⟨r, hr, heq⟩ := mem_map.mp hpf
        exact hapart r hr heq
      · intro x hx
        rcases mem_cons.mp hx with rfl | hx
        · exact mem_filter.mpr ⟨hmem _ hp, hcheck⟩
        · obtain ⟨r, hr, rfl⟩ := mem_map.mp hx
          exact mem_filter.mpr ⟨hflushed r hr, (h.isPushed r (mem_append_left _ hr)).1⟩
    have hlen := hsub.length_le
    rw [length_cons, length_map] at hlen
    have hfull := h.isFull
    have hpos := length_pos_of_mem hq
    omega
  · refine hapart q hq (inj_on_of_nodup_map honce ?_ ?_ hnode)
    · exact mem_filter.mpr ⟨hflushed q hq, by simp [hfail]⟩
    · exact mem_filter.mpr ⟨hmem p hp, by simp [hinvalid]⟩

end Result

variable {pend : List PendingLock}

/-- The loop ends early, or everything is pushed or left out. -/
theorem exists_dispatched {s : LockVerifier × List (Uint256 × CRecoveredSig)}
    (hnodup : (pend.map (·.hash)).Nodup) (hpush : pushLocks E signOffset pend (startVerifier, []) = some s) :
    ∃ marked flushed current skipped, Dispatched E signOffset s.1 marked flushed current skipped ∧
      (seenLocks flushed current skipped).Perm pend := by
  obtain ⟨mk, fl, cu, sk, hd, hperm, -, -⟩ :=
    (@dispatched_start E signOffset).pushLocks (s := (startVerifier, [])) (by simpa [seenLocks] using hnodup) hpush
  exact ⟨mk, fl, cu, sk, hd, hperm⟩

theorem processLocks_of_pushLocks_eq_none (ban : Bool)
    (h : pushLocks E signOffset pend (startVerifier, []) = none) : processLocks E signOffset pend ban = {} := by
  unfold processLocks
  rw [show ({ perMessageFallback := true, subBatchSize := 8 } : LockVerifier) = startVerifier from rfl, h]

variable {p : PendingLock}

/-- A screened batch: the bad locks are the invalid ones, unless the loop ends early. -/
theorem Screened.mem_badISLocks (hs : Screened E signOffset pend) (hnodup : (pend.map (·.hash)).Nodup) (ban : Bool) :
    (processLocks E signOffset pend ban = {} ∧ pushLocks E signOffset pend (startVerifier, []) = none) ∨
      ∀ p ∈ pend, p.hash ∈ (processLocks E signOffset pend ban).badISLocks ↔ hasValidSig E signOffset p = false := by
  cases hpush : pushLocks E signOffset pend (startVerifier, []) with
  | none => exact .inl ⟨processLocks_of_pushLocks_eq_none ban hpush, rfl⟩
  | some s =>
    obtain ⟨mk, fl, cu, sk, hd, hperm⟩ := exists_dispatched hnodup hpush
    refine .inr fun p hp => ?_
    rw [(mem_processLocks hd hnodup hperm hpush ban hp).2]
    refine ⟨fun h => h.2, fun hinvalid => ⟨?_, hinvalid⟩⟩
    rcases mem_append.mp (hperm.mem_iff.mpr hp) with hpushed | hskipped
    · exact hpushed
    · rw [hs.hasValidSig_of_mem_skipped hd hnodup hperm hskipped] at hinvalid
      cases hinvalid

theorem mem_pend_of_mem_processed {ban : Bool} (h : p ∈ (processLocks E signOffset pend ban).processed) :
    p ∈ pend ∧ p.hash ∉ (processLocks E signOffset pend ban).badISLocks := by
  unfold processLocks at h ⊢
  split at h
  · cases h
  · obtain ⟨hmem, hgood⟩ := mem_filter.mp h
    refine ⟨hmem, fun hbad => ?_⟩
    obtain ⟨x, hx, heq⟩ := mem_map.mp hbad
    rw [← heq, (mem_filter.mp hx).2] at hgood
    cases hgood

theorem Screened.hasValidSig_of_mem_processed (hs : Screened E signOffset pend) (hnodup : (pend.map (·.hash)).Nodup)
    {ban : Bool} (hp : p ∈ (processLocks E signOffset pend ban).processed) : hasValidSig E signOffset p = true := by
  obtain ⟨hmem, hgood⟩ := mem_pend_of_mem_processed hp
  rcases hs.mem_badISLocks hnodup ban with ⟨hnone, -⟩ | hbad
  · rw [hnone] at hp
    cases hp
  · rw [hbad p hmem] at hgood
    simpa using hgood

end OmegaCore.Llmq
