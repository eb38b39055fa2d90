import OmegaCore.Primitives

/-!
The best ChainLock.  `ProcessNewChainLock` compares the height of a lock with that of the best one,
verifies it and looks up its block without the mutex, and stores it without comparing again.  A
newer lock or the header of the block may come in between.
-/

namespace OmegaCore.Llmq

open Util

structure CChainLockSig where
  nHeight : Int
  blockHash : Uint256
  deriving DecidableEq

/-- A call for a new lock after its first comparison, and what `LookupBlockIndex` found once it was asked. -/
structure LockCall where
  hash : Uint256
  clsig : CChainLockSig
  pindex : Option (Option Int) := none
  deriving DecidableEq

/-- The handler, the heights of the known headers, the calls that have not returned, and the headers for which
`AcceptedBlockHeader` is still to be called. -/
structure CChainLocksHandler where
  seenChainLocks : List Uint256 := []
  bestChainLockHash : Uint256 := 0
  bestChainLock : Option CChainLockSig := none
  bestChainLockWithKnownBlock : Option CChainLockSig := none
  bestChainLockBlockIndex : Option (Uint256 × Int) := none
  mapBlockIndex : Map Uint256 Int := ∅
  calls : List LockCall := []
  newHeaders : List Uint256 := []

inductive ChainLockEvent where
  | check (hash : Uint256) (clsig : CChainLockSig)
  | lookUp (call : LockCall)
  | store (call : LockCall)
  | addHeader (blockHash : Uint256) (nHeight : Int)
  | acceptedBlockHeader (blockHash : Uint256)

namespace CChainLocksHandler

variable (s : CChainLocksHandler)

/-- Take the best lock for the block it is for. -/
def setKnownBlock (blockHash : Uint256) (nHeight : Int) : CChainLocksHandler :=
  { s with
    bestChainLockWithKnownBlock := s.bestChainLock
    bestChainLockBlockIndex := some (blockHash, nHeight) }

/-- What is done at once.  The locks are validly signed, and ChainLocks stay enforced. -/
def step : ChainLockEvent → CChainLocksHandler
  | .check hash clsig =>
    if s.seenChainLocks.contains hash then s
    else
      let s := { s with seenChainLocks := hash :: s.seenChainLocks }
      -- no need to process older locks
      if s.bestChainLock.any fun best => clsig.nHeight ≤ best.nHeight then s
      else { s with calls := ⟨hash, clsig, none⟩ :: s.calls }
  | .lookUp call =>
    if call ∈ s.calls ∧ call.pindex = none then
      { s with calls := { call with pindex := some s.mapBlockIndex[call.clsig.blockHash]? } :: s.calls.erase call }
    else s
  | .store call =>
    if call ∈ s.calls then
      match call.pindex with
      | some pindex =>
        let s := { s with
          calls := s.calls.erase call
          bestChainLockHash := call.hash
          bestChainLock := some call.clsig }
        if pindex = some call.clsig.nHeight then s.setKnownBlock call.clsig.blockHash call.clsig.nHeight else s
      | none => s
    else s
  | .addHeader blockHash nHeight =>
    if s.mapBlockIndex[blockHash]?.isSome then s
    else
      { s with
        mapBlockIndex := s.mapBlockIndex.insert blockHash nHeight
        newHeaders := blockHash :: s.newHeaders }
  | .acceptedBlockHeader blockHash =>
    match s.mapBlockIndex[blockHash]?, s.bestChainLock with
    | some nHeight, some best =>
      let s := { s with newHeaders := s.newHeaders.erase blockHash }
      if blockHash = best.blockHash ∧ best.nHeight = nHeight then s.setKnownBlock blockHash nHeight else s
    | _, _ => { s with newHeaders := s.newHeaders.erase blockHash }

/-- A lock is stored while the best one is not higher, and with what a lookup would find now. -/
def isTimely : ChainLockEvent → Bool
  | .store call =>
    s.bestChainLock.all (fun best => best.nHeight ≤ call.clsig.nHeight) &&
      call.pindex.all fun pindex => pindex = s.mapBlockIndex[call.clsig.blockHash]?
  | _ => true

/-- What timely steps reach, from whatever headers are known. -/
inductive TimelyRun : CChainLocksHandler → Prop where
  | start (mapBlockIndex : Map Uint256 Int) : TimelyRun { mapBlockIndex := mapBlockIndex }
  | step {s : CChainLocksHandler} (run : TimelyRun s) (e : ChainLockEvent) (timely : s.isTimely e = true) :
      TimelyRun (s.step e)

/-- The height of the best lock does not get lower. -/
def raises (s s' : CChainLocksHandler) : Bool :=
  s.bestChainLock.all fun best => s'.bestChainLock.any fun best' => best.nHeight ≤ best'.nHeight

/-- The handler has the block of the best lock if that is known at the height of the lock. -/
def hasKnownBlock : Bool :=
  s.bestChainLock.all fun best => s.mapBlockIndex[best.blockHash]? ≠ some best.nHeight ||
    s.bestChainLockBlockIndex = some (best.blockHash, best.nHeight)

/-- The handler has the block, or will be told of it. -/
def Informed : Prop :=
  ∀ best, s.bestChainLock = some best → s.mapBlockIndex[best.blockHash]? = some best.nHeight →
    s.bestChainLockBlockIndex = some (best.blockHash, best.nHeight) ∨ best.blockHash ∈ s.newHeaders

variable {s : CChainLocksHandler} {e : ChainLockEvent}

theorem raises_step (h : s.isTimely e = true) : s.raises (s.step e) = true := by
  unfold raises
  cases hbest : s.bestChainLock with
  | none => rfl
  | some best =>
    rw [Option.all_some]
    cases e with
    | store call =>
      simp only [isTimely, hbest, Option.all_some, Bool.and_eq_true, decide_eq_true_eq] at h
      grind [step, setKnownBlock]
    | _ => grind [step, setKnownBlock]

theorem Informed.step (hs : s.Informed) (h : s.isTimely e = true) : (s.step e).Informed := by
  intro best hbest hindex
  simp only [CChainLocksHandler.step] at hbest hindex ⊢
  cases e with
  | store call =>
    -- what was looked up is what the index has for the new best lock
    grind [setKnownBlock, isTimely, Informed]
  | addHeader blockHash nHeight =>
    -- the header of the best lock is among the new ones
    grind [Informed, Map.get_insert]
  | _ => grind [setKnownBlock, Informed]

theorem TimelyRun.informed (h : TimelyRun s) : s.Informed := by
  induction h with
  | start mapBlockIndex => simp [Informed]
  | step run e timely ih => exact ih.step timely

/-- In a run of timely steps the height of the best lock never decreases, and whenever all calls have returned and the
block of the best lock is known at its height, the handler has it. -/
theorem TimelyRun.bestChainLock_exact (h : TimelyRun s) (e : ChainLockEvent) (ht : s.isTimely e = true) :
    s.raises (s.step e) = true ∧ (s.calls = [] → s.newHeaders = [] → s.hasKnownBlock = true) := by
  refine ⟨raises_step ht, fun _ hnew => ?_⟩
  have hinformed := h.informed
  simp only [Informed, hnew, List.not_mem_nil, or_false] at hinformed
  unfold hasKnownBlock
  cases hbest : s.bestChainLock with
  | none => rfl
  | some best =>
    rw [Option.all_some, Bool.or_eq_true, decide_eq_true_eq, decide_eq_true_eq]
    exact not_or_of_imp (hinformed best hbest)

def run (events : List ChainLockEvent) : CChainLocksHandler :=
  events.foldl step {}

/-- The header of a lock at height 10 comes after the lock, and then a lock at height 11. -/
theorem TimelyRun.bestChainLock_exact_late :
    (∃ s, TimelyRun s ∧ s.bestChainLock = some ⟨10, 7⟩ ∧ s.mapBlockIndex[(7 : Uint256)]? = some 10 ∧
      s.hasKnownBlock = true) ∧
    ∃ s, TimelyRun s ∧ s.bestChainLock = some ⟨10, 7⟩ ∧
      (s.step (.store ⟨2, ⟨11, 8⟩, some none⟩)).bestChainLock = some ⟨11, 8⟩ ∧
      s.raises (s.step (.store ⟨2, ⟨11, 8⟩, some none⟩)) = true := by
  have hlate := (((((TimelyRun.start ∅).step (.check 1 ⟨10, 7⟩) rfl).step (.lookUp ⟨1, ⟨10, 7⟩, none⟩) rfl).step
    (.store ⟨1, ⟨10, 7⟩, some none⟩) (by decide)).step (.addHeader 7 10) rfl).step (.acceptedBlockHeader 7) rfl
  have hnext := (hlate.step (.check 2 ⟨11, 8⟩) rfl).step (.lookUp ⟨2, ⟨11, 8⟩, none⟩) rfl
  exact ⟨⟨_, hlate, by decide, by decide, (hlate.bestChainLock_exact (.check 2 ⟨11, 8⟩) rfl).2 (by decide) (by decide)⟩,
    _, hnext, by decide, by decide, (hnext.bestChainLock_exact (.store ⟨2, ⟨11, 8⟩, some none⟩) (by decide)).1⟩

/-- A lock is stored over a higher one.  A header that comes between the lookup and the store is missed. -/
theorem bestChainLock_lowered :
    (∃ events e, (run events).raises ((run events).step e) = false) ∧
    ∃ events, (run events).calls = [] ∧ (run events).newHeaders = [] ∧ (run events).hasKnownBlock = false := by
  refine ⟨⟨[.check 1 ⟨10, 7⟩, .lookUp ⟨1, ⟨10, 7⟩, none⟩, .check 2 ⟨11, 8⟩, .lookUp ⟨2, ⟨11, 8⟩, none⟩,
      .store ⟨2, ⟨11, 8⟩, some none⟩], .store ⟨1, ⟨10, 7⟩, some none⟩, by decide⟩,
    [.check 1 ⟨10, 7⟩, .lookUp ⟨1, ⟨10, 7⟩, none⟩, .addHeader 7 10, .acceptedBlockHeader 7,
      .store ⟨1, ⟨10, 7⟩, some none⟩], by decide, by decide, by decide⟩

end CChainLocksHandler

end OmegaCore.Llmq
