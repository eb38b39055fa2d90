import Mathlib.Data.List.TakeWhile
import OmegaCore.Primitives

/-!
The votes of `CSigningManager`.  Before a masternode signs a message for an id it writes a vote, and
while there is a vote it does not sign another message for the id.  A vote is removed when it is
older than `maxAge`.  Signing again for an id does not renew its vote, so soon after such a signature
another message can be signed.
-/

namespace OmegaCore.Llmq

open Util List

abbrev VoteKey := ℕ × Uint256

structure RecSig where
  llmqType : ℕ
  id : Uint256
  msgHash : Uint256
  hash : Uint256
  deriving DecidableEq

/-- The tables of `CRecoveredSigsDb`.  Its caches are left out, and so are the keys by sign hash. -/
structure CRecoveredSigsDb where
  /-- `rs_v` -/
  votes : Map VoteKey Uint256 := ∅
  /-- `rs_vt`, ordered by time -/
  voteTimes : Map (ℕ × VoteKey) Unit := ∅
  /-- `rs_r` -/
  recSigs : Map VoteKey RecSig := ∅
  /-- `rs_h` -/
  recSigsByHash : Map Uint256 VoteKey := ∅
  /-- `rs_t`, ordered by time -/
  recSigTimes : Map (ℕ × VoteKey) Unit := ∅

def toUint32 (time : Int) : ℕ :=
  (time % 2 ^ 32).toNat

namespace CRecoveredSigsDb

variable (db : CRecoveredSigsDb) (key : VoteKey)

def hasVotedOnId : Bool :=
  db.votes[key]?.isSome

def getVoteForId : Option Uint256 :=
  db.votes[key]?

def writeVoteForId (now : Int) (key : VoteKey) (msgHash : Uint256) : CRecoveredSigsDb :=
  { db with
    votes := db.votes.insert key msgHash
    voteTimes := db.voteTimes.insert (toUint32 now, key) () }

/-- The keys that an iteration from the earliest time on visits. -/
def visited (times : Map (ℕ × VoteKey) Unit) (endTime : ℕ) : List (ℕ × VoteKey) :=
  (times.toList.map Prod.fst).takeWhile fun k => decide (k.1 < endTime)

def cleanupOldVotes (now maxAge : Int) : CRecoveredSigsDb :=
  (visited db.voteTimes (toUint32 (now - maxAge))).foldl
    (fun db k => { db with voteTimes := db.voteTimes.erase k, votes := db.votes.erase k.2 }) db

def hasRecoveredSigForId : Bool :=
  db.recSigs[key]?.isSome

def writeRecoveredSig (now : Int) (recSig : RecSig) : CRecoveredSigsDb :=
  let key := (recSig.llmqType, recSig.id)
  { db with
    recSigs := db.recSigs.insert key recSig
    recSigsByHash := db.recSigsByHash.insert recSig.hash key
    recSigTimes := db.recSigTimes.insert (toUint32 now, key) () }

def removeRecoveredSig (deleteHashKey : Bool) : CRecoveredSigsDb :=
  match db.recSigs[key]? with
  | none => db
  | some recSig =>
    { db with
      recSigs := db.recSigs.erase key
      recSigsByHash := if deleteHashKey then db.recSigsByHash.erase recSig.hash else db.recSigsByHash }

def cleanupOldRecoveredSigs (now maxAge : Int) : CRecoveredSigsDb :=
  (visited db.recSigTimes (toUint32 (now - maxAge))).foldl
    (fun db k => { db.removeRecoveredSig k.2 true with recSigTimes := db.recSigTimes.erase k }) db

end CRecoveredSigsDb

/-! ### The signing manager -/

structure CSigningManager where
  db : CRecoveredSigsDb := {}
  lastCleanupTime : Int := 0

/-- What a call finds about the masternode and the quorums, which are named by their hashes. -/
structure MemberEnv where
  isMasternode : Bool
  selectQuorumForSigning : ℕ → Uint256 → Option Uint256
  getQuorum : ℕ → Uint256 → Option Uint256
  isValidMember : Uint256 → Bool

structure SignCall where
  llmqType : ℕ
  id : Uint256
  msgHash : Uint256
  quorumHash : Uint256 := 0
  allowReSign : Bool := false
  deriving DecidableEq

def SignCall.key (call : SignCall) : VoteKey :=
  (call.llmqType, call.id)

/-- A call that `AsyncSign` is reached with. -/
structure SignEvent where
  time : Int
  quorum : Uint256
  key : VoteKey
  msgHash : Uint256
  deriving DecidableEq

namespace CSigningManager

/-- The quorum that a call is for, if the masternode is a valid member of it. -/
def memberQuorum (E : MemberEnv) (call : SignCall) : Option Uint256 :=
  if !E.isMasternode then none
  else
    match if call.quorumHash = 0 then E.selectQuorumForSigning call.llmqType call.id
        else E.getQuorum call.llmqType call.quorumHash with
    | none => none
    | some quorum => if E.isValidMember quorum then some quorum else none

variable (s : CSigningManager)

/-- The result and, if it gets there, the call of `AsyncSign`. -/
def asyncSignIfMember (E : MemberEnv) (now : Int) (call : SignCall) : CSigningManager × Bool × Option SignEvent :=
  match memberQuorum E call with
  | none => (s, false, none)
  | some quorum =>
    let hasVoted := s.db.hasVotedOnId call.key
    if hasVoted && s.db.getVoteForId call.key != some call.msgHash then (s, false, none)
    else if hasVoted && !call.allowReSign then (s, false, none)
    -- no need to sign it if there is a recovered signature
    else if s.db.hasRecoveredSigForId call.key then (s, true, none)
    else
      let s := if !hasVoted then { s with db := s.db.writeVoteForId now call.key call.msgHash } else s
      (s, true, some ⟨now, quorum, call.key, call.msgHash⟩)

def processRecoveredSig (now : Int) (recSig : RecSig) : CSigningManager :=
  if s.db.recSigsByHash[recSig.hash]?.isSome then s
  else if s.db.hasRecoveredSigForId (recSig.llmqType, recSig.id) then s
  else { s with db := s.db.writeRecoveredSig now recSig }

def truncateRecoveredSig (key : VoteKey) : CSigningManager :=
  { s with db := s.db.removeRecoveredSig key false }

/-- `Cleanup` at a time in milliseconds and an adjusted time in seconds. -/
def cleanup (maxAge nowMillis now : Int) : CSigningManager :=
  if nowMillis - s.lastCleanupTime < 5000 then s
  else
    { db := (s.db.cleanupOldRecoveredSigs now maxAge).cleanupOldVotes now maxAge
      lastCleanupTime := nowMillis }

end CSigningManager

open CSigningManager

inductive SigningOp where
  | sign (E : MemberEnv) (call : SignCall)
  | recovered (recSig : RecSig)
  | truncate (key : VoteKey)
  | cleanup (nowMillis : Int)

def signingStep (maxAge now : Int) (s : CSigningManager) : SigningOp → CSigningManager × Option SignEvent
  | .sign E call => let r := s.asyncSignIfMember E now call; (r.1, r.2.2)
  | .recovered recSig => (s.processRecoveredSig now recSig, none)
  | .truncate key => (s.truncateRecoveredSig key, none)
  | .cleanup nowMillis => (s.cleanup maxAge nowMillis now, none)

/-- Some operations with their times: the state and the calls of `AsyncSign`. -/
def signingRun (maxAge : Int) : CSigningManager → List (Int × SigningOp) → CSigningManager × List SignEvent
  | s, [] => (s, [])
  | s, (now, op) :: ops =>
    let r := signingStep maxAge now s op
    let rest := signingRun maxAge r.1 ops
    (rest.1, r.2.toList ++ rest.2)

/-- A signature is not repeated when its vote is older than a second, and times are stored in 32 bits and are not before
`maxAge`. -/
def isTimely (maxAge now : Int) (s : CSigningManager) : SigningOp → Bool
  | .sign _ call =>
    decide (0 ≤ now ∧ now < 2 ^ 32) &&
      (!(call.allowReSign && s.db.getVoteForId call.key == some call.msgHash) ||
        s.db.voteTimes.toList.all fun e => !(e.1.2 == call.key) || decide (now ≤ e.1.1 + 1))
  | .cleanup _ => decide (maxAge ≤ now ∧ now < 2 ^ 32)
  | _ => true

def isTimelyRun (maxAge : Int) : CSigningManager → List (Int × SigningOp) → Bool
  | _, [] => true
  | s, (now, op) :: ops => isTimely maxAge now s op && isTimelyRun maxAge (signingStep maxAge now s op).1 ops

/-! ### Cleaning up -/

namespace CRecoveredSigsDb

variable {k : ℕ × VoteKey} {endTime : ℕ}

theorem lt_of_mem_visited {times : Map (ℕ × VoteKey) Unit} (h : k ∈ visited times endTime) : k.1 < endTime := by
  simpa using mem_takeWhile_imp h

theorem mem_of_mem_visited {times : Map (ℕ × VoteKey) Unit} (h : k ∈ visited times endTime) : times[k]? = some () := by
  obtain ⟨w, hw⟩ := Map.mem_keys.mp ((takeWhile_sublist _).mem h)
  exact hw

theorem foldl_erase (l : List (ℕ × VoteKey)) (db : CRecoveredSigsDb) :
    let db' := l.foldl (fun db k => { db with voteTimes := db.voteTimes.erase k, votes := db.votes.erase k.2 }) db
    (∀ k, db'.voteTimes[k]? = some () ↔ k ∉ l ∧ db.voteTimes[k]? = some ()) ∧
      ∀ (key : VoteKey) v, db'.votes[key]? = some v ↔ key ∉ l.map Prod.snd ∧ db.votes[key]? = some v := by
  intro db'
  have htimes : l.foldl (fun m k => m.erase (id k)) db.voteTimes = db'.voteTimes := foldl_hom voteTimes fun _ _ => rfl
  have hvotes : l.foldl (fun m k => m.erase k.2) db.votes = db'.votes := foldl_hom votes fun _ _ => rfl
  refine ⟨fun k => ?_, fun key v => ?_⟩
  · rw [← htimes, Map.get_foldl_erase, map_id]
    split_ifs with hk <;> simp [hk]
  · rw [← hvotes, Map.get_foldl_erase]
    split_ifs with hkey <;> simp [hkey]

/-- The two tables of votes are the same. -/
def SameVotes (db db' : CRecoveredSigsDb) : Prop :=
  db'.votes = db.votes ∧ db'.voteTimes = db.voteTimes

theorem sameVotes_removeRecoveredSig (db : CRecoveredSigsDb) (key : VoteKey) (deleteHashKey : Bool) :
    db.SameVotes (db.removeRecoveredSig key deleteHashKey) := by
  unfold removeRecoveredSig
  split <;> exact ⟨rfl, rfl⟩

theorem sameVotes_cleanupOldRecoveredSigs (db : CRecoveredSigsDb) (now maxAge : Int) :
    db.SameVotes (db.cleanupOldRecoveredSigs now maxAge) := by
  refine foldlRecOn (motive := db.SameVotes) _ _ ⟨rfl, rfl⟩ fun db' h k _ => ?_
  have hremove := db'.sameVotes_removeRecoveredSig k.2 true
  exact ⟨hremove.1.trans h.1, hremove.2.trans h.2⟩

end CRecoveredSigsDb

/-! ### Votes in a run -/

/-- A vote has one time, and a time belongs to a vote. -/
structure VotesTimed (db : CRecoveredSigsDb) : Prop where
  voted : ∀ (t : ℕ) (key : VoteKey), db.voteTimes[(t, key)]? = some () → ∃ msgHash, db.votes[key]? = some msgHash
  single : ∀ (t t' : ℕ) (key : VoteKey), db.voteTimes[(t, key)]? = some () → db.voteTimes[(t', key)]? = some () → t = t'

/-- A signature that is not older than `maxAge` has its vote, which is at most a second older. -/
def Covered (maxAge now : Int) (db : CRecoveredSigsDb) (e : SignEvent) : Prop :=
  e.time ≤ now ∧ (now - e.time < maxAge →
    db.votes[e.key]? = some e.msgHash ∧ ∀ t : ℕ, db.voteTimes[(t, e.key)]? = some () → e.time ≤ t + 1)

variable {maxAge now now' : Int} {s : CSigningManager} {db db' : CRecoveredSigsDb} {e : SignEvent} {op : SigningOp}

theorem Covered.congr (h : Covered maxAge now db e) (hsame : db.SameVotes db') : Covered maxAge now db' e := by
  unfold Covered
  rw [hsame.1, hsame.2]
  exact h

theorem VotesTimed.congr (h : VotesTimed db) (hsame : db.SameVotes db') : VotesTimed db' := by
  constructor
  · rw [hsame.1, hsame.2]
    exact h.voted
  · rw [hsame.2]
    exact h.single

theorem Covered.later (h : Covered maxAge now db e) (hle : now ≤ now') : Covered maxAge now' db e :=
  ⟨by have := h.1; omega, fun hage => h.2 (by omega)⟩

theorem Covered.cleanup (h : Covered maxAge now db e) (hmax : maxAge ≤ now) (hnow : now < 2 ^ 32) :
    Covered maxAge now (db.cleanupOldVotes now maxAge) e := by
  refine ⟨h.1, fun hage => ?_⟩
  obtain ⟨hvote, htime⟩ := h.2 hage
  obtain ⟨htimes, hvotes⟩ := CRecoveredSigsDb.foldl_erase
    (CRecoveredSigsDb.visited db.voteTimes (toUint32 (now - maxAge))) db
  refine ⟨(hvotes _ _).mpr ⟨fun hmem => ?_, hvote⟩, fun t ht => htime t ((htimes _).mp ht).2⟩
  obtain ⟨⟨t, key⟩, hk, hkey⟩ := mem_map.mp hmem
  obtain rfl : key = e.key := hkey
  have hlt := CRecoveredSigsDb.lt_of_mem_visited hk
  have hfresh := htime t (CRecoveredSigsDb.mem_of_mem_visited hk)
  have hpast := h.1
  -- the time before which votes are old does not wrap around
  unfold toUint32 at hlt
  rw [Int.emod_eq_of_lt (by omega) (by omega)] at hlt
  omega

theorem VotesTimed.cleanup (h : VotesTimed db) (now maxAge : Int) : VotesTimed (db.cleanupOldVotes now maxAge) := by
  obtain ⟨htimes, hvotes⟩ := CRecoveredSigsDb.foldl_erase
    (CRecoveredSigsDb.visited db.voteTimes (toUint32 (now - maxAge))) db
  constructor
  · intro t key ht
    obtain ⟨hkept, ht⟩ := (htimes _).mp ht
    obtain ⟨msgHash, hvote⟩ := h.voted t key ht
    refine ⟨msgHash, (hvotes _ _).mpr ⟨fun hmem => ?_, hvote⟩⟩
    -- the removed vote would have had the same time
    obtain ⟨⟨t', key'⟩, hk, hkey⟩ := mem_map.mp hmem
    obtain rfl : key' = key := hkey
    have hsame := h.single t t' _ ht (CRecoveredSigsDb.mem_of_mem_visited hk)
    rw [hsame] at hkept
    exact hkept hk
  · intro t t' key ht ht'
    exact h.single t t' key ((htimes _).mp ht).2 ((htimes _).mp ht').2

theorem VotesTimed.write (h : VotesTimed db) {key : VoteKey} (hnone : db.votes[key]? = none) (now : Int)
    (msgHash : Uint256) : VotesTimed (db.writeVoteForId now key msgHash) := by
  have hfree : ∀ t : ℕ, db.voteTimes[(t, key)]? ≠ some () := by
    intro t ht
    obtain ⟨m, hm⟩ := h.voted t key ht
    rw [hnone] at hm
    cases hm
  have htimes : ∀ (t : ℕ) (key' : VoteKey), (db.writeVoteForId now key msgHash).voteTimes[(t, key')]? = some () →
      (key' = key ∧ t = toUint32 now) ∨ (key' ≠ key ∧ db.voteTimes[(t, key')]? = some ()) := by
    intro t key' ht
    unfold CRecoveredSigsDb.writeVoteForId at ht
    rw [Map.get_insert] at ht
    split_ifs at ht with heq
    · obtain ⟨rfl, rfl⟩ := Prod.mk.inj heq
      exact .inl ⟨rfl, rfl⟩
    · refine .inr ⟨?_, ht⟩
      rintro rfl
      exact hfree t ht
  constructor
  · intro t key' ht
    unfold CRecoveredSigsDb.writeVoteForId
    rw [Map.get_insert]
    rcases htimes t key' ht with ⟨rfl, -⟩ | ⟨hne, hold⟩
    · exact ⟨msgHash, if_pos rfl⟩
    · rw [if_neg hne]
      exact h.voted t key' hold
  · intro t t' key' ht ht'
    rcases htimes t key' ht with ⟨rfl, rfl⟩ | ⟨hne, hold⟩
    · rcases htimes t' key' ht' with ⟨-, rfl⟩ | ⟨hne, -⟩
      · rfl
      · exact absurd rfl hne
    · rcases htimes t' key' ht' with ⟨heq, -⟩ | ⟨-, hold'⟩
      · exact absurd heq hne
      · exact h.single t t' key' hold hold'

theorem Covered.write (h : Covered maxAge now db e) {key : VoteKey} (hnone : db.votes[key]? = none) (msgHash : Uint256) :
    Covered maxAge now (db.writeVoteForId now key msgHash) e := by
  refine ⟨h.1, fun hage => ?_⟩
  obtain ⟨hvote, htime⟩ := h.2 hage
  have hne : e.key ≠ key := by
    rintro rfl
    rw [hnone] at hvote
    cases hvote
  unfold CRecoveredSigsDb.writeVoteForId
  refine ⟨?_, fun t ht => ?_⟩
  · rw [Map.get_insert, if_neg hne]
    exact hvote
  · rw [Map.get_insert, if_neg fun heq => hne (Prod.mk.inj heq).2] at ht
    exact htime t ht

/-! ### One call -/

/-- What a call that signs finds and does: there was no vote, and it writes one, or it repeats the signature of a
vote. -/
theorem asyncSignIfMember_cases (s : CSigningManager) (E : MemberEnv) (now : Int) (call : SignCall) :
    let r := s.asyncSignIfMember E now call
    (r.1 = s ∧ r.2.2 = none) ∨
      ∃ quorum, r.2.2 = some ⟨now, quorum, call.key, call.msgHash⟩ ∧
        ((s.db.votes[call.key]? = none ∧ r.1 = { s with db := s.db.writeVoteForId now call.key call.msgHash }) ∨
          (s.db.votes[call.key]? = some call.msgHash ∧ call.allowReSign = true ∧ r.1 = s)) := by
  unfold asyncSignIfMember CRecoveredSigsDb.hasVotedOnId CRecoveredSigsDb.getVoteForId
  split
  · exact .inl ⟨rfl, rfl⟩
  next quorum _ =>
    cases hvote : s.db.votes[call.key]? with
    | none =>
      simp only [Option.isSome_none, Bool.false_and, Bool.false_eq_true, if_false, Bool.not_false, if_true]
      split_ifs
      · exact .inl ⟨rfl, rfl⟩
      · exact .inr ⟨quorum, rfl, .inl ⟨trivial, rfl⟩⟩
    | some m =>
      simp only [Option.isSome_some, Bool.true_and, Bool.not_true, Bool.false_eq_true, if_false, bne_iff_ne, ne_eq,
        Option.some.injEq, Bool.not_eq_true']
      by_cases hhash : m = call.msgHash
      · rw [if_neg (not_not.mpr hhash)]
        split_ifs with hresign
        · exact .inl ⟨rfl, rfl⟩
        · exact .inl ⟨rfl, rfl⟩
        · exact .inr ⟨quorum, rfl, .inr ⟨hhash, by simpa using hresign, rfl⟩⟩
      · rw [if_pos hhash]
        exact .inl ⟨rfl, rfl⟩

/-! ### Runs -/

theorem signingStep_covered (hstep : isTimely maxAge now s op = true) (htimed : VotesTimed s.db) :
    VotesTimed (signingStep maxAge now s op).1.db ∧
      ∀ e, Covered maxAge now s.db e → Covered maxAge now (signingStep maxAge now s op).1.db e := by
  cases op with
  | sign E call =>
    rw [signingStep]
    rcases asyncSignIfMember_cases s E now call with ⟨hs, -⟩ | ⟨quorum, -, ⟨hnone, hs⟩ | ⟨-, -, hs⟩⟩
    · rw [hs]
      exact ⟨htimed, fun e he => he⟩
    · rw [hs]
      exact ⟨htimed.write hnone now _, fun e he => he.write hnone _⟩
    · rw [hs]
      exact ⟨htimed, fun e he => he⟩
  | recovered recSig =>
    have hsame : s.db.SameVotes (s.processRecoveredSig now recSig).db := by
      unfold processRecoveredSig
      split_ifs <;> exact ⟨rfl, rfl⟩
    exact ⟨htimed.congr hsame, fun e he => he.congr hsame⟩
  | truncate key =>
    have hsame := s.db.sameVotes_removeRecoveredSig key false
    exact ⟨htimed.congr hsame, fun e he => he.congr hsame⟩
  | cleanup nowMillis =>
    obtain ⟨hmax, hnow⟩ := of_decide_eq_true hstep
    have hsame := s.db.sameVotes_cleanupOldRecoveredSigs now maxAge
    show VotesTimed (s.cleanup maxAge nowMillis now).db ∧
      ∀ e, Covered maxAge now s.db e → Covered maxAge now (s.cleanup maxAge nowMillis now).db e
    unfold CSigningManager.cleanup
    split_ifs
    · exact ⟨htimed, fun e he => he⟩
    · exact ⟨(htimed.congr hsame).cleanup now maxAge, fun e he => (he.congr hsame).cleanup hmax hnow⟩

/-- A step that signs covers its signature, and signs what a younger signature for the id signed. -/
theorem signingStep_event {ev : SignEvent} (hev : (signingStep maxAge now s op).2 = some ev)
    (hstep : isTimely maxAge now s op = true) (htimed : VotesTimed s.db) :
    Covered maxAge now (signingStep maxAge now s op).1.db ev ∧
      ∀ e, Covered maxAge now s.db e → e.key = ev.key → ev.time - e.time < maxAge → e.msgHash = ev.msgHash := by
  cases op with
  | sign E call =>
    unfold isTimely CRecoveredSigsDb.getVoteForId at hstep
    rw [Bool.and_eq_true, decide_eq_true_eq] at hstep
    obtain ⟨⟨hnonneg, hsmall⟩, hfresh⟩ := hstep
    rw [signingStep] at hev ⊢
    rcases asyncSignIfMember_cases s E now call with ⟨-, hnone⟩ | ⟨quorum, hsome, hcase⟩
    · cases hnone.symm.trans hev
    · obtain rfl := Option.some.inj (hsome.symm.trans hev)
      rcases hcase with ⟨hnone, hs⟩ | ⟨hvote, hresign, hs⟩
      · rw [hs]
        constructor
        · refine ⟨le_rfl, fun _ => ?_⟩
          unfold CRecoveredSigsDb.writeVoteForId
          refine ⟨by rw [Map.get_insert, if_pos rfl], fun t ht => ?_⟩
          rw [Map.get_insert] at ht
          dsimp only at ht ⊢
          split_ifs at ht with heq
          · obtain ⟨rfl, -⟩ := Prod.mk.inj heq
            unfold toUint32
            rw [Int.emod_eq_of_lt hnonneg hsmall]
            omega
          · obtain ⟨m, hm⟩ := htimed.voted t call.key ht
            cases hnone.symm.trans hm
        · intro e he hkey hage
          have hcovered := hkey ▸ (he.2 hage).1
          cases hnone.symm.trans hcovered
      · rw [hs]
        constructor
        · refine ⟨le_rfl, fun _ => ⟨hvote, fun t ht => ?_⟩⟩
          rw [hvote, hresign] at hfresh
          simp only [BEq.rfl, Bool.and_self, Bool.not_true, Bool.false_or, all_eq_true] at hfresh
          have hentry := hfresh ((t, call.key), ()) (Std.ExtTreeMap.mem_toList_iff_getElem?_eq_some.mpr ht)
          simpa using hentry
        · intro e he hkey hage
          have hcovered := hkey ▸ (he.2 hage).1
          exact Option.some.inj (hcovered.symm.trans hvote)
  | recovered => cases hev
  | truncate => cases hev
  | cleanup => cases hev

/-- The signatures of a run with those before it. -/
theorem signingRun_pairwise (ops : List (Int × SigningOp)) {past : List SignEvent}
    (hclock : (ops.map Prod.fst).Pairwise (· ≤ ·)) (htimely : isTimelyRun maxAge s ops = true)
    (htimed : VotesTimed s.db) (hcovered : ∀ e ∈ past, ∀ now ∈ ops.map Prod.fst, Covered maxAge now s.db e)
    (hpast : past.Pairwise fun e₁ e₂ => e₁.key = e₂.key → e₂.time - e₁.time < maxAge → e₁.msgHash = e₂.msgHash) :
    (past ++ (signingRun maxAge s ops).2).Pairwise
      fun e₁ e₂ => e₁.key = e₂.key → e₂.time - e₁.time < maxAge → e₁.msgHash = e₂.msgHash := by
  induction ops generalizing s past with
  | nil => simpa [signingRun] using hpast
  | cons x ops ih =>
    obtain ⟨now, op⟩ := x
    rw [isTimelyRun, Bool.and_eq_true] at htimely
    rw [map_cons, pairwise_cons] at hclock
    have hnow : ∀ e ∈ past, Covered maxAge now s.db e := fun e he => hcovered e he now mem_cons_self
    obtain ⟨htimed', hstep⟩ := signingStep_covered htimely.1 htimed
    rw [signingRun]
    rw [← append_assoc]
    refine ih hclock.2 htimely.2 htimed' (fun e he now' hnow' => ?_) ?_
    · refine .later ?_ (hclock.1 now' hnow')
      rcases mem_append.mp he with he | he
      · exact hstep e (hnow e he)
      · exact (signingStep_event (Option.mem_toList.mp he) htimely.1 htimed).1
    · rw [pairwise_append]
      refine ⟨hpast, ?_, fun e₁ he₁ e₂ he₂ => ?_⟩
      · cases (signingStep maxAge now s op).2 with
        | none => exact .nil
        | some ev => exact pairwise_singleton _ _
      · exact (signingStep_event (Option.mem_toList.mp he₂) htimely.1 htimed).2 e₁ (hnow e₁ he₁)

/-- In every run of timely operations with a clock that does not go back, two signatures for an id that are less than
`maxAge` seconds apart are for the same message. -/
theorem signingRun_no_double (maxAge : Int) (ops : List (Int × SigningOp))
    (hclock : (ops.map Prod.fst).Pairwise (· ≤ ·)) (htimely : isTimelyRun maxAge {} ops = true) :
    (signingRun maxAge {} ops).2.Pairwise
      fun e₁ e₂ => e₁.key = e₂.key → e₂.time - e₁.time < maxAge → e₁.msgHash = e₂.msgHash := by
  have hempty : VotesTimed {} := by
    constructor
    · intro t key ht
      rw [Map.get_empty] at ht
      cases ht
    · intro t t' key ht
      rw [Map.get_empty] at ht
      cases ht
  exact signingRun_pairwise ops hclock htimely hempty (by simp) .nil

def sampleMember : MemberEnv where
  isMasternode := true
  selectQuorumForSigning _ _ := some 5
  getQuorum _ quorumHash := some quorumHash
  isValidMember _ := true

/-- A signature, another message, a repetition in the same second, a clean-up and another id. -/
def sampleSigning : List (Int × SigningOp) :=
  [(1000000, .sign sampleMember ⟨1, 7, 10, 0, false⟩), (1000000, .sign sampleMember ⟨1, 7, 11, 0, false⟩),
    (1000000, .sign sampleMember ⟨1, 7, 10, 0, true⟩), (1604800, .cleanup 1604800000),
    (1604800, .sign sampleMember ⟨1, 7, 11, 0, false⟩), (1604801, .sign sampleMember ⟨1, 8, 11, 0, false⟩)]

theorem signingRun_no_double_sample : (signingRun 604800 {} sampleSigning).2.length = 3 ∧
    (signingRun 604800 {} sampleSigning).2.Pairwise
      fun e₁ e₂ => e₁.key = e₂.key → e₂.time - e₁.time < 604800 → e₁.msgHash = e₂.msgHash :=
  ⟨by decide +kernel, signingRun_no_double 604800 sampleSigning (by decide +kernel) (by decide +kernel)⟩

/-- A signature that is repeated just before its vote is removed, and then another message. -/
def sampleReSign : List (Int × SigningOp) :=
  [(1000000, .sign sampleMember ⟨1, 7, 10, 0, false⟩), (1604799, .sign sampleMember ⟨1, 7, 10, 0, true⟩),
    (1604801, .cleanup 1604801000), (1604802, .sign sampleMember ⟨1, 7, 11, 0, false⟩)]

theorem signingRun_double : ¬ ∀ (maxAge : Int) (ops : List (Int × SigningOp)), (ops.map Prod.fst).Pairwise (· ≤ ·) →
    (signingRun maxAge {} ops).2.Pairwise
      fun e₁ e₂ => e₁.key = e₂.key → e₂.time - e₁.time < maxAge → e₁.msgHash = e₂.msgHash := by
  intro hall
  have hpair := hall 604800 sampleReSign (by decide +kernel)
  have hevents : (signingRun 604800 {} sampleReSign).2 =
      [⟨1000000, 5, (1, 7), 10⟩, ⟨1604799, 5, (1, 7), 10⟩, ⟨1604802, 5, (1, 7), 11⟩] := by decide +kernel
  rw [hevents] at hpair
  revert hpair
  decide

end OmegaCore.Llmq
