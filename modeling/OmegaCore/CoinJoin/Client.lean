import Mathlib.Algebra.Order.BigOperators.Group.List
import OmegaCore.CoinJoin.Session

/-!
The client of a mixing session.  It joins a queue, submits one entry that pairs different coins with
different keys, and signs the final transaction if that has all inputs and outputs of the entry and
passes `IsValidInOuts`.  Whatever the masternode sends, a transaction that the client signs pays as
much to its own scripts as it takes from its coins.
-/

namespace OmegaCore.CoinJoin

open Util

def coinJoinEntryMaxSize : ℕ := 9

def getMaxPoolAmount : Int :=
  coinJoinEntryMaxSize * (10 * coin + 10000)

/-! ### The entry of a client -/

/-- An available coin of the wallet that is ready to mix. -/
structure WalletCoin where
  outpoint : COutPoint
  txout : CTxOut
  nRounds : Int

/-- The loop of `SelectTxDSInsByDenomination` with the recent hashes and the total so far. -/
def selectFrom (nDenomAmount nValueMax : Int) : List Uint256 → Int → List WalletCoin → List CTxDSIn
  | _, _, [] => []
  | setRecentTxIds, nValueTotal, out :: vCoins =>
    if setRecentTxIds.contains out.outpoint.hash then selectFrom nDenomAmount nValueMax setRecentTxIds nValueTotal vCoins
    else if nValueTotal + out.txout.nValue > nValueMax then
      selectFrom nDenomAmount nValueMax setRecentTxIds nValueTotal vCoins
    else if out.txout.nValue ≠ nDenomAmount then
      selectFrom nDenomAmount nValueMax setRecentTxIds nValueTotal vCoins
    else
      { prevout := out.outpoint, prevPubKey := out.txout.scriptPubKey, nRounds := out.nRounds } ::
        selectFrom nDenomAmount nValueMax (out.outpoint.hash :: setRecentTxIds) (nValueTotal + out.txout.nValue) vCoins

def selectTxDSInsByDenomination (nDenom nValueMax : Int) (vCoins : List WalletCoin) : List CTxDSIn :=
  if !isValidDenomination nDenom then []
  else selectFrom (denominationToAmount nDenom) nValueMax [] 0 vCoins

/-- The scripts of `CKeyHolderStorage::AddKey`, one for each step.  A key is reserved once; without a key the
script is empty. -/
structure KeyHolderStorage where
  addKey : ℕ → CScript
  reserved : ∀ i j, addKey i = addKey j → addKey i ≠ [] → i = j

section Prepare

variable (keys : KeyHolderStorage) (randomSkip : ℕ → Bool) (nDenomAmount nMinRounds nMaxRounds : Int)

/-- The loop of `PrepareDenominate` from a step on. -/
def preparePairs : ℕ → List CTxDSIn → List (CTxDSIn × CTxOut)
  | _, [] => []
  | nSteps, entry :: vecTxDSIn =>
    if nSteps ≥ coinJoinEntryMaxSize then []
    else if entry.nRounds < nMinRounds ∨ entry.nRounds > nMaxRounds then preparePairs nSteps vecTxDSIn
    else if nSteps ≥ 1 ∧ randomSkip nSteps then preparePairs (nSteps + 1) vecTxDSIn
    else (entry, ⟨nDenomAmount, keys.addKey nSteps⟩) :: preparePairs (nSteps + 1) vecTxDSIn

end Prepare

/-- `PrepareDenominate`, not as a dry run. -/
def prepareDenominate (keys : KeyHolderStorage) (randomSkip : ℕ → Bool) (nSessionDenom nMinRounds nMaxRounds : Int)
    (vecTxDSIn : List CTxDSIn) : Option (List (CTxDSIn × CTxOut)) :=
  if !isValidDenomination nSessionDenom then none
  else
    let vecPSInOutPairs :=
      preparePairs keys randomSkip (denominationToAmount nSessionDenom) nMinRounds nMaxRounds 0 vecTxDSIn
    if vecPSInOutPairs.isEmpty then none else some vecPSInOutPairs

/-! ### The session -/

/-- What the client calls: the hash of a transaction, and the `scriptSig` that `SignSignature` leaves at an input. -/
structure SignEnv where
  getHash : CMutableTransaction → Uint256
  signSignature : CScript → CMutableTransaction → ℕ → CScript

structure CCoinJoinClientSession where
  nState : PoolState := .idle
  nSessionID : Int := 0
  nSessionDenom : Int := 0
  vecEntries : List CCoinJoinEntry := []
  finalMutableTransaction : CMutableTransaction := {}
  /-- There is a `mixingMasternode`. -/
  mixing : Bool := false

namespace CCoinJoinClientSession

variable (s : CCoinJoinClientSession)

def setNull : CCoinJoinClientSession :=
  { finalMutableTransaction := { s.finalMutableTransaction with vin := [], vout := [] } }

/-- The end of `DoAutomaticDenominating`: clean up, then join a queue or start one. -/
def joinQueue (nDenom : Int) : CCoinJoinClientSession :=
  if s.nState ≠ .idle ∨ s.vecEntries ≠ [] ∨ s.nSessionID ≠ 0 then s
  else { s.setNull with nSessionDenom := nDenom, mixing := true, nState := .queue }

/-- `ProcessPoolStateUpdate` for a message with values in range. -/
def processPoolStateUpdate (accepted : Bool) (nState : PoolState) (nSessionID : Int) : CCoinJoinClientSession :=
  if s.nState = .idle ∨ s.nState = .error then s
  else if !accepted then { s with nState := .error }
  else if s.nState = nState ∧ nState = .queue ∧ s.nSessionID = 0 ∧ nSessionID ≠ 0 then
    { s with nSessionID := nSessionID }
  else s

/-- `SendDenominate` with a collateral. -/
def sendDenominate (checkDiskSpace : Bool) (txMyCollateral : CMutableTransaction)
    (vecPSInOutPairs : List (CTxDSIn × CTxOut)) : CCoinJoinClientSession :=
  if s.nSessionID = 0 then s.setNull
  else if !checkDiskSpace then s.setNull
  else
    { s with
      nState := .acceptingEntries
      vecEntries := s.vecEntries ++
        [{ vecTxDSIn := vecPSInOutPairs.map Prod.fst
           vecTxOut := vecPSInOutPairs.map Prod.snd
           txCollateral := txMyCollateral }] }

/-- What `SubmitDenominate` takes from its surroundings, with the range of rounds it settles on. -/
structure Submission where
  vCoins : List WalletCoin
  keys : KeyHolderStorage
  randomSkip : ℕ → Bool
  nMinRounds : Int
  nMaxRounds : Int
  checkDiskSpace : Bool
  txMyCollateral : CMutableTransaction

def submitDenominate (sub : Submission) : CCoinJoinClientSession :=
  if s.nState ≠ .queue ∨ s.vecEntries ≠ [] then s
  else
    let vecTxDSIn := selectTxDSInsByDenomination s.nSessionDenom getMaxPoolAmount sub.vCoins
    match prepareDenominate sub.keys sub.randomSkip s.nSessionDenom sub.nMinRounds sub.nMaxRounds vecTxDSIn with
    | none => s
    | some vecPSInOutPairs => s.sendDenominate sub.checkDiskSpace sub.txMyCollateral vecPSInOutPairs

/-! ### Signing -/

variable (E : SignEnv)

/-- Sign the own inputs one after the other.  There is no result if one is missing. -/
def signInputs : List CTxDSIn → CMutableTransaction × List CTxIn → Option (CMutableTransaction × List CTxIn)
  | [], s => some s
  | txdsin :: rest, (tx, sigs) =>
    match tx.vin.findIdx? (· == txdsin.toCTxIn) with
    | none => none
    | some nMyInputIndex =>
      let signed := { txdsin.toCTxIn with scriptSig := E.signSignature txdsin.prevPubKey tx nMyInputIndex }
      signInputs rest ({ tx with vin := tx.vin.set nMyInputIndex signed }, sigs ++ [signed])

/-- The entries one after the other, first the outputs, then the inputs. -/
def signEntries : List CCoinJoinEntry → CMutableTransaction × List CTxIn → Option (CMutableTransaction × List CTxIn)
  | [], s => some s
  | entry :: rest, (tx, sigs) =>
    if !entry.vecTxOut.all (fun txout => tx.vout.any (· == txout)) then none
    else
      match signInputs E entry.vecTxDSIn (tx, sigs) with
      | none => none
      | some s => signEntries rest s

/-- The signatures are what is pushed to the masternode. -/
def signFinalTransaction (view : CoinsView) (s : CCoinJoinClientSession) (finalTransactionNew : CMutableTransaction) :
    Option (List CTxIn) × CCoinJoinClientSession :=
  if !s.mixing then (none, s)
  else
    let tx := finalTransactionNew.sortBIP69
    let refused := { s with finalMutableTransaction := tx }.setNull
    if E.getHash tx ≠ E.getHash finalTransactionNew then (none, refused)
    else
      match isValidInOuts s.nSessionDenom view tx.vin tx.vout with
      | .error _ => (none, refused)
      | .ok () =>
        match signEntries E s.vecEntries (tx, []) with
        | none => (none, refused)
        | some (tx, sigs) =>
          if sigs.isEmpty then (none, refused)
          else (some sigs, { s with finalMutableTransaction := tx, nState := .signing })

end CCoinJoinClientSession

inductive ClientOp where
  | joinQueue (nDenom : Int)
  | poolStateUpdate (accepted : Bool) (nState : PoolState) (nSessionID : Int)
  | submitDenominate (sub : CCoinJoinClientSession.Submission)
  | finalTransaction (view : CoinsView) (nSessionID : Int) (tx : CMutableTransaction)
  /-- `CompletedTransaction`, a timeout or `ResetPool`. -/
  | reset

def ClientOp.step (E : SignEnv) (s : CCoinJoinClientSession) : ClientOp → CCoinJoinClientSession
  | .joinQueue nDenom => s.joinQueue nDenom
  | .poolStateUpdate accepted nState nSessionID => s.processPoolStateUpdate accepted nState nSessionID
  | .submitDenominate sub => s.submitDenominate sub
  | .finalTransaction view nSessionID tx => if s.nSessionID = nSessionID then (s.signFinalTransaction E view tx).2 else s
  | .reset => s.setNull

def clientRun (E : SignEnv) (ops : List ClientOp) : CCoinJoinClientSession :=
  ops.foldl (ClientOp.step E) {}

open List

/-! ### The entry of a session -/

theorem selectFrom_hash (nDenomAmount nValueMax : Int) (vCoins : List WalletCoin) (recent : List Uint256)
    (nValueTotal : Int) :
    ((selectFrom nDenomAmount nValueMax recent nValueTotal vCoins).map fun t => t.prevout.hash).Nodup ∧
      ∀ t ∈ selectFrom nDenomAmount nValueMax recent nValueTotal vCoins, t.prevout.hash ∉ recent := by
  induction vCoins generalizing recent nValueTotal with
  | nil => exact ⟨nodup_nil, fun t ht => absurd ht not_mem_nil⟩
  | cons out vCoins ih =>
    rw [selectFrom]
    split_ifs with hrecent hmax hvalue
    · exact ih recent nValueTotal
    · exact ih recent nValueTotal
    · exact ih recent nValueTotal
    · obtain ⟨hnodup, hnew⟩ := ih (out.outpoint.hash :: recent) (nValueTotal + out.txout.nValue)
      refine ⟨?_, fun t ht => ?_⟩
      · rw [map_cons, nodup_cons]
        refine ⟨fun hmem => ?_, hnodup⟩
        obtain ⟨t, ht, he⟩ := mem_map.mp hmem
        exact hnew t ht (he ▸ mem_cons_self)
      · rcases mem_cons.mp ht with rfl | ht
        · exact fun hmem => hrecent (contains_iff_mem.mpr hmem)
        · exact fun hmem => hnew t ht (mem_cons_of_mem _ hmem)

theorem selectTxDSInsByDenomination_nodup (nDenom nValueMax : Int) (vCoins : List WalletCoin) :
    ((selectTxDSInsByDenomination nDenom nValueMax vCoins).map (·.prevout)).Nodup := by
  unfold selectTxDSInsByDenomination
  split_ifs
  · exact nodup_nil
  · have hnodup := (selectFrom_hash (denominationToAmount nDenom) nValueMax vCoins [] 0).1
    have hmap : (map COutPoint.hash ((selectFrom (denominationToAmount nDenom) nValueMax [] 0 vCoins).map
        (·.prevout))).Nodup := by
      rw [map_map]
      exact hnodup
    exact hmap.of_map _

/-- Pairs of different coins with different keys, all for one amount. -/
structure OwnPairs (nDenomAmount : Int) (pairs : List (CTxDSIn × CTxOut)) : Prop where
  inputs : (pairs.map fun p => p.1.prevout).Nodup
  amount : ∀ p ∈ pairs, p.2.nValue = nDenomAmount
  keys : pairs.Pairwise fun p q => p.2.scriptPubKey = q.2.scriptPubKey → p.2.scriptPubKey = []

section Prepare

variable {keys : KeyHolderStorage} {randomSkip : ℕ → Bool} {nDenomAmount nMinRounds nMaxRounds : Int}

/-- The pairs of the steps from some step on: a part of the coins, each with the key of a later step. -/
theorem preparePairs_spec (vecTxDSIn : List CTxDSIn) (nSteps : ℕ) :
    ((preparePairs keys randomSkip nDenomAmount nMinRounds nMaxRounds nSteps vecTxDSIn).map Prod.fst).Sublist
      vecTxDSIn ∧
    (∀ p ∈ preparePairs keys randomSkip nDenomAmount nMinRounds nMaxRounds nSteps vecTxDSIn,
      p.2.nValue = nDenomAmount ∧ ∃ i, nSteps ≤ i ∧ p.2.scriptPubKey = keys.addKey i) ∧
    (preparePairs keys randomSkip nDenomAmount nMinRounds nMaxRounds nSteps vecTxDSIn).Pairwise fun p q =>
      p.2.scriptPubKey = q.2.scriptPubKey → p.2.scriptPubKey = [] := by
  induction vecTxDSIn generalizing nSteps with
  | nil => exact ⟨Sublist.refl _, fun p hp => absurd hp not_mem_nil, Pairwise.nil⟩
  | cons entry vecTxDSIn ih =>
    rw [preparePairs]
    split_ifs with hmax hrounds hskip
    · exact ⟨nil_sublist _, fun p hp => absurd hp not_mem_nil, Pairwise.nil⟩
    · obtain ⟨hsub, hall, hpair⟩ := ih nSteps
      exact ⟨hsub.cons _, hall, hpair⟩
    · obtain ⟨hsub, hall, hpair⟩ := ih (nSteps + 1)
      refine ⟨hsub.cons _, fun p hp => ?_, hpair⟩
      obtain ⟨hvalue, i, hi, hkey⟩ := hall p hp
      exact ⟨hvalue, i, by omega, hkey⟩
    · obtain ⟨hsub, hall, hpair⟩ := ih (nSteps + 1)
      refine ⟨hsub.cons_cons _, fun p hp => ?_, pairwise_cons.mpr ⟨fun q hq he => ?_, hpair⟩⟩
      · rcases mem_cons.mp hp with rfl | hp
        · exact ⟨rfl, nSteps, le_refl _, rfl⟩
        · obtain ⟨hvalue, i, hi, hkey⟩ := hall p hp
          exact ⟨hvalue, i, by omega, hkey⟩
      · -- a later step has another key
        obtain ⟨-, i, hi, hkey⟩ := hall q hq
        by_contra hne
        have heq := keys.reserved nSteps i (he.trans hkey) hne
        omega

end Prepare

variable {pairs : List (CTxDSIn × CTxOut)}

theorem ownPairs_of_prepareDenominate {keys : KeyHolderStorage} {randomSkip : ℕ → Bool}
    {nSessionDenom nMinRounds nMaxRounds : Int} {vecTxDSIn : List CTxDSIn}
    (hnodup : (vecTxDSIn.map (·.prevout)).Nodup)
    (h : prepareDenominate keys randomSkip nSessionDenom nMinRounds nMaxRounds vecTxDSIn = some pairs) :
    isValidDenomination nSessionDenom = true ∧ pairs ≠ [] ∧ OwnPairs (denominationToAmount nSessionDenom) pairs := by
  unfold prepareDenominate at h
  dsimp only at h
  split_ifs at h with hdenom hpairs
  cases h
  obtain ⟨hsub, hall, hpair⟩ := @preparePairs_spec keys randomSkip (denominationToAmount nSessionDenom) nMinRounds
    nMaxRounds vecTxDSIn 0
  refine ⟨by simpa using hdenom, by simpa using hpairs, ?_, fun p hp => (hall p hp).1, hpair⟩
  have hmap := (hsub.map (fun t : CTxDSIn => t.prevout)).nodup hnodup
  rwa [map_map] at hmap

namespace CCoinJoinClientSession

variable {E : SignEnv}

variable (s : CCoinJoinClientSession)

def ownInputs : List CTxDSIn :=
  s.vecEntries.flatMap (·.vecTxDSIn)

def ownOutputs : List CTxOut :=
  s.vecEntries.flatMap (·.vecTxOut)

/-- A session has no entry, or one of its denomination. -/
structure Own : Prop where
  mixing : s.nState ≠ .idle → s.mixing = true
  entries : s.vecEntries = [] ∨
    (s.nState ≠ .idle ∧ isValidDenomination s.nSessionDenom = true ∧
      ∃ pairs ≠ [], OwnPairs (denominationToAmount s.nSessionDenom) pairs ∧
        s.ownInputs = pairs.map Prod.fst ∧ s.ownOutputs = pairs.map Prod.snd)

theorem own_setNull (s : CCoinJoinClientSession) : s.setNull.Own where
  mixing h := absurd rfl h
  entries := .inl rfl

variable {s : CCoinJoinClientSession}

theorem Own.joinQueue (h : s.Own) (nDenom : Int) : (s.joinQueue nDenom).Own := by
  unfold CCoinJoinClientSession.joinQueue
  split_ifs
  · exact h
  · exact ⟨fun _ => rfl, .inl rfl⟩

theorem Own.processPoolStateUpdate (h : s.Own) (accepted : Bool) (nState : PoolState)
    (nSessionID : Int) : (s.processPoolStateUpdate accepted nState nSessionID).Own := by
  unfold CCoinJoinClientSession.processPoolStateUpdate
  split_ifs with hstate
  · exact h
  · have hidle : s.nState ≠ .idle := fun he => hstate (.inl he)
    exact ⟨fun _ => h.mixing hidle, h.entries.imp_right fun hown => ⟨nofun, hown.2⟩⟩
  · exact ⟨h.mixing, h.entries⟩
  · exact h

theorem Own.submitDenominate (h : s.Own) (sub : Submission) : (s.submitDenominate sub).Own := by
  unfold CCoinJoinClientSession.submitDenominate
  split_ifs with hstate
  · exact h
  rw [not_or, not_not, not_not] at hstate
  dsimp only
  split
  · exact h
  next pairs hprepare =>
  obtain ⟨hdenom, hne, hpairs⟩ :=
    ownPairs_of_prepareDenominate (selectTxDSInsByDenomination_nodup _ _ _) hprepare
  have hmixing : s.mixing = true := h.mixing (by rw [hstate.1]; nofun)
  unfold sendDenominate
  split_ifs
  · exact own_setNull s
  · exact own_setNull s
  · refine ⟨fun _ => hmixing, .inr ⟨nofun, hdenom, pairs, hne, hpairs, ?_, ?_⟩⟩
    · simp [ownInputs, hstate.2]
    · simp [ownOutputs, hstate.2]

theorem Own.signFinalTransaction (h : s.Own) (view : CoinsView)
    (tx : CMutableTransaction) : (s.signFinalTransaction E view tx).2.Own := by
  unfold CCoinJoinClientSession.signFinalTransaction
  dsimp only
  split
  · exact h
  next hmixing =>
  split
  · exact own_setNull _
  split
  · exact own_setNull _
  split
  · exact own_setNull _
  split
  · exact own_setNull _
  · exact ⟨fun _ => by simpa using hmixing, h.entries.imp_right fun hown => ⟨nofun, hown.2⟩⟩

end CCoinJoinClientSession

theorem own_clientRun (E : SignEnv) (ops : List ClientOp) : (clientRun E ops).Own := by
  have hstep : ∀ (s : CCoinJoinClientSession) (op : ClientOp), s.Own → (op.step E s).Own := by
    intro s op h
    cases op with
    | joinQueue nDenom => exact h.joinQueue nDenom
    | poolStateUpdate accepted nState nSessionID => exact h.processPoolStateUpdate accepted nState nSessionID
    | submitDenominate sub => exact h.submitDenominate sub
    | finalTransaction view nSessionID tx =>
      rw [ClientOp.step]
      split_ifs
      · exact h.signFinalTransaction view tx
      · exact h
    | reset => exact s.own_setNull
  exact foldlRecOn ops _ ⟨fun h => absurd rfl h, .inl rfl⟩ fun s h op _ => hstep s op h

/-! ### Signing -/

namespace CCoinJoinClientSession

variable {E : SignEnv}

variable {tx tx' : CMutableTransaction} {sigs sigs' : List CTxIn}

/-- Signing leaves the outputs, and the signatures are for the given inputs. -/
theorem signInputs_spec {ins : List CTxDSIn} (h : signInputs E ins (tx, sigs) = some (tx', sigs')) :
    tx'.vout = tx.vout ∧ sigs'.map (·.prevout) = sigs.map (·.prevout) ++ ins.map (·.prevout) := by
  induction ins generalizing tx sigs with
  | nil =>
    cases h
    exact ⟨rfl, (append_nil _).symm⟩
  | cons t ins ih =>
    rw [signInputs] at h
    split at h
    · cases h
    · obtain ⟨hvout, hsigs⟩ := ih h
      refine ⟨hvout, ?_⟩
      rw [hsigs]
      simp

theorem mem_set_iff {α : Type} {l : List α} {i : ℕ} {x y z : α} (hi : l[i]? = some y) (hy : x ≠ y) (hz : x ≠ z) :
    x ∈ l.set i z ↔ x ∈ l := by
  simp only [mem_iff_getElem?, getElem?_set]
  refine exists_congr fun j => ?_
  by_cases hj : i = j <;> grind

/-- Different inputs are signed if and only if each of them is there. -/
theorem isSome_signInputs_iff {ins : List CTxDSIn} (hnodup : (ins.map (·.prevout)).Nodup) :
    (signInputs E ins (tx, sigs)).isSome = true ↔ ∀ t ∈ ins, t.toCTxIn ∈ tx.vin := by
  induction ins generalizing tx sigs with
  | nil => simp [signInputs]
  | cons t ins ih =>
    rw [map_cons, nodup_cons] at hnodup
    rw [signInputs, forall_mem_cons]
    split
    · next hfind =>
      have hnot : t.toCTxIn ∉ tx.vin := fun hmem => by simpa using findIdx?_eq_none_iff.mp hfind _ hmem
      simp [hnot]
    · next i hfind =>
      obtain ⟨hlt, heq, -⟩ := findIdx?_eq_some_iff_getElem.mp hfind
      have hget : tx.vin[i]? = some t.toCTxIn := by rw [getElem?_eq_getElem hlt, beq_iff_eq.mp heq]
      rw [ih hnodup.2]
      simp only [mem_of_getElem? hget, true_and]
      -- the other inputs spend something else
      refine forall₂_congr fun u hu => ?_
      have hne : u.prevout ≠ t.prevout := fun he => hnodup.1 (mem_map.mpr ⟨u, hu, he⟩)
      exact mem_set_iff hget (ne_of_apply_ne CTxIn.prevout hne) (ne_of_apply_ne CTxIn.prevout hne)

theorem signInputs_append (ins rest : List CTxDSIn) :
    signInputs E (ins ++ rest) (tx, sigs) = (signInputs E ins (tx, sigs)).bind (signInputs E rest) := by
  induction ins generalizing tx sigs with
  | nil => rfl
  | cons t ins ih =>
    rw [cons_append, signInputs, signInputs]
    split
    · rfl
    · exact ih

/-- The entries are signed as one list of inputs, once all their outputs are there. -/
theorem signEntries_eq_some {entries : List CCoinJoinEntry} {r : CMutableTransaction × List CTxIn} :
    signEntries E entries (tx, sigs) = some r ↔ (∀ o ∈ entries.flatMap (·.vecTxOut), o ∈ tx.vout) ∧
      signInputs E (entries.flatMap (·.vecTxDSIn)) (tx, sigs) = some r := by
  induction entries generalizing tx sigs with
  | nil => simp [signEntries, signInputs]
  | cons e entries ih =>
    rw [signEntries, flatMap_cons, flatMap_cons, signInputs_append, forall_mem_append]
    by_cases hall : ∀ o ∈ e.vecTxOut, o ∈ tx.vout
    · rw [if_neg (by simpa using hall)]
      cases hsign : signInputs E e.vecTxDSIn (tx, sigs) with
      | none => simp
      | some s =>
        obtain ⟨tx₁, sigs₁⟩ := s
        rw [Option.bind_some, and_iff_right hall, ← (signInputs_spec hsign).1]
        exact ih
    · rw [if_pos (by simpa using hall)]
      simp [hall]

theorem signFinalTransaction_eq_some {view : CoinsView} {s s' : CCoinJoinClientSession} {tx : CMutableTransaction}
    {sigs : List CTxIn} (h : s.signFinalTransaction E view tx = (some sigs, s')) :
    isValidInOuts s.nSessionDenom view tx.vin tx.vout = .ok () ∧ sigs ≠ [] ∧
      sigs.map (·.prevout) = s.ownInputs.map (·.prevout) ∧ (∀ o ∈ s.ownOutputs, o ∈ tx.vout) ∧
      ((s.ownInputs.map (·.prevout)).Nodup → ∀ t ∈ s.ownInputs, t.toCTxIn ∈ tx.vin) := by
  have hin := sortBy_perm compareInputBIP69 tx.vin
  have hout := sortBy_perm compareOutputBIP69 tx.vout
  unfold signFinalTransaction at h
  dsimp only at h
  split at h
  · cases h
  split at h
  · cases h
  split at h
  · cases h
  next hvalid =>
  split at h
  · cases h
  next tx' sigs' hsign =>
  split at h
  · cases h
  next hsome =>
  cases h
  obtain ⟨houtputs, hins⟩ := signEntries_eq_some.mp hsign
  refine ⟨(isValidInOuts_perm hin hout).mp hvalid, ?_, (signInputs_spec hins).2, fun o ho => ?_, fun hnodup t ht => ?_⟩
  · rintro rfl
    exact hsome rfl
  · exact hout.mem_iff.mp (houtputs o ho)
  · exact hin.mem_iff.mp ((isSome_signInputs_iff hnodup).mp (Option.isSome_of_eq_some hins) t ht)

end CCoinJoinClientSession

/-! ### What a signed transaction pays -/

theorem map_spentBy_congr (view : CoinsView) {l l' : List CTxIn} (h : l.map (·.prevout) = l'.map (·.prevout)) :
    l.map (spentBy view) = l'.map (spentBy view) := by
  have hfactor : ∀ k : List CTxIn, k.map (spentBy view) = (k.map (·.prevout)).map fun p => spentBy view ⟨p, [], -1⟩ := by
    intro k
    rw [map_map]
    rfl
  rw [hfactor, hfactor, h]

theorem valueOf_eq_length_mul {outs : List CTxOut} {nAmount : Int} (h : ∀ o ∈ outs, o.nValue = nAmount) :
    valueOf outs = outs.length * nAmount := by
  have hmap : outs.map (·.nValue) = replicate outs.length nAmount := by
    rw [eq_replicate_iff]
    refine ⟨length_map _, fun v hv => ?_⟩
    obtain ⟨o, ho, rfl⟩ := mem_map.mp hv
    exact h o ho
  rw [valueOf, hmap, sum_replicate, nsmul_eq_mul]

theorem valueOf_le_of_subperm {outs outs' : List CTxOut} (h : outs.Subperm outs') (hnonneg : ∀ o ∈ outs', 0 ≤ o.nValue) :
    valueOf outs ≤ valueOf outs' := by
  obtain ⟨mid, hperm, hsub⟩ := h
  have hmid : valueOf outs = valueOf mid := (hperm.symm.map _).sum_eq
  rw [hmid]
  refine (hsub.map _).sum_le_sum fun v hv => ?_
  obtain ⟨o, ho, rfl⟩ := mem_map.mp hv
  exact hnonneg o ho

theorem ne_nil_of_isPayToPublicKeyHash {s : CScript} (h : s.isPayToPublicKeyHash = true) : s ≠ [] := by
  rintro rfl
  cases h

theorem OwnPairs.nodup_scripts {nDenomAmount nSessionDenom : Int}
    (h : OwnPairs nDenomAmount pairs) (hmix : ∀ p ∈ pairs, Mixable nSessionDenom p.2) :
    (pairs.map fun p => p.2.scriptPubKey).Nodup := by
  rw [Nodup, pairwise_map]
  refine Pairwise.imp_of_mem (fun {p q} hp _ hkeys he => ?_) h.keys
  exact ne_nil_of_isPayToPublicKeyHash (hmix p hp).2 (hkeys he)

/-- Whatever transaction comes, if the client signs it, its inputs and outputs are in it, all is of the denomination
of the session, and the scripts of the client get at least the value of the inputs it signed. -/
theorem signFinalTransaction_safe (E : SignEnv) (ops : List ClientOp) (view : CoinsView) (tx : CMutableTransaction)
    (sigs : List CTxIn) (s' : CCoinJoinClientSession)
    (h : (clientRun E ops).signFinalTransaction E view tx = (some sigs, s')) :
    ((clientRun E ops).ownInputs.map (·.toCTxIn)).Subperm tx.vin ∧
    (clientRun E ops).ownOutputs.Subperm tx.vout ∧
    tx.vin.length = tx.vout.length ∧
    (∀ i ∈ tx.vin, Spendable view i) ∧
    (∀ o ∈ tx.vout ++ tx.vin.map (spentBy view), amountToDenomination o.nValue = (clientRun E ops).nSessionDenom) ∧
    sigs.map (·.prevout) = (clientRun E ops).ownInputs.map (·.prevout) ∧
    valueOf (sigs.map (spentBy view)) ≤
      valueOf (tx.vout.filter fun o => o.scriptPubKey ∈ (clientRun E ops).ownOutputs.map (·.scriptPubKey)) := by
  have hown := own_clientRun E ops
  generalize clientRun E ops = s at h hown ⊢
  obtain ⟨hvalid, hsome, hsigs, houtputs, hinputs⟩ := CCoinJoinClientSession.signFinalTransaction_eq_some h
  obtain ⟨hlen, hspend, hmix, -, -⟩ := isValidInOuts_iff.mp hvalid
  rcases hown.entries with hnil | ⟨-, hdenom, pairs, -, hpairs, hin, hout⟩
  · -- without an entry there is nothing to sign
    rw [CCoinJoinClientSession.ownInputs, hnil] at hsigs
    exact absurd (map_eq_nil_iff.mp hsigs) hsome
  have hprevouts : (s.ownInputs.map (·.prevout)).Nodup := by
    rw [hin, map_map]
    exact hpairs.inputs
  have hinputs := hinputs hprevouts
  have hsubIn : (s.ownInputs.map (·.toCTxIn)).Subperm tx.vin := by
    apply subperm_of_subset
    · apply Nodup.of_map (·.prevout)
      rw [map_map]
      exact hprevouts
    · intro i hi
      obtain ⟨t, ht, rfl⟩ := mem_map.mp hi
      exact hinputs t ht
  have hmixPairs : ∀ p ∈ pairs, Mixable s.nSessionDenom p.2 := fun p hp =>
    hmix p.2 (mem_append_left _ (houtputs p.2 (hout ▸ mem_map_of_mem hp)))
  have houtNodup : s.ownOutputs.Nodup := by
    apply Nodup.of_map (·.scriptPubKey)
    rw [hout, map_map]
    exact hpairs.nodup_scripts hmixPairs
  have hamount : ∀ o ∈ tx.vout ++ tx.vin.map (spentBy view), o.nValue = denominationToAmount s.nSessionDenom := by
    intro o ho
    have heq := (hmix o ho).1
    rw [← heq, denominationToAmount_amountToDenomination]
    rw [heq]
    exact ne_zero_of_isValidDenomination hdenom
  refine ⟨hsubIn, subperm_of_subset houtNodup houtputs, hlen, hspend, fun o ho => (hmix o ho).1, hsigs, ?_⟩
  -- as many inputs as outputs, all of one amount
  calc valueOf (sigs.map (spentBy view)) = valueOf ((s.ownInputs.map (·.toCTxIn)).map (spentBy view)) := by
        apply congrArg
        apply map_spentBy_congr
        rw [hsigs, map_map]
        rfl
    _ = s.ownInputs.length * denominationToAmount s.nSessionDenom := by
        rw [@valueOf_eq_length_mul _ (denominationToAmount s.nSessionDenom), length_map, length_map]
        intro o ho
        obtain ⟨i, hi, rfl⟩ := mem_map.mp ho
        exact hamount _ (mem_append_right _ (mem_map_of_mem (hsubIn.subset hi)))
    _ = valueOf s.ownOutputs := by
        rw [valueOf_eq_length_mul fun o ho => hamount o (mem_append_left _ (houtputs o ho)), hin, hout,
          length_map, length_map]
    _ ≤ _ := by
        refine valueOf_le_of_subperm (subperm_of_subset houtNodup fun o ho => ?_) fun o ho => ?_
        · exact mem_filter.mpr ⟨houtputs o ho, by simpa using ⟨o, ho, rfl⟩⟩
        · rw [hamount o (mem_append_left _ (mem_of_mem_filter ho))]
          exact le_of_lt (of_decide_eq_true hdenom)

/-! ### A session that signs -/

def keyScript (n : UInt8) : CScript :=
  [0x76, 0xa9, 0x14] ++ List.replicate 20 n ++ [0x88, 0xac]

def oneKey (script : CScript) : KeyHolderStorage where
  addKey i := if i = 0 then script else []
  reserved i j he hne := by
    have hi : i = 0 := by
      by_contra h
      exact hne (if_neg h)
    have hj : j = 0 := by
      by_contra h
      rw [if_neg h] at he
      exact hne he
    rw [hi, hj]

/-- Transactions differ by their inputs, and every input is signed with one byte. -/
def sampleSignEnv : SignEnv where
  getHash tx := (tx.vin.map fun i => i.prevout.hash).sum
  signSignature _ _ _ := [0x01]

/-- A session with the smallest denomination and one coin. -/
def sampleClientOps : List ClientOp :=
  [.joinQueue 16, .poolStateUpdate true .queue 7, .submitDenominate
      { vCoins := [⟨⟨5#256, 0#32⟩, ⟨100001, keyScript 1⟩, 0⟩], keys := oneKey (keyScript 2), randomSkip := fun _ => false,
        nMinRounds := 0, nMaxRounds := 0, checkDiskSpace := true, txMyCollateral := {} }]

def sampleView : CoinsView where
  getCoin p := if p.hash = 5#256 then some ⟨⟨100001, keyScript 1⟩⟩ else none
  inMempool _ := false
  isLocked _ := false

def sampleFinalTx : CMutableTransaction where
  vin := [⟨⟨5#256, 0#32⟩, [], -1⟩]
  vout := [⟨100001, keyScript 2⟩]

theorem signFinalTransaction_safe_sample :
    ((clientRun sampleSignEnv sampleClientOps).signFinalTransaction sampleSignEnv sampleView sampleFinalTx).1 =
        some [⟨⟨5#256, 0#32⟩, [0x01], -1⟩] ∧
      valueOf ([⟨⟨5#256, 0#32⟩, [0x01], -1⟩].map (spentBy sampleView)) ≤ valueOf (sampleFinalTx.vout.filter fun o =>
          o.scriptPubKey ∈ (clientRun sampleSignEnv sampleClientOps).ownOutputs.map (·.scriptPubKey)) := by
  have hsigned : ((clientRun sampleSignEnv sampleClientOps).signFinalTransaction sampleSignEnv sampleView
      sampleFinalTx).1 = some [⟨⟨5#256, 0#32⟩, [0x01], -1⟩] := by
    decide +kernel
  have hsafe := signFinalTransaction_safe sampleSignEnv sampleClientOps sampleView sampleFinalTx _ _
    (Prod.ext hsigned rfl)
  exact ⟨hsigned, hsafe.2.2.2.2.2.2⟩

end OmegaCore.CoinJoin
