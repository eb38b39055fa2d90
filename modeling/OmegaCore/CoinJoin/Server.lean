import OmegaCore.CoinJoin.Client

/-!
The masternode's side of a mixing session.  Users queue up with a collateral each, send their
entries, and sign the transaction that is made of all of them.  The server checks entries one at a
time, a client checks the transaction.  The two differ in one respect only: `IsValidInOuts` wants all
scripts of outputs and spent outputs to be different, and the server asks that within an entry.
-/

namespace OmegaCore.CoinJoin

open Util

/-- `COINJOIN_QUEUE_TIMEOUT`, in seconds. -/
def coinJoinQueueTimeout : Int := 30

/-- `COINJOIN_SIGNING_TIMEOUT`, in seconds. -/
def coinJoinSigningTimeout : Int := 15

/-- No signature hash covers a `scriptSig`: this is all that a signature checker sees of a transaction. -/
def CMutableTransaction.withoutScriptSigs (tx : CMutableTransaction) : CMutableTransaction :=
  { tx with vin := tx.vin.map fun i => { i with scriptSig := [] } }

/-- The parameters of the chain, and `VerifyScript` of a `scriptSig` and a script, with the checker for an input of a
transaction without its `scriptSig`s. -/
structure ServerEnv where
  getMinPoolParticipants : ℕ
  getMaxPoolParticipants : ℕ
  verifyScript : CScript → CScript → CMutableTransaction → ℕ → Bool

/-- What the server finds around it when it is called. -/
structure Moment where
  getTime : Int
  view : CoinsView
  isCollateralValid : CMutableTransaction → Bool
  acceptToMemoryPool : CMutableTransaction → Bool
  /-- `ForNode` finds the client. -/
  isConnected : CService → Bool
  /-- The masternode itself is in the list at the tip. -/
  isValidMN : Bool
  /-- The last queue of the masternode is still there or was too recent. -/
  refusesQueue : Bool
  getRandInt : Fin 999999

/-- An entry as it is read from a message: what is in memory only has its default. -/
def CCoinJoinEntry.received (entry : CCoinJoinEntry) (addr : CService) : CCoinJoinEntry :=
  { entry with vecTxDSIn := entry.vecTxDSIn.map fun t => { toCTxIn := t.toCTxIn }, addr := addr }

variable (vecEntries : List CCoinJoinEntry)

def inputsOf : List CTxDSIn :=
  vecEntries.flatMap (·.vecTxDSIn)

def outputsOf : List CTxOut :=
  vecEntries.flatMap (·.vecTxOut)

/-- The transaction that the loops over the entries put together. -/
def mergedTransaction : CMutableTransaction :=
  { vin := (inputsOf vecEntries).map (·.toCTxIn), vout := outputsOf vecEntries }

structure CCoinJoinServer where
  nState : PoolState := .idle
  nSessionID : Int := 0
  nSessionDenom : Int := 0
  vecEntries : List CCoinJoinEntry := []
  finalMutableTransaction : CMutableTransaction := {}
  nTimeLastSuccessfulStep : Int := 0
  vecSessionCollaterals : List CMutableTransaction := []
  deriving DecidableEq

namespace CCoinJoinServer

variable (E : ServerEnv) (now : Moment) (s : CCoinJoinServer)

def setNull : CCoinJoinServer :=
  { finalMutableTransaction := { s.finalMutableTransaction with vin := [], vout := [] }
    nTimeLastSuccessfulStep := now.getTime }

def setState (nStateNew : PoolState) : CCoinJoinServer :=
  if nStateNew = .error then s
  else { s with nTimeLastSuccessfulStep := now.getTime, nState := nStateNew }

def hasTimedOut : Bool :=
  if s.nState = .idle then false
  else
    let nTimeout := if s.nState = .signing then coinJoinSigningTimeout else coinJoinQueueTimeout
    decide (now.getTime - s.nTimeLastSuccessfulStep ≥ nTimeout)

def isSessionReady : Bool :=
  match s.nState with
  | .queue =>
    decide (s.vecSessionCollaterals.length ≥ E.getMaxPoolParticipants) ||
      (s.hasTimedOut now && decide (s.vecSessionCollaterals.length ≥ E.getMinPoolParticipants))
  | .acceptingEntries => true
  | _ => false

/-- The session is reset if all clients are gone. -/
def relayStatus : CCoinJoinServer :=
  let nDisconnected := s.vecEntries.countP fun entry => !now.isConnected entry.addr
  if nDisconnected = 0 then s
  else if nDisconnected = s.vecEntries.length then s.setNull now
  else s

/-! ### The queue -/

variable (nDenom : Int) (txCollateral : CMutableTransaction)

/-- `IsAcceptableDSA`, with the reason if it is not. -/
def isAcceptableDSA : Option PoolMessage :=
  if !isValidDenomination nDenom then some .errDenom
  else if !now.isCollateralValid txCollateral then some .errInvalidCollateral
  else none

def createNewSession : Except PoolMessage CCoinJoinServer :=
  if s.nSessionID ≠ 0 then .error .msgNoErr
  else if s.nState ≠ .idle then .error .errMode
  else
    match isAcceptableDSA now nDenom txCollateral with
    | some e => .error e
    | none =>
      let s := { s with nSessionID := (now.getRandInt : ℕ) + 1, nSessionDenom := nDenom }
      .ok { s.setState now .queue with vecSessionCollaterals := s.vecSessionCollaterals ++ [txCollateral] }

def addUserToExistingSession : Except PoolMessage CCoinJoinServer :=
  if s.nSessionID = 0 ∨ s.isSessionReady E now then .error .msgNoErr
  else
    match isAcceptableDSA now nDenom txCollateral with
    | some e => .error e
    | none =>
      if s.nState ≠ .queue then .error .errMode
      else if nDenom ≠ s.nSessionDenom then .error .errDenom
      else .ok { s with vecSessionCollaterals := s.vecSessionCollaterals ++ [txCollateral] }

/-- The state after `ProcessDSACCEPT`, with the message that is pushed to the peer. -/
def processDSACCEPT : PoolMessage × CCoinJoinServer :=
  if s.isSessionReady E now then (.errQueueFull, s)
  else if !now.isValidMN then (.errMnList, s)
  else if s.vecSessionCollaterals.isEmpty && now.refusesQueue then (.errRecent, s)
  else
    let fResult :=
      if s.nSessionID = 0 then s.createNewSession now nDenom txCollateral
      else s.addUserToExistingSession E now nDenom txCollateral
    match fResult with
    | .error nMessageID => (nMessageID, s)
    | .ok s => (.msgNoErr, s)

variable {E now s}

theorem createNewSession_eq_ok {nDenom : Int} {txCollateral : CMutableTransaction} {s' : CCoinJoinServer}
    (h : s.createNewSession now nDenom txCollateral = .ok s') :
    s.nState = .idle ∧ isValidDenomination nDenom = true ∧
      s' = { s with
        nState := .queue, nSessionID := (now.getRandInt : ℕ) + 1, nSessionDenom := nDenom
        nTimeLastSuccessfulStep := now.getTime
        vecSessionCollaterals := s.vecSessionCollaterals ++ [txCollateral] } := by
  unfold createNewSession at h
  split at h
  · cases h
  split at h
  · cases h
  next hstate =>
  split at h
  · cases h
  next hacceptable =>
  cases h
  unfold isAcceptableDSA at hacceptable
  split_ifs at hacceptable with hdenom
  exact ⟨not_not.mp hstate, by simpa using hdenom, rfl⟩

theorem addUserToExistingSession_eq_ok {nDenom : Int} {txCollateral : CMutableTransaction} {s' : CCoinJoinServer}
    (h : s.addUserToExistingSession E now nDenom txCollateral = .ok s') :
    s.nState = .queue ∧ s' = { s with vecSessionCollaterals := s.vecSessionCollaterals ++ [txCollateral] } := by
  unfold addUserToExistingSession at h
  split at h
  · cases h
  split at h
  · cases h
  split at h
  · cases h
  next hstate =>
  split at h
  · cases h
  cases h
  exact ⟨not_not.mp hstate, rfl⟩

/-- A user who is not refused starts a session or adds a collateral. -/
theorem processDSACCEPT_cases (nDenom : Int) (txCollateral : CMutableTransaction) :
    (s.processDSACCEPT E now nDenom txCollateral).2 = s ∨
      s.createNewSession now nDenom txCollateral = .ok (s.processDSACCEPT E now nDenom txCollateral).2 ∨
      s.addUserToExistingSession E now nDenom txCollateral = .ok (s.processDSACCEPT E now nDenom txCollateral).2 := by
  unfold processDSACCEPT
  split
  · exact .inl rfl
  split
  · exact .inl rfl
  split
  · exact .inl rfl
  dsimp only
  split
  · exact .inl rfl
  next s' hresult =>
  split at hresult
  · exact .inr (.inl hresult)
  · exact .inr (.inr hresult)

variable (E now s)

def checkForCompleteQueue : CCoinJoinServer :=
  if s.nState = .queue ∧ s.isSessionReady E now then s.setState now .acceptingEntries else s

/-! ### The final transaction -/

def finalTransaction : CMutableTransaction :=
  (mergedTransaction s.vecEntries).sortBIP69

def createFinalTransaction : CCoinJoinServer :=
  let s := { s with finalMutableTransaction := s.finalTransaction }
  let s := s.setState now .signing
  -- `RelayFinalTransaction` stops at the first client that is gone
  if s.vecEntries.all fun entry => now.isConnected entry.addr then s else s.relayStatus now

/-- The session is over, whether the transaction is accepted or not. -/
def commitFinalTransaction : PoolMessage × CCoinJoinServer :=
  if !now.acceptToMemoryPool s.finalMutableTransaction then (.errInvalidTx, s.setNull now)
  else (.msgSuccess, s.setNull now)

def isSignaturesComplete : Bool :=
  s.vecEntries.all fun entry => entry.vecTxDSIn.all (·.fHasSig)

def checkPool : CCoinJoinServer :=
  if s.nState = .acceptingEntries ∧ s.vecEntries.length = s.vecSessionCollaterals.length then
    s.createFinalTransaction now
  else if s.nState = .acceptingEntries ∧ s.hasTimedOut now ∧ s.vecEntries.length ≥ E.getMinPoolParticipants then
    s.createFinalTransaction now
  else if s.nState = .signing ∧ s.isSignaturesComplete then (s.commitFinalTransaction now).2
  else s

def checkTimeout : CCoinJoinServer :=
  if !s.hasTimedOut now then s else s.setNull now

/-! ### Entries -/

def addEntry (entry : CCoinJoinEntry) : Except PoolError CCoinJoinServer :=
  if s.vecEntries.length ≥ s.vecSessionCollaterals.length then .error ⟨.errEntriesFull, false⟩
  else if !now.isCollateralValid entry.txCollateral then .error ⟨.errInvalidCollateral, false⟩
  else if entry.vecTxDSIn.length > coinJoinEntryMaxSize then .error ⟨.errMaximum, true⟩
  else if entry.vecTxDSIn.any fun txin =>
      s.vecEntries.any fun innerEntry => innerEntry.vecTxDSIn.any fun txdsin => txdsin.prevout == txin.prevout then
    .error ⟨.errAlreadyHave, false⟩
  else
    match isValidInOuts s.nSessionDenom now.view (entry.vecTxDSIn.map (·.toCTxIn)) entry.vecTxOut with
    | .error e => .error e
    | .ok () => .ok { s with vecEntries := s.vecEntries ++ [entry] }

/-- The state after `ProcessDSVIN`, with the message that is pushed to the peer. -/
def processDSVIN (entry : CCoinJoinEntry) (addr : CService) : PoolMessage × CCoinJoinServer :=
  if !s.isSessionReady E now then (.errSession, s)
  else
    match s.addEntry now (entry.received addr) with
    | .error e => (e.nMessageID, s)
    | .ok s => (.msgEntriesAdded, (s.checkPool E now).relayStatus now)

end CCoinJoinServer

/-! ### Signatures -/

/-- The loop of `CCoinJoinEntry::AddScriptSig` over the inputs. -/
def addScriptSigToInputs (txin : CTxIn) : List CTxDSIn → Option (List CTxDSIn)
  | [] => none
  | txdsin :: rest =>
    if txdsin.prevout = txin.prevout ∧ txdsin.nSequence = txin.nSequence then
      if txdsin.fHasSig then none
      else some ({ txdsin with scriptSig := txin.scriptSig, fHasSig := true } :: rest)
    else (addScriptSigToInputs txin rest).map (txdsin :: ·)

def CCoinJoinEntry.addScriptSig (txin : CTxIn) (entry : CCoinJoinEntry) : Option CCoinJoinEntry :=
  (addScriptSigToInputs txin entry.vecTxDSIn).map fun vecTxDSIn => { entry with vecTxDSIn := vecTxDSIn }

def addScriptSigToEntries (txin : CTxIn) : List CCoinJoinEntry → Option (List CCoinJoinEntry)
  | [] => none
  | entry :: rest =>
    match entry.addScriptSig txin with
    | some entry => some (entry :: rest)
    | none => (addScriptSigToEntries txin rest).map (entry :: ·)

namespace CCoinJoinServer

variable (E : ServerEnv) (now : Moment) (s : CCoinJoinServer)

/-- The last input of the entries with an outpoint, and its position. -/
def findInput (prevout : COutPoint) : Option (CTxDSIn × ℕ) :=
  ((inputsOf s.vecEntries).zipIdx.filter fun p => p.1.prevout == prevout).getLast?

/-- The transaction is the one of the entries as they came, not the final one. -/
def isInputScriptSigValid (txin : CTxIn) : Bool :=
  match s.findInput txin.prevout with
  | none => false
  | some (txdsin, nTxInIndex) =>
    E.verifyScript txin.scriptSig txdsin.prevPubKey (mergedTransaction s.vecEntries).withoutScriptSigs nTxInIndex

def setScriptSig (txinNew : CTxIn) (tx : CMutableTransaction) : CMutableTransaction :=
  { tx with
    vin := tx.vin.map fun txin =>
      if txin.prevout = txinNew.prevout ∧ txin.nSequence = txinNew.nSequence then
        { txin with scriptSig := txinNew.scriptSig }
      else txin }

/-- The final transaction is changed also if no entry takes the signature. -/
def addScriptSig (txinNew : CTxIn) : Bool × CCoinJoinServer :=
  if s.vecEntries.any fun entry => entry.vecTxDSIn.any fun txdsin => txdsin.scriptSig == txinNew.scriptSig then (false, s)
  else if !s.isInputScriptSigValid E txinNew then (false, s)
  else
    let s := { s with finalMutableTransaction := setScriptSig txinNew s.finalMutableTransaction }
    match addScriptSigToEntries txinNew s.vecEntries with
    | some vecEntries => (true, { s with vecEntries := vecEntries })
    | none => (false, s)

/-- `ProcessDSSIGNFINALTX`: it stops at the first signature that is not taken. -/
def processDSSIGNFINALTX : List CTxIn → CCoinJoinServer → CCoinJoinServer
  | [], s => s.checkPool E now
  | txin :: vecTxIn, s =>
    match s.addScriptSig E txin with
    | (false, s) => s.relayStatus now
    | (true, s) => processDSSIGNFINALTX vecTxIn s

end CCoinJoinServer

/-! ### Runs -/

/-- The messages of clients and the calls of `DoMaintenance`. -/
inductive ServerOp where
  | dsa (now : Moment) (nDenom : Int) (txCollateral : CMutableTransaction)
  | dsi (now : Moment) (entry : CCoinJoinEntry) (addr : CService)
  | dss (now : Moment) (vecTxIn : List CTxIn)
  | checkForCompleteQueue (now : Moment)
  | checkPool (now : Moment)
  | checkTimeout (now : Moment)

def ServerOp.step (E : ServerEnv) (s : CCoinJoinServer) : ServerOp → CCoinJoinServer
  | .dsa now nDenom txCollateral => (s.processDSACCEPT E now nDenom txCollateral).2
  | .dsi now entry addr => (s.processDSVIN E now entry addr).2
  | .dss now vecTxIn => CCoinJoinServer.processDSSIGNFINALTX E now vecTxIn s
  | .checkForCompleteQueue now => s.checkForCompleteQueue E now
  | .checkPool now => s.checkPool E now
  | .checkTimeout now => s.checkTimeout now

def serverRun (E : ServerEnv) (ops : List ServerOp) : CCoinJoinServer :=
  ops.foldl (ServerOp.step E) {}

open List

/-! ### Accepted entries -/

namespace CCoinJoinServer

/-- A sequence of entries that are all accepted, each at its time. -/
def addEntries : List (Moment × CCoinJoinEntry) → CCoinJoinServer → Except PoolError CCoinJoinServer
  | [], s => .ok s
  | (now, entry) :: rest, s =>
    match s.addEntry now entry with
    | .error e => .error e
    | .ok s => addEntries rest s

/-- What the server knows of its entries: each is valid, and no outpoint occurs twice. -/
structure Accepted (view : CoinsView) (s : CCoinJoinServer) : Prop where
  valid : ∀ e ∈ s.vecEntries, isValidInOuts s.nSessionDenom view (e.vecTxDSIn.map (·.toCTxIn)) e.vecTxOut = .ok ()
  prevouts : ((inputsOf s.vecEntries).map (·.prevout)).Nodup

variable {s s' : CCoinJoinServer} {entry : CCoinJoinEntry}

theorem addEntry_eq_ok {now : Moment} (h : s.addEntry now entry = .ok s') :
    isValidInOuts s.nSessionDenom now.view (entry.vecTxDSIn.map (·.toCTxIn)) entry.vecTxOut = .ok () ∧
    (∀ t ∈ entry.vecTxDSIn, ∀ u ∈ inputsOf s.vecEntries, u.prevout ≠ t.prevout) ∧
    s.vecEntries.length < s.vecSessionCollaterals.length ∧
    s' = { s with vecEntries := s.vecEntries ++ [entry] } := by
  unfold addEntry at h
  split at h
  · cases h
  next hfull =>
  split at h
  · cases h
  split at h
  · cases h
  split at h
  · cases h
  next hhave =>
  split at h
  · cases h
  next hvalid =>
  cases h
  refine ⟨hvalid, fun t ht u hu he => hhave ?_, by omega, rfl⟩
  obtain ⟨e, he', hu⟩ := mem_flatMap.mp hu
  simp only [any_eq_true, beq_iff_eq]
  exact ⟨t, ht, e, he', u, hu, he⟩

variable {view : CoinsView}

theorem nodup_prevouts_of_isValidInOuts {nSessionDenom : Int} {ins : List CTxDSIn}
    {vout : List CTxOut} (h : isValidInOuts nSessionDenom view (ins.map (·.toCTxIn)) vout = .ok ()) :
    (ins.map (·.prevout)).Nodup := by
  obtain ⟨-, -, -, hnodup, -⟩ := isValidInOuts_iff.mp h
  rw [map_append, nodup_append] at hnodup
  have hscripts := hnodup.2.1
  apply Nodup.of_map fun p => (spentBy view ⟨p, [], -1⟩).scriptPubKey
  rw [map_map, map_map] at hscripts
  rw [map_map]
  exact hscripts

theorem Accepted.addEntry {now : Moment}
    (hs : Accepted view s) (hview : now.view = view) (h : s.addEntry now entry = .ok s') :
    Accepted view s' ∧ s'.nSessionDenom = s.nSessionDenom := by
  obtain ⟨hvalid, hnew, -, rfl⟩ := addEntry_eq_ok h
  rw [hview] at hvalid
  refine ⟨⟨fun e he => ?_, ?_⟩, rfl⟩
  · rcases mem_append.mp he with he | he
    · exact hs.valid e he
    · rw [mem_singleton.mp he]
      exact hvalid
  · have hinputs : inputsOf (s.vecEntries ++ [entry]) = inputsOf s.vecEntries ++ entry.vecTxDSIn := by
      simp [inputsOf]
    rw [hinputs, map_append, nodup_append]
    refine ⟨hs.prevouts, nodup_prevouts_of_isValidInOuts hvalid, fun p hp q hq he => ?_⟩
    obtain ⟨u, hu, rfl⟩ := mem_map.mp hp
    obtain ⟨t, ht, rfl⟩ := mem_map.mp hq
    exact hnew t ht u hu he

theorem accepted_of_addEntries {entries : List (Moment × CCoinJoinEntry)}
    (hs : Accepted view s) (hview : ∀ p ∈ entries, p.1.view = view) (h : addEntries entries s = .ok s') :
    Accepted view s' := by
  induction entries generalizing s with
  | nil =>
    cases h
    exact hs
  | cons p entries ih =>
    obtain ⟨now, entry⟩ := p
    rw [addEntries] at h
    cases hadd : s.addEntry now entry with
    | error e =>
      rw [hadd] at h
      cases h
    | ok s₁ =>
      rw [hadd] at h
      rw [forall_mem_cons] at hview
      exact ih (hs.addEntry hview.1 hadd).1 hview.2 h

end CCoinJoinServer

/-! ### The checks of the merged transaction -/

/-- The scripts of the outputs and of the outputs that are spent, over all entries. -/
def scriptsOf (view : CoinsView) (vecEntries : List CCoinJoinEntry) : List CScript :=
  (outputsOf vecEntries ++ ((inputsOf vecEntries).map (·.toCTxIn)).map (spentBy view)).map (·.scriptPubKey)

theorem valueOf_append (a b : List CTxOut) : valueOf (a ++ b) = valueOf a + valueOf b := by
  simp [valueOf]

variable {entries : List CCoinJoinEntry}

section

variable {nSessionDenom : Int} {view : CoinsView}
  (h : ∀ e ∈ entries, isValidInOuts nSessionDenom view (e.vecTxDSIn.map (·.toCTxIn)) e.vecTxOut = .ok ())

include h

/-- Entry by entry the inputs and outputs match, so they match over all entries. -/
theorem merged_balanced :
    (inputsOf entries).length = (outputsOf entries).length ∧
      valueOf (outputsOf entries) = valueOf (((inputsOf entries).map (·.toCTxIn)).map (spentBy view)) := by
  induction entries with
  | nil => exact ⟨rfl, rfl⟩
  | cons e entries ih =>
    rw [forall_mem_cons] at h
    obtain ⟨hlen, hvalue⟩ := ih h.2
    obtain ⟨hlen', -, -, -, hvalue'⟩ := isValidInOuts_iff.mp h.1
    rw [length_map] at hlen'
    have hin : inputsOf (e :: entries) = e.vecTxDSIn ++ inputsOf entries := flatMap_cons
    have hout : outputsOf (e :: entries) = e.vecTxOut ++ outputsOf entries := flatMap_cons
    rw [hin, hout]
    refine ⟨?_, ?_⟩
    · rw [length_append, length_append]
      omega
    · rw [map_append, map_append, valueOf_append, valueOf_append]
      omega

theorem isValidInOuts_merged_iff :
    isValidInOuts nSessionDenom view (mergedTransaction entries).vin (mergedTransaction entries).vout = .ok () ↔
      (scriptsOf view entries).Nodup := by
  obtain ⟨hlen, hvalue⟩ := merged_balanced h
  have hspend : ∀ i ∈ (inputsOf entries).map (·.toCTxIn), Spendable view i := by
    intro i hi
    obtain ⟨t, ht, rfl⟩ := mem_map.mp hi
    obtain ⟨e, he, ht⟩ := mem_flatMap.mp ht
    exact (isValidInOuts_iff.mp (h e he)).2.1 _ (mem_map_of_mem ht)
  have hmix : ∀ o ∈ outputsOf entries ++ ((inputsOf entries).map (·.toCTxIn)).map (spentBy view),
      Mixable nSessionDenom o := by
    intro o ho
    rcases mem_append.mp ho with ho | ho
    · obtain ⟨e, he, ho⟩ := mem_flatMap.mp ho
      exact (isValidInOuts_iff.mp (h e he)).2.2.1 _ (mem_append_left _ ho)
    · obtain ⟨i, hi, rfl⟩ := mem_map.mp ho
      obtain ⟨t, ht, rfl⟩ := mem_map.mp hi
      obtain ⟨e, he, ht⟩ := mem_flatMap.mp ht
      exact (isValidInOuts_iff.mp (h e he)).2.2.1 _
        (mem_append_right _ (mem_map_of_mem (mem_map_of_mem ht)))
  rw [isValidInOuts_iff]
  constructor
  · rintro ⟨-, -, -, hnodup, -⟩
    exact hnodup
  · intro hnodup
    refine ⟨?_, hspend, hmix, hnodup, hvalue⟩
    simpa [mergedTransaction] using hlen

end

/-! ### Signing the own inputs -/

namespace CCoinJoinClientSession

variable {E : SignEnv}

/-- A transaction in order that is valid and has all of the entries is signed. -/
theorem isSome_signFinalTransaction {view : CoinsView} {c : CCoinJoinClientSession} {tx : CMutableTransaction}
    (hmixing : c.mixing = true) (hsorted : tx.sortBIP69 = tx)
    (hvalid : isValidInOuts c.nSessionDenom view tx.vin tx.vout = .ok ())
    (hnodup : (c.ownInputs.map (·.prevout)).Nodup) (hin : ∀ t ∈ c.ownInputs, t.toCTxIn ∈ tx.vin)
    (hout : ∀ o ∈ c.ownOutputs, o ∈ tx.vout) (hne : c.ownInputs ≠ []) :
    (c.signFinalTransaction E view tx).1.isSome = true := by
  obtain ⟨⟨tx', sigs⟩, hins⟩ := Option.isSome_iff_exists.mp ((@isSome_signInputs_iff E tx [] _ hnodup).mpr hin)
  have hsign : signEntries E c.vecEntries (tx, []) = some (tx', sigs) := signEntries_eq_some.mpr ⟨hout, hins⟩
  have hsigs : sigs ≠ [] := by
    rintro rfl
    have hmap : [] = c.ownInputs.map (·.prevout) := (signInputs_spec hins).2
    exact hne (map_eq_nil_iff.mp hmap.symm)
  unfold signFinalTransaction
  rw [hsorted]
  dsimp only
  rw [hvalid, hsign]
  simp [hmixing, hsigs]

end CCoinJoinClientSession

/-- Of the server's transaction a participant only asks what the server did not: different scripts over all
entries. -/
theorem signFinalTransaction_isSome_iff (E : SignEnv) (ops : List ClientOp) (view : CoinsView)
    (s₀ s : CCoinJoinServer) (entries : List (Moment × CCoinJoinEntry)) (hstart : s₀.vecEntries = [])
    (hview : ∀ p ∈ entries, p.1.view = view) (haccepted : CCoinJoinServer.addEntries entries s₀ = .ok s)
    (hdenom : (clientRun E ops).nSessionDenom = s.nSessionDenom) (hentry : (clientRun E ops).vecEntries ≠ [])
    (hsent : ∀ e ∈ (clientRun E ops).vecEntries, ∃ addr, e.received addr ∈ s.vecEntries) :
    ((clientRun E ops).signFinalTransaction E view s.finalTransaction).1.isSome = true ↔
      (scriptsOf view s.vecEntries).Nodup := by
  have hown := own_clientRun E ops
  generalize clientRun E ops = c at hdenom hentry hsent hown ⊢
  have hs : CCoinJoinServer.Accepted view s := by
    refine CCoinJoinServer.accepted_of_addEntries ⟨fun e he => ?_, ?_⟩ hview haccepted
    · rw [hstart] at he
      cases he
    · rw [hstart]
      exact nodup_nil
  have hin := sortBy_perm compareInputBIP69 (mergedTransaction s.vecEntries).vin
  have hout := sortBy_perm compareOutputBIP69 (mergedTransaction s.vecEntries).vout
  have hvalid : isValidInOuts c.nSessionDenom view s.finalTransaction.vin s.finalTransaction.vout = .ok () ↔
      (scriptsOf view s.vecEntries).Nodup := by
    rw [hdenom, ← isValidInOuts_merged_iff hs.valid]
    exact isValidInOuts_perm hin hout
  constructor
  · intro hsome
    obtain ⟨sigs, hsigs⟩ := Option.isSome_iff_exists.mp hsome
    exact hvalid.mp (CCoinJoinClientSession.signFinalTransaction_eq_some (Prod.ext hsigs rfl)).1
  · intro hnodup
    rcases hown.entries with hnil | ⟨hidle, -, pairs, hne, hpairs, hown₁, -⟩
    · exact absurd hnil hentry
    have hpresent : ∀ e ∈ c.vecEntries, (∀ t ∈ e.vecTxDSIn, t.toCTxIn ∈ s.finalTransaction.vin) ∧
        ∀ o ∈ e.vecTxOut, o ∈ s.finalTransaction.vout := by
      intro e he
      obtain ⟨addr, hmem⟩ := hsent e he
      refine ⟨fun t ht => hin.mem_iff.mpr ?_, fun o ho => hout.mem_iff.mpr ?_⟩
      · refine mem_map.mpr ⟨{ toCTxIn := t.toCTxIn }, mem_flatMap.mpr ⟨_, hmem, ?_⟩, rfl⟩
        exact mem_map.mpr ⟨t, ht, rfl⟩
      · exact mem_flatMap.mpr ⟨_, hmem, ho⟩
    refine CCoinJoinClientSession.isSome_signFinalTransaction (hown.mixing hidle) (sortBIP69_sortBIP69 _)
      (hvalid.mpr hnodup) ?_ (fun t ht => ?_) (fun o ho => ?_) ?_
    · rw [hown₁, map_map]
      exact hpairs.inputs
    · obtain ⟨e, he, ht⟩ := mem_flatMap.mp ht
      exact (hpresent e he).1 t ht
    · obtain ⟨e, he, ho⟩ := mem_flatMap.mp ho
      exact (hpresent e he).2 o ho
    · rw [hown₁]
      exact fun hnil => hne (map_eq_nil_iff.mp hnil)

/-! ### Two entries that share a script -/

def twoCoins : CoinsView where
  getCoin p :=
    if p.hash = 5#256 then some ⟨⟨100001, keyScript 1⟩⟩
    else if p.hash = 6#256 then some ⟨⟨100001, keyScript 3⟩⟩
    else none
  inMempool _ := false
  isLocked _ := false

def sampleMoment : Moment where
  getTime := 1000
  view := twoCoins
  isCollateralValid _ := true
  acceptToMemoryPool _ := true
  isConnected _ := true
  isValidMN := true
  refusesQueue := false
  getRandInt := 6

/-- The entry of `sampleClientOps` as the server has it. -/
def sampleEntry : CCoinJoinEntry where
  vecTxDSIn := [{ prevout := ⟨5#256, 0#32⟩ }]
  vecTxOut := [⟨100001, keyScript 2⟩]

/-- Another participant, who may choose the script of the output. -/
def otherEntry (script : CScript) : CCoinJoinEntry where
  vecTxDSIn := [{ prevout := ⟨6#256, 0#32⟩ }]
  vecTxOut := [⟨100001, script⟩]

/-- A session of two users with the denomination of `sampleClientOps`. -/
def twoUsers : CCoinJoinServer where
  nState := .acceptingEntries
  nSessionID := 7
  nSessionDenom := 16
  vecSessionCollaterals := [{}, {}]

def withOther (script : CScript) : CCoinJoinServer :=
  { twoUsers with vecEntries := [sampleEntry, otherEntry script] }

theorem sampleClient_sent (script : CScript) :
    ∀ e ∈ (clientRun sampleSignEnv sampleClientOps).vecEntries, ∃ addr, e.received addr ∈ (withOther script).vecEntries := by
  have hentries : (clientRun sampleSignEnv sampleClientOps).vecEntries.map (·.received {}) = [sampleEntry] := by
    decide +kernel
  intro e he
  refine ⟨{}, ?_⟩
  have hmem := mem_map_of_mem (f := (·.received {})) he
  rw [hentries, mem_singleton] at hmem
  rw [hmem]
  exact mem_cons_self

theorem signFinalTransaction_isSome_iff_sample :
    CCoinJoinServer.addEntries [(sampleMoment, sampleEntry), (sampleMoment, otherEntry (keyScript 4))] twoUsers =
        .ok (withOther (keyScript 4)) ∧
      (((clientRun sampleSignEnv sampleClientOps).signFinalTransaction sampleSignEnv twoCoins
          (withOther (keyScript 4)).finalTransaction).1.isSome = true ↔
        (scriptsOf twoCoins (withOther (keyScript 4)).vecEntries).Nodup) := by
  have haccepted : CCoinJoinServer.addEntries [(sampleMoment, sampleEntry), (sampleMoment, otherEntry (keyScript 4))]
      twoUsers = .ok (withOther (keyScript 4)) := by
    decide +kernel
  refine ⟨haccepted, ?_⟩
  apply signFinalTransaction_isSome_iff sampleSignEnv sampleClientOps twoCoins twoUsers _ _ rfl ?_ haccepted
  · decide +kernel
  · decide +kernel
  · exact sampleClient_sent _
  · intro p hp
    simp only [mem_cons, not_mem_nil, or_false] at hp
    rcases hp with rfl | rfl <;> rfl

/-- The other participant pays to the script of the coin that the client spends: the server accepts both entries, the
client refuses their transaction. -/
theorem acceptedEntries_refused : ∃ (E : SignEnv) (ops : List ClientOp) (view : CoinsView) (s₀ s : CCoinJoinServer)
      (entries : List (Moment × CCoinJoinEntry)),
      s₀.vecEntries = [] ∧ (∀ p ∈ entries, p.1.view = view) ∧ CCoinJoinServer.addEntries entries s₀ = .ok s ∧
      (clientRun E ops).nSessionDenom = s.nSessionDenom ∧ (clientRun E ops).vecEntries ≠ [] ∧
      (∀ e ∈ (clientRun E ops).vecEntries, ∃ addr, e.received addr ∈ s.vecEntries) ∧
      ((clientRun E ops).signFinalTransaction E view s.finalTransaction).1 = none := by
  refine ⟨sampleSignEnv, sampleClientOps, twoCoins, twoUsers, withOther (keyScript 1),
    [(sampleMoment, sampleEntry), (sampleMoment, otherEntry (keyScript 1))], rfl, ?_, ?_, ?_, ?_,
    sampleClient_sent _, ?_⟩
  · intro p hp
    simp only [mem_cons, not_mem_nil, or_false] at hp
    rcases hp with rfl | rfl <;> rfl
  · decide +kernel
  · decide +kernel
  · decide +kernel
  · decide +kernel

end OmegaCore.CoinJoin
