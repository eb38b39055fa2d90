import OmegaCore.CoinJoin.Server

/-!
What the server stores while clients sign.  The script of a spent output is not part of a message,
so `IsInputScriptSigValid` runs every `scriptSig` against an empty script, on the transaction of
the entries as they came.  The stored signatures are good as long as all that comes is.
-/

namespace OmegaCore.CoinJoin

open Util List CCoinJoinServer Bool

variable {E : ServerEnv} {spent : COutPoint → CScript}

/-- Every `scriptSig` of a transaction satisfies the script of the output that is spent. -/
def ScriptSigsValid (E : ServerEnv) (spent : COutPoint → CScript) (tx : CMutableTransaction) : Prop :=
  ∀ p ∈ tx.vin.zipIdx, p.1.scriptSig ≠ [] →
    E.verifyScript p.1.scriptSig (spent p.1.prevout) tx.withoutScriptSigs p.2 = true

/-- A signature for the inputs of the merged and of the final transaction: if it passes with an empty script, it
satisfies the script of the output. -/
def isProperSignature (E : ServerEnv) (spent : COutPoint → CScript) (merged final : CMutableTransaction) (txin : CTxIn) :
    Bool :=
  merged.vin.zipIdx.all fun p =>
    !(p.1.prevout == txin.prevout && E.verifyScript txin.scriptSig [] merged p.2) || final.vin.zipIdx.all fun q =>
        !(q.1.prevout == txin.prevout && q.1.nSequence == txin.nSequence) ||
          E.verifyScript txin.scriptSig (spent txin.prevout) final q.2

/-- Entries come without signatures.  Signatures come in time, and as the clients make them. -/
def ServerOp.isProper (E : ServerEnv) (spent : COutPoint → CScript) (s : CCoinJoinServer) : ServerOp → Bool
  | .dsi _ entry _ => entry.vecTxDSIn.all fun t => t.scriptSig.isEmpty
  | .dss _ vecTxIn =>
    s.vecEntries.isEmpty ||
      (decide (s.nState = .signing) &&
        vecTxIn.all (isProperSignature E spent (mergedTransaction s.vecEntries).withoutScriptSigs
          s.finalMutableTransaction.withoutScriptSigs))
  | _ => true

/-- Every step of a run is proper in the state it meets. -/
def isProperRun (E : ServerEnv) (spent : COutPoint → CScript) : CCoinJoinServer → List ServerOp → Bool
  | _, [] => true
  | s, op :: ops => op.isProper E spent s && isProperRun E spent (op.step E s) ops

/-! ### What a signature changes -/

def unsignedInput (t : CTxDSIn) : CTxIn × CScript :=
  ({ t.toCTxIn with scriptSig := [] }, t.prevPubKey)

theorem addScriptSigToInputs_unsigned {txin : CTxIn} {ins ins' : List CTxDSIn}
    (h : addScriptSigToInputs txin ins = some ins') : ins'.map unsignedInput = ins.map unsignedInput := by
  induction ins generalizing ins' with
  | nil => cases h
  | cons t ins ih =>
    rw [addScriptSigToInputs] at h
    split_ifs at h
    · cases h
      rfl
    · obtain ⟨rest, hrest, rfl⟩ := Option.map_eq_some_iff.mp h
      rw [map_cons, map_cons, ih hrest]

theorem addScriptSigToEntries_unsigned {txin : CTxIn} {es es' : List CCoinJoinEntry}
    (h : addScriptSigToEntries txin es = some es') :
    (inputsOf es').map unsignedInput = (inputsOf es).map unsignedInput ∧ outputsOf es' = outputsOf es := by
  induction es generalizing es' with
  | nil => cases h
  | cons e es ih =>
    rw [addScriptSigToEntries] at h
    split at h
    next e' he =>
      cases h
      obtain ⟨ins, hins, rfl⟩ := Option.map_eq_some_iff.mp he
      refine ⟨?_, rfl⟩
      simp only [inputsOf, flatMap_cons, map_append]
      rw [addScriptSigToInputs_unsigned hins]
    next =>
      obtain ⟨rest, hrest, rfl⟩ := Option.map_eq_some_iff.mp h
      obtain ⟨hin, hout⟩ := ih hrest
      refine ⟨?_, ?_⟩
      · simp only [inputsOf, flatMap_cons, map_append] at hin ⊢
        rw [hin]
      · simp only [outputsOf, flatMap_cons] at hout ⊢
        rw [hout]

theorem mergedTransaction_withoutScriptSigs (es : List CCoinJoinEntry) :
    (mergedTransaction es).withoutScriptSigs =
      { vin := ((inputsOf es).map unsignedInput).map Prod.fst, vout := outputsOf es } := by
  simp only [mergedTransaction, CMutableTransaction.withoutScriptSigs, map_map]
  rfl

@[simp] theorem setScriptSig_withoutScriptSigs (txin : CTxIn) (tx : CMutableTransaction) :
    (setScriptSig txin tx).withoutScriptSigs = tx.withoutScriptSigs := by
  have hvin : (setScriptSig txin tx).vin.map (fun i => { i with scriptSig := [] }) =
      tx.vin.map fun i => { i with scriptSig := [] } := by
    simp only [setScriptSig, map_map]
    apply map_congr_left
    intro i _
    simp only [Function.comp_apply]
    split_ifs <;> rfl
  unfold CMutableTransaction.withoutScriptSigs
  rw [hvin]
  rfl

namespace CCoinJoinServer

/-- The entries are as they came over the wire, unsigned until the final transaction is made, and all signatures of
that are valid. -/
structure Signable (E : ServerEnv) (spent : COutPoint → CScript) (s : CCoinJoinServer) : Prop where
  received : ∀ t ∈ inputsOf s.vecEntries, t.prevPubKey = []
  unsigned : s.nState ≠ .signing → ∀ t ∈ inputsOf s.vecEntries, t.scriptSig = []
  valid : ScriptSigsValid E spent s.finalMutableTransaction

variable {now : Moment} {s : CCoinJoinServer} {txin : CTxIn}

theorem findInput_eq_some {prevout : COutPoint} {t : CTxDSIn} {k : ℕ}
    (h : s.findInput prevout = some (t, k)) : (inputsOf s.vecEntries)[k]? = some t ∧ t.prevout = prevout := by
  have hmem := mem_of_getLast? h
  rw [mem_filter, beq_iff_eq] at hmem
  exact ⟨mem_zipIdx_iff_getElem?.mp hmem.1, hmem.2⟩

theorem addScriptSig_of_isEmpty (h : s.vecEntries = []) (txin : CTxIn) : s.addScriptSig E txin = (false, s) := by
  have hfind : s.findInput txin.prevout = none := by
    simp [findInput, inputsOf, h]
  simp [addScriptSig, isInputScriptSigValid, hfind, h]

/-- A signature that was taken passed with an empty script, at the place of the input among the entries. -/
theorem verifyScript_of_isInputScriptSigValid (hs : Signable E spent s) (h : s.isInputScriptSigValid E txin = true) :
    ∃ t k, (inputsOf s.vecEntries)[k]? = some t ∧ t.prevout = txin.prevout ∧
      E.verifyScript txin.scriptSig [] (mergedTransaction s.vecEntries).withoutScriptSigs k = true := by
  unfold isInputScriptSigValid at h
  split at h
  · cases h
  next t k hfind =>
  obtain ⟨hget, hprevout⟩ := findInput_eq_some hfind
  refine ⟨t, k, hget, hprevout, ?_⟩
  rw [← hs.received t (mem_of_getElem? hget)]
  exact h

/-- A proper signature leaves valid ones in the final transaction. -/
theorem scriptSigsValid_setScriptSig (hs : Signable E spent s) (hvalid : s.isInputScriptSigValid E txin = true)
    (hproper : isProperSignature E spent (mergedTransaction s.vecEntries).withoutScriptSigs
      s.finalMutableTransaction.withoutScriptSigs txin = true) :
    ScriptSigsValid E spent (setScriptSig txin s.finalMutableTransaction) := by
  obtain ⟨t, k, hget, hprevout, hverify⟩ := verifyScript_of_isInputScriptSigValid hs hvalid
  have hmerged : ({ t.toCTxIn with scriptSig := [] }, k) ∈
      (mergedTransaction s.vecEntries).withoutScriptSigs.vin.zipIdx := by
    rw [mem_zipIdx_iff_getElem?, mergedTransaction_withoutScriptSigs]
    simp [hget, unsignedInput]
  have hfinal := all_eq_true.mp hproper _ hmerged
  simp only [hprevout, hverify, beq_self_eq_true, Bool.and_self, Bool.not_true, Bool.false_or, all_eq_true,
    or_eq_true, not_eq_true', and_eq_false_iff, beq_eq_false_iff_ne] at hfinal
  rintro ⟨i, j⟩ hij hne
  rw [setScriptSig_withoutScriptSigs]
  rw [mem_zipIdx_iff_getElem?] at hij
  obtain ⟨i₀, hi₀, rfl⟩ : ∃ i₀, s.finalMutableTransaction.vin[j]? = some i₀ ∧
      (if i₀.prevout = txin.prevout ∧ i₀.nSequence = txin.nSequence then { i₀ with scriptSig := txin.scriptSig }
        else i₀) = i := by
    simpa [setScriptSig] using hij
  split_ifs at hne ⊢ with hsame
  · have hplace : ({ i₀ with scriptSig := [] }, j) ∈ s.finalMutableTransaction.withoutScriptSigs.vin.zipIdx := by
      rw [mem_zipIdx_iff_getElem?]
      simp [CMutableTransaction.withoutScriptSigs, hi₀]
    rcases hfinal _ hplace with (hother | hother) | hverify
    · exact absurd hsame.1 hother
    · exact absurd hsame.2 hother
    · rw [hsame.1]
      exact hverify
  · exact hs.valid _ (mem_zipIdx_iff_getElem?.mpr hi₀) hne

/-- One signature: the transactions stay the same but for the signatures. -/
theorem Signable.addScriptSig (hs : Signable E spent s) (hstate : s.nState = .signing)
    (hproper : isProperSignature E spent (mergedTransaction s.vecEntries).withoutScriptSigs
      s.finalMutableTransaction.withoutScriptSigs txin = true) :
    Signable E spent (s.addScriptSig E txin).2 ∧ (s.addScriptSig E txin).2.nState = .signing ∧
      (mergedTransaction (s.addScriptSig E txin).2.vecEntries).withoutScriptSigs =
        (mergedTransaction s.vecEntries).withoutScriptSigs ∧
      (s.addScriptSig E txin).2.finalMutableTransaction.withoutScriptSigs =
        s.finalMutableTransaction.withoutScriptSigs := by
  unfold CCoinJoinServer.addScriptSig
  split
  · exact ⟨hs, hstate, rfl, rfl⟩
  split
  · exact ⟨hs, hstate, rfl, rfl⟩
  next hvalid =>
  rw [not_eq_true', not_eq_false] at hvalid
  have hset := scriptSigsValid_setScriptSig hs hvalid hproper
  dsimp only
  split
  next es hes =>
    obtain ⟨hin, hout⟩ := addScriptSigToEntries_unsigned hes
    refine ⟨⟨fun t ht => ?_, fun hne => absurd hstate hne, hset⟩, hstate, ?_, setScriptSig_withoutScriptSigs _ _⟩
    · have hmem : unsignedInput t ∈ (inputsOf s.vecEntries).map unsignedInput := hin ▸ mem_map_of_mem ht
      obtain ⟨u, hu, heq⟩ := mem_map.mp hmem
      rw [← hs.received u hu]
      exact (congrArg Prod.snd heq).symm
    · rw [mergedTransaction_withoutScriptSigs, mergedTransaction_withoutScriptSigs, hin, hout]
  next =>
    exact ⟨⟨hs.received, fun hne => absurd hstate hne, hset⟩, hstate, rfl, setScriptSig_withoutScriptSigs _ _⟩

/-! ### The steps -/

theorem signable_setNull (s : CCoinJoinServer) (now : Moment) : Signable E spent (s.setNull now) where
  received _ ht := absurd ht not_mem_nil
  unsigned _ _ ht := absurd ht not_mem_nil
  valid _ hp := absurd hp not_mem_nil

section

variable (hs : Signable E spent s)

include hs

theorem Signable.relayStatus : Signable E spent (s.relayStatus now) := by
  unfold CCoinJoinServer.relayStatus
  dsimp only
  split_ifs
  · exact hs
  · exact signable_setNull s now
  · exact hs

theorem Signable.createFinalTransaction (hstate : s.nState ≠ .signing) :
    Signable E spent (s.createFinalTransaction now) := by
  have hunsigned : ScriptSigsValid E spent s.finalTransaction := by
    rintro ⟨i, j⟩ hij hne
    have hmem := mem_of_getElem? (mem_zipIdx_iff_getElem?.mp hij)
    have hmem := (sortBy_perm compareInputBIP69 (mergedTransaction s.vecEntries).vin).mem_iff.mp hmem
    obtain ⟨t, ht, rfl⟩ := mem_map.mp hmem
    exact absurd (hs.unsigned hstate t ht) hne
  have hs' : Signable E spent (setState now { s with finalMutableTransaction := s.finalTransaction } .signing) :=
    ⟨hs.received, fun hne => absurd rfl hne, hunsigned⟩
  unfold CCoinJoinServer.createFinalTransaction
  dsimp only
  split_ifs
  · exact hs'
  · exact hs'.relayStatus

theorem Signable.checkPool : Signable E spent (s.checkPool E now) := by
  unfold CCoinJoinServer.checkPool
  split_ifs with hfull htimeout
  · exact hs.createFinalTransaction (by rw [hfull.1]; nofun)
  · exact hs.createFinalTransaction (by rw [htimeout.1]; nofun)
  · unfold commitFinalTransaction
    split_ifs
    · exact signable_setNull s now
    · exact signable_setNull s now
  · exact hs

theorem Signable.processDSVIN {entry : CCoinJoinEntry} (addr : CService)
    (hentry : ∀ t ∈ entry.vecTxDSIn, t.scriptSig = []) : Signable E spent (s.processDSVIN E now entry addr).2 := by
  unfold CCoinJoinServer.processDSVIN
  split
  · exact hs
  next hready =>
  split
  · exact hs
  next s' hadd =>
  obtain ⟨-, -, -, rfl⟩ := addEntry_eq_ok hadd
  have hinputs : ∀ t ∈ inputsOf (s.vecEntries ++ [entry.received addr]),
      t ∈ inputsOf s.vecEntries ∨ ∃ u ∈ entry.vecTxDSIn, t = { toCTxIn := u.toCTxIn } := by
    intro t ht
    simpa [inputsOf, CCoinJoinEntry.received, eq_comm] using ht
  -- entries are not accepted while clients sign
  have hstate : s.nState ≠ .signing := by
    intro he
    simp [isSessionReady, he] at hready
  apply Signable.relayStatus
  apply Signable.checkPool
  refine ⟨fun t ht => ?_, fun hne t ht => ?_, hs.valid⟩
  · rcases hinputs t ht with ht | ⟨u, -, rfl⟩
    · exact hs.received t ht
    · rfl
  · rcases hinputs t ht with ht | ⟨u, hu, rfl⟩
    · exact hs.unsigned hstate t ht
    · exact hentry u hu

theorem Signable.processDSSIGNFINALTX (hstate : s.nState = .signing) {vecTxIn : List CTxIn}
    (hproper : ∀ txin ∈ vecTxIn, isProperSignature E spent (mergedTransaction s.vecEntries).withoutScriptSigs
      s.finalMutableTransaction.withoutScriptSigs txin = true) :
    Signable E spent (processDSSIGNFINALTX E now vecTxIn s) := by
  induction vecTxIn generalizing s with
  | nil => exact hs.checkPool
  | cons txin vecTxIn ih =>
    obtain ⟨hnext, hsigning, hmerged, hfinal⟩ := hs.addScriptSig hstate (hproper txin mem_cons_self)
    rw [processDSSIGNFINALTX]
    generalize s.addScriptSig E txin = r at hnext hsigning hmerged hfinal
    obtain ⟨taken, s'⟩ := r
    cases taken with
    | false => exact hnext.relayStatus
    | true =>
      refine ih hnext hsigning fun u hu => ?_
      rw [hmerged, hfinal]
      exact hproper u (mem_cons_of_mem _ hu)

theorem Signable.processDSACCEPT (nDenom : Int) (txCollateral : CMutableTransaction) :
    Signable E spent (s.processDSACCEPT E now nDenom txCollateral).2 := by
  rcases @processDSACCEPT_cases E now s nDenom txCollateral with hsame | hnew | hadd
  · rw [hsame]
    exact hs
  · obtain ⟨hstate, -, heq⟩ := createNewSession_eq_ok hnew
    rw [heq]
    exact ⟨hs.received, fun _ => hs.unsigned (by rw [hstate]; nofun), hs.valid⟩
  · obtain ⟨-, heq⟩ := addUserToExistingSession_eq_ok hadd
    rw [heq]
    exact ⟨hs.received, hs.unsigned, hs.valid⟩

theorem Signable.checkForCompleteQueue : Signable E spent (s.checkForCompleteQueue E now) := by
  unfold CCoinJoinServer.checkForCompleteQueue
  split_ifs with hqueue
  · exact ⟨hs.received, fun _ => hs.unsigned (by rw [hqueue.1]; nofun), hs.valid⟩
  · exact hs

end

end CCoinJoinServer

theorem signable_step {s : CCoinJoinServer} (hs : s.Signable E spent) (op : ServerOp)
    (hproper : op.isProper E spent s = true) : (op.step E s).Signable E spent := by
  cases op with
  | dsa now nDenom txCollateral => exact hs.processDSACCEPT nDenom txCollateral
  | dsi now entry addr =>
    refine hs.processDSVIN addr fun t ht => ?_
    exact isEmpty_iff.mp (all_eq_true.mp hproper t ht)
  | dss now vecTxIn =>
    rw [ServerOp.isProper, or_eq_true, and_eq_true, decide_eq_true_eq, all_eq_true] at hproper
    rcases hproper with hempty | ⟨hstate, hproper⟩
    · cases vecTxIn with
      | nil => exact hs.checkPool
      | cons txin vecTxIn =>
        rw [ServerOp.step, processDSSIGNFINALTX,
          addScriptSig_of_isEmpty (isEmpty_iff.mp hempty)]
        exact hs.relayStatus
    · exact hs.processDSSIGNFINALTX hstate hproper
  | checkForCompleteQueue now => exact hs.checkForCompleteQueue
  | checkPool now => exact hs.checkPool
  | checkTimeout now =>
    rw [ServerOp.step, checkTimeout]
    split_ifs
    · exact hs
    · exact signable_setNull s now

theorem signable_foldl {s : CCoinJoinServer} (hs : s.Signable E spent) (ops : List ServerOp)
    (hproper : isProperRun E spent s ops = true) : (ops.foldl (ServerOp.step E) s).Signable E spent := by
  induction ops generalizing s with
  | nil => exact hs
  | cons op ops ih =>
    rw [isProperRun, and_eq_true] at hproper
    exact ih (signable_step hs op hproper.1) hproper.2

/-- In every run of proper steps, each stored signature satisfies the script of the output its input spends, on the
final transaction. -/
theorem scriptSigsValid_serverRun (E : ServerEnv) (spent : COutPoint → CScript) (ops : List ServerOp)
    (hproper : isProperRun E spent {} ops = true) :
    ScriptSigsValid E spent (serverRun E ops).finalMutableTransaction := by
  have hstart : Signable E spent {} :=
    ⟨fun t ht => absurd ht not_mem_nil, fun _ t ht => absurd ht not_mem_nil,
      fun p hp => absurd hp not_mem_nil⟩
  exact (signable_foldl hstart ops hproper).valid

/-! ### A session of two users -/

/-- An empty script leaves what the `scriptSig` pushed; a key asks for its signature. -/
def sampleServerEnv : ServerEnv where
  getMinPoolParticipants := 2
  getMaxPoolParticipants := 2
  verifyScript scriptSig scriptPubKey _ _ :=
    if scriptPubKey.isEmpty then !scriptSig.isEmpty else scriptSig == 0x02 :: scriptPubKey

def twoScripts (prevout : COutPoint) : CScript :=
  (spentBy twoCoins { prevout := prevout }).scriptPubKey

/-- Two users send their entries, then a signature comes for the input of the first. -/
def signFirstInput (scriptSig : CScript) : List ServerOp :=
  [.dsa sampleMoment 16 {}, .dsa sampleMoment 16 {}, .checkForCompleteQueue sampleMoment,
    .dsi sampleMoment sampleEntry {}, .dsi sampleMoment (otherEntry (keyScript 4)) {},
    .dss sampleMoment [{ prevout := ⟨5#256, 0#32⟩, scriptSig := scriptSig }]]

theorem scriptSigsValid_serverRun_sample :
    isProperRun sampleServerEnv twoScripts {} (signFirstInput (0x02 :: keyScript 1)) = true ∧
      (serverRun sampleServerEnv (signFirstInput (0x02 :: keyScript 1))).finalMutableTransaction.vin.map (·.scriptSig) =
        [0x02 :: keyScript 1, []] ∧
      ScriptSigsValid sampleServerEnv twoScripts
        (serverRun sampleServerEnv (signFirstInput (0x02 :: keyScript 1))).finalMutableTransaction := by
  have hproper : isProperRun sampleServerEnv twoScripts {} (signFirstInput (0x02 :: keyScript 1)) = true := by
    decide +kernel
  refine ⟨hproper, ?_, scriptSigsValid_serverRun sampleServerEnv twoScripts _ hproper⟩
  decide +kernel

/-- Any peer sends one byte that pushes a value, `OP_1`: it is stored as the signature of the first user's input, and
the own signature of that user is refused afterwards. -/
theorem scriptSig_filledIn :
    (serverRun sampleServerEnv (signFirstInput [0x51])).nState = .signing ∧
      (serverRun sampleServerEnv (signFirstInput [0x51])).finalMutableTransaction.vin[0]? =
        some { prevout := ⟨5#256, 0#32⟩, scriptSig := [0x51] } ∧
      ¬ ScriptSigsValid sampleServerEnv twoScripts
        (serverRun sampleServerEnv (signFirstInput [0x51])).finalMutableTransaction ∧
      ((serverRun sampleServerEnv (signFirstInput [0x51])).addScriptSig sampleServerEnv
        { prevout := ⟨5#256, 0#32⟩, scriptSig := 0x02 :: keyScript 1 }).1 = false := by
  have hstored : (serverRun sampleServerEnv (signFirstInput [0x51])).finalMutableTransaction.vin[0]? =
      some { prevout := ⟨5#256, 0#32⟩, scriptSig := [0x51] } := by
    decide +kernel
  refine ⟨by decide +kernel, hstored, fun hvalid => ?_, by decide +kernel⟩
  have hverify := hvalid ({ prevout := ⟨5#256, 0#32⟩, scriptSig := [0x51] }, 0)
    (mem_zipIdx_iff_getElem?.mpr hstored) (cons_ne_nil _ _)
  have hscript : twoScripts ⟨5#256, 0#32⟩ = keyScript 1 := by
    decide +kernel
  dsimp only at hverify
  rw [hscript] at hverify
  cases hverify

end OmegaCore.CoinJoin
