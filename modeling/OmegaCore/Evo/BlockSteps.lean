import OmegaCore.Evo.Phases

/-!
Inversion of `BuildNewListFromBlock`.  A successful call is a map over the entries,
a run of transaction steps, a run of collateral removals, and a second map.
`TxStep` lists what one transaction can do to the list, guards included;
`handleQuorumCommitment` is again a map that touches only the penalty, the ban
height and the height of the last quorum success.
-/

namespace OmegaCore.Evo

open Util CDeterministicMNList CBLSLazyPublicKey Option

variable {E : Env} {ctx : BlockContext} {l l' : CDeterministicMNList} {tx : CTransaction}

theorem liftThrown_eq_ok {x : Except Thrown CDeterministicMNList} : liftThrown x = .ok l ↔ x = .ok l := by
  cases x <;> simp [liftThrown]

/-! ### The maps before and after the transactions -/

/-- Whether the one-time cleanup at the fork height bans a valid masternode. -/
def ghostCond (E : Env) (nHeight : Int) (dmn : CDeterministicMN) : Bool :=
  decide (nHeight = E.params.nHPMasternodeHeight) && isGhost E nHeight dmn

/-- Whether the one-time purge bans a valid masternode. -/
def phantomCond (E : Env) (nHeight : Int) (dmn : CDeterministicMN) : Bool :=
  decide (E.params.nPhantomPurgeHeight > 0 ∧ nHeight = E.params.nPhantomPurgeHeight) &&
    E.phantomExclusions.contains dmn.proTxHash

/-- Whether the liveness check bans a valid masternode of `l`. -/
def livenessCond (E : Env) (nHeight : Int) (l : CDeterministicMNList) (dmn : CDeterministicMN) : Bool :=
  livenessDue E nHeight && quorumsActive E nHeight l && failsLiveness E nHeight dmn

/-- The state a masternode has when the loop over the transactions begins. -/
def beforeState (E : Env) (ctx : BlockContext) : CDeterministicMN → CDeterministicMNState :=
  andThen (andThen (andThen (confirmedState E ctx) decreasedState) (bannedState ctx.nHeight (ghostCond E ctx.nHeight)))
    (bannedState ctx.nHeight (phantomCond E ctx.nHeight))

/-- The state a masternode of `l` has at the end, if `l` is the list after the removals. -/
def afterState (E : Env) (ctx : BlockContext) (payee : Option CDeterministicMN)
    (l : CDeterministicMNList) : CDeterministicMN → CDeterministicMNState :=
  andThen (andThen (bannedState ctx.nHeight (livenessCond E ctx.nHeight l))
    (payeeState ctx.nHeight payee)) (resetState payee)

theorem andThen_same {g g' : CDeterministicMN → CDeterministicMNState}
    (hg : ∀ dmn : CDeterministicMN, dmn.pdmnState.SameProperties (g dmn))
    (hg' : ∀ dmn : CDeterministicMN, dmn.pdmnState.SameProperties (g' dmn)) (dmn : CDeterministicMN) :
    dmn.pdmnState.SameProperties (andThen g g' dmn) :=
  (hg dmn).trans (hg' { dmn with pdmnState := g dmn })

theorem beforeState_same (dmn : CDeterministicMN) : dmn.pdmnState.SameProperties (beforeState E ctx dmn) :=
  andThen_same (andThen_same (andThen_same confirmedState_same decreasedState_same)
    (bannedState_same _)) (bannedState_same _) dmn

theorem afterState_same (payee : Option CDeterministicMN) (dmn : CDeterministicMN) :
    dmn.pdmnState.SameProperties (afterState E ctx payee l dmn) :=
  andThen_same (andThen_same (bannedState_same _) (payeeState_same payee)) (resetState_same payee) dmn

/-- The phases before the transactions keep the predicate. -/
structure SweepInvariant (E : Env) (ctx : BlockContext) (P : CDeterministicMN → Prop) : Prop where
  confirm : ∀ d, P d → d.pdmnState.confirmedHash = 0 → P { d with
    pdmnState := d.pdmnState.updateConfirmedHash E.sha256 d.proTxHash ctx.pindexPrev.getBlockHash }
  decrease : ∀ d, P d → P { d with
    pdmnState := { d.pdmnState with nPoSePenalty := d.pdmnState.nPoSePenalty - 1 } }
  ban : ∀ d, P d → P { d with pdmnState := d.pdmnState.banIfNotBanned ctx.nHeight }

structure PhaseInvariant (E : Env) (ctx : BlockContext) (P : CDeterministicMN → Prop) : Prop
    extends SweepInvariant E ctx P where
  pay : ∀ d, P d → P { d with pdmnState := paidState ctx.nHeight d }
  reset : ∀ d, P d → d.nType = .highPerformance → P { d with
    pdmnState := { d.pdmnState with nConsecutivePayments := 0 } }

section Invariants

variable {P : CDeterministicMN → Prop} {d : CDeterministicMN}

theorem SweepInvariant.bannedState (hP : SweepInvariant E ctx P) (hd : P d) (cond : CDeterministicMN → Bool) :
    P { d with pdmnState := Evo.bannedState ctx.nHeight cond d } := by
  unfold Evo.bannedState
  split_ifs
  · exact hP.ban d hd
  · exact hd

theorem SweepInvariant.beforeState (hP : SweepInvariant E ctx P) (hd : P d) :
    P { d with pdmnState := Evo.beforeState E ctx d } := by
  have hconfirmed : P { d with pdmnState := confirmedState E ctx d } := by
    unfold confirmedState
    split_ifs with hconf
    · exact hd
    · exact hP.confirm d hd (not_not.mp hconf)
    · exact hd
  have hdecreased : P { d with pdmnState := andThen (confirmedState E ctx) decreasedState d } := by
    unfold andThen decreasedState
    split_ifs
    · exact hP.decrease _ hconfirmed
    · exact hconfirmed
  exact hP.bannedState (hP.bannedState hdecreased _) _

theorem PhaseInvariant.afterState (hP : PhaseInvariant E ctx P) (hd : P d) (payee : Option CDeterministicMN) :
    P { d with pdmnState := Evo.afterState E ctx payee l d } := by
  have hpaid (d : CDeterministicMN) (hd : P d) : P { d with pdmnState := payeeState ctx.nHeight payee d } := by
    unfold payeeState
    split_ifs
    · exact hP.pay d hd
    · exact hd
  have hreset (d : CDeterministicMN) (hd : P d) : P { d with pdmnState := resetState payee d } := by
    unfold resetState needsReset
    split_ifs with hneeds
    · simp only [Bool.and_eq_true, beq_iff_eq] at hneeds
      exact hP.reset d hd hneeds.1.2
    · exact hd
  exact hreset _ (hpaid _ (hP.bannedState hd _))

end Invariants

section

variable (hl : l.Keyed) (nHeight : Int)

include hl

theorem banIf_eq (c : Prop) [Decidable c] (cond : CDeterministicMN → Bool) :
    (if c then banWhere E nHeight cond l else .ok l) =
      .ok (l.updateStates (bannedState nHeight fun dmn => decide c && cond dmn)) := by
  split_ifs with h
  · simp [decide_eq_true h, banWhere_eq hl]
  · have hself : (bannedState nHeight fun dmn => decide c && cond dmn) = CDeterministicMN.pdmnState := by
      funext dmn
      simp [bannedState, h]
    rw [hself, updateStates_self]

theorem ghostCleanup_eq : ghostCleanup E nHeight l = .ok (l.updateStates (bannedState nHeight (ghostCond E nHeight))) :=
  banIf_eq hl nHeight _ _

theorem phantomPurge_eq :
    phantomPurge E nHeight l = .ok (l.updateStates (bannedState nHeight (phantomCond E nHeight))) :=
  banIf_eq hl nHeight _ _

theorem livenessCheck_eq :
    livenessCheck E nHeight l = .ok (l.updateStates (bannedState nHeight (livenessCond E nHeight l))) := by
  have hban := banIf_eq (E := E) hl nHeight (livenessDue E nHeight && quorumsActive E nHeight l)
    (failsLiveness E nHeight)
  rwa [Bool.decide_eq_true] at hban

end

variable {nHeight : Int}

def listBeforeTxs (E : Env) (ctx : BlockContext) (oldList : CDeterministicMNList) : CDeterministicMNList :=
  ((oldList.setBlockHash 0).setHeight ctx.nHeight).updateStates (beforeState E ctx)

variable {oldList : CDeterministicMNList}

theorem beforeTxs_eq (hl : oldList.Keyed) : beforeTxs E ctx oldList = .ok (listBeforeTxs E ctx oldList) := by
  have h₀ : ((oldList.setBlockHash 0).setHeight ctx.nHeight).Keyed := hl
  have h₁ := h₀.updateStates (confirmedState E ctx)
  have h₂ := h₁.updateStates decreasedState
  have h₃ := h₂.updateStates (bannedState ctx.nHeight (ghostCond E ctx.nHeight))
  have hconfirm : confirmMNs E ctx oldList ((oldList.setBlockHash 0).setHeight ctx.nHeight) = _ :=
    confirmMNs_eq h₀ rfl
  simp only [beforeTxs, hconfirm, ok_bind, decreasePoSePenalties_eq h₁, ghostCleanup_eq h₂, phantomPurge_eq h₃]
  simp only [updateStates_updateStates, listBeforeTxs, beforeState]

theorem afterTxs_eq (hl : l.Keyed) (payee : Option CDeterministicMN) :
    afterTxs E ctx payee l = .ok (l.updateStates (afterState E ctx payee l)) := by
  have h₁ := hl.updateStates (bannedState ctx.nHeight (livenessCond E ctx.nHeight l))
  have h₂ := h₁.updateStates (payeeState ctx.nHeight payee)
  simp only [afterTxs, livenessCheck_eq hl, ok_bind, payPayee_eq h₁, resetConsecutivePayments_eq h₂]
  simp only [updateStates_updateStates, afterState]

/-! ### Transaction steps -/

/-- The transaction does not change the list, whatever the list. -/
def Idle (tx : CTransaction) : Prop :=
  tx.nVersion ≠ 3 ∨
    match tx.payload with
    | .proReg _ | .proUpServ _ | .proUpReg _ | .proUpRev _ => False
    | .quorumCommitment (some qc) => qc.commitment.isNull = true
    | .quorumCommitment none => False
    | .normal | .coinbase | .mnhfSignal | .smsgRoom | .unknown _ => True

/-- The base block of the quorum that a commitment is for. -/
def quorumBase (E : Env) (ctx : BlockContext) (qc : CFinalCommitmentTxPayload) : Option CBlockIndex :=
  (E.getLLMQParams qc.commitment.llmqType).bind fun llmqParams =>
    ctx.pindexPrev.getAncestor
      (qc.nHeight.toInt - qc.nHeight.toInt.tmod llmqParams.dkgInterval + qc.commitment.quorumIndex)

variable (E ctx l tx) in
/-- What one transaction can do to the list. -/
inductive TxStep : CDeterministicMNList → Prop where
  | skip (idle : Idle tx) : TxStep l
  | proReg (ptx : CProRegTx) (l₁ l' : CDeterministicMNList) (version : tx.nVersion = 3)
      (payload : tx.payload = .proReg (some ptx))
      (v19 : ptx.nType = .highPerformance → E.isV19Active ctx.pindexPrev = true)
      (coin : badCollateral ctx.view ptx (proRegCollateral tx ptx) = false)
      (replaced : removeReplaced E l (proRegCollateral tx ptx) = .ok l₁)
      (addr : l₁.hasUniqueProperty E.toCodec ptx.addr = false)
      (owner : l₁.hasUniqueProperty E.toCodec ptx.keyIDOwner = false)
      (operator : l₁.hasUniqueProperty E.toCodec ptx.pubKeyOperator = false)
      (added : l₁.addMN E.toCodec (proRegEntry ctx.nHeight l tx ptx) = .ok l') : TxStep l'
  | proUpServ (ptx : CProUpServTx) (dmn : CDeterministicMN) (l' : CDeterministicMNList)
      (version : tx.nVersion = 3) (payload : tx.payload = .proUpServ (some ptx))
      (stored : l.mnMap[ptx.proTxHash]? = some dmn) (nType : ptx.nType = dmn.nType)
      (updated : l.updateMN E.toCodec ptx.proTxHash (proUpServState ctx.nHeight dmn.pdmnState ptx) =
        .ok l') : TxStep l'
  | proUpReg (ptx : CProUpRegTx) (dmn : CDeterministicMN) (l' : CDeterministicMNList)
      (version : tx.nVersion = 3) (payload : tx.payload = .proUpReg (some ptx))
      (stored : l.mnMap[ptx.proTxHash]? = some dmn)
      (updated : l.updateMN E.toCodec ptx.proTxHash (proUpRegState ctx.nHeight dmn.pdmnState ptx) =
        .ok l') : TxStep l'
  | proUpRev (ptx : CProUpRevTx) (dmn : CDeterministicMN) (l' : CDeterministicMNList)
      (version : tx.nVersion = 3) (payload : tx.payload = .proUpRev (some ptx))
      (stored : l.mnMap[ptx.proTxHash]? = some dmn)
      (updated : l.updateMN E.toCodec ptx.proTxHash (proUpRevState ctx.nHeight dmn.pdmnState ptx) =
        .ok l') : TxStep l'
  | commitment (qc : CFinalCommitmentTxPayload) (base : CBlockIndex) (l' : CDeterministicMNList)
      (version : tx.nVersion = 3) (payload : tx.payload = .quorumCommitment (some qc))
      (handled : handleQuorumCommitment E qc.commitment base l = .ok l')
      (found : quorumBase E ctx qc = some base) (mined : qc.commitment.isNull = false) : TxStep l'

variable {ptx : CProRegTx}

theorem applyProReg_step (hver : tx.nVersion = 3)
    (hpay : tx.payload = .proReg (some ptx)) (hok : applyProReg E ctx l tx ptx = .ok l') : TxStep E ctx l tx l' := by
  unfold applyProReg at hok
  split_ifs at hok with hv19 hcoin
  · cases hok
  · cases hok
  · simp only [bind_eq_ok, liftThrown_eq_ok] at hok
    obtain ⟨l₁, hrep, hok⟩ := hok
    split_ifs at hok with haddr hkeys
    · cases hok
    · cases hok
    · rw [liftThrown_eq_ok] at hok
      simp only [Bool.or_eq_true, not_or, Bool.not_eq_true] at haddr hkeys
      refine .proReg ptx l₁ l' hver hpay ?_ (by simpa using hcoin) hrep haddr hkeys.1 hkeys.2 hok
      intro hp
      by_contra hno
      exact hv19 ⟨hp, by simpa using hno⟩

theorem applyProUpServ_step {ptx : CProUpServTx} (hver : tx.nVersion = 3)
    (hpay : tx.payload = .proUpServ (some ptx)) (hok : applyProUpServ E ctx l ptx = .ok l') :
    TxStep E ctx l tx l' := by
  unfold applyProUpServ getMN at hok
  split at hok
  · cases hok
  split at hok
  · cases hok
  split at hok
  · cases hok
  · next dmn hget =>
    split_ifs at hok with htype
    · cases hok
    · cases hok
    · rw [liftThrown_eq_ok] at hok
      exact .proUpServ ptx dmn l' hver hpay hget (not_not.mp htype) hok

variable {p : Uint256}

theorem applyToStored_ok {f : CDeterministicMNState → CDeterministicMNState} (hok : applyToStored E l p f = .ok l') :
    ∃ dmn, l.mnMap[p]? = some dmn ∧ l.updateMN E.toCodec p (f dmn.pdmnState) = .ok l' := by
  unfold applyToStored getMN at hok
  split at hok
  · cases hok
  · next dmn hget =>
    rw [liftThrown_eq_ok] at hok
    exact ⟨dmn, hget, hok⟩

theorem applyQuorumCommitment_step {qc : CFinalCommitmentTxPayload} (hver : tx.nVersion = 3)
    (hpay : tx.payload = .quorumCommitment (some qc))
    (hok : applyQuorumCommitment E ctx l qc = .ok l') : TxStep E ctx l tx l' := by
  unfold applyQuorumCommitment at hok
  split_ifs at hok with hnull
  · cases hok
    exact .skip (.inr (by rw [hpay]; exact hnull))
  · split at hok
    · cases hok
    · next llmqParams hparams =>
      dsimp only at hok
      split at hok
      · cases hok
      · next base hbase =>
        split_ifs at hok
        · cases hok
        · rw [liftThrown_eq_ok] at hok
          exact .commitment qc base l' hver hpay hok (by simp only [quorumBase, hparams]; exact hbase) (by simpa using hnull)

theorem processTx_step (hok : processTx E ctx l tx = .ok l') : TxStep E ctx l tx l' := by
  unfold processTx at hok
  split_ifs at hok with hver
  · cases hok
    exact .skip (.inl hver)
  · rw [ne_eq, not_not] at hver
    split at hok
    · next ptx hpay => exact applyProReg_step hver hpay hok
    · next ptx hpay => exact applyProUpServ_step hver hpay hok
    · next ptx hpay =>
      obtain ⟨dmn, hget, hupd⟩ := applyToStored_ok hok
      exact .proUpReg ptx dmn l' hver hpay hget hupd
    · next ptx hpay =>
      obtain ⟨dmn, hget, hupd⟩ := applyToStored_ok hok
      exact .proUpRev ptx dmn l' hver hpay hget hupd
    · next qc hpay => exact applyQuorumCommitment_step hver hpay hok
    all_goals cases hok
    all_goals next hpay => exact .skip (.inr (by rw [hpay]; trivial))

/-! ### Quorum commitments -/

/-- What a quorum commitment does to one state: it may raise the penalty and ban a masternode that
is marked invalid, and record the success of one that is not banned. -/
structure QuorumUpdate (marked : Prop) (nHeight : Int) (s s' : CDeterministicMNState) : Prop where
  frame : s' = { s with
    nPoSePenalty := s'.nPoSePenalty
    nPoSeBanHeight := s'.nPoSeBanHeight
    nPoSeSuccessHeight := s'.nPoSeSuccessHeight }
  ban : s'.nPoSeBanHeight = s.nPoSeBanHeight ∨ (marked ∧ s.isBanned = false ∧ s'.nPoSeBanHeight = nHeight)
  success : s'.nPoSeSuccessHeight = s.nPoSeSuccessHeight ∨ s'.nPoSeSuccessHeight = nHeight

theorem QuorumUpdate.refl (marked : Prop) (nHeight : Int) (s : CDeterministicMNState) :
    QuorumUpdate marked nHeight s s :=
  ⟨rfl, .inl rfl, .inl rfl⟩

theorem QuorumUpdate.trans {marked : Prop} {s₁ s₂ s₃ : CDeterministicMNState}
    (h₁ : QuorumUpdate marked nHeight s₁ s₂) (h₂ : QuorumUpdate marked nHeight s₂ s₃) :
    QuorumUpdate marked nHeight s₁ s₃ := by
  refine ⟨?_, ?_, ?_⟩
  · rw [h₂.frame, h₁.frame]
  · have hbanned : s₂.isBanned = (s₂.nPoSeBanHeight != -1) := rfl
    have hbanned₁ : s₁.isBanned = (s₁.nPoSeBanHeight != -1) := rfl
    rcases h₂.ban with heq₂ | ⟨hm, hnot, heq₂⟩
    · rw [heq₂]
      exact h₁.ban
    · rcases h₁.ban with heq₁ | ⟨hm₁, hnot₁, heq₁⟩
      · rw [hbanned, heq₁, ← hbanned₁] at hnot
        exact .inr ⟨hm, hnot, heq₂⟩
      · exact .inr ⟨hm₁, hnot₁, heq₂⟩
  · rcases h₂.success with heq₂ | heq₂
    · rw [heq₂]
      exact h₁.success
    · exact .inr heq₂

variable {s s' : CDeterministicMNState}

theorem QuorumUpdate.mono {marked marked' : Prop} (himp : marked → marked') (h : QuorumUpdate marked nHeight s s') :
    QuorumUpdate marked' nHeight s s' :=
  ⟨h.frame, h.ban.imp id fun ⟨hm, hrest⟩ => ⟨himp hm, hrest⟩, h.success⟩

theorem QuorumUpdate.same {marked : Prop} (h : QuorumUpdate marked nHeight s s') : s.SameProperties s' := by
  rw [h.frame]
  exact ⟨rfl, rfl, rfl, rfl⟩

theorem punishedState_update (s : CDeterministicMNState) (n : Int) :
    QuorumUpdate True l.nHeight s (l.punishedState s n) := by
  simp only [punishedState, CDeterministicMNState.banIfNotBanned]
  split_ifs with h₁ h₂
  · exact ⟨rfl, .inl rfl, .inl rfl⟩
  · exact ⟨rfl, .inr ⟨trivial, by simpa [CDeterministicMNState.isBanned] using h₂, rfl⟩, .inl rfl⟩
  · exact ⟨rfl, .inl rfl, .inl rfl⟩

theorem calcPenalty_pos (l : CDeterministicMNList) : 0 < l.calcPenalty 66 := by
  have hmax : (100 : Int) ≤ l.calcMaxPoSePenalty := Int.le_max_left _ _
  have hnonneg : (0 : Int) ≤ l.calcMaxPoSePenalty * 66 := by omega
  rw [calcPenalty, Int.tdiv_eq_ediv_of_nonneg hnonneg]
  omega

/-- The call gives `l` with a quorum update of every state; only the marked masternodes can be banned. -/
def QuorumMaps (l : CDeterministicMNList) (marked : CDeterministicMN → Prop)
    (result : Except Thrown CDeterministicMNList) : Prop :=
  ∃ g, result = .ok (l.updateStates g) ∧ ∀ (p : Uint256) dmn, l.mnMap[p]? = some dmn →
    QuorumUpdate (marked dmn) l.nHeight dmn.pdmnState (g dmn)

theorem quorumMaps_self (marked : CDeterministicMN → Prop) : QuorumMaps l marked (.ok l) :=
  ⟨(·.pdmnState), by rw [updateStates_self], fun _ _ _ => .refl _ _ _⟩

theorem handleMember_maps (hl : l.Keyed) (member : CDeterministicMN) (valid : Bool) :
    QuorumMaps l (fun d => valid = false ∧ d.proTxHash = member.proTxHash) (handleMember E l member valid) := by
  have store (marked : Prop) {dmn : CDeterministicMN} {s : CDeterministicMNState}
      (hget : l.mnMap[member.proTxHash]? = some dmn)
      (hs : QuorumUpdate marked l.nHeight dmn.pdmnState s) (hmarked : marked → valid = false) :
      QuorumMaps l (fun d => valid = false ∧ d.proTxHash = member.proTxHash)
        (l.updateMN E.toCodec member.proTxHash s) := by
    refine ⟨_, updateMN_eq_updateStates hl hget hs.same, fun p d hd => ?_⟩
    split_ifs with hp
    · obtain rfl := hl.eq_of_proTxHash hget hd hp
      exact hs.mono fun hm => ⟨hmarked hm, hp⟩
    · exact .refl _ _ _
  unfold handleMember getMN
  split
  · exact quorumMaps_self _
  · next dmn hget =>
    split_ifs with hvalid hsucc
    · have hpen : ¬ l.calcPenalty 66 ≤ 0 := Int.not_le.mpr (calcPenalty_pos l)
      simp only [poSePunish, getMN, hget, hpen, if_false]
      exact store True hget (punishedState_update _ _) fun _ => by simpa using hvalid
    · exact store False hget ⟨rfl, .inl rfl, .inr rfl⟩ False.elim
    · exact quorumMaps_self _

/-- The commitment marks the masternode as an invalid member. -/
def MarksInvalid (E : Env) (qc : CFinalCommitment) (base : CBlockIndex) (p : Uint256) : Prop :=
  ∃ m ∈ (E.getAllQuorumMembers qc.llmqType base).zipIdx, qc.validMembers.getD m.2 false = false ∧ m.1.proTxHash = p

theorem handleQuorumCommitment_maps (hl : l.Keyed) (qc : CFinalCommitment) (base : CBlockIndex) :
    QuorumMaps l (MarksInvalid E qc base ·.proTxHash) (handleQuorumCommitment E qc base l) := by
  unfold handleQuorumCommitment MarksInvalid
  generalize (E.getAllQuorumMembers qc.llmqType base).zipIdx = members
  induction members generalizing l with
  | nil => exact quorumMaps_self _
  | cons m members ih =>
    obtain ⟨g₁, hok₁, hg₁⟩ := handleMember_maps (E := E) hl m.1 (qc.validMembers.getD m.2 false)
    obtain ⟨g₂, hok₂, hg₂⟩ := ih (hl.updateStates g₁)
    refine ⟨andThen g₁ g₂, ?_, fun p dmn hget => ?_⟩
    · rw [List.foldlM_cons, hok₁, ok_bind, hok₂, updateStates_updateStates]
    · have hget₁ : (l.updateStates g₁).mnMap[p]? = some { dmn with pdmnState := g₁ dmn } := by
        rw [get_updateStates, hget]
        rfl
      refine ((hg₁ p dmn hget).mono ?_).trans ((hg₂ p _ hget₁).mono ?_)
      · rintro ⟨hinvalid, hp⟩
        exact ⟨m, List.mem_cons_self, hinvalid, hp.symm⟩
      · rintro ⟨m', hm', hinvalid⟩
        exact ⟨m', List.mem_cons_of_mem _ hm', hinvalid⟩

/-! ### What a step does to the entries -/

/-- The transaction is not an update of the masternode `p`. -/
def Untouched (tx : CTransaction) (p : Uint256) : Prop :=
  tx.nVersion ≠ 3 ∨
    match tx.payload with
    | .proUpServ (some ptx) => ptx.proTxHash ≠ p
    | .proUpReg (some ptx) => ptx.proTxHash ≠ p
    | .proUpRev (some ptx) => ptx.proTxHash ≠ p
    | _ => True

theorem Idle.untouched (h : Idle tx) (p : Uint256) : Untouched tx p := by
  refine h.imp id fun hpay => ?_
  revert hpay
  cases tx.payload <;> simp

variable (E ctx tx) in
/-- What a transaction can store as the state of the masternode `d`. -/
inductive StateStep (d : CDeterministicMN) : CDeterministicMNState → Prop where
  | keep (untouched : Untouched tx d.proTxHash) : StateStep d d.pdmnState
  | proUpServ (ptx : CProUpServTx) (version : tx.nVersion = 3) (payload : tx.payload = .proUpServ (some ptx))
      (proTxHash : d.proTxHash = ptx.proTxHash) (nType : ptx.nType = d.nType) :
      StateStep d (proUpServState ctx.nHeight d.pdmnState ptx)
  | proUpReg (ptx : CProUpRegTx) (version : tx.nVersion = 3) (payload : tx.payload = .proUpReg (some ptx))
      (proTxHash : d.proTxHash = ptx.proTxHash) : StateStep d (proUpRegState ctx.nHeight d.pdmnState ptx)
  | proUpRev (ptx : CProUpRevTx) (version : tx.nVersion = 3) (payload : tx.payload = .proUpRev (some ptx))
      (proTxHash : d.proTxHash = ptx.proTxHash) : StateStep d (proUpRevState ctx.nHeight d.pdmnState ptx)
  | commitment (qc : CFinalCommitmentTxPayload) (base : CBlockIndex) (s : CDeterministicMNState)
      (payload : tx.payload = .quorumCommitment (some qc))
      (update : QuorumUpdate (MarksInvalid E qc.commitment base d.proTxHash) ctx.nHeight
        d.pdmnState s) (found : quorumBase E ctx qc = some base) (version : tx.nVersion = 3)
      (mined : qc.commitment.isNull = false) : StateStep d s

section

variable (nHeight)

theorem proRegEntry_state_same (l : CDeterministicMNList) (tx : CTransaction) (ptx : CProRegTx) :
    (CDeterministicMNState.ofProRegTx ptx).SameProperties (proRegEntry nHeight l tx ptx).pdmnState := by
  simp only [proRegEntry]
  split_ifs
  · exact ⟨rfl, rfl, rfl, rfl⟩
  · exact ⟨rfl, rfl, rfl, rfl⟩

theorem proRegEntry_keyIDOwner (l : CDeterministicMNList) (tx : CTransaction)
    (ptx : CProRegTx) : (proRegEntry nHeight l tx ptx).pdmnState.keyIDOwner = ptx.keyIDOwner :=
  (proRegEntry_state_same nHeight l tx ptx).keyIDOwner.symm

variable (s)

theorem proUpServState_pubKeyOperator (ptx : CProUpServTx) :
    (proUpServState nHeight s ptx).pubKeyOperator = s.pubKeyOperator := by
  simp only [proUpServState]
  split_ifs <;> rfl

theorem proUpServState_keyIDOwner (ptx : CProUpServTx) : (proUpServState nHeight s ptx).keyIDOwner = s.keyIDOwner := by
  simp only [proUpServState]
  split_ifs <;> rfl

theorem resetOperatorFields_ban : s.resetOperatorFields.SameProperties (s.resetOperatorFields.banIfNotBanned nHeight) :=
  CDeterministicMNState.sameProperties_banIfNotBanned _ _

theorem proUpRegState_pubKeyOperator (ptx : CProUpRegTx) :
    (proUpRegState nHeight s ptx).pubKeyOperator =
      if s.pubKeyOperator.eq ptx.pubKeyOperator then s.pubKeyOperator else ptx.pubKeyOperator := by
  simp only [proUpRegState]
  cases s.pubKeyOperator.eq ptx.pubKeyOperator <;> rfl

theorem proUpRevState_pubKeyOperator (ptx : CProUpRevTx) : (proUpRevState nHeight s ptx).pubKeyOperator = .null :=
  (resetOperatorFields_ban nHeight s).pubKeyOperator.symm

theorem proUpRegState_keyIDOwner (ptx : CProUpRegTx) : (proUpRegState nHeight s ptx).keyIDOwner = s.keyIDOwner := by
  simp only [proUpRegState]
  split_ifs
  · exact (resetOperatorFields_ban nHeight s).keyIDOwner.symm
  · rfl

theorem proUpRevState_keyIDOwner (ptx : CProUpRevTx) : (proUpRevState nHeight s ptx).keyIDOwner = s.keyIDOwner :=
  (resetOperatorFields_ban nHeight s).keyIDOwner.symm

end

theorem not_reencodes_of_not_eq {a b : CBLSLazyPublicKey} (h : ¬ a.eq b = true) : ¬ a.Reencodes b :=
  fun hre => h (eq_iff.mpr hre.1)

variable {d : CDeterministicMN} {s : CDeterministicMNState}

theorem StateStep.not_reencodes
    (h : StateStep E ctx tx d s) : ¬ d.pdmnState.pubKeyOperator.Reencodes s.pubKeyOperator := by
  cases h with
  | keep => exact not_reencodes_self _
  | proUpServ ptx =>
    rw [proUpServState_pubKeyOperator]
    exact not_reencodes_self _
  | proUpReg ptx =>
    rw [proUpRegState_pubKeyOperator]
    split_ifs with heq
    · exact not_reencodes_self _
    · exact not_reencodes_of_not_eq heq
  | proUpRev ptx =>
    rw [proUpRevState_pubKeyOperator]
    rintro ⟨hget, hne⟩
    exact hne (eq_null_iff.mp (eq_iff.mpr hget))
  | commitment qc base s payload update =>
    rw [update.same.pubKeyOperator]
    exact not_reencodes_self _

theorem StateStep.eq_of_proReg
    (h : StateStep E ctx tx d s) (hpay : tx.payload = .proReg (some ptx)) : s = d.pdmnState := by
  cases h with
  | keep => rfl
  | proUpServ _ _ hpay' => simp [hpay] at hpay'
  | proUpReg _ _ hpay' => simp [hpay] at hpay'
  | proUpRev _ _ hpay' => simp [hpay] at hpay'
  | commitment _ _ _ hpay' => simp [hpay] at hpay'

theorem StateStep.keyIDOwner (h : StateStep E ctx tx d s) : s.keyIDOwner = d.pdmnState.keyIDOwner := by
  cases h with
  | keep => rfl
  | proUpServ ptx => exact proUpServState_keyIDOwner _ _ _
  | proUpReg ptx => exact proUpRegState_keyIDOwner _ _ _
  | proUpRev ptx => exact proUpRevState_keyIDOwner _ _ _
  | commitment qc base s payload update => exact update.same.keyIDOwner.symm

variable {collateral : COutPoint}

theorem removeReplaced_ok (hl : Indexed E.toCodec l) (hok : removeReplaced E l collateral = .ok l') :
    (l' = l ∧ ∀ (p : Uint256) d, l.mnMap[p]? = some d →
        getUniquePropertyHash E.toCodec collateral ∉ slots E.toCodec d) ∨
      ∃ r d, l.mnMap[r]? = some d ∧ getUniquePropertyHash E.toCodec collateral ∈ slots E.toCodec d ∧
        l.removeMN E.toCodec r = .ok l' := by
  unfold removeReplaced getMNByCollateral at hok
  split at hok
  · next d hfound =>
    obtain ⟨r, hget, hmem⟩ := hl.getUniquePropertyMN_eq_some_iff.mp hfound
    rw [hl.proTxHash r d hget] at hok
    exact .inr ⟨r, d, hget, hmem, hok⟩
  · next hnone =>
    cases hok
    exact .inl ⟨rfl, hl.getUniquePropertyMN_eq_none_iff.mp hnone⟩

theorem removeMN_frame (hl : Indexed E.toCodec l) {r : Uint256} (hrem : l.removeMN E.toCodec r = .ok l') :
    l'.mnMap = l.mnMap.erase r ∧ l'.nHeight = l.nHeight ∧ l'.nTotalRegisteredCount = l.nTotalRegisteredCount := by
  obtain ⟨d, -, u, -, rfl⟩ := removeMN_ok hl.positive hrem
  exact ⟨rfl, rfl, rfl⟩

theorem removeReplaced_frame (hl : Indexed E.toCodec l) (hok : removeReplaced E l collateral = .ok l') :
    Indexed E.toCodec l' ∧ l'.nHeight = l.nHeight ∧
      ∀ (p : Uint256) d, l'.mnMap[p]? = some d → l.mnMap[p]? = some d := by
  rcases removeReplaced_ok hl hok with ⟨rfl, -⟩ | ⟨r, d, -, -, hrem⟩
  · exact ⟨hl, rfl, fun _ _ => id⟩
  · obtain ⟨hmap, hheight, -⟩ := removeMN_frame hl hrem
    exact ⟨removeMN_indexed hl hrem, hheight, fun p d hget => Map.get_of_get_erase (hmap ▸ hget)⟩

/-- What a step of the block keeps: the index invariant and the height. -/
structure InBlock (E : Env) (ctx : BlockContext) (l : CDeterministicMNList) : Prop where
  indexed : Indexed E.toCodec l
  nHeight : l.nHeight = ctx.nHeight

variable {dmn : CDeterministicMN}

/-- An update of the step's masternode, as a change of entries. -/
theorem update_inBlock (hl : InBlock E ctx l) (hget : l.mnMap[p]? = some dmn) (hs : StateStep E ctx tx dmn s)
    (hupd : l.updateMN E.toCodec p s = .ok l') :
    InBlock E ctx l' ∧ l'.mnMap = l.mnMap.insert p { dmn with pdmnState := s } := by
  refine ⟨⟨updateMN_indexed hl.indexed (fun d hd => ?_) hupd, ?_⟩, ?_⟩
  · rw [hget, some.injEq] at hd
    exact hd ▸ hs.not_reencodes
  all_goals obtain ⟨u, rfl⟩ := updateMN_ok hl.indexed hget hs.not_reencodes hupd
  · exact hl.nHeight
  · rfl

/-- The entry is kept or has its state replaced by a step of the transaction. -/
def KeptBy (E : Env) (ctx : BlockContext) (tx : CTransaction) (l : CDeterministicMNList) (p : Uint256)
    (d' : CDeterministicMN) : Prop :=
  ∃ d, l.mnMap[p]? = some d ∧ ∃ s, StateStep E ctx tx d s ∧ d' = { d with pdmnState := s }

/-- A registration, as a change of entries. -/
theorem register_inBlock (hl : InBlock E ctx l) {l₁ : CDeterministicMNList}
    (hrep : removeReplaced E l collateral = .ok l₁) (hadd : l₁.addMN E.toCodec dmn = .ok l') :
    InBlock E ctx l' ∧ l₁.mnMap[dmn.proTxHash]? = none ∧
      l'.mnMap = l₁.mnMap.insert dmn.proTxHash dmn ∧ dmn.pdmnState.keyIDOwner ≠ 0 := by
  obtain ⟨hl₁, hheight, -⟩ := removeReplaced_frame hl.indexed hrep
  refine ⟨⟨addMN_indexed hl₁ hadd, ?_⟩, ?_⟩
  all_goals obtain ⟨hnew, -, -, howner, u, -, rfl⟩ := addMN_ok hl₁.positive hadd
  · exact hheight.trans hl.nHeight
  · exact ⟨hnew, rfl, howner⟩

/-- A transaction that registers nobody takes every entry one step on. -/
structure StepsEntries (E : Env) (ctx : BlockContext) (tx : CTransaction) (l l' : CDeterministicMNList) : Prop where
  inBlock : InBlock E ctx l'
  absent : ∀ p : Uint256, l.mnMap[p]? = none → l'.mnMap[p]? = none
  step : ∀ (p : Uint256) d, l.mnMap[p]? = some d →
    ∃ s, StateStep E ctx tx d s ∧ l'.mnMap[p]? = some { d with pdmnState := s }

theorem stepsEntries_of_update (hl : InBlock E ctx l)
    (hother : ∀ q, q ≠ p → Untouched tx q) (hget : l.mnMap[p]? = some dmn)
    (hs : StateStep E ctx tx dmn s) (hupd : l.updateMN E.toCodec p s = .ok l') : StepsEntries E ctx tx l l' := by
  obtain ⟨hin, hmap⟩ := update_inBlock hl hget hs hupd
  refine ⟨hin, fun q hnone => ?_, fun q d hd => ?_⟩
  · rw [hmap, Map.get_insert, hnone]
    split_ifs with hq
    · rw [hq, hget] at hnone
      cases hnone
    · rfl
  · rw [hmap, Map.get_insert]
    split_ifs with hq
    · rw [hq, hget, some.injEq] at hd
      exact ⟨s, hd ▸ hs, by rw [hd]⟩
    · exact ⟨d.pdmnState, .keep (hother _ (by rwa [hl.indexed.proTxHash q d hd])), hd⟩

theorem TxStep.cases (hstep : TxStep E ctx l tx l') (hl : InBlock E ctx l) :
    (StepsEntries E ctx tx l l' ∧ ∀ ptx, tx.nVersion = 3 → tx.payload ≠ .proReg (some ptx)) ∨
    ∃ ptx l₁, tx.nVersion = 3 ∧ tx.payload = .proReg (some ptx) ∧
      removeReplaced E l (proRegCollateral tx ptx) = .ok l₁ ∧
      l₁.addMN E.toCodec (proRegEntry ctx.nHeight l tx ptx) = .ok l' := by
  cases hstep with
  | skip idle =>
    refine .inl ⟨⟨hl, fun _ => id, fun p d hd => ⟨d.pdmnState, .keep (idle.untouched _), hd⟩⟩, fun ptx hver hpay => ?_⟩
    rcases idle with hver' | hpay'
    · exact hver' hver
    · rw [hpay] at hpay'
      cases hpay'
  | proReg ptx l₁ _ version payload _ _ replaced _ _ _ added =>
    exact .inr ⟨ptx, l₁, version, payload, replaced, added⟩
  | proUpServ ptx dmn _ version payload stored nType updated =>
    exact .inl ⟨stepsEntries_of_update hl (fun q hq => .inr (by rw [payload]; exact hq.symm)) stored
      (.proUpServ ptx version payload (hl.indexed.proTxHash _ _ stored) nType) updated, by simp [payload]⟩
  | proUpReg ptx dmn _ version payload stored updated =>
    exact .inl ⟨stepsEntries_of_update hl (fun q hq => .inr (by rw [payload]; exact hq.symm)) stored
      (.proUpReg ptx version payload (hl.indexed.proTxHash _ _ stored)) updated, by simp [payload]⟩
  | proUpRev ptx dmn _ version payload stored updated =>
    exact .inl ⟨stepsEntries_of_update hl (fun q hq => .inr (by rw [payload]; exact hq.symm)) stored
      (.proUpRev ptx version payload (hl.indexed.proTxHash _ _ stored)) updated, by simp [payload]⟩
  | commitment qc base _ version payload handled found mined =>
    obtain ⟨g, hok, hg⟩ := handleQuorumCommitment_maps (E := E) hl.indexed.keyed qc.commitment base
    rw [handled, Except.ok.injEq] at hok
    rw [hok]
    refine .inl ⟨⟨⟨hl.indexed.updateStates_of_get fun p d hd => (hg p d hd).same, hl.nHeight⟩,
      fun p hnone => by rw [get_updateStates, hnone]; rfl, fun p d hd => ?_⟩, by simp [payload]⟩
    exact ⟨g d, .commitment qc base _ payload (hl.nHeight ▸ hg p d hd) found version mined, by rw [get_updateStates, hd]; rfl⟩

theorem TxStep.inBlock (hstep : TxStep E ctx l tx l') (hl : InBlock E ctx l) : InBlock E ctx l' := by
  rcases hstep.cases hl with ⟨hsteps, -⟩ | ⟨ptx, l₁, -, -, replaced, added⟩
  · exact hsteps.inBlock
  · exact (register_inBlock hl replaced added).1

/-- Where an entry of the list after a step comes from. -/
theorem TxStep.entry (hstep : TxStep E ctx l tx l') (hl : InBlock E ctx l)
    {d' : CDeterministicMN} (hget : l'.mnMap[p]? = some d') :
    KeptBy E ctx tx l p d' ∨
      ∃ ptx, tx.nVersion = 3 ∧ tx.payload = .proReg (some ptx) ∧ p = tx.hash ∧
        d' = proRegEntry ctx.nHeight l tx ptx ∧ ptx.keyIDOwner ≠ 0 := by
  rcases hstep.cases hl with ⟨hsteps, -⟩ | ⟨ptx, l₁, version, payload, replaced, added⟩
  · cases hd : l.mnMap[p]? with
    | none =>
      rw [hsteps.absent p hd] at hget
      cases hget
    | some d =>
      obtain ⟨s, hs, hget'⟩ := hsteps.step p d hd
      rw [hget, some.injEq] at hget'
      exact .inl ⟨d, hd, s, hs, hget'⟩
  · obtain ⟨-, -, hmap, howner⟩ := register_inBlock hl replaced added
    rw [hmap, Map.get_insert] at hget
    split_ifs at hget with hp
    · cases hget
      exact .inr ⟨ptx, version, payload, hp, rfl, by rwa [proRegEntry_keyIDOwner] at howner⟩
    · exact .inl ⟨d', (removeReplaced_frame hl.indexed replaced).2.2 p d' hget, _, .keep (.inr (by rw [payload]; trivial)), rfl⟩

/-- What becomes of an entry in a step: it is kept, possibly with a new state, or it loses its
collateral to a registration. -/
theorem TxStep.kept (hstep : TxStep E ctx l tx l') (hl : InBlock E ctx l)
    (hget : l.mnMap[p]? = some d) (hp : p ≠ tx.hash) :
    ((∃ s, StateStep E ctx tx d s ∧ l'.mnMap[p]? = some { d with pdmnState := s }) ∧
        ∀ ptx, tx.nVersion = 3 → tx.payload = .proReg (some ptx) →
          getUniquePropertyHash E.toCodec (proRegCollateral tx ptx) ∉ slots E.toCodec d) ∨
      (l'.mnMap[p]? = none ∧ ∃ ptx, tx.nVersion = 3 ∧ tx.payload = .proReg (some ptx) ∧
        getUniquePropertyHash E.toCodec (proRegCollateral tx ptx) ∈ slots E.toCodec d) := by
  rcases hstep.cases hl with ⟨hsteps, hno⟩ | ⟨ptx, l₁, version, payload, replaced, added⟩
  · exact .inl ⟨hsteps.step p d hget, fun ptx hver hpay => absurd hpay (hno ptx hver)⟩
  · obtain ⟨-, -, hmap, -⟩ := register_inBlock hl replaced added
    have hp' : p ≠ (proRegEntry ctx.nHeight l tx ptx).proTxHash := hp
    have hkeep : StateStep E ctx tx d d.pdmnState := .keep (.inr (by rw [payload]; trivial))
    rw [hmap, Map.get_insert, if_neg hp', payload]
    rcases removeReplaced_ok hl.indexed replaced with ⟨rfl, hfree⟩ | ⟨r, dr, hr, hmem, hrem⟩
    · refine .inl ⟨⟨_, hkeep, hget⟩, ?_⟩
      rintro _ - ⟨⟩
      exact hfree p d hget
    · rw [(removeMN_frame hl.indexed hrem).1, Map.get_erase]
      split_ifs with hpr
      · rw [← hpr, hget, some.injEq] at hr
        exact .inr ⟨rfl, ptx, version, rfl, hr ▸ hmem⟩
      · refine .inl ⟨⟨_, hkeep, hget⟩, ?_⟩
        rintro _ - ⟨⟩
        exact fun hmem' => hl.indexed.slots_disjoint hget hr hpr hmem' hmem

/-! ### The whole function -/

variable {P : CDeterministicMNList → Prop} {txs : List CTransaction}

theorem processTxs_preserves (hstep : ∀ tx ∈ txs, ∀ l l', P l → TxStep E ctx l tx l' → P l') (hl : P l)
    (hok : processTxs E ctx l txs = .ok l') : P l' :=
  foldlM_preserves (fun tx htx l l' hP htx' => hstep tx htx l l' hP (processTx_step htx')) hl hok

/-- `processTxs_preserves`, where a step may also use the run that leads to it. -/
theorem processTxs_preserves_prefix {l₀ : CDeterministicMNList}
    (hstep : ∀ pre tx post l l', txs = pre ++ tx :: post → processTxs E ctx l₀ pre = .ok l → P l →
      TxStep E ctx l tx l' → P l') (hl : P l₀) (hok : processTxs E ctx l₀ txs = .ok l') : P l' :=
  foldlM_preserves_prefix (fun pre tx post l l' heq hpre hP htx =>
    hstep pre tx post l l' heq hpre hP (processTx_step htx)) hl hok

theorem processTxs_inBlock (hl : InBlock E ctx l) (hok : processTxs E ctx l txs = .ok l') : InBlock E ctx l' :=
  processTxs_preserves (fun _ _ _ _ hP hstep => hstep.inBlock hP) hl hok

theorem removeSpent_ok (hl : Indexed E.toCodec l) {prevout : COutPoint} (hok : removeSpent E l prevout = .ok l') :
    (l' = l ∧ ∀ (r : Uint256) d, l.mnMap[r]? = some d → d.collateralOutpoint ≠ prevout) ∨
      ∃ r d, l.mnMap[r]? = some d ∧ d.collateralOutpoint = prevout ∧ l.removeMN E.toCodec r = .ok l' := by
  unfold removeSpent at hok
  by_cases hex : ∃ (r : Uint256) (d : CDeterministicMN), l.mnMap[r]? = some d ∧ d.collateralOutpoint = prevout
  · obtain ⟨r, d, hget, hcol⟩ := hex
    have hfound : l.getMNByCollateral E.toCodec prevout = some d :=
      hl.getUniquePropertyMN_eq_some_iff.mpr ⟨r, hget, hcol ▸ mem_slots_collateral⟩
    simp only [hfound, hcol, if_true, hl.proTxHash r d hget] at hok
    exact .inr ⟨r, d, hget, hcol, hok⟩
  · refine .inl ⟨?_, fun r d hget hcol => hex ⟨r, d, hget, hcol⟩⟩
    split at hok
    · next d hfound =>
      obtain ⟨r, hget, -⟩ := hl.getUniquePropertyMN_eq_some_iff.mp hfound
      rw [if_neg fun hcol => hex ⟨r, d, hget, hcol⟩] at hok
      exact (Except.ok.inj hok).symm
    · exact (Except.ok.inj hok).symm

/-- What is left after the collateral is spent. -/
theorem removeSpent_get (hl : InBlock E ctx l) {prevout : COutPoint} (hok : removeSpent E l prevout = .ok l') :
    InBlock E ctx l' ∧
      ∀ p : Uint256, l'.mnMap[p]? = (l.mnMap[p]?).filter fun d => decide (d.collateralOutpoint ≠ prevout) := by
  rcases removeSpent_ok hl.indexed hok with ⟨rfl, hno⟩ | ⟨r, e, hr, hcol, hrem⟩
  · refine ⟨hl, fun p => ?_⟩
    cases hget : l'.mnMap[p]? with
    | none => rfl
    | some d => simp [filter_some, hno p d hget]
  · obtain ⟨hmap, hheight, -⟩ := removeMN_frame hl.indexed hrem
    refine ⟨⟨removeMN_indexed hl.indexed hrem, hheight.trans hl.nHeight⟩, fun p => ?_⟩
    rw [hmap, Map.get_erase]
    split_ifs with hp
    · simp [filter_some, hp, hr, hcol]
    · cases hget : l.mnMap[p]? with
      | none => rfl
      | some d => simp [filter_some, ← hcol, hl.indexed.collateral_ne hget hr hp]

theorem removeSpentCollaterals_ok (hl : InBlock E ctx l) (hok : removeSpentCollaterals E l txs = .ok l') :
    InBlock E ctx l' ∧ ∀ p : Uint256,
      l'.mnMap[p]? = (l.mnMap[p]?).filter fun d => decide (d.collateralOutpoint ∉ txs.flatMap (·.vin)) := by
  unfold removeSpentCollaterals at hok
  generalize txs.flatMap (·.vin) = prevouts at hok ⊢
  induction prevouts generalizing l with
  | nil =>
    cases hok
    exact ⟨hl, fun p => by cases l'.mnMap[p]? <;> simp [filter_some]⟩
  | cons prevout prevouts ih =>
    rw [List.foldlM_cons, bind_eq_ok] at hok
    obtain ⟨l₁, hrem, hrest⟩ := hok
    obtain ⟨hl₁, hget₁⟩ := removeSpent_get hl hrem
    obtain ⟨hl', hget⟩ := ih hl₁ hrest
    refine ⟨hl', fun p => ?_⟩
    rw [hget, hget₁, filter_filter]
    simp [not_or]

theorem inBlock_listBeforeTxs (hl : Indexed E.toCodec oldList) : InBlock E ctx (listBeforeTxs E ctx oldList) := by
  have hset : Indexed E.toCodec ((oldList.setBlockHash 0).setHeight ctx.nHeight) :=
    hl.congr rfl rfl rfl
  exact ⟨hset.updateStates beforeState_same, rfl⟩

/-- A successful `BuildNewListFromBlock`: the list after the transactions and the list after the
removals. -/
structure BlockRun (E : Env) (ctx : BlockContext) (block : CBlock)
    (oldList newList l₁ l₂ : CDeterministicMNList) : Prop where
  processed : processTxs E ctx (listBeforeTxs E ctx oldList) (block.vtx.drop 1) = .ok l₁
  removed : removeSpentCollaterals E l₁ (block.vtx.drop 1) = .ok l₂
  finished : newList = l₂.updateStates (afterState E ctx (oldList.getMNPayee E ctx.pindexPrev) l₂)

theorem buildNewListFromBlock_ok {block : CBlock} {oldList newList : CDeterministicMNList}
    (hl : Indexed E.toCodec oldList) (hok : buildNewListFromBlock E ctx block oldList = .ok newList) :
    ∃ l₁ l₂, BlockRun E ctx block oldList newList l₁ l₂ := by
  simp only [buildNewListFromBlock, beforeTxs_eq hl.keyed, bind_eq_ok, liftThrown_eq_ok] at hok
  obtain ⟨l₀, hbefore, l₁, hproc, l₂, hrem, hafter⟩ := hok
  rw [Except.ok.injEq] at hbefore
  subst hbefore
  have hl₁ := processTxs_inBlock (inBlock_listBeforeTxs hl) hproc
  have hl₂ := (removeSpentCollaterals_ok hl₁ hrem).1
  rw [afterTxs_eq hl₂.indexed.keyed, Except.ok.injEq] at hafter
  exact ⟨l₁, l₂, hproc, hrem, hafter.symm⟩

namespace BlockRun

variable {block : CBlock} {oldList newList l₁ l₂ : CDeterministicMNList}

section

variable (h : BlockRun E ctx block oldList newList l₁ l₂) (hl : Indexed E.toCodec oldList)

include h hl

theorem inBlock_processed : InBlock E ctx l₁ :=
  processTxs_inBlock (inBlock_listBeforeTxs hl) h.processed

theorem inBlock_removed : InBlock E ctx l₂ :=
  (removeSpentCollaterals_ok (h.inBlock_processed hl) h.removed).1

theorem inBlock : InBlock E ctx newList := by
  rw [h.finished]
  exact ⟨(h.inBlock_removed hl).indexed.updateStates (afterState_same _), (h.inBlock_removed hl).nHeight⟩

theorem get_removed {p : Uint256} {d : CDeterministicMN} (hget : l₂.mnMap[p]? = some d) : l₁.mnMap[p]? = some d := by
  rw [(removeSpentCollaterals_ok (h.inBlock_processed hl) h.removed).2, filter_eq_some_iff] at hget
  exact hget.1

/-- An entry of the new list comes from the list after the transactions. -/
theorem get {p : Uint256} {d' : CDeterministicMN} (hget : newList.mnMap[p]? = some d') : ∃ d, l₁.mnMap[p]? = some d ∧
      d' = { d with pdmnState := afterState E ctx (oldList.getMNPayee E ctx.pindexPrev) l₂ d } := by
  rw [h.finished] at hget
  obtain ⟨d, hd, rfl⟩ := get_of_get_updateStates hget
  exact ⟨d, h.get_removed hl hd, rfl⟩

theorem entry {p : Uint256} {d' : CDeterministicMN} (hget : newList.mnMap[p]? = some d') :
    ∃ d s, l₁.mnMap[p]? = some d ∧ d.pdmnState.SameProperties s ∧ d' = { d with pdmnState := s } := by
  obtain ⟨d, hd, rfl⟩ := h.get hl hget
  exact ⟨d, _, hd, afterState_same _ d, rfl⟩

end

end BlockRun

end OmegaCore.Evo
