import OmegaCore.Evo.Payments

/-!
The periodic liveness sweep.  A commitment that lists a masternode as a valid member, while it is not
banned, dates its last success with the height of the block.  The date never goes back as long as the
masternode stays registered, through blocks and through replayed differences.  So the sweep bans nobody
who took part in a quorum recently, and it leaves a masternode that did.
-/

namespace OmegaCore.Evo

open OmegaCore.Util CDeterministicMNList CDeterministicMNState

variable {E : Env} {ctx : BlockContext} {tx : CTransaction} {txs : List CTransaction}
variable {old new l l' : CDeterministicMNList} {d : CDeterministicMN} {p : Uint256} {g : Int}

/-! ### Chains with their blocks -/

/-- A block of a chain, with the list that it was processed on. -/
structure MinedBlock where
  ctx : BlockContext
  block : CBlock
  old : CDeterministicMNList

/-- A list of a chain together with the blocks that led to it, the last one first. -/
inductive Chained (E : Env) : List MinedBlock → CBlockIndex → CDeterministicMNList → Prop where
  | initial (b : CBlockIndex) (below : b.nHeight < E.params.DIP0003Height ∨ b.pprev = none) :
      Chained E [] b { blockHash := b.getBlockHash }
  | connect {mined : List MinedBlock} {ctx : BlockContext} {block : CBlock} {checkSigs : Bool}
      {old new : CDeterministicMNList} (blockHash : Uint256) (prev : Chained E mined ctx.pindexPrev old)
      (active : E.params.DIP0003Height ≤ ctx.nHeight) (accepted : Accepted E ctx block checkSigs old new) :
      Chained E (⟨ctx, block, old⟩ :: mined) (.child blockHash ctx.pindexPrev) (new.setBlockHash blockHash)
  | replay {mined : List MinedBlock} {ctx : BlockContext} {block : CBlock} {checkSigs : Bool}
      {old new l : CDeterministicMNList} {us : List (ℕ × CDeterministicMNStateDiff)} (blockHash : Uint256)
      (prev : Chained E mined ctx.pindexPrev old) (active : E.params.DIP0003Height ≤ ctx.nHeight)
      (accepted : Accepted E ctx block checkSigs old new)
      (order : us.Perm (old.buildDiff (new.setBlockHash blockHash)).updatedMNs)
      (replayed : old.applyDiff E.toCodec (.child blockHash ctx.pindexPrev)
        { old.buildDiff (new.setBlockHash blockHash) with updatedMNs := us } = .ok l) :
      Chained E (⟨ctx, block, old⟩ :: mined) (.child blockHash ctx.pindexPrev) l

theorem Chained.reachable {mined : List MinedBlock} {b : CBlockIndex} (h : Chained E mined b l) :
    Reachable E (fun _ _ _ => True) b l := by
  induction h with
  | initial b below => exact .initial b below
  | connect blockHash _ active accepted ih => exact .connect blockHash ih active trivial accepted
  | replay blockHash _ active accepted order replayed ih =>
    exact .replay blockHash ih active trivial accepted order replayed

def quorumMembers (E : Env) (qc : CFinalCommitment) (base : CBlockIndex) : List (CDeterministicMN × ℕ) :=
  (E.getAllQuorumMembers qc.llmqType base).zipIdx

def handleIndexed (E : Env) (qc : CFinalCommitment) (l : CDeterministicMNList) (m : CDeterministicMN × ℕ) :
    Except Thrown CDeterministicMNList :=
  handleMember E l m.1 (qc.validMembers.getD m.2 false)

theorem handleQuorumCommitment_def (qc : CFinalCommitment) (base : CBlockIndex) (l : CDeterministicMNList) :
    handleQuorumCommitment E qc base l = (quorumMembers E qc base).foldlM (handleIndexed E qc) l := rfl

/-- A commitment of the block lists the masternode as a valid member, at a point where it is not banned. -/
def Credited (E : Env) (m : MinedBlock) (p : Uint256) : Prop :=
  ∃ l₀ pre tx post l qc base members member rest l' d,
    beforeTxs E m.ctx m.old = .ok l₀ ∧ m.block.vtx.drop 1 = pre ++ tx :: post ∧
    processTxs E m.ctx l₀ pre = .ok l ∧ tx.nVersion = 3 ∧ tx.payload = .quorumCommitment (some qc) ∧
    qc.commitment.isNull = false ∧ quorumBase E m.ctx qc = some base ∧
    quorumMembers E qc.commitment base = members ++ member :: rest ∧
    members.foldlM (handleIndexed E qc.commitment) l = .ok l' ∧ member.1.proTxHash = p ∧
    qc.commitment.validMembers.getD member.2 false = true ∧ l'.mnMap[p]? = some d ∧ d.pdmnState.isBanned = false

theorem handleIndexed_inBlock (hl : InBlock E ctx l) {qc : CFinalCommitment} {m : CDeterministicMN × ℕ}
    (hok : handleIndexed E qc l m = .ok l') : InBlock E ctx l' := by
  obtain ⟨f, heq, hf⟩ := handleMember_maps (E := E) hl.indexed.keyed m.1 (qc.validMembers.getD m.2 false)
  rw [handleIndexed, heq, Except.ok.injEq] at hok
  subst hok
  exact ⟨hl.indexed.updateStates_of_get fun q d hd => (hf q d hd).same, hl.nHeight⟩

/-! ### The date of the last success -/

/-- If the masternode was registered before the height, its last success is not before it. -/
def SuccessSince (g : Int) (p : Uint256) (l : CDeterministicMNList) : Prop :=
  ∀ d, l.mnMap[p]? = some d → d.pdmnState.nRegisteredHeight < g → g ≤ d.pdmnState.nPoSeSuccessHeight

theorem StateStep.success {s : CDeterministicMNState} (hs : StateStep E ctx tx d s) :
    s.nPoSeSuccessHeight = d.pdmnState.nPoSeSuccessHeight ∨ s.nPoSeSuccessHeight = ctx.nHeight := by
  cases hs with
  | keep => exact .inl rfl
  | proUpServ ptx =>
    left
    simp only [proUpServState]
    split_ifs <;> rfl
  | proUpReg ptx =>
    left
    simp only [proUpRegState]
    split_ifs
    · exact banIfNotBanned_success _ _
    · rfl
  | proUpRev ptx => exact .inl (banIfNotBanned_success _ _)
  | commitment qc base s payload update => exact update.success

theorem StateStep.nRegisteredHeight {s : CDeterministicMNState} (hs : StateStep E ctx tx d s) :
    s.nRegisteredHeight = d.pdmnState.nRegisteredHeight := by
  rcases hs.payments with hsame | hsame
  · exact hsame.nRegisteredHeight
  · exact hsame.nRegisteredHeight

theorem bannedState_success (nHeight : Int) (cond : CDeterministicMN → Bool) (d : CDeterministicMN) :
    (bannedState nHeight cond d).nPoSeSuccessHeight = d.pdmnState.nPoSeSuccessHeight := by
  unfold bannedState
  split_ifs
  · exact banIfNotBanned_success _ _
  · rfl

namespace SuccessSince

/-- The entry comes from one of another list, with the same registration and a date that is not older. -/
theorem of_entry (h : SuccessSince g p l)
    (hentry : ∀ d', l'.mnMap[p]? = some d' → d'.pdmnState.nRegisteredHeight < g →
      ∃ d, l.mnMap[p]? = some d ∧ d'.pdmnState.nRegisteredHeight = d.pdmnState.nRegisteredHeight ∧
        (d'.pdmnState.nPoSeSuccessHeight = d.pdmnState.nPoSeSuccessHeight ∨
          g ≤ d'.pdmnState.nPoSeSuccessHeight)) : SuccessSince g p l' := by
  intro d' hget hreg
  obtain ⟨d, hd, hsame, hdate | hdate⟩ := hentry d' hget hreg
  · rw [hdate]
    exact h d hd (hsame ▸ hreg)
  · exact hdate

theorem updateStates (h : SuccessSince g p l) {f : CDeterministicMN → CDeterministicMNState}
    (hreg : ∀ d, (f d).nRegisteredHeight = d.pdmnState.nRegisteredHeight)
    (hdate : ∀ d, (f d).nPoSeSuccessHeight = d.pdmnState.nPoSeSuccessHeight) :
    SuccessSince g p (l.updateStates f) := by
  refine h.of_entry fun d' hget _ => ?_
  rw [get_updateStates, Option.map_eq_some_iff] at hget
  obtain ⟨d, hd, rfl⟩ := hget
  exact ⟨d, hd, hreg d, .inl (hdate d)⟩

theorem setHeader (h : SuccessSince g p l) (hmap : l'.mnMap = l.mnMap) : SuccessSince g p l' := by
  intro d hget
  rw [hmap] at hget
  exact h d hget

theorem handleIndexed (h : SuccessSince g p l) (hl : InBlock E ctx l) (hg : g ≤ ctx.nHeight)
    {qc : CFinalCommitment} {m : CDeterministicMN × ℕ} (hok : handleIndexed E qc l m = .ok l') :
    SuccessSince g p l' := by
  obtain ⟨f, heq, hf⟩ := handleMember_maps (E := E) hl.indexed.keyed m.1 (qc.validMembers.getD m.2 false)
  rw [Evo.handleIndexed, heq, Except.ok.injEq] at hok
  subst hok
  refine h.of_entry fun d' hget _ => ?_
  rw [get_updateStates, Option.map_eq_some_iff] at hget
  obtain ⟨d, hd, rfl⟩ := hget
  have hupdate := hf p d hd
  refine ⟨d, hd, ?_, ?_⟩
  · show (f d).nRegisteredHeight = _
    rw [hupdate.frame]
  · show (f d).nPoSeSuccessHeight = _ ∨ g ≤ (f d).nPoSeSuccessHeight
    rcases hupdate.success with hsame | hnew
    · exact .inl hsame
    · right
      rw [hnew, hl.nHeight]
      exact hg

theorem txStep (h : SuccessSince g p l) (hl : InBlock E ctx l) (hg : g ≤ ctx.nHeight)
    (hstep : TxStep E ctx l tx l') : SuccessSince g p l' := by
  refine h.of_entry fun d' hget hreg => ?_
  rcases hstep.entry hl hget with ⟨d, hd, s, hs, rfl⟩ | ⟨ptx, -, -, -, rfl, -⟩
  · refine ⟨d, hd, hs.nRegisteredHeight, hs.success.imp id fun hnew => ?_⟩
    rw [hnew]
    exact hg
  · -- a masternode that the block registers is dated with the height of the block
    have hnew : (proRegEntry ctx.nHeight l tx ptx).pdmnState.nRegisteredHeight = ctx.nHeight := by
      simp only [proRegEntry]
      split_ifs
      · exact (samePayments_banIfNotBanned _ _).nRegisteredHeight
      · rfl
    omega

theorem processTxs (h : SuccessSince g p l) (hl : InBlock E ctx l) (hg : g ≤ ctx.nHeight)
    (hok : processTxs E ctx l txs = .ok l') : SuccessSince g p l' :=
  (processTxs_preserves (P := fun l => InBlock E ctx l ∧ SuccessSince g p l)
    (fun _ _ _ _ hP hstep => ⟨hstep.inBlock hP.1, hP.2.txStep hP.1 hg hstep⟩) ⟨hl, h⟩ hok).2

theorem removeSpentCollaterals (h : SuccessSince g p l) (hl : InBlock E ctx l)
    (hok : removeSpentCollaterals E l txs = .ok l') : SuccessSince g p l' := by
  refine h.of_entry fun d hget _ => ?_
  rw [(removeSpentCollaterals_ok hl hok).2 p, Option.filter_eq_some_iff] at hget
  exact ⟨d, hget.1, rfl, .inl rfl⟩

theorem listBeforeTxs (h : SuccessSince g p old) : SuccessSince g p (listBeforeTxs E ctx old) := by
  have hconfirm (d : CDeterministicMN) :
      (confirmedState E ctx d).nPoSeSuccessHeight = d.pdmnState.nPoSeSuccessHeight := by
    unfold confirmedState
    split_ifs <;> rfl
  have hdecrease (d : CDeterministicMN) :
      (decreasedState d).nPoSeSuccessHeight = d.pdmnState.nPoSeSuccessHeight := by
    unfold decreasedState
    split_ifs <;> rfl
  have hstart : SuccessSince g p ((old.setBlockHash 0).setHeight ctx.nHeight) := h.setHeader rfl
  refine hstart.updateStates (fun d => (beforeState_samePayments d).nRegisteredHeight) fun d => ?_
  simp only [beforeState, andThen]
  rw [bannedState_success, bannedState_success, hdecrease, hconfirm]

theorem afterState (h : SuccessSince g p l) (payee : Option CDeterministicMN) :
    SuccessSince g p (l.updateStates (afterState E ctx payee l)) := by
  refine h.updateStates (fun d => (afterState_paymentUpdate payee d).nRegisteredHeight) fun d => ?_
  simp only [Evo.afterState, andThen, resetState, payeeState, paidState]
  split_ifs <;> exact bannedState_success _ _ d

theorem accepted {block : CBlock} {checkSigs : Bool} (h : SuccessSince g p old)
    (hacc : Accepted E ctx block checkSigs old new) (hold : Sound E old) (hg : g ≤ ctx.nHeight) :
    SuccessSince g p new := by
  obtain ⟨l₁, l₂, hrun⟩ := buildNewListFromBlock_ok hold.indexed hacc.built
  have hin : InBlock E ctx (Evo.listBeforeTxs E ctx old) := inBlock_listBeforeTxs hold.indexed
  have hl₁ := h.listBeforeTxs.processTxs hin hg hrun.processed
  rw [hrun.finished]
  exact (hl₁.removeSpentCollaterals (hrun.inBlock_processed hold.indexed) hrun.removed).afterState _

end SuccessSince

/-- A valid member that is not banned is dated with the height of the list. -/
theorem handleIndexed_credited {qc : CFinalCommitment} {m : CDeterministicMN × ℕ} (hl : InBlock E ctx l)
    (hp : m.1.proTxHash = p) (hvalid : qc.validMembers.getD m.2 false = true) (hget : l.mnMap[p]? = some d)
    (hbanned : d.pdmnState.isBanned = false) (hok : handleIndexed E qc l m = .ok l') :
    SuccessSince ctx.nHeight p l' := by
  subst hp
  unfold handleIndexed handleMember getMN at hok
  rw [hget] at hok
  simp only [hvalid, hbanned, Bool.not_true, Bool.not_false, Bool.false_eq_true, if_false, true_and] at hok
  split_ifs at hok with hdate
  · have hsame : d.pdmnState.SameProperties { d.pdmnState with nPoSeSuccessHeight := l.nHeight } :=
      ⟨rfl, rfl, rfl, rfl⟩
    rw [updateMN_eq_updateStates hl.indexed.keyed hget hsame, Except.ok.injEq] at hok
    subst hok
    intro d' hget' _
    rw [get_updateStates, hget, Option.map_some, Option.some.injEq] at hget'
    subst hget'
    simp [hl.indexed.proTxHash _ d hget, hl.nHeight]
  · cases hok
    intro d' hget' _
    rw [hget, Option.some.injEq] at hget'
    subst hget'
    rw [hl.nHeight] at hdate
    omega

theorem Credited.successSince {block : CBlock} (hcredit : Credited E ⟨ctx, block, old⟩ p) (hold : Sound E old)
    (hok : processTxs E ctx (listBeforeTxs E ctx old) (block.vtx.drop 1) = .ok l') :
    SuccessSince ctx.nHeight p l' := by
  obtain ⟨l₀, pre, tx, post, l, qc, base, members, member, rest, l₁, d, hbefore, hsplit, hpre, hver, hpay, hnull, hbase,
    hmembers, hfold, hp, hvalid, hget, hbanned⟩ := hcredit
  rw [beforeTxs_eq hold.indexed.keyed, Except.ok.injEq] at hbefore
  subst hbefore
  have hl := processTxs_inBlock (inBlock_listBeforeTxs hold.indexed) hpre
  dsimp only at hsplit hpre hbase
  rw [hsplit, processTxs, List.foldlM_append, bind_eq_ok] at hok
  obtain ⟨l₂, hpre', hok⟩ := hok
  cases hpre.symm.trans hpre'
  rw [List.foldlM_cons, bind_eq_ok] at hok
  obtain ⟨l₃, htx, hpost⟩ := hok
  have hstep := processTx_step htx
  have hl₃ := hstep.inBlock hl
  refine SuccessSince.processTxs ?_ hl₃ le_rfl hpost
  -- the transaction is handled member by member
  cases hstep with
  | skip idle =>
    rcases idle with hne | hidle
    · exact absurd hver hne
    · rw [hpay] at hidle
      exact absurd hidle (by simp [hnull])
  | proReg ptx _ _ _ payload => exact absurd (hpay.symm.trans payload) (by simp)
  | proUpServ ptx _ _ _ payload => exact absurd (hpay.symm.trans payload) (by simp)
  | proUpReg ptx _ _ _ payload => exact absurd (hpay.symm.trans payload) (by simp)
  | proUpRev ptx _ _ _ payload => exact absurd (hpay.symm.trans payload) (by simp)
  | commitment qc' base' _ _ payload handled found =>
    cases hpay.symm.trans payload
    cases hbase.symm.trans found
    rw [handleQuorumCommitment_def, hmembers, List.foldlM_append, bind_eq_ok] at handled
    obtain ⟨l₄, hfold', handled⟩ := handled
    cases hfold.symm.trans hfold'
    rw [List.foldlM_cons, bind_eq_ok] at handled
    obtain ⟨l₅, hmember, hrest⟩ := handled
    have hl₁ : InBlock E ctx l₁ := foldlM_preserves (fun m _ a a' ha hm => handleIndexed_inBlock ha hm) hl hfold
    have hl₅ := handleIndexed_credited hl₁ hp hvalid hget hbanned hmember
    exact (foldlM_preserves (P := fun a => InBlock E ctx a ∧ SuccessSince ctx.nHeight p a)
      (fun m _ a a' ha hm => ⟨handleIndexed_inBlock ha.1 hm, ha.2.handleIndexed ha.1 le_rfl hm⟩)
      ⟨handleIndexed_inBlock hl₁ hmember, hl₅⟩ hrest).2

theorem Chained.successSince {mined : List MinedBlock} {b : CBlockIndex} (h : Chained E mined b l) {m : MinedBlock}
    (hm : m ∈ mined) (hcredit : Credited E m p) : SuccessSince m.ctx.nHeight p l ∧ m.ctx.nHeight ≤ b.nHeight := by
  -- what an accepted block does, for its own credits and for older ones
  have hstep {mined : List MinedBlock} {ctx : BlockContext} {block : CBlock} {checkSigs : Bool}
      {old new : CDeterministicMNList} (prev : Chained E mined ctx.pindexPrev old)
      (accepted : Accepted E ctx block checkSigs old new) (hm : m ∈ ⟨ctx, block, old⟩ :: mined)
      (ih : m ∈ mined → SuccessSince m.ctx.nHeight p old ∧ m.ctx.nHeight ≤ ctx.pindexPrev.nHeight) :
      SuccessSince m.ctx.nHeight p new ∧ m.ctx.nHeight ≤ ctx.pindexPrev.nHeight + 1 := by
    have hsound := prev.reachable.sound
    rcases List.mem_cons.mp hm with rfl | hm
    · obtain ⟨l₁, l₂, hrun⟩ := buildNewListFromBlock_ok hsound.indexed accepted.built
      have hl₁ := hcredit.successSince hsound hrun.processed
      rw [hrun.finished]
      exact ⟨(hl₁.removeSpentCollaterals (hrun.inBlock_processed hsound.indexed) hrun.removed).afterState _, le_rfl⟩
    · have hctx : ctx.nHeight = ctx.pindexPrev.nHeight + 1 := rfl
      have hle := (ih hm).2
      exact ⟨(ih hm).1.accepted accepted hsound (by omega), by omega⟩
  induction h with
  | initial => simp at hm
  | connect blockHash prev _ accepted ih =>
    rw [CBlockIndex.nHeight_child]
    obtain ⟨hnew, hle⟩ := hstep prev accepted hm ih
    exact ⟨hnew.setHeader rfl, hle⟩
  | replay blockHash prev _ accepted order replayed ih =>
    rw [CBlockIndex.nHeight_child]
    obtain ⟨hnew, hle⟩ := hstep prev accepted hm ih
    obtain ⟨-, hmap⟩ := accepted.replayed prev.reachable.sound order replayed
    refine ⟨hnew.of_entry fun d' hget _ => ?_, hle⟩
    rw [hmap, get_updateStates, Option.map_eq_some_iff] at hget
    obtain ⟨d, hd, rfl⟩ := hget
    obtain ⟨pubKeyOperator, hkey⟩ := replayState_key _ d
    exact ⟨d, hd, by rw [hkey], .inl (by rw [hkey])⟩

/-! ### The sweep -/

/-- The sweep of a block bans a masternode that was valid. -/
def SweepBans (E : Env) (nHeight : Int) (l l' : CDeterministicMNList) (p : Uint256) : Prop :=
  livenessCheck E nHeight l = .ok l' ∧ l.isMNValid p = true ∧ l'.isMNValid p = false

theorem isMNValid_iff_notBanned : l.isMNValid p = true ↔ ∃ d, l.mnMap[p]? = some d ∧ d.pdmnState.isBanned = false := by
  unfold isMNValid
  cases l.mnMap[p]? with
  | none => simp
  | some d => simp [isMNValidEntry, isMNPoSeBannedEntry]

theorem isMNValid_of_not_livenessCond {nHeight : Int} (hget : l.mnMap[p]? = some d)
    (hd : d.pdmnState.isBanned = false) (hcond : livenessCond E nHeight l d = false) :
    (l.updateStates (bannedState nHeight (livenessCond E nHeight l))).isMNValid p = true := by
  refine isMNValid_iff_notBanned.mpr ⟨_, by rw [get_updateStates, hget]; rfl, ?_⟩
  show (bannedState nHeight (livenessCond E nHeight l) d).isBanned = false
  rw [bannedState, if_neg (by simp [hcond])]
  exact hd

theorem SweepBans.cond {nHeight : Int} (h : SweepBans E nHeight l l' p) (hl : l.Keyed) :
    ∃ d, l.mnMap[p]? = some d ∧ livenessCond E nHeight l d = true := by
  obtain ⟨hok, hvalid, hbanned⟩ := h
  rw [livenessCheck_eq hl, Except.ok.injEq] at hok
  subst hok
  obtain ⟨d, hget, hd⟩ := isMNValid_iff_notBanned.mp hvalid
  refine ⟨d, hget, ?_⟩
  by_contra hcond
  rw [isMNValid_of_not_livenessCond hget hd (by simpa using hcond)] at hbanned
  cases hbanned

theorem isMNValid_of_recent {nHeight : Int} (hl : l.Keyed) (hok : livenessCheck E nHeight l = .ok l')
    (hget : l.mnMap[p]? = some d) (hd : d.pdmnState.isBanned = false)
    (hrecent : nHeight - livenessLookback E ≤ d.pdmnState.nPoSeSuccessHeight) : l'.isMNValid p = true := by
  rw [livenessCheck_eq hl, Except.ok.injEq] at hok
  subst hok
  exact isMNValid_of_not_livenessCond hget hd (by simp [livenessCond, failsLiveness, hrecent])

theorem lookback_of_due {nHeight : Int} (hpos : 0 < nHeight) (hdue : livenessDue E nHeight = true) :
    livenessLookback E ≤ E.params.nSuperblockCycle ∨ livenessLookback E < 0 := by
  unfold livenessLookback
  rw [livenessDue, Bool.and_eq_true, decide_eq_true_eq, decide_eq_true_eq] at hdue
  have hne : E.params.nSuperblockCycle.tdiv 4 ≠ 0 := by
    intro hzero
    rw [hzero, Int.tmod_zero] at hdue
    omega
  rcases le_or_gt 0 E.params.nSuperblockCycle with hcycle | hcycle
  · left
    rw [Int.tdiv_eq_ediv_of_nonneg hcycle]
    omega
  · right
    obtain ⟨n, hn⟩ : ∃ n : ℕ, E.params.nSuperblockCycle = -n := ⟨E.params.nSuperblockCycle.natAbs, by omega⟩
    rw [hn, Int.neg_tdiv, Int.tdiv_eq_ediv_of_nonneg (by omega)] at hne ⊢
    omega

/-- If the sweep of a block bans a masternode, then a valid one with a recent success stays valid, and
the banned one is confirmed, registered for more than a cycle, and was not credited by any block that
the look-back covers, the block itself included. -/
theorem sweep_sound {mined : List MinedBlock} {block : CBlock} {l₀ l₁ l₂ l₃ : CDeterministicMNList}
    (hchain : Chained E mined ctx.pindexPrev old) (hbefore : beforeTxs E ctx old = .ok l₀)
    (hprocessed : processTxs E ctx l₀ (block.vtx.drop 1) = .ok l₁)
    (hremoved : removeSpentCollaterals E l₁ (block.vtx.drop 1) = .ok l₂)
    (hbans : SweepBans E ctx.nHeight l₂ l₃ p) :
    (∃ q d, l₂.mnMap[q]? = some d ∧ d.pdmnState.isBanned = false ∧
      ctx.nHeight - livenessLookback E ≤ d.pdmnState.nPoSeSuccessHeight ∧ l₃.isMNValid q = true) ∧
    ∃ d, l₂.mnMap[p]? = some d ∧ d.pdmnState.confirmedHash ≠ 0 ∧
      d.pdmnState.nRegisteredHeight < ctx.nHeight - E.params.nSuperblockCycle ∧
      ∀ m ∈ ⟨ctx, block, old⟩ :: mined, ctx.nHeight - livenessLookback E ≤ m.ctx.nHeight → ¬ Credited E m p := by
  have hsound := hchain.reachable.sound
  rw [beforeTxs_eq hsound.indexed.keyed, Except.ok.injEq] at hbefore
  subst hbefore
  have hin : InBlock E ctx (listBeforeTxs E ctx old) := inBlock_listBeforeTxs hsound.indexed
  have hin₁ := processTxs_inBlock hin hprocessed
  have hkeyed := (removeSpentCollaterals_ok hin₁ hremoved).1.indexed.keyed
  obtain ⟨d, hget, hcond⟩ := hbans.cond hkeyed
  have hcond' := hcond
  simp only [livenessCond, failsLiveness, Bool.and_eq_true, Bool.not_eq_true', decide_eq_false_iff_not, not_le,
    bne_iff_ne] at hcond'
  obtain ⟨⟨hdue, hactive⟩, ⟨hconfirmed, hregistered⟩, hold⟩ := hcond'
  refine ⟨?_, d, hget, hconfirmed, hregistered, fun m hm hrecent hcredit => ?_⟩
  · rw [quorumsActive, List.any_eq_true] at hactive
    obtain ⟨e, hmem, hrecent⟩ := hactive
    rw [decide_eq_true_eq] at hrecent
    have he := hkeyed.get_of_mem hmem
    have hvalid : e.pdmnState.isBanned = false := by
      rw [forEachMN, List.mem_filter] at hmem
      simpa [isMNValidEntry, isMNPoSeBannedEntry] using hmem.2
    exact ⟨e.proTxHash, e, he, hvalid, hrecent, isMNValid_of_recent hkeyed hbans.1 he hvalid hrecent⟩
  · have hsince : SuccessSince m.ctx.nHeight p l₂ ∧ m.ctx.nHeight ≤ ctx.nHeight := by
      rcases List.mem_cons.mp hm with rfl | hm
      · exact ⟨(hcredit.successSince hsound hprocessed).removeSpentCollaterals hin₁ hremoved, le_rfl⟩
      · obtain ⟨hprev, hle⟩ := hchain.successSince hm hcredit
        have hctx : ctx.nHeight = ctx.pindexPrev.nHeight + 1 := rfl
        have hle' : m.ctx.nHeight ≤ ctx.nHeight := by omega
        exact ⟨(hprev.listBeforeTxs.processTxs hin hle' hprocessed).removeSpentCollaterals hin₁ hremoved, hle'⟩
    have hpos : 0 < ctx.nHeight := by
      have hprev := ctx.pindexPrev.nHeight_nonneg
      have hctx : ctx.nHeight = ctx.pindexPrev.nHeight + 1 := rfl
      omega
    have hbound := lookback_of_due hpos hdue
    have hdate := hsince.1 d hget (by omega)
    omega

/-! ### A sweep that bans -/

theorem chained_emptyBlocks {n : ℕ} {s : CBlockIndex × CDeterministicMNList} {mined : List MinedBlock}
    (hchecks : emptyChecks E n s = true) (hs : Chained E mined s.1 s.2) :
    ∃ mined', Chained E mined' (emptyBlocks E n s).1 (emptyBlocks E n s).2 := by
  induction n generalizing s mined with
  | zero => exact ⟨mined, hs⟩
  | succ n ih =>
    simp only [emptyChecks, Bool.and_eq_true, decide_eq_true_eq] at hchecks
    obtain ⟨⟨⟨hok, hfresh⟩, hactive⟩, hrest⟩ := hchecks
    have hacc := accepted_listAfter hok (by simpa [sampleCoinbase] using hfresh)
    exact ih hrest (.connect _ hs hactive hacc)

/-- A cycle of four blocks, and quorums that consist of the masternode 11. -/
def sweepEnv : Env :=
  { sampleEnv with
    params := { devnetParams with
      nSuperblockCycle := 4
      llmqs := [⟨1, false, 1, 2, 0, 1, 1, 2⟩] }
    getAllQuorumMembers := fun _ _ => [memberMN] }

def sweepBlock₂ : CBlock :=
  ⟨[sampleCoinbase 9, sampleServedReg 10 .regular 1 5, sampleServedReg 11 .regular 2 6]⟩

def sweepList₂ : CDeterministicMNList :=
  (listAfter sweepEnv (sampleContext sampleTip) sweepBlock₂ { blockHash := 1 }).setBlockHash 2

def sweepTip : CBlockIndex × CDeterministicMNList :=
  emptyBlocks sweepEnv 4 (sampleTip₂, sweepList₂)

/-- The masternode 11 is a valid member of a quorum. -/
def sweepBlock₇ : CBlock :=
  ⟨[sampleCoinbase 12,
    { hash := 13
      payload := .quorumCommitment (some
        { nHeight := 6
          commitment := { llmqType := 1, quorumHash := 105, signers := [true], validMembers := [true] } }) }]⟩

def sweepBefore : CDeterministicMNList :=
  okOr (beforeTxs sweepEnv (sampleContext sweepTip.1) sweepTip.2) {}

def sweepProcessed : CDeterministicMNList :=
  okOr (processTxs sweepEnv (sampleContext sweepTip.1) sweepBefore (sweepBlock₇.vtx.drop 1)) {}

def sweepRemoved : CDeterministicMNList :=
  okOr (removeSpentCollaterals sweepEnv sweepProcessed (sweepBlock₇.vtx.drop 1)) {}

def sweepBanned : CDeterministicMNList :=
  okOr (livenessCheck sweepEnv (sampleContext sweepTip.1).nHeight sweepRemoved) {}

theorem chained_sweepTip : ∃ mined, Chained sweepEnv mined sweepTip.1 sweepTip.2 := by
  have hacc : Accepted sweepEnv (sampleContext sampleTip) sweepBlock₂ true { blockHash := 1 }
      (listAfter sweepEnv (sampleContext sampleTip) sweepBlock₂ { blockHash := 1 }) :=
    accepted_listAfter (by decide +kernel) (by decide +kernel)
  have hactive : sweepEnv.params.DIP0003Height ≤ (sampleContext sampleTip).nHeight := by decide
  have hstart : Chained sweepEnv [⟨sampleContext sampleTip, sweepBlock₂, { blockHash := 1 }⟩] sampleTip₂ sweepList₂ :=
    .connect 2 (.initial sampleTip (.inl (by decide))) hactive hacc
  exact chained_emptyBlocks (by decide +kernel) hstart

theorem sweepBans_sample : SweepBans sweepEnv (sampleContext sweepTip.1).nHeight sweepRemoved sweepBanned 10 :=
  ⟨eq_ok_okOr (by decide +kernel), by decide +kernel, by decide +kernel⟩

theorem sweep_sound_sample : ∃ mined, Chained sweepEnv mined sweepTip.1 sweepTip.2 ∧
    SweepBans sweepEnv (sampleContext sweepTip.1).nHeight sweepRemoved sweepBanned 10 ∧
    ∃ d, sweepRemoved.mnMap[(10 : Uint256)]? = some d ∧ d.pdmnState.confirmedHash ≠ 0 ∧
      ¬ Credited sweepEnv ⟨sampleContext sweepTip.1, sweepBlock₇, sweepTip.2⟩ 10 := by
  obtain ⟨mined, hchain⟩ := chained_sweepTip
  have hbefore : beforeTxs sweepEnv (sampleContext sweepTip.1) sweepTip.2 = .ok sweepBefore :=
    eq_ok_okOr (by decide +kernel)
  have hprocessed : processTxs sweepEnv (sampleContext sweepTip.1) sweepBefore (sweepBlock₇.vtx.drop 1) =
      .ok sweepProcessed := eq_ok_okOr (by decide +kernel)
  obtain ⟨-, d, hget, hconfirmed, -, hnot⟩ := sweep_sound hchain hbefore hprocessed
    (eq_ok_okOr (by decide +kernel)) sweepBans_sample
  exact ⟨mined, hchain, sweepBans_sample, d, hget, hconfirmed, hnot _ List.mem_cons_self (by decide +kernel)⟩

end OmegaCore.Evo
