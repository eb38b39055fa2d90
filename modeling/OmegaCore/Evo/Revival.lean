import OmegaCore.Evo.OperatorAuth

/-!
Revival by a service update.  A `ProUpServTx` for a masternode whose keys are all set
clears its ban, and no later transaction of the block restores it unless it updates the
masternode or reports it.  The liveness sweep runs after the transactions and reads
heights that revival does not write, so it may ban the masternode again in the same
block.
-/

namespace OmegaCore.Evo

open Util CDeterministicMNList

variable {E : Env} {ctx : BlockContext} {block : CBlock} {checkSigs : Bool}
variable {old new l l₁ l₂ : CDeterministicMNList} {tx : CTransaction} {txs pre post : List CTransaction}
variable {d d' : CDeterministicMN} {p : Uint256} {ptx : CProUpServTx}

/-- The operator, owner and voting keys of a masternode are set. -/
structure ValidKeys (s : CDeterministicMNState) : Prop where
  operator : s.pubKeyOperator.isValid = true
  owner : s.keyIDOwner ≠ 0
  voting : s.keyIDVoting ≠ 0

/-- The transaction is no registrar update or revocation of `p`, and no commitment with a quorum that marks `p`
invalid. -/
structure SparesMN (E : Env) (ctx : BlockContext) (p : Uint256) (tx : CTransaction) : Prop where
  proUpReg : ∀ ptx, tx.nVersion = 3 → tx.payload = .proUpReg (some ptx) → ptx.proTxHash ≠ p
  proUpRev : ∀ ptx, tx.nVersion = 3 → tx.payload = .proUpRev (some ptx) → ptx.proTxHash ≠ p
  commitment : ∀ qc base, tx.nVersion = 3 → tx.payload = .quorumCommitment (some qc) → qc.commitment.isNull = false →
    quorumBase E ctx qc = some base → ¬ MarksInvalid E qc.commitment base p

/-- The list that the liveness sweep of a block runs on. -/
def listBeforeSweep (E : Env) (ctx : BlockContext) (block : CBlock) (old : CDeterministicMNList) :
    Except BlockError CDeterministicMNList := do
  let newList ← listAfterTxs E ctx old (block.vtx.drop 1)
  liftThrown (removeSpentCollaterals E newList (block.vtx.drop 1))

/-- The liveness sweep is due at the height of the block, and finds quorums active and the masternode
`p` idle for too long. -/
structure SweptOut (E : Env) (ctx : BlockContext) (block : CBlock) (old : CDeterministicMNList)
    (p : Uint256) : Prop where
  due : livenessDue E ctx.nHeight = true
  fails : ∃ l d, listBeforeSweep E ctx block old = .ok l ∧ l.mnMap[p]? = some d ∧
    quorumsActive E ctx.nHeight l = true ∧ failsLiveness E ctx.nHeight d = true

theorem BlockRun.listBeforeSweep_eq (hrun : BlockRun E ctx block old new l₁ l₂) (hold : old.Keyed) :
    listBeforeSweep E ctx block old = .ok l₂ := by
  rw [listBeforeSweep, listAfterTxs_eq hold, hrun.processed, ok_bind, hrun.removed]
  rfl

/-! ### Bans along the transactions -/

variable {s : CDeterministicMNState}

variable (nHeight : Int) (payee : Option CDeterministicMN) (dmn : CDeterministicMN)

theorem reviveIf_isBanned (h : s.isBanned = false ∨ ValidKeys s) :
    (if s.isBanned ∧ s.pubKeyOperator.isValid ∧ s.keyIDVoting ≠ 0 ∧ s.keyIDOwner ≠ 0 then
      s.revive nHeight else s).isBanned = false := by
  split_ifs with hcond
  · rfl
  · rcases h with hnot | hkeys
    · exact hnot
    · exact Bool.eq_false_of_not_eq_true fun hbanned =>
        hcond ⟨hbanned, hkeys.operator, hkeys.voting, hkeys.owner⟩

theorem proUpServState_isBanned (ptx : CProUpServTx)
    (h : s.isBanned = false ∨ ValidKeys s) : (proUpServState nHeight s ptx).isBanned = false := by
  apply reviveIf_isBanned
  split_ifs
  · exact h.imp id fun hkeys => ⟨hkeys.operator, hkeys.owner, hkeys.voting⟩
  · exact h.imp id fun hkeys => ⟨hkeys.operator, hkeys.owner, hkeys.voting⟩

theorem StateStep.isBanned_eq_false (hs : StateStep E ctx tx d s)
    (hspares : SparesMN E ctx d.proTxHash tx) (hd : d.pdmnState.isBanned = false) : s.isBanned = false := by
  cases hs with
  | keep => exact hd
  | proUpServ ptx => exact proUpServState_isBanned _ ptx (.inl hd)
  | proUpReg ptx version payload proTxHash =>
    exact absurd proTxHash.symm (hspares.proUpReg ptx version payload)
  | proUpRev ptx version payload proTxHash =>
    exact absurd proTxHash.symm (hspares.proUpRev ptx version payload)
  | commitment qc base s payload update found version mined =>
    rcases update.ban with heq | ⟨hmarked, -, -⟩
    · rw [CDeterministicMNState.isBanned, heq]
      exact hd
    · exact absurd hmarked (hspares.commitment qc base version payload mined found)

theorem StateRun.isBanned_eq_false (hrun : StateRun E ctx txs d d')
    (hspares : ∀ tx ∈ txs, SparesMN E ctx d.proTxHash tx) (hd : d.pdmnState.isBanned = false) :
    d'.pdmnState.isBanned = false := by
  induction hrun with
  | nil => exact hd
  | cons step rest ih =>
    rw [List.forall_mem_cons] at hspares
    exact ih hspares.2 (step.isBanned_eq_false hspares.1 hd)

/-! ### Bans after the transactions -/

theorem paidState_isBanned : (paidState nHeight dmn).isBanned = dmn.pdmnState.isBanned := by
  simp only [paidState]
  split_ifs <;> rfl

theorem payeeState_isBanned : (payeeState nHeight payee dmn).isBanned = dmn.pdmnState.isBanned := by
  unfold payeeState
  split_ifs
  · exact paidState_isBanned nHeight dmn
  · rfl

theorem resetState_isBanned : (resetState payee dmn).isBanned = dmn.pdmnState.isBanned := by
  unfold resetState
  split_ifs <;> rfl

theorem afterState_isBanned (l : CDeterministicMNList) (hd : d.pdmnState.isBanned = false) :
    (afterState E ctx payee l d).isBanned = livenessCond E ctx.nHeight l d := by
  have hvalid : isMNValidEntry d = true := by
    rw [isMNValidEntry, isMNPoSeBannedEntry, hd]
    rfl
  have hheight : ctx.nHeight ≠ -1 := by
    have hprev := ctx.pindexPrev.nHeight_nonneg
    have hnext : ctx.nHeight = ctx.pindexPrev.nHeight + 1 := rfl
    omega
  simp only [afterState, andThen, resetState_isBanned, payeeState_isBanned]
  unfold bannedState
  by_cases hcond : livenessCond E ctx.nHeight l d = true
  · rw [if_pos ⟨hvalid, hcond⟩, hcond, CDeterministicMNState.banIfNotBanned, hd]
    simpa [CDeterministicMNState.isBanned] using hheight
  · rw [if_neg fun h => hcond h.2, hd, Bool.eq_false_of_not_eq_true hcond]

section

variable (hrun : BlockRun E ctx block old new l₁ l₂)

include hrun

theorem BlockRun.isMNPoSeBanned_of_removed (hnone : l₂.mnMap[p]? = none) : new.isMNPoSeBanned p = false := by
  simp [isMNPoSeBanned, hrun.finished, get_updateStates, hnone]

theorem BlockRun.isMNPoSeBanned_eq (hget : l₂.mnMap[p]? = some d) (hd : d.pdmnState.isBanned = false) :
    new.isMNPoSeBanned p = livenessCond E ctx.nHeight l₂ d := by
  have hnew : new.mnMap[p]? = some { d with pdmnState := afterState E ctx (old.getMNPayee E ctx.pindexPrev) l₂ d } := by
    rw [hrun.finished, get_updateStates, hget]
    rfl
  rw [isMNPoSeBanned, hnew]
  exact afterState_isBanned _ l₂ hd

/-! ### Revival in an accepted block -/

/-- A masternode that a service update finds with valid keys is not banned when the liveness sweep
begins. -/
theorem BlockRun.isBanned_eq_false_of_serviceUpdate (hold : Sound E old) (hacc : Accepted E ctx block checkSigs old new)
    (hupd : ServiceUpdate block pre tx post ptx) (hl : listAfterTxs E ctx old pre = .ok l)
    (hd : l.mnMap[ptx.proTxHash]? = some d) (hkeys : ValidKeys d.pdmnState)
    (hspares : ∀ tx ∈ post, SparesMN E ctx ptx.proTxHash tx)
    (hd' : l₂.mnMap[ptx.proTxHash]? = some d') : d'.pdmnState.isBanned = false := by
  have hinit : InBlock E ctx (listBeforeTxs E ctx old) := inBlock_listBeforeTxs hold.indexed
  have hget₁ := hrun.get_removed hold.indexed hd'
  rw [listAfterTxs_eq hold.indexed.keyed] at hl
  have hinl := processTxs_inBlock hinit hl
  have hrest : processTxs E ctx l (tx :: post) = .ok l₁ := by
    have hprocessed := hrun.processed
    unfold processTxs at hl hprocessed
    rw [hupd.place, List.foldlM_append, hl, ok_bind] at hprocessed
    exact hprocessed
  -- the masternode was in the previous list, so it is not registered by this block
  obtain ⟨_, d₀, _, happ⟩ := hacc.applied hold hupd
  have hfresh : ∀ t ∈ tx :: post, ptx.proTxHash ≠ t.hash := by
    intro t ht
    exact hacc.ne_hash happ.checked.get (by rw [hupd.place]; exact List.mem_append_right _ ht)
  have hp : ptx.proTxHash = d.proTxHash := (hinl.indexed.keyed _ d hd).symm
  cases processTxs_stateRun hinl hfresh hd hrest hget₁ with
  | cons step rest =>
    refine rest.isBanned_eq_false (fun t ht => hp ▸ hspares t ht) ?_
    cases step with
    | keep untouched =>
      have hne : ptx.proTxHash ≠ d.proTxHash := by
        simpa [Untouched, hupd.version, hupd.payload] using untouched
      exact absurd hp hne
    | proUpServ ptx' => exact proUpServState_isBanned _ ptx' (.inr hkeys)
    | proUpReg ptx' _ payload => simp [hupd.payload] at payload
    | proUpRev ptx' _ payload => simp [hupd.payload] at payload
    | commitment qc base s payload => simp [hupd.payload] at payload

end

/-- For every list of a chain and every accepted block with a service update for a masternode whose
keys are set when it is applied, and with no later registrar update or revocation of the masternode
and no later report of it: the masternode is not banned in the new list if and only if the liveness
sweep does not catch it. -/
theorem isMNPoSeBanned_iff_sweptOut (E : Env) (Q : BlockContext → CBlock → CDeterministicMNList → Prop)
    (ctx : BlockContext) (block : CBlock) (checkSigs : Bool) (old new : CDeterministicMNList)
    (hreach : Reachable E Q ctx.pindexPrev old) (hacc : Accepted E ctx block checkSigs old new)
    (pre post : List CTransaction) (tx : CTransaction) (ptx : CProUpServTx)
    (hupd : ServiceUpdate block pre tx post ptx) (l : CDeterministicMNList) (d : CDeterministicMN)
    (hl : listAfterTxs E ctx old pre = .ok l) (hd : l.mnMap[ptx.proTxHash]? = some d)
    (hkeys : ValidKeys d.pdmnState) (hspares : ∀ tx ∈ post, SparesMN E ctx ptx.proTxHash tx) :
    new.isMNPoSeBanned ptx.proTxHash = false ↔ ¬ SweptOut E ctx block old ptx.proTxHash := by
  have hold := hreach.sound
  obtain ⟨l₁, l₂, hrun⟩ := buildNewListFromBlock_ok hold.indexed hacc.built
  have hsweep := hrun.listBeforeSweep_eq hold.indexed.keyed
  cases hget₂ : l₂.mnMap[ptx.proTxHash]? with
  | none =>
    -- an earlier transaction of the block spent the collateral
    have hout : ¬ SweptOut E ctx block old ptx.proTxHash := by
      rintro ⟨-, l', d', hl', hd', -⟩
      rw [hsweep, Except.ok.injEq] at hl'
      rw [← hl', hget₂] at hd'
      cases hd'
    exact iff_of_true (hrun.isMNPoSeBanned_of_removed hget₂) hout
  | some d₂ =>
    have hvalid := hrun.isBanned_eq_false_of_serviceUpdate hold hacc hupd hl hd hkeys hspares hget₂
    have hcond : livenessCond E ctx.nHeight l₂ d₂ = true ↔ SweptOut E ctx block old ptx.proTxHash := by
      simp only [livenessCond, Bool.and_eq_true]
      constructor
      · rintro ⟨⟨hdue, hactive⟩, hfails⟩
        exact ⟨hdue, l₂, d₂, hsweep, hget₂, hactive, hfails⟩
      · rintro ⟨hdue, l', d', hl', hd', hactive, hfails⟩
        rw [hsweep, Except.ok.injEq] at hl'
        subst hl'
        rw [hget₂, Option.some.injEq] at hd'
        subst hd'
        exact ⟨⟨hdue, hactive⟩, hfails⟩
    rw [hrun.isMNPoSeBanned_eq hget₂ hvalid, ← hcond, Bool.not_eq_true]

/-! ### Concrete blocks -/

instance (s : CDeterministicMNState) : Decidable (ValidKeys s) :=
  decidable_of_iff (s.pubKeyOperator.isValid = true ∧ s.keyIDOwner ≠ 0 ∧ s.keyIDVoting ≠ 0)
    ⟨fun h => ⟨h.1, h.2.1, h.2.2⟩, fun h => ⟨h.operator, h.owner, h.voting⟩⟩

theorem isMNPoSeBanned_iff_sweptOut_revived :
    (listAfter sampleEnv (sampleContext sampleTip₂) ⟨[sampleCoinbase 19, sampleProUpServ 20]⟩
      sampleList₂).isMNPoSeBanned 10 = false := by
  have hstate : (listAfterTxs sampleEnv (sampleContext sampleTip₂) sampleList₂ []).map
      (fun l => (l.mnMap[(10 : Uint256)]?).map fun d => decide (ValidKeys d.pdmnState)) = .ok (some true) := by
    decide +kernel
  obtain ⟨l, hl, hentry⟩ := exists_of_map_eq_ok hstate
  obtain ⟨d, hd, hkeys⟩ := Option.map_eq_some_iff.mp hentry
  refine (isMNPoSeBanned_iff_sweptOut sampleEnv _ (sampleContext sampleTip₂)
    ⟨[sampleCoinbase 19, sampleProUpServ 20]⟩ true sampleList₂ _ reachable_sampleList₂
    (accepted_listAfter (by decide +kernel) (by decide +kernel)) [] [] (sampleProUpServ 20) _
    ⟨rfl, rfl, rfl⟩ l d hl hd (of_decide_eq_true hkeys) (by simp)).mpr ?_
  rintro ⟨hdue, -⟩
  revert hdue
  decide

def llmqDevnet : LLMQParams where
  type := 101
  useRotation := false
  size := 12
  dkgInterval := 24
  dkgMiningWindowStart := 10
  dkgMiningWindowEnd := 18
  signingActiveQuorumCount := 4
  keepOldConnections := 5

/-- A devnet with quorums whose only member is the masternode 11. -/
def quorumEnv : Env :=
  { sampleEnv with
    params := { devnetParams with llmqs := [llmqDevnet] }
    getAllQuorumMembers := fun _ _ => [memberMN] }

/-- Two masternodes at height 2, of which the first is banned, and 33 blocks after them. -/
def idleBlock : CBlock :=
  ⟨[sampleCoinbase 9, sampleProReg 10 3 (.valid false ⟨7⟩), sampleServedReg 11 .regular 11 4]⟩

def idleStart : CDeterministicMNList :=
  (listAfter quorumEnv (sampleContext sampleTip) idleBlock { blockHash := 1 }).setBlockHash 2

def idleChain : CBlockIndex × CDeterministicMNList :=
  emptyBlocks quorumEnv 33 (sampleTip₂, idleStart)

theorem reachable_idleChain : Reachable quorumEnv (fun _ _ _ => True) idleChain.1 idleChain.2 := by
  have htip : Reachable quorumEnv (fun _ _ _ => True) sampleTip { blockHash := 1 } :=
    .initial sampleTip (.inl (by decide))
  have hstart : Reachable quorumEnv (fun _ _ _ => True) sampleTip₂ idleStart :=
    htip.next 2 idleBlock (by decide) (by decide +kernel) (by decide +kernel)
  exact reachable_emptyBlocks (n := 33) (s := (sampleTip₂, idleStart)) (by decide +kernel) hstart

/-- The commitment of the quorum of height 24, in which the masternode 11 took part. -/
def sampleCommitment : CTransaction where
  hash := 20
  payload := .quorumCommitment (some
    { nHeight := 36
      commitment := { llmqType := 101, quorumHash := 123, signers := [true], validMembers := [true] } })

/-- A block at height 36 with the commitment and a service update of the first masternode. -/
def reviveAndSweep : CBlock :=
  ⟨[sampleCoinbase 19, sampleCommitment, sampleProUpServ 21]⟩

/-- The masternode is banned, its keys are set, the service update is the last transaction of the
block, and the masternode is banned in the new list. -/
theorem isMNPoSeBanned_false_fails :
    Reachable quorumEnv (fun _ _ _ => True) idleChain.1 idleChain.2 ∧
      idleChain.2.isMNPoSeBanned 10 = true ∧
      ∃ new l d ptx, Accepted quorumEnv (sampleContext idleChain.1) reviveAndSweep true idleChain.2 new ∧
        ServiceUpdate reviveAndSweep [sampleCommitment] (sampleProUpServ 21) [] ptx ∧
        ptx.proTxHash = 10 ∧
        listAfterTxs quorumEnv (sampleContext idleChain.1) idleChain.2 [sampleCommitment] = .ok l ∧
        l.mnMap[(10 : Uint256)]? = some d ∧ d.pdmnState.isBanned = true ∧ ValidKeys d.pdmnState ∧
        new.isMNPoSeBanned 10 = true := by
  have hstate : (listAfterTxs quorumEnv (sampleContext idleChain.1) idleChain.2 [sampleCommitment]).map
      (fun l => (l.mnMap[(10 : Uint256)]?).map fun d => decide (d.pdmnState.isBanned = true ∧ ValidKeys d.pdmnState)) =
        .ok (some true) := by decide +kernel
  obtain ⟨l, hl, hentry⟩ := exists_of_map_eq_ok hstate
  obtain ⟨d, hd, hfields⟩ := Option.map_eq_some_iff.mp hentry
  obtain ⟨hbanned, hkeys⟩ := of_decide_eq_true hfields
  exact ⟨reachable_idleChain, by decide +kernel, _, l, d, _,
    accepted_listAfter (by decide +kernel) (by decide +kernel), ⟨rfl, rfl, rfl⟩, rfl, hl, hd, hbanned,
    hkeys, by decide +kernel⟩

end OmegaCore.Evo
