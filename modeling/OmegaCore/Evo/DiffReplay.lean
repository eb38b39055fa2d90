import OmegaCore.Evo.Properties

/-!
One masternode of the previous list through a block.  It stays exactly if no
transaction registers or spends its collateral; then its states follow `StateRun`.
Replaying the difference of an accepted block never throws, and it yields the list
that was built, unless the block takes an operator key away and brings it back in the
other encoding: the difference compares decoded keys.
-/

namespace OmegaCore.Evo

open Util CDeterministicMNList List

variable {E : Env} {ctx : BlockContext} {block : CBlock} {checkSigs : Bool}
variable {old new l l' : CDeterministicMNList} {tx : CTransaction} {txs : List CTransaction}
variable {d d' : CDeterministicMN} {p : Uint256}

variable (E ctx) in
/-- The steps of one masternode's state through a list of transactions. -/
inductive StateRun : List CTransaction → CDeterministicMN → CDeterministicMN → Prop where
  | nil (d : CDeterministicMN) : StateRun [] d d
  | cons {tx : CTransaction} {txs : List CTransaction} {d d' : CDeterministicMN}
      {s : CDeterministicMNState} (step : StateStep E ctx tx d s)
      (rest : StateRun txs { d with pdmnState := s } d') : StateRun (tx :: txs) d d'

theorem StateRun.identity (h : StateRun E ctx txs d d') : d' = { d with pdmnState := d'.pdmnState } := by
  induction h with
  | nil => rfl
  | cons _ _ ih => rw [ih]

theorem StateRun.snoc (h : StateRun E ctx (txs ++ [tx]) d d') :
    ∃ d₁ s, StateRun E ctx txs d d₁ ∧ StateStep E ctx tx d₁ s ∧ d' = { d₁ with pdmnState := s } := by
  induction txs generalizing d with
  | nil =>
    cases h with
    | cons step rest =>
      cases rest
      exact ⟨d, _, .nil d, step, rfl⟩
  | cons t txs ih =>
    cases h with
    | cons step rest =>
      obtain ⟨d₁, s, hrun, hstep, heq⟩ := ih rest
      exact ⟨d₁, s, .cons step hrun, hstep, heq⟩

/-! ### Collaterals -/

/-- The transaction registers a masternode with this collateral. -/
def registersCollateral (tx : CTransaction) (o : COutPoint) : Bool :=
  match tx.payload with
  | .proReg (some ptx) => decide (tx.nVersion = 3) && decide (proRegCollateral tx ptx = o)
  | _ => false

def Stays (txs : List CTransaction) (o : COutPoint) : Prop :=
  ∀ tx ∈ txs, registersCollateral tx o = false ∧ o ∉ tx.vin

instance (txs : List CTransaction) (o : COutPoint) : Decidable (Stays txs o) :=
  inferInstanceAs (Decidable (∀ tx ∈ txs, _ ∧ _))

theorem registersCollateral_eq_true {o : COutPoint} : registersCollateral tx o = true ↔
    ∃ ptx, tx.nVersion = 3 ∧ tx.payload = .proReg (some ptx) ∧ proRegCollateral tx ptx = o := by
  unfold registersCollateral
  split
  · next ptx hpay => simp [hpay]
  · next hpay =>
    simp only [Bool.false_eq_true, false_iff]
    rintro ⟨ptx, -, hpay', -⟩
    exact hpay ptx hpay'

/-- What one transaction does to a masternode that is not registered by it. -/
theorem TxStep.track (hstep : TxStep E ctx l tx l') (hl : InBlock E ctx l)
    (hocc : AllOccur E.toCodec old block l) (hno : NoCollisions E.toCodec old block)
    (htx : tx ∈ block.vtx) (hget : l.mnMap[p]? = some d) (hp : p ≠ tx.hash) :
    (registersCollateral tx d.collateralOutpoint = false ∧
        ∃ s, StateStep E ctx tx d s ∧ l'.mnMap[p]? = some { d with pdmnState := s }) ∨
      (registersCollateral tx d.collateralOutpoint = true ∧ l'.mnMap[p]? = none) := by
  rcases hstep.kept hl hget hp with ⟨hkept, hfree⟩ | ⟨hnone, ptx, hver, hpay, hmem⟩
  · left
    refine ⟨?_, hkept⟩
    by_contra hreg
    rw [Bool.not_eq_false, registersCollateral_eq_true] at hreg
    obtain ⟨ptx, hver, hpay, hcol⟩ := hreg
    exact hfree ptx hver hpay (hcol ▸ mem_slots_collateral)
  · right
    refine ⟨registersCollateral_eq_true.mpr ⟨ptx, hver, hpay, ?_⟩, hnone⟩
    exact (hno.collateral hocc hget htx hpay hmem).symm

theorem TxStep.absent (hstep : TxStep E ctx l tx l') (hl : InBlock E ctx l)
    (hget : l.mnMap[p]? = none) (hp : p ≠ tx.hash) : l'.mnMap[p]? = none := by
  rw [Option.eq_none_iff_forall_ne_some]
  intro d' hget'
  rcases hstep.entry hl hget' with ⟨d, hd, -⟩ | ⟨ptx, -, -, hp', -⟩
  · rw [hget] at hd
    cases hd
  · exact hp hp'

theorem processTxs_absent (hl : InBlock E ctx l) (htxs : ∀ tx ∈ txs, p ≠ tx.hash)
    (hget : l.mnMap[p]? = none) (hok : processTxs E ctx l txs = .ok l') : l'.mnMap[p]? = none :=
  (processTxs_preserves (P := fun l => InBlock E ctx l ∧ l.mnMap[p]? = none)
    (fun tx htx _ _ hP hstep => ⟨hstep.inBlock hP.1, hstep.absent hP.1 hP.2 (htxs tx htx)⟩)
    ⟨hl, hget⟩ hok).2

theorem processTxs_stateRun (hl : InBlock E ctx l) (htxs : ∀ tx ∈ txs, p ≠ tx.hash)
    (hget : l.mnMap[p]? = some d) (hok : processTxs E ctx l txs = .ok l')
    (hget' : l'.mnMap[p]? = some d') : StateRun E ctx txs d d' := by
  induction txs generalizing l d with
  | nil =>
    cases hok
    rw [hget, Option.some.injEq] at hget'
    exact hget' ▸ .nil d
  | cons tx txs ih =>
    rw [processTxs, foldlM_cons, bind_eq_ok] at hok
    obtain ⟨l₁, htx, hrest⟩ := hok
    have hstep := processTx_step htx
    have hl₁ := hstep.inBlock hl
    obtain ⟨hhead, htail⟩ := forall_mem_cons.mp htxs
    rcases hstep.kept hl hget hhead with ⟨⟨s, hs, hget₁⟩, -⟩ | ⟨hnone, -⟩
    · exact .cons hs (ih hl₁ htail hget₁ hrest)
    · rw [processTxs_absent hl₁ htail hnone hrest] at hget'
      cases hget'

/-- What the transactions do to a masternode that none of them registers. -/
theorem processTxs_track (hl : InBlock E ctx l) (hocc : AllOccur E.toCodec old block l)
    (hno : NoCollisions E.toCodec old block) (htxs : ∀ tx ∈ txs, tx ∈ block.vtx ∧ p ≠ tx.hash)
    (hget : l.mnMap[p]? = some d) (hok : processTxs E ctx l txs = .ok l') :
    ((∀ tx ∈ txs, registersCollateral tx d.collateralOutpoint = false) ∧
        ∃ d', StateRun E ctx txs d d' ∧ l'.mnMap[p]? = some d') ∨
      ((∃ tx ∈ txs, registersCollateral tx d.collateralOutpoint = true) ∧ l'.mnMap[p]? = none) := by
  induction txs generalizing l d with
  | nil =>
    cases hok
    exact .inl ⟨by simp, d, .nil d, hget⟩
  | cons tx txs ih =>
    rw [processTxs, foldlM_cons, bind_eq_ok] at hok
    obtain ⟨l₁, htx, hrest⟩ := hok
    have hstep := processTx_step htx
    obtain ⟨hhead, htail⟩ := forall_mem_cons.mp htxs
    have hl₁ := hstep.inBlock hl
    rcases hstep.track hl hocc hno hhead.1 hget hhead.2 with ⟨hreg, s, hs, hget₁⟩ | ⟨hreg, hget₁⟩
    · rcases ih hl₁ (hstep.allOccur hl hhead.1 hocc) htail hget₁ hrest with
        ⟨hregs, d', hrun, hget'⟩ | ⟨⟨tx', htx', hreg'⟩, hget'⟩
      · refine .inl ⟨?_, d', .cons hs hrun, hget'⟩
        intro tx' htx'
        rcases mem_cons.mp htx' with rfl | htx'
        · exact hreg
        · exact hregs tx' htx'
      · exact .inr ⟨⟨tx', mem_cons_of_mem _ htx', hreg'⟩, hget'⟩
    · refine .inr ⟨⟨tx, mem_cons_self, hreg⟩, ?_⟩
      exact processTxs_absent hl₁ (fun tx htx => (htail tx htx).2) hget₁ hrest

/-! ### Operator keys -/

/-- The operator key of masternode `p` after a transaction. -/
def operatorKeyStep (p : Uint256) (key : CBLSLazyPublicKey) (tx : CTransaction) : CBLSLazyPublicKey :=
  if tx.nVersion ≠ 3 then key
  else
    match tx.payload with
    | .proUpReg (some ptx) =>
      if ptx.proTxHash = p ∧ key.eq ptx.pubKeyOperator = false then ptx.pubKeyOperator else key
    | .proUpRev (some ptx) => if ptx.proTxHash = p then .null else key
    | _ => key

/-- The operator key of masternode `p` after the transactions, if it has `key` before. -/
def operatorKeyAfter (p : Uint256) (key : CBLSLazyPublicKey) (txs : List CTransaction) :
    CBLSLazyPublicKey :=
  txs.foldl (operatorKeyStep p) key

theorem operatorKeyStep_of_untouched (h : Untouched tx p) (key : CBLSLazyPublicKey) :
    operatorKeyStep p key tx = key := by
  unfold operatorKeyStep
  rcases h with hver | hpay
  · rw [if_pos hver]
  · split_ifs
    · rfl
    · revert hpay
      split <;> simp_all

theorem StateStep.operatorKeyStep_eq {s : CDeterministicMNState} (h : StateStep E ctx tx d s) :
    s.pubKeyOperator = operatorKeyStep d.proTxHash d.pdmnState.pubKeyOperator tx := by
  cases h with
  | keep untouched => rw [operatorKeyStep_of_untouched untouched]
  | proUpServ ptx version payload =>
    rw [proUpServState_pubKeyOperator]
    simp [operatorKeyStep, version, payload]
  | proUpReg ptx version payload proTxHash =>
    rw [proUpRegState_pubKeyOperator]
    cases heq : d.pdmnState.pubKeyOperator.eq ptx.pubKeyOperator <;>
      simp [operatorKeyStep, version, payload, proTxHash, heq]
  | proUpRev ptx version payload proTxHash =>
    rw [proUpRevState_pubKeyOperator]
    simp [operatorKeyStep, version, payload, proTxHash]
  | commitment qc base s payload update =>
    rw [← update.same.pubKeyOperator]
    simp [operatorKeyStep, payload]

theorem StateRun.operatorKeyAfter_eq (h : StateRun E ctx txs d d') :
    d'.pdmnState.pubKeyOperator = operatorKeyAfter d.proTxHash d.pdmnState.pubKeyOperator txs := by
  induction h with
  | nil => rfl
  | cons step _ ih =>
    rw [ih, operatorKeyAfter, operatorKeyAfter, foldl_cons]
    rw [show _ = _ from step.operatorKeyStep_eq]

/-! ### The whole block -/

/-- A masternode of the previous list in the list that is built. -/
theorem BlockRun.track {l₁ l₂ : CDeterministicMNList} (hrun : BlockRun E ctx block old new l₁ l₂)
    (hold : Indexed E.toCodec old) (hno : NoCollisions E.toCodec old block)
    (hfresh : ∀ tx ∈ block.vtx, old.mnMap[tx.hash]? = none) (hget : old.mnMap[p]? = some d) :
    (Stays (block.vtx.drop 1) d.collateralOutpoint ∧
        ∃ d', StateRun E ctx (block.vtx.drop 1) { d with pdmnState := beforeState E ctx d } d' ∧
          l₂.mnMap[p]? = some d' ∧
          new.mnMap[p]? = some { d' with
            pdmnState := afterState E ctx (old.getMNPayee E ctx.pindexPrev) l₂ d' }) ∨
      (¬ Stays (block.vtx.drop 1) d.collateralOutpoint ∧ new.mnMap[p]? = none) := by
  have hbefore : InBlock E ctx (listBeforeTxs E ctx old) := inBlock_listBeforeTxs hold
  have htxs : ∀ tx ∈ block.vtx.drop 1, tx ∈ block.vtx ∧ p ≠ tx.hash := by
    intro tx htx
    refine ⟨mem_of_mem_drop htx, ?_⟩
    rintro rfl
    rw [hfresh tx (mem_of_mem_drop htx)] at hget
    cases hget
  have hfinish : new.mnMap[p]? = (l₂.mnMap[p]?).map fun d' => { d' with
      pdmnState := afterState E ctx (old.getMNPayee E ctx.pindexPrev) l₂ d' } := by
    rw [hrun.finished, get_updateStates]
  have hget₂ := (removeSpentCollaterals_ok (hrun.inBlock_processed hold) hrun.removed).2 p
  rcases processTxs_track hbefore allOccur_listBeforeTxs hno htxs (get_listBeforeTxs hget) hrun.processed with
    ⟨hregs, d', hstates, hget₁⟩ | ⟨⟨tx, htx, hreg⟩, hget₁⟩
  · have hcol : d'.collateralOutpoint = d.collateralOutpoint := by rw [hstates.identity]
    by_cases hspent : d'.collateralOutpoint ∈ (block.vtx.drop 1).flatMap (·.vin)
    · right
      rw [hget₁, Option.filter_some, if_neg (by simpa using hspent)] at hget₂
      refine ⟨fun hstays => ?_, by rw [hfinish, hget₂]; rfl⟩
      obtain ⟨tx, htx, hmem⟩ := mem_flatMap.mp hspent
      exact (hstays tx htx).2 (hcol ▸ hmem)
    · left
      rw [hget₁, Option.filter_some, if_pos (decide_eq_true hspent)] at hget₂
      refine ⟨fun tx htx => ⟨hregs tx htx, fun hmem => hspent ?_⟩, d', hstates, hget₂, ?_⟩
      · exact mem_flatMap.mpr ⟨tx, htx, hcol ▸ hmem⟩
      · rw [hfinish, hget₂]
        rfl
  · right
    refine ⟨fun hstays => ?_, by rw [hfinish, hget₂, hget₁]; rfl⟩
    have hreg' := (hstays tx htx).1
    rw [show registersCollateral tx d.collateralOutpoint = true from hreg] at hreg'
    cases hreg'

/-! ### Confirmed masternodes

Confirmed masternodes along a chain.  Once a masternode is confirmed, no block changes
its confirmed hash or the hash that quorum scores depend on, so lists of one chain agree
on them.
-/

variable {nHeight : Int}

/-- The hashes of a confirmed state are those of another one. -/
def KeepsConfirmed (a b : CDeterministicMNState) : Prop :=
  a.confirmedHash ≠ 0 → b.confirmedHash = a.confirmedHash ∧
    b.confirmedHashWithProRegTxHash = a.confirmedHashWithProRegTxHash

variable (s : CDeterministicMNState)

theorem KeepsConfirmed.refl : KeepsConfirmed s s :=
  fun _ => ⟨rfl, rfl⟩

theorem KeepsConfirmed.trans {a b c : CDeterministicMNState} (h₁ : KeepsConfirmed a b)
    (h₂ : KeepsConfirmed b c) : KeepsConfirmed a c := by
  intro hconf
  obtain ⟨hhash, hscore⟩ := h₁ hconf
  obtain ⟨hhash', hscore'⟩ := h₂ (hhash ▸ hconf)
  exact ⟨hhash'.trans hhash, hscore'.trans hscore⟩

theorem keepsConfirmed_banIfNotBanned (height : Int) : KeepsConfirmed s (s.banIfNotBanned height) := by
  unfold CDeterministicMNState.banIfNotBanned
  split_ifs
  · exact .refl s
  · exact fun _ => ⟨rfl, rfl⟩

/-! ### Sweeps and transactions -/

theorem keepsConfirmed_phaseInvariant : PhaseInvariant E ctx fun d => KeepsConfirmed s d.pdmnState where
  confirm d hd hzero hconf := absurd ((hd hconf).1.symm.trans hzero) hconf
  decrease _ hd := hd
  ban _ hd := hd.trans (keepsConfirmed_banIfNotBanned _ _)
  pay d hd := by
    unfold paidState
    split_ifs <;> exact hd
  reset _ hd _ := hd

theorem StateStep.keepsConfirmed {s : CDeterministicMNState} (hs : StateStep E ctx tx d s) :
    KeepsConfirmed d.pdmnState s := by
  cases hs with
  | keep => exact .refl _
  | proUpServ ptx =>
    simp only [proUpServState]
    split_ifs <;> exact fun _ => ⟨rfl, rfl⟩
  | proUpReg ptx =>
    have hban := keepsConfirmed_banIfNotBanned d.pdmnState.resetOperatorFields ctx.nHeight
    simp only [proUpRegState]
    split_ifs
    · exact hban
    · exact fun _ => ⟨rfl, rfl⟩
  | proUpRev ptx => exact keepsConfirmed_banIfNotBanned d.pdmnState.resetOperatorFields ctx.nHeight
  | commitment qc base s payload update =>
    rw [update.frame]
    exact fun _ => ⟨rfl, rfl⟩

theorem StateRun.keepsConfirmed (hrun : StateRun E ctx txs d d') : KeepsConfirmed d.pdmnState d'.pdmnState := by
  induction hrun with
  | nil => exact .refl _
  | cons step rest ih => exact step.keepsConfirmed.trans ih

/-! ### Blocks and chains -/

/-- What two lists of a chain agree on for a masternode that both have. -/
structure SameMN (d d' : CDeterministicMN) : Prop where
  collateralOutpoint : d'.collateralOutpoint = d.collateralOutpoint
  confirmed : KeepsConfirmed d.pdmnState d'.pdmnState

theorem SameMN.trans {d₁ d₂ d₃ : CDeterministicMN} (h₁ : SameMN d₁ d₂) (h₂ : SameMN d₂ d₃) : SameMN d₁ d₃ :=
  ⟨h₂.collateralOutpoint.trans h₁.collateralOutpoint, h₁.confirmed.trans h₂.confirmed⟩

theorem Accepted.sameMN (hacc : Accepted E ctx block checkSigs old new) (hold : Sound E old)
    (hget : old.mnMap[p]? = some d) (hget' : new.mnMap[p]? = some d') : SameMN d d' := by
  obtain ⟨l₁, l₂, hrun⟩ := buildNewListFromBlock_ok hold.indexed hacc.built
  have hbefore : InBlock E ctx (listBeforeTxs E ctx old) := inBlock_listBeforeTxs hold.indexed
  obtain ⟨d₁, hd₁, rfl⟩ := hrun.get hold.indexed hget'
  have hfresh tx (htx : tx ∈ block.vtx.drop 1) := hacc.ne_hash hget htx
  have hstates := processTxs_stateRun hbefore hfresh (get_listBeforeTxs hget) hrun.processed hd₁
  refine ⟨?_, ?_⟩
  · rw [hstates.identity]
  · have hphases : PhaseInvariant E ctx fun e => KeepsConfirmed d.pdmnState e.pdmnState :=
      keepsConfirmed_phaseInvariant _
    have hbefore := hphases.beforeState (.refl _)
    exact (keepsConfirmed_phaseInvariant _).afterState (hbefore.trans hstates.keepsConfirmed) _

theorem Accepted.absent (hacc : Accepted E ctx block checkSigs old new) (hold : Sound E old)
    (hget : old.mnMap[p]? = none) (htxs : ∀ tx ∈ block.vtx, p ≠ tx.hash) : new.mnMap[p]? = none := by
  obtain ⟨l₁, l₂, hrun⟩ := buildNewListFromBlock_ok hold.indexed hacc.built
  have hbefore : InBlock E ctx (listBeforeTxs E ctx old) := inBlock_listBeforeTxs hold.indexed
  have hget₀ : (listBeforeTxs E ctx old).mnMap[p]? = none := by
    rw [listBeforeTxs, get_updateStates]
    exact congrArg (Option.map _) hget
  have hget₁ := processTxs_absent hbefore (fun tx htx => htxs tx (List.mem_of_mem_drop htx)) hget₀ hrun.processed
  cases hnew : new.mnMap[p]? with
  | none => rfl
  | some d =>
    obtain ⟨d₁, s, hd₁, -⟩ := hrun.entry hold.indexed hnew
    rw [hget₁] at hd₁
    cases hd₁

/-- The list of a later block of the chain than the list `a`.  A transaction of a later block is not
one that registered a masternode of `a`. -/
inductive Later (E : Env) (a : CDeterministicMNList) : CDeterministicMNList → Prop where
  | refl : Later E a a
  | block {ctx : BlockContext} {block : CBlock} {checkSigs : Bool} {l new : CDeterministicMNList}
      (blockHash : Uint256) (before : Later E a l) (accepted : Accepted E ctx block checkSigs l new)
      (fresh : ∀ tx ∈ block.vtx, a.mnMap[tx.hash]? = none) : Later E a (new.setBlockHash blockHash)

theorem Later.sound {a : CDeterministicMNList} (h : Later E a l) (ha : Sound E a) : Sound E l := by
  induction h with
  | refl => exact ha
  | block blockHash _ accepted _ ih => exact (accepted.sound ih).setBlockHash blockHash

theorem Later.sameMN {a : CDeterministicMNList} (h : Later E a l) (ha : Sound E a)
    (hget : a.mnMap[p]? = some d) (hget' : l.mnMap[p]? = some d') : SameMN d d' := by
  induction h generalizing d' with
  | refl =>
    rw [hget, Option.some.injEq] at hget'
    subst hget'
    exact ⟨rfl, .refl _⟩
  | @block ctx block checkSigs l new blockHash before accepted fresh ih =>
    have hl := before.sound ha
    have htxs : ∀ tx ∈ block.vtx, p ≠ tx.hash := by
      rintro tx htx rfl
      rw [fresh tx htx] at hget
      cases hget
    cases hprev : l.mnMap[p]? with
    | none =>
      have hnone : new.mnMap[p]? = some d' := hget'
      rw [accepted.absent hl hprev htxs] at hnone
      cases hnone
    | some e => exact (ih hprev).trans (accepted.sameMN hl hprev hget')

/-- Applying the difference gives the entries and the indexes of the new list, in whatever order
the updates are walked. -/
def ReplaysExactly (C : Codec) (old new : CDeterministicMNList) (pindex : CBlockIndex) : Prop :=
  ∀ us, us.Perm (old.buildDiff new).updatedMNs →
    ∃ r, old.applyDiff C pindex { old.buildDiff new with updatedMNs := us } = .ok r ∧
      r.mnMap = new.mnMap ∧ r.mnInternalIdMap = new.mnInternalIdMap ∧
      r.mnUniquePropertyMap = new.mnUniquePropertyMap

variable {E : Env} {ctx : BlockContext} {block : CBlock} {checkSigs : Bool}
variable {old new : CDeterministicMNList} {p : Uint256}

theorem replayState_eq_iff {d e : CDeterministicMN} (hd : old.mnMap[e.proTxHash]? = some d) :
    old.replayState e = e.pdmnState ↔ ¬ d.pdmnState.pubKeyOperator.Reencodes e.pdmnState.pubKeyOperator := by
  rw [replayState_of_get hd]
  constructor
  · intro heq hre
    have hkey := congrArg CDeterministicMNState.pubKeyOperator heq
    rw [CDeterministicMNStateDiff.applyToState_diff] at hkey
    rw [if_pos (CBLSLazyPublicKey.eq_iff.mpr hre.1)] at hkey
    exact hre.2 hkey
  · exact CDeterministicMNStateDiff.applyToState_diff_of_not_reencodes

/-- The entries of the replayed list are those of the new one exactly if no key is re-encoded. -/
theorem replayed_mnMap_iff (hnew : Indexed E.toCodec new) :
    (new.updateStates old.replayState).mnMap = new.mnMap ↔
      ∀ (p : Uint256) d e, old.mnMap[p]? = some d → new.mnMap[p]? = some e →
        ¬ d.pdmnState.pubKeyOperator.Reencodes e.pdmnState.pubKeyOperator := by
  constructor
  · intro heq p d e hd he
    obtain rfl : e.proTxHash = p := hnew.proTxHash p e he
    rw [← replayState_eq_iff hd]
    have hget := get_updateStates new old.replayState e.proTxHash
    rw [heq, he, Option.map_some, Option.some.injEq] at hget
    exact (congrArg CDeterministicMN.pdmnState hget).symm
  · intro hno
    refine congrArg mnMap ((updateStates_congr fun p e he => ?_).trans (updateStates_self new))
    obtain rfl : e.proTxHash = p := hnew.proTxHash p e he
    cases hd : old.mnMap[e.proTxHash]? with
    | none => exact replayState_of_get_none hd
    | some d => exact (replayState_eq_iff hd).mpr (hno _ d e hd he)

section

variable (hacc : Accepted E ctx block checkSigs old new) (hold : Sound E old) (hno : NoCollisions E.toCodec old block)

include hacc hold hno

theorem Accepted.exists_replayed (pindex : CBlockIndex)
    {us : List (ℕ × CDeterministicMNStateDiff)} (hperm : us.Perm (old.buildDiff new).updatedMNs) :
    ∃ r, old.applyDiff E.toCodec pindex { old.buildDiff new with updatedMNs := us } = .ok r ∧
      Indexed E.toCodec r ∧ r.mnMap = (new.updateStates old.replayState).mnMap := by
  have hnew := hacc.sound hold
  obtain ⟨r, hr⟩ := exists_applyDiff hold.indexed hnew.indexed (hacc.sameIdentity hold) hold.owned
    (hacc.apartFrom hold hno) hnew.owned hperm pindex
  exact ⟨r, hr, applyDiff_get hold.indexed hnew.indexed (hacc.sameIdentity hold) hold.owned hperm hr⟩

theorem Accepted.replaysExactly_iff_keys (pindex : CBlockIndex) :
    ReplaysExactly E.toCodec old new pindex ↔ ∀ (p : Uint256) d e, old.mnMap[p]? = some d → new.mnMap[p]? = some e →
        ¬ d.pdmnState.pubKeyOperator.Reencodes e.pdmnState.pubKeyOperator := by
  have hnew := (hacc.sound hold).indexed
  rw [← replayed_mnMap_iff hnew]
  constructor
  · intro hexact
    obtain ⟨r, hr, hmap, -⟩ := hexact _ (List.Perm.refl _)
    obtain ⟨r', hr', -, hmap'⟩ := hacc.exists_replayed hold hno pindex (List.Perm.refl _)
    rw [hr, Except.ok.injEq] at hr'
    rw [← hmap', ← hr', hmap]
  · intro heq us hperm
    obtain ⟨r, hr, hindexed, hmap⟩ := hacc.exists_replayed hold hno pindex hperm
    exact ⟨r, hr, hmap.trans heq, hindexed.ext hnew (hmap.trans heq)⟩

/-- The key a masternode of both lists has in the new one. -/
theorem Accepted.pubKeyOperator_eq {d : CDeterministicMN} (hd : old.mnMap[p]? = some d) :
    (Stays (block.vtx.drop 1) d.collateralOutpoint ∧ ∃ e, new.mnMap[p]? = some e ∧
        e.pdmnState.pubKeyOperator = operatorKeyAfter p d.pdmnState.pubKeyOperator (block.vtx.drop 1)) ∨
      (¬ Stays (block.vtx.drop 1) d.collateralOutpoint ∧ new.mnMap[p]? = none) := by
  obtain ⟨l₁, l₂, hrun⟩ := buildNewListFromBlock_ok hold.indexed hacc.built
  rcases hrun.track hold.indexed hno hacc.fresh hd with ⟨hstays, d', hstates, -, he⟩ | hgone
  · refine .inl ⟨hstays, _, he, ?_⟩
    have hkey := hstates.operatorKeyAfter_eq
    have hbefore : (beforeState E ctx d).pubKeyOperator = d.pdmnState.pubKeyOperator :=
      (beforeState_same d).pubKeyOperator.symm
    rw [← (afterState_same _ d').pubKeyOperator, hkey, hbefore, hold.indexed.proTxHash p d hd]
  · exact .inr hgone

end

/-- The block takes no operator key away to bring it back in the other encoding. -/
def KeepsEncodings (old : CDeterministicMNList) (block : CBlock) : Prop :=
  ∀ d ∈ old.forEachMN false, Stays (block.vtx.drop 1) d.collateralOutpoint → ¬ d.pdmnState.pubKeyOperator.Reencodes
      (operatorKeyAfter d.proTxHash d.pdmnState.pubKeyOperator (block.vtx.drop 1))

instance (old : CDeterministicMNList) (block : CBlock) : Decidable (KeepsEncodings old block) :=
  inferInstanceAs (Decidable (∀ d ∈ _, _ → ¬ _))

theorem Accepted.replaysExactly_iff (hacc : Accepted E ctx block checkSigs old new) (hold : Sound E old)
    (hno : NoCollisions E.toCodec old block) (pindex : CBlockIndex) :
    ReplaysExactly E.toCodec old new pindex ↔ KeepsEncodings old block := by
  rw [hacc.replaysExactly_iff_keys hold hno pindex]
  constructor
  · intro hkeys d hmem hstays
    have hd := hold.indexed.mem_forEachMN_iff.mp hmem
    rcases hacc.pubKeyOperator_eq hold hno hd with ⟨-, e, he, hkey⟩ | ⟨hgone, -⟩
    · exact hkey ▸ hkeys _ d e hd he
    · exact absurd hstays hgone
  · intro hkeeps p d e hd he
    rcases hacc.pubKeyOperator_eq hold hno hd with ⟨hstays, e', he', hkey⟩ | ⟨-, hnone⟩
    · rw [he, Option.some.injEq] at he'
      obtain rfl : d.proTxHash = p := hold.indexed.proTxHash p d hd
      rw [he', hkey]
      exact hkeeps d (hold.indexed.mem_forEachMN_iff.mpr hd) hstays
    · rw [hnone] at he
      cases he

/-- For every list of a chain and every accepted block, replaying the difference does not throw,
and it is exact if and only if the block keeps the encodings of the operator keys. -/
theorem applyDiff_buildDiff (E : Env) (Q : BlockContext → CBlock → CDeterministicMNList → Prop)
    (ctx : BlockContext) (block : CBlock) (checkSigs : Bool) (old new : CDeterministicMNList)
    (pindex : CBlockIndex) (hreach : Reachable E Q ctx.pindexPrev old)
    (hacc : Accepted E ctx block checkSigs old new) (hno : NoCollisions E.toCodec old block) :
    (∀ us, us.Perm (old.buildDiff new).updatedMNs →
        ∃ r, old.applyDiff E.toCodec pindex { old.buildDiff new with updatedMNs := us } = .ok r) ∧
      (ReplaysExactly E.toCodec old new pindex ↔ KeepsEncodings old block) := by
  have hold := hreach.sound
  refine ⟨fun us hperm => ?_, hacc.replaysExactly_iff hold hno pindex⟩
  obtain ⟨r, hr, -⟩ := hacc.exists_replayed hold hno pindex hperm
  exact ⟨r, hr⟩

def sampleProUpReg (hash : Uint256) (pubKeyOperator : CBLSLazyPublicKey) : CTransaction where
  hash := hash
  payload := .proUpReg (some
    { nVersion := if pubKeyOperator.isLegacy then legacyBlsVersion else basicBlsVersion
      proTxHash := 10
      pubKeyOperator := pubKeyOperator
      keyIDVoting := 3
      scriptPayout := sampleScript })

/-- A revocation of the sample masternode, signed with its operator key. -/
def sampleProUpRev (hash : Uint256) : CTransaction where
  hash := hash
  payload := .proUpRev (some { proTxHash := 10, sig := some ⟨7⟩ })

/-- A block that gives the sample masternode another operator key. -/
theorem applyDiff_buildDiff_newKey : ReplaysExactly sampleCodec sampleList₂
      (listAfter sampleEnv (sampleContext sampleTip₂)
        ⟨[sampleCoinbase 19, sampleProUpReg 20 (.valid false ⟨8⟩)]⟩ sampleList₂) sampleTip₃ :=
  (applyDiff_buildDiff sampleEnv _ (sampleContext sampleTip₂)
    ⟨[sampleCoinbase 19, sampleProUpReg 20 (.valid false ⟨8⟩)]⟩ true sampleList₂ _ sampleTip₃
    reachable_sampleList₂ (accepted_listAfter (by decide +kernel) (by decide +kernel))
    (noCollisions_of_occurring (by decide +kernel))).2.mpr (by decide +kernel)

/-- A block that revokes the sample masternode and then restores its key in the basic encoding. -/
def revokeAndRestore : CBlock :=
  ⟨[sampleCoinbase 19, sampleProUpRev 20, sampleProUpReg 21 (.valid false ⟨7⟩)]⟩

/-- After this block the replayed list holds the key in the legacy encoding, the built one in the
basic encoding. -/
theorem applyDiff_buildDiff_fails :
    Reachable sampleEnv (fun _ _ _ => True) sampleTip₂ sampleList₂ ∧
      ∃ new, Accepted sampleEnv (sampleContext sampleTip₂) revokeAndRestore true sampleList₂ new ∧
        ¬ ReplaysExactly sampleCodec sampleList₂ new sampleTip₃ := by
  have hacc : Accepted sampleEnv (sampleContext sampleTip₂) revokeAndRestore true sampleList₂
      (listAfter sampleEnv (sampleContext sampleTip₂) revokeAndRestore sampleList₂) :=
    accepted_listAfter (by decide +kernel) (by decide +kernel)
  refine ⟨reachable_sampleList₂, _, hacc, fun hexact => ?_⟩
  obtain ⟨r, hr, hmap, -⟩ := hexact _ (List.Perm.refl _)
  have hreplayed : (sampleList₂.applyDiff sampleCodec sampleTip₃ (sampleList₂.buildDiff
      (listAfter sampleEnv (sampleContext sampleTip₂) revokeAndRestore sampleList₂))).toOption.map
        (fun r => r.mnMap[(10 : Uint256)]?.map (·.pdmnState.pubKeyOperator)) =
      some (some (.valid true ⟨7⟩)) := by decide +kernel
  have hbuilt : (listAfter sampleEnv (sampleContext sampleTip₂) revokeAndRestore
      sampleList₂).mnMap[(10 : Uint256)]?.map (·.pdmnState.pubKeyOperator) =
      some (.valid false ⟨7⟩) := by decide +kernel
  have hkey : r.mnMap[(10 : Uint256)]?.map (·.pdmnState.pubKeyOperator) = some (.valid true ⟨7⟩) := by
    have hr' := congrArg (fun x => Option.map
      (fun r : CDeterministicMNList => r.mnMap[(10 : Uint256)]?.map (·.pdmnState.pubKeyOperator))
      (Except.toOption x)) hr
    exact Option.some.inj (hr'.symm.trans hreplayed)
  rw [hmap, hbuilt] at hkey
  exact absurd hkey (by decide)

end OmegaCore.Evo
