import OmegaCore.Evo.BlockSteps
import OmegaCore.Evo.Diff
import OmegaCore.Evo.MNListRun

/-!
Masternode lists along a chain.  A block is accepted when all its special
transactions pass their checks against the previous list and
`BuildNewListFromBlock` succeeds.  The list of the next block is then either the
built one or the previous list with the difference replayed; `Reachable` closes the
initial list under both, for blocks that satisfy a condition.  A check that a provider
transaction passes says which unique properties are free in the list, who may hold those
that are not, and under which key the payload is signed.
-/

namespace OmegaCore.Evo

open Util CDeterministicMNList

/-- The list part of `ProcessSpecialTxsInBlock`: every transaction is checked against the previous
list, then the new list is built. -/
def processSpecialTxsInBlock (E : Env) (ctx : BlockContext) (block : CBlock)
    (oldList : CDeterministicMNList) (checkSigs : Bool) : Except BlockError CDeterministicMNList := do
  (block.vtx.forM (checkSpecialTx E ctx oldList checkSigs)).mapError .invalid
  buildNewListFromBlock E ctx block oldList

variable {E : Env} {ctx : BlockContext} {block : CBlock} {checkSigs : Bool}
variable {old new l : CDeterministicMNList} {p q : Uint256}

/-- An accepted block.  Transaction ids are unique along a chain, so no transaction of the block
has the id of a registered masternode. -/
structure Accepted (E : Env) (ctx : BlockContext) (block : CBlock) (checkSigs : Bool)
    (old new : CDeterministicMNList) : Prop where
  processed : processSpecialTxsInBlock E ctx block old checkSigs = .ok new
  fresh : ∀ tx ∈ block.vtx, old.mnMap[tx.hash]? = none

namespace Accepted

theorem checked (h : Accepted E ctx block checkSigs old new) {tx : CTransaction} (htx : tx ∈ block.vtx) :
    checkSpecialTx E ctx old checkSigs tx = .ok () := by
  have hok := h.processed
  rw [processSpecialTxsInBlock, bind_eq_ok] at hok
  obtain ⟨u, hall, -⟩ := hok
  refine forM_eq_ok ?_ htx
  cases hchecks : block.vtx.forM (checkSpecialTx E ctx old checkSigs) with
  | error e =>
    rw [hchecks] at hall
    cases hall
  | ok u => rfl

theorem built (h : Accepted E ctx block checkSigs old new) : buildNewListFromBlock E ctx block old = .ok new := by
  have hok := h.processed
  rw [processSpecialTxsInBlock, bind_eq_ok] at hok
  obtain ⟨u, -, hok⟩ := hok
  exact hok

theorem ne_hash (h : Accepted E ctx block checkSigs old new) {d : CDeterministicMN} (hget : old.mnMap[p]? = some d)
    {tx : CTransaction} (htx : tx ∈ block.vtx.drop 1) : p ≠ tx.hash := by
  rintro rfl
  rw [h.fresh tx (List.mem_of_mem_drop htx)] at hget
  cases hget

end Accepted

/-! ### What every list of a chain satisfies -/

/-- The indexes match the entries, and every masternode has an owner key. -/
structure Sound (E : Env) (l : CDeterministicMNList) : Prop where
  indexed : Indexed E.toCodec l
  owned : l.Owned

theorem listBeforeTxs_get {d' : CDeterministicMN} (hget : (listBeforeTxs E ctx old).mnMap[p]? = some d') :
    ∃ d, old.mnMap[p]? = some d ∧ d' = { d with pdmnState := beforeState E ctx d } :=
  get_of_get_updateStates (l := (old.setBlockHash 0).setHeight ctx.nHeight) hget

theorem get_listBeforeTxs {d : CDeterministicMN} (hget : old.mnMap[p]? = some d) :
    (listBeforeTxs E ctx old).mnMap[p]? = some { d with pdmnState := beforeState E ctx d } := by
  rw [listBeforeTxs, get_updateStates]
  exact congrArg (Option.map _) hget

namespace BlockRun

variable {l₁ l₂ : CDeterministicMNList}

section

variable (h : BlockRun E ctx block old new l₁ l₂)

include h

/-- What the transactions of a block keep of every masternode and bring about for a new one holds after them. -/
theorem entries {P : Uint256 → CDeterministicMN → Prop} (hold : Indexed E.toCodec old)
    (hbefore : ∀ (p : Uint256) d, old.mnMap[p]? = some d → P p { d with pdmnState := beforeState E ctx d })
    (hkeep : ∀ tx p d s, P p d → StateStep E ctx tx d s → P p { d with pdmnState := s })
    (hregister : ∀ tx ∈ block.vtx, ∀ l ptx, tx.nVersion = 3 → tx.payload = .proReg (some ptx) →
      ptx.keyIDOwner ≠ 0 → P tx.hash (proRegEntry ctx.nHeight l tx ptx))
    {d : CDeterministicMN} (hget : l₁.mnMap[p]? = some d) : P p d := by
  have hl₁ : InBlock E ctx l₁ ∧ ∀ (p : Uint256) d, l₁.mnMap[p]? = some d → P p d := by
    refine processTxs_preserves (P := fun l => InBlock E ctx l ∧ ∀ (p : Uint256) d, l.mnMap[p]? = some d → P p d) ?_
      ⟨inBlock_listBeforeTxs hold, fun p d' hget => ?_⟩ h.processed
    · rintro tx htx l l' ⟨hl, hall⟩ hstep
      refine ⟨hstep.inBlock hl, fun p d' hget => ?_⟩
      rcases hstep.entry hl hget with ⟨d, hd, s, hs, rfl⟩ | ⟨ptx, hver, hpay, rfl, rfl, howner⟩
      · exact hkeep tx p d s (hall p d hd) hs
      · exact hregister tx (List.mem_of_mem_drop htx) l ptx hver hpay howner
    · obtain ⟨d, hd, rfl⟩ := listBeforeTxs_get hget
      exact hbefore p d hd
  exact hl₁.2 p d hget

theorem sound (hold : Sound E old) : Sound E new := by
  refine ⟨(h.inBlock hold.indexed).indexed, fun p d' hget => ?_⟩
  obtain ⟨d, s, hd, hsame, rfl⟩ := h.entry hold.indexed hget
  have howner : d.pdmnState.keyIDOwner ≠ 0 := by
    refine h.entries (P := fun _ d => d.pdmnState.keyIDOwner ≠ 0) hold.indexed (fun p d hd => ?_)
      (fun _ _ _ _ hd hs => hs.keyIDOwner ▸ hd) (fun _ _ _ _ _ _ howner => ?_) hd
    · exact (beforeState_same d).keyIDOwner ▸ hold.owned p d hd
    · rwa [proRegEntry_keyIDOwner]
  exact hsame.keyIDOwner ▸ howner

theorem sameIdentity (hold : Indexed E.toCodec old)
    (hfresh : ∀ tx ∈ block.vtx, old.mnMap[tx.hash]? = none) : SameIdentity old new := by
  intro p d e hd he
  obtain ⟨d', s, hd', -, rfl⟩ := h.entry hold he
  have hsame : d' = { d with pdmnState := d'.pdmnState } := by
    refine h.entries (P := fun p e => ∀ d, old.mnMap[p]? = some d → e = { d with pdmnState := e.pdmnState }) hold
      (fun p d hd e he => ?_) (fun _ p d s hP _ e he => ?_) (fun tx htx l ptx _ _ _ e he => ?_) hd' d hd
    · rw [hd, Option.some.injEq] at he
      rw [he]
    · rw [hP e he]
    · rw [hfresh tx htx] at he
      cases he
  rw [hsame]

end

end BlockRun

/-- A replay may only keep another encoding of the operator key. -/
theorem replayState_key (old : CDeterministicMNList) (e : CDeterministicMN) :
    ∃ pubKeyOperator, old.replayState e = { e.pdmnState with pubKeyOperator := pubKeyOperator } := by
  unfold replayState
  split
  · exact ⟨_, CDeterministicMNStateDiff.applyToState_diff _ _⟩
  · exact ⟨e.pdmnState.pubKeyOperator, rfl⟩

/-! ### Reachable lists -/

/-- The lists of the blocks of a chain whose blocks all satisfy `Q`.  A list is the initial one, or
built from its block, or replayed from the previous list in some order of the updates. -/
inductive Reachable (E : Env) (Q : BlockContext → CBlock → CDeterministicMNList → Prop) :
    CBlockIndex → CDeterministicMNList → Prop where
  | initial (b : CBlockIndex) (below : b.nHeight < E.params.DIP0003Height ∨ b.pprev = none) :
      Reachable E Q b { blockHash := b.getBlockHash }
  | connect {ctx : BlockContext} {block : CBlock} {checkSigs : Bool} {old new : CDeterministicMNList}
      (blockHash : Uint256) (prev : Reachable E Q ctx.pindexPrev old)
      (active : E.params.DIP0003Height ≤ ctx.nHeight) (condition : Q ctx block old)
      (accepted : Accepted E ctx block checkSigs old new) :
      Reachable E Q (.child blockHash ctx.pindexPrev) (new.setBlockHash blockHash)
  | replay {ctx : BlockContext} {block : CBlock} {checkSigs : Bool} {old new l : CDeterministicMNList}
      {us : List (ℕ × CDeterministicMNStateDiff)} (blockHash : Uint256)
      (prev : Reachable E Q ctx.pindexPrev old)
      (active : E.params.DIP0003Height ≤ ctx.nHeight) (condition : Q ctx block old)
      (accepted : Accepted E ctx block checkSigs old new)
      (order : us.Perm (old.buildDiff (new.setBlockHash blockHash)).updatedMNs)
      (replayed : old.applyDiff E.toCodec (.child blockHash ctx.pindexPrev)
        { old.buildDiff (new.setBlockHash blockHash) with updatedMNs := us } = .ok l) :
      Reachable E Q (.child blockHash ctx.pindexPrev) l

variable {Q : BlockContext → CBlock → CDeterministicMNList → Prop} {b : CBlockIndex}

theorem Sound.setBlockHash (hl : Sound E l) (blockHash : Uint256) : Sound E (l.setBlockHash blockHash) :=
  ⟨hl.indexed.congr rfl rfl rfl, hl.owned⟩

section

variable (h : Accepted E ctx block checkSigs old new) (hold : Sound E old)

include h hold

theorem Accepted.sound : Sound E new := by
  obtain ⟨l₁, l₂, hrun⟩ := buildNewListFromBlock_ok hold.indexed h.built
  exact hrun.sound hold

theorem Accepted.sameIdentity : SameIdentity old new := by
  obtain ⟨l₁, l₂, hrun⟩ := buildNewListFromBlock_ok hold.indexed h.built
  exact hrun.sameIdentity hold.indexed h.fresh

variable {us : List (ℕ × CDeterministicMNStateDiff)} {blockHash : Uint256} {pindex : CBlockIndex}
  (order : us.Perm (old.buildDiff (new.setBlockHash blockHash)).updatedMNs)
  (hok : old.applyDiff E.toCodec pindex { old.buildDiff (new.setBlockHash blockHash) with updatedMNs := us } = .ok l)

include order hok

/-- The entries of a list replayed for an accepted block. -/
theorem Accepted.replayed : Indexed E.toCodec l ∧ l.mnMap = (new.updateStates old.replayState).mnMap :=
  applyDiff_get hold.indexed ((h.sound hold).setBlockHash blockHash).indexed (h.sameIdentity hold) hold.owned order hok

theorem Accepted.replayed_get {d' : CDeterministicMN} (hget : l.mnMap[p]? = some d') :
    ∃ d pubKeyOperator, new.mnMap[p]? = some d ∧
      d' = { d with pdmnState := { d.pdmnState with pubKeyOperator := pubKeyOperator } } := by
  rw [(h.replayed hold order hok).2] at hget
  obtain ⟨d, hd, rfl⟩ := get_of_get_updateStates hget
  obtain ⟨pubKeyOperator, hkey⟩ := replayState_key old d
  exact ⟨d, pubKeyOperator, hd, by rw [hkey]⟩

end

theorem Reachable.sound (hreach : Reachable E Q b l) : Sound E l := by
  induction hreach with
  | initial b _ => exact ⟨indexed_of_mnMap_empty rfl rfl rfl, by simp [Owned]⟩
  | connect blockHash _ _ _ accepted ih => exact (accepted.sound ih).setBlockHash blockHash
  | replay blockHash _ _ _ accepted order replayed ih =>
    refine ⟨(accepted.replayed ih order replayed).1, fun p d hget => ?_⟩
    obtain ⟨e, _, he, rfl⟩ := accepted.replayed_get ih order replayed hget
    exact (accepted.sound ih).owned p e he

theorem Reachable.mono {Q' : BlockContext → CBlock → CDeterministicMNList → Prop}
    (himp : ∀ ctx block l, Q ctx block l → Q' ctx block l) (hreach : Reachable E Q b l) : Reachable E Q' b l := by
  induction hreach with
  | initial b below => exact .initial b below
  | connect blockHash _ active condition accepted ih =>
    exact .connect blockHash ih active (himp _ _ _ condition) accepted
  | replay blockHash _ active condition accepted order replayed ih =>
    exact .replay blockHash ih active (himp _ _ _ condition) accepted order replayed

/-! ### A concrete environment -/

/-- The consensus parameters of a devnet; the quorum types are not used here. -/
def devnetParams : ConsensusParams where
  nSuperblockCycle := 24
  nMasternodeMinimumConfirmations := 1
  DIP0003Height := 2
  DIP0003EnforcementHeight := 2
  nHPMasternodeHeight := 1
  nPhantomPurgeHeight := 0
  llmqs := []

/-- A devnet on which V19 is active.  A signature verifies under the key it is named after, and
every address but the default one is valid. -/
def sampleEnv : Env where
  toCodec := sampleCodec
  params := devnetParams
  sha256 p h := p + h
  isV19Active _ := true
  extractDestination _ := some (.scriptHash 1)
  addrIsValid addr := addr != {}
  addrIsRoutable _ := true
  requireRoutableExternalIP := false
  isMainnet := false
  mainnetDefaultPort := 7777
  mainnetPlatformP2PPort := 26656
  mainnetPlatformHTTPPort := 443
  calcTxInputsHash _ := 0
  makeSignString _ := ""
  verifyMessage _ _ _ := true
  verifyHash _ _ _ := true
  blsVerify _ sig key _ := decide (sig.id = key.id.toNat)
  hashProUpServTx _ := 0
  hashProUpRegTx _ := 0
  hashProUpRevTx _ := 0
  checkOther _ _ := .ok ()
  getAllQuorumMembers _ _ := []
  phantomExclusions := []

def memberMN : CDeterministicMN where
  internalId := ⟨1, by decide⟩
  proTxHash := 11

def sampleScript : CScript :=
  [0x76, 0xa9, 0x14] ++ List.replicate 20 0 ++ [0x88, 0xac]

/-- The block below the first one with masternodes, and the two after it. -/
def sampleTip : CBlockIndex :=
  .child 1 (.genesis 0)

def sampleTip₂ : CBlockIndex :=
  .child 2 sampleTip

def sampleTip₃ : CBlockIndex :=
  .child 3 sampleTip₂

/-- A view in which every output is an unspent regular collateral. -/
def sampleContext (pindexPrev : CBlockIndex) : BlockContext where
  pindexPrev := pindexPrev
  view := ⟨fun _ => some ⟨⟨1000 * coin, sampleScript⟩⟩⟩
  blsLegacyScheme := false

/-- A registration with the collateral in its own first output. -/
def sampleProReg (hash : Uint256) (keyIDOwner : CKeyID) (pubKeyOperator : CBLSLazyPublicKey) : CTransaction where
  hash := hash
  vout := [⟨1000 * coin, sampleScript⟩]
  payload := .proReg (some
    { nVersion := if pubKeyOperator.isLegacy then legacyBlsVersion else basicBlsVersion
      collateralOutpoint := ⟨0, 0⟩
      keyIDOwner := keyIDOwner
      pubKeyOperator := pubKeyOperator
      keyIDVoting := keyIDOwner
      scriptPayout := sampleScript })

def sampleCoinbase (hash : Uint256) : CTransaction where
  hash := hash
  payload := .coinbase

def listAfter (E : Env) (ctx : BlockContext) (block : CBlock) (old : CDeterministicMNList) :
    CDeterministicMNList :=
  okOr (processSpecialTxsInBlock E ctx block old true) {}

theorem accepted_listAfter (hok : (processSpecialTxsInBlock E ctx block old true).isOk = true)
    (hfresh : block.vtx.all fun tx => old.mnMap[tx.hash]?.isNone) :
    Accepted E ctx block true old (listAfter E ctx block old) := by
  refine ⟨eq_ok_okOr hok, fun tx htx => ?_⟩
  simpa using List.all_eq_true.mp hfresh tx htx

theorem Reachable.next (hreach : Reachable E (fun _ _ _ => True) b old) (blockHash : Uint256) (block : CBlock)
    (hactive : E.params.DIP0003Height ≤ (sampleContext b).nHeight)
    (hok : (processSpecialTxsInBlock E (sampleContext b) block old true).isOk = true)
    (hfresh : block.vtx.all fun tx => old.mnMap[tx.hash]?.isNone) :
    Reachable E (fun _ _ _ => True) (.child blockHash b)
      ((listAfter E (sampleContext b) block old).setBlockHash blockHash) :=
  .connect blockHash hreach hactive trivial (accepted_listAfter hok hfresh)

/-- The registration of a masternode that is not banned from the start. -/
def sampleServedReg (hash : Uint256) (nType : MnType) (port : BitVec 16) (key : BitVec 383) : CTransaction where
  hash := hash
  vout := [⟨nType.params.collatAmount, sampleScript⟩]
  payload := .proReg (some
    { nVersion := basicBlsVersion
      nType := nType
      collateralOutpoint := ⟨0, 0⟩
      keyIDOwner := key.truncate 160
      pubKeyOperator := .valid false ⟨key⟩
      keyIDVoting := key.truncate 160
      addr := { net := .ipv4, port := port }
      scriptPayout := sampleScript
      platformNodeID := if nType = .highPerformance then 99 else 0
      platformP2PPort := 1
      platformHTTPPort := 2 })

def emptyNext (E : Env) (s : CBlockIndex × CDeterministicMNList) : CBlockIndex × CDeterministicMNList :=
  let blockHash := BitVec.ofNat 256 (s.1.height + 100)
  (.child blockHash s.1, (listAfter E (sampleContext s.1) ⟨[sampleCoinbase 99]⟩ s.2).setBlockHash blockHash)

def emptyBlocks (E : Env) : ℕ → CBlockIndex × CDeterministicMNList → CBlockIndex × CDeterministicMNList
  | 0, s => s
  | n + 1, s => emptyBlocks E n (emptyNext E s)

def emptyChecks (E : Env) : ℕ → CBlockIndex × CDeterministicMNList → Bool
  | 0, _ => true
  | n + 1, s =>
    (processSpecialTxsInBlock E (sampleContext s.1) ⟨[sampleCoinbase 99]⟩ s.2 true).isOk &&
      (s.2.mnMap[(99 : Uint256)]?).isNone && decide (E.params.DIP0003Height ≤ s.1.nHeight + 1) &&
      emptyChecks E n (emptyNext E s)

theorem reachable_emptyBlocks {n : ℕ} {s : CBlockIndex × CDeterministicMNList}
    (hchecks : emptyChecks E n s = true) (hs : Reachable E (fun _ _ _ => True) s.1 s.2) :
    Reachable E (fun _ _ _ => True) (emptyBlocks E n s).1 (emptyBlocks E n s).2 := by
  induction n generalizing s with
  | zero => exact hs
  | succ n ih =>
    simp only [emptyChecks, Bool.and_eq_true, decide_eq_true_eq] at hchecks
    obtain ⟨⟨⟨hok, hfresh⟩, hactive⟩, hrest⟩ := hchecks
    exact ih hrest (hs.next _ _ hactive hok (by simpa [sampleCoinbase] using hfresh))

theorem reachable_sampleTip : Reachable sampleEnv Q sampleTip { blockHash := 1 } :=
  .initial sampleTip (.inl (by decide))

/-- One masternode with an operator key in the legacy encoding. -/
def sampleBlock₂ : CBlock :=
  ⟨[sampleCoinbase 9, sampleProReg 10 3 (.valid true ⟨7⟩)]⟩

def sampleList₂ : CDeterministicMNList :=
  (listAfter sampleEnv (sampleContext sampleTip) sampleBlock₂ { blockHash := 1 }).setBlockHash 2

theorem reachable_sampleList₂ : Reachable sampleEnv (fun _ _ _ => True) sampleTip₂ sampleList₂ :=
  reachable_sampleTip.next 2 sampleBlock₂ (by decide) (by decide +kernel) (by decide +kernel)

variable {E : Env} {ctx : BlockContext} {old : CDeterministicMNList} {checkSigs : Bool}
variable {tx : CTransaction}

/-- The value of a property is held, if at all, by a masternode that is allowed to hold it. -/
theorem takenByOther_eq_false_iff {T : Type} [UniqueProperty T] {v : T}
    {allowed : CDeterministicMN → Bool} (hl : Indexed E.toCodec old) :
    takenByOther E old v allowed = false ↔
      ∀ (p : Uint256) d, old.mnMap[p]? = some d → getUniquePropertyHash E.toCodec v ∈ slots E.toCodec d →
        allowed d = true := by
  unfold takenByOther
  rw [Bool.and_eq_false_iff, hl.hasUniqueProperty_eq_false_iff]
  constructor
  · rintro (hfree | hallowed) p d hd hmem
    · exact absurd hmem (hfree p d hd)
    · rw [hl.getUniquePropertyMN_eq_some_iff.mpr ⟨p, hd, hmem⟩] at hallowed
      simpa using hallowed
  · intro hall
    cases hmn : old.getUniquePropertyMN E.toCodec v with
    | none => exact .inl (hl.getUniquePropertyMN_eq_none_iff.mp hmn)
    | some d =>
      obtain ⟨p, hd, hmem⟩ := hl.getUniquePropertyMN_eq_some_iff.mp hmn
      exact .inr (by simp [hall p d hd hmem])

/-! ### Registrations -/

variable {ptx : CProRegTx}

theorem findCollateral_ok {view : CCoinsViewCache} {dest : CTxDestination}
    {k : Option CKeyID} {o : COutPoint} (h : findCollateral E tx ptx view = .ok (dest, k, o)) :
    o = proRegCollateral tx ptx := by
  unfold findCollateral at h
  unfold proRegCollateral
  split_ifs at h with hext
  · rw [if_neg hext]
    split at h
    · cases h
    · split_ifs at h
      split at h <;> cases h
      rfl
  · rw [if_pos (not_not.mp hext)]
    split at h
    · cases h
    · split_ifs at h
      split at h <;> cases h
      rfl

/-- What a checked registration takes is free in the previous list, except that the address may
belong to the masternode with the same collateral. -/
structure ProRegUnique (E : Env) (old : CDeterministicMNList) (tx : CTransaction) (ptx : CProRegTx) :
    Prop where
  addr : ∀ (p : Uint256) d, old.mnMap[p]? = some d → getUniquePropertyHash E.toCodec ptx.addr ∈ slots E.toCodec d →
      d.collateralOutpoint = proRegCollateral tx ptx
  keyIDOwner : ∀ (p : Uint256) d, old.mnMap[p]? = some d →
    getUniquePropertyHash E.toCodec ptx.keyIDOwner ∉ slots E.toCodec d
  pubKeyOperator : ∀ (p : Uint256) d, old.mnMap[p]? = some d →
    getUniquePropertyHash E.toCodec ptx.pubKeyOperator ∉ slots E.toCodec d
  platformNodeID : ptx.nType = .highPerformance → ∀ (p : Uint256) d, old.mnMap[p]? = some d →
    getUniquePropertyHash E.toCodec ptx.platformNodeID ∉ slots E.toCodec d

theorem checkProRegUnique_ok (hl : Indexed E.toCodec old)
    (h : checkProRegUnique E ptx (proRegCollateral tx ptx) old = .ok ()) : ProRegUnique E old tx ptx := by
  simp only [checkProRegUnique, bind_eq_ok, reject_eq_ok, Bool.or_eq_false_iff,
    hl.hasUniqueProperty_eq_false_iff, takenByOther_eq_false_iff hl] at h
  obtain ⟨_, haddr, _, hkeys, hnode⟩ := h
  refine ⟨fun p d hd hmem => by simpa using haddr p d hd hmem, hkeys.1, hkeys.2, fun hp => ?_⟩
  rw [hp] at hnode
  exact hl.hasUniqueProperty_eq_false_iff.mp (by simpa using hnode)

theorem checkProReg_ok (hl : Indexed E.toCodec old)
    (h : checkProReg E ctx old checkSigs tx ptx = .ok ()) : ProRegUnique E old tx ptx := by
  simp only [checkProReg, bind_eq_ok] at h
  obtain ⟨_, -, _, -, _, -, _, -, ⟨dest, k, o⟩, hcol, _, -, _, hunique, -⟩ := h
  rw [findCollateral_ok hcol] at hunique
  exact checkProRegUnique_ok hl hunique

theorem checkProReg_nType (h : checkProReg E ctx old checkSigs tx ptx = .ok ()) : ptx.nType.isValid = true := by
  simp only [checkProReg, CProRegTx.isTriviallyValid, bind_eq_ok, reject_eq_ok] at h
  obtain ⟨_, ⟨_, -, _, htype, -⟩, -⟩ := h
  simpa using htype

/-! ### Updates -/

/-- What a checked service update takes belongs to nobody else in the previous list, and its
payload is signed with the operator key of that list. -/
structure ProUpServChecked (E : Env) (ctx : BlockContext) (old : CDeterministicMNList)
    (checkSigs : Bool) (ptx : CProUpServTx) (d : CDeterministicMN) : Prop where
  get : old.mnMap[ptx.proTxHash]? = some d
  addrIsValid : E.addrIsValid ptx.addr = true
  addr : ∀ (q : Uint256) e, old.mnMap[q]? = some e →
    getUniquePropertyHash E.toCodec ptx.addr ∈ slots E.toCodec e → q = ptx.proTxHash
  platformNodeID : ptx.nType = .highPerformance → ∀ (q : Uint256) e, old.mnMap[q]? = some e →
    getUniquePropertyHash E.toCodec ptx.platformNodeID ∈ slots E.toCodec e → q = ptx.proTxHash
  sig : checkSigs = true → E.verifyInsecure ctx.blsLegacyScheme ptx.sig
    d.pdmnState.pubKeyOperator.get (E.hashProUpServTx ptx) = true

theorem checkProUpServ_ok {ptx : CProUpServTx} (hl : Indexed E.toCodec old)
    (h : checkProUpServ E ctx old checkSigs tx ptx = .ok ()) : ∃ d, ProUpServChecked E ctx old checkSigs ptx d := by
  simp only [checkProUpServ, checkService, bind_eq_ok, getMN] at h
  obtain ⟨_, -, _, ⟨_, haddr, -⟩, _, -, h⟩ := h
  cases hget : old.mnMap[ptx.proTxHash]? with
  | none =>
    rw [hget] at h
    cases h
  | some d =>
    simp only [hget, bind_eq_ok, reject_eq_ok, takenByOther_eq_false_iff hl] at h haddr
    obtain ⟨_, htaken, _, hnode, _, -, _, -, _, -, hsig⟩ := h
    refine ⟨d, hget, by simpa using haddr, fun q e he hmem => ?_, fun hp q e he hmem => ?_, fun hon => ?_⟩
    · have hallowed := htaken q e he hmem
      rw [hl.proTxHash q e he] at hallowed
      simpa using hallowed
    · rw [hp] at hnode
      have hallowed := (takenByOther_eq_false_iff hl).mp (by simpa using hnode) q e he hmem
      rw [hl.proTxHash q e he] at hallowed
      simpa using hallowed
    · simpa [hon] using hsig

/-- What a checked registrar update takes belongs to nobody else in the previous list. -/
structure ProUpRegChecked (E : Env) (old : CDeterministicMNList) (ptx : CProUpRegTx)
    (d : CDeterministicMN) : Prop where
  get : old.mnMap[ptx.proTxHash]? = some d
  pubKeyOperator : ∀ (q : Uint256) e, old.mnMap[q]? = some e →
    getUniquePropertyHash E.toCodec ptx.pubKeyOperator ∈ slots E.toCodec e → q = ptx.proTxHash

theorem checkProUpReg_ok {ptx : CProUpRegTx} (hl : Indexed E.toCodec old)
    (h : checkProUpReg E ctx old checkSigs tx ptx = .ok ()) : ∃ d, ProUpRegChecked E old ptx d := by
  simp only [checkProUpReg, bind_eq_ok, getMN] at h
  obtain ⟨_, -, h⟩ := h
  split at h
  · cases h
  · cases hget : old.mnMap[ptx.proTxHash]? with
    | none =>
      rw [hget] at h
      cases h
    | some d =>
      simp only [hget, bind_eq_ok, reject_eq_ok, takenByOther_eq_false_iff hl] at h
      obtain ⟨_, -, _, htaken, -⟩ := h
      refine ⟨d, hget, fun q e he hmem => ?_⟩
      have hallowed := htaken q e he hmem
      rw [hl.proTxHash q e he] at hallowed
      simpa using hallowed

/-! ### Accepted blocks -/

theorem checkSpecialTx_height (hver : tx.nVersion = 3) (hpay : tx.payload ≠ .normal)
    (h : checkSpecialTx E ctx old checkSigs tx = .ok ()) : ¬ ctx.nHeight < E.params.DIP0003Height := by
  intro hheight
  simp only [checkSpecialTx, hver, hpay, hheight, ne_eq, not_true, or_self, if_false, if_true] at h
  cases h

namespace Accepted

variable {block : CBlock} {new : CDeterministicMNList}

section

variable (hacc : Accepted E ctx block checkSigs old new) (htx : tx ∈ block.vtx) (hver : tx.nVersion = 3)

include hacc htx hver

theorem checkProReg {ptx : CProRegTx} (hpay : tx.payload = .proReg (some ptx)) :
    checkProReg E ctx old checkSigs tx ptx = .ok () := by
  have h := hacc.checked htx
  simpa [checkSpecialTx, hver, hpay, checkSpecialTx_height hver (by simp [hpay]) h] using h

variable (hl : Indexed E.toCodec old)

include hl

theorem proReg {ptx : CProRegTx} (hpay : tx.payload = .proReg (some ptx)) : ProRegUnique E old tx ptx :=
  checkProReg_ok hl (hacc.checkProReg htx hver hpay)

theorem proUpServ {ptx : CProUpServTx} (hpay : tx.payload = .proUpServ (some ptx)) :
    ∃ d, ProUpServChecked E ctx old checkSigs ptx d := by
  have h := hacc.checked htx
  exact checkProUpServ_ok hl (by
    simpa [checkSpecialTx, hver, hpay, checkSpecialTx_height hver (by simp [hpay]) h] using h)

theorem proUpReg {ptx : CProUpRegTx} (hpay : tx.payload = .proUpReg (some ptx)) : ∃ d, ProUpRegChecked E old ptx d := by
  have h := hacc.checked htx
  exact checkProUpReg_ok hl (by
    simpa [checkSpecialTx, hver, hpay, checkSpecialTx_height hver (by simp [hpay]) h] using h)

end

end Accepted

end OmegaCore.Evo
