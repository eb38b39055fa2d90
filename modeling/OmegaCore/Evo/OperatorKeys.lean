import OmegaCore.Evo.Chain

/-!
Uniqueness of operator keys.  The list refuses a second masternode with the same
operator key by comparing hashes of the key's encoding, and version 1 and version 2
transactions encode the same key differently.  So two masternodes can share a key,
one in each encoding.  As long as no transaction brings in a key that another
masternode holds under the other encoding, the keys of a chain's lists are distinct
as keys.
-/

namespace OmegaCore.Evo

open Util CDeterministicMNList

/-- No two masternodes hold the same valid operator key. -/
def KeysDistinct (l : CDeterministicMNList) : Prop :=
  ∀ (p q : Uint256) d e, l.mnMap[p]? = some d → l.mnMap[q]? = some e → p ≠ q →
    d.pdmnState.pubKeyOperator.isValid = true → d.pdmnState.pubKeyOperator.get ≠ e.pdmnState.pubKeyOperator.get

/-- The transaction brings in an operator key that another masternode of the list holds under the
other encoding.  A registration replaces the masternode with its collateral, which does not count. -/
def reencodesKeyOfOther (l : CDeterministicMNList) (tx : CTransaction) : Bool :=
  match tx.payload with
  | .proReg (some ptx) => (l.forEachMN false).any fun e =>
      e.collateralOutpoint != proRegCollateral tx ptx &&
        decide (e.pdmnState.pubKeyOperator.Reencodes ptx.pubKeyOperator)
  | .proUpReg (some ptx) => (l.forEachMN false).any fun e =>
      e.proTxHash != ptx.proTxHash && decide (e.pdmnState.pubKeyOperator.Reencodes ptx.pubKeyOperator)
  | _ => false

/-- No transaction of the block does so in the list it is applied to. -/
def NoReencodedKey (E : Env) (ctx : BlockContext) (block : CBlock) (old : CDeterministicMNList) : Prop :=
  ∀ pre tx post l, block.vtx.drop 1 = pre ++ tx :: post →
    processTxs E ctx (listBeforeTxs E ctx old) pre = .ok l → reencodesKeyOfOther l tx = false

variable {E : Env} {ctx : BlockContext} {l l' old new : CDeterministicMNList} {tx : CTransaction}
variable {p q : Uint256} {d e : CDeterministicMN}

/-- What a transaction does to the operator key of a masternode it keeps. -/
theorem StateStep.pubKeyOperator {s : CDeterministicMNState} (h : StateStep E ctx tx d s) :
    s.pubKeyOperator = d.pdmnState.pubKeyOperator ∨ s.pubKeyOperator = .null ∨
      ∃ ptx, tx.payload = .proUpReg (some ptx) ∧ d.proTxHash = ptx.proTxHash ∧
        s.pubKeyOperator = ptx.pubKeyOperator := by
  cases h with
  | keep => exact .inl rfl
  | proUpServ ptx => exact .inl (proUpServState_pubKeyOperator _ _ _)
  | proUpReg ptx _ payload proTxHash =>
    rw [proUpRegState_pubKeyOperator]
    split_ifs
    · exact .inl rfl
    · exact .inr (.inr ⟨ptx, payload, proTxHash, rfl⟩)
  | proUpRev ptx => exact .inr (.inl (proUpRevState_pubKeyOperator _ _ _))
  | commitment qc base s payload update => exact .inl update.same.pubKeyOperator.symm

theorem not_reencodes (hl : Indexed E.toCodec l) (hno : reencodesKeyOfOther l tx = false) (he : l.mnMap[q]? = some e) :
    (∀ ptx, tx.payload = .proUpReg (some ptx) → q ≠ ptx.proTxHash →
      ¬ e.pdmnState.pubKeyOperator.Reencodes ptx.pubKeyOperator) ∧
    ∀ ptx, tx.payload = .proReg (some ptx) → e.collateralOutpoint ≠ proRegCollateral tx ptx →
      ¬ e.pdmnState.pubKeyOperator.Reencodes ptx.pubKeyOperator := by
  have hkey : e.proTxHash = q := hl.proTxHash q e he
  have hmem : e ∈ l.forEachMN false := hl.mem_forEachMN_iff.mpr (hkey ▸ he)
  constructor
  · intro ptx hpay hq hre
    simp only [reencodesKeyOfOther, hpay, List.any_eq_false] at hno
    exact hno e hmem (by simp [hkey, hq, hre])
  · intro ptx hpay hcol hre
    simp only [reencodesKeyOfOther, hpay, List.any_eq_false] at hno
    exact hno e hmem (by simp [hcol, hre])

/-- Where the key of an entry after a step comes from: from an entry before the step, or from the
transaction, in which case nobody else holds it under the other encoding. -/
theorem TxStep.key_origin (hstep : TxStep E ctx l tx l') (hl : InBlock E ctx l)
    (hno : reencodesKeyOfOther l tx = false) (hget : l'.mnMap[p]? = some d)
    (hvalid : d.pdmnState.pubKeyOperator.isValid = true) :
    (∃ d₀, l.mnMap[p]? = some d₀ ∧ d₀.pdmnState.pubKeyOperator = d.pdmnState.pubKeyOperator) ∨
      ∀ (q : Uint256) e, q ≠ p → l'.mnMap[q]? = some e → e.pdmnState.pubKeyOperator.isValid = true →
        ¬ e.pdmnState.pubKeyOperator.Reencodes d.pdmnState.pubKeyOperator := by
  have hl' := hstep.inBlock hl
  rcases hstep.entry hl hget with ⟨d₀, hd₀, s, hs, rfl⟩ | ⟨ptx, -, hpay, rfl, rfl, -⟩
  · rcases hs.pubKeyOperator with hkey | hkey | ⟨ptx, hpay, hp, hkey⟩
    · exact .inl ⟨d₀, hd₀, hkey.symm⟩
    · rw [show s.pubKeyOperator = .null from hkey] at hvalid
      cases hvalid
    · refine .inr fun q e hq he hvalid' => ?_
      have hq' : q ≠ ptx.proTxHash := by
        rwa [← hp, hl.indexed.proTxHash p d₀ hd₀]
      rcases hstep.entry hl he with ⟨e₀, he₀, t, ht, rfl⟩ | ⟨ptx', -, hpay', -, -, -⟩
      · have hfresh := (not_reencodes hl.indexed hno he₀).1 ptx hpay hq'
        rcases ht.pubKeyOperator with htkey | htkey | ⟨ptx', hpay', hp', htkey⟩
        · rwa [show t.pubKeyOperator = _ from htkey, show s.pubKeyOperator = _ from hkey]
        · rw [show t.pubKeyOperator = .null from htkey] at hvalid'
          cases hvalid'
        · rw [hpay] at hpay'
          cases hpay'
          rw [hl.indexed.proTxHash q e₀ he₀] at hp'
          exact absurd hp' hq'
      · rw [hpay] at hpay'
        cases hpay'
  · refine .inr fun q e hq he _ => ?_
    have hkey : (proRegEntry ctx.nHeight l tx ptx).pdmnState.pubKeyOperator = ptx.pubKeyOperator :=
      (proRegEntry_state_same _ l tx ptx).pubKeyOperator.symm
    rcases hstep.entry hl he with ⟨e₀, he₀, t, ht, rfl⟩ | ⟨_, -, -, rfl, -, -⟩
    · have hcol : e₀.collateralOutpoint ≠ proRegCollateral tx ptx :=
        hl'.indexed.collateral_ne he hget hq
      have hfresh := (not_reencodes hl.indexed hno he₀).2 ptx hpay hcol
      have ht : t = e₀.pdmnState := ht.eq_of_proReg hpay
      rwa [ht, hkey]
    · exact absurd rfl hq

theorem TxStep.keysDistinct (hstep : TxStep E ctx l tx l') (hl : InBlock E ctx l)
    (hno : reencodesKeyOfOther l tx = false) (hkeys : KeysDistinct l) : KeysDistinct l' := by
  intro p q d e hd he hpq hvalid heq
  have hl' := (hstep.inBlock hl).indexed
  have hvalid' : e.pdmnState.pubKeyOperator.isValid = true := by
    rw [CBLSLazyPublicKey.isValid, ← heq]
    exact hvalid
  have hne := hl'.pubKeyOperator_ne hd he hpq hvalid
  rcases hstep.key_origin hl hno hd hvalid with ⟨d₀, hd₀, hkey⟩ | hfresh
  · rcases hstep.key_origin hl hno he hvalid' with ⟨e₀, he₀, hkey'⟩ | hfresh'
    · exact hkeys p q d₀ e₀ hd₀ he₀ hpq (hkey ▸ hvalid) (by rw [hkey, hkey', heq])
    · exact hfresh' p d hpq hd hvalid ⟨heq, hne⟩
  · exact hfresh q e hpq.symm he hvalid' ⟨heq.symm, hne.symm⟩

theorem KeysDistinct.of_get (hkeys : KeysDistinct l)
    (hsub : ∀ (p : Uint256) d', l'.mnMap[p]? = some d' → ∃ d, l.mnMap[p]? = some d ∧
      d.pdmnState.pubKeyOperator.get = d'.pdmnState.pubKeyOperator.get) : KeysDistinct l' := by
  intro p q d' e' hd' he' hpq hvalid
  obtain ⟨d, hd, hdkey⟩ := hsub p d' hd'
  obtain ⟨e, he, hekey⟩ := hsub q e' he'
  rw [← hdkey, ← hekey]
  refine hkeys p q d e hd he hpq ?_
  rwa [CBLSLazyPublicKey.isValid, hdkey]

theorem BlockRun.keysDistinct {block : CBlock} {l₁ l₂ : CDeterministicMNList}
    (h : BlockRun E ctx block old new l₁ l₂) (hold : Indexed E.toCodec old)
    (hno : NoReencodedKey E ctx block old) (hkeys : KeysDistinct old) : KeysDistinct new := by
  have hbefore : KeysDistinct (listBeforeTxs E ctx old) := by
    refine hkeys.of_get fun p d' hd' => ?_
    obtain ⟨d, hd, rfl⟩ := listBeforeTxs_get hd'
    exact ⟨d, hd, congrArg _ (beforeState_same d).pubKeyOperator⟩
  have hl₁ : InBlock E ctx l₁ ∧ KeysDistinct l₁ :=
    processTxs_preserves_prefix (P := fun l => InBlock E ctx l ∧ KeysDistinct l)
      (fun pre tx post l l' heq hpre hP hstep =>
        ⟨hstep.inBlock hP.1, hstep.keysDistinct hP.1 (hno pre tx post l heq hpre) hP.2⟩)
      ⟨inBlock_listBeforeTxs hold, hbefore⟩ h.processed
  refine hl₁.2.of_get fun p d' hd' => ?_
  obtain ⟨d, s, hd, hsame, rfl⟩ := h.entry hold hd'
  exact ⟨d, hd, congrArg _ hsame.pubKeyOperator⟩

theorem replayState_pubKeyOperator_get (e : CDeterministicMN) :
    (old.replayState e).pubKeyOperator.get = e.pdmnState.pubKeyOperator.get := by
  unfold replayState
  split
  · rw [CDeterministicMNStateDiff.applyToState_diff]
    split_ifs with heq
    · exact CBLSLazyPublicKey.eq_iff.mp heq
    · rfl
  · rfl

/-- Along every chain without re-encoded keys, distinct masternodes hold distinct operator keys. -/
theorem keysDistinct_of_reachable (E : Env) (b : CBlockIndex) (l : CDeterministicMNList)
    (hreach : Reachable E (NoReencodedKey E) b l) : KeysDistinct l := by
  induction hreach with
  | initial b _ => simp [KeysDistinct]
  | connect blockHash prev _ condition accepted ih =>
    obtain ⟨l₁, l₂, hrun⟩ := buildNewListFromBlock_ok prev.sound.indexed accepted.built
    exact hrun.keysDistinct prev.sound.indexed condition ih
  | replay blockHash prev _ condition accepted order replayed ih =>
    obtain ⟨l₁, l₂, hrun⟩ := buildNewListFromBlock_ok prev.sound.indexed accepted.built
    have hnew := hrun.keysDistinct prev.sound.indexed condition ih
    refine hnew.of_get fun p d' hd' => ?_
    rw [(accepted.replayed prev.sound order replayed).2, get_updateStates, Option.map_eq_some_iff] at hd'
    obtain ⟨d, hd, rfl⟩ := hd'
    exact ⟨d, hd, (replayState_pubKeyOperator_get d).symm⟩

def twoRegistrations (key₁ key₂ : CBLSLazyPublicKey) : CBlock :=
  ⟨[sampleCoinbase 9, sampleProReg 10 3 key₁, sampleProReg 11 4 key₂]⟩

/-- The operator keys of the two masternodes that `twoRegistrations` adds. -/
def registeredKeys (l : CDeterministicMNList) : Option CBLSLazyPublicKey × Option CBLSLazyPublicKey :=
  (l.mnMap[(10 : Uint256)]?.map (·.pdmnState.pubKeyOperator), l.mnMap[(11 : Uint256)]?.map (·.pdmnState.pubKeyOperator))

/-- Two masternodes with different keys, one in each encoding. -/
theorem keysDistinct_twoRegistrations :
    ∃ l, Reachable sampleEnv (NoReencodedKey sampleEnv) (.child 2 sampleTip) l ∧
      registeredKeys l = (some (.valid true ⟨7⟩), some (.valid false ⟨8⟩)) ∧ KeysDistinct l := by
  obtain ⟨l, hl, hkeys⟩ := exists_of_map_eq_ok (f := registeredKeys)
    (x := processSpecialTxsInBlock sampleEnv (sampleContext sampleTip)
      (twoRegistrations (.valid true ⟨7⟩) (.valid false ⟨8⟩)) { blockHash := 1 } true)
    (b := (some (.valid true ⟨7⟩), some (.valid false ⟨8⟩))) (by decide +kernel)
  have hcond : NoReencodedKey sampleEnv (sampleContext sampleTip)
      (twoRegistrations (.valid true ⟨7⟩) (.valid false ⟨8⟩)) { blockHash := 1 } := by
    intro pre tx post l heq hpre
    rcases pre with _ | ⟨tx₁, _ | ⟨tx₂, pre⟩⟩
    · cases heq
      cases hpre
      decide +kernel
    · cases heq
      have hmap := congrArg (Except.map (reencodesKeyOfOther · (sampleProReg 11 4 (.valid false ⟨8⟩)))) hpre
      refine Except.ok.inj (hmap.symm.trans ?_)
      decide +kernel
    · simp [twoRegistrations] at heq
  have hreach : Reachable sampleEnv (NoReencodedKey sampleEnv) (.child 2 sampleTip) (l.setBlockHash 2) :=
    .connect 2 reachable_sampleTip (by decide) hcond ⟨hl, by simp⟩
  exact ⟨_, hreach, hkeys, keysDistinct_of_reachable _ _ _ hreach⟩

/-- Both encodings are injective, and yet a version 1 and a version 2 registration of one block
put the same operator key into the list twice. -/
theorem keysDistinct_fails :
    (∀ legacy, Function.Injective (sampleEnv.encode legacy)) ∧
      ∃ l, Reachable sampleEnv (fun _ _ _ => True) (.child 2 sampleTip) l ∧ ¬ KeysDistinct l := by
  constructor
  · rintro legacy ⟨a⟩ ⟨b⟩ heq
    exact congrArg G1Element.mk ((BitVec.append_left_inj _).mp heq)
  · obtain ⟨l, hl, hkeys⟩ := exists_of_map_eq_ok (f := registeredKeys)
      (x := processSpecialTxsInBlock sampleEnv (sampleContext sampleTip)
        (twoRegistrations (.valid true ⟨7⟩) (.valid false ⟨7⟩)) { blockHash := 1 } true)
      (b := (some (.valid true ⟨7⟩), some (.valid false ⟨7⟩))) (by decide +kernel)
    refine ⟨l.setBlockHash 2, .connect 2 reachable_sampleTip (by decide) trivial ⟨hl, by simp⟩, ?_⟩
    obtain ⟨h₁, h₂⟩ := Prod.mk.inj hkeys
    obtain ⟨d, hd, hdkey⟩ := Option.map_eq_some_iff.mp h₁
    obtain ⟨e, he, hekey⟩ := Option.map_eq_some_iff.mp h₂
    intro hdistinct
    refine hdistinct 10 11 d e hd he (by decide) (by rw [hdkey]; rfl) ?_
    rw [hdkey, hekey]
    rfl

end OmegaCore.Evo
