import OmegaCore.Masternode.BlockPayments

/-!
What a superblock may spend.  A coinbase with more than the block reward is accepted only if
some trigger for the height has the votes that are required.  The best trigger has at least as
many, and the excess is bounded by its payments, which are bounded by the limit of the height.
-/

namespace OmegaCore.Governance

open Util Evo Option

variable {E : BudgetEnv} {node : Node} {g g' : CGovernanceManager} {nBlockHeight : Int}

/-- `nAbsVoteReq`: the votes that a signal needs. -/
def absVoteReq (E : BudgetEnv) (node : Node) : Int :=
  max E.nGovernanceMinQuorum ((node.listAtChainTip.getValidWeightedMNsCount : Int) / 10)

/-- The flag is computed afresh if there are votes at all. -/
theorem CGovernanceObject.fCachedFunding_update (hcount : node.listAtChainTip.getValidWeightedMNsCount ≠ 0)
    (obj : CGovernanceObject) :
    (obj.updateSentinelVariables E node).fCachedFunding = true ↔
      absVoteReq E node ≤ obj.getAbsoluteYesCount E node .funding := by
  have hne : ¬ (node.listAtChainTip.getValidWeightedMNsCount : Int) = 0 := by exact_mod_cast hcount
  unfold updateSentinelVariables
  simp only [if_neg hne, decide_eq_true_eq]
  exact Iff.rfl

namespace CGovernanceManager

/-- The absolute yes count on funding of the object of a trigger. -/
def fundingVotes (E : BudgetEnv) (node : Node) (g : CGovernanceManager) (sb : CSuperblock) : Option Int :=
  (g.findGovernanceObject sb.nGovObjHash).map fun pObj => pObj.getAbsoluteYesCount E node .funding

theorem SameVotes.fundingVotes (h : SameVotes g g') (sb : CSuperblock) :
    g'.fundingVotes E node sb = g.fundingVotes E node sb := by
  have hvotes := congrFun h.votesOn sb.nGovObjHash
  unfold CGovernanceManager.votesOn at hvotes
  unfold CGovernanceManager.fundingVotes
  cases hfound : g.findGovernanceObject sb.nGovObjHash with
  | none =>
    rw [hfound, map_none, map_eq_none_iff] at hvotes
    rw [hvotes]
  | some pObj =>
    rw [hfound, map_some, Option.map_eq_some_iff] at hvotes
    obtain ⟨pObj', hfound', hsame⟩ := hvotes
    rw [hfound', map_some, map_some, CGovernanceObject.getAbsoluteYesCount_congr hsame]

/-- A triggered superblock has a trigger for the height with the required votes. -/
theorem exists_of_findTriggered (hcount : node.listAtChainTip.getValidWeightedMNsCount ≠ 0)
    (triggers : List CSuperblock) (h : (g.findTriggered E node nBlockHeight triggers).1 = true) :
    ∃ sb ∈ triggers, sb.nBlockHeight = nBlockHeight ∧
      ∃ votes, g.fundingVotes E node sb = some votes ∧ absVoteReq E node ≤ votes := by
  induction triggers generalizing g with
  | nil => cases h
  | cons pSuperblock rest ih =>
    unfold findTriggered at h
    split at h
    · obtain ⟨sb, hmem, hsb⟩ := ih h
      exact ⟨sb, List.mem_cons_of_mem _ hmem, hsb⟩
    · next pObj hfound =>
      dsimp only at h
      split_ifs at h with hheight hfunding
      · obtain ⟨sb, hmem, hsb⟩ := ih h
        exact ⟨sb, List.mem_cons_of_mem _ hmem, hsb⟩
      · refine ⟨pSuperblock, List.mem_cons_self, (not_not.mp hheight).symm,
          pObj.getAbsoluteYesCount E node .funding, ?_, (pObj.fCachedFunding_update hcount).mp hfunding⟩
        rw [CGovernanceManager.fundingVotes, hfound, map_some]
      · -- the flags that were set on the way do not change the votes
        obtain ⟨sb, hmem, hat, votes, hvotes, hreq⟩ := ih h
        rw [(sameVotes_update hfound).fundingVotes] at hvotes
        exact ⟨sb, List.mem_cons_of_mem _ hmem, hat, votes, hvotes, hreq⟩

/-! ### The best trigger -/

theorem betterTrigger_cases (best : Int × Option CSuperblock) (sb : CSuperblock) :
    (g.betterTrigger E node nBlockHeight best sb = best ∧
      ∀ votes, sb.nBlockHeight = nBlockHeight → g.fundingVotes E node sb = some votes → votes ≤ best.1) ∨
    ∃ votes, g.fundingVotes E node sb = some votes ∧ best.1 < votes ∧
      g.betterTrigger E node nBlockHeight best sb = (votes, some sb) := by
  unfold betterTrigger CGovernanceManager.fundingVotes
  by_cases hheight : nBlockHeight ≠ sb.nBlockHeight
  · rw [if_pos hheight]
    exact .inl ⟨rfl, fun _ h => absurd h.symm hheight⟩
  · rw [if_neg hheight]
    cases g.findGovernanceObject sb.nGovObjHash with
    | none => exact .inl ⟨rfl, fun _ _ h => by cases h⟩
    | some pObj =>
      dsimp only
      split_ifs with hbetter
      · exact .inr ⟨_, rfl, hbetter, rfl⟩
      · refine .inl ⟨rfl, fun votes _ h => ?_⟩
        cases h
        exact not_lt.mp hbetter

/-- The loop of `GetBestSuperblock` ends with a trigger that has the most votes. -/
theorem foldl_betterTrigger {triggers : List CSuperblock} {best last : Int × Option CSuperblock}
    (hlast : triggers.foldl (g.betterTrigger E node nBlockHeight) best = last) :
    best.1 ≤ last.1 ∧
    (∀ sb ∈ triggers, ∀ votes, sb.nBlockHeight = nBlockHeight → g.fundingVotes E node sb = some votes → votes ≤ last.1) ∧
    (last = best ∨ ∃ sb, last.2 = some sb ∧ g.fundingVotes E node sb = some last.1) := by
  induction triggers generalizing best with
  | nil =>
    cases hlast
    exact ⟨le_refl _, fun _ h => absurd h List.not_mem_nil, .inl rfl⟩
  | cons sb rest ih =>
    obtain ⟨hle, hmost, hend⟩ := ih hlast
    rcases betterTrigger_cases (g := g) (E := E) best sb with ⟨hsame, hless⟩ | ⟨votes, hvotes, hmore, hnew⟩
    · rw [hsame] at hle hend
      refine ⟨hle, fun sb' hmem votes hheight hvotes => ?_, hend⟩
      rcases List.mem_cons.mp hmem with rfl | hmem
      · exact (hless votes hheight hvotes).trans hle
      · exact hmost sb' hmem votes hheight hvotes
    · rw [hnew] at hle hend
      refine ⟨hmore.le.trans hle, fun sb' hmem votes' hheight hvotes' => ?_, .inr ?_⟩
      · rcases List.mem_cons.mp hmem with rfl | hmem
        · cases hvotes.symm.trans hvotes'
          exact hle
        · exact hmost sb' hmem votes' hheight hvotes'
      · rcases hend with hend | hend
        · rw [hend]
          exact ⟨sb, rfl, hvotes⟩
        · exact hend

/-- The best trigger has at least the votes of any other for the height. -/
theorem le_of_getBestSuperblock {best : CSuperblock} (hbest : g.getBestSuperblock E node nBlockHeight = some best)
    {sb : CSuperblock} (hmem : sb ∈ g.getActiveTriggers) (hheight : sb.nBlockHeight = nBlockHeight) {votes : Int}
    (hvotes : g.fundingVotes E node sb = some votes) :
    ∃ most, g.fundingVotes E node best = some most ∧ votes ≤ most := by
  unfold getBestSuperblock at hbest
  dsimp only at hbest
  split_ifs at hbest with hvalid hpos
  obtain ⟨-, hmost, hend⟩ := @foldl_betterTrigger E node g nBlockHeight g.getActiveTriggers (0, none) _ rfl
  rcases hend with hend | ⟨sb', hsome, hvotes'⟩
  · rw [hend] at hpos
    exact absurd hpos (lt_irrefl 0)
  · cases hbest.symm.trans hsome
    exact ⟨_, hvotes', hmost sb hmem votes hheight hvotes⟩

end CGovernanceManager

end OmegaCore.Governance

namespace OmegaCore.Evo.CDeterministicMNList

theorem getValidWeightedMNsCount_ne_zero {l : CDeterministicMNList}
    (h : ∃ (p : Uint256) (d : CDeterministicMN), l.mnMap[p]? = some d ∧ isMNValidEntry d = true ∧ d.nType.isValid = true) :
    l.getValidWeightedMNsCount ≠ 0 := by
  obtain ⟨p, d, hget, hvalid, htype⟩ := h
  have hmem : d ∈ l.forEachMN true := List.mem_filter.mpr ⟨(Util.Map.mem_values _ d).mpr ⟨p, hget⟩, hvalid⟩
  have hweight := MnType.votingWeight_pos htype
  have hle := List.le_sum_of_mem (List.mem_map_of_mem (f := (·.nType.params.votingWeight)) hmem)
  rw [getValidWeightedMNsCount_eq_sum]
  omega

end OmegaCore.Evo.CDeterministicMNList

namespace OmegaCore.Masternode

open Util Evo Governance

variable {E : BudgetEnv} {node : Node} {g : CGovernanceManager} {txNew : CTransaction}
variable {nBlockHeight blockReward valueOut : Int}

/-- What is accepted above the block reward is a superblock whose best trigger has the required
votes, and the excess is covered by its payments. -/
theorem isBlockValueValid_excess (hsynced : node.isSynced = true) (hgovernance : node.fDisableGovernance = false)
    (hmasternode : ∃ (p : Uint256) (d : CDeterministicMN), node.listAtChainTip.mnMap[p]? = some d ∧
      CDeterministicMNList.isMNValidEntry d = true ∧ d.nType.isValid = true)
    (haccept : (isBlockValueValid E node g txNew nBlockHeight blockReward).1 = .ok (.ok ()))
    (hvalue : txNew.getValueOut = .ok valueOut) (hexcess : blockReward < valueOut) :
    CSuperblock.isValidBlockHeight E nBlockHeight = true ∧ node.areSuperblocksEnabled = true ∧
    ∃ best pObj, g.getBestSuperblock E node nBlockHeight = some best ∧
      g.findGovernanceObject best.nGovObjHash = some pObj ∧
      max E.nGovernanceMinQuorum ((node.listAtChainTip.getValidWeightedMNsCount : Int) / 10) ≤
        pObj.getAbsoluteYesCount E node .funding ∧
      valueOut - blockReward ≤ best.getPaymentsTotalAmount ∧
      best.getPaymentsTotalAmount ≤ CSuperblock.getPaymentsLimit E nBlockHeight := by
  have hcount := CDeterministicMNList.getValidWeightedMNsCount_ne_zero hmasternode
  obtain ⟨_, hvalue', hlimits⟩ := (isBlockValueValid_iff hsynced).mp haccept
  cases hvalue.symm.trans hvalue'
  by_cases hheight : CSuperblock.isValidBlockHeight E nBlockHeight = true
  swap
  · rw [if_neg hheight] at hlimits
    omega
  rw [if_pos hheight] at hlimits
  obtain ⟨hsuper, hreward⟩ := hlimits.2 hgovernance
  obtain ⟨henabled, htriggered⟩ : Triggered E node g nBlockHeight := by
    by_contra hnot
    have hle := hreward hnot
    omega
  obtain ⟨best, hbest, hvalid⟩ := isValid_iff_best.mp (hsuper ⟨henabled, htriggered⟩)
  refine ⟨hheight, henabled, ?_⟩
  -- the trigger that has set the flag
  unfold CGovernanceManager.isSuperblockTriggered at htriggered
  rw [hheight, Bool.not_true, if_neg Bool.false_ne_true] at htriggered
  obtain ⟨sb, hmem, hat, votes, hvotes, hreq⟩ := CGovernanceManager.exists_of_findTriggered hcount _ htriggered
  obtain ⟨most, hmost, hle⟩ := CGovernanceManager.le_of_getBestSuperblock hbest hmem hat hvotes
  obtain ⟨pObj, hfound, rfl⟩ := Option.map_eq_some_iff.mp hmost
  obtain ⟨-, -, hlimit, -, -, hreward, -⟩ := CSuperblock.isValid_iff.mp hvalid
  have htotal := (getValueOut_eq_ok.mp hvalue).2.1
  exact ⟨best, pObj, hbest, hfound, hreq.trans hle, by omega, hlimit⟩

/-- The trigger for ten coins with the vote of the only masternode. -/
theorem isBlockValueValid_excess_voted :
    27 * coin / 2 < 47 * coin / 2 ∧
    ∃ best pObj, (votedTrigger [CSuperblock.samplePayment]).getBestSuperblock CSuperblock.devnetBudget votingNode
        4200 = some best ∧
      (votedTrigger [CSuperblock.samplePayment]).findGovernanceObject best.nGovObjHash = some pObj ∧
      1 ≤ pObj.getAbsoluteYesCount CSuperblock.devnetBudget votingNode .funding ∧
      10 * coin ≤ best.getPaymentsTotalAmount := by
  have hexcess : 27 * coin / 2 < 47 * coin / 2 := by decide
  have hvoter : (votingList.mnMap[(11 : Uint256)]?).any
      (fun d => CDeterministicMNList.isMNValidEntry d && d.nType.isValid) = true := by decide +kernel
  obtain ⟨d, hget, hvalid⟩ := (Option.any_eq_true _ _).mp hvoter
  obtain ⟨-, -, best, pObj, hbest, hfound, hvotes, hpaid, -⟩ :=
    @isBlockValueValid_excess CSuperblock.devnetBudget votingNode (votedTrigger [CSuperblock.samplePayment])
      (filledCoinbase CSuperblock.devnetBudget votingNode (votedTrigger [CSuperblock.samplePayment]) 31 [0x51] 4200
        (27 * coin / 2)) 4200 (27 * coin / 2) (47 * coin / 2) rfl rfl
      ⟨11, d, hget, Bool.and_eq_true_iff.mp hvalid⟩ (by decide +kernel) (by decide +kernel) hexcess
  exact ⟨hexcess, best, pObj, hbest, hfound, hvotes, hpaid⟩

end OmegaCore.Masternode
