import Mathlib.Algebra.Order.Group.Multiset
import Mathlib.Tactic.NormNum
import OmegaCore.Governance.Superblock
import OmegaCore.Util.Double

/-!
The payments of a block.  The coinbase pays the miner, the masternode that waits longest
and, if a superblock is triggered, the payments of the best trigger.  `IsBlockPayeeValid`
looks for the last two independently, so outputs that coincide are found in one place.
`FillBlockPayments` does not look at the limit of a superblock, and adds nothing if a trigger
is flagged as funded though none has votes; any other coinbase it builds is accepted.
-/

namespace OmegaCore.Masternode

open Util Evo Governance

section

variable (E : BudgetEnv) (node : Node)

/-! ### The masternode -/

/-- The share of the masternode: `0.80`, `0.50` or `0.30` of the block value, in double precision. -/
def getMasternodePayment (nHeight blockValue : Int) : Int :=
  if nHeight > 66000 then mulDouble blockValue 5404319552844595 54
  else if nHeight > 33000 then mulDouble blockValue 1 1
  else mulDouble blockValue 3602879701896397 52

/-- The operator's part of the reward, in hundredths of a percent. -/
def operatorReward (dmnPayee : CDeterministicMN) (masternodeReward : Int) : Int :=
  if dmnPayee.nOperatorReward ≠ 0 ∧ dmnPayee.pdmnState.scriptOperatorPayout ≠ [] then
    (masternodeReward * dmnPayee.nOperatorReward).tdiv 10000
  else 0

def emplaceTxOut (nValue : Int) (scriptPubKey : CScript) : List CTxOut :=
  if nValue > 0 then [⟨nValue, scriptPubKey⟩] else []

/-- The outputs of a payee: the owner's share and the operator's. -/
def payeeTxOuts (dmnPayee : CDeterministicMN) (masternodeReward : Int) : List CTxOut :=
  let operatorReward := operatorReward dmnPayee masternodeReward
  emplaceTxOut (masternodeReward - operatorReward) dmnPayee.pdmnState.scriptPayout ++
    emplaceTxOut operatorReward dmnPayee.pdmnState.scriptOperatorPayout

variable (g : CGovernanceManager) (txNew : CTransaction) (nBlockHeight blockReward : Int)

/-- The outputs of the masternode a block has to pay, if there is one. -/
def getBlockTxOuts : Option (List CTxOut) :=
  let pindex := node.chainActive (nBlockHeight - 1)
  ((node.getListForBlock pindex).getMNPayee E.toEnv pindex).map fun dmnPayee =>
    payeeTxOuts dmnPayee (getMasternodePayment nBlockHeight blockReward)

def isTransactionValid : Bool :=
  if !E.isDIP3Enforced nBlockHeight then true
  else
    match getBlockTxOuts E node nBlockHeight blockReward with
    | none => true
    | some voutMasternodePayments =>
      voutMasternodePayments.all fun txout => txNew.vout.any fun txout2 => txout == txout2

/-! ### The checks of a block -/

def checkLimit (nBlockHeight actual limit : Int) (why : String) : Except String Unit :=
  if actual ≤ limit then .ok ()
  else .error s!"coinbase pays too much at height {nBlockHeight} (actual={actual} vs limit={limit}), {why}"

def isOldBudgetBlockValueValid (valueOut nBlockHeight blockReward : Int) : Except String Unit :=
  if nBlockHeight < E.nBudgetPaymentsStartBlock then
    .error s!"Incorrect block {nBlockHeight}, old budgets are not activated yet"
  else if nBlockHeight ≥ E.nSuperblockStartBlock then
    .error s!"Incorrect block {nBlockHeight}, old budgets are no longer active"
  else
    let nOffset := nBlockHeight.tmod E.nBudgetPaymentsCycleBlocks
    if nBlockHeight ≥ E.nBudgetPaymentsStartBlock ∧ nOffset < E.nBudgetPaymentsWindowBlocks then
      if node.isSynced then
        checkLimit nBlockHeight valueOut blockReward "exceeded block reward, old budgets are disabled"
      else .ok ()
    else
      checkLimit nBlockHeight valueOut blockReward "exceeded block reward, block is not in old budget cycle window"

/-- The part of `IsBlockValueValid` that looks at superblocks. -/
def isSuperblockValueValid
    (valueOut nBlockHeight blockReward : Int) : Except String (Except String Unit) × CGovernanceManager :=
  if !node.areSuperblocksEnabled then
    (.ok (checkLimit nBlockHeight valueOut blockReward "exceeded block reward, superblocks are disabled"), g)
  else
    match g.isSuperblockTriggered E node nBlockHeight with
    | (false, g) =>
      (.ok (checkLimit nBlockHeight valueOut blockReward "exceeded block reward, no triggered superblock detected"), g)
    | (true, g) =>
      match g.isValid E node txNew nBlockHeight blockReward with
      | .error e => (.error e, g)
      | .ok true => (.ok (.ok ()), g)
      | .ok false => (.ok (.error s!"invalid superblock detected at height {nBlockHeight}"), g)

/-- The amount of the coinbase is right.  An exception of `GetValueOut` is the outer error. -/
def isBlockValueValid : Except String (Except String Unit) × CGovernanceManager :=
  match txNew.getValueOut with
  | .error e => (.error e, g)
  | .ok valueOut =>
    if nBlockHeight < E.nBudgetPaymentsStartBlock then
      (.ok (checkLimit nBlockHeight valueOut blockReward "exceeded block reward, old budgets are not activated yet"), g)
    else if nBlockHeight < E.nSuperblockStartBlock then
      (.ok (isOldBudgetBlockValueValid E node valueOut nBlockHeight blockReward), g)
    else
      let nSuperblockMaxValue := blockReward + CSuperblock.getPaymentsLimit E nBlockHeight
      if !CSuperblock.isValidBlockHeight E nBlockHeight then
        (.ok (checkLimit nBlockHeight valueOut blockReward
          "exceeded block reward, only regular blocks are allowed at this height"), g)
      else
        match checkLimit nBlockHeight valueOut nSuperblockMaxValue "exceeded superblock max value" with
        | .error strErrorRet => (.ok (.error strErrorRet), g)
        | .ok () =>
          if !node.isSynced || node.fDisableGovernance then (.ok (.ok ()), g)
          else isSuperblockValueValid E node g txNew valueOut nBlockHeight blockReward

def isBlockPayeeValid : Except String Bool × CGovernanceManager :=
  if node.fDisableGovernance then (.ok true, g)
  else if nBlockHeight < E.nSuperblockStartBlock then (.ok true, g)
  else
    let masternodePaid := isTransactionValid E node txNew nBlockHeight blockReward
    if node.areSuperblocksEnabled then
      match g.isSuperblockTriggered E node nBlockHeight with
      | (false, g) => (.ok masternodePaid, g)
      | (true, g) =>
        match g.isValid E node txNew nBlockHeight blockReward with
        | .error e => (.error e, g)
        | .ok true => (.ok masternodePaid, g)
        | .ok false => (.ok false, g)
    else (.ok masternodePaid, g)

/-! ### The coinbase of a new block -/

structure FilledPayments where
  txNew : CTransaction
  voutMasternodePaymentsRet : List CTxOut
  voutSuperblockPaymentsRet : List CTxOut

/-- The payments of the best trigger, if superblocks are enabled and one is triggered. -/
def superblockPayments (nBlockHeight : Int) : List CTxOut × CGovernanceManager :=
  if node.areSuperblocksEnabled then
    match g.isSuperblockTriggered E node nBlockHeight with
    | (true, g) => ((g.getSuperblockPayments E node nBlockHeight).getD [], g)
    | (false, g) => ([], g)
  else ([], g)

/-- Add the masternode and superblock payments; the former are taken from the miner's output. -/
def fillBlockPayments : FilledPayments × CGovernanceManager :=
  let (voutSuperblockPaymentsRet, g) := superblockPayments E node g nBlockHeight
  let voutMasternodePaymentsRet := (getBlockTxOuts E node nBlockHeight blockReward).getD []
  let vout := txNew.vout ++ voutMasternodePaymentsRet ++ voutSuperblockPaymentsRet
  let takeFrom := fun miner : CTxOut =>
    { miner with
      nValue := voutMasternodePaymentsRet.foldl (fun nValue txout => nValue - txout.nValue) miner.nValue }
  (⟨{ txNew with vout := vout.modifyHead takeFrom }, voutMasternodePaymentsRet, voutSuperblockPaymentsRet⟩, g)

end

open List CSuperblock CGovernanceManager

variable {E : BudgetEnv} {node : Node} {g : CGovernanceManager} {txNew : CTransaction}
variable {nBlockHeight blockReward : Int}

/-! ### Outputs that are looked for independently -/

/-- The fewest outputs with some members and with a list whose equal neighbours are found in one place. -/
def leastOutputs (members list : List CTxOut) : List CTxOut :=
  list.destutter (· ≠ ·) ++ (members.filter (· ∉ list)).dedup

theorem leastOutputs_subperm {members list vout : List CTxOut} (hlist : (list.destutter (· ≠ ·)).Sublist vout)
    (hmembers : ∀ o ∈ members, o ∈ vout) : (leastOutputs members list).Subperm vout := by
  refine subperm_ext_iff.mpr fun o ho => ?_
  rw [leastOutputs, count_append]
  by_cases hmem : o ∈ list
  · have hnone : (members.filter (· ∉ list)).dedup.count o = 0 := by
      refine count_eq_zero_of_not_mem fun h => ?_
      rw [mem_dedup, mem_filter, decide_eq_true_eq] at h
      exact h.2 hmem
    rw [hnone, add_zero]
    exact hlist.count_le o
  · have hnone : (list.destutter (· ≠ ·)).count o = 0 :=
      count_eq_zero_of_not_mem fun h => hmem ((destutter_sublist _ _).subset h)
    rcases mem_append.mp ho with ho | ho
    · exact absurd ((destutter_sublist _ _).subset ho) hmem
    · rw [mem_dedup, mem_filter] at ho
      have hone := nodup_iff_count_le_one.mp (nodup_dedup (members.filter (· ∉ list))) o
      have hpos : 0 < vout.count o := count_pos_iff.mpr (hmembers o ho.1)
      omega

/-- No two outputs are found in one place. -/
structure Apart (members list : List CTxOut) : Prop where
  nodup : members.Nodup
  disjoint : List.Disjoint members list
  isChain : list.IsChain (· ≠ ·)

variable {members list : List CTxOut}

theorem Apart.leastOutputs_eq (h : Apart members list) : leastOutputs members list = list ++ members := by
  have hfilter : members.filter (· ∉ list) = members :=
    filter_eq_self.mpr fun o ho => decide_eq_true (h.disjoint ho)
  rw [leastOutputs, destutter_of_isChain _ _ h.isChain, hfilter, h.nodup.dedup]

theorem apart_of_subperm (h : (members ++ list).Subperm (leastOutputs members list)) : Apart members list := by
  have hlength := h.length_le
  rw [leastOutputs, length_append, length_append] at hlength
  have hlist := destutter_sublist (· ≠ ·) list
  have hfilter : (members.filter (· ∉ list)).Sublist members := filter_sublist
  have hdedup := dedup_sublist (members.filter (· ∉ list))
  have h₁ := hlist.length_le
  have h₂ := hfilter.length_le
  have h₃ := hdedup.length_le
  have heqfilter := hfilter.eq_of_length (by omega)
  have heqdedup := hdedup.eq_of_length (by omega)
  have hnodup := nodup_dedup (members.filter (· ∉ list))
  refine ⟨?_, fun o ho hmem => ?_, ?_⟩
  · rwa [heqdedup, heqfilter] at hnodup
  · rw [← heqfilter, mem_filter, decide_eq_true_eq] at ho
    exact ho.2 hmem
  · exact (destutter_eq_self_iff _ _).mp (hlist.eq_of_length (by omega))

theorem subperm_of_subperm_append {l vout fillers : List CTxOut} (h : l.Subperm (vout ++ fillers))
    (hdisjoint : List.Disjoint l fillers) : l.Subperm vout := by
  refine subperm_ext_iff.mpr fun o ho => ?_
  have hcount := h.count_le o
  rw [count_append, count_eq_zero_of_not_mem (hdisjoint ho), add_zero] at hcount
  exact hcount

/-! ### The expected outputs -/

def masternodeOutputs (E : BudgetEnv) (node : Node) (nBlockHeight blockReward : Int) : List CTxOut :=
  (getBlockTxOuts E node nBlockHeight blockReward).getD []

def superblockOutputs (E : BudgetEnv) (node : Node) (g : CGovernanceManager) (nBlockHeight : Int) : List CTxOut :=
  (superblockPayments E node g nBlockHeight).1

def Triggered (E : BudgetEnv) (node : Node) (g : CGovernanceManager) (nBlockHeight : Int) : Prop :=
  node.areSuperblocksEnabled = true ∧ (g.isSuperblockTriggered E node nBlockHeight).1 = true

theorem superblockOutputs_of_triggered (h : Triggered E node g nBlockHeight) :
    superblockOutputs E node g nBlockHeight =
      ((g.getBestSuperblock E node nBlockHeight).map outputs).getD [] := by
  have hsame := isSuperblockTriggered_sameVotes E node g nBlockHeight
  unfold superblockOutputs superblockPayments
  rw [if_pos h.1]
  cases hresult : g.isSuperblockTriggered E node nBlockHeight with
  | mk triggered g' =>
    have htriggered : triggered = true := by
      have := h.2
      rwa [hresult] at this
    rw [hresult] at hsame
    rw [htriggered]
    dsimp only
    rw [getSuperblockPayments, hsame.getBestSuperblock]
    rfl

theorem superblockOutputs_of_best (h : Triggered E node g nBlockHeight) {sb : CSuperblock}
    (hbest : g.getBestSuperblock E node nBlockHeight = some sb) :
    superblockOutputs E node g nBlockHeight = sb.outputs := by
  rw [superblockOutputs_of_triggered h, hbest]
  rfl

theorem superblockOutputs_of_not_triggered (h : ¬ Triggered E node g nBlockHeight) :
    superblockOutputs E node g nBlockHeight = [] := by
  unfold superblockOutputs superblockPayments
  split_ifs with henabled
  · cases hresult : g.isSuperblockTriggered E node nBlockHeight with
    | mk triggered g' =>
      cases triggered with
      | true => exact absurd ⟨henabled, by rw [hresult]⟩ h
      | false => rfl
  · rfl

variable {o : CTxOut}

theorem emplaceTxOut_pos {nValue : Int} {scriptPubKey : CScript}
    (h : o ∈ emplaceTxOut nValue scriptPubKey) : 0 < o.nValue := by
  unfold emplaceTxOut at h
  split_ifs at h with hpos
  · rw [mem_singleton.mp h]
    exact hpos
  · cases h

theorem payeeTxOuts_pos {dmnPayee : CDeterministicMN} {masternodeReward : Int}
    (h : o ∈ payeeTxOuts dmnPayee masternodeReward) : 0 < o.nValue := by
  rcases mem_append.mp h with h | h
  · exact emplaceTxOut_pos h
  · exact emplaceTxOut_pos h

theorem masternodeOutputs_pos (h : o ∈ masternodeOutputs E node nBlockHeight blockReward) : 0 < o.nValue := by
  unfold masternodeOutputs getBlockTxOuts at h
  dsimp only at h
  cases hpayee : (node.getListForBlock (node.chainActive (nBlockHeight - 1))).getMNPayee E.toEnv
      (node.chainActive (nBlockHeight - 1)) with
  | none =>
    rw [hpayee] at h
    cases h
  | some dmnPayee =>
    rw [hpayee] at h
    exact payeeTxOuts_pos h

theorem isTransactionValid_iff (henforced : E.isDIP3Enforced nBlockHeight = true) :
    isTransactionValid E node txNew nBlockHeight blockReward = true ↔
      ∀ o ∈ masternodeOutputs E node nBlockHeight blockReward, o ∈ txNew.vout := by
  unfold isTransactionValid masternodeOutputs
  rw [henforced]
  cases getBlockTxOuts E node nBlockHeight blockReward with
  | none => simp
  | some vout => simp

/-! ### Accepted coinbases -/

/-- What the check of the payees asks of a coinbase. -/
theorem isBlockPayeeValid_iff :
    (isBlockPayeeValid E node g txNew nBlockHeight blockReward).1 = .ok true ↔
      (node.fDisableGovernance = false → E.nSuperblockStartBlock ≤ nBlockHeight →
        (Triggered E node g nBlockHeight → g.isValid E node txNew nBlockHeight blockReward = .ok true) ∧
        isTransactionValid E node txNew nBlockHeight blockReward = true) := by
  have hsame := isSuperblockTriggered_sameVotes E node g nBlockHeight
  unfold isBlockPayeeValid Triggered
  split_ifs with hgovernance hstart henabled
  · simp [hgovernance]
  · simp [hstart]
  · simp only [hgovernance, henabled, not_lt.mp hstart]
    cases hresult : g.isSuperblockTriggered E node nBlockHeight with
    | mk triggered g' =>
      rw [hresult] at hsame
      cases triggered with
      | false => simp
      | true =>
        dsimp only
        rw [hsame.isValid]
        cases hvalid : g.isValid E node txNew nBlockHeight blockReward with
        | error e => simp
        | ok b => cases b <;> simp
  · simp [hgovernance, henabled, not_lt.mp hstart]

/-- A coinbase can be accepted at all: if a superblock is triggered, the payments of the best one are within
the limits. -/
def Payable (E : BudgetEnv) (node : Node) (g : CGovernanceManager) (nBlockHeight blockReward : Int) : Prop :=
  Triggered E node g nBlockHeight → ∃ sb, g.getBestSuperblock E node nBlockHeight = some sb ∧
    sb.getPaymentsTotalAmount ≤ getPaymentsLimit E nBlockHeight ∧
    valueOf (leastOutputs (masternodeOutputs E node nBlockHeight blockReward) sb.outputs) ≤ maxMoney ∧
    valueOf (leastOutputs (masternodeOutputs E node nBlockHeight blockReward) sb.outputs) ≤
      blockReward + sb.getPaymentsTotalAmount

theorem isValid_iff_best : g.isValid E node txNew nBlockHeight blockReward = .ok true ↔
    ∃ sb, g.getBestSuperblock E node nBlockHeight = some sb ∧ sb.isValid E txNew nBlockHeight blockReward = .ok true := by
  unfold CGovernanceManager.isValid
  cases g.getBestSuperblock E node nBlockHeight <;> simp

section

variable (hgovernance : node.fDisableGovernance = false) (henforced : E.isDIP3Enforced nBlockHeight = true)
  (hstart : E.nSuperblockStartBlock ≤ nBlockHeight)
  (haccepted : (isBlockPayeeValid E node g txNew nBlockHeight blockReward).1 = .ok true)

include hgovernance henforced hstart haccepted

/-- What is expected of an accepted coinbase, one output at a time. -/
theorem leastOutputs_subperm_of_accepted : (leastOutputs (masternodeOutputs E node nBlockHeight blockReward)
      (superblockOutputs E node g nBlockHeight)).Subperm txNew.vout := by
  obtain ⟨hvalid, hpaid⟩ := isBlockPayeeValid_iff.mp haccepted hgovernance hstart
  refine leastOutputs_subperm ?_ ((isTransactionValid_iff henforced).mp hpaid)
  by_cases htriggered : Triggered E node g nBlockHeight
  · obtain ⟨sb, hbest, hsb⟩ := isValid_iff_best.mp (hvalid htriggered)
    rw [superblockOutputs_of_best htriggered hbest]
    exact (isValid_iff.mp hsb).2.2.2.2.2.2
  · rw [superblockOutputs_of_not_triggered htriggered]
    exact nil_sublist _

theorem payable_of_accepted : Payable E node g nBlockHeight blockReward := by
  intro htriggered
  have hleast := leastOutputs_subperm_of_accepted hgovernance henforced hstart haccepted
  obtain ⟨sb, hbest, hvalid⟩ :=
    isValid_iff_best.mp ((isBlockPayeeValid_iff.mp haccepted hgovernance hstart).1 htriggered)
  rw [superblockOutputs_of_best htriggered hbest] at hleast
  obtain ⟨-, -, hlimit, hpos, hmoney, hreward, -⟩ := isValid_iff.mp hvalid
  have hvalue := valueOf_le_of_subperm hleast hpos
  exact ⟨sb, hbest, hlimit, hvalue.trans hmoney, hvalue.trans hreward⟩

end

theorem superblockOutputs_nonneg (h : o ∈ superblockOutputs E node g nBlockHeight) : 0 ≤ o.nValue := by
  by_cases htriggered : Triggered E node g nBlockHeight
  · rw [superblockOutputs_of_triggered htriggered] at h
    cases hbest : g.getBestSuperblock E node nBlockHeight with
    | none =>
      rw [hbest] at h
      cases h
    | some sb =>
      rw [hbest] at h
      exact sb.outputs_nonneg o h
  · rw [superblockOutputs_of_not_triggered htriggered] at h
    cases h

theorem leastOutputs_subset (h : o ∈ leastOutputs members list) : o ∈ members ∨ o ∈ list := by
  rcases mem_append.mp h with h | h
  · exact .inr ((destutter_sublist _ _).subset h)
  · rw [mem_dedup, mem_filter] at h
    exact .inl h.1

theorem mem_leastOutputs (h : o ∈ members) : o ∈ leastOutputs members list := by
  rw [leastOutputs, mem_append, mem_dedup, mem_filter, decide_eq_true_eq]
  by_cases hmem : o ∈ list
  · exact .inl (mem_destutter_ne hmem)
  · exact .inr ⟨h, hmem⟩

/-- The fewest outputs, filled up to the number of payments, are accepted. -/
theorem isBlockPayeeValid_filled (henforced : E.isDIP3Enforced nBlockHeight = true)
    (hpayable : Payable E node g nBlockHeight blockReward) {fillers : List CTxOut}
    (hlength : fillers.length = (superblockOutputs E node g nBlockHeight).length) (hzero : valueOf fillers = 0)
    (hpos : ∀ o ∈ fillers, 0 ≤ o.nValue) (hash : Uint256) :
    (isBlockPayeeValid E node g
      { hash := hash
        vout := leastOutputs (masternodeOutputs E node nBlockHeight blockReward)
          (superblockOutputs E node g nBlockHeight) ++ fillers }
      nBlockHeight blockReward).1 = .ok true := by
  refine isBlockPayeeValid_iff.mpr fun _ _ => ⟨fun htriggered => ?_, (isTransactionValid_iff henforced).mpr fun o ho =>
    mem_append_left _ (mem_leastOutputs ho)⟩
  obtain ⟨sb, hbest, hlimit, hmoney, hreward⟩ := hpayable htriggered
  rw [superblockOutputs_of_best htriggered hbest] at hlength ⊢
  refine isValid_iff_best.mpr ⟨sb, hbest, isValid_iff.mpr ?_⟩
  dsimp only
  rw [valueOf_append, hzero, add_zero, length_append]
  refine ⟨isValidBlockHeight_of_triggered htriggered.2, ?_, hlimit, ?_, hmoney, hreward, ?_⟩
  · rw [outputs, length_map] at hlength
    omega
  · intro o ho
    rcases mem_append.mp ho with ho | ho
    · rcases leastOutputs_subset ho with ho | ho
      · exact (masternodeOutputs_pos ho).le
      · exact sb.outputs_nonneg o ho
    · exact hpos o ho
  · exact (sublist_append_left _ _).trans (sublist_append_left _ _)

/-- Every accepted coinbase has the outputs of the masternode and of the superblock, with multiplicity,
exactly if no two of them are found in one place, or if none is accepted. -/
theorem isBlockPayeeValid_contains_iff (E : BudgetEnv) (node : Node) (g : CGovernanceManager)
    (nBlockHeight blockReward : Int) (hgovernance : node.fDisableGovernance = false)
    (henforced : E.isDIP3Enforced nBlockHeight = true) :
    (∀ txNew : CTransaction, (isBlockPayeeValid E node g txNew nBlockHeight blockReward).1 = .ok true →
      (masternodeOutputs E node nBlockHeight blockReward : Multiset CTxOut) +
        (superblockOutputs E node g nBlockHeight : Multiset CTxOut) ≤ (txNew.vout : Multiset CTxOut)) ↔
    if nBlockHeight < E.nSuperblockStartBlock then masternodeOutputs E node nBlockHeight blockReward = []
    else Payable E node g nBlockHeight blockReward →
      Apart (masternodeOutputs E node nBlockHeight blockReward) (superblockOutputs E node g nBlockHeight) := by
  simp only [Multiset.coe_add, Multiset.coe_le]
  split_ifs with hearly
  · -- below the start of superblocks every coinbase is accepted
    have haccepted (txNew : CTransaction) :
        (isBlockPayeeValid E node g txNew nBlockHeight blockReward).1 = .ok true := by
      rw [isBlockPayeeValid, hgovernance, if_neg Bool.false_ne_true, if_pos hearly]
    have hnone : superblockOutputs E node g nBlockHeight = [] := by
      refine superblockOutputs_of_not_triggered fun htriggered => ?_
      have hvalid := isValidBlockHeight_of_triggered htriggered.2
      have hle := le_of_isValidBlockHeight hvalid
      omega
    rw [hnone]
    constructor
    · intro h
      have hempty := h { hash := 0 } (haccepted _)
      rw [append_nil] at hempty
      exact subperm_nil.mp hempty
    · intro h txNew _
      rw [h]
      exact nil_subperm
  · have hstart : E.nSuperblockStartBlock ≤ nBlockHeight := by omega
    constructor
    · intro h hpayable
      obtain ⟨fillers, hlength, hzero, hpos, hdisjoint⟩ := exists_fillers
        (masternodeOutputs E node nBlockHeight blockReward ++ superblockOutputs E node g nBlockHeight)
        (superblockOutputs E node g nBlockHeight).length
      have hsub := h _ (isBlockPayeeValid_filled henforced hpayable hlength hzero hpos 0)
      exact apart_of_subperm (subperm_of_subperm_append hsub hdisjoint)
    · intro h txNew haccepted
      have hapart := h (payable_of_accepted hgovernance henforced hstart haccepted)
      have hleast := leastOutputs_subperm_of_accepted hgovernance henforced hstart haccepted
      rw [hapart.leastOutputs_eq] at hleast
      exact perm_append_comm.subperm.trans hleast

/-- A masternode with an operator's share, in hundredths of a percent, that goes to the owner's script. -/
def sharedMN (nOperatorReward : ℕ) : CDeterministicMN :=
  { memberMN with
    nOperatorReward := nOperatorReward
    pdmnState := { scriptPayout := sampleScript, scriptOperatorPayout := sampleScript } }

/-- A synced node whose only masternode is the given one, with superblocks disabled. -/
def singleNode (dmn : CDeterministicMN) : Node where
  listAtChainTip := {}
  chainActive := fun _ => sampleTip
  getListForBlock := fun _ => { mnMap := (∅ : Map Uint256 CDeterministicMN).insert dmn.proTxHash dmn }
  areSuperblocksEnabled := false
  isSynced := true
  fDisableGovernance := false
  adjustedTime := 0

def singlePaid (nValue : Int) : CTransaction where
  hash := 31
  vout := [⟨27 * coin / 2 - nValue, [0x51]⟩, ⟨nValue, sampleScript⟩]

def votingList : CDeterministicMNList :=
  okOr (({} : CDeterministicMNList).addMN sampleEnv.toCodec
    { memberMN with collateralOutpoint := ⟨11, 0⟩, pdmnState := { keyIDOwner := 3 } }) {}

/-- A node with this list at its tip and superblocks enabled. -/
def votingNode : Node :=
  { singleNode (sharedMN 0) with
    listAtChainTip := votingList
    areSuperblocksEnabled := true }

/-- One trigger with the vote of that masternode. -/
def votedTrigger (vecPayments : List CGovernancePayment) : CGovernanceManager where
  mapObjects := (∅ : Map Uint256 CGovernanceObject).insert 30
    { mapCurrentMNVotes := (∅ : Map COutPoint VoteRec).insert ⟨11, 0⟩
        ⟨fun signal => if signal = .funding then some { eOutcome := .yes } else none⟩ }
  mapTrigger := (∅ : Map Uint256 CSuperblock).insert 30 ⟨30, 4200, vecPayments⟩

/-- The same node, whose masternode leaves a fifth of its reward to its operator. -/
def sharingNode : Node :=
  { votingNode with getListForBlock := (singleNode (sharedMN 2000)).getListForBlock }

/-- A coinbase with the miner's output, both shares of the masternode and two payments of a superblock. -/
def sharedPaid : CTransaction where
  hash := 31
  vout := [⟨270000000, [0x51]⟩, ⟨864000000, sampleScript⟩, ⟨216000000, sampleScript⟩, ⟨10 * coin, sampleScript⟩,
    ⟨5 * coin, sampleScript⟩]

def sharedTrigger : CGovernanceManager :=
  votedTrigger [samplePayment, { samplePayment with nAmount := 5 * coin, inRange := by decide }]

theorem isBlockPayeeValid_contains_iff_single :
    masternodeOutputs devnetBudget sharingNode 4200 (27 * coin / 2) =
      [⟨864000000, sampleScript⟩, ⟨216000000, sampleScript⟩] ∧
    superblockOutputs devnetBudget sharingNode sharedTrigger 4200 =
      [⟨10 * coin, sampleScript⟩, ⟨5 * coin, sampleScript⟩] ∧
    (masternodeOutputs devnetBudget sharingNode 4200 (27 * coin / 2) : Multiset CTxOut) +
      (superblockOutputs devnetBudget sharingNode sharedTrigger 4200 : Multiset CTxOut) ≤
        (sharedPaid.vout : Multiset CTxOut) := by
  have hmasternode : masternodeOutputs devnetBudget sharingNode 4200 (27 * coin / 2) =
      [⟨864000000, sampleScript⟩, ⟨216000000, sampleScript⟩] := by decide +kernel
  have hsuperblock : superblockOutputs devnetBudget sharingNode sharedTrigger 4200 =
      [⟨10 * coin, sampleScript⟩, ⟨5 * coin, sampleScript⟩] := by decide +kernel
  refine ⟨hmasternode, hsuperblock, (isBlockPayeeValid_contains_iff devnetBudget sharingNode sharedTrigger 4200
    (27 * coin / 2) rfl (by decide)).mpr ?_ sharedPaid (by decide +kernel)⟩
  rw [if_neg (by decide), hmasternode, hsuperblock]
  exact fun _ => ⟨by decide, by simp [coin], by decide⟩

/-- The owner and the operator get the same amount with the same script, and one output is accepted for both. -/
theorem isBlockPayeeValid_contains_fails :
    (isBlockPayeeValid devnetBudget (singleNode (sharedMN 5000)) ⟨∅, ∅⟩ (singlePaid 540000000) 4201
      (27 * coin / 2)).1 = .ok true ∧
    devnetBudget.isDIP3Enforced 4201 = true ∧
    (singleNode (sharedMN 5000)).fDisableGovernance = false ∧
    masternodeOutputs devnetBudget (singleNode (sharedMN 5000)) 4201 (27 * coin / 2) =
      [⟨540000000, sampleScript⟩, ⟨540000000, sampleScript⟩] ∧
    ¬ (masternodeOutputs devnetBudget (singleNode (sharedMN 5000)) 4201 (27 * coin / 2) : Multiset CTxOut) +
      (superblockOutputs devnetBudget (singleNode (sharedMN 5000)) ⟨∅, ∅⟩ 4201 : Multiset CTxOut) ≤
        ((singlePaid 540000000).vout : Multiset CTxOut) := by
  have houtputs : masternodeOutputs devnetBudget (singleNode (sharedMN 5000)) 4201 (27 * coin / 2) =
      [⟨540000000, sampleScript⟩, ⟨540000000, sampleScript⟩] := by decide +kernel
  refine ⟨by decide +kernel, by decide, rfl, houtputs, ?_⟩
  rw [houtputs, Multiset.coe_add, Multiset.coe_le]
  intro h
  have hcount := h.count_le ⟨540000000, sampleScript⟩
  revert hcount
  decide +kernel

open CSuperblock CGovernanceManager

variable {E : BudgetEnv} {node : Node} {g : CGovernanceManager} {txNew : CTransaction}
variable {nBlockHeight blockReward : Int}

/-! ### The check of the amount -/

theorem checkLimit_eq_ok {nBlockHeight actual limit : Int} {why : String} :
    checkLimit nBlockHeight actual limit why = .ok () ↔ actual ≤ limit := by
  unfold checkLimit
  split_ifs with h
  · simp [h]
  · simp [h]

theorem isOldBudgetBlockValueValid_iff {valueOut : Int} (hsynced : node.isSynced = true)
    (hbudget : ¬ nBlockHeight < E.nBudgetPaymentsStartBlock) (hsuperblock : nBlockHeight < E.nSuperblockStartBlock) :
    isOldBudgetBlockValueValid E node valueOut nBlockHeight blockReward = .ok () ↔ valueOut ≤ blockReward := by
  unfold isOldBudgetBlockValueValid
  rw [if_neg hbudget, if_neg (by omega)]
  dsimp only
  split_ifs
  · exact checkLimit_eq_ok
  · exact checkLimit_eq_ok

theorem isSuperblockValueValid_iff {valueOut : Int} :
    (isSuperblockValueValid E node g txNew valueOut nBlockHeight blockReward).1 = .ok (.ok ()) ↔
      (Triggered E node g nBlockHeight → g.isValid E node txNew nBlockHeight blockReward = .ok true) ∧
      (¬ Triggered E node g nBlockHeight → valueOut ≤ blockReward) := by
  have hsame := isSuperblockTriggered_sameVotes E node g nBlockHeight
  unfold isSuperblockValueValid Triggered
  cases henabled : node.areSuperblocksEnabled with
  | false => simp [checkLimit_eq_ok]
  | true =>
    cases hresult : g.isSuperblockTriggered E node nBlockHeight with
    | mk triggered g' =>
      rw [hresult] at hsame
      cases triggered with
      | false => simp [checkLimit_eq_ok]
      | true =>
        dsimp only
        rw [hsame.isValid]
        cases hvalid : g.isValid E node txNew nBlockHeight blockReward with
        | error e => simp
        | ok b => cases b <;> simp

/-- What the check of the amount asks of a coinbase on a synced node. -/
theorem isBlockValueValid_iff (hsynced : node.isSynced = true) :
    (isBlockValueValid E node g txNew nBlockHeight blockReward).1 = .ok (.ok ()) ↔
      ∃ valueOut, txNew.getValueOut = .ok valueOut ∧
        if isValidBlockHeight E nBlockHeight then
          valueOut ≤ blockReward + getPaymentsLimit E nBlockHeight ∧
          (node.fDisableGovernance = false →
            (Triggered E node g nBlockHeight → g.isValid E node txNew nBlockHeight blockReward = .ok true) ∧
            (¬ Triggered E node g nBlockHeight → valueOut ≤ blockReward))
        else valueOut ≤ blockReward := by
  unfold isBlockValueValid
  cases hvalue : txNew.getValueOut with
  | error e => simp
  | ok valueOut =>
    have hexists (P : Int → Prop) :
        (∃ v, (Except.ok valueOut : Except String Int) = .ok v ∧ P v) ↔ P valueOut := by simp
    rw [hexists]
    dsimp only
    by_cases hstart : nBlockHeight < E.nSuperblockStartBlock
    · have hheight : ¬ isValidBlockHeight E nBlockHeight = true := fun h => by
        have hle := le_of_isValidBlockHeight h
        omega
      rw [if_neg hheight, if_pos hstart]
      split_ifs with hbudget
      · simp [checkLimit_eq_ok]
      · simp [isOldBudgetBlockValueValid_iff hsynced hbudget hstart]
    · have hbudget : ¬ nBlockHeight < E.nBudgetPaymentsStartBlock := by
        have hle := E.budgetsFirst
        omega
      rw [if_neg hbudget, if_neg hstart]
      cases hheight : isValidBlockHeight E nBlockHeight with
      | false => simp [checkLimit_eq_ok]
      | true =>
        simp only [Bool.not_true, Bool.false_eq_true, if_false, if_true]
        cases hlimit : checkLimit nBlockHeight valueOut
            (blockReward + getPaymentsLimit E nBlockHeight) "exceeded superblock max value" with
        | error e =>
          have hnot : ¬ valueOut ≤ blockReward + getPaymentsLimit E nBlockHeight := fun h => by
            rw [checkLimit_eq_ok.mpr h] at hlimit
            cases hlimit
          simp [hnot]
        | ok u =>
          have hle := checkLimit_eq_ok.mp hlimit
          cases hgovernance : node.fDisableGovernance with
          | true => simp [hle]
          | false => simp [hsynced, hle, isSuperblockValueValid_iff]

/-! ### The built coinbase -/

def minerCoinbase (hash : Uint256) (script : CScript) (blockReward : Int) : CTransaction where
  hash := hash
  vout := [⟨blockReward, script⟩]

/-- The coinbase `FillBlockPayments` makes of it. -/
def filledCoinbase (E : BudgetEnv) (node : Node) (g : CGovernanceManager) (hash : Uint256) (script : CScript)
    (nBlockHeight blockReward : Int) : CTransaction :=
  (fillBlockPayments E node g (minerCoinbase hash script blockReward) nBlockHeight blockReward).1.txNew

theorem foldl_sub_nValue (vout : List CTxOut) (v : Int) :
    vout.foldl (fun nValue txout => nValue - txout.nValue) v = v - valueOf vout := by
  induction vout generalizing v with
  | nil => simp
  | cons o vout ih =>
    rw [List.foldl_cons, ih, valueOf_cons]
    omega

variable {hash : Uint256} {script : CScript}

theorem filledCoinbase_vout :
    (filledCoinbase E node g hash script nBlockHeight blockReward).vout =
      ⟨blockReward - valueOf (masternodeOutputs E node nBlockHeight blockReward), script⟩ ::
        (masternodeOutputs E node nBlockHeight blockReward ++ superblockOutputs E node g nBlockHeight) := by
  unfold filledCoinbase fillBlockPayments minerCoinbase
  simp only [foldl_sub_nValue]
  rfl

theorem valueOf_filledCoinbase :
    valueOf (filledCoinbase E node g hash script nBlockHeight blockReward).vout =
      blockReward + valueOf (superblockOutputs E node g nBlockHeight) := by
  rw [filledCoinbase_vout, valueOf_cons, valueOf_append]
  dsimp only
  omega

/-! ### The share of the masternode -/

theorem getMasternodePayment_le (nHeight : Int) (h : 0 ≤ blockReward) :
    0 ≤ getMasternodePayment nHeight blockReward ∧ getMasternodePayment nHeight blockReward ≤ blockReward := by
  unfold getMasternodePayment
  split_ifs
  · exact mulDouble_le h (by norm_num)
  · exact mulDouble_le h (by norm_num)
  · exact mulDouble_le h (by norm_num)

theorem valueOf_emplaceTxOut {nValue : Int} {scriptPubKey : CScript} (h : 0 ≤ nValue) :
    valueOf (emplaceTxOut nValue scriptPubKey) = nValue := by
  unfold emplaceTxOut
  split_ifs with hpos
  · simp
  · rw [valueOf_nil]
    omega

variable {dmn : CDeterministicMN} {masternodeReward : Int}

theorem operatorReward_le (hreward : 0 ≤ masternodeReward) (hshare : dmn.nOperatorReward ≤ 10000) :
    0 ≤ operatorReward dmn masternodeReward ∧ operatorReward dmn masternodeReward ≤ masternodeReward := by
  unfold operatorReward
  split_ifs
  · have hnonneg : 0 ≤ masternodeReward * dmn.nOperatorReward := Int.mul_nonneg hreward (Int.natCast_nonneg _)
    have hle : masternodeReward * dmn.nOperatorReward ≤ masternodeReward * 10000 :=
      Int.mul_le_mul_of_nonneg_left (by omega) hreward
    rw [Int.tdiv_eq_ediv_of_nonneg hnonneg]
    omega
  · exact ⟨le_refl 0, hreward⟩

theorem valueOf_payeeTxOuts (hreward : 0 ≤ masternodeReward)
    (hshare : dmn.nOperatorReward ≤ 10000) : valueOf (payeeTxOuts dmn masternodeReward) = masternodeReward := by
  obtain ⟨hnonneg, hle⟩ := operatorReward_le hreward hshare
  unfold payeeTxOuts
  dsimp only
  rw [valueOf_append, valueOf_emplaceTxOut (by omega), valueOf_emplaceTxOut hnonneg]
  omega

def blockPayee (E : BudgetEnv) (node : Node) (nBlockHeight : Int) : Option CDeterministicMN :=
  let pindex := node.chainActive (nBlockHeight - 1)
  (node.getListForBlock pindex).getMNPayee E.toEnv pindex

theorem masternodeOutputs_eq : masternodeOutputs E node nBlockHeight blockReward =
    ((blockPayee E node nBlockHeight).map fun dmn =>
      payeeTxOuts dmn (getMasternodePayment nBlockHeight blockReward)).getD [] :=
  rfl

theorem valueOf_masternodeOutputs_le (hreward : 0 ≤ blockReward)
    (hshare : ∀ dmn, blockPayee E node nBlockHeight = some dmn → dmn.nOperatorReward ≤ 10000) :
    valueOf (masternodeOutputs E node nBlockHeight blockReward) ≤ blockReward := by
  obtain ⟨hnonneg, hle⟩ := getMasternodePayment_le nBlockHeight hreward
  rw [masternodeOutputs_eq]
  cases hpayee : blockPayee E node nBlockHeight with
  | none => exact hreward
  | some dmn =>
    rw [Option.map_some, Option.getD_some, valueOf_payeeTxOuts hnonneg (hshare dmn hpayee)]
    exact hle

/-! ### Acceptance -/

/-- The reward and the payments of a superblock that is triggered are within the limits. -/
structure WithinLimits (E : BudgetEnv) (node : Node) (g : CGovernanceManager) (nBlockHeight blockReward : Int) :
    Prop where
  reward : 0 ≤ blockReward
  money : blockReward + valueOf (superblockOutputs E node g nBlockHeight) ≤ maxMoney
  limit : Triggered E node g nBlockHeight →
    valueOf (superblockOutputs E node g nBlockHeight) ≤ getPaymentsLimit E nBlockHeight
  best : Triggered E node g nBlockHeight → node.fDisableGovernance = false →
    (g.getBestSuperblock E node nBlockHeight).isSome = true

section

variable (h : WithinLimits E node g nBlockHeight blockReward)
  (hshare : ∀ dmn, blockPayee E node nBlockHeight = some dmn → dmn.nOperatorReward ≤ 10000)

include h hshare

theorem WithinLimits.nonneg :
    ∀ o ∈ (filledCoinbase E node g hash script nBlockHeight blockReward).vout, 0 ≤ o.nValue := by
  intro o ho
  have hvalue := valueOf_masternodeOutputs_le h.reward hshare
  rw [filledCoinbase_vout, List.mem_cons, List.mem_append] at ho
  rcases ho with rfl | ho | ho
  · dsimp only
    omega
  · exact (masternodeOutputs_pos ho).le
  · exact superblockOutputs_nonneg ho

/-- A triggered superblock is paid as it should be. -/
theorem WithinLimits.isValid
    (hgovernance : node.fDisableGovernance = false) (htriggered : Triggered E node g nBlockHeight) :
    g.isValid E node (filledCoinbase E node g hash script nBlockHeight blockReward) nBlockHeight blockReward =
      .ok true := by
  obtain ⟨sb, hbest⟩ := Option.isSome_iff_exists.mp (h.best htriggered hgovernance)
  have houtputs := superblockOutputs_of_best htriggered hbest
  have hlimit := h.limit htriggered
  have hmoney := h.money
  rw [houtputs, sb.valueOf_outputs] at hlimit hmoney
  refine isValid_iff_best.mpr ⟨sb, hbest, ?_⟩
  rw [isValid_iff, valueOf_filledCoinbase, houtputs, sb.valueOf_outputs]
  have hsub : sb.outputs.Sublist (filledCoinbase E node g hash script nBlockHeight blockReward).vout := by
    rw [filledCoinbase_vout, houtputs]
    exact (List.sublist_append_right _ _).cons _
  have hlength := hsub.length_le
  rw [outputs, List.length_map] at hlength
  exact ⟨isValidBlockHeight_of_triggered htriggered.2, hlength, hlimit, h.nonneg hshare, hmoney,
    le_refl _, sb.distinctOutputs_sublist.trans hsub⟩

end

theorem isTransactionValid_filledCoinbase :
    isTransactionValid E node (filledCoinbase E node g hash script nBlockHeight blockReward) nBlockHeight
      blockReward = true := by
  cases henforced : E.isDIP3Enforced nBlockHeight with
  | false => simp [isTransactionValid, henforced]
  | true =>
    rw [isTransactionValid_iff henforced, filledCoinbase_vout]
    exact fun o ho => List.mem_cons_of_mem _ (List.mem_append_left _ ho)

/-- The coinbase that is built on a synced node passes both checks exactly if the amounts are within the
limits and a triggered superblock has a best trigger. -/
theorem fillBlockPayments_accepted_iff (E : BudgetEnv) (node : Node) (g : CGovernanceManager) (hash : Uint256)
    (script : CScript) (nBlockHeight blockReward : Int) (hsynced : node.isSynced = true)
    (hshare : ∀ dmn, blockPayee E node nBlockHeight = some dmn → dmn.nOperatorReward ≤ 10000) :
    ((isBlockValueValid E node g (filledCoinbase E node g hash script nBlockHeight blockReward) nBlockHeight
        blockReward).1 = .ok (.ok ()) ∧
      (isBlockPayeeValid E node g (filledCoinbase E node g hash script nBlockHeight blockReward) nBlockHeight
        blockReward).1 = .ok true) ↔
      WithinLimits E node g nBlockHeight blockReward := by
  constructor
  · rintro ⟨haccepted, -⟩
    obtain ⟨valueOut, hvalue, hlimits⟩ := (isBlockValueValid_iff hsynced).mp haccepted
    obtain ⟨hpos, rfl, hmoney⟩ := getValueOut_eq_ok.mp hvalue
    rw [valueOf_filledCoinbase] at hlimits hmoney
    have hminer := hpos _ (by rw [filledCoinbase_vout]; exact List.mem_cons_self)
    have hmasternode : 0 ≤ valueOf (masternodeOutputs E node nBlockHeight blockReward) :=
      valueOf_nonneg fun o ho => (masternodeOutputs_pos ho).le
    dsimp only at hminer
    refine ⟨by omega, hmoney, fun htriggered => ?_, fun htriggered hgovernance => ?_⟩
    · rw [if_pos (isValidBlockHeight_of_triggered htriggered.2)] at hlimits
      omega
    · rw [if_pos (isValidBlockHeight_of_triggered htriggered.2)] at hlimits
      obtain ⟨sb, hbest, -⟩ := isValid_iff_best.mp ((hlimits.2 hgovernance).1 htriggered)
      exact Option.isSome_of_eq_some hbest
  · intro h
    have hvalid : node.fDisableGovernance = false → Triggered E node g nBlockHeight →
        g.isValid E node (filledCoinbase E node g hash script nBlockHeight blockReward) nBlockHeight blockReward =
          .ok true := h.isValid hshare
    refine ⟨(isBlockValueValid_iff hsynced).mpr ⟨_, getValueOut_eq_ok.mpr ⟨h.nonneg hshare, rfl, ?_⟩, ?_⟩, ?_⟩
    · rw [valueOf_filledCoinbase]
      exact h.money
    · rw [valueOf_filledCoinbase]
      by_cases htriggered : Triggered E node g nBlockHeight
      · rw [if_pos (isValidBlockHeight_of_triggered htriggered.2)]
        have hlimit := h.limit htriggered
        exact ⟨by omega, fun hgovernance => ⟨hvalid hgovernance, fun hnot => absurd htriggered hnot⟩⟩
      · have hlimit := getPaymentsLimit_nonneg E nBlockHeight
        rw [superblockOutputs_of_not_triggered htriggered, valueOf_nil, add_zero]
        split_ifs
        · exact ⟨by omega, fun _ => ⟨fun hyes => absurd hyes htriggered, fun _ => le_refl _⟩⟩
        · exact le_refl _
    · exact isBlockPayeeValid_iff.mpr fun hgovernance _ => ⟨hvalid hgovernance, isTransactionValid_filledCoinbase⟩

theorem fillBlockPayments_accepted_iff_within :
    valueOf (superblockOutputs devnetBudget votingNode (votedTrigger [samplePayment]) 4200) =
      10 * coin ∧
    (isBlockValueValid devnetBudget votingNode (votedTrigger [samplePayment])
        (filledCoinbase devnetBudget votingNode (votedTrigger [samplePayment]) 31 [0x51]
          4200 (27 * coin / 2)) 4200 (27 * coin / 2)).1 = .ok (.ok ()) ∧
    (isBlockPayeeValid devnetBudget votingNode (votedTrigger [samplePayment])
        (filledCoinbase devnetBudget votingNode (votedTrigger [samplePayment]) 31 [0x51]
          4200 (27 * coin / 2)) 4200 (27 * coin / 2)).1 = .ok true := by
  refine ⟨by decide +kernel, (fillBlockPayments_accepted_iff devnetBudget votingNode
    (votedTrigger [samplePayment]) 31 [0x51] 4200 (27 * coin / 2) rfl (by decide +kernel)).mpr ?_⟩
  exact ⟨by decide, by decide +kernel, fun _ => by decide +kernel, fun _ _ => by decide +kernel⟩

/-- A trigger for forty coins: the builder pays all of it, and the amount is above the limit. -/
theorem fillBlockPayments_accepted_fails :
    votingNode.isSynced = true ∧
    (∀ dmn, blockPayee devnetBudget votingNode 4200 = some dmn → dmn.nOperatorReward ≤ 10000) ∧
    (isBlockValueValid devnetBudget votingNode (votedTrigger (List.replicate 4 samplePayment))
        (filledCoinbase devnetBudget votingNode
          (votedTrigger (List.replicate 4 samplePayment)) 31 [0x51] 4200 (27 * coin / 2))
        4200 (27 * coin / 2)).1 ≠ .ok (.ok ()) := by
  exact ⟨rfl, by decide +kernel, by decide +kernel⟩

end OmegaCore.Masternode
