import OmegaCore.Llmq.MinedCache

/-!
The commitments of an accepted block.  A block is accepted if it has as many commitments
of a type as there are quorums of the current cycle without one, and if each of them
names a quorum.  These are one commitment for each such quorum exactly if no null
commitment is for the quorum of another commitment or for one that has been mined.
-/

namespace OmegaCore.Llmq

open Util Evo List

namespace CQuorumBlockProcessor

variable {E : LlmqEnv} {chain : ChainState} {s s' s₁ : CQuorumBlockProcessor} {nHeight : Int}
variable {blockHash quorumHash : Uint256} {qc : CFinalCommitment} {qcs : List CFinalCommitment}
variable {fJustCheck fBLSChecks : Bool} {llmqType : ℕ} {block : CBlock}
variable {pindex pprev : CBlockIndex} {params : LLMQParams} {W : ℕ × Uint256 → Prop}

/-! ### The required commitments -/

/-- Whether a quorum of the current cycle is known and has no mined commitment. -/
def isRequired (s : CQuorumBlockProcessor) (chain : ChainState) (params : LLMQParams) (nHeight : Int)
    (quorumIndex : ℕ) : Bool :=
  let quorumHash := getQuorumBlockHash chain params nHeight quorumIndex
  quorumHash != 0 && !s.minedCommitment.exists? (params.type, quorumHash)

theorem Coherent.answer (h : s.Coherent W) {b : Bool} (hq : s.hasMinedCommitment llmqType quorumHash = (.ok b, s')) :
    b = s.minedCommitment.exists? (llmqType, quorumHash) := by
  obtain ⟨-, hnone | hanswer, -⟩ := hasMinedCommitment_cases hq
  · rw [hasMinedCommitment, hnone] at hq
    cases hq
  · rw [Except.ok.inj hanswer]
    cases hcached : s.cached (llmqType, quorumHash) with
    | none => rfl
    | some c => rw [Option.getD_some, (h.cached _ c hcached).1]

theorem isRequired_congr (h : s'.minedCommitment = s.minedCommitment) :
    s'.isRequired chain params nHeight = s.isRequired chain params nHeight := by
  funext i
  rw [isRequired, h, isRequired]

theorem Coherent.countRequired (h : s.Coherent Unwritten) {indices : List ℕ} {n m : ℕ}
    (hcount : s.countRequired chain params nHeight indices n = (.ok m, s')) :
    m = n + indices.countP (s.isRequired chain params nHeight) := by
  induction indices generalizing s n with
  | nil =>
    cases hcount
    rfl
  | cons i indices ih =>
    unfold CQuorumBlockProcessor.countRequired at hcount
    dsimp only at hcount
    rw [countP_cons]
    split_ifs at hcount with hnull
    · have hnot : s.isRequired chain params nHeight i = false := by simp [isRequired, hnull]
      rw [ih h hcount, hnot]
      simp
    · split at hcount
      · cases hcount
      · next s₁ queried =>
        have hanswer := h.answer queried
        have hnot : s.isRequired chain params nHeight i = false := by simp [isRequired, ← hanswer]
        have htable := (hasMinedCommitment_cases queried).1
        rw [ih (h.query (fun hW => hW) queried) hcount, isRequired_congr htable, hnot]
        simp
      · next s₁ queried =>
        have hanswer := h.answer queried
        have hyes : s.isRequired chain params nHeight i = true := by
          rw [isRequired, ← hanswer]
          exact Bool.and_eq_true_iff.mpr ⟨bne_iff_ne.mpr hnull, rfl⟩
        have htable := (hasMinedCommitment_cases queried).1
        rw [ih (h.query (fun hW => hW) queried) hcount, isRequired_congr htable, hyes]
        simp only [if_true]
        omega

theorem Queries.minedCommitment (h : Queries s s') : s'.minedCommitment = s.minedCommitment := by
  induction h with
  | refl => rfl
  | query queried _ ih => rw [ih, (hasMinedCommitment_cases queried).1]

/-- The quorums of the current cycle that are known and have no mined commitment. -/
def requiredIndices (E : LlmqEnv) (chain : ChainState) (s : CQuorumBlockProcessor) (params : LLMQParams)
    (nHeight : Int) : List ℕ :=
  (List.range (quorumsNum E chain params nHeight)).filter (s.isRequired chain params nHeight)

/-- An accepted block has the required number of commitments of every enabled type in its mining phase. -/
theorem Coherent.checkCounts (h : s.Coherent Unwritten) {paramsList : List LLMQParams}
    (hcheck : s.checkCounts E chain nHeight qcs paramsList = (.ok (), s')) (hmem : params ∈ paramsList)
    (hmining : isMiningPhase chain params nHeight = .ok true) :
    qcs.countP (·.llmqType == params.type) = (requiredIndices E chain s params nHeight).length := by
  induction paramsList generalizing s with
  | nil => cases hmem
  | cons first rest ih =>
    unfold CQuorumBlockProcessor.checkCounts at hcheck
    split at hcheck
    · cases hcheck
    · next n s₁ hnum =>
      dsimp only at hcheck
      have hqueries := getNumCommitmentsRequired_queries hnum
      split_ifs at hcheck with hless hmore
      · cases hcheck
      · cases hcheck
      · rcases mem_cons.mp hmem with rfl | hmem
        · unfold getNumCommitmentsRequired at hnum
          rw [hmining] at hnum
          have hn := h.countRequired hnum
          rw [requiredIndices, ← countP_eq_length_filter]
          omega
        · rw [ih (h.queries hqueries) hcheck hmem, requiredIndices, requiredIndices,
            isRequired_congr hqueries.minedCommitment]

/-! ### Accepted commitments -/

theorem CommitmentStep.names (h : CommitmentStep E chain nHeight blockHash qc fJustCheck fBLSChecks s (.ok ()) s')
    (hparams : E.getLLMQParams qc.llmqType = some params) : NamesQuorum chain params nHeight qc := by
  cases h with
  | null params' known names isNull =>
    rw [hparams, Option.some.injEq] at known
    rwa [known]
  | accepted params' known names =>
    rw [hparams, Option.some.injEq] at known
    rwa [known]

theorem CommitmentSteps.names
    (h : CommitmentSteps E chain nHeight blockHash fJustCheck fBLSChecks s qcs (.ok ()) s') (hmem : qc ∈ qcs)
    (hparams : E.getLLMQParams qc.llmqType = some params) : NamesQuorum chain params nHeight qc := by
  generalize hr : (Except.ok () : Except Failure Unit) = r at h
  induction h with
  | nil s => cases hmem
  | fail qcs step => cases hr
  | cons step rest ih =>
    rcases mem_cons.mp hmem with rfl | hmem
    · exact step.names hparams
    · exact ih hmem hr

/-- Accepted commitments that are not null are for quorums without a mined one, and unless they are only
checked, for different quorums. -/
theorem Coherent.fresh_steps
    (hsteps : CommitmentSteps E chain nHeight blockHash fJustCheck fBLSChecks s qcs (.ok ()) s') (h : s.Coherent W) :
    (∀ qc ∈ qcs, qc.isNull = false → s.minedCommitment.exists? (quorumKey qc) = false) ∧ (fJustCheck = false →
        qcs.Pairwise fun a b => a.isNull = false → b.isNull = false → quorumKey a ≠ quorumKey b) := by
  generalize hr : (Except.ok () : Except Failure Unit) = r at hsteps
  induction hsteps generalizing W with
  | nil s => exact ⟨by simp, fun _ => .nil⟩
  | fail qcs step => cases hr
  | @cons s s₁ s' qc qcs r step rest ih =>
    cases step with
    | null params known names isNull =>
      obtain ⟨hfresh, hpairs⟩ := ih h hr
      refine ⟨fun qc' hmem hnull => ?_, fun hjust => .cons (fun b _ ha => ?_) (hpairs hjust)⟩
      · rcases mem_cons.mp hmem with rfl | hmem
        · rw [isNull] at hnull
          cases hnull
        · exact hfresh qc' hmem hnull
      · rw [isNull] at ha
        cases ha
    | accepted params known names notNull s₂ queried mining base found verified =>
      have hanswer := h.answer queried
      have hnotW : ¬ W (quorumKey qc) := fun hW => by cases h.hasMined_of_written hW queried
      have hquery := h.query hnotW queried
      have htable := (hasMinedCommitment_cases queried).1
      cases fJustCheck with
      | true =>
        obtain ⟨hfresh, -⟩ := ih hquery hr
        refine ⟨fun qc' hmem hnull => ?_, fun hjust => by cases hjust⟩
        rcases mem_cons.mp hmem with rfl | hmem
        · exact hanswer.symm
        · rw [← htable]
          exact hfresh qc' hmem hnull
      | false =>
        obtain ⟨hfresh, hpairs⟩ := ih (hquery.store (getLLMQParams_type known)) hr
        -- after the write the other commitments are still fresh, so they are for other quorums
        have hother : ∀ qc' ∈ qcs, qc'.isNull = false → quorumKey qc' ≠ quorumKey qc ∧
            s.minedCommitment.exists? (quorumKey qc') = false := by
          intro qc' hmem hnull
          have hstill := hfresh qc' hmem hnull
          simp only [Bool.false_eq_true, if_false] at hstill
          rw [storeCommitment_mined, getLLMQParams_type known, Table.exists?, Table.read_write, htable] at hstill
          split_ifs at hstill with heq
          · cases hstill
          · exact ⟨heq, hstill⟩
        refine ⟨fun qc' hmem hnull => ?_, fun hjust => .cons (fun b hb _ hnull => ?_) (hpairs hjust)⟩
        · rcases mem_cons.mp hmem with rfl | hmem
          · exact hanswer.symm
          · exact (hother qc' hmem hnull).2
        · exact (hother b hb hnull).1.symm

/-! ### The commitments of an accepted block -/

def commitmentsOf (llmqType : ℕ) (block : CBlock) : List CFinalCommitment :=
  (blockCommitments block).filter (·.llmqType == llmqType)

/-- One commitment for every known quorum of the current cycle without a mined one, and none for the
others. -/
def OneForEachQuorum (E : LlmqEnv) (chain : ChainState) (s : CQuorumBlockProcessor) (params : LLMQParams)
    (nHeight : Int) (block : CBlock) : Prop :=
  ∀ quorumIndex < quorumsNum E chain params nHeight,
    let quorumHash := getQuorumBlockHash chain params nHeight quorumIndex
    quorumHash ≠ 0 →
      (commitmentsOf params.type block).countP (·.quorumIndex == (quorumIndex : Int)) =
        if s.minedCommitment.exists? (params.type, quorumHash) then 0 else 1

/-- Every commitment is for a quorum of the current cycle, and the null ones are for quorums without another
commitment in the block and without a mined one.  If the block is only checked, the other ones have to be for
different quorums too. -/
structure OwnQuorums (E : LlmqEnv) (chain : ChainState) (s : CQuorumBlockProcessor) (params : LLMQParams)
    (nHeight : Int) (fJustCheck : Bool) (block : CBlock) : Prop where
  inCycle : ∀ qc ∈ commitmentsOf params.type block,
    0 ≤ qc.quorumIndex ∧ qc.quorumIndex < quorumsNum E chain params nHeight
  notMined : ∀ qc ∈ commitmentsOf params.type block, qc.isNull = true →
    s.minedCommitment.exists? (params.type, qc.quorumHash) = false
  apart : (commitmentsOf params.type block).Pairwise fun a b =>
    a.isNull = true ∨ b.isNull = true ∨ fJustCheck = true → a.quorumIndex ≠ b.quorumIndex

theorem mem_commitmentsOf :
    qc ∈ commitmentsOf llmqType block ↔ qc ∈ blockCommitments block ∧ qc.llmqType = llmqType := by
  rw [commitmentsOf, mem_filter, beq_iff_eq]

def indicesOf (llmqType : ℕ) (block : CBlock) : List Int :=
  (commitmentsOf llmqType block).map (·.quorumIndex)

theorem countP_quorumIndex (llmqType : ℕ) (block : CBlock) (i : Int) :
    (commitmentsOf llmqType block).countP (·.quorumIndex == i) = (indicesOf llmqType block).count i := by
  rw [indicesOf, count, countP_map]
  rfl

theorem nodup_requiredIndices (E : LlmqEnv) (chain : ChainState) (s : CQuorumBlockProcessor)
    (params : LLMQParams) (nHeight : Int) :
    ((requiredIndices E chain s params nHeight).map (Nat.cast : ℕ → Int)).Nodup :=
  (nodup_range.filter _).map fun _ _ => Int.ofNat.inj

theorem mem_requiredIndices {i : ℕ} : i ∈ requiredIndices E chain s params nHeight ↔
    i < quorumsNum E chain params nHeight ∧ getQuorumBlockHash chain params nHeight i ≠ 0 ∧
      s.minedCommitment.exists? (params.type, getQuorumBlockHash chain params nHeight i) = false := by
  rw [requiredIndices, mem_filter, mem_range, isRequired, Bool.and_eq_true, bne_iff_ne, Bool.not_eq_true']

theorem natCast_mem_requiredIndices {i : ℕ} :
    (i : Int) ∈ (requiredIndices E chain s params nHeight).map Nat.cast ↔
      i < quorumsNum E chain params nHeight ∧ getQuorumBlockHash chain params nHeight i ≠ 0 ∧
        s.minedCommitment.exists? (params.type, getQuorumBlockHash chain params nHeight i) = false := by
  rw [← mem_requiredIndices]
  exact mem_map_of_injective fun _ _ => Int.ofNat.inj

/-- With the right number of commitments, there is one for each quorum exactly if their indices are the
required ones. -/
theorem oneForEachQuorum_iff_perm
    (hlength : (indicesOf params.type block).length = (requiredIndices E chain s params nHeight).length) :
    OneForEachQuorum E chain s params nHeight block ↔
      (indicesOf params.type block).Perm ((requiredIndices E chain s params nHeight).map Nat.cast) := by
  constructor
  · intro h
    have hsub : ((requiredIndices E chain s params nHeight).map (Nat.cast : ℕ → Int)).Subperm
        (indicesOf params.type block) := by
      refine subperm_ext_iff.mpr fun x hx => ?_
      obtain ⟨i, hi, rfl⟩ := mem_map.mp hx
      obtain ⟨hlt, hknown, hmined⟩ := mem_requiredIndices.mp hi
      have hone := h i hlt hknown
      rw [countP_quorumIndex, hmined] at hone
      rw [hone]
      exact nodup_iff_count_le_one.mp (nodup_requiredIndices E chain s params nHeight) _
    exact (hsub.perm_of_length_le (by rw [length_map, hlength])).symm
  · intro h i hlt hash hknown
    rw [countP_quorumIndex, h.count_eq, (nodup_requiredIndices E chain s params nHeight).count]
    cases hmined : s.minedCommitment.exists? (params.type, hash) with
    | true =>
      rw [if_pos rfl, if_neg]
      intro hmem
      have hnot := (natCast_mem_requiredIndices.mp hmem).2.2
      rw [hmined] at hnot
      cases hnot
    | false =>
      rw [if_pos (natCast_mem_requiredIndices.mpr ⟨hlt, hknown, hmined⟩), if_neg Bool.false_ne_true]

/-- What the processing of a block checks about the commitments of a type. -/
structure CheckedCommitments (E : LlmqEnv) (chain : ChainState) (s : CQuorumBlockProcessor)
    (params : LLMQParams) (nHeight : Int) (fJustCheck : Bool) (block : CBlock) : Prop where
  names : ∀ qc ∈ commitmentsOf params.type block,
    qc.quorumHash ≠ 0 ∧ getQuorumBlockHash chain params nHeight qc.quorumIndex = qc.quorumHash
  length : (indicesOf params.type block).length = (requiredIndices E chain s params nHeight).length
  fresh : ∀ qc ∈ commitmentsOf params.type block, qc.isNull = false →
    s.minedCommitment.exists? (params.type, qc.quorumHash) = false
  apart : fJustCheck = false → (commitmentsOf params.type block).Pairwise fun a b =>
    a.isNull = false → b.isNull = false → a.quorumIndex ≠ b.quorumIndex

section

variable (h : s.Coherent Unwritten) (hprev : pindex.pprev = some pprev) (htip : chain.tip.isSome = true)
  (hparams : E.getLLMQParams llmqType = some params) (henabled : E.isQuorumTypeEnabled llmqType pprev = true)
  (hmining : isMiningPhase chain params pindex.nHeight = .ok true)
  (counted : s.checkBlockCounts E chain pindex qcs = (.ok (), s₁))

include h hprev htip hparams henabled hmining counted

/-- The commitments that are processed if a block is accepted in the mining phase of an enabled type. -/
theorem Coherent.accepted_counts :
    qcs.countP (·.llmqType == llmqType) = (requiredIndices E chain s params pindex.nHeight).length := by
  have htype := getLLMQParams_type hparams
  have hmem : params ∈ getEnabledQuorumParams E pprev := by
    rw [getEnabledQuorumParams, mem_filter, htype]
    exact ⟨getLLMQParams_mem hparams, henabled⟩
  unfold checkBlockCounts at counted
  rw [hprev] at counted
  dsimp only at counted
  rw [if_neg (by rw [Option.isNone_eq_false_iff.mpr htip]; exact Bool.false_ne_true)] at counted
  rw [← htype]
  exact h.checkCounts counted hmem hmining

theorem Coherent.checkedCommitments (collected : getCommitmentsFromBlock E block pindex = .ok qcs)
    (steps : CommitmentSteps E chain pindex.nHeight blockHash fJustCheck fBLSChecks s₁ qcs (.ok ()) s') :
    CheckedCommitments E chain s params pindex.nHeight fJustCheck block := by
  have htype := getLLMQParams_type hparams
  have hperm := getCommitmentsFromBlock_perm collected
  have hqueries := checkBlockCounts_queries counted
  have hnames : ∀ qc ∈ commitmentsOf params.type block,
      qc.quorumHash ≠ 0 ∧ getQuorumBlockHash chain params pindex.nHeight qc.quorumIndex = qc.quorumHash := by
    intro qc hqc
    obtain ⟨hmem, hqctype⟩ := mem_commitmentsOf.mp hqc
    have hname := steps.names (hperm.mem_iff.mpr hmem) (by rw [hqctype, htype, hparams])
    exact ⟨hname.1, hname.2 htip⟩
  obtain ⟨hfresh, hpairs⟩ := (h.queries hqueries).fresh_steps steps
  refine ⟨hnames, ?_, ?_, ?_⟩
  · rw [← h.accepted_counts hprev htip hparams henabled hmining counted, hperm.countP_eq, indicesOf,
      length_map, commitmentsOf, ← countP_eq_length_filter, htype]
  · intro qc hqc hnull
    obtain ⟨hmem, hqctype⟩ := mem_commitmentsOf.mp hqc
    have hqcfresh := hfresh qc (hperm.mem_iff.mpr hmem) hnull
    rwa [hqueries.minedCommitment, quorumKey, hqctype] at hqcfresh
  · intro hjust
    have hblock : (blockCommitments block).Pairwise fun a b =>
        a.isNull = false → b.isNull = false → quorumKey a ≠ quorumKey b :=
      (hperm.pairwise_iff fun hab ha hb => (hab hb ha).symm).mp (hpairs hjust)
    refine (hblock.filter _).imp_of_mem fun {a b} ha hb hne hanull hbnull heq => hne hanull hbnull ?_
    -- the index of a commitment decides its quorum hash
    rw [quorumKey, quorumKey, (mem_commitmentsOf.mp ha).2, (mem_commitmentsOf.mp hb).2,
      ← (hnames a ha).2, ← (hnames b hb).2, heq]

end

section

variable (h : CheckedCommitments E chain s params nHeight fJustCheck block)

include h

theorem CheckedCommitments.ownQuorums
    (hperm : (indicesOf params.type block).Perm ((requiredIndices E chain s params nHeight).map Nat.cast)) :
    OwnQuorums E chain s params nHeight fJustCheck block := by
  have hrequired : ∀ qc ∈ commitmentsOf params.type block,
      (0 ≤ qc.quorumIndex ∧ qc.quorumIndex < quorumsNum E chain params nHeight) ∧
        s.minedCommitment.exists? (params.type, qc.quorumHash) = false := by
    intro qc hqc
    obtain ⟨i, hi, heq⟩ := mem_map.mp (hperm.mem_iff.mp (mem_map_of_mem hqc))
    obtain ⟨hlt, -, hmined⟩ := mem_requiredIndices.mp hi
    rw [heq, (h.names qc hqc).2] at hmined
    exact ⟨by omega, hmined⟩
  have hnodup : (indicesOf params.type block).Nodup := hperm.nodup_iff.mpr (nodup_requiredIndices ..)
  refine ⟨fun qc hqc => (hrequired qc hqc).1, fun qc hqc _ => (hrequired qc hqc).2, ?_⟩
  apply (pairwise_map.mp hnodup).imp
  intro a b hne _
  exact hne

theorem CheckedCommitments.nodup
    (hown : OwnQuorums E chain s params nHeight fJustCheck block) : (indicesOf params.type block).Nodup := by
  refine pairwise_map.mpr ?_
  cases fJustCheck with
  | true => exact hown.apart.imp fun hne => hne (.inr (.inr rfl))
  | false =>
    refine (hown.apart.and (h.apart rfl)).imp fun {a b} hne => ?_
    cases ha : a.isNull with
    | true => exact hne.1 (.inl ha)
    | false =>
      cases hb : b.isNull with
      | true => exact hne.1 (.inr (.inl hb))
      | false => exact hne.2 ha hb

theorem CheckedCommitments.perm (hown : OwnQuorums E chain s params nHeight fJustCheck block) :
    (indicesOf params.type block).Perm ((requiredIndices E chain s params nHeight).map Nat.cast) := by
  have hsub : (indicesOf params.type block).Subperm ((requiredIndices E chain s params nHeight).map Nat.cast) := by
    refine (h.nodup hown).subperm fun x hx => ?_
    obtain ⟨qc, hqc, rfl⟩ := mem_map.mp hx
    obtain ⟨hnonneg, hlt⟩ := hown.inCycle qc hqc
    obtain ⟨hnonzero, hhash⟩ := h.names qc hqc
    obtain ⟨i, hi⟩ := Int.eq_ofNat_of_zero_le hnonneg
    rw [hi] at hhash hlt ⊢
    refine natCast_mem_requiredIndices.mpr ⟨by omega, by rwa [hhash], ?_⟩
    rw [hhash]
    cases hnull : qc.isNull with
    | true => exact hown.notMined qc hqc hnull
    | false => exact h.fresh qc hqc hnull
  exact hsub.perm_of_length_le (by rw [length_map, h.length])

end

/-- An accepted block has one commitment for each quorum that needs one exactly if its null commitments have
quorums of their own. -/
theorem processBlock_oneForEachQuorum_iff (E : LlmqEnv) (chain : ChainState) (s : CQuorumBlockProcessor)
    (block : CBlock) (pindex pprev : CBlockIndex) (fJustCheck fBLSChecks : Bool) (llmqType : ℕ)
    (params : LLMQParams) (hcoherent : s.Coherent Unwritten) (hprev : pindex.pprev = some pprev)
    (htip : chain.tip.isSome = true) (hactive : E.params.DIP0003Height ≤ pindex.nHeight)
    (hparams : E.getLLMQParams llmqType = some params) (henabled : E.isQuorumTypeEnabled llmqType pprev = true)
    (hmining : isMiningPhase chain params pindex.nHeight = .ok true)
    (haccepted : (s.processBlock E chain block pindex fJustCheck fBLSChecks).1 = .ok ()) :
    OneForEachQuorum E chain s params pindex.nHeight block ↔
      OwnQuorums E chain s params pindex.nHeight fJustCheck block := by
  have hstep : BlockStep E chain block pindex fJustCheck fBLSChecks s (.ok ())
      (s.processBlock E chain block pindex fJustCheck fBLSChecks).2 :=
    processBlock_step (Prod.ext haccepted rfl)
  generalize (s.processBlock E chain block pindex fJustCheck fBLSChecks).2 = s' at hstep
  cases hstep with
  | inactive early => omega
  | processed active collected counted steps =>
    have h := hcoherent.checkedCommitments hprev htip hparams henabled hmining counted collected steps
    rw [oneForEachQuorum_iff_perm h.length]
    exact ⟨h.ownQuorums, h.perm⟩

/-- A block with one commitment for each of the two quorums, one of them null. -/
theorem processBlock_oneForEachQuorum_iff_single :
    OneForEachQuorum rotatedEnv (numberedState 35) (create rotatedEnv) llmqTestDip0024 36 singleBlock :=
  (processBlock_oneForEachQuorum_iff rotatedEnv (numberedState 35) (create rotatedEnv) singleBlock
    (numberedChain 36) (numberedChain 35) false true 103 llmqTestDip0024 (started_create _).coherent rfl rfl
    (by decide) (by decide) rfl (by decide +kernel) (by decide +kernel)).mpr
    ⟨by decide +kernel, by decide +kernel, by decide +kernel⟩

def nullBlock : CBlock :=
  ⟨[sampleCoinbase 19, commitmentTx 20 rotatedNull, commitmentTx 21 rotatedNull]⟩

/-- A block is accepted that has no commitment for the first quorum and two for the second one. -/
theorem processBlock_oneForEachQuorum_fails :
    (create rotatedEnv).Coherent Unwritten ∧
    isMiningPhase (numberedState 35) llmqTestDip0024 (numberedChain 36).nHeight = .ok true ∧
    ((create rotatedEnv).processBlock rotatedEnv (numberedState 35) nullBlock (numberedChain 36)
      false true).1 = .ok () ∧
    getQuorumBlockHash (numberedState 35) llmqTestDip0024 36 0 = 1024 ∧
    (create rotatedEnv).minedCommitment.exists? (103, 1024) = false ∧
    (commitmentsOf 103 nullBlock).countP (·.quorumIndex == 0) = 0 ∧
    (commitmentsOf 103 nullBlock).countP (·.quorumIndex == 1) = 2 ∧
    ¬ OneForEachQuorum rotatedEnv (numberedState 35) (create rotatedEnv) llmqTestDip0024 36 nullBlock := by
  refine ⟨(started_create _).coherent, by decide +kernel, by decide +kernel, by decide +kernel,
    by decide +kernel, by decide +kernel, by decide +kernel, fun h => ?_⟩
  have hfirst := h 0 (by decide +kernel) (by decide +kernel)
  revert hfirst
  decide +kernel

end CQuorumBlockProcessor

end OmegaCore.Llmq
