import OmegaCore.Llmq.BlockProcessor
import OmegaCore.Llmq.SnapshotReplay

/-!
The cache of mined commitments.  Its answers are those of the database as long as no
block that fails brings in two commitments for one quorum: the second one asks the cache
about the first, and the answer stays in the cache when the database is rolled back.
-/

namespace OmegaCore.Llmq

open Util Evo

namespace CQuorumBlockProcessor

variable {E : LlmqEnv} {chain : ChainState} {s s' s₁ : CQuorumBlockProcessor} {nHeight : Int}
variable {blockHash quorumHash : Uint256} {qc : CFinalCommitment} {qcs : List CFinalCommitment}
variable {fJustCheck fBLSChecks b : Bool} {r : Except Failure Unit} {llmqType : ℕ} {block : CBlock}
variable {pindex : CBlockIndex} {params : LLMQParams} {k : ℕ × Uint256} {q : Except Failure Bool}
variable {W : ℕ × Uint256 → Prop}

def cached (s : CQuorumBlockProcessor) (k : ℕ × Uint256) : Option Bool :=
  s.mapHasMinedCommitmentCache[k.1]?.bind (·.peek k.2)

def quorumKey (qc : CFinalCommitment) : ℕ × Uint256 :=
  (qc.llmqType, qc.quorumHash)

/-! ### Changes of the cache -/

theorem cached_setCache {cache : LruCache Uint256 Bool} :
    (s.setCache llmqType cache).cached k = if k.1 = llmqType then cache.peek k.2 else s.cached k := by
  unfold cached setCache
  rw [Map.get_insert]
  split_ifs <;> rfl

theorem cached_eraseCached (h : (s.eraseCached llmqType quorumHash).cached k = some b) :
    s.cached k = some b ∧ k ≠ (llmqType, quorumHash) := by
  unfold eraseCached at h
  split at h
  · next cache hcache =>
    rw [cached_setCache] at h
    split_ifs at h with htype
    · rw [LruCache.peek_erase] at h
      split_ifs at h with hhash
      refine ⟨?_, fun heq => hhash (congrArg Prod.snd heq)⟩
      rw [cached, htype, hcache]
      exact h
    · exact ⟨h, fun heq => htype (congrArg Prod.fst heq)⟩
  · next hnone =>
    refine ⟨h, ?_⟩
    rintro rfl
    simp [cached, hnone] at h

theorem cached_congr (h : s.mapHasMinedCommitmentCache = s'.mapHasMinedCommitmentCache) : s.cached k = s'.cached k := by
  rw [cached, h, cached]

theorem eraseCached_congr (h : s.mapHasMinedCommitmentCache = s'.mapHasMinedCommitmentCache) :
    (s.eraseCached llmqType quorumHash).mapHasMinedCommitmentCache =
      (s'.eraseCached llmqType quorumHash).mapHasMinedCommitmentCache := by
  unfold eraseCached
  rw [h]
  split
  · simp only [setCache, h]
  · exact h

theorem eraseCached_tables : (s.eraseCached llmqType quorumHash).minedCommitment = s.minedCommitment := by
  unfold eraseCached
  split <;> rfl

/-- A query answers from the cache or from the database, and caches its answer. -/
theorem hasMinedCommitment_cases (h : s.hasMinedCommitment llmqType quorumHash = (q, s')) :
    s'.minedCommitment = s.minedCommitment ∧
    (s.mapHasMinedCommitmentCache[llmqType]? = none ∨
      q = .ok ((s.cached (llmqType, quorumHash)).getD (s.minedCommitment.exists? (llmqType, quorumHash)))) ∧
    ∀ k b, s'.cached k = some b → s.cached k = some b ∨
      (k = (llmqType, quorumHash) ∧ b = s.minedCommitment.exists? k) := by
  unfold hasMinedCommitment at h
  split at h
  · next hnone =>
    cases h
    exact ⟨rfl, .inl hnone, fun k b hb => .inl hb⟩
  · next cache hcache =>
    have hget := LruCache.fst_get (c := cache) (k := quorumHash)
    split at h
    · next fExists cache' hfound =>
      rw [hfound] at hget
      cases h
      refine ⟨rfl, .inr ?_, fun k b hb => .inl ?_⟩
      · simp [cached, hcache, ← hget]
      · rw [cached_setCache] at hb
        split_ifs at hb with htype
        · have hpeek := LruCache.peek_get (c := cache) (k := quorumHash) (a := k.2)
          rw [hfound] at hpeek
          rw [cached, htype, hcache, Option.bind_some, ← hpeek]
          exact hb
        · exact hb
    · next cache' hmissing =>
      rw [hmissing] at hget
      cases h
      refine ⟨rfl, .inr ?_, fun k b hb => ?_⟩
      · simp [cached, hcache, ← hget]
      · rw [cached_setCache] at hb
        split_ifs at hb with htype
        · rcases LruCache.peek_insert hb with ⟨hhash, rfl⟩ | ⟨-, hpeek⟩
          · have hk : k = (llmqType, quorumHash) := Prod.ext htype hhash
            exact .inr ⟨hk, by rw [hk]⟩
          · have hsame := LruCache.peek_get (c := cache) (k := quorumHash) (a := k.2)
            rw [hmissing] at hsame
            refine .inl ?_
            rw [cached, htype, hcache, Option.bind_some, ← hsame]
            exact hpeek
        · exact .inl hb

variable {base : CBlockIndex}

theorem storeCommitment_mined :
    (s.storeCommitment E params nHeight blockHash qc base).minedCommitment =
      s.minedCommitment.write (params.type, qc.quorumHash) (qc, blockHash) := by
  unfold storeCommitment
  dsimp only
  split_ifs
  · exact eraseCached_tables
  · exact eraseCached_tables

theorem storeCommitment_caches :
    (s.storeCommitment E params nHeight blockHash qc base).mapHasMinedCommitmentCache =
      (s.eraseCached qc.llmqType qc.quorumHash).mapHasMinedCommitmentCache := by
  unfold storeCommitment
  dsimp only
  split_ifs
  · exact eraseCached_congr rfl
  · exact eraseCached_congr rfl

theorem storeCommitment_cached (h : (s.storeCommitment E params nHeight blockHash qc base).cached k = some b) :
    s.cached k = some b ∧ k ≠ quorumKey qc :=
  cached_eraseCached ((cached_congr storeCommitment_caches).symm.trans h)

theorem eraseCommitment_mined :
    (s.eraseCommitment E params pindex qc).minedCommitment = s.minedCommitment.erase (quorumKey qc) := by
  unfold eraseCommitment
  dsimp only
  split_ifs
  · exact eraseCached_tables
  · exact eraseCached_tables

theorem eraseCommitment_caches :
    (s.eraseCommitment E params pindex qc).mapHasMinedCommitmentCache =
      (s.eraseCached qc.llmqType qc.quorumHash).mapHasMinedCommitmentCache := by
  unfold eraseCommitment
  dsimp only
  split_ifs
  · exact eraseCached_congr rfl
  · exact eraseCached_congr rfl

theorem eraseCommitment_cached (h : (s.eraseCommitment E params pindex qc).cached k = some b) :
    s.cached k = some b ∧ k ≠ quorumKey qc :=
  cached_eraseCached ((cached_congr eraseCommitment_caches).symm.trans h)

theorem addMineableCommitment_same (h : s.addMineableCommitment E qc = (r, s')) :
    s'.minedCommitment = s.minedCommitment ∧ s'.mapHasMinedCommitmentCache = s.mapHasMinedCommitmentCache := by
  unfold addMineableCommitment at h
  dsimp only at h
  split at h
  · cases h
    exact ⟨rfl, rfl⟩
  · split at h
    · cases h
      exact ⟨rfl, rfl⟩
    · split_ifs at h <;>
      · cases h
        exact ⟨rfl, rfl⟩

/-! ### Coherence -/

/-- Cached answers are right for the view of the database and for what it goes back to on a rollback. -/
structure RightAnswers (s : CQuorumBlockProcessor) : Prop where
  cached : ∀ k b, s.cached k = some b → b = s.minedCommitment.exists? k ∧ b = (s.minedCommitment.committed[k]?).isSome

/-- Besides, the current transaction has only written the commitments `W`, and about these nothing is
cached. -/
structure Coherent (s : CQuorumBlockProcessor) (W : ℕ × Uint256 → Prop) : Prop extends RightAnswers s where
  touched : ∀ k, s.minedCommitment.cur.Touches k → W k
  written : ∀ k, W k → s.minedCommitment.exists? k = true ∧ s.cached k = none

def Unwritten (_ : ℕ × Uint256) : Prop := False

theorem exists?_congr {t t' : Table (ℕ × Uint256) (CFinalCommitment × Uint256)} (h : t.read k = t'.read k) :
    t.exists? k = t'.exists? k := by
  rw [Table.exists?, h, Table.exists?]

theorem Coherent.query (h : s.Coherent W) (hk : ¬ W (llmqType, quorumHash))
    (hq : s.hasMinedCommitment llmqType quorumHash = (q, s')) : s'.Coherent W := by
  obtain ⟨htable, -, hcached⟩ := hasMinedCommitment_cases hq
  refine ⟨⟨fun k b hb => ?_⟩, by rw [htable]; exact h.touched, fun k hW => ?_⟩
  · rw [htable]
    rcases hcached k b hb with hold | ⟨rfl, rfl⟩
    · exact h.cached k b hold
    · refine ⟨rfl, ?_⟩
      rw [Table.exists?, Table.read_of_not_touches fun ht => hk (h.touched _ ht)]
  · obtain ⟨hexists, hnone⟩ := h.written k hW
    rw [htable]
    refine ⟨hexists, ?_⟩
    cases hc : s'.cached k with
    | none => rfl
    | some b =>
      rcases hcached k b hc with hold | ⟨rfl, -⟩
      · rw [hnone] at hold
        cases hold
      · exact absurd hW hk

theorem Coherent.queries (h : s.Coherent Unwritten) (hq : Queries s s') : s'.Coherent Unwritten := by
  induction hq with
  | refl => exact h
  | query queried _ ih => exact ih (h.query (fun hW => hW) queried)

theorem Coherent.hasMined_of_written (h : s.Coherent W) (hk : W (llmqType, quorumHash))
    (hq : s.hasMinedCommitment llmqType quorumHash = (.ok b, s')) : b = true := by
  obtain ⟨hexists, hnone⟩ := h.written _ hk
  obtain ⟨-, haborted | hanswer, -⟩ := hasMinedCommitment_cases hq
  · rw [hasMinedCommitment, haborted] at hq
    cases hq
  · rw [hnone, Option.getD_none, hexists] at hanswer
    exact Except.ok.inj hanswer

theorem Coherent.store (h : s.Coherent W) (hparams : params.type = qc.llmqType) :
    (s.storeCommitment E params nHeight blockHash qc base).Coherent fun k => k = quorumKey qc ∨ W k := by
  have hkey : (params.type, qc.quorumHash) = quorumKey qc := by rw [hparams, quorumKey]
  refine ⟨⟨fun k b hb => ?_⟩, fun k ht => ?_, fun k hW => ⟨?_, ?_⟩⟩
  · obtain ⟨hold, hne⟩ := storeCommitment_cached hb
    obtain ⟨hview, hcommitted⟩ := h.cached k b hold
    rw [storeCommitment_mined, hkey]
    refine ⟨?_, hcommitted⟩
    rw [hview]
    refine (exists?_congr ?_).symm
    rw [Table.read_write, if_neg hne]
  · rw [storeCommitment_mined, hkey] at ht
    exact (DBTransaction.touches_write.mp ht).imp id (h.touched k)
  · rw [storeCommitment_mined, hkey, Table.exists?, Table.read_write]
    rcases hW with rfl | hW
    · simp
    · split_ifs
      · rfl
      · exact (h.written k hW).1
  · cases hc : (s.storeCommitment E params nHeight blockHash qc base).cached k with
    | none => rfl
    | some b =>
      obtain ⟨hold, hne⟩ := storeCommitment_cached hc
      rcases hW with rfl | hW
      · exact absurd rfl hne
      · rw [(h.written k hW).2] at hold
        cases hold

theorem Coherent.step (h : s.Coherent W) (hnew : qc.isNull = false → ¬ W (quorumKey qc))
    (hstep : CommitmentStep E chain nHeight blockHash qc fJustCheck fBLSChecks s r s') :
    s'.Coherent W ∨ (fJustCheck = false ∧ qc.isNull = false ∧ s'.Coherent fun k => k = quorumKey qc ∨ W k) := by
  cases hstep with
  | rejected e => exact .inl h
  | null => exact .inl h
  | refused e q s₁ notNull queried => exact .inl (h.query (hnew notNull) queried)
  | accepted params known names notNull s₁ queried mining base found verified =>
    have hquery := h.query (hnew notNull) queried
    cases fJustCheck with
    | true => exact .inl hquery
    | false => exact .inr ⟨rfl, notNull, hquery.store (getLLMQParams_type known)⟩

/-- The commitments of a block, if no two of them are for one quorum or nothing is written. -/
theorem Coherent.steps
    (hsteps : CommitmentSteps E chain nHeight blockHash fJustCheck fBLSChecks s qcs r s') (h : s.Coherent W)
    (hnew : ∀ qc ∈ qcs, qc.isNull = false → ¬ W (quorumKey qc))
    (hdistinct : fJustCheck = true ∨ ((qcs.filter (!·.isNull)).map quorumKey).Nodup) : ∃ W', s'.Coherent W' := by
  induction hsteps generalizing W with
  | nil s => exact ⟨W, h⟩
  | fail qcs step =>
    rcases h.step (hnew _ List.mem_cons_self) step with hW | ⟨-, -, hW⟩
    · exact ⟨_, hW⟩
    · exact ⟨_, hW⟩
  | @cons s s₁ s' qc qcs r step rest ih =>
    have hrest : fJustCheck = true ∨ ((qcs.filter (!·.isNull)).map quorumKey).Nodup := by
      refine hdistinct.imp id fun hnodup => ?_
      rw [List.filter_cons] at hnodup
      split_ifs at hnodup
      · exact (List.nodup_cons.mp hnodup).2
      · exact hnodup
    obtain ⟨hhead, htail⟩ := List.forall_mem_cons.mp hnew
    rcases h.step hhead step with hW | ⟨hjust, hnull, hW⟩
    · exact ih hW htail hrest
    · refine ih hW (fun qc' hqc' hnull' => ?_) hrest
      rintro (heq | hW')
      · have hnodup := hdistinct.resolve_left (by simp [hjust])
        rw [List.filter_cons, if_pos (by simp [hnull]), List.map_cons, List.nodup_cons] at hnodup
        exact hnodup.1 (heq ▸ List.mem_map_of_mem (List.mem_filter.mpr ⟨hqc', by simp [hnull']⟩))
      · exact htail qc' hqc' hnull' hW'

/-- Commitments that are all accepted are for different quorums, so that their writes keep the
coherence. -/
theorem Coherent.accepted_steps
    (hsteps : CommitmentSteps E chain nHeight blockHash fJustCheck fBLSChecks s qcs (.ok ()) s')
    (h : s.Coherent W) : ∃ W', s'.Coherent W' := by
  generalize hr : (Except.ok () : Except Failure Unit) = r at hsteps
  induction hsteps generalizing W with
  | nil s => exact ⟨W, h⟩
  | fail qcs step => cases hr
  | @cons s s₁ s' qc qcs r step rest ih =>
    have hnew : qc.isNull = false → ¬ W (quorumKey qc) := by
      intro hnull hW
      cases step with
      | null params known names isNull =>
        rw [hnull] at isNull
        cases isNull
      | accepted params known names notNull s₂ queried mining base found verified =>
        have hfound := h.hasMined_of_written hW queried
        cases hfound
    rcases h.step hnew step with hW | ⟨-, -, hW⟩
    · exact ih hW hr
    · exact ih hW hr

/-! ### Committing and rolling back -/

theorem RightAnswers.commit (h : s.RightAnswers) : s.commit.Coherent Unwritten := by
  refine ⟨⟨fun k b hb => ?_⟩, fun k ht => absurd ht DBTransaction.not_touches_empty, fun k hW => hW.elim⟩
  obtain ⟨hview, -⟩ := h.cached k b hb
  have hread : s.commit.minedCommitment.read k = s.minedCommitment.read k := Table.read_commit
  refine ⟨hview.trans (exists?_congr hread.symm), ?_⟩
  rw [hview, Table.exists?, ← hread, Table.read_of_not_touches DBTransaction.not_touches_empty]

theorem RightAnswers.rollback (h : s.RightAnswers) : s.rollback.Coherent Unwritten := by
  refine ⟨⟨fun k b hb => ?_⟩, fun k ht => absurd ht DBTransaction.not_touches_empty, fun k hW => hW.elim⟩
  obtain ⟨-, hcommitted⟩ := h.cached k b hb
  have hread : s.rollback.minedCommitment.read k = s.minedCommitment.committed[k]? := Table.read_rollback
  exact ⟨by rw [Table.exists?, hread, hcommitted], hcommitted⟩

theorem Coherent.writeBestBlock (h : s.Coherent W) : (s.writeBestBlock blockHash).Coherent W :=
  ⟨⟨h.cached⟩, h.touched, h.written⟩

theorem Coherent.failed_block (h : s.Coherent Unwritten)
    (hdistinct : fJustCheck = true ∨ (((blockCommitments block).filter (!·.isNull)).map quorumKey).Nodup)
    (hstep : BlockStep E chain block pindex fJustCheck fBLSChecks s r s') : ∃ W, s'.Coherent W := by
  have hqcs : ∀ qcs, getCommitmentsFromBlock E block pindex = .ok qcs →
      fJustCheck = true ∨ ((qcs.filter (!·.isNull)).map quorumKey).Nodup := by
    intro qcs hcollect
    refine hdistinct.imp id fun hnodup => ?_
    exact (((getCommitmentsFromBlock_perm hcollect).filter _).map _).nodup_iff.mpr hnodup
  cases hstep with
  | inactive => exact ⟨_, h.writeBestBlock⟩
  | unreadable => exact ⟨_, h⟩
  | miscounted collected counted => exact ⟨_, h.queries (checkBlockCounts_queries counted)⟩
  | failed collected counted steps =>
    exact (h.queries (checkBlockCounts_queries counted)).steps steps (fun _ _ _ hW => hW) (hqcs _ collected)
  | processed active collected counted steps =>
    obtain ⟨W, hW⟩ := (h.queries (checkBlockCounts_queries counted)).steps steps (fun _ _ _ hW => hW) (hqcs _ collected)
    exact ⟨W, hW.writeBestBlock⟩

theorem Coherent.accepted_block (h : s.Coherent Unwritten)
    (hstep : BlockStep E chain block pindex fJustCheck fBLSChecks s (.ok ()) s') : ∃ W, s'.Coherent W := by
  cases hstep with
  | inactive => exact ⟨_, h.writeBestBlock⟩
  | processed active collected counted steps =>
    obtain ⟨W, hW⟩ := (h.queries (checkBlockCounts_queries counted)).accepted_steps steps
    exact ⟨W, hW.writeBestBlock⟩

/-! ### Undoing blocks -/

theorem RightAnswers.eraseCommitment (h : s.RightAnswers) : (s.eraseCommitment E params pindex qc).RightAnswers := by
  refine ⟨fun k b hb => ?_⟩
  obtain ⟨hold, hne⟩ := eraseCommitment_cached hb
  obtain ⟨hview, hcommitted⟩ := h.cached k b hold
  rw [eraseCommitment_mined]
  refine ⟨?_, hcommitted⟩
  rw [hview]
  refine (exists?_congr ?_).symm
  rw [Table.read_erase, if_neg hne]

section Undo

variable {P : CQuorumBlockProcessor → Prop}
  (hcongr : ∀ {s s' : CQuorumBlockProcessor}, s'.minedCommitment = s.minedCommitment →
    s'.mapHasMinedCommitmentCache = s.mapHasMinedCommitmentCache → P s → P s')
  (herase : ∀ {s params qc}, P s → P (s.eraseCommitment E params pindex qc))

include hcongr herase

theorem undoCommitments_preserves (h : P s) (hundo : s.undoCommitments E pindex qcs = (r, s'))
    (hr : r ≠ .error .aborted) : P s' := by
  induction qcs generalizing s with
  | nil =>
    cases hundo
    exact h
  | cons qc qcs ih =>
    unfold undoCommitments at hundo
    split_ifs at hundo
    · exact ih h hundo
    · split at hundo
      · cases hundo
        exact absurd rfl hr
      · next params known =>
        have hmine : ∀ r s₁, (s.eraseCommitment E params pindex qc).addMineableCommitment E qc = (r, s₁) → P s₁ := by
          intro r s₁ hadd
          obtain ⟨hmined, hcache⟩ := addMineableCommitment_same hadd
          exact hcongr hmined hcache (herase h)
        split at hundo
        · next e s₁ hadd =>
          cases hundo
          exact hmine _ _ hadd
        · next s₁ hadd => exact ih (hmine _ _ hadd) hundo

/-- What erasing a commitment keeps of the database and the caches is kept when a block is undone. -/
theorem undoBlock_preserves (h : P s) (hundo : s.undoBlock E block pindex = (r, s')) (hr : r ≠ .error .aborted) :
    P s' := by
  unfold undoBlock at hundo
  split at hundo
  · cases hundo
    exact h
  · split at hundo
    · next e s₁ hcommitments =>
      cases hundo
      exact undoCommitments_preserves hcongr herase h hcommitments hr
    · next s₁ hcommitments =>
      have hundone := undoCommitments_preserves hcongr herase h hcommitments (by simp)
      split at hundo
      · cases hundo
        exact hundone
      · cases hundo
        exact hcongr (s := s₁) rfl rfl hundone

end Undo

theorem RightAnswers.of_undoBlock (h : s.RightAnswers) (hundo : s.undoBlock E block pindex = (r, s'))
    (hr : r ≠ .error .aborted) : s'.RightAnswers := by
  refine undoBlock_preserves (fun hmined hcache h => ⟨fun k b hb => ?_⟩) (fun h => h.eraseCommitment) h hundo hr
  rw [hmined]
  rw [CQuorumBlockProcessor.cached, hcache] at hb
  exact h.cached k b hb

/-! ### Runs

Runs of the block processor.  Blocks are connected and disconnected, connections fail at any
point, with the database rolled back, and the cache is asked.  In every run in which no
failing block has two commitments for one quorum, the cache answers as the database does.
-/

open Option

/-- The commitments of a block that are not null are for different quorums. -/
def OneCommitmentPerQuorum (block : CBlock) : Prop :=
  (((blockCommitments block).filter (!·.isNull)).map quorumKey).Nodup

/-- A step of a run.  A block may fail in its processing or after it, or may only be checked. -/
inductive Step (E : LlmqEnv) (ok : CBlock → Prop) : CQuorumBlockProcessor → CQuorumBlockProcessor → Prop where
  | query {s s' : CQuorumBlockProcessor} {llmqType : ℕ} {quorumHash : Uint256} {answer : Bool}
      (queried : s.hasMinedCommitment llmqType quorumHash = (.ok answer, s')) : Step E ok s s'
  | connect {s s' : CQuorumBlockProcessor} {chain : ChainState} {block : CBlock} {pindex : CBlockIndex}
      {fBLSChecks : Bool}
      (processed : s.processBlock E chain block pindex false fBLSChecks = (.ok (), s')) : Step E ok s s'.commit
  | connectFailed {s s' : CQuorumBlockProcessor} {chain : ChainState} {block : CBlock} {pindex : CBlockIndex}
      {fJustCheck fBLSChecks : Bool} {r : Except Failure Unit}
      (condition : fJustCheck = false → ok block)
      (processed : s.processBlock E chain block pindex fJustCheck fBLSChecks = (r, s'))
      (alive : r ≠ .error .aborted) : Step E ok s s'.rollback
  | disconnect {s s' : CQuorumBlockProcessor} {block : CBlock} {pindex : CBlockIndex}
      (undone : s.undoBlock E block pindex = (.ok (), s')) : Step E ok s s'.commit
  | disconnectFailed {s s' : CQuorumBlockProcessor} {block : CBlock} {pindex : CBlockIndex}
      {r : Except Failure Unit} (undone : s.undoBlock E block pindex = (r, s'))
      (alive : r ≠ .error .aborted) : Step E ok s s'.rollback

/-- A state after the start of the node, with any database and an empty cache for each type. -/
structure Started (E : LlmqEnv) (s : CQuorumBlockProcessor) : Prop where
  caches : s.mapHasMinedCommitmentCache = (create E).mapHasMinedCommitmentCache
  clean : ∀ k, ¬ s.minedCommitment.cur.Touches k

variable (E ok) in
inductive Run : CQuorumBlockProcessor → Prop where
  | start {s : CQuorumBlockProcessor} (started : Started E s) : Run s
  | step {s s' : CQuorumBlockProcessor} (run : Run s) (step : Step E ok s s') : Run s'

/-! ### The caches -/

def KeepsCaches (s s' : CQuorumBlockProcessor) : Prop :=
  ∀ t : ℕ, (s.mapHasMinedCommitmentCache[t]?).isSome = true → (s'.mapHasMinedCommitmentCache[t]?).isSome = true

theorem KeepsCaches.refl (s : CQuorumBlockProcessor) : KeepsCaches s s :=
  fun _ => id

theorem KeepsCaches.trans (h₁ : KeepsCaches s s₁) (h₂ : KeepsCaches s₁ s') : KeepsCaches s s' :=
  fun t ht => h₂ t (h₁ t ht)

theorem KeepsCaches.of_eq (h : s'.mapHasMinedCommitmentCache = s.mapHasMinedCommitmentCache) : KeepsCaches s s' := by
  intro t ht
  rwa [h]

theorem setCache_keepsCaches {cache : LruCache Uint256 Bool} : KeepsCaches s (s.setCache llmqType cache) := by
  intro t ht
  rw [setCache, Map.get_insert]
  split_ifs
  · rfl
  · exact ht

theorem eraseCached_keepsCaches : KeepsCaches s (s.eraseCached llmqType quorumHash) := by
  unfold eraseCached
  split
  · exact setCache_keepsCaches
  · exact .refl s

theorem hasMinedCommitment_keepsCaches {q : Except Failure Bool}
    (h : s.hasMinedCommitment llmqType quorumHash = (q, s')) : KeepsCaches s s' := by
  unfold hasMinedCommitment at h
  split at h
  · cases h
    exact .refl _
  · split at h
    · cases h
      exact setCache_keepsCaches
    · cases h
      exact setCache_keepsCaches

theorem Queries.keepsCaches (h : Queries s s') : KeepsCaches s s' := by
  induction h with
  | refl s => exact .refl s
  | query queried _ ih => exact (hasMinedCommitment_keepsCaches queried).trans ih

theorem CommitmentStep.keepsCaches
    (h : CommitmentStep E chain nHeight blockHash qc fJustCheck fBLSChecks s r s') : KeepsCaches s s' := by
  cases h with
  | rejected => exact .refl _
  | null => exact .refl _
  | refused e q _ notNull queried => exact hasMinedCommitment_keepsCaches queried
  | accepted params known names notNull s₁ queried mining base found verified =>
    have hquery := hasMinedCommitment_keepsCaches queried
    cases fJustCheck with
    | true => exact hquery
    | false => exact hquery.trans (eraseCached_keepsCaches.trans (.of_eq storeCommitment_caches))

theorem CommitmentSteps.keepsCaches
    (h : CommitmentSteps E chain nHeight blockHash fJustCheck fBLSChecks s qcs r s') : KeepsCaches s s' := by
  induction h with
  | nil s => exact .refl s
  | fail qcs step => exact step.keepsCaches
  | cons step _ ih => exact step.keepsCaches.trans ih

theorem BlockStep.keepsCaches (h : BlockStep E chain block pindex fJustCheck fBLSChecks s r s') : KeepsCaches s s' := by
  cases h with
  | inactive => exact .of_eq rfl
  | unreadable => exact .refl _
  | miscounted _ counted => exact (checkBlockCounts_queries counted).keepsCaches
  | failed _ counted steps => exact (checkBlockCounts_queries counted).keepsCaches.trans steps.keepsCaches
  | processed _ _ counted steps =>
    exact ((checkBlockCounts_queries counted).keepsCaches.trans steps.keepsCaches).trans (.of_eq rfl)

theorem undoBlock_keepsCaches (h : s.undoBlock E block pindex = (r, s')) (hr : r ≠ .error .aborted) :
    KeepsCaches s s' := by
  refine undoBlock_preserves (fun _ hcache h => h.trans (.of_eq hcache)) (fun h => h.trans ?_) (.refl s) h hr
  exact eraseCached_keepsCaches.trans (.of_eq eraseCommitment_caches)

theorem create_caches (E : LlmqEnv) :
    (∀ params ∈ E.params.llmqs, ((create E).mapHasMinedCommitmentCache[params.type]?).isSome = true) ∧
      ∀ (t : ℕ) cache, (create E).mapHasMinedCommitmentCache[t]? = some cache → ∀ h, cache.peek h = none := by
  have hget (t : ℕ) := Map.get_foldl_emplace LLMQParams.type
    (fun llmq => (LruCache.create llmq.keepOldConnections : LruCache Uint256 Bool)) E.params.llmqs ∅ t
  refine ⟨fun params hparams => ?_, fun t cache hcache h => ?_⟩
  · rw [create, hget, Map.get_empty, none_or, isSome_map, List.find?_isSome]
    exact ⟨params, hparams, by simp⟩
  · rw [create, hget, Map.get_empty, none_or] at hcache
    obtain ⟨llmq, -, rfl⟩ := map_eq_some_iff.mp hcache
    exact LruCache.peek_create _ _

/-! ### Runs -/

theorem Started.coherent (h : Started E s) : s.Coherent Unwritten := by
  refine ⟨⟨fun k b hb => ?_⟩, fun k ht => absurd ht (h.clean k), fun k hW => hW.elim⟩
  rw [cached, h.caches] at hb
  obtain ⟨cache, hcache, hpeek⟩ := bind_eq_some_iff.mp hb
  rw [(create_caches E).2 _ _ hcache] at hpeek
  cases hpeek

theorem Coherent.runStep (h : s.Coherent Unwritten) (hstep : Step E OneCommitmentPerQuorum s s') :
    s'.Coherent Unwritten := by
  cases hstep with
  | query queried => exact h.query (fun hW => hW) queried
  | connect processed =>
    obtain ⟨W, hW⟩ := h.accepted_block (processBlock_step processed)
    exact hW.commit
  | @connectFailed s₁ chain block pindex fJustCheck fBLSChecks r condition processed alive =>
    have hdistinct : fJustCheck = true ∨ OneCommitmentPerQuorum block := by
      cases fJustCheck with
      | true => exact .inl rfl
      | false => exact .inr (condition rfl)
    obtain ⟨W, hW⟩ := h.failed_block hdistinct (processBlock_step processed)
    exact hW.rollback
  | disconnect undone => exact (h.toRightAnswers.of_undoBlock undone (by simp)).commit
  | disconnectFailed undone alive => exact (h.toRightAnswers.of_undoBlock undone alive).rollback

theorem Step.keepsCaches {ok : CBlock → Prop} (hstep : Step E ok s s') : KeepsCaches s s' := by
  cases hstep with
  | query queried => exact hasMinedCommitment_keepsCaches queried
  | connect processed => exact (processBlock_step processed).keepsCaches.trans (.of_eq rfl)
  | connectFailed condition processed alive =>
    exact (processBlock_step processed).keepsCaches.trans (.of_eq rfl)
  | disconnect undone => exact (undoBlock_keepsCaches undone (by simp)).trans (.of_eq rfl)
  | disconnectFailed undone alive => exact (undoBlock_keepsCaches undone alive).trans (.of_eq rfl)

theorem Run.coherent (h : Run E OneCommitmentPerQuorum s) : s.Coherent Unwritten := by
  induction h with
  | start started => exact started.coherent
  | step _ step ih => exact ih.runStep step

theorem Run.hasCache {ok : CBlock → Prop} (h : Run E ok s) {params : LLMQParams}
    (hparams : params ∈ E.params.llmqs) : (s.mapHasMinedCommitmentCache[params.type]?).isSome = true := by
  induction h with
  | start started =>
    rw [started.caches]
    exact (create_caches E).1 params hparams
  | step _ step ih => exact step.keepsCaches _ ih

/-- In every run of connections, failing connections, disconnections and queries in which no block whose
connection fails has two commitments for one quorum, the block processor answers for every quorum of a type
of the network whether the database has a commitment. -/
theorem hasMinedCommitment_eq_exists (E : LlmqEnv) (s : CQuorumBlockProcessor)
    (hrun : Run E OneCommitmentPerQuorum s) (params : LLMQParams) (hparams : params ∈ E.params.llmqs)
    (quorumHash : Uint256) :
    (s.hasMinedCommitment params.type quorumHash).1 = .ok (s.minedCommitment.exists? (params.type, quorumHash)) := by
  have hquery : s.hasMinedCommitment params.type quorumHash =
      ((s.hasMinedCommitment params.type quorumHash).1, (s.hasMinedCommitment params.type quorumHash).2) := rfl
  obtain ⟨-, hnone | hanswer, -⟩ := hasMinedCommitment_cases hquery
  · have hcache := hrun.hasCache hparams
    rw [hnone] at hcache
    cases hcache
  · rw [hanswer]
    cases hcached : s.cached (params.type, quorumHash) with
    | none => rfl
    | some b => rw [getD_some, (hrun.coherent.cached _ b hcached).1]

/-! ### Two commitments for one quorum -/

/-- A chain of blocks with the hashes 1000, 1001 and so on. -/
def numberedChain : ℕ → CBlockIndex
  | 0 => .genesis 1000
  | n + 1 => .child (BitVec.ofNat 256 (1001 + n)) (numberedChain n)

def numberedState (n : ℕ) : ChainState where
  tip := some (numberedChain n)
  lookupBlockIndex hash := ((List.range (n + 1)).map numberedChain).find? (·.getBlockHash == hash)
  blsLegacyScheme := false

/-- A network with rotated quorums of four members. -/
def rotatedEnv : LlmqEnv :=
  { sampleEnv with
    params := { devnetParams with llmqs := [llmqTestDip0024] }
    getAllQuorumMembers := fun _ _ => List.replicate 4 memberMN
    minSize := fun _ => 4
    isDIP0024Active := fun _ => true
    isQuorumTypeEnabled := fun _ _ => true
    buildCommitmentHash := fun _ _ _ _ _ => 1
    verifySecureAggregated := fun _ _ _ => true
    hashCommitment := fun qc => qc.quorumHash }

/-- A commitment of the first quorum of the cycle that begins at height 24. -/
def rotatedCommitment : CFinalCommitment where
  nVersion := 4
  llmqType := 103
  quorumHash := 1024
  quorumIndex := 0
  signers := List.replicate 4 true
  validMembers := List.replicate 4 true
  quorumPublicKey := some ⟨7⟩
  quorumVvecHash := 1
  quorumSig := some ⟨7⟩
  membersSig := some ⟨7⟩

def commitmentTx (hash : Uint256) (qc : CFinalCommitment) : CTransaction where
  hash := hash
  payload := .quorumCommitment (some { nHeight := 36, commitment := qc })

/-- A null commitment of the second quorum. -/
def rotatedNull : CFinalCommitment where
  nVersion := 4
  llmqType := 103
  quorumHash := 1025
  quorumIndex := 1
  signers := List.replicate 4 false
  validMembers := List.replicate 4 false

/-- A block at height 36 with the commitments of both quorums, and one with the first commitment twice. -/
def singleBlock : CBlock :=
  ⟨[sampleCoinbase 19, commitmentTx 20 rotatedCommitment, commitmentTx 21 rotatedNull]⟩

def doubleBlock : CBlock :=
  ⟨[sampleCoinbase 19, commitmentTx 20 rotatedCommitment, commitmentTx 21 rotatedCommitment]⟩

theorem started_create (E : LlmqEnv) : Started E (create E) :=
  ⟨rfl, fun _ => DBTransaction.not_touches_empty⟩

theorem step_of_failed {ok : CBlock → Prop} (condition : fJustCheck = false → ok block)
    (alive : (s.processBlock E chain block pindex fJustCheck fBLSChecks).1 ≠ .error .aborted) :
    Step E ok s (s.processBlock E chain block pindex fJustCheck fBLSChecks).2.rollback :=
  .connectFailed condition rfl alive

/-- The state after the block with one commitment is rolled back. -/
theorem hasMinedCommitment_eq_exists_rolledBack :
    let s := ((create rotatedEnv).processBlock rotatedEnv (numberedState 35) singleBlock (numberedChain 36)
      false true).2.rollback
    (s.hasMinedCommitment 103 1024).1 = .ok false := by
  intro s
  have hcondition : OneCommitmentPerQuorum singleBlock := by
    unfold OneCommitmentPerQuorum
    decide +kernel
  have hrun : Run rotatedEnv OneCommitmentPerQuorum s :=
    .step (.start (started_create _)) (step_of_failed (fun _ => hcondition) (by decide +kernel))
  have hanswer := hasMinedCommitment_eq_exists rotatedEnv s hrun llmqTestDip0024 (by decide) 1024
  have hexists : s.minedCommitment.exists? (llmqTestDip0024.type, 1024) = false := by decide +kernel
  rw [hexists] at hanswer
  exact hanswer

/-- A block with the same commitment twice is refused and rolled back, and afterwards the cache has a
commitment that the database does not have. -/
theorem hasMinedCommitment_eq_exists_fails : ∃ s : CQuorumBlockProcessor,
    Run rotatedEnv (fun _ => True) s ∧ llmqTestDip0024 ∈ rotatedEnv.params.llmqs ∧
    (s.hasMinedCommitment llmqTestDip0024.type 1024).1 = .ok true ∧
    s.minedCommitment.exists? (llmqTestDip0024.type, 1024) = false :=
  ⟨((create rotatedEnv).processBlock rotatedEnv (numberedState 35) doubleBlock (numberedChain 36)
    false true).2.rollback,
    .step (.start (started_create _)) (step_of_failed (fun _ => trivial) (by decide +kernel)),
    by decide, by decide +kernel, by decide +kernel⟩

end CQuorumBlockProcessor

end OmegaCore.Llmq
