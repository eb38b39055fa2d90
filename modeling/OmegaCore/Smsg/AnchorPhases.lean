import OmegaCore.Smsg.AnchorRun

/-!
The phases of an anchored hash.  A known hash lies in one container, and while the file
holds what the manager holds it only moves on: from pending to prepared, submitted and
confirmed, where an abort or a reload returns prepared hashes to the queue.
-/

namespace OmegaCore.Smsg

open Util MsgAnchorManager AnchorSystem List

/-! ### Containers -/

inductive Container where
  | pending
  | prepared
  | batch (i : ℕ)

namespace MsgAnchorManager

def Holds (m : MsgAnchorManager) (h : Uint256) : Container → Prop
  | .pending => h ∈ entryHashes m.pending
  | .prepared => h ∈ entryHashes m.preparedEntries
  | .batch i => ∃ batch, m.batches[i]? = some batch ∧ h ∈ entryHashes batch.entries

variable {m : MsgAnchorManager}

variable {h : Uint256}

theorem Indexed.mem_allHashes (hm : m.Indexed) : h ∈ m.allHashes ↔ ∃ c, m.Holds h c := by
  rw [hm.allHashes_eq, mem_toFinset, allEntryHashes, mem_append, mem_append, mem_flatMap]
  constructor
  · rintro ((hin | hin) | ⟨batch, hbatch, hin⟩)
    · exact ⟨.pending, hin⟩
    · exact ⟨.prepared, hin⟩
    · obtain ⟨i, hi⟩ := mem_iff_getElem?.mp hbatch
      exact ⟨.batch i, batch, hi, hin⟩
  · rintro ⟨c, hin⟩
    cases c with
    | pending => exact .inl (.inl hin)
    | prepared => exact .inl (.inr hin)
    | batch i =>
      obtain ⟨batch, hi, hin⟩ := hin
      exact .inr ⟨batch, mem_of_getElem? hi, hin⟩

theorem Holds.mem_batches {i : ℕ} (hin : m.Holds h (.batch i)) :
    h ∈ m.batches.flatMap fun batch => entryHashes batch.entries := by
  obtain ⟨batch, hi, hin⟩ := hin
  exact mem_flatMap.mpr ⟨batch, mem_of_getElem? hi, hin⟩

theorem Indexed.batch_unique (hm : m.Indexed) {i j : ℕ} (hi : m.Holds h (.batch i))
    (hj : m.Holds h (.batch j)) : i = j := by
  have hpair := (nodup_flatMap.mp (nodup_append'.mp hm.distinct.hashes).2.1).2
  -- Two different batches have disjoint hashes, in either order.
  have hlt : ∀ {i j : ℕ}, i < j → m.Holds h (.batch i) → ¬ m.Holds h (.batch j) := by
    rintro i j hij ⟨b, hb, hin⟩ ⟨c, hc, hin'⟩
    obtain ⟨hib, rfl⟩ := List.getElem?_eq_some_iff.mp hb
    obtain ⟨hjc, rfl⟩ := List.getElem?_eq_some_iff.mp hc
    exact List.pairwise_iff_getElem.mp hpair i j hib hjc hij hin hin'
  rcases Nat.lt_trichotomy i j with hij | hij | hij
  · exact absurd hj (hlt hij hi)
  · exact hij
  · exact absurd hi (hlt hij hj)

theorem Indexed.holds_unique (hm : m.Indexed) {c d : Container} (hc : m.Holds h c) (hd : m.Holds h d) : c = d := by
  obtain ⟨hfront, -, hout⟩ := nodup_append'.mp hm.distinct.hashes
  have hdisj := (nodup_append'.mp hfront).2.2
  cases c with
  | pending =>
    cases d with
    | pending => rfl
    | prepared => exact absurd hd (hdisj hc)
    | batch i => exact absurd hd.mem_batches (hout (mem_append_left _ hc))
  | prepared =>
    cases d with
    | pending => exact absurd hc (hdisj hd)
    | prepared => rfl
    | batch i => exact absurd hd.mem_batches (hout (mem_append_right _ hc))
  | batch i =>
    cases d with
    | pending => exact absurd hc.mem_batches (hout (mem_append_left _ hd))
    | prepared => exact absurd hc.mem_batches (hout (mem_append_right _ hd))
    | batch j => rw [hm.batch_unique hc hd]

theorem Indexed.existsUnique_container (hm : m.Indexed) (hknown : h ∈ m.allHashes) : ∃! c, m.Holds h c := by
  obtain ⟨c, hc⟩ := hm.mem_allHashes.mp hknown
  exact ⟨c, hc, fun d hd => hm.holds_unique hd hc⟩

end MsgAnchorManager

/-! ### Phases -/

inductive AnchorPhase where
  | unknown | pending | prepared | submitted | confirmed
  deriving DecidableEq

def AnchorPhase.rank : AnchorPhase → ℕ
  | .unknown => 0
  | .pending => 1
  | .prepared => 2
  | .submitted => 3
  | .confirmed => 4

namespace MsgAnchorManager

/-- The status of a hash, with the prepared hashes apart from the queued ones. -/
def phase (m : MsgAnchorManager) (h : Uint256) : AnchorPhase :=
  match m.getHashStatus h with
  | .notFound => .unknown
  | .pending => if h ∈ m.preparedHashes then .prepared else .pending
  | .submitted => .submitted
  | .confirmed => .confirmed

/-- The phase of a hash that is stored in batches only. -/
def batchPhase (batches : List AnchorBatch) (h : Uint256) : AnchorPhase :=
  match batches.find? fun batch => h ∈ entryHashes batch.entries with
  | none => .unknown
  | some batch => if batch.nCommitted ≠ 0 then .confirmed else .submitted

/-- The phase read from the containers. -/
def phaseOf (pending prepared : List AnchorEntry) (batches : List AnchorBatch) (h : Uint256) : AnchorPhase :=
  if h ∈ entryHashes prepared then .prepared
  else if h ∈ entryHashes pending then .pending
  else batchPhase batches h

variable {m : MsgAnchorManager}

theorem Indexed.phase_eq (hm : m.Indexed) (h : Uint256) :
    m.phase h = phaseOf m.pending m.preparedEntries m.batches h := by
  unfold phaseOf
  have hindex := batchIndex_get_batchIndexOf m.batches h
  rw [← hm.batchIndex_eq] at hindex
  simp only [phase, getHashStatus, hm.pendingHashes_eq, hm.preparedHashes_eq, mem_toFinset]
  by_cases hprep : h ∈ entryHashes m.preparedEntries
  · simp [hprep]
  by_cases hpend : h ∈ entryHashes m.pending
  · simp [hprep, hpend]
  · simp only [hprep, hpend, or_self, if_false]
    rw [batchPhase, find?_eq_bind_findIdx?_getElem?, ← hindex]
    cases hget : m.batchIndex[h]? with
    | none => rfl
    | some location =>
      rw [hget] at hindex
      obtain ⟨hlt, -⟩ := findIdx?_eq_some_iff_getElem.mp hindex.symm
      simp only [Option.map_some, Option.bind_some, nCommittedAt, getElem?_eq_getElem hlt, Option.getD_some]
      split_ifs <;> rfl

theorem batchPhase_eq_unknown {batches : List AnchorBatch} {h : Uint256} :
    batchPhase batches h = .unknown ↔ ∀ batch ∈ batches, h ∉ entryHashes batch.entries := by
  unfold batchPhase
  cases hfind : batches.find? fun batch => h ∈ entryHashes batch.entries with
  | none => simpa using hfind
  | some batch =>
    have hmem := mem_of_find?_eq_some hfind
    have hin := find?_some hfind
    rw [decide_eq_true_eq] at hin
    simp only
    constructor
    · intro hphase
      split_ifs at hphase
    · exact fun hout => absurd hin (hout batch hmem)

theorem Indexed.phase_eq_unknown (hm : m.Indexed) {h : Uint256} : m.phase h = .unknown ↔ h ∉ m.allHashes := by
  rw [hm.phase_eq, phaseOf, hm.allHashes_eq, mem_toFinset, allEntryHashes, mem_append,
    mem_append, mem_flatMap]
  by_cases hprep : h ∈ entryHashes m.preparedEntries
  · simp [hprep]
  by_cases hpend : h ∈ entryHashes m.pending
  · simp [hprep, hpend]
  · simp [hprep, hpend, batchPhase_eq_unknown]

end MsgAnchorManager

/-! ### Moves -/

/-- The calls that return prepared hashes to the queue. -/
def AnchorOp.requeues : AnchorOp → Bool
  | .abortPrepared _ => true
  | .load _ _ => true
  | _ => false

/-- A hash moves forward, or back from the prepared batch to the queue. -/
def Moves (op : AnchorOp) (before after : AnchorPhase) : Prop :=
  before.rank ≤ after.rank ∨ op.requeues = true ∧ before = .prepared ∧ after = .pending

instance instDecidableMoves (op : AnchorOp) (before after : AnchorPhase) : Decidable (Moves op before after) :=
  inferInstanceAs (Decidable (_ ∨ _))

theorem Moves.refl (op : AnchorOp) (phase : AnchorPhase) : Moves op phase phase :=
  .inl le_rfl

namespace MsgAnchorManager

variable {m : MsgAnchorManager}

theorem moves_pushPending (hm : m.Indexed) {entry : AnchorEntry} (hnew : entry.hash ∉ m.allHashes)
    (op : AnchorOp) (h : Uint256) : Moves op (m.phase h) ((m.pushPending entry).phase h) := by
  by_cases heq : h = entry.hash
  · left
    rw [heq, hm.phase_eq_unknown.mpr hnew]
    exact Nat.zero_le _
  · have hpending : h ∈ entryHashes (m.pending ++ [entry]) ↔ h ∈ entryHashes m.pending := by
      simp [entryHashes, heq]
    have hsame : (m.pushPending entry).phase h = m.phase h := by
      rw [hm.phase_eq, (hm.pushPending hnew).phase_eq]
      change phaseOf (m.pending ++ [entry]) m.preparedEntries m.batches h = _
      simp only [phaseOf, hpending]
    exact hsame ▸ Moves.refl op _

theorem moves_prepare (hash : Uint256 → Uint256 → Uint256) (hm : m.Indexed) (hnone : m.prepared = none)
    (now : Int64) (op : AnchorOp) (h : Uint256) : Moves op (m.phase h) ((m.prepare hash now).phase h) := by
  left
  rw [hm.phase_eq, (hm.prepare hash hnone now).phase_eq, preparedEntries_of_none hnone]
  change _ ≤ (phaseOf [] m.pending m.batches h).rank
  have hnil : h ∉ entryHashes [] := not_mem_nil
  by_cases hpend : h ∈ entryHashes m.pending
  · simp [phaseOf, hnil, hpend, AnchorPhase.rank]
  · simp [phaseOf, hnil, hpend]

theorem rank_batchPhase_append_le (batches : List AnchorBatch) (batch : AnchorBatch) (h : Uint256) :
    (batchPhase batches h).rank ≤ (batchPhase (batches ++ [batch]) h).rank := by
  unfold batchPhase
  rw [find?_append]
  cases batches.find? fun batch => h ∈ entryHashes batch.entries with
  | none => exact Nat.zero_le _
  | some b => exact le_rfl

variable {batches : List AnchorBatch}

theorem three_le_rank_batchPhase {h : Uint256} {batch : AnchorBatch}
    (hmem : batch ∈ batches) (hin : h ∈ entryHashes batch.entries) : 3 ≤ (batchPhase batches h).rank := by
  have hknown : batchPhase batches h ≠ .unknown := fun hphase => batchPhase_eq_unknown.mp hphase batch hmem hin
  unfold batchPhase at hknown ⊢
  cases hfind : batches.find? fun batch => h ∈ entryHashes batch.entries with
  | none =>
    rw [hfind] at hknown
    exact absurd rfl hknown
  | some b =>
    simp only
    split_ifs <;> simp [AnchorPhase.rank]

theorem moves_pushBatch (hm : m.Indexed) {prepared : PreparedAnchorBatch} {txid : String} {now : Int64}
    (hsome : m.prepared = some prepared) (hname : txid ≠ "") (hnew : m.txidIndex[txid]? = none)
    (op : AnchorOp) (h : Uint256) :
    Moves op (m.phase h) ((m.pushBatch (submittedBatch prepared txid now)).phase h) := by
  have hentries := preparedEntries_of_some hsome
  have hpushed : (m.pushBatch (submittedBatch prepared txid now)).Indexed := hm.pushBatch hentries hname hnew
  left
  rw [hm.phase_eq, hpushed.phase_eq, hentries]
  change _ ≤ (phaseOf m.pending [] (m.batches ++ [submittedBatch prepared txid now]) h).rank
  have hnil : h ∉ entryHashes [] := not_mem_nil
  by_cases hprep : h ∈ entryHashes prepared.entries
  · -- The hash leaves the prepared batch for the new one, so it is not queued.
    have hpend : h ∉ entryHashes m.pending := by
      intro hpend
      have hdisj := (nodup_append'.mp (nodup_append'.mp hm.distinct.hashes).1).2.2
      exact hdisj hpend (hentries ▸ hprep)
    have hrank : 3 ≤ (batchPhase (m.batches ++ [submittedBatch prepared txid now]) h).rank :=
      three_le_rank_batchPhase (mem_append_right _ (mem_singleton.mpr rfl)) hprep
    simp only [phaseOf, if_pos hprep, if_neg hnil, if_neg hpend]
    exact le_trans (by decide) hrank
  by_cases hpend : h ∈ entryHashes m.pending
  · simp [phaseOf, hnil, hprep, hpend]
  · simp only [phaseOf, if_neg hprep, if_neg hnil, if_neg hpend]
    exact rank_batchPhase_append_le _ _ _

theorem moves_requeue {m' : MsgAnchorManager} (hm : m.Indexed) (hm' : m'.Indexed)
    (hstate : m'.toAnchorState = m.toAnchorState.requeue) {op : AnchorOp} (hop : op.requeues = true)
    (h : Uint256) : Moves op (m.phase h) (m'.phase h) := by
  have hphase : m'.phase h = phaseOf (m.preparedEntries ++ m.pending) [] m.batches h := by
    rw [hm'.phase_eq, hstate]
    rfl
  have hnil : h ∉ entryHashes [] := not_mem_nil
  rw [hm.phase_eq, hphase]
  by_cases hprep : h ∈ entryHashes m.preparedEntries
  · right
    have hin : h ∈ entryHashes (m.preparedEntries ++ m.pending) := by
      rw [entryHashes, map_append]
      exact mem_append_left _ hprep
    refine ⟨hop, ?_, ?_⟩
    · rw [phaseOf, if_pos hprep]
    · rw [phaseOf, if_neg hnil, if_pos hin]
  · left
    have hin : h ∈ entryHashes (m.preparedEntries ++ m.pending) ↔ h ∈ entryHashes m.pending := by
      rw [entryHashes, map_append, mem_append]
      exact or_iff_right hprep
    simp only [phaseOf, if_neg hprep, if_neg hnil, hin]
    exact le_rfl

theorem rank_batchPhase_modify_le {i : ℕ} {time : Int64}
    (hzero : (batches[i]?.map (·.nCommitted)).getD 0 = 0) (h : Uint256) :
    (batchPhase batches h).rank ≤
      (batchPhase (batches.modify i fun batch => { batch with nCommitted := time }) h).rank := by
  induction batches generalizing i with
  | nil => cases i <;> exact le_rfl
  | cons batch batches ih =>
    cases i with
    | zero =>
      have hcommitted : batch.nCommitted = 0 := by simpa using hzero
      by_cases hin : h ∈ entryHashes batch.entries
      · have hrank : 3 ≤ (batchPhase ({ batch with nCommitted := time } :: batches) h).rank :=
          three_le_rank_batchPhase mem_cons_self hin
        have hbefore : batchPhase (batch :: batches) h = .submitted := by
          simp [batchPhase, hin, hcommitted]
        rw [hbefore]
        exact hrank
      · simp [batchPhase, hin]
    | succ i =>
      by_cases hin : h ∈ entryHashes batch.entries
      · simp [batchPhase, hin]
      · have htail := ih (i := i) (by simpa using hzero)
        simpa [batchPhase, find?_cons, hin] using htail

theorem moves_setCommitted (hm : m.Indexed) {i : ℕ} (hzero : m.nCommittedAt i = 0) (time : Int64)
    (op : AnchorOp) (h : Uint256) : Moves op (m.phase h) ((m.setCommitted i time).phase h) := by
  left
  rw [hm.phase_eq, (hm.setCommitted i time).phase_eq]
  change _ ≤ (phaseOf m.pending m.preparedEntries
    (m.batches.modify i fun batch => { batch with nCommitted := time }) h).rank
  unfold phaseOf
  split_ifs
  · exact le_rfl
  · exact le_rfl
  · exact rank_batchPhase_modify_le hzero h

theorem moves_of_change {hash : Uint256 → Uint256 → Uint256} {m' : MsgAnchorManager} {op : AnchorOp}
    (hm : m.Indexed) (hc : Change hash m op m') (h : Uint256) : Moves op (m.phase h) (m'.phase h) := by
  cases hc with
  | queue hnew => exact moves_pushPending hm hnew _ h
  | prepare hnone => exact moves_prepare hash hm hnone _ _ h
  | submit hsome hname hnew => exact moves_pushBatch hm hsome hname hnew _ h
  | abort => exact moves_requeue hm hm.requeuePrepared rfl rfl h
  | mark _ hzero => exact moves_setCommitted hm hzero _ _ h
  | save => exact Moves.refl _ _

end MsgAnchorManager

end OmegaCore.Smsg
