import OmegaCore.Smsg.AnchorRun

/-!
Failed calls of the anchor manager, and the sizes of its containers.  A call that returns a
failure has left the manager as it was, unless an exception passed the code that takes the
change back.  The limit of a batch is checked when a hash is queued, but an abort or a reload
puts the prepared entries before the queue without looking at it.
-/

namespace OmegaCore.Smsg

open Util MsgAnchorManager List

/-! ### Failed calls -/

/-- The call gets past its checks, to a change that it saves. -/
def AnchorOp.saves (m : MsgAnchorManager) : AnchorOp → Prop
  | .queueHash _ h _ _ => h ∉ m.allHashes ∧ m.pending.length < anchorBatchMax
  | .prepareCommit _ _ => m.prepared = none ∧ m.pending ≠ []
  | .submitPrepared _ txid _ => m.prepared ≠ none ∧ txid ≠ "" ∧ m.txidIndex[txid]? = none
  | .abortPrepared _ => m.prepared ≠ none
  | .markBatchConfirmed now txid confirmedTime _ =>
    ∃ i, m.txidIndex[txid]? = some i ∧ m.nCommittedAt i = 0 ∧ (if confirmedTime > 0 then confirmedTime else now) ≠ 0
  | .save _ => False
  | .load _ _ => False

namespace MsgAnchorManager

variable {m m' : MsgAnchorManager}

theorem setCommitted_zero {i : ℕ} (hzero : m.nCommittedAt i = 0) : m.setCommitted i 0 = m := by
  have htwice := setCommitted_setCommitted hzero 0
  simpa [setCommitted, modify_modify_eq, Function.comp_def] using htwice

theorem setCommitted_ne (hm : m.Indexed) {txid : String} {i : ℕ} {time : Int64}
    (hindex : m.txidIndex[txid]? = some i) (hzero : m.nCommittedAt i = 0) (htime : time ≠ 0) :
    m.setCommitted i time ≠ m := by
  intro heq
  rw [hm.txidIndex_eq, get_txidIndexOf] at hindex
  obtain ⟨hlt, -⟩ := findIdx?_eq_some_iff_getElem.mp hindex
  have hcommitted : (m.setCommitted i time).nCommittedAt i = time := by
    simp [nCommittedAt, setCommitted, hlt]
  rw [heq, hzero] at hcommitted
  exact htime hcommitted.symm

end MsgAnchorManager

namespace AnchorSystem

variable (hash : Uint256 → Uint256 → Uint256)

/-- A call gets past its checks exactly if its change is one. -/
theorem saves_iff_ne {m m' : MsgAnchorManager} {op : AnchorOp} (hm : m.Indexed) (hc : Change hash m op m') :
    op.saves m ↔ m' ≠ m := by
  cases hc with
  | queue hnew hroom =>
    refine iff_of_true ⟨hnew, hroom⟩ fun heq => ?_
    simpa [pushPending] using congrArg (·.pending.length) heq
  | prepare hnone hsome =>
    refine iff_of_true ⟨hnone, hsome⟩ fun heq => ?_
    simpa [prepare, hnone] using congrArg (·.prepared) heq
  | submit hsome hname hnew =>
    refine iff_of_true ⟨by simp [hsome], hname, hnew⟩ fun heq => ?_
    simpa [pushBatch] using congrArg (·.batches.length) heq
  | abort hsome => exact iff_of_true hsome fun heq => hsome (congrArg (·.prepared) heq).symm
  | @mark now txid confirmedTime outcome i hindex hzero =>
    by_cases htime : (if confirmedTime > 0 then confirmedTime else now) = 0
    · rw [htime, setCommitted_zero hzero]
      refine iff_of_false (fun hsaves => ?_) (· rfl)
      obtain ⟨-, -, -, hne⟩ := hsaves
      exact hne htime
    · exact iff_of_true ⟨i, hindex, hzero, htime⟩ (setCommitted_ne hm hindex hzero htime)
  | save => exact iff_of_false id (· rfl)

theorem exists_change_of_saves {m : MsgAnchorManager} {op : AnchorOp} (hsaves : op.saves m) :
    ∃ m', Change hash m op m' := by
  cases op with
  | queueHash now h prev outcome => exact ⟨_, .queue hsaves.1 hsaves.2⟩
  | prepareCommit now outcome => exact ⟨_, .prepare hsaves.1 hsaves.2⟩
  | submitPrepared now txid outcome =>
    obtain ⟨prepared, hsome⟩ := Option.ne_none_iff_exists'.mp hsaves.1
    exact ⟨_, .submit hsome hsaves.2.1 hsaves.2.2⟩
  | abortPrepared outcome => exact ⟨_, .abort hsaves⟩
  | markBatchConfirmed now txid confirmedTime outcome =>
    obtain ⟨i, hindex, hzero, -⟩ := hsaves
    exact ⟨_, .mark hindex hzero⟩
  | save outcome => exact hsaves.elim
  | load path outcome => exact hsaves.elim

/-- In every state reached, a call that fails leaves the manager as it was, unless it saves a
change and the removal of the temporary file throws. -/
theorem failed_unchanged_iff (files : String → FileState) (ops : List AnchorOp) (op : AnchorOp) :
    ((result hash (run hash (initial files) ops) op).isOk = false →
      (step hash (run hash (initial files) ops) op).manager = (run hash (initial files) ops).manager) ↔
    ¬ (op.saves (run hash (initial files) ops).manager ∧ op.throws = true) := by
  have hm := indexed_run hash files ops
  generalize run hash (initial files) ops = s at hm
  have hstep := step_result hash hm op
  generalize step hash s op = s', result hash s op = r at hstep
  cases hstep with
  | unchanged hnot =>
    refine iff_of_true (fun _ => rfl) fun hboth => ?_
    obtain ⟨m', hc⟩ := exists_change_of_saves hash hboth.1
    exact hnot m' hc
  | changed hc hp =>
    rw [saves_iff_ne hash hm hc]
    cases hp with
    | stored h ht => simp [ht, Except.isOk, Except.toBool]
    | rolledBack h ht e => simp [ht]
    | thrown h ht e => simp [ht, Except.isOk, Except.toBool]
  | loaded hop hload =>
    subst hop
    simp [AnchorOp.saves, Except.isOk, Except.toBool]

/-- After the exception the hash is in the queue, though no file has it. -/
theorem failed_changes : ¬ ∀ (files : String → FileState) (ops : List AnchorOp) (op : AnchorOp),
      (result (· + ·) (run (· + ·) (initial files) ops) op).isOk = false →
        (step (· + ·) (run (· + ·) (initial files) ops) op).manager = (run (· + ·) (initial files) ops).manager := by
  intro hall
  have hsame := hall (fun _ => .missing) [.load "anchors" .read]
    (.queueHash 1 1#256 0#256 (.writeFailed .missing (some "remove: Read-only file system"))) (by decide +kernel)
  exact absurd (congrArg (·.pending.length) hsame) (by decide +kernel)

end AnchorSystem

/-! ### The sizes of the containers -/

/-- No container holds more entries than a batch may have. -/
structure AnchorState.Fits (s : AnchorState) : Prop where
  pending : s.pending.length ≤ anchorBatchMax
  prepared : s.preparedEntries.length ≤ anchorBatchMax
  batches : ∀ batch ∈ s.batches, batch.entries.length ≤ anchorBatchMax

/-- What a call may put together: an abort the prepared batch and the queue, a load what the file
has of both, besides its batches. -/
def AnchorOp.within (s : AnchorSystem) : AnchorOp → Prop
  | .abortPrepared _ => s.manager.preparedEntries.length + s.manager.pending.length ≤ anchorBatchMax
  | .load path outcome => ∀ state, readState s.disk path outcome = .ok state → state.requeue.Fits
  | _ => True

namespace AnchorSystem

variable (hash : Uint256 → Uint256 → Uint256)

/-- Every call of the run keeps to the limit. -/
def Within : AnchorSystem → List AnchorOp → Prop
  | _, [] => True
  | s, op :: ops => op.within s ∧ Within (step hash s op) ops

variable {hash} {s : AnchorSystem}

theorem fits_of_change {m' : MsgAnchorManager} {op : AnchorOp} (hfit : s.manager.Fits)
    (hop : op.within s) (hc : Change hash s.manager op m') : m'.Fits := by
  cases hc with
  | queue hnew hroom =>
    refine ⟨?_, hfit.prepared, hfit.batches⟩
    rw [pushPending, length_append]
    exact hroom
  | prepare hnone hsome => exact ⟨Nat.zero_le _, hfit.pending, hfit.batches⟩
  | submit hsome hname hnew =>
    refine ⟨hfit.pending, Nat.zero_le _, fun batch hbatch => ?_⟩
    rcases mem_append.mp hbatch with hbatch | hbatch
    · exact hfit.batches batch hbatch
    · have hprepared := hfit.prepared
      rw [preparedEntries_of_some hsome] at hprepared
      rw [mem_singleton.mp hbatch]
      exact hprepared
  | abort hsome =>
    refine ⟨?_, Nat.zero_le _, hfit.batches⟩
    rw [requeuePrepared, length_append]
    exact hop
  | mark hindex hzero =>
    refine ⟨hfit.pending, hfit.prepared, fun batch hbatch => ?_⟩
    have hmem := mem_map_of_mem (f := AnchorBatch.entries) hbatch
    rw [map_entries_setCommitted] at hmem
    obtain ⟨old, hold, heq⟩ := mem_map.mp hmem
    exact heq ▸ hfit.batches old hold
  | save => exact hfit

theorem fits_step (hm : s.manager.Indexed) (hfit : s.manager.Fits) {op : AnchorOp} (hop : op.within s) :
    (step hash s op).manager.Fits := by
  have hstep := step_result hash hm op
  generalize step hash s op = s', result hash s op = r at hstep
  cases hstep with
  | unchanged => exact hfit
  | changed hc hp =>
    cases hp with
    | stored => exact fits_of_change hfit hop hc
    | rolledBack => exact hfit
    | thrown => exact fits_of_change hfit hop hc
  | loaded heq hload =>
    subst heq
    obtain ⟨state, hread, hstate, -⟩ := loadFile_eq_ok.mp hload
    exact hstate ▸ hop state hread

theorem fits_run (hm : s.manager.Indexed) (hfit : s.manager.Fits) {ops : List AnchorOp}
    (hops : Within hash s ops) : (run hash s ops).manager.Fits := by
  induction ops generalizing s with
  | nil => exact hfit
  | cons op ops ih => exact ih (indexed_step hash hm op) (fits_step hm hfit hops.1) hops.2

theorem fits_of_within {files : String → FileState} {ops : List AnchorOp}
    (hops : Within hash (initial files) ops) : (run hash (initial files) ops).manager.Fits :=
  fits_run indexed_default ⟨Nat.zero_le _, Nat.zero_le _, fun _ h => by cases h⟩ hops

def abortedOps : List AnchorOp :=
  [.load "anchors" .read, .queueHash 1 1#256 0#256 .written, .prepareCommit 2 .written, .abortPrepared .written]

theorem fits_of_within_aborted :
    Within (· + ·) (initial fun _ => .missing) abortedOps ∧
      (run (· + ·) (initial fun _ => .missing) abortedOps).manager.Fits := by
  have hops : Within (· + ·) (initial fun _ => .missing) abortedOps := by
    refine ⟨fun state hread => ?_, trivial, trivial, Nat.le_of_ble_eq_true rfl, trivial⟩
    cases hread
    exact ⟨Nat.zero_le _, Nat.zero_le _, fun _ h => by cases h⟩
  exact ⟨hops, fits_of_within hops⟩

/-- The queue is prepared, another hash is queued, and the batch is put back. -/
theorem pending_abort {h : Uint256} (hpath : s.manager.path ≠ "") (hnone : s.manager.prepared = none)
    (hsome : s.manager.pending ≠ []) (hnew : h ∉ s.manager.allHashes) :
    (run hash s [.prepareCommit 0 .written, .queueHash 0 h 0#256 .written, .abortPrepared .written]).manager.pending =
      s.manager.pending ++ [⟨h, 0#256, 0⟩] := by
  simp [run, step, prepareCommit, queueHash, abortPrepared, persist, saveLocked, hpath, hnone, hsome, hnew,
    prepare, pushPending, requeuePrepared, AnchorState.preparedEntries, anchorBatchMax]

theorem loadFile_pending {disk : Disk} {path : String} {entries : List AnchorEntry}
    (hfile : disk.files path = .text (some (serializeState { pending := entries })))
    (hnodup : (entryHashes entries).Nodup) : ∃ m, loadFile disk path .read = .ok m ∧ m.path = path ∧
      m.pending = entries ∧ m.prepared = none ∧ m.allHashes = (entryHashes entries).toFinset := by
  have hall : allEntryHashes entries [] [] = entryHashes entries := by simp [allEntryHashes, entryHashes]
  let m : MsgAnchorManager := { pending := entries, toAnchorIndexes := indexesOf entries [] [], path, loaded := true }
  refine ⟨m, loadFile_eq_ok.mpr ⟨{ pending := entries }, ?_, rfl, ?_, rfl, rfl⟩, rfl, rfl, rfl, ?_⟩
  · simp [readState, readFile, hfile, parseState_serializeState]
  · exact indexed_iff.mpr ⟨⟨hall ▸ hnodup, nodup_nil, fun _ h => by cases h⟩, rfl⟩
  · exact congrArg toFinset hall

variable (hash) in
/-- A file with a full queue is within the limit; its entries are prepared, one more hash is queued,
and the abort leaves a longer queue. -/
theorem not_fits_of_full {hs : List Uint256} {h : Uint256} (hnodup : hs.Nodup) (hnew : h ∉ hs)
    (hlen : hs.length = anchorBatchMax) : ∃ files ops, ¬ (run hash (initial files) ops).manager.Fits := by
  let entries : List AnchorEntry := hs.map fun h => { hash := h }
  have hhashes : entryHashes entries = hs := by simp [entryHashes, entries, Function.comp_def]
  let s := initial fun _ => .text (some (serializeState { pending := entries }))
  obtain ⟨m, hload, hpath, hpending, hprepared, hknown⟩ :=
    loadFile_pending (show s.disk.files "anchors" = _ from rfl) (hhashes ▸ hnodup)
  have hstep : (step hash s (.load "anchors" .read)).manager = m := by simp [step, load, hload]
  refine ⟨s.disk.files, .load "anchors" .read :: [.prepareCommit 0 .written, .queueHash 0 h 0#256 .written,
    .abortPrepared .written], fun hfits => ?_⟩
  have hlimit := hfits.pending
  change (run hash (step hash s _) _).manager.pending.length ≤ _ at hlimit
  have hlength : m.pending.length = anchorBatchMax := by rw [hpending, length_map, hlen]
  rw [pending_abort (by rw [hstep, hpath]; decide) (hstep ▸ hprepared)
    (by rw [hstep]; exact ne_nil_of_length_pos (by rw [hlength]; decide))
    (by rw [hstep, hknown, hhashes, mem_toFinset]; exact hnew), hstep, length_append, hlength,
    length_singleton] at hlimit
  omega

theorem not_fits_abort :
    ¬ ∀ (files : String → FileState) (ops : List AnchorOp), (run (· + ·) (initial files) ops).manager.Fits := by
  intro hall
  have hnat : ∀ i ≤ anchorBatchMax, (BitVec.ofNat 256 i).toNat = i := fun i hi =>
    BitVec.toNat_ofNat i 256 ▸ Nat.mod_eq_of_lt (hi.trans_lt (by decide))
  have hnodup : ((range anchorBatchMax).map (BitVec.ofNat 256)).Nodup := by
    refine nodup_range.map_on fun i hi j hj heq => ?_
    rw [← hnat i (mem_range.mp hi).le, heq, hnat j (mem_range.mp hj).le]
  have hnew : BitVec.ofNat 256 anchorBatchMax ∉ (range anchorBatchMax).map (BitVec.ofNat 256) := by
    intro hmem
    obtain ⟨i, hi, heq⟩ := mem_map.mp hmem
    have hlt := mem_range.mp hi
    rw [← hnat i hlt.le, heq, hnat _ le_rfl] at hlt
    exact hlt.false
  obtain ⟨files, ops, hnot⟩ := not_fits_of_full (· + ·) hnodup hnew (by rw [length_map, length_range])
  exact hnot (hall files ops)

end AnchorSystem

end OmegaCore.Smsg
