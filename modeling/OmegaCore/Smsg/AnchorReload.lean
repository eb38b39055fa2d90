import OmegaCore.Smsg.AnchorPhases

/-!
The anchor manager and its file.  As long as no exception leaves a save and no other file
is loaded, the file in use holds the containers of the manager, with the prepared batch
still apart from the queue, or the last save cut it short and it cannot be read.  So a reload
returns what the manager holds, or nothing.  An exception on the way out of a failed save leaves
a change in memory that the file does not have.
-/

namespace OmegaCore.Smsg

open Util MsgAnchorManager

/-- A call of `Load` names the file in use, if there is one. -/
def AnchorOp.keepsFile (s : AnchorSystem) : AnchorOp → Bool
  | .load path _ => !s.manager.loaded || path == s.manager.path
  | _ => true

/-- No exception leaves the save of a call, and the file in use stays the same. -/
def AnchorOp.permitted (s : AnchorSystem) (op : AnchorOp) : Bool :=
  !op.throws && op.keepsFile s

namespace AnchorSystem

section Careful

variable (hash : Uint256 → Uint256 → Uint256)

def Careful : AnchorSystem → List AnchorOp → Prop
  | _, [] => True
  | s, op :: ops => op.permitted s = true ∧ Careful (step hash s op) ops

instance instDecidableCareful : (s : AnchorSystem) → (ops : List AnchorOp) → Decidable (Careful hash s ops)
  | _, [] => .isTrue trivial
  | s, op :: ops =>
    have := instDecidableCareful (step hash s op) ops
    inferInstanceAs (Decidable (_ ∧ _))

theorem careful_concat {s : AnchorSystem} {ops : List AnchorOp} {op : AnchorOp} :
    Careful hash s (ops ++ [op]) ↔ Careful hash s ops ∧ op.permitted (run hash s ops) = true := by
  induction ops generalizing s with
  | nil => simp [Careful, run]
  | cons first ops ih =>
    rw [List.cons_append, Careful, Careful, ih, and_assoc]
    rfl

end Careful

/-! ### The file in use -/

/-- The file in use holds what the manager holds, unless it was cut short. -/
structure Synced (s : AnchorSystem) : Prop where
  indexed : s.manager.Indexed
  fresh : s.manager.loaded = false → s.manager = {}
  saved : ∀ path, s.disk.lastSaved = some path → s.manager.loaded = true ∧ path = s.manager.path
  reload : s.manager.loaded = true → s.disk.flushed = true →
    ∃ state, readState s.disk s.manager.path .read = .ok state ∧ state.requeue = s.manager.toAnchorState.requeue
  cut : s.disk.flushed = false →
    s.manager.loaded = true ∧ ∃ e, readState s.disk s.manager.path .read = .error e
  queued : ∀ h ∈ s.queued, h ∈ s.manager.allHashes

theorem synced_initial (files : String → FileState) : Synced (initial files) where
  indexed := indexed_default
  fresh _ := rfl
  saved _ h := nomatch h
  reload h := nomatch h
  cut h := nomatch h
  queued _ h := nomatch h

variable {path : String}

theorem readState_congr {disk disk' : Disk} (h : disk'.files path = disk.files path)
    (outcome : ReadOutcome) : readState disk' path outcome = readState disk path outcome := by
  simp only [readState, readFile, h]

variable {disk : Disk}

theorem readState_stored {m : MsgAnchorManager} (h : Stored m disk) (hflushed : disk.flushed = true) :
    readState disk m.path .read = .ok m.toAnchorState := by
  have hread : readFile disk m.path .read = .ok (some (some (serializeState m.toAnchorState))) := by
    simp only [readFile, h.file hflushed]
  rw [readState, hread]
  exact parseState_serializeState m.path m.toAnchorState

theorem readState_cutFile {isEmpty : Bool} (h : disk.files path = cutFile isEmpty) :
    ∃ e, readState disk path .read = .error e := by
  cases isEmpty with
  | true => exact ⟨_, by simp only [readState, readFile, h, cutFile]; rfl⟩
  | false => exact ⟨_, by simp only [readState, readFile, h, cutFile]; rfl⟩

variable {outcome : ReadOutcome}

theorem readState_read {state : AnchorState}
    (h : readState disk path outcome = .ok state) : readState disk path .read = .ok state := by
  have hread : (∃ e, readFile disk path outcome = .error e) ∨
      readFile disk path outcome = readFile disk path .read := by
    unfold readFile
    cases outcome with
    | inspectFailed reason => exact .inl ⟨_, rfl⟩
    | openFailed | readFailed | read => cases disk.files path <;> simp
  rcases hread with ⟨e, he⟩ | hsame
  · rw [readState, he] at h
    cases h
  · rwa [readState, hsame] at h

theorem ne_append_tmp (path : String) : path ≠ path ++ ".tmp" := by
  intro h
  have hlen := congrArg String.length h
  exact absurd hlen (by simp)

variable {m m' : MsgAnchorManager} {op : AnchorOp}

theorem change_keeps {hash : Uint256 → Uint256 → Uint256}
    (hc : Change hash m op m') : m'.path = m.path ∧ m'.loaded = m.loaded := by
  cases hc <;> exact ⟨rfl, rfl⟩

theorem known_of_moves {h : Uint256} (hm : m.Indexed)
    (hm' : m'.Indexed) (hmoves : Moves op (m.phase h) (m'.phase h)) (hknown : h ∈ m.allHashes) :
    h ∈ m'.allHashes := by
  by_contra hout
  rw [hm'.phase_eq_unknown.mpr hout] at hmoves
  rcases hmoves with hle | ⟨_, _, hpending⟩
  · have hphase : m.phase h = .unknown := by
      cases hp : m.phase h with
      | unknown => rfl
      | pending | prepared | submitted | confirmed =>
        rw [hp] at hle
        exact absurd hle (by decide)
    exact hm.phase_eq_unknown.mp hphase hknown
  · cases hpending

variable {hash : Uint256 → Uint256 → Uint256} {s : AnchorSystem}

variable {m' : MsgAnchorManager}

section

variable (hs : Synced s)

include hs

theorem Synced.stored (hc : Change hash s.manager op m') (hstored : Stored m' disk) :
    Synced { manager := m', disk, queued := op.queues (.ok ()) ++ s.queued } := by
  have hm' := indexed_of_change hash hs.indexed hc
  obtain ⟨hpath, hloaded⟩ := change_keeps hc
  have hbefore : s.manager.loaded = true := by
    by_contra hfalse
    have hfresh := hs.fresh (by simpa using hfalse)
    exact hstored.path (hpath.trans (congrArg MsgAnchorManager.path hfresh))
  constructor
  · exact hm'
  · intro hfalse
    rw [hloaded, hbefore] at hfalse
    cases hfalse
  · intro path hlast
    rw [hstored.lastSaved] at hlast
    exact ⟨hloaded.trans hbefore, (Option.some.inj hlast).symm⟩
  · exact fun _ hflushed => ⟨m'.toAnchorState, readState_stored hstored hflushed, rfl⟩
  · intro hcut
    obtain ⟨isEmpty, hfile⟩ := hstored.cut hcut
    exact ⟨hloaded.trans hbefore, readState_cutFile hfile⟩
  · intro h hqueued
    rcases List.mem_append.mp hqueued with hnew | hold
    · cases hc with
      | queue hfresh =>
        rw [List.mem_singleton.mp hnew]
        exact Finset.mem_insert_self _ _
      | prepare | submit | abort | mark | save => cases hnew
    · exact known_of_moves hs.indexed hm' (moves_of_change hs.indexed hc h) (hs.queued h hold)

theorem Synced.rolledBack {e : String} (hsame : SameFiles s.manager.path s.disk disk) :
    Synced { manager := s.manager, disk, queued := op.queues (.error (.error e)) ++ s.queued } := by
  have hnone : op.queues (.error (.error e)) = [] := by cases op <;> rfl
  constructor
  · exact hs.indexed
  · exact hs.fresh
  · intro path hlast
    rw [hsame.lastSaved] at hlast
    exact hs.saved path hlast
  · intro hloaded hflushed
    obtain ⟨state, hread, hstate⟩ := hs.reload hloaded (hsame.flushed ▸ hflushed)
    refine ⟨state, ?_, hstate⟩
    rw [readState_congr (hsame.files _ (ne_append_tmp _))]
    exact hread
  · intro hcut
    rw [readState_congr (hsame.files _ (ne_append_tmp _))]
    exact hs.cut (hsame.flushed ▸ hcut)
  · rw [hnone]
    exact hs.queued

/-- A file that is read was not cut short. -/
theorem Synced.flushed_of_readState {state : AnchorState} (hpath : s.manager.loaded = false ∨ path = s.manager.path)
    (hread : readState s.disk path outcome = .ok state) : s.disk.flushed = true := by
  by_contra hcut
  obtain ⟨hloaded, e, he⟩ := hs.cut (by simpa using hcut)
  have hsame : path = s.manager.path := hpath.resolve_left (by simp [hloaded])
  rw [hsame] at hread
  cases he.symm.trans (readState_read hread)

theorem Synced.loadFile_eq (hloaded : s.manager.loaded = true)
    (hload : loadFile s.disk s.manager.path outcome = .ok m') :
    m'.toAnchorState = s.manager.toAnchorState.requeue ∧ m'.Indexed := by
  obtain ⟨state, hread, hstate, hindexed, -⟩ := loadFile_eq_ok.mp hload
  obtain ⟨state', hread', hstate'⟩ := hs.reload hloaded (hs.flushed_of_readState (.inr rfl) hread)
  rw [readState_read hread, Except.ok.injEq] at hread'
  rw [hstate, hread', hstate']
  exact ⟨rfl, hindexed⟩

theorem moves_of_fresh (hfresh : s.manager.loaded = false) (op : AnchorOp) (h : Uint256)
    (phase : AnchorPhase) : Moves op (s.manager.phase h) phase := by
  have hout : h ∉ s.manager.allHashes := by
    rw [hs.fresh hfresh]
    exact Finset.notMem_empty h
  left
  rw [hs.indexed.phase_eq_unknown.mpr hout]
  exact Nat.zero_le _

theorem Synced.loaded (hpath : s.manager.loaded = false ∨ path = s.manager.path)
    (hload : loadFile s.disk path outcome = .ok m') :
    Synced { s with manager := m' } ∧ ∀ h, Moves (.load path outcome) (s.manager.phase h) (m'.phase h) := by
  obtain ⟨state, hread, hstate, hindexed, hpath', hloaded'⟩ := loadFile_eq_ok.mp hload
  have hmoves : ∀ h, Moves (.load path outcome) (s.manager.phase h) (m'.phase h) := by
    intro h
    cases hloaded : s.manager.loaded with
    | false => exact moves_of_fresh hs hloaded _ h _
    | true =>
      have hsame : path = s.manager.path := hpath.resolve_left (by simp [hloaded])
      rw [hsame] at hload
      exact moves_requeue hs.indexed hindexed (hs.loadFile_eq hloaded hload).1 rfl h
  have hflushed := hs.flushed_of_readState hpath hread
  refine ⟨⟨hindexed, ?_, ?_, ?_, ?_, ?_⟩, hmoves⟩
  · intro hfalse
    rw [hloaded'] at hfalse
    cases hfalse
  · intro last hlast
    obtain ⟨hloaded, hused⟩ := hs.saved last hlast
    have hsame : path = s.manager.path := hpath.resolve_left (by simp [hloaded])
    exact ⟨hloaded', hused.trans (hsame.symm.trans hpath'.symm)⟩
  · intro _ _
    refine ⟨state, ?_, ?_⟩
    · rw [hpath']
      exact readState_read hread
    · rw [hstate]
      rfl
  · intro hcut
    cases hflushed.symm.trans hcut
  · intro h hqueued
    exact known_of_moves hs.indexed hindexed (hmoves h) (hs.queued h hqueued)

theorem Synced.step (hop : op.permitted s = true) :
    Synced (AnchorSystem.step hash s op) ∧
      ∀ h, Moves op (s.manager.phase h) ((AnchorSystem.step hash s op).manager.phase h) := by
  have hstep := step_result hash hs.indexed op
  rw [AnchorOp.permitted, Bool.and_eq_true, Bool.not_eq_true'] at hop
  generalize AnchorSystem.step hash s op = s', result hash s op = r at hstep
  cases hstep with
  | unchanged => exact ⟨hs, fun h => Moves.refl op _⟩
  | changed hc hp =>
    cases hp with
    | stored hstored => exact ⟨hs.stored hc hstored, moves_of_change hs.indexed hc⟩
    | rolledBack hsame _ e =>
      rw [(change_keeps hc).1] at hsame
      exact ⟨hs.rolledBack hsame, fun h => Moves.refl op _⟩
    | thrown _ ht _ =>
      rw [hop.1] at ht
      cases ht
  | loaded heq hload =>
    subst heq
    refine hs.loaded ?_ hload
    simpa [AnchorOp.keepsFile] using hop.2

end

theorem synced_run {files : String → FileState} {ops : List AnchorOp} (h : Careful hash (initial files) ops) :
    Synced (run hash (initial files) ops) := by
  induction ops using List.reverseRecOn with
  | nil => exact synced_initial files
  | append_singleton ops op ih =>
    obtain ⟨hops, hop⟩ := (careful_concat hash).mp h
    rw [run_concat]
    exact ((ih hops).step hop).1

/-! ### Containers, indexes and phases of every run -/

section Run

variable (hash : Uint256 → Uint256 → Uint256) (files : String → FileState) (ops : List AnchorOp)

/-- In every run each known hash lies in one container and the indexes are those of the
containers.  In a careful run no permitted call moves a hash back, except from the prepared
batch to the queue. -/
theorem run_anchors_safe : (∀ h ∈ (run hash (initial files) ops).manager.allHashes,
      ∃! c, (run hash (initial files) ops).manager.Holds h c) ∧
    (∀ h c, (run hash (initial files) ops).manager.Holds h c →
      h ∈ (run hash (initial files) ops).manager.allHashes) ∧
    buildIndexes (run hash (initial files) ops).manager.pending
      (run hash (initial files) ops).manager.preparedEntries (run hash (initial files) ops).manager.batches =
        .ok (run hash (initial files) ops).manager.toAnchorIndexes ∧
    (Careful hash (initial files) ops → ∀ op : AnchorOp, op.permitted (run hash (initial files) ops) = true →
      ∀ h, Moves op ((run hash (initial files) ops).manager.phase h)
        ((run hash (initial files) (ops ++ [op])).manager.phase h)) := by
  have hm := indexed_run hash files ops
  refine ⟨fun h hknown => hm.existsUnique_container hknown, fun h c hin => hm.mem_allHashes.mpr ⟨c, hin⟩, hm, ?_⟩
  intro hcareful op hop h
  rw [run_concat]
  exact ((synced_run hcareful).step hop).2 h

end Run

/-- A hash that is queued, prepared and submitted over a new file. -/
def submittedOps : List AnchorOp :=
  [.load "anchors" .read, .queueHash 1 1#256 0#256 .written, .prepareCommit 2 .written,
    .submitPrepared 3 "txid" .written]

theorem run_anchors_safe_reload :
    Careful (· + ·) (initial fun _ => .missing) submittedOps ∧
      (AnchorOp.load "anchors" .read).permitted (run (· + ·) (initial fun _ => .missing) submittedOps) = true ∧
      Moves (.load "anchors" .read) ((run (· + ·) (initial fun _ => .missing) submittedOps).manager.phase 1#256)
        ((run (· + ·) (initial fun _ => .missing) (submittedOps ++ [.load "anchors" .read])).manager.phase 1#256) := by
  have hcareful : Careful (· + ·) (initial fun _ => .missing) submittedOps := by decide +kernel
  have hop : (AnchorOp.load "anchors" .read).permitted
      (run (· + ·) (initial fun _ => .missing) submittedOps) = true := by decide +kernel
  exact ⟨hcareful, hop, (run_anchors_safe (· + ·) _ submittedOps).2.2.2 hcareful _ hop _⟩

/-- The save of the submission fails, and the removal of its temporary file throws. -/
def thrownOps : List AnchorOp :=
  [.load "anchors" .read, .queueHash 1 1#256 0#256 .written, .prepareCommit 2 .written,
    .submitPrepared 3 "txid" (.renameFailed (some "remove: Permission denied"))]

/-- After the exception the hash is submitted in memory, and a reload returns it to the queue. -/
theorem run_anchors_back : ¬ ∀ (files : String → FileState) (ops : List AnchorOp) (op : AnchorOp) (h : Uint256),
      Moves op ((run (· + ·) (initial files) ops).manager.phase h)
        ((run (· + ·) (initial files) (ops ++ [op])).manager.phase h) := by
  intro hall
  have hmoves := hall (fun _ => .missing) thrownOps (.load "anchors" .read) 1#256
  exact absurd hmoves (by decide +kernel)

/-! ### Reload of the last save -/

theorem getHashStatus_requeue (hm : m.Indexed) (hm' : m'.Indexed)
    (hstate : m'.toAnchorState = m.toAnchorState.requeue) (h : Uint256) : m'.getHashStatus h = m.getHashStatus h := by
  have hpending : m'.pendingHashes = m.pendingHashes ∪ m.preparedHashes := by
    rw [hm'.pendingHashes_eq, hstate, hm.pendingHashes_eq, hm.preparedHashes_eq, Finset.union_comm]
    simp [AnchorState.requeue, entryHashes]
  have hprepared : m'.preparedHashes = ∅ := by
    rw [hm'.preparedHashes_eq, hstate]
    rfl
  have hbatches : m'.batches = m.batches := by
    rw [hstate]
    rfl
  have hindex : m'.batchIndex = m.batchIndex := by
    rw [hm'.batchIndex_eq, hm.batchIndex_eq, hbatches]
  have hqueue : (h ∈ m'.pendingHashes ∨ h ∈ m'.preparedHashes) ↔ (h ∈ m.pendingHashes ∨ h ∈ m.preparedHashes) := by
    simp [hpending, hprepared]
  have hcommitted : m'.nCommittedAt = m.nCommittedAt := by
    funext i
    rw [nCommittedAt, nCommittedAt, hbatches]
  rw [getHashStatus, getHashStatus, hindex, hcommitted]
  by_cases hc : h ∈ m.pendingHashes ∨ h ∈ m.preparedHashes
  · rw [if_pos hc, if_pos (hqueue.mpr hc)]
  · rw [if_neg hc, if_neg fun h => hc (hqueue.mp h)]

theorem getHashStatus_ne_notFound {m : MsgAnchorManager} (hm : m.Indexed) {h : Uint256}
    (hknown : h ∈ m.allHashes) : m.getHashStatus h ≠ .notFound := by
  intro hstatus
  refine hm.phase_eq_unknown.mp ?_ hknown
  rw [MsgAnchorManager.phase, hstatus]

/-- In every state of a careful run the file of the last successful save is loaded again exactly if
that save was not cut short at the close: then the prepared entries stand before the queued ones, the
batches are the same, every hash has the same status, and a hash that was reported as queued is known. -/
theorem load_lastSaved (hash : Uint256 → Uint256 → Uint256) (files : String → FileState) (ops : List AnchorOp)
    (hcareful : Careful hash (initial files) ops) (path : String)
    (hlast : (run hash (initial files) ops).disk.lastSaved = some path) (m₀ : MsgAnchorManager) :
    (∃ m', m₀.load (run hash (initial files) ops).disk path .read = (m', .ok ()) ∧
      m'.pending = (run hash (initial files) ops).manager.preparedEntries ++
        (run hash (initial files) ops).manager.pending ∧
      m'.prepared = none ∧
      m'.batches = (run hash (initial files) ops).manager.batches ∧
      (∀ h, m'.getHashStatus h = (run hash (initial files) ops).manager.getHashStatus h) ∧
      ∀ h ∈ (run hash (initial files) ops).queued, m'.getHashStatus h ≠ .notFound) ↔
    (run hash (initial files) ops).disk.flushed = true := by
  have hs := synced_run hcareful
  generalize run hash (initial files) ops = s at hs hlast ⊢
  obtain ⟨hloaded, rfl⟩ := hs.saved path hlast
  constructor
  · rintro ⟨m', hload, -⟩
    by_contra hcut
    obtain ⟨-, e, he⟩ := hs.cut (by simpa using hcut)
    rw [load, loadFile, he] at hload
    cases hload
  intro hflushed
  obtain ⟨state, hread, hstate⟩ := hs.reload hloaded hflushed
  -- The manager after the reload: its own containers, requeued, with their indexes.
  let m' : MsgAnchorManager := { s.manager.requeuePrepared with loaded := true }
  have hindexed : m'.Indexed := hs.indexed.requeuePrepared
  have hload : loadFile s.disk s.manager.path .read = .ok m' :=
    loadFile_eq_ok.mpr ⟨state, hread, hstate.symm, hindexed, rfl, rfl⟩
  have hstatus := getHashStatus_requeue hs.indexed hindexed rfl
  refine ⟨m', ?_, rfl, rfl, rfl, hstatus, ?_⟩
  · rw [load, hload]
  · intro h hqueued
    rw [hstatus]
    exact getHashStatus_ne_notFound hs.indexed (hs.queued h hqueued)

def preparedOps : List AnchorOp :=
  [.load "anchors" .read, .queueHash 1 1#256 0#256 .written, .prepareCommit 2 .written,
    .queueHash 3 2#256 1#256 .written]

theorem load_lastSaved_prepared :
    ∃ m', ({} : MsgAnchorManager).load (run (· + ·) (initial fun _ => .missing) preparedOps).disk "anchors" .read =
        (m', .ok ()) ∧
      m'.pending = [⟨1#256, 0#256, 1⟩, ⟨2#256, 1#256, 3⟩] ∧ m'.getHashStatus 2#256 ≠ .notFound := by
  obtain ⟨m', hload, hpending, -, -, -, hqueued⟩ :=
    (load_lastSaved (· + ·) (fun _ => .missing) preparedOps (by decide +kernel) "anchors" (by decide +kernel) {}).mpr
      (by decide +kernel)
  refine ⟨m', hload, ?_, hqueued 2#256 (by decide +kernel)⟩
  rw [hpending]
  decide +kernel

/-- The save of the second hash fails, and the removal of its temporary file throws. -/
def unsavedOps : List AnchorOp :=
  [.load "anchors" .read, .queueHash 1 1#256 0#256 .written,
    .queueHash 2 2#256 0#256 (.writeFailed .empty (some "remove: Read-only file system"))]

/-- The save of the second hash succeeds, but its text does not all reach the file. -/
def cutOps : List AnchorOp :=
  [.load "anchors" .read, .queueHash 1 1#256 0#256 .written, .queueHash 2 2#256 0#256 (.closeFailed false none)]

/-- After the exception the manager reports a hash as pending that the file does not have.  After the close that
failed the file cannot be loaded, and the hash that it had before is lost as well. -/
theorem load_lastSaved_loses : (¬ ∀ (files : String → FileState) (ops : List AnchorOp) (path : String),
      (run (· + ·) (initial files) ops).disk.lastSaved = some path → ∀ m₀ : MsgAnchorManager,
        (m₀.load (run (· + ·) (initial files) ops).disk path .read).1.pending =
          (run (· + ·) (initial files) ops).manager.preparedEntries ++
            (run (· + ·) (initial files) ops).manager.pending) ∧
    ¬ ∀ (files : String → FileState) (ops : List AnchorOp) (path : String), Careful (· + ·) (initial files) ops →
      (run (· + ·) (initial files) ops).disk.lastSaved = some path → ∀ m₀ : MsgAnchorManager,
        ∀ h ∈ (run (· + ·) (initial files) ops).queued,
          (m₀.load (run (· + ·) (initial files) ops).disk path .read).1.getHashStatus h ≠ .notFound := by
  constructor
  · intro hall
    have hpending := hall (fun _ => .missing) unsavedOps "anchors" (by decide +kernel) {}
    exact absurd hpending (by decide +kernel)
  · intro hall
    have hstatus := hall (fun _ => .missing) cutOps "anchors" (by decide +kernel) (by decide +kernel) {} 1#256
    exact absurd hstatus (by decide +kernel)

end AnchorSystem

end OmegaCore.Smsg
