import Mathlib.Data.List.TakeWhile
import Mathlib.Tactic.NormNum.Pow
import OmegaCore.Consensus.Merkle
import OmegaCore.Primitives
import OmegaCore.Util.Bytes
import OmegaCore.Util.Except

/-!
The manager of the message anchors.  A hash is queued as pending, moves with the whole
queue into a prepared batch, and from there into a submitted batch that is confirmed later.
`SaveLocked` writes them as one JSON document, modelled by the value the JSON library reads
from it, and `Load` reads back what was written.  When a save reports a failure the change is
taken back; an exception that leaves the save passes the code that takes it back.
-/

namespace OmegaCore.Smsg

open Util List

/-- A queued hash; `prev` is zero when the message has no earlier revision. -/
structure AnchorEntry where
  hash : Uint256
  prev : Uint256 := 0#256
  nTime : Int64 := 0
  deriving DecidableEq

structure AnchorBatch where
  merkleRoot : Uint256
  txid : String
  entries : List AnchorEntry
  nAnchorTime : Int64 := 0
  nSubmitted : Int64 := 0
  nCommitted : Int64 := 0
  deriving DecidableEq

structure PreparedAnchorBatch where
  merkleRoot : Uint256
  entries : List AnchorEntry
  nAnchorTime : Int64 := 0
  deriving DecidableEq

structure AnchorState where
  pending : List AnchorEntry := []
  prepared : Option PreparedAnchorBatch := none
  batches : List AnchorBatch := []
  deriving DecidableEq

variable (value : UniValue) (s : AnchorState) (fieldName : String)

def AnchorState.preparedEntries : List AnchorEntry :=
  match s.prepared with
  | some prepared => prepared.entries
  | none => []

/-- A call returns false with the text of `error_out`, or an exception leaves it. -/
inductive Failure where
  | error (message : String)
  | exception (message : String)
  deriving DecidableEq

/-- A JSON value.  A number that `get_int64` rejects has no value. -/
inductive UniValue where
  | null
  | bool (value : Bool)
  | num (value : Option Int64)
  | str (value : String)
  | arr (values : List UniValue)
  | obj (fields : List (String × UniValue))

namespace UniValue

def findValue : UniValue → String → UniValue
  | obj fields, name => (fields.lookup name).getD null
  | _, _ => null

/-- `UniValue::exists`. -/
def existsKey : UniValue → String → Bool
  | obj fields, name => (fields.lookup name).isSome
  | _, _ => false

def isObject : UniValue → Bool
  | obj _ => true
  | _ => false

end UniValue

/-! ### Hashes as text -/

variable (hash : Uint256)

def getHex : String :=
  String.ofList (Hex.write 64 hash.toNat)

def isHex (s : String) : Bool :=
  s.toList.all (fun c => (Hex.hexDigit c).isSome) && decide (0 < s.length) && s.length % 2 == 0

def isSpace (c : Char) : Bool :=
  [' ', '\x0c', '\n', '\r', '\t', '\x0b'].contains c

def skipHexMark : List Char → List Char
  | '0' :: 'x' :: cs => cs
  | '0' :: 'X' :: cs => cs
  | cs => cs

/-- `SetHex` keeps the last 64 digits, which are the lowest 256 bits. -/
def uint256S (s : String) : Uint256 :=
  BitVec.ofNat 256 (Hex.read ((skipHexMark (s.toList.dropWhile isSpace)).takeWhile fun c => (Hex.hexDigit c).isSome))

/-! ### Fields -/

def parseHashString (allowMissing : Bool) : Except Failure Uint256 :=
  match value with
  | .null =>
    if allowMissing then .ok 0#256 else .error (.error s!"MsgAnchor: missing {fieldName} field.")
  | .str hex =>
    if allowMissing && hex.isEmpty then .ok 0#256
    else if hex.length != 64 || !isHex hex then
      .error (.error s!"MsgAnchor: {fieldName} must be 64 hex chars.")
    else .ok (uint256S hex)
  | _ => .error (.error s!"MsgAnchor: {fieldName} must be a hex string.")

def parseInt64Field (defaultValue : Int64) : Except Failure Int64 :=
  match value with
  | .null => .ok defaultValue
  | .num (some n) => .ok n
  | .num none => .error (.exception "JSON integer out of range")
  | _ => .error (.error s!"MsgAnchor: {fieldName} must be a number.")

def parseStringField (allowMissing : Bool) : Except Failure String :=
  match value with
  | .null =>
    if allowMissing then .ok "" else .error (.error s!"MsgAnchor: missing {fieldName} field.")
  | .str s => .ok s
  | _ => .error (.error s!"MsgAnchor: {fieldName} must be a string.")

/-! ### Entries and batches -/

def serializeEntry (entry : AnchorEntry) : UniValue :=
  .obj [("hash", .str (getHex entry.hash)), ("prev", .str (getHex entry.prev)), ("time", .num (some entry.nTime))]

def serializeEntries (entries : List AnchorEntry) : UniValue :=
  .arr (entries.map serializeEntry)

def parseEntry : Except Failure AnchorEntry := do
  if !value.isObject then throw (.error "MsgAnchor: entry must be an object.")
  let hash ← parseHashString (value.findValue "hash") "hash" false
  let prev ← parseHashString (value.findValue "prev") "prev" true
  let nTime ← parseInt64Field (value.findValue "time") "time" 0
  return ⟨hash, prev, nTime⟩

def parseEntryList : Except Failure (List AnchorEntry) :=
  match value with
  | .null => .ok []
  | .arr values => values.mapM parseEntry
  | _ => .error (.error "MsgAnchor: entries must be an array.")

def parseLegacyHash : Except Failure AnchorEntry := do
  let hash ← parseHashString value "hashes[]" false
  return { hash }

def parseLegacyHashes : Except Failure (List AnchorEntry) :=
  match value with
  | .null => .ok []
  | .arr values => values.mapM parseLegacyHash
  | _ => .error (.error "MsgAnchor: hashes must be an array.")

/-- The entries of a batch, which older files store as a list of hashes. -/
def parseBatchEntries : Except Failure (List AnchorEntry) :=
  if value.existsKey "entries" then parseEntryList (value.findValue "entries")
  else parseLegacyHashes (value.findValue "hashes")

def parseBatch : Except Failure AnchorBatch := do
  if !value.isObject then throw (.error "MsgAnchor: batch must be an object.")
  let merkleRoot ← parseHashString (value.findValue "root") "root" false
  let txid ← parseStringField (value.findValue "txid") "txid" false
  let nAnchorTime ← parseInt64Field (value.findValue "anchor_time") "anchor_time" 0
  let nSubmitted ← parseInt64Field (value.findValue "submitted") "submitted" 0
  let nCommitted ← parseInt64Field (value.findValue "committed") "committed" 0
  let entries ← parseBatchEntries value
  return { merkleRoot, txid, entries, nAnchorTime, nSubmitted, nCommitted }

def parsePrepared : Except Failure PreparedAnchorBatch := do
  if !value.isObject then throw (.error "MsgAnchor: prepared batch must be an object.")
  let merkleRoot ← parseHashString (value.findValue "root") "root" false
  let nAnchorTime ← parseInt64Field (value.findValue "anchor_time") "anchor_time" 0
  let entries ← parseBatchEntries value
  return { merkleRoot, entries, nAnchorTime }

def serializeBatch (batch : AnchorBatch) : UniValue :=
  .obj [("root", .str (getHex batch.merkleRoot)), ("txid", .str batch.txid),
    ("anchor_time", .num (some batch.nAnchorTime)), ("submitted", .num (some batch.nSubmitted)),
    ("committed", .num (some batch.nCommitted)), ("entries", serializeEntries batch.entries)]

def serializePrepared (batch : PreparedAnchorBatch) : UniValue :=
  .obj [("root", .str (getHex batch.merkleRoot)), ("anchor_time", .num (some batch.nAnchorTime)),
    ("entries", serializeEntries batch.entries)]

/-! ### The document -/

def anchorStateVersion : Int64 := 1

def checkVersion : Except Failure Unit :=
  match value with
  | .null => .ok ()
  | value => do
    let version ← parseInt64Field value "version" 0
    if version = anchorStateVersion then .ok ()
    else .error (.error s!"MsgAnchor: unsupported state version {version}.")

def parsePreparedField : Except Failure (Option PreparedAnchorBatch) :=
  match value with
  | .null => .ok none
  | value => (parsePrepared value).map some

def parseBatches : Except Failure (List AnchorBatch) :=
  match value with
  | .null => .ok []
  | .arr values => values.mapM parseBatch
  | _ => .error (.error "MsgAnchor: batches must be an array.")

/-- The part of `Load` that parses the document of the file. -/
def parseState (path : String) (root : UniValue) : Except Failure AnchorState := do
  if !root.isObject then throw (.error s!"MsgAnchor: {path} must contain a JSON object")
  checkVersion (root.findValue "version")
  let pending ← parseEntryList (root.findValue "pending")
  let prepared ← parsePreparedField (root.findValue "prepared")
  let batches ← parseBatches (root.findValue "batches")
  return { pending, prepared, batches }

/-- The field of the prepared batch, which is written only if there is one. -/
def preparedField : List (String × UniValue) :=
  match s.prepared with
  | some prepared => [("prepared", serializePrepared prepared)]
  | none => []

/-- The part of `SaveLocked` that builds the document. -/
def serializeState : UniValue :=
  .obj ([("version", .num (some anchorStateVersion)), ("pending", serializeEntries s.pending)] ++
    preparedField s ++ [("batches", .arr (s.batches.map serializeBatch))])

/-! ### What was written is read back -/

theorem length_getHex : (getHex hash).length = 64 := by
  rw [getHex, String.length_ofList, Hex.length_write]

theorem isHex_getHex : isHex (getHex hash) = true := by
  have hdigits : ((getHex hash).toList.all fun c => (Hex.hexDigit c).isSome) = true := by
    rw [getHex, String.toList_ofList, all_eq_true]
    intro c hc
    exact Hex.isSome_hexDigit_of_mem_write hc
  rw [isHex, hdigits, length_getHex]
  rfl

theorem not_isSpace_of_hexDigit {c : Char} (h : (Hex.hexDigit c).isSome = true) : isSpace c = false := by
  by_contra hspace
  rw [Bool.not_eq_false, isSpace, contains_iff_mem] at hspace
  simp only [mem_cons, not_mem_nil, or_false] at hspace
  rcases hspace with rfl | rfl | rfl | rfl | rfl | rfl <;> cases h

theorem skipHexMark_of_hexDigit {cs : List Char} (h : ∀ c ∈ cs, (Hex.hexDigit c).isSome = true) :
    skipHexMark cs = cs := by
  unfold skipHexMark
  split
  · have hx := h 'x' (by simp)
    exact absurd hx (by decide)
  · have hx := h 'X' (by simp)
    exact absurd hx (by decide)
  · rfl

theorem uint256S_getHex : uint256S (getHex hash) = hash := by
  have hdigits : ∀ c ∈ Hex.write 64 hash.toNat, (Hex.hexDigit c).isSome = true :=
    fun c hc => Hex.isSome_hexDigit_of_mem_write hc
  have hspace : (Hex.write 64 hash.toNat).dropWhile isSpace = Hex.write 64 hash.toNat := by
    apply dropWhile_eq_self_iff.mpr
    intro hlen
    rw [not_isSpace_of_hexDigit (hdigits _ (getElem_mem hlen))]
    exact Bool.false_ne_true
  have htake := takeWhile_eq_self_iff.mpr hdigits
  rw [uint256S, getHex, String.toList_ofList, hspace, skipHexMark_of_hexDigit hdigits, htake, Hex.read_write]
  apply BitVec.eq_of_toNat_eq
  rw [BitVec.toNat_ofNat, show (16 : ℕ) ^ 64 = 2 ^ 256 by norm_num, Nat.mod_mod, Nat.mod_eq_of_lt hash.isLt]

@[simp]
theorem parseHashString_getHex (fieldName : String) (allowMissing : Bool) :
    parseHashString (.str (getHex hash)) fieldName allowMissing = .ok hash := by
  have hempty : (getHex hash).isEmpty = false := by
    rw [String.isEmpty_eq_false_iff]
    intro h
    have hlen := length_getHex hash
    rw [h] at hlen
    cases hlen
  simp [parseHashString, hempty, length_getHex, isHex_getHex, uint256S_getHex]

@[simp]
theorem parseEntry_serializeEntry (entry : AnchorEntry) : parseEntry (serializeEntry entry) = .ok entry := by
  simp [parseEntry, serializeEntry, UniValue.isObject, UniValue.findValue, lookup_cons, parseInt64Field]

@[simp]
theorem parseEntryList_serializeEntries (entries : List AnchorEntry) :
    parseEntryList (serializeEntries entries) = .ok entries :=
  mapM_map_eq_ok parseEntry_serializeEntry entries

@[simp]
theorem parseBatch_serializeBatch (batch : AnchorBatch) : parseBatch (serializeBatch batch) = .ok batch := by
  simp [parseBatch, serializeBatch, UniValue.isObject, UniValue.findValue, UniValue.existsKey,
    lookup_cons, parseInt64Field, parseStringField, parseBatchEntries]

@[simp]
theorem parsePrepared_serializePrepared (batch : PreparedAnchorBatch) :
    parsePrepared (serializePrepared batch) = .ok batch := by
  simp [parsePrepared, serializePrepared, UniValue.isObject, UniValue.findValue, UniValue.existsKey,
    lookup_cons, parseInt64Field, parseBatchEntries]

theorem parseState_serializeState (path : String) (s : AnchorState) : parseState path (serializeState s) = .ok s := by
  have hbatches : (s.batches.map serializeBatch).mapM parseBatch = .ok s.batches :=
    mapM_map_eq_ok parseBatch_serializeBatch s.batches
  have hversion : checkVersion (.num (some anchorStateVersion)) = .ok () := by
    simp [checkVersion, parseInt64Field]
  obtain ⟨pending, prepared, batches⟩ := s
  cases prepared with
  | none =>
    simp [parseState, serializeState, preparedField, UniValue.isObject, UniValue.findValue, lookup_cons,
      hversion, parsePreparedField, parseBatches, hbatches]
  | some prepared =>
    have hprepared : parsePreparedField (serializePrepared prepared) = .ok (some prepared) := by
      change (parsePrepared (serializePrepared prepared)).map some = _
      rw [parsePrepared_serializePrepared]
      rfl
    simp [parseState, serializeState, preparedField, UniValue.isObject, UniValue.findValue, lookup_cons,
      hversion, hprepared, parseBatches, hbatches]

/-! ### Indexes -/

structure BatchEntryLocation where
  batchIndex : ℕ
  entryIndex : BitVec 32
  deriving DecidableEq

structure AnchorIndexes where
  allHashes : Finset Uint256 := ∅
  pendingHashes : Finset Uint256 := ∅
  preparedHashes : Finset Uint256 := ∅
  batchIndex : Map Uint256 BatchEntryLocation := ∅
  txidIndex : Map String ℕ := ∅

def entryHashes (entries : List AnchorEntry) : List Uint256 :=
  entries.map (·.hash)

variable (idx : AnchorIndexes)

/-- `add_hash` of `BuildIndexes`. -/
def addHash (hash : Uint256) (location : String) : Except Failure AnchorIndexes :=
  if hash ∈ idx.allHashes then
    .error (.error s!"MsgAnchor: duplicate hash {getHex hash} found in {location}.")
  else .ok { idx with allHashes := insert hash idx.allHashes }

def indexPending (entry : AnchorEntry) : Except Failure AnchorIndexes := do
  let idx ← addHash idx entry.hash "pending state"
  return { idx with pendingHashes := insert entry.hash idx.pendingHashes }

def indexPrepared (entry : AnchorEntry) : Except Failure AnchorIndexes := do
  let idx ← addHash idx entry.hash "prepared state"
  return { idx with preparedHashes := insert entry.hash idx.preparedHashes }

/-- The number of a batch as `%u` prints it. -/
def printIndex (i : ℕ) : String :=
  toString (i % 2 ^ 32)

def indexBatchEntry (batchIdx : ℕ) (idx : AnchorIndexes) (entry : AnchorEntry × ℕ) : Except Failure AnchorIndexes := do
  let idx ← addHash idx entry.1.hash s!"batch {printIndex batchIdx}"
  return { idx with batchIndex := idx.batchIndex.emplace entry.1.hash ⟨batchIdx, BitVec.ofNat 32 entry.2⟩ }

def indexBatch (batch : AnchorBatch × ℕ) : Except Failure AnchorIndexes :=
  if batch.1.txid = "" then
    .error (.error s!"MsgAnchor: batch {printIndex batch.2} has an empty txid.")
  else if idx.txidIndex[batch.1.txid]?.isSome then
    .error (.error s!"MsgAnchor: duplicate batch txid {batch.1.txid} found in batch {printIndex batch.2}.")
  else
    batch.1.entries.zipIdx.foldlM (indexBatchEntry batch.2)
      { idx with txidIndex := idx.txidIndex.emplace batch.1.txid batch.2 }

def buildIndexes (pending prepared : List AnchorEntry) (batches : List AnchorBatch) : Except Failure AnchorIndexes := do
  let idx ← pending.foldlM indexPending {}
  let idx ← prepared.foldlM indexPrepared idx
  batches.zipIdx.foldlM indexBatch idx

/-- The loop of `SubmitPrepared` that indexes the entries of the new batch. -/
def indexEntries (batchIdx : ℕ) (index : Map Uint256 BatchEntryLocation) (entries : List AnchorEntry) :
    Map Uint256 BatchEntryLocation :=
  entries.zipIdx.foldl (fun index entry => index.emplace entry.1.hash ⟨batchIdx, BitVec.ofNat 32 entry.2⟩) index

/-! ### Files -/

/-- What is stored under a path.  A text that is not JSON has no document. -/
inductive FileState where
  | missing
  | directory
  | empty
  | text (document : Option UniValue)

/-- The files, the path of the last successful save, and whether all of its text has reached the file. -/
structure Disk where
  files : String → FileState
  lastSaved : Option String := none
  flushed : Bool := true

inductive ReadOutcome where
  | inspectFailed (reason : String)
  | openFailed
  | readFailed
  | read
  deriving DecidableEq

/-- The file after its text was cut short: nothing, or a text that is not JSON. -/
def cutFile (isEmpty : Bool) : FileState :=
  if isEmpty then .empty else .text none

/-- How the file system answers a write.  A failed save removes its temporary file, and the
removal may throw; `left` is what a failed write has put there.  Nobody looks whether the close
could write what was still buffered, so the file that it cuts short is renamed like a complete
one, and `rename` is the failure of that, if it fails, with the removal after it. -/
inductive SaveOutcome where
  | openFailed
  | writeFailed (left : FileState) (removal : Option String)
  | closeFailed (isEmpty : Bool) (rename : Option (Option String))
  | renameFailed (removal : Option String)
  | written

/-- `ReadFile`; a missing file is read as no data. -/
def readFile (disk : Disk) (path : String) (outcome : ReadOutcome) : Except Failure (Option (Option UniValue)) :=
  match outcome, disk.files path with
  | .inspectFailed reason, _ => .error (.error s!"MsgAnchor: failed to inspect {path}: {reason}")
  | _, .missing => .ok none
  | _, .directory => .error (.error s!"MsgAnchor: {path} is a directory, not a file.")
  | .openFailed, _ => .error (.error s!"MsgAnchor: failed to open {path}")
  | .readFailed, _ => .error (.error s!"MsgAnchor: failed to read {path}")
  | .read, .empty => .error (.error s!"MsgAnchor: {path} is empty.")
  | .read, .text document => .ok (some document)

/-! ### The manager -/

structure MsgAnchorManager extends AnchorState, AnchorIndexes where
  path : String := ""
  loaded : Bool := false

inductive AnchorHashStatus where
  | notFound | pending | submitted | confirmed
  deriving DecidableEq

/-- `QUEUE_ERROR` is the failure of the call. -/
inductive QueueHashResult where
  | queued | pending | confirmed | full
  deriving DecidableEq

structure PreparedCommit where
  payload : List (BitVec 8)
  root : Uint256
  anchorTime : Int64
  count : ℕ

def anchorBatchMax : ℕ := 1000

def anchorMagic : List (BitVec 8) := [0x4F, 0x4D, 0x41, 0x01]

/-- The magic bytes, the root and the time, both in little endian order. -/
def buildAnchorPayload (root : Uint256) (anchorTime : Int64) : List (BitVec 8) :=
  anchorMagic ++ (List.range 32).map (fun i => root.extractLsb' (8 * i) 8) ++
    (List.range 8).map (fun i => anchorTime.toBitVec.extractLsb' (8 * i) 8)

def AnchorState.requeue (s : AnchorState) : AnchorState :=
  { s with pending := s.preparedEntries ++ s.pending, prepared := none }

/-- The containers that `Load` reads from a file. -/
def readState (disk : Disk) (path : String) (outcome : ReadOutcome) : Except Failure AnchorState := do
  match ← readFile disk path outcome with
  | none => return {}
  | some none => throw (.error s!"MsgAnchor: failed to parse {path}")
  | some (some root) => parseState path root

namespace MsgAnchorManager

variable (m : MsgAnchorManager) (disk : Disk) (outcome : SaveOutcome) (now : Int64) (hash : Uint256)

/-- The manager after a successful `Load`. -/
def loadFile (path : String) (outcome : ReadOutcome) : Except Failure MsgAnchorManager := do
  let state ← readState disk path outcome
  let idx ← buildIndexes state.requeue.pending [] state.requeue.batches
  return { state.requeue, idx with path, loaded := true }

def load (path : String) (outcome : ReadOutcome) : MsgAnchorManager × Except Failure Unit :=
  match loadFile disk path outcome with
  | .ok m' => (m', .ok ())
  | .error e => (m, .error e)

/-- The file of an empty path cannot be replaced. -/
def saveLocked : Disk × Except Failure Unit :=
  let document := FileState.text (some (serializeState m.toAnchorState))
  let tmp := m.path ++ ".tmp"
  let put (file : FileState) : Disk := { disk with files := Function.update disk.files tmp file }
  let notReplaced : Except Failure Unit := .error (.error s!"MsgAnchor: failed to replace {m.path}")
  let replace (file : FileState) (flushed : Bool) : Disk × Except Failure Unit :=
    if m.path = "" then (put .missing, notReplaced)
    else
      ({ files := Function.update (put .missing).files m.path file, lastSaved := some m.path, flushed }, .ok ())
  match outcome with
  | .openFailed => (disk, .error (.error s!"MsgAnchor: cannot write {tmp}"))
  | .writeFailed _ none => (put .missing, .error (.error s!"MsgAnchor: write failed for {tmp}"))
  | .writeFailed left (some what) => (put left, .error (.exception what))
  | .closeFailed isEmpty none => replace (cutFile isEmpty) false
  | .closeFailed _ (some none) => (put .missing, notReplaced)
  | .closeFailed isEmpty (some (some what)) => (put (cutFile isEmpty), .error (.exception what))
  | .renameFailed none => (put .missing, notReplaced)
  | .renameFailed (some what) => (put document, .error (.exception what))
  | .written => replace document true

/-- Save a change.  `rollback` is the code that runs when the save returns false. -/
def persist (rollback : MsgAnchorManager → MsgAnchorManager) (disk : Disk)
    (outcome : SaveOutcome) : MsgAnchorManager × Disk × Except Failure Unit :=
  match saveLocked m disk outcome with
  | (disk, .ok ()) => (m, disk, .ok ())
  | (disk, .error (.error e)) => (rollback m, disk, .error (.error e))
  | (disk, .error (.exception e)) => (m, disk, .error (.exception e))

def nCommittedAt (i : ℕ) : Int64 :=
  (m.batches[i]?.map (·.nCommitted)).getD 0

def getHashStatus : AnchorHashStatus :=
  if hash ∈ m.pendingHashes ∨ hash ∈ m.preparedHashes then .pending
  else
    match m.batchIndex[hash]? with
    | none => .notFound
    | some location => if m.nCommittedAt location.batchIndex ≠ 0 then .confirmed else .submitted

/-- A queued entry, before the save. -/
def pushPending (entry : AnchorEntry) : MsgAnchorManager :=
  { m with
    pending := m.pending ++ [entry]
    allHashes := insert entry.hash m.allHashes
    pendingHashes := insert entry.hash m.pendingHashes }

def popPending (m : MsgAnchorManager) : MsgAnchorManager :=
  { m with
    pending := m.pending.dropLast
    pendingHashes := m.pendingHashes.erase hash
    allHashes := m.allHashes.erase hash }

/-- The answer for a hash that is known already. -/
def queueKnown : Except Failure QueueHashResult :=
  if hash ∈ m.pendingHashes ∨ hash ∈ m.preparedHashes then .ok .pending
  else
    match m.batchIndex[hash]? with
    | none => .error (.error s!"MsgAnchor: indexed hash {getHex hash} is missing a batch entry.")
    | some location => .ok (if m.nCommittedAt location.batchIndex ≠ 0 then .confirmed else .pending)

def queueHash (hash prev : Uint256)
    (outcome : SaveOutcome) : MsgAnchorManager × Disk × Except Failure QueueHashResult :=
  if hash ∈ m.allHashes then (m, disk, m.queueKnown hash)
  else if m.pending.length ≥ anchorBatchMax then (m, disk, .ok .full)
  else
    let (m, disk, result) := (m.pushPending ⟨hash, prev, now⟩).persist (popPending hash) disk outcome
    (m, disk, result.map fun _ => .queued)

variable (hash : Uint256 → Uint256 → Uint256)

def computeEntriesMerkleRoot (entries : List AnchorEntry) : Uint256 :=
  if entries = [] then 0#256
  else (Consensus.computeMerkleRoot hash 0#256 (entryHashes entries)).1

/-- The queue as a prepared batch, before the save. -/
def prepare (m : MsgAnchorManager) (now : Int64) : MsgAnchorManager :=
  { m with
    pending := []
    prepared := some ⟨computeEntriesMerkleRoot hash m.pending, m.pending, now⟩
    pendingHashes := ∅
    preparedHashes := m.pendingHashes }

def unprepare : MsgAnchorManager :=
  { m with
    pending := m.preparedEntries
    prepared := none
    pendingHashes := m.preparedHashes
    preparedHashes := ∅ }

def prepareCommit (m : MsgAnchorManager) (disk : Disk) (now : Int64) (outcome : SaveOutcome) :
    MsgAnchorManager × Disk × Except Failure PreparedCommit :=
  if m.prepared.isSome then
    (m, disk, .error (.error "MsgAnchor: another anchor commit is already prepared."))
  else if m.pending = [] then (m, disk, .error (.error "MsgAnchor: no pending hashes to commit."))
  else
    let root := computeEntriesMerkleRoot hash m.pending
    let answer : PreparedCommit := ⟨buildAnchorPayload root now, root, now, m.pending.length⟩
    let (m, disk, result) := (m.prepare hash now).persist unprepare disk outcome
    (m, disk, result.map fun _ => answer)

/-- The batch that a prepared one becomes when it is submitted. -/
def submittedBatch (prepared : PreparedAnchorBatch) (txid : String) (now : Int64) : AnchorBatch :=
  { merkleRoot := prepared.merkleRoot
    txid := txid
    entries := prepared.entries
    nAnchorTime := prepared.nAnchorTime
    nSubmitted := now }

/-- A stored batch with its index entries, before the save. -/
def pushBatch (batch : AnchorBatch) : MsgAnchorManager :=
  { m with
    batches := m.batches ++ [batch]
    txidIndex := m.txidIndex.emplace batch.txid m.batches.length
    batchIndex := indexEntries m.batches.length m.batchIndex batch.entries
    preparedHashes := ∅
    prepared := none }

def popBatch (batch : AnchorBatch) (m : MsgAnchorManager) : MsgAnchorManager :=
  { m with
    prepared := some ⟨batch.merkleRoot, batch.entries, batch.nAnchorTime⟩
    preparedHashes := (entryHashes batch.entries).foldl (fun target hash => insert hash target) m.preparedHashes
    batchIndex := (entryHashes batch.entries).foldl (fun index hash => index.erase hash) m.batchIndex
    txidIndex := m.txidIndex.erase batch.txid
    batches := m.batches.dropLast }

def submitPrepared (txid : String) (outcome : SaveOutcome) : MsgAnchorManager × Disk × Except Failure Unit :=
  match m.prepared with
  | none => (m, disk, .error (.error "MsgAnchor: no prepared batch to submit."))
  | some prepared =>
    if txid = "" then (m, disk, .error (.error "MsgAnchor: submitted txid must not be empty."))
    else if m.txidIndex[txid]?.isSome then
      (m, disk, .error (.error s!"MsgAnchor: batch txid {txid} already exists."))
    else
      let batch := submittedBatch prepared txid now
      (m.pushBatch batch).persist (popBatch batch) disk outcome

/-- The prepared batch back at the front of the queue, before the save. -/
def requeuePrepared : MsgAnchorManager :=
  { m with
    pending := m.preparedEntries ++ m.pending
    pendingHashes := m.pendingHashes ∪ m.preparedHashes
    preparedHashes := ∅
    prepared := none }

/-- The containers and hash sets of `old` back in place. -/
def restorePrepared (old m : MsgAnchorManager) : MsgAnchorManager :=
  { m with
    pending := old.pending
    prepared := old.prepared
    pendingHashes := old.pendingHashes
    preparedHashes := old.preparedHashes }

def abortPrepared : MsgAnchorManager × Disk × Except Failure Unit :=
  if m.prepared.isNone then (m, disk, .error (.error "MsgAnchor: no prepared batch to abort."))
  else m.requeuePrepared.persist (restorePrepared m) disk outcome

def setCommitted (i : ℕ) (time : Int64) (m : MsgAnchorManager) : MsgAnchorManager :=
  { m with batches := m.batches.modify i fun batch => { batch with nCommitted := time } }

def markBatchConfirmed (txid : String)
    (confirmedTime : Int64) (outcome : SaveOutcome) : MsgAnchorManager × Disk × Except Failure Unit :=
  match m.txidIndex[txid]? with
  | none => (m, disk, .error (.error s!"MsgAnchor: batch for txid {txid} not found."))
  | some i =>
    if m.nCommittedAt i ≠ 0 then (m, disk, .ok ())
    else
      (m.setCommitted i (if confirmedTime > 0 then confirmedTime else now)).persist (setCommitted i 0) disk outcome

def save : Disk × Except Failure Unit :=
  m.saveLocked disk outcome

end MsgAnchorManager

end OmegaCore.Smsg
