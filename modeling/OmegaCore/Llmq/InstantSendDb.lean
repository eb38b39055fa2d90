import OmegaCore.Llmq.InstantSendLocks

/-!
The database of InstantSend locks and its upgrade, which drops the locks of unknown transactions.
The loop asks for the transaction before it reads the record, so it asks for that of the record
before, and the first time for the null hash.
-/

namespace OmegaCore.Llmq

open Util List

/-- The records of the database. -/
structure CInstantSendDb where
  islockByHash : Map Uint256 CInstantSendLock := ∅
  hashByTxid : Map Uint256 Uint256 := ∅
  hashByOutpoint : Map COutPoint Uint256 := ∅
  version : Option Int := none

namespace CInstantSendDb

abbrev LockRecord := Uint256 × CInstantSendLock

/-- Write a batch that erases some locks with their records. -/
def eraseLocks (db : CInstantSendDb) (records : List LockRecord) : CInstantSendDb :=
  { db with
    islockByHash := records.foldl (fun m r => m.erase r.1) db.islockByHash
    hashByTxid := records.foldl (fun m r => m.erase r.2.txid) db.hashByTxid
    hashByOutpoint := (records.flatMap (·.2.inputs)).foldl (fun m o => m.erase o) db.hashByOutpoint }

variable (known : Uint256 → Bool)

/-- The records that the loop puts into its batch.  `islock` is what the last record left, and `known` what
`GetTransaction` finds. -/
def upgradeLoop : CInstantSendLock → List LockRecord → List LockRecord
  | _, [] => []
  | islock, r :: records =>
    let tx := known islock.txid
    if !tx then r :: upgradeLoop r.2 records else upgradeLoop r.2 records

/-- The lock object before the first record is read. -/
def unreadLock : CInstantSendLock :=
  { inputs := [], txid := 0, cycleHash := 0, sig := none }

/-- `Upgrade`, where `records` are the locks in the order of the iterator. -/
def upgrade (db : CInstantSendDb) (records : List LockRecord) : CInstantSendDb :=
  if 1 ≤ db.version.getD 0 then db
  else { db.eraseLocks (upgradeLoop known unreadLock records) with version := some 1 }

variable {known} {db : CInstantSendDb} {records : List LockRecord} {islock : CInstantSendLock}

theorem upgradeLoop_eq_filter (h : ∀ r ∈ records, known r.2.txid = known islock.txid) :
    upgradeLoop known islock records = records.filter fun r => !known r.2.txid := by
  induction records generalizing islock with
  | nil => rfl
  | cons r records ih =>
    rw [forall_mem_cons] at h
    rw [upgradeLoop, ih fun x hx => (h.2 x hx).trans h.1.symm, filter_cons, h.1]

theorem mem_of_mem_upgradeLoop {r : LockRecord} (h : r ∈ upgradeLoop known islock records) : r ∈ records := by
  induction records generalizing islock with
  | nil => cases h
  | cons x records ih =>
    rw [upgradeLoop] at h
    grind

/-- A loop that drops the locks of unknown transactions found the same for all. -/
theorem known_eq_of_upgradeLoop (hnodup : records.Nodup)
    (h : ∀ r ∈ records, r ∈ upgradeLoop known islock records ↔ known r.2.txid = false) :
    ∀ r ∈ records, known r.2.txid = known islock.txid := by
  induction records generalizing islock with
  | nil => simp
  | cons r records ih =>
    obtain ⟨hnew, hnodup⟩ := nodup_cons.mp hnodup
    have hnot : r ∉ upgradeLoop known r.2 records := fun hmem => hnew (mem_of_mem_upgradeLoop hmem)
    have hfirst : known r.2.txid = known islock.txid := by
      have := h r mem_cons_self
      cases hr : known r.2.txid <;> cases hi : known islock.txid <;> simp_all [upgradeLoop]
    refine forall_mem_cons.mpr ⟨hfirst, fun x hx => (ih hnodup (fun y hy => ?_) x hx).trans hfirst⟩
    have hy' := h y (mem_cons_of_mem r hy)
    have hne : y ≠ r := fun e => hnew (e ▸ hy)
    rw [upgradeLoop] at hy'
    cases hi : known islock.txid <;> simpa [hi, hne] using hy'

/-- A database of an older version, in whatever order its locks come: the upgrade erases exactly the locks of unknown
transactions, with their records, if and only if all transactions are known, or all are not, like the null hash. -/
theorem upgrade_eq_iff (known : Uint256 → Bool) (db : CInstantSendDb) (records : List LockRecord)
    (hold : db.version.getD 0 < 1) (hrecords : records.Perm db.islockByHash.toList) :
    db.upgrade known records = { db.eraseLocks (records.filter fun r => !known r.2.txid) with version := some 1 } ↔
      ∀ r ∈ records, known r.2.txid = known 0 := by
  rw [upgrade, if_neg (by omega)]
  constructor
  · intro h
    have hkeys : (records.map Prod.fst).Nodup := (hrecords.map _).nodup_iff.mpr (Map.nodup_keys _)
    refine @known_eq_of_upgradeLoop known records unreadLock (hkeys.of_map _) fun r hr => ?_
    have hfst : ∀ l : List LockRecord, (∀ x ∈ l, x ∈ records) → (r.1 ∈ l.map Prod.fst ↔ r ∈ l) := by
      intro l hl
      refine ⟨fun hmem => ?_, mem_map_of_mem⟩
      obtain ⟨x, hx, heq⟩ := mem_map.mp hmem
      rwa [← inj_on_of_nodup_map hkeys (hl x hx) hr heq]
    have hget : db.islockByHash[r.1]? = some r.2 :=
      Std.ExtTreeMap.mem_toList_iff_getElem?_eq_some.mp (hrecords.mem_iff.mp hr)
    have hlock := congrArg (fun db : CInstantSendDb => db.islockByHash[r.1]?) h
    simp only [eraseLocks, Map.get_foldl_erase, hfst _ fun _ => mem_of_mem_upgradeLoop,
      hfst _ fun _ => mem_of_mem_filter, hget] at hlock
    simp only [mem_filter, hr, true_and] at hlock
    split_ifs at hlock <;> simp_all
  · intro h
    rw [upgradeLoop_eq_filter h]

/-- Two locks that come after each other. -/
def sampleRecords : List LockRecord :=
  [(1, { inputs := [⟨3#256, 0#32⟩], txid := 4, cycleHash := 0, sig := none }),
    (2, { inputs := [⟨5#256, 0#32⟩], txid := 6, cycleHash := 0, sig := none })]

def sampleDb : CInstantSendDb :=
  { islockByHash := sampleRecords.foldl (fun m r => m.insert r.1 r.2) ∅ }

theorem upgrade_eq_iff_unknown :
    sampleDb.upgrade (fun _ => false) sampleRecords = { sampleDb.eraseLocks sampleRecords with version := some 1 } :=
  (upgrade_eq_iff (fun _ => false) sampleDb sampleRecords (by decide) (by decide)).mpr (by decide)

/-- The first lock is dropped although its transaction is known, and the second is kept although its own is not. -/
theorem upgrade_knownLock_dropped : ∃ (known : Uint256 → Bool) (db : CInstantSendDb) (records : List LockRecord),
    db.version.getD 0 < 1 ∧ records.Perm db.islockByHash.toList ∧
      db.upgrade known records ≠ { db.eraseLocks (records.filter fun r => !known r.2.txid) with version := some 1 } := by
  refine ⟨fun txid => txid == 4, sampleDb, sampleRecords, by decide, by decide, fun h => ?_⟩
  have := congrArg (fun db : CInstantSendDb => db.islockByHash.toList.map Prod.fst) h
  revert this
  decide

end CInstantSendDb

end OmegaCore.Llmq
