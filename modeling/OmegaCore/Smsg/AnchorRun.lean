import Mathlib.Data.List.Flatten
import OmegaCore.Smsg.MsgAnchorManager

/-!
The indexes of the anchor manager, and its runs.  `BuildIndexes` succeeds exactly on containers
with no hash and no transaction id twice.  Whatever the file system answers and whatever files
are loaded, every known hash stays in one container and the indexes are those of the containers.
If no exception leaves a save and no other file is loaded, the file holds what the manager holds,
so a hash only moves forward and a reload loses none.
-/

namespace OmegaCore.Smsg

open Util List

attribute [ext] AnchorIndexes

/-! ### What `BuildIndexes` computes -/

variable (pending prepared : List AnchorEntry) (batches : List AnchorBatch) (hashes : List Uint256)
  (txids : List String) (idx : AnchorIndexes)

def allEntryHashes : List Uint256 :=
  entryHashes pending ++ entryHashes prepared ++ batches.flatMap fun batch => entryHashes batch.entries

def batchIndexOf : Map Uint256 BatchEntryLocation :=
  batches.zipIdx.foldl (fun index batch => indexEntries batch.2 index batch.1.entries) ∅

def txidIndexOf : Map String ℕ :=
  batches.zipIdx.foldl (fun index batch => index.emplace batch.1.txid batch.2) ∅

def indexesOf : AnchorIndexes where
  allHashes := (allEntryHashes pending prepared batches).toFinset
  pendingHashes := (entryHashes pending).toFinset
  preparedHashes := (entryHashes prepared).toFinset
  batchIndex := batchIndexOf batches
  txidIndex := txidIndexOf batches

/-- No hash is stored twice, and every batch has a transaction id of its own. -/
structure Distinct : Prop where
  hashes : (allEntryHashes pending prepared batches).Nodup
  txids : (batches.map (·.txid)).Nodup
  named : ∀ batch ∈ batches, batch.txid ≠ ""

/-! ### The index of the batches -/

theorem batchIndexOf_concat (batches : List AnchorBatch) (batch : AnchorBatch) :
    batchIndexOf (batches ++ [batch]) = indexEntries batches.length (batchIndexOf batches) batch.entries := by
  simp [batchIndexOf, zipIdx_append]

theorem txidIndexOf_concat (batches : List AnchorBatch) (batch : AnchorBatch) :
    txidIndexOf (batches ++ [batch]) = (txidIndexOf batches).emplace batch.txid batches.length := by
  simp [txidIndexOf, zipIdx_append]

theorem get_txidIndexOf (batches : List AnchorBatch) (txid : String) :
    (txidIndexOf batches)[txid]? = batches.findIdx? (fun batch => batch.txid = txid) := by
  induction batches using reverseRecOn with
  | nil => simp [txidIndexOf]
  | append_singleton batches batch ih =>
    rw [txidIndexOf_concat, Map.get_emplace, ih, findIdx?_append, findIdx?_singleton]
    by_cases heq : batch.txid = txid
    · subst heq
      rw [← ih]
      cases h : (txidIndexOf batches)[batch.txid]? <;> simp
    · have hne : txid ≠ batch.txid := fun h => heq h.symm
      simp [heq, hne]

variable {batches : List AnchorBatch}

theorem get_txidIndexOf_eq_none {txid : String} :
    (txidIndexOf batches)[txid]? = none ↔ txid ∉ batches.map (·.txid) := by
  rw [get_txidIndexOf, findIdx?_eq_none_iff]
  simp [eq_comm]

variable (entry : AnchorEntry) (i : ℕ)

theorem indexEntries_concat (index : Map Uint256 BatchEntryLocation) (entries : List AnchorEntry)
    (entry : AnchorEntry) :
    indexEntries i index (entries ++ [entry]) =
      (indexEntries i index entries).emplace entry.hash ⟨i, BitVec.ofNat 32 entries.length⟩ := by
  simp [indexEntries, zipIdx_append]

theorem get_indexEntries_of_notMem {i : ℕ} {index : Map Uint256 BatchEntryLocation}
    {h : Uint256} (hout : h ∉ entryHashes entries) : (indexEntries i index entries)[h]? = index[h]? := by
  induction entries using reverseRecOn with
  | nil => rfl
  | append_singleton entries entry ih =>
    simp only [entryHashes, map_append, map_cons, map_nil, mem_append,
      mem_singleton, not_or] at hout
    rw [indexEntries_concat, Map.get_emplace, if_neg fun hc => hout.2 hc.1, ih hout.1]

theorem batchIndex_get_indexEntries (index : Map Uint256 BatchEntryLocation)
    (entries : List AnchorEntry) (h : Uint256) :
    (indexEntries i index entries)[h]?.map (·.batchIndex) =
      (index[h]?.map (·.batchIndex)).or (if h ∈ entryHashes entries then some i else none) := by
  induction entries using reverseRecOn with
  | nil => simp [indexEntries, entryHashes]
  | append_singleton entries entry ih =>
    rw [indexEntries_concat, Map.get_emplace]
    by_cases heq : h = entry.hash
    · subst heq
      have hin : entry.hash ∈ entryHashes (entries ++ [entry]) := by simp [entryHashes]
      rw [if_pos hin]
      cases hget : (indexEntries i index entries)[entry.hash]? <;> rw [hget] at ih <;> grind
    · rw [if_neg fun hc => heq hc.1, ih]
      simp [entryHashes, heq]

theorem batchIndex_get_batchIndexOf (batches : List AnchorBatch) (h : Uint256) :
    (batchIndexOf batches)[h]?.map (·.batchIndex) = batches.findIdx? (fun batch => h ∈ entryHashes batch.entries) := by
  induction batches using reverseRecOn with
  | nil => simp [batchIndexOf]
  | append_singleton batches batch ih =>
    rw [batchIndexOf_concat, batchIndex_get_indexEntries, ih, findIdx?_append, findIdx?_singleton]
    by_cases hin : h ∈ entryHashes batch.entries <;> simp [hin]

theorem get_batchIndexOf_eq_none {h : Uint256} :
    (batchIndexOf batches)[h]? = none ↔ ∀ batch ∈ batches, h ∉ entryHashes batch.entries := by
  rw [← Option.map_eq_none_iff, batchIndex_get_batchIndexOf, findIdx?_eq_none_iff]
  simp

/-! ### Adding hashes and transaction ids -/

def Fits : Prop :=
  hashes.Nodup ∧ txids.Nodup ∧ "" ∉ txids

theorem Fits.of_append {hashes hashes' : List Uint256} {txids txids' : List String}
    (h : Fits (hashes ++ hashes') (txids ++ txids')) : Fits hashes txids :=
  ⟨(nodup_append'.mp h.1).1, (nodup_append'.mp h.2.1).1, fun hmem => h.2.2 (mem_append_left _ hmem)⟩

/-- The indexes hold these hashes and transaction ids, and none of them twice. -/
structure Holds : Prop where
  allHashes : idx.allHashes = hashes.toFinset
  txidIndex : ∀ txid, idx.txidIndex[txid]? = none ↔ txid ∉ txids
  fits : Fits hashes txids

/-- A step of `BuildIndexes`: it adds some hashes and transaction ids, unless one of them is there already. -/
def Adds (act : AnchorIndexes → AnchorIndexes) (op : AnchorIndexes → Except Failure AnchorIndexes) : Prop :=
  ∀ hashes₀ txids₀ idx, Holds hashes₀ txids₀ idx →
    (op idx = .ok (act idx) ∧ Holds (hashes₀ ++ hashes) (txids₀ ++ txids) (act idx)) ∨
      ((∃ e, op idx = .error e) ∧ ¬ Fits (hashes₀ ++ hashes) (txids₀ ++ txids))

section Adds

variable {hashes hashes' : List Uint256} {txids txids' : List String} {act act' : AnchorIndexes → AnchorIndexes}
  {op op' : AnchorIndexes → Except Failure AnchorIndexes}

theorem Adds.andThen (h : Adds hashes txids act op) (h' : Adds hashes' txids' act' op') :
    Adds (hashes ++ hashes') (txids ++ txids') (fun idx => act' (act idx)) (fun idx => op idx >>= op') := by
  intro hashes₀ txids₀ idx hidx
  rw [← append_assoc, ← append_assoc]
  dsimp only
  rcases h _ _ _ hidx with ⟨hok, hholds⟩ | ⟨⟨e, herror⟩, hnot⟩
  · rw [hok, ok_bind]
    exact h' _ _ _ hholds
  · rw [herror]
    exact .inr ⟨⟨e, rfl⟩, fun hfits => hnot hfits.of_append⟩

theorem Adds.foldlM {β : Type} {hashes : β → List Uint256} {txids : β → List String}
    {act : AnchorIndexes → β → AnchorIndexes} {op : AnchorIndexes → β → Except Failure AnchorIndexes}
    (h : ∀ b, Adds (hashes b) (txids b) (act · b) (op · b)) (l : List β) :
    Adds (l.flatMap hashes) (l.flatMap txids) (l.foldl act) (l.foldlM op) := by
  induction l with
  | nil =>
    intro hashes₀ txids₀ idx hidx
    exact .inl ⟨rfl, by simpa using hidx⟩
  | cons b l ih => exact .andThen (h b) ih

theorem adds_addHash {hash : Uint256} {location : String} {p : AnchorIndexes → AnchorIndexes}
    (hhashes : ∀ idx, (p idx).allHashes = idx.allHashes) (htxids : ∀ idx, (p idx).txidIndex = idx.txidIndex) :
    Adds [hash] [] (fun idx => p { idx with allHashes := insert hash idx.allHashes })
      (fun idx => addHash idx hash location >>= fun idx => pure (p idx)) := by
  intro hashes₀ txids₀ idx hidx
  have hfits : hash ∉ hashes₀ ↔ Fits (hashes₀ ++ [hash]) (txids₀ ++ []) := by
    simp [Fits, nodup_append', hidx.fits.1, hidx.fits.2.1, hidx.fits.2.2]
  dsimp only
  rw [addHash]
  split_ifs with hmem
  all_goals rw [hidx.allHashes, mem_toFinset] at hmem
  · exact .inr ⟨⟨_, rfl⟩, fun h => hfits.mpr h hmem⟩
  · refine .inl ⟨rfl, ?_, ?_, hfits.mp hmem⟩
    · rw [hhashes, hidx.allHashes, toFinset_append, toFinset_cons, toFinset_nil, insert_empty_eq,
        Finset.union_comm, Finset.insert_eq]
    · simpa [htxids] using hidx.txidIndex

end Adds

/-! ### The three loops -/

def putPending : AnchorIndexes :=
  { idx with
    allHashes := insert entry.hash idx.allHashes
    pendingHashes := insert entry.hash idx.pendingHashes }

def putPrepared : AnchorIndexes :=
  { idx with
    allHashes := insert entry.hash idx.allHashes
    preparedHashes := insert entry.hash idx.preparedHashes }

def putEntry (batchIdx : ℕ) (idx : AnchorIndexes) (entry : AnchorEntry × ℕ) : AnchorIndexes :=
  { idx with
    allHashes := insert entry.1.hash idx.allHashes
    batchIndex := idx.batchIndex.emplace entry.1.hash ⟨batchIdx, BitVec.ofNat 32 entry.2⟩ }

def putBatch (batch : AnchorBatch × ℕ) : AnchorIndexes :=
  batch.1.entries.zipIdx.foldl (putEntry batch.2) { idx with txidIndex := idx.txidIndex.emplace batch.1.txid batch.2 }

theorem adds_indexPending : Adds [entry.hash] [] (putPending · entry) (indexPending · entry) :=
  adds_addHash (p := fun idx => { idx with pendingHashes := insert entry.hash idx.pendingHashes }) (fun _ => rfl)
    (fun _ => rfl)

theorem adds_indexPrepared : Adds [entry.hash] [] (putPrepared · entry) (indexPrepared · entry) :=
  adds_addHash (p := fun idx => { idx with preparedHashes := insert entry.hash idx.preparedHashes }) (fun _ => rfl)
    (fun _ => rfl)

theorem adds_indexBatchEntry (entry : AnchorEntry × ℕ) :
    Adds [entry.1.hash] [] (putEntry i · entry) (indexBatchEntry i · entry) :=
  adds_addHash (p := fun idx => { idx with
    batchIndex := idx.batchIndex.emplace entry.1.hash ⟨i, BitVec.ofNat 32 entry.2⟩ }) (fun _ => rfl) (fun _ => rfl)

theorem adds_indexBatch (batch : AnchorBatch × ℕ) :
    Adds (entryHashes batch.1.entries) [batch.1.txid] (putBatch · batch) (indexBatch · batch) := by
  have hentries := Adds.foldlM (adds_indexBatchEntry batch.2) batch.1.entries.zipIdx
  have hkeys : (batch.1.entries.zipIdx.flatMap fun entry => [entry.1.hash]) = entryHashes batch.1.entries := by
    rw [← map_eq_flatMap, entryHashes]
    exact (map_map ..).symm.trans (congrArg _ (zipIdx_map_fst 0 _))
  have hnone : (batch.1.entries.zipIdx.flatMap fun _ => ([] : List String)) = [] := by simp
  rw [hkeys, hnone] at hentries
  intro hashes₀ txids₀ idx hidx
  dsimp only
  rw [indexBatch]
  split_ifs with hempty hsome
  · exact .inr ⟨⟨_, rfl⟩, fun h => h.2.2 (by simp [hempty])⟩
  · rw [Option.isSome_iff_ne_none, ne_eq, hidx.txidIndex, not_not] at hsome
    exact .inr ⟨⟨_, rfl⟩, fun h => (nodup_append'.mp h.2.1).2.2 hsome (mem_singleton_self _)⟩
  · rw [Option.isSome_iff_ne_none, ne_eq, not_not, hidx.txidIndex] at hsome
    have hnamed : Holds hashes₀ (txids₀ ++ [batch.1.txid])
        { idx with txidIndex := idx.txidIndex.emplace batch.1.txid batch.2 } := by
      refine ⟨hidx.allHashes, fun txid => ?_, hidx.fits.1, ?_, ?_⟩
      · rw [Map.get_emplace, mem_append, mem_singleton, not_or, ← hidx.txidIndex txid]
        split_ifs with hsame
        · simp [hsame.1]
        · exact ⟨fun h => ⟨h, fun heq => hsame ⟨heq, heq ▸ h⟩⟩, And.left⟩
      · simpa [nodup_append', hidx.fits.2.1] using hsome
      · simpa [hidx.fits.2.2] using hempty
    have hstep := hentries _ _ _ hnamed
    rwa [append_nil] at hstep

/-! ### `BuildIndexes` -/

theorem foldl_putPending (entries : List AnchorEntry) (idx : AnchorIndexes) :
    entries.foldl putPending idx = { idx with
      allHashes := idx.allHashes ∪ (entryHashes entries).toFinset
      pendingHashes := idx.pendingHashes ∪ (entryHashes entries).toFinset } := by
  induction entries generalizing idx with
  | nil => simp [entryHashes]
  | cons entry entries ih =>
    rw [foldl_cons, ih]
    simp [putPending, entryHashes, Finset.insert_union, Finset.union_insert]

theorem foldl_putPrepared (entries : List AnchorEntry) (idx : AnchorIndexes) :
    entries.foldl putPrepared idx = { idx with
      allHashes := idx.allHashes ∪ (entryHashes entries).toFinset
      preparedHashes := idx.preparedHashes ∪ (entryHashes entries).toFinset } := by
  induction entries generalizing idx with
  | nil => simp [entryHashes]
  | cons entry entries ih =>
    rw [foldl_cons, ih]
    simp [putPrepared, entryHashes, Finset.insert_union, Finset.union_insert]

theorem foldl_putEntry (i k : ℕ) (entries : List AnchorEntry) (idx : AnchorIndexes) :
    (entries.zipIdx k).foldl (putEntry i) idx = { idx with
      allHashes := idx.allHashes ∪ (entryHashes entries).toFinset
      batchIndex := (entries.zipIdx k).foldl
        (fun index entry => index.emplace entry.1.hash ⟨i, BitVec.ofNat 32 entry.2⟩) idx.batchIndex } := by
  induction entries generalizing k idx with
  | nil => simp [entryHashes]
  | cons entry entries ih =>
    rw [zipIdx_cons, foldl_cons, ih]
    simp [putEntry, entryHashes, Finset.insert_union, Finset.union_insert]

theorem foldl_putBatch (k : ℕ) (batches : List AnchorBatch) (idx : AnchorIndexes) :
    (batches.zipIdx k).foldl putBatch idx = { idx with
      allHashes := idx.allHashes ∪ (batches.flatMap fun batch => entryHashes batch.entries).toFinset
      batchIndex := (batches.zipIdx k).foldl
        (fun index batch => indexEntries batch.2 index batch.1.entries) idx.batchIndex
      txidIndex := (batches.zipIdx k).foldl
        (fun index batch => index.emplace batch.1.txid batch.2) idx.txidIndex } := by
  induction batches generalizing k idx with
  | nil => simp
  | cons batch batches ih =>
    rw [zipIdx_cons, foldl_cons, ih, putBatch, foldl_putEntry]
    simp [indexEntries, Finset.union_assoc]

theorem distinct_iff {pending prepared : List AnchorEntry} {batches : List AnchorBatch} :
    Distinct pending prepared batches ↔ Fits (allEntryHashes pending prepared batches) (batches.map (·.txid)) := by
  have hnamed : "" ∉ batches.map (·.txid) ↔ ∀ batch ∈ batches, batch.txid ≠ "" := by simp
  rw [Fits, hnamed]
  exact ⟨fun h => ⟨h.hashes, h.txids, h.named⟩, fun h => ⟨h.1, h.2.1, h.2.2⟩⟩

/-- `BuildIndexes` accepts exactly the containers in which nothing is stored twice. -/
theorem buildIndexes_eq_ok {pending prepared : List AnchorEntry} {batches : List AnchorBatch} {idx : AnchorIndexes} :
    buildIndexes pending prepared batches = .ok idx ↔
      Distinct pending prepared batches ∧ idx = indexesOf pending prepared batches := by
  have hadds := Adds.andThen (Adds.foldlM adds_indexPending pending)
    (.andThen (.foldlM adds_indexPrepared prepared) (.foldlM adds_indexBatch batches.zipIdx))
  have hhashes : (batches.zipIdx.flatMap fun batch => entryHashes batch.1.entries) =
      batches.flatMap fun batch => entryHashes batch.entries := by
    conv_rhs => rw [← zipIdx_map_fst 0 batches, flatMap_map]
  have htxids : (batches.zipIdx.flatMap fun batch => [batch.1.txid]) = batches.map (·.txid) := by
    rw [← map_eq_flatMap]
    exact (map_map ..).symm.trans (congrArg _ (zipIdx_map_fst 0 _))
  have hnone : ∀ l : List AnchorEntry, (l.flatMap fun _ => ([] : List String)) = [] := by simp
  have hall : [] ++ (entryHashes pending ++ (entryHashes prepared ++ batches.flatMap fun batch =>
      entryHashes batch.entries)) = allEntryHashes pending prepared batches := by simp [allEntryHashes]
  have hstep := hadds [] [] {} ⟨rfl, by simp, by simp [Fits]⟩
  rw [hhashes, htxids, hnone, hnone, ← map_eq_flatMap, ← map_eq_flatMap] at hstep
  have hact : batches.zipIdx.foldl putBatch (prepared.foldl putPrepared (pending.foldl putPending {})) =
      indexesOf pending prepared batches := by
    rw [foldl_putPending, foldl_putPrepared, foldl_putBatch]
    simp [indexesOf, allEntryHashes, batchIndexOf, txidIndexOf, Finset.union_assoc]
  rcases hstep with ⟨hok, hholds⟩ | ⟨⟨e, herror⟩, hnot⟩
  · have hfits : Distinct pending prepared batches := distinct_iff.mpr (hall ▸ hholds.fits)
    rw [show buildIndexes pending prepared batches = .ok (indexesOf pending prepared batches) from hact ▸ hok]
    simp [hfits, eq_comm]
  · have hfits : ¬ Distinct pending prepared batches := fun h => hnot (hall ▸ distinct_iff.mp h)
    rw [show buildIndexes pending prepared batches = .error e from herror]
    simp [hfits]

/-! ### Changes of the manager -/

namespace MsgAnchorManager

def Indexed (m : MsgAnchorManager) : Prop :=
  buildIndexes m.pending m.preparedEntries m.batches = .ok m.toAnchorIndexes

theorem indexed_iff {m : MsgAnchorManager} :
    m.Indexed ↔ Distinct m.pending m.preparedEntries m.batches ∧
      m.toAnchorIndexes = indexesOf m.pending m.preparedEntries m.batches :=
  buildIndexes_eq_ok

namespace Indexed

variable {m : MsgAnchorManager}

section

variable (hm : m.Indexed)

include hm

theorem distinct : Distinct m.pending m.preparedEntries m.batches :=
  (indexed_iff.mp hm).1

theorem allHashes_eq : m.allHashes = (allEntryHashes m.pending m.preparedEntries m.batches).toFinset :=
  congrArg AnchorIndexes.allHashes (indexed_iff.mp hm).2

theorem pendingHashes_eq : m.pendingHashes = (entryHashes m.pending).toFinset :=
  congrArg AnchorIndexes.pendingHashes (indexed_iff.mp hm).2

theorem preparedHashes_eq : m.preparedHashes = (entryHashes m.preparedEntries).toFinset :=
  congrArg AnchorIndexes.preparedHashes (indexed_iff.mp hm).2

theorem batchIndex_eq : m.batchIndex = batchIndexOf m.batches :=
  congrArg AnchorIndexes.batchIndex (indexed_iff.mp hm).2

theorem txidIndex_eq : m.txidIndex = txidIndexOf m.batches :=
  congrArg AnchorIndexes.txidIndex (indexed_iff.mp hm).2

end

end Indexed

variable {m : MsgAnchorManager}

theorem indexed_default : ({} : MsgAnchorManager).Indexed := rfl

theorem Indexed.pushPending (hm : m.Indexed) {entry : AnchorEntry} (hnew : entry.hash ∉ m.allHashes) :
    (m.pushPending entry).Indexed := by
  rw [hm.allHashes_eq, mem_toFinset] at hnew
  have hperm : (allEntryHashes (m.pending ++ [entry]) m.preparedEntries m.batches).Perm
      (entry.hash :: allEntryHashes m.pending m.preparedEntries m.batches) := by
    simp only [allEntryHashes, entryHashes, map_append, map_cons, map_nil, append_assoc,
      singleton_append]
    exact perm_middle
  refine indexed_iff.mpr ⟨⟨?_, hm.distinct.txids, hm.distinct.named⟩, AnchorIndexes.ext ?_ ?_ hm.preparedHashes_eq
    hm.batchIndex_eq hm.txidIndex_eq⟩
  · exact hperm.nodup_iff.mpr (nodup_cons.mpr ⟨hnew, hm.distinct.hashes⟩)
  · change insert entry.hash m.allHashes = _
    rw [hm.allHashes_eq, ← toFinset_cons]
    exact (toFinset_eq_of_perm _ _ hperm).symm
  · change insert entry.hash m.pendingHashes = (entryHashes (m.pending ++ [entry])).toFinset
    rw [hm.pendingHashes_eq]
    simp [entryHashes]

theorem popPending_pushPending (hm : m.Indexed) {entry : AnchorEntry} (hnew : entry.hash ∉ m.allHashes) :
    popPending entry.hash (m.pushPending entry) = m := by
  have hpending : entry.hash ∉ m.pendingHashes := by
    intro hin
    apply hnew
    rw [hm.pendingHashes_eq, mem_toFinset] at hin
    rw [hm.allHashes_eq, mem_toFinset]
    exact mem_append_left _ (mem_append_left _ hin)
  simp [popPending, MsgAnchorManager.pushPending, Finset.erase_insert hnew, Finset.erase_insert hpending]

theorem preparedEntries_of_none (hnone : m.prepared = none) : m.preparedEntries = [] := by
  rw [AnchorState.preparedEntries, hnone]

variable {prepared : PreparedAnchorBatch}

theorem preparedEntries_of_some (hsome : m.prepared = some prepared) : m.preparedEntries = prepared.entries := by
  rw [AnchorState.preparedEntries, hsome]

variable (hash : Uint256 → Uint256 → Uint256)

theorem Indexed.prepare (hm : m.Indexed) (hnone : m.prepared = none) (now : Int64) : (m.prepare hash now).Indexed := by
  have hentries := preparedEntries_of_none hnone
  have hall : allEntryHashes [] m.pending m.batches = allEntryHashes m.pending m.preparedEntries m.batches := by
    rw [hentries]
    simp [allEntryHashes, entryHashes]
  refine indexed_iff.mpr ⟨⟨?_, hm.distinct.txids, hm.distinct.named⟩, AnchorIndexes.ext ?_ rfl hm.pendingHashes_eq
    hm.batchIndex_eq hm.txidIndex_eq⟩
  · exact hall ▸ hm.distinct.hashes
  · exact hm.allHashes_eq.trans (congrArg toFinset hall.symm)

theorem unprepare_prepare (hm : m.Indexed) (hnone : m.prepared = none) (now : Int64) :
    unprepare (m.prepare hash now) = m := by
  have hempty : m.preparedHashes = ∅ := by
    rw [hm.preparedHashes_eq, preparedEntries_of_none hnone]
    rfl
  obtain ⟨⟨pending, prepared, batches⟩, ⟨all, pend, prep, index, txids⟩, path, loaded⟩ := m
  cases hnone
  cases hempty
  rfl

theorem Indexed.pushBatch (hm : m.Indexed) {batch : AnchorBatch}
    (hentries : m.preparedEntries = batch.entries) (hname : batch.txid ≠ "")
    (hnew : m.txidIndex[batch.txid]? = none) : (m.pushBatch batch).Indexed := by
  have hperm : (allEntryHashes m.pending [] (m.batches ++ [batch])).Perm
      (allEntryHashes m.pending m.preparedEntries m.batches) := by
    simp only [allEntryHashes, hentries, entryHashes, map_nil, append_nil, flatMap_append,
      flatMap_cons, flatMap_nil, append_assoc]
    exact perm_append_comm.append_left _
  rw [hm.txidIndex_eq, get_txidIndexOf_eq_none] at hnew
  refine indexed_iff.mpr ⟨⟨hperm.nodup_iff.mpr hm.distinct.hashes, ?_, ?_⟩,
    AnchorIndexes.ext ?_ hm.pendingHashes_eq rfl ?_ ?_⟩
  · change ((m.batches ++ [batch]).map (·.txid)).Nodup
    rw [map_append, nodup_append']
    refine ⟨hm.distinct.txids, nodup_singleton _, fun txid hold hlast => ?_⟩
    rw [mem_singleton.mp hlast] at hold
    exact hnew hold
  · intro b hb
    rcases mem_append.mp hb with hb | hb
    · exact hm.distinct.named b hb
    · rw [mem_singleton.mp hb]
      exact hname
  · exact hm.allHashes_eq.trans (toFinset_eq_of_perm _ _ hperm).symm
  · change indexEntries m.batches.length m.batchIndex batch.entries = batchIndexOf (m.batches ++ [batch])
    rw [batchIndexOf_concat, hm.batchIndex_eq]
  · change m.txidIndex.emplace batch.txid m.batches.length = txidIndexOf (m.batches ++ [batch])
    rw [txidIndexOf_concat, hm.txidIndex_eq]

theorem foldl_insert (hashes : List Uint256) (s : Finset Uint256) :
    hashes.foldl (fun target hash => insert hash target) s = s ∪ hashes.toFinset := by
  induction hashes generalizing s with
  | nil => simp
  | cons a hashes ih =>
    rw [foldl_cons, ih, toFinset_cons, Finset.insert_union, Finset.union_insert]

theorem popBatch_pushBatch (hm : m.Indexed) {txid : String} {now : Int64}
    (hsome : m.prepared = some prepared) (hnew : m.txidIndex[txid]? = none) :
    popBatch (submittedBatch prepared txid now) (m.pushBatch (submittedBatch prepared txid now)) = m := by
  have hentries := preparedEntries_of_some hsome
  have hprepared : (entryHashes prepared.entries).foldl (fun target hash => insert hash target) ∅ =
      m.preparedHashes := by
    rw [foldl_insert, Finset.empty_union, hm.preparedHashes_eq, hentries]
  have hindex : (entryHashes prepared.entries).foldl (fun index hash => index.erase hash)
      (indexEntries m.batches.length m.batchIndex prepared.entries) = m.batchIndex := by
    apply Std.ExtTreeMap.ext_getElem?
    intro h
    rw [Map.get_foldl_erase (fun hash => hash), map_id']
    split_ifs with hin
    · rw [hm.batchIndex_eq, eq_comm, get_batchIndexOf_eq_none]
      intro batch hbatch hstored
      have hdisj := (nodup_append'.mp hm.distinct.hashes).2.2
      refine hdisj (mem_append_right _ (hentries ▸ hin)) ?_
      exact mem_flatMap.mpr ⟨batch, hbatch, hstored⟩
    · exact get_indexEntries_of_notMem hin
  have htxid : (m.txidIndex.emplace txid m.batches.length).erase txid = m.txidIndex := by
    apply Std.ExtTreeMap.ext_getElem?
    intro t
    rw [Map.get_erase, Map.get_emplace]
    by_cases ht : t = txid
    · rw [if_pos ht, ht, hnew]
    · rw [if_neg ht, if_neg fun h => ht h.1]
  simp [popBatch, MsgAnchorManager.pushBatch, submittedBatch, hprepared, hindex, htxid, ← hsome]

theorem Indexed.requeuePrepared (hm : m.Indexed) : m.requeuePrepared.Indexed := by
  have hperm : (allEntryHashes (m.preparedEntries ++ m.pending) [] m.batches).Perm
      (allEntryHashes m.pending m.preparedEntries m.batches) := by
    simp only [allEntryHashes, entryHashes, map_append, map_nil, append_nil]
    exact perm_append_comm.append_right _
  refine indexed_iff.mpr ⟨⟨hperm.nodup_iff.mpr hm.distinct.hashes, hm.distinct.txids, hm.distinct.named⟩,
    AnchorIndexes.ext ?_ ?_ rfl hm.batchIndex_eq hm.txidIndex_eq⟩
  · exact hm.allHashes_eq.trans (toFinset_eq_of_perm _ _ hperm).symm
  · change m.pendingHashes ∪ m.preparedHashes = (entryHashes (m.preparedEntries ++ m.pending)).toFinset
    rw [hm.pendingHashes_eq, hm.preparedHashes_eq, Finset.union_comm]
    simp [entryHashes]

theorem restorePrepared_requeuePrepared : restorePrepared m m.requeuePrepared = m := rfl

theorem map_modify_eq {β : Type} {f : AnchorBatch → AnchorBatch} {g : AnchorBatch → β}
    (hfg : ∀ batch, g (f batch) = g batch) (batches : List AnchorBatch) (i : ℕ) :
    (batches.modify i f).map g = batches.map g := by
  induction batches generalizing i with
  | nil => cases i <;> rfl
  | cons batch batches ih =>
    cases i with
    | zero => simp [hfg]
    | succ i => simp [ih]

variable {batches batches' : List AnchorBatch}

theorem batchIndexOf_eq_of_entries
    (h : batches.map (·.entries) = batches'.map (·.entries)) : batchIndexOf batches = batchIndexOf batches' := by
  have hmap : ∀ bs : List AnchorBatch, batchIndexOf bs =
      (bs.map (·.entries)).zipIdx.foldl (fun index batch => indexEntries batch.2 index batch.1) ∅ := by
    intro bs
    rw [zipIdx_map, foldl_map]
    rfl
  rw [hmap, h, ← hmap]

theorem txidIndexOf_eq_of_txids
    (h : batches.map (·.txid) = batches'.map (·.txid)) : txidIndexOf batches = txidIndexOf batches' := by
  have hmap : ∀ bs : List AnchorBatch, txidIndexOf bs =
      (bs.map (·.txid)).zipIdx.foldl (fun index batch => index.emplace batch.1 batch.2) ∅ := by
    intro bs
    rw [zipIdx_map, foldl_map]
    rfl
  rw [hmap, h, ← hmap]

theorem map_entries_setCommitted (m : MsgAnchorManager) (i : ℕ) (time : Int64) :
    (m.setCommitted i time).batches.map (·.entries) = m.batches.map (·.entries) := by
  apply map_modify_eq
  exact fun _ => rfl

theorem Indexed.setCommitted (hm : m.Indexed) (i : ℕ) (time : Int64) : (m.setCommitted i time).Indexed := by
  have hentries := map_entries_setCommitted m i time
  have htxids : (m.setCommitted i time).batches.map (·.txid) = m.batches.map (·.txid) := by
    apply map_modify_eq
    exact fun _ => rfl
  have hall : allEntryHashes m.pending m.preparedEntries (m.setCommitted i time).batches =
      allEntryHashes m.pending m.preparedEntries m.batches := by
    rw [allEntryHashes, allEntryHashes, ← flatMap_map, hentries, flatMap_map]
  refine indexed_iff.mpr ⟨⟨?_, ?_, ?_⟩, AnchorIndexes.ext ?_ hm.pendingHashes_eq hm.preparedHashes_eq ?_ ?_⟩
  · exact hall ▸ hm.distinct.hashes
  · exact htxids ▸ hm.distinct.txids
  · intro batch hbatch
    have hmem := mem_map_of_mem (f := AnchorBatch.txid) hbatch
    rw [htxids] at hmem
    obtain ⟨b, hb, heq⟩ := mem_map.mp hmem
    exact heq ▸ hm.distinct.named b hb
  · exact hm.allHashes_eq.trans (congrArg toFinset hall.symm)
  · exact hm.batchIndex_eq.trans (batchIndexOf_eq_of_entries hentries.symm)
  · exact hm.txidIndex_eq.trans (txidIndexOf_eq_of_txids htxids.symm)

theorem setCommitted_setCommitted {i : ℕ} (hzero : m.nCommittedAt i = 0) (time : Int64) :
    setCommitted i 0 (m.setCommitted i time) = m := by
  have hbatches : (m.batches.modify i fun batch => { batch with nCommitted := time }).modify i
      (fun batch => { batch with nCommitted := 0 }) = m.batches := by
    apply ext_getElem?
    intro j
    rw [getElem?_modify, getElem?_modify]
    by_cases hij : i = j
    · subst hij
      cases hget : m.batches[i]? with
      | none => rfl
      | some batch =>
        have hcommitted : batch.nCommitted = 0 := by simpa [nCommittedAt, hget] using hzero
        simp [← hcommitted]
    · simp [hij]
  simp only [MsgAnchorManager.setCommitted, hbatches]

end MsgAnchorManager

open MsgAnchorManager Option

/-! ### Operations -/

/-- A call of the manager, with the time and the answers of the file system during it. -/
inductive AnchorOp where
  | queueHash (now : Int64) (hash prev : Uint256) (outcome : SaveOutcome)
  | prepareCommit (now : Int64) (outcome : SaveOutcome)
  | submitPrepared (now : Int64) (txid : String) (outcome : SaveOutcome)
  | abortPrepared (outcome : SaveOutcome)
  | markBatchConfirmed (now : Int64) (txid : String) (confirmedTime : Int64) (outcome : SaveOutcome)
  | save (outcome : SaveOutcome)
  | load (path : String) (outcome : ReadOutcome)

/-- The manager, the files, and the hashes that `QueueHash` has reported as queued. -/
structure AnchorSystem where
  manager : MsgAnchorManager := {}
  disk : Disk
  queued : List Uint256 := []

namespace AnchorSystem

variable (hash : Uint256 → Uint256 → Uint256)

def initial (files : String → FileState) : AnchorSystem where
  disk := { files }

def reported (h : Uint256) : Except Failure QueueHashResult → List Uint256
  | .ok .queued => [h]
  | _ => []

def step (s : AnchorSystem) : AnchorOp → AnchorSystem
  | .queueHash now h prev outcome =>
    let (manager, disk, result) := s.manager.queueHash s.disk now h prev outcome
    { manager, disk, queued := reported h result ++ s.queued }
  | .prepareCommit now outcome =>
    let (manager, disk, _) := s.manager.prepareCommit hash s.disk now outcome
    { s with manager, disk }
  | .submitPrepared now txid outcome =>
    let (manager, disk, _) := s.manager.submitPrepared s.disk now txid outcome
    { s with manager, disk }
  | .abortPrepared outcome =>
    let (manager, disk, _) := s.manager.abortPrepared s.disk outcome
    { s with manager, disk }
  | .markBatchConfirmed now txid confirmedTime outcome =>
    let (manager, disk, _) := s.manager.markBatchConfirmed s.disk now txid confirmedTime outcome
    { s with manager, disk }
  | .save outcome => { s with disk := (s.manager.save s.disk outcome).1 }
  | .load path outcome => { s with manager := (s.manager.load s.disk path outcome).1 }

def run (s : AnchorSystem) (ops : List AnchorOp) : AnchorSystem :=
  ops.foldl (step hash) s

theorem run_concat (s : AnchorSystem) (ops : List AnchorOp) (op : AnchorOp) :
    run hash s (ops ++ [op]) = step hash (run hash s ops) op := by
  simp [run]

end AnchorSystem

/-! ### What a save does -/

/-- The removal of the temporary file of a failed save throws. -/
def SaveOutcome.throws : SaveOutcome → Bool
  | .writeFailed _ (some _) => true
  | .closeFailed _ (some (some _)) => true
  | .renameFailed (some _) => true
  | _ => false

/-- Only the temporary file of the manager may have changed. -/
structure SameFiles (path : String) (disk disk' : Disk) : Prop where
  files : ∀ p, p ≠ path ++ ".tmp" → disk'.files p = disk.files p
  lastSaved : disk'.lastSaved = disk.lastSaved
  flushed : disk'.flushed = disk.flushed

/-- The document of the manager is stored under its path, or was cut short there. -/
structure Stored (m : MsgAnchorManager) (disk : Disk) : Prop where
  path : m.path ≠ ""
  file : disk.flushed = true → disk.files m.path = .text (some (serializeState m.toAnchorState))
  cut : disk.flushed = false → ∃ isEmpty, disk.files m.path = cutFile isEmpty
  lastSaved : disk.lastSaved = some m.path

theorem SameFiles.refl (path : String) (disk : Disk) : SameFiles path disk disk :=
  ⟨fun _ _ => rfl, rfl, rfl⟩

theorem sameFiles_update (path : String) (disk : Disk) (file : FileState) :
    SameFiles path disk { disk with files := Function.update disk.files (path ++ ".tmp") file } :=
  ⟨fun _ hp => Function.update_of_ne hp _ _, rfl, rfl⟩

namespace MsgAnchorManager

inductive SaveResult (m : MsgAnchorManager) (disk : Disk) (throws : Bool) :
    Disk → Except Failure Unit → Prop
  | stored {disk' : Disk} (h : Stored m disk') (ht : throws = false) : SaveResult m disk throws disk' (.ok ())
  | failed {disk' : Disk} (h : SameFiles m.path disk disk') (ht : throws = false) (e : String) :
    SaveResult m disk throws disk' (.error (.error e))
  | thrown {disk' : Disk} (h : SameFiles m.path disk disk') (ht : throws = true) (e : String) :
    SaveResult m disk throws disk' (.error (.exception e))

theorem saveLocked_result (m : MsgAnchorManager) (disk : Disk) (outcome : SaveOutcome) :
    SaveResult m disk outcome.throws (m.saveLocked disk outcome).1 (m.saveLocked disk outcome).2 := by
  match outcome with
  | .openFailed => exact .failed (SameFiles.refl _ _) rfl _
  | .writeFailed _ none => exact .failed (sameFiles_update _ _ _) rfl _
  | .writeFailed _ (some _) => exact .thrown (sameFiles_update _ _ _) rfl _
  | .closeFailed isEmpty none =>
    by_cases hpath : m.path = ""
    · simp only [saveLocked, if_pos hpath]
      exact .failed (sameFiles_update _ _ _) rfl _
    · simp only [saveLocked, if_neg hpath]
      exact .stored ⟨hpath, nofun, fun _ => ⟨isEmpty, Function.update_self ..⟩, rfl⟩ rfl
  | .closeFailed _ (some none) => exact .failed (sameFiles_update _ _ _) rfl _
  | .closeFailed _ (some (some _)) => exact .thrown (sameFiles_update _ _ _) rfl _
  | .renameFailed none => exact .failed (sameFiles_update _ _ _) rfl _
  | .renameFailed (some _) => exact .thrown (sameFiles_update _ _ _) rfl _
  | .written =>
    by_cases hpath : m.path = ""
    · simp only [saveLocked, if_pos hpath]
      exact .failed (sameFiles_update _ _ _) rfl _
    · simp only [saveLocked, if_neg hpath]
      exact .stored ⟨hpath, fun _ => Function.update_self .., nofun, rfl⟩ rfl

/-- The outcomes of a change: it is saved, taken back, or kept by an exception. -/
inductive PersistResult (m m' : MsgAnchorManager) (disk : Disk) (throws : Bool) :
    MsgAnchorManager → Disk → Except Failure Unit → Prop
  | stored {disk' : Disk} (h : Stored m' disk') (ht : throws = false) : PersistResult m m' disk throws m' disk' (.ok ())
  | rolledBack {disk' : Disk} (h : SameFiles m'.path disk disk') (ht : throws = false) (e : String) :
    PersistResult m m' disk throws m disk' (.error (.error e))
  | thrown {disk' : Disk} (h : SameFiles m'.path disk disk') (ht : throws = true) (e : String) :
    PersistResult m m' disk throws m' disk' (.error (.exception e))

theorem persist_result {m m' : MsgAnchorManager} {rollback : MsgAnchorManager → MsgAnchorManager}
    (hback : rollback m' = m) (disk : Disk) (outcome : SaveOutcome) :
    PersistResult m m' disk outcome.throws (m'.persist rollback disk outcome).1
      (m'.persist rollback disk outcome).2.1 (m'.persist rollback disk outcome).2.2 := by
  have hsave := saveLocked_result m' disk outcome
  unfold persist
  generalize m'.saveLocked disk outcome = result at hsave
  obtain ⟨disk', result⟩ := result
  cases hsave with
  | stored h ht => exact .stored h ht
  | failed h ht e =>
    rw [← hback]
    exact .rolledBack h ht e
  | thrown h ht e => exact .thrown h ht e

end MsgAnchorManager

/-! ### What a step does -/

section Step

variable (hash : Uint256 → Uint256 → Uint256)

/-- The changes that a call makes before it saves. -/
inductive Change (m : MsgAnchorManager) : AnchorOp → MsgAnchorManager → Prop
  | queue {now : Int64} {h prev : Uint256} {outcome : SaveOutcome} (hnew : h ∉ m.allHashes)
    (hroom : m.pending.length < anchorBatchMax) :
    Change m (.queueHash now h prev outcome) (m.pushPending ⟨h, prev, now⟩)
  | prepare {now : Int64} {outcome : SaveOutcome} (hnone : m.prepared = none)
    (hsome : m.pending ≠ []) : Change m (.prepareCommit now outcome) (m.prepare hash now)
  | submit {now : Int64} {txid : String} {outcome : SaveOutcome} {prepared : PreparedAnchorBatch}
    (hsome : m.prepared = some prepared) (hname : txid ≠ "") (hnew : m.txidIndex[txid]? = none) :
    Change m (.submitPrepared now txid outcome) (m.pushBatch (submittedBatch prepared txid now))
  | abort {outcome : SaveOutcome} (hsome : m.prepared ≠ none) : Change m (.abortPrepared outcome) m.requeuePrepared
  | mark {now : Int64} {txid : String} {confirmedTime : Int64} {outcome : SaveOutcome} {i : ℕ}
    (hindex : m.txidIndex[txid]? = some i) (hzero : m.nCommittedAt i = 0) :
    Change m (.markBatchConfirmed now txid confirmedTime outcome)
      (m.setCommitted i (if confirmedTime > 0 then confirmedTime else now))
  | save {outcome : SaveOutcome} : Change m (.save outcome) m

def AnchorOp.throws : AnchorOp → Bool
  | .queueHash _ _ _ outcome => outcome.throws
  | .prepareCommit _ outcome => outcome.throws
  | .submitPrepared _ _ outcome => outcome.throws
  | .abortPrepared outcome => outcome.throws
  | .markBatchConfirmed _ _ _ outcome => outcome.throws
  | .save outcome => outcome.throws
  | .load _ _ => false

/-- The hash that a call with a successful save reports as queued. -/
def AnchorOp.queues : AnchorOp → Except Failure Unit → List Uint256
  | .queueHash _ h _ _, .ok () => [h]
  | _, _ => []

namespace AnchorSystem

/-- What a call reports, without the value of a successful one. -/
def result (s : AnchorSystem) : AnchorOp → Except Failure Unit
  | .queueHash now h prev outcome => (s.manager.queueHash s.disk now h prev outcome).2.2.map fun _ => ()
  | .prepareCommit now outcome => (s.manager.prepareCommit hash s.disk now outcome).2.2.map fun _ => ()
  | .submitPrepared now txid outcome => (s.manager.submitPrepared s.disk now txid outcome).2.2
  | .abortPrepared outcome => (s.manager.abortPrepared s.disk outcome).2.2
  | .markBatchConfirmed now txid confirmedTime outcome =>
    (s.manager.markBatchConfirmed s.disk now txid confirmedTime outcome).2.2
  | .save outcome => (s.manager.save s.disk outcome).2
  | .load path outcome => (s.manager.load s.disk path outcome).2

/-- A call changes nothing, because it does not get past its checks, or it makes its change and
saves it, or it loads a file. -/
inductive StepResult (s : AnchorSystem) (op : AnchorOp) : AnchorSystem → Except Failure Unit → Prop
  | unchanged {result : Except Failure Unit} (hnot : ∀ m', ¬ Change hash s.manager op m') : StepResult s op s result
  | changed {m' manager : MsgAnchorManager} {disk : Disk} {result : Except Failure Unit}
    (hc : Change hash s.manager op m') (hp : PersistResult s.manager m' s.disk op.throws manager disk result) :
    StepResult s op { manager, disk, queued := op.queues result ++ s.queued } result
  | loaded {path : String} {outcome : ReadOutcome} {m' : MsgAnchorManager} (hop : op = .load path outcome)
    (hload : loadFile s.disk path outcome = .ok m') : StepResult s op { s with manager := m' } (.ok ())

theorem map_map {α : Type} (x : Except Failure Unit) (f : Unit → α) : (x.map f).map (fun _ => ()) = x := by
  cases x <;> rfl

theorem reported_queueKnown (m : MsgAnchorManager) (h : Uint256) : reported h (m.queueKnown h) = [] := by
  unfold queueKnown
  split_ifs
  · rfl
  · cases m.batchIndex[h]? with
    | none => rfl
    | some location =>
      change reported h (.ok (if m.nCommittedAt location.batchIndex ≠ 0 then .confirmed else .pending)) = []
      split_ifs <;> rfl

theorem step_result {s : AnchorSystem} (hm : s.manager.Indexed) (op : AnchorOp) :
    StepResult hash s op (step hash s op) (result hash s op) := by
  cases op with
  | queueHash now h prev outcome =>
    by_cases hknown : h ∈ s.manager.allHashes
    · simp only [step, queueHash, if_pos hknown, reported_queueKnown]
      exact .unchanged fun _ (.queue hnew _) => hnew hknown
    by_cases hfull : s.manager.pending.length ≥ anchorBatchMax
    · simp only [step, queueHash, if_neg hknown, if_pos hfull]
      exact .unchanged fun _ (.queue _ hroom) => hroom.not_ge hfull
    · have hqueues : ∀ result : Except Failure Unit, reported h (result.map fun _ => QueueHashResult.queued) =
          (AnchorOp.queueHash now h prev outcome).queues result := by
        intro result
        cases result <;> rfl
      simp only [step, result, queueHash, if_neg hknown, if_neg hfull, hqueues, map_map]
      exact .changed (.queue hknown (not_le.mp hfull))
        (persist_result (popPending_pushPending hm hknown) s.disk outcome)
  | prepareCommit now outcome =>
    by_cases hnone : s.manager.prepared = none
    · by_cases hempty : s.manager.pending = []
      · simp only [step, prepareCommit, hnone, isSome_none, if_pos hempty]
        exact .unchanged fun _ (.prepare _ hsome) => hsome hempty
      · simp only [step, result, prepareCommit, hnone, isSome_none, Bool.false_eq_true, if_false,
          if_neg hempty, map_map]
        exact .changed (.prepare hnone hempty) (persist_result (unprepare_prepare hash hm hnone now) s.disk outcome)
    · simp only [step, prepareCommit, isSome_iff_ne_none.mpr hnone, if_true]
      exact .unchanged fun _ (.prepare hnone' _) => hnone hnone'
  | submitPrepared now txid outcome =>
    cases hprepared : s.manager.prepared with
    | none =>
      simp only [step, submitPrepared, hprepared]
      exact .unchanged fun _ (.submit hsome _ _) => by cases hprepared.symm.trans hsome
    | some prepared =>
      by_cases hname : txid = ""
      · simp only [step, submitPrepared, hprepared, if_pos hname]
        exact .unchanged fun _ (.submit _ hname' _) => hname' hname
      cases hnew : s.manager.txidIndex[txid]? with
      | some i =>
        simp only [step, submitPrepared, hprepared, if_neg hname, hnew, isSome_some, if_true]
        exact .unchanged fun _ (.submit _ _ hnone) => by cases hnew.symm.trans hnone
      | none =>
        simp only [step, result, submitPrepared, hprepared, if_neg hname, hnew, isSome_none]
        exact .changed (.submit hprepared hname hnew)
          (persist_result (popBatch_pushBatch hm hprepared hnew) s.disk outcome)
  | abortPrepared outcome =>
    cases hprepared : s.manager.prepared with
    | none =>
      simp only [step, abortPrepared, hprepared, isNone_none, if_true]
      exact .unchanged fun _ (.abort hsome) => hsome hprepared
    | some prepared =>
      simp only [step, result, abortPrepared, hprepared, isNone_some]
      exact .changed (.abort (by simp [hprepared])) (persist_result restorePrepared_requeuePrepared s.disk outcome)
  | markBatchConfirmed now txid confirmedTime outcome =>
    cases hindex : s.manager.txidIndex[txid]? with
    | none =>
      simp only [step, markBatchConfirmed, hindex]
      exact .unchanged fun _ (.mark hsome _) => by cases hindex.symm.trans hsome
    | some i =>
      by_cases hzero : s.manager.nCommittedAt i = 0
      · simp only [step, result, markBatchConfirmed, hindex, hzero, ne_eq, not_true_eq_false, if_false]
        exact .changed (.mark hindex hzero) (persist_result (setCommitted_setCommitted hzero _) s.disk outcome)
      · simp only [step, markBatchConfirmed, hindex, if_pos hzero]
        refine .unchanged fun _ (.mark hsome hzero') => ?_
        cases hindex.symm.trans hsome
        exact hzero hzero'
  | save outcome =>
    -- the change that is nothing, which is taken back by nothing
    have hsave : s.manager.persist id s.disk outcome = (s.manager, s.manager.saveLocked s.disk outcome) := by
      unfold persist
      split <;> simp [*]
    have hp := @persist_result s.manager s.manager id rfl s.disk outcome
    rw [hsave] at hp
    exact .changed .save hp
  | load path outcome =>
    simp only [step, result, load]
    cases hload : loadFile s.disk path outcome with
    | error e => exact .unchanged fun _ hc => by cases hc
    | ok m' => exact .loaded rfl hload

/-! ### Every run keeps the indexes -/

theorem indexed_of_change {m m' : MsgAnchorManager} {op : AnchorOp} (hm : m.Indexed) (hc : Change hash m op m') :
    m'.Indexed := by
  cases hc with
  | queue hnew => exact hm.pushPending hnew
  | prepare hnone => exact hm.prepare hash hnone _
  | submit hsome hname hnew => exact hm.pushBatch (preparedEntries_of_some hsome) hname hnew
  | abort => exact hm.requeuePrepared
  | mark hzero => exact hm.setCommitted _ _
  | save => exact hm

theorem loadFile_eq_ok {disk : Disk} {path : String} {outcome : ReadOutcome} {m : MsgAnchorManager} :
    loadFile disk path outcome = .ok m ↔
      ∃ state, readState disk path outcome = .ok state ∧ m.toAnchorState = state.requeue ∧ m.Indexed ∧
        m.path = path ∧ m.loaded = true := by
  unfold loadFile
  simp only [bind_eq_ok, pure, Except.pure, Except.ok.injEq]
  constructor
  · rintro ⟨state, hread, idx, hidx, rfl⟩
    exact ⟨state, hread, rfl, hidx, rfl, rfl⟩
  · rintro ⟨state, hread, hstate, hidx, rfl, hloaded⟩
    obtain ⟨mstate, idx, path, loaded⟩ := m
    cases hstate
    cases hloaded
    exact ⟨state, hread, idx, hidx, rfl⟩

theorem indexed_step {s : AnchorSystem} (hm : s.manager.Indexed) (op : AnchorOp) :
    (step hash s op).manager.Indexed := by
  have hstep := step_result hash hm op
  generalize step hash s op = s', result hash s op = r at hstep
  cases hstep with
  | unchanged => exact hm
  | changed hc hp =>
    cases hp with
    | stored => exact indexed_of_change hash hm hc
    | rolledBack => exact hm
    | thrown => exact indexed_of_change hash hm hc
  | loaded hop hload =>
    obtain ⟨_, _, _, hindexed, _⟩ := loadFile_eq_ok.mp hload
    exact hindexed

theorem indexed_run (files : String → FileState) (ops : List AnchorOp) :
    (run hash (initial files) ops).manager.Indexed := by
  induction ops using List.reverseRecOn with
  | nil => exact indexed_default
  | append_singleton ops op ih =>
    rw [run_concat]
    exact indexed_step hash ih op

end AnchorSystem

end Step

end OmegaCore.Smsg
