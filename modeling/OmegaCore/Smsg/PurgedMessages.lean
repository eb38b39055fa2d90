import OmegaCore.Smsg.MessageStore
import OmegaCore.Smsg.PaidMessages

/-!
Purged messages in runs of the store.  The look-up of purged messages takes the timestamps of
the records for those of messages that need no further check, so that it lets every purged
message pass.  A message that was purged is kept out by other reasons only.
-/

namespace OmegaCore.Smsg

open Util List MessageStore

/-- The operations on the store.  The maintenance thread and a restart can change the buckets. -/
inductive StoreOp (CKey : Type) where
  | purge (io : PurgeIO) (vMsgId : Bytes)
  | store (io : StoreIO) (m : SecureMessage) (pPayload : Bytes)
  | storeUnscanned (io : StoreIO) (m : SecureMessage) (pPayload : Bytes)
  | receive (io : ReceiveIO CKey) (vchData : Bytes)
  | buildPurgedSets (dbOpens : Bool) (time : Int)
  | changeBuckets (buckets : Map Int64 TokenSet)

section Runs

variable {CKey CPubKey : Type} (c : Crypto CKey CPubKey) (ripemd160 : Bytes → Uint160) (chain : Pow.Chain)

/-- One operation, with the calls of `Store` and `StoreUnscanned` in it. -/
def storeStep (s : MessageStore) : StoreOp CKey → MessageStore × List StoreCall
  | .purge io vMsgId => ((s.purge ripemd160 io vMsgId).1, [])
  | .store io m pPayload =>
    ((s.store ripemd160 io m pPayload).1,
      [{ before := s, unscanned := false, io, message := m, pPayload, result := (s.store ripemd160 io m pPayload).2 }])
  | .storeUnscanned io m pPayload =>
    (s, [{ before := s, unscanned := true, io, message := m, pPayload,
           result := s.storeUnscanned ripemd160 io m pPayload }])
  | .receive io vchData => receive c ripemd160 io vchData s
  | .buildPurgedSets dbOpens time => (s.buildPurgedSets chain dbOpens time, [])
  | .changeBuckets buckets => ({ s with buckets }, [])

def storeRun : List (StoreOp CKey) → MessageStore → MessageStore × List StoreCall
  | [], s => (s, [])
  | op :: ops, s =>
    let (s', calls) := storeStep c ripemd160 chain s op
    let (s'', rest) := storeRun ops s'
    (s'', calls ++ rest)

/-- The record of a message is not rebuilt away: it has not expired when the sets are built. -/
def Unexpired (vMsgId : Bytes) : List (StoreOp CKey) → MessageStore → Prop
  | [], _ => True
  | op :: ops, s =>
    (∀ dbOpens time, op = .buildPurgedSets dbOpens time → ∀ purged, s.purgedDb[vMsgId]? = some purged →
      time ≤ purgedExpiry chain purged) ∧
    Unexpired vMsgId ops (storeStep c ripemd160 chain s op).1

/-- A message is kept out for a reason other than its purge: it is out of the time range, the file
cannot be written, or its token is in the bucket. -/
def KeptOut (call : StoreCall) : Prop :=
  inWindow call.io.adjustedTime call.message.timestamp = false ∨ call.io.dirCreated = false ∨
    call.io.fileOpens = false ∨ call.io.written = false ∨
    (call.unscanned = false ∧ ((call.before.tokensAt call.message.timestamp)[tokenSample call.pPayload]?).isSome = true)

end Runs

/-! ### Single operations -/

section Steps

variable {CKey CPubKey : Type} {c : Crypto CKey CPubKey} {ripemd160 : Bytes → Uint160} {chain : Pow.Chain}
  {s : MessageStore} {m : SecureMessage} {pPayload : Bytes}

def SamePurged (s s' : MessageStore) : Prop :=
  s'.purgedDb = s.purgedDb ∧ s'.setPurgedTimestamps = s.setPurgedTimestamps

theorem SamePurged.trans {s₁ s₂ s₃ : MessageStore} (h : SamePurged s₁ s₂) (h' : SamePurged s₂ s₃) : SamePurged s₁ s₃ :=
  ⟨h'.1.trans h.1, h'.2.trans h.2⟩

theorem samePurged_store (io : StoreIO) : SamePurged s (s.store ripemd160 io m pPayload).1 := by
  unfold store
  split
  · exact ⟨rfl, rfl⟩
  · split_ifs <;> exact ⟨rfl, rfl⟩

def StoreCall.Faithful (ripemd160 : Bytes → Uint160) (call : StoreCall) : Prop :=
  call.result = if call.unscanned then call.before.storeUnscanned ripemd160 call.io call.message call.pPayload
    else (call.before.store ripemd160 call.io call.message call.pPayload).2

theorem checkPurged_of_timestamp {dbOpens : Bool} (h : (s.setPurgedTimestamps[m.timestamp]?).isSome = true) :
    s.checkPurged ripemd160 dbOpens m pPayload = .ok () := by
  rw [checkPurged, if_pos h]

theorem result_ne_ok_iff {call : StoreCall} (hcall : call.Faithful ripemd160)
    (h : (call.before.setPurgedTimestamps[call.message.timestamp]?).isSome = true) :
    call.result ≠ .ok () ↔ KeptOut call := by
  rw [hcall]
  unfold KeptOut storeUnscanned store
  simp only [checkPurged_of_timestamp h]
  cases hu : call.unscanned with
  | true =>
    simp only [if_true, Bool.true_eq_false, false_and, or_false]
    split_ifs <;> simp_all
  | false =>
    simp only [Bool.false_eq_true, if_false, true_and]
    split_ifs <;> simp_all

theorem calls_receiveLoop (io : ReceiveIO CKey) (n i : ℕ) (data : Bytes) (s : MessageStore) :
    SamePurged s (receiveLoop c ripemd160 io n i data s).1 ∧
      ∀ call ∈ (receiveLoop c ripemd160 io n i data s).2, call.Faithful ripemd160 ∧ SamePurged s call.before := by
  induction n generalizing i data s with
  | zero => exact ⟨⟨rfl, rfl⟩, fun _ h => absurd h not_mem_nil⟩
  | succ n ih =>
    unfold receiveLoop
    dsimp only
    split_ifs
    · exact ⟨⟨rfl, rfl⟩, fun _ h => absurd h not_mem_nil⟩
    · exact ⟨⟨rfl, rfl⟩, fun _ h => absurd h not_mem_nil⟩
    · exact ih _ _ _
    · exact ih _ _ _
    · split
      · refine ⟨samePurged_store _, fun call hmem => ?_⟩
        rw [mem_singleton.mp hmem]
        exact ⟨rfl, ⟨rfl, rfl⟩⟩
      · generalize readMessage (data.take smsgHdrLen) (Bytes.slice data smsgHdrLen
          (Bytes.readAt 32 (data.take smsgHdrLen) 100 4).toNat) = m
        have hstore : SamePurged s (s.store ripemd160 (io.store i) m m.pPayload).1 := samePurged_store (io.store i)
        obtain ⟨hfinal, hcalls⟩ := ih (i + 1)
          (data.drop (smsgHdrLen + (Bytes.readAt 32 (data.take smsgHdrLen) 100 4).toNat)) _
        refine ⟨hstore.trans hfinal, fun call hmem => ?_⟩
        rcases mem_cons.mp hmem with rfl | hmem
        · exact ⟨rfl, ⟨rfl, rfl⟩⟩
        · rcases mem_append.mp hmem with hmem | hmem
          · unfold scanStored at hmem
            split_ifs at hmem
            · rw [mem_singleton.mp hmem]
              exact ⟨rfl, hstore⟩
            · cases hmem
          · obtain ⟨hfaithful, hsame⟩ := hcalls call hmem
            exact ⟨hfaithful, hstore.trans hsame⟩

theorem calls_receive (io : ReceiveIO CKey) (vchData : Bytes) :
    SamePurged s (receive c ripemd160 io vchData s).1 ∧
      ∀ call ∈ (receive c ripemd160 io vchData s).2, call.Faithful ripemd160 ∧ SamePurged s call.before := by
  have hnone : SamePurged s s ∧ ∀ call ∈ ([] : List StoreCall), call.Faithful ripemd160 ∧ SamePurged s call.before :=
    ⟨⟨rfl, rfl⟩, fun _ h => absurd h not_mem_nil⟩
  unfold receive
  dsimp only
  split_ifs
  · exact hnone
  · exact hnone
  · exact hnone
  · exact hnone
  · exact hnone
  · exact calls_receiveLoop io _ _ _ s

theorem calls_storeStep (op : StoreOp CKey) :
    ∀ call ∈ (storeStep c ripemd160 chain s op).2, call.Faithful ripemd160 ∧ SamePurged s call.before := by
  intro call hmem
  cases op with
  | store io m pPayload | storeUnscanned io m pPayload =>
    rw [mem_singleton.mp hmem]
    exact ⟨rfl, rfl, rfl⟩
  | receive io vchData => exact (calls_receive io vchData).2 call hmem
  | _ => cases hmem

/-! ### Records over runs -/

/-- A record carries the timestamp of the id that it is stored under. -/
def RecordTimes (s : MessageStore) : Prop :=
  ∀ vMsgId purged, s.purgedDb[vMsgId]? = some purged → purged.timestamp = msgTime vMsgId

/-- A message is on record, and its timestamp is in the set. -/
def OnRecord (vMsgId : Bytes) (s : MessageStore) : Prop :=
  (s.purgedDb[vMsgId]?).isSome = true ∧ (s.setPurgedTimestamps[msgTime vMsgId]?).isSome = true

theorem RecordTimes.of_same {s' : MessageStore} (h : RecordTimes s) (hsame : SamePurged s s') : RecordTimes s' := by
  unfold RecordTimes
  rw [hsame.1]
  exact h

variable {vMsgId : Bytes}

theorem OnRecord.of_same {s' : MessageStore} (h : OnRecord vMsgId s) (hsame : SamePurged s s') :
    OnRecord vMsgId s' := by
  unfold OnRecord
  rw [hsame.1, hsame.2]
  exact h

/-- The state after a purge, up to the buckets. -/
theorem purge_eq (io : PurgeIO) (vMsgId : Bytes) (h : (s.purge ripemd160 io vMsgId).2 = .ok ()) :
    ∃ purged : SecMsgPurged, purged.timestamp = msgTime vMsgId ∧
      (s.purge ripemd160 io vMsgId).1.purgedDb = s.purgedDb.insert vMsgId purged ∧
      (s.purge ripemd160 io vMsgId).1.setPurgedTimestamps = s.setPurgedTimestamps.insert (msgTime vMsgId) () := by
  have htoken : SamePurged s ((s.touchBucket (msgTime vMsgId)).purgeToken ripemd160 io vMsgId).1 := by
    unfold purgeToken
    split
    · exact ⟨rfl, rfl⟩
    · split_ifs
      · exact ⟨rfl, rfl⟩
      · exact ⟨rfl, rfl⟩
  unfold purge at h ⊢
  split_ifs at h ⊢
  generalize (s.touchBucket (msgTime vMsgId)).purgeToken ripemd160 io vMsgId = r at htoken
  obtain ⟨s', sample⟩ := r
  refine ⟨{ timestamp := msgTime vMsgId, sample, timepurged := io.time }, rfl, ?_, ?_⟩
  · exact congrArg (fun db : Map Bytes SecMsgPurged => db.insert vMsgId _) htoken.1
  · exact congrArg (fun set : Map Int64 Unit => set.insert (msgTime vMsgId) ()) htoken.2

theorem purge_error (io : PurgeIO) (vMsgId : Bytes) (h : (s.purge ripemd160 io vMsgId).2 ≠ .ok ()) :
    (s.purge ripemd160 io vMsgId).1 = s := by
  unfold purge at h ⊢
  split_ifs at h ⊢
  · rfl
  · exact absurd rfl h

/-- A purge keeps the records, and adds one if it succeeds. -/
theorem records_purge (h : RecordTimes s) (io : PurgeIO) (vMsgId : Bytes) :
    RecordTimes (s.purge ripemd160 io vMsgId).1 ∧
      ∀ id, OnRecord id s ∨ (id = vMsgId ∧ (s.purge ripemd160 io vMsgId).2 = .ok ()) →
        OnRecord id (s.purge ripemd160 io vMsgId).1 := by
  by_cases hok : (s.purge ripemd160 io vMsgId).2 = .ok ()
  · obtain ⟨purged, htime, hdb, hset⟩ := purge_eq io vMsgId hok
    unfold RecordTimes OnRecord
    rw [hdb, hset]
    refine ⟨Map.forall_insert h htime, fun id hid => ?_⟩
    rw [Map.get_insert, Map.get_insert]
    rcases hid with ⟨hrecord, htime⟩ | ⟨rfl, -⟩
    · constructor
      · split_ifs
        · rfl
        · exact hrecord
      · split_ifs
        · rfl
        · exact htime
    · rw [if_pos rfl, if_pos rfl]
      exact ⟨rfl, rfl⟩
  · rw [purge_error io vMsgId hok]
    exact ⟨h, fun id hid => hid.resolve_right fun hnew => hok hnew.2⟩

theorem mem_foldl_timestamps (records : List SecMsgPurged) (set : Map Int64 Unit) (timestamp : Int64)
    (h : (∃ purged ∈ records, purged.timestamp = timestamp) ∨ (set[timestamp]?).isSome = true) :
    ((records.foldl (fun set purged => set.insert purged.timestamp ()) set)[timestamp]?).isSome = true := by
  induction records generalizing set with
  | nil => simpa using h
  | cons record records ih =>
    simp only [mem_cons, exists_eq_or_imp] at h
    apply ih
    rw [Map.get_insert]
    split_ifs with htime
    · exact .inr rfl
    · exact h.imp_left fun h => h.resolve_left (Ne.symm htime)

theorem records_buildPurgedSets (htimes : RecordTimes s) (dbOpens : Bool) (time : Int) :
    RecordTimes (s.buildPurgedSets chain dbOpens time) ∧
      ∀ vMsgId, OnRecord vMsgId s → (∀ purged, s.purgedDb[vMsgId]? = some purged →
        time ≤ purgedExpiry chain purged) → OnRecord vMsgId (s.buildPurgedSets chain dbOpens time) := by
  unfold buildPurgedSets
  split_ifs
  · exact ⟨htimes, fun _ h _ => h⟩
  · refine ⟨fun id purged hget => htimes id purged (Map.get_of_get_filter hget), fun vMsgId h hfresh => ?_⟩
    obtain ⟨purged, hget⟩ := Option.isSome_iff_exists.mp h.1
    have hkept : (s.purgedDb.filter fun _ purged =>
        decide (time ≤ purgedExpiry chain purged))[vMsgId]? = some purged := by
      rw [Std.ExtTreeMap.getElem?_filter, hget]
      simp [Option.pfilter, hfresh purged hget]
    refine ⟨Option.isSome_iff_exists.mpr ⟨purged, hkept⟩, ?_⟩
    apply mem_foldl_timestamps
    exact .inl ⟨purged, (Map.mem_values _ _).mpr ⟨vMsgId, hkept⟩, htimes vMsgId purged hget⟩

/-- A message stays on record as long as its record does not expire. -/
theorem records_storeStep (h : RecordTimes s) (op : StoreOp CKey) :
    RecordTimes (storeStep c ripemd160 chain s op).1 ∧
      ∀ vMsgId, OnRecord vMsgId s → (∀ dbOpens time, op = .buildPurgedSets dbOpens time → ∀ purged,
        s.purgedDb[vMsgId]? = some purged → time ≤ purgedExpiry chain purged) →
        OnRecord vMsgId (storeStep c ripemd160 chain s op).1 := by
  have hsame {s'} (hs : SamePurged s s') := And.intro (h.of_same hs) fun vMsgId (hon : OnRecord vMsgId s) => hon.of_same hs
  cases op with
  | purge io id =>
    obtain ⟨htimes, hrecord⟩ := records_purge h io id
    exact ⟨htimes, fun vMsgId hon _ => hrecord vMsgId (.inl hon)⟩
  | store io m pPayload => exact (hsame (samePurged_store io)).imp_right fun hkeep id hon _ => hkeep id hon
  | receive io vchData => exact (hsame (calls_receive io vchData).1).imp_right fun hkeep id hon _ => hkeep id hon
  | buildPurgedSets dbOpens time =>
    obtain ⟨htimes, hrecord⟩ := records_buildPurgedSets h dbOpens time
    exact ⟨htimes, fun vMsgId hon hfresh => hrecord vMsgId hon (hfresh dbOpens time rfl)⟩
  | storeUnscanned io m pPayload | changeBuckets buckets => exact ⟨h, fun _ hon _ => hon⟩

theorem recordTimes_storeRun (ops : List (StoreOp CKey)) (h : RecordTimes s) :
    RecordTimes (storeRun c ripemd160 chain ops s).1 := by
  induction ops generalizing s with
  | nil => exact h
  | cons op ops ih => exact ih (records_storeStep h op).1

theorem calls_storeRun (ops : List (StoreOp CKey)) (htimes : RecordTimes s) (h : OnRecord vMsgId s)
    (hfresh : Unexpired c ripemd160 chain vMsgId ops s) :
    ∀ call ∈ (storeRun c ripemd160 chain ops s).2, call.Faithful ripemd160 ∧ OnRecord vMsgId call.before := by
  induction ops generalizing s with
  | nil => exact fun _ hmem => absurd hmem not_mem_nil
  | cons op ops ih =>
    intro call hmem
    rcases mem_append.mp hmem with hmem | hmem
    · obtain ⟨hfaithful, hsame⟩ := calls_storeStep op call hmem
      exact ⟨hfaithful, h.of_same hsame⟩
    · obtain ⟨htimes', hrecord⟩ := records_storeStep htimes op
      exact ih htimes' (hrecord vMsgId h hfresh.1) hfresh.2 call hmem

theorem msgTime_getMsgID (m : SecureMessage) (pPayload : Bytes) :
    msgTime (getMsgID ripemd160 m pPayload) = m.timestamp := by
  have htake : ((getMsgID ripemd160 m pPayload).take 8).reverse = Bytes.ofBitVec 8 m.timestamp.toBitVec := by
    rw [getMsgID, take_left' (by simp), reverse_reverse]
  have hread : Bytes.readAt 64 ([] ++ (Bytes.ofBitVec 8 m.timestamp.toBitVec ++ [])) 0 8 = m.timestamp.toBitVec :=
    Bytes.readAt_append (n := 8) m.timestamp.toBitVec rfl
  rw [append_nil, nil_append] at hread
  rw [msgTime, htake, hread, Int64.ofBitVec_toBitVec]

/-- After a purge, the message is kept out of the store exactly if there is another reason. -/
theorem store_after_purge_iff (pre post : List (StoreOp CKey)) (io : PurgeIO) (vMsgId : Bytes)
    (hpurge : ((storeRun c ripemd160 chain pre {}).1.purge ripemd160 io vMsgId).2 = .ok ())
    (hfresh : Unexpired c ripemd160 chain vMsgId post
      ((storeRun c ripemd160 chain pre {}).1.purge ripemd160 io vMsgId).1) (call : StoreCall)
    (hcall : call ∈ (storeRun c ripemd160 chain post
      ((storeRun c ripemd160 chain pre {}).1.purge ripemd160 io vMsgId).1).2)
    (hid : getMsgID ripemd160 call.message call.pPayload = vMsgId) : call.result ≠ .ok () ↔ KeptOut call := by
  have htimes : RecordTimes (storeRun c ripemd160 chain pre {}).1 :=
    recordTimes_storeRun pre fun id purged hget => by cases hget
  obtain ⟨htimes', hrecord⟩ := records_purge htimes io vMsgId
  obtain ⟨hfaithful, honRecord⟩ := calls_storeRun post htimes' (hrecord vMsgId (.inr ⟨rfl, hpurge⟩)) hfresh call hcall
  apply result_ne_ok_iff hfaithful
  rw [← @msgTime_getMsgID ripemd160 call.message call.pPayload, hid]
  exact honRecord.2

end Steps

/-- The store after the sample message was purged before it ever came in. -/
def samplePurged : MessageStore :=
  (({} : MessageStore).purge lowBytes { time := 100 } (getMsgID lowBytes samplePaid samplePayload)).1

def samplePurgedCall : StoreCall where
  before := samplePurged
  unscanned := false
  io := { adjustedTime := 100 }
  message := samplePaid
  pPayload := samplePayload
  result := (samplePurged.store lowBytes { adjustedTime := 100 } samplePaid samplePayload).2

theorem samplePurgedCall_mem : samplePurgedCall ∈
    (storeRun plainCrypto lowBytes .main [.store { adjustedTime := 100 } samplePaid samplePayload] samplePurged).2 :=
  mem_cons_self

theorem sample_unexpired (vMsgId : Bytes) : Unexpired plainCrypto lowBytes .main vMsgId
    [.store { adjustedTime := 100 } samplePaid samplePayload] samplePurged := by
  refine ⟨fun _ _ h => ?_, trivial⟩
  cases h

theorem store_after_purge_iff_sample : samplePurgedCall.result ≠ .ok () ↔ KeptOut samplePurgedCall :=
  @store_after_purge_iff _ _ plainCrypto lowBytes .main [] _ { time := 100 } _ rfl (sample_unexpired _)
    samplePurgedCall samplePurgedCall_mem rfl

theorem samplePurgedCall_result : samplePurgedCall.result = .ok () := by decide +kernel

/-- A purged message can be stored while its record has not expired. -/
theorem store_purged_message : ¬ ∀ (c : Crypto CKeyID CKeyID) (ripemd160 : Bytes → Uint160) (chain : Pow.Chain)
      (pre post : List (StoreOp CKeyID)) (io : PurgeIO) (vMsgId : Bytes) (call : StoreCall),
      ((storeRun c ripemd160 chain pre {}).1.purge ripemd160 io vMsgId).2 = .ok () →
      Unexpired c ripemd160 chain vMsgId post ((storeRun c ripemd160 chain pre {}).1.purge ripemd160 io vMsgId).1 →
      call ∈ (storeRun c ripemd160 chain post ((storeRun c ripemd160 chain pre {}).1.purge ripemd160 io vMsgId).1).2 →
      getMsgID ripemd160 call.message call.pPayload = vMsgId →
      (∀ purged, call.before.purgedDb[vMsgId]? = some purged →
        call.io.adjustedTime ≤ purgedExpiry chain purged) →
      call.result ≠ .ok () := by
  intro h
  refine h plainCrypto lowBytes .main [] _ { time := 100 } _ samplePurgedCall rfl (sample_unexpired _)
    samplePurgedCall_mem rfl (fun purged hget => ?_) samplePurgedCall_result
  have hrecord : samplePurged.purgedDb[getMsgID lowBytes samplePaid samplePayload]? =
      some { timestamp := 0, sample := replicate 8 0, timepurged := 100 } := by decide +kernel
  cases hrecord.symm.trans hget
  exact (by decide : (100 : Int) ≤ 100 + 31 * 86400)

end OmegaCore.Smsg
