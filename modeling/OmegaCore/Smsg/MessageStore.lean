import OmegaCore.Smsg.TopicRouting

/-!
The store of messages and the records of purged ones.  Messages are kept in files by the hour,
and a token of each in a bucket.  `Purge` writes a record under the id of a message, and keeps
the timestamps of all records in a set.  `Store` and `StoreUnscanned` look both up before they
write.  What the file system and the database answer is an input of every operation.
-/

namespace OmegaCore.Smsg

open Util

structure SecMsgToken where
  timestamp : Int64
  sample : Bytes
  offset : Int
  ttl : ℕ
  deriving DecidableEq

structure SecMsgPurged where
  timestamp : Int64
  sample : Bytes
  timepurged : Int
  deriving DecidableEq

/-- `setTokens`, by timestamp and sample. -/
abbrev TokenSet := Map Int64 (Map Bytes SecMsgToken)

structure MessageStore where
  purgedDb : Map Bytes SecMsgPurged := ∅
  setPurgedTimestamps : Map Int64 Unit := ∅
  buckets : Map Int64 TokenSet := ∅

/-- What the system answers to one `Store` or `StoreUnscanned`.  A file that `Receive` has opened
counts as one that opens. -/
structure StoreIO where
  dbOpens : Bool := true
  dirCreated : Bool := true
  adjustedTime : Int
  fileOpens : Bool := true
  offset : Int := 0
  written : Bool := true

/-- `timestamp - (timestamp % SMSG_BUCKET_LEN)`. -/
def bucketTime (timestamp : Int64) : Int64 :=
  timestamp - timestamp % smsgBucketLen

def tokenSample (pPayload : Bytes) : Bytes :=
  if pPayload.length < 8 then List.replicate 8 0 else pPayload.take 8

/-- The timestamp in the first eight bytes of an id, most significant byte first. -/
def msgTime (vMsgId : Bytes) : Int64 :=
  Int64.ofBitVec (Bytes.readAt 64 (vMsgId.take 8).reverse 0 8)

def inWindow (adjustedTime : Int) (timestamp : Int64) : Bool :=
  decide (timestamp.toInt ≤ adjustedTime + smsgTimeLeeway) && decide (adjustedTime - smsgRetention ≤ timestamp.toInt)

namespace MessageStore

variable (ripemd160 : Bytes → Uint160) (s : MessageStore)

variable (timestamp : Int64) (io : PurgeIO) (vMsgId : Bytes)

/-- The tokens of a timestamp, in the order of their samples. -/
def tokensAt : Map Bytes SecMsgToken :=
  (s.buckets[bucketTime timestamp]?.bind (·[timestamp]?)).getD ∅

/-- The reference `buckets[bucketTime]` makes the bucket if there is none. -/
def touchBucket : MessageStore :=
  { s with buckets := s.buckets.emplace (bucketTime timestamp) ∅ }

def setTokensAt (tokens : Map Bytes SecMsgToken) : MessageStore :=
  { s with
    buckets := s.buckets.insert (bucketTime timestamp)
      ((s.buckets[bucketTime timestamp]?.getD ∅).insert timestamp tokens) }

/-! ### Store -/

def checkPurged (dbOpens : Bool) (m : SecureMessage) (pPayload : Bytes) : Except SecureMessageCode Unit :=
  if s.setPurgedTimestamps[m.timestamp]?.isSome then .ok ()
  else if !dbOpens then .error .generalError
  else if s.purgedDb[getMsgID ripemd160 m pPayload]?.isSome then .error .purgedMsg
  else .ok ()

def storeUnscanned (io : StoreIO) (m : SecureMessage) (pPayload : Bytes) : Except SecureMessageCode Unit :=
  match s.checkPurged ripemd160 io.dbOpens m pPayload with
  | .error _ => .error .purgedMsg
  | .ok _ =>
    if !io.dirCreated then .error .generalError
    else if !inWindow io.adjustedTime m.timestamp then .error .generalError
    else if !io.fileOpens then .error .generalError
    else if !io.written then .error .generalError
    else .ok ()

def daysToLive (m : SecureMessage) : ℕ :=
  if m.version.1 < 3 then 2 else m.nDaysRetention

def store (io : StoreIO) (m : SecureMessage) (pPayload : Bytes) : MessageStore × Except SecureMessageCode Unit :=
  match s.checkPurged ripemd160 io.dbOpens m pPayload with
  | .error _ => (s, .error .purgedMsg)
  | .ok _ =>
    if !io.dirCreated then (s, .error .generalError)
    else if !inWindow io.adjustedTime m.timestamp then (s, .error .generalError)
    else if (s.tokensAt m.timestamp)[tokenSample pPayload]?.isSome then
      (s.touchBucket m.timestamp, .error .generalError)
    else if !io.fileOpens then (s.touchBucket m.timestamp, .error .generalError)
    else if !io.written then (s.touchBucket m.timestamp, .error .generalError)
    else
      let token : SecMsgToken :=
        { timestamp := m.timestamp, sample := tokenSample pPayload, offset := io.offset, ttl := daysToLive m }
      (s.setTokensAt m.timestamp ((s.tokensAt m.timestamp).insert token.sample token), .ok ())

/-! ### Purge -/

/-- What the system answers to `Purge`; `retrieve` reads a message back, `remove` overwrites it. -/
structure PurgeIO where
  dbOpens : Bool := true
  time : Int
  retrieve : SecMsgToken → Option (SecureMessage × Bytes) := fun _ => none
  remove : SecMsgToken → Bool := fun _ => true

/-- The token whose message has the id. -/
def purgeTarget : Option SecMsgToken :=
  (Map.values (s.tokensAt (msgTime vMsgId))).find? fun token =>
    match io.retrieve token with
    | none => false
    | some (m, pPayload) => getMsgID ripemd160 m pPayload == vMsgId

/-- The loop over the tokens: a token whose message is removed has no time to live any more. -/
def purgeToken : MessageStore × Bytes :=
  match s.purgeTarget ripemd160 io vMsgId with
  | none => (s, List.replicate 8 0)
  | some token =>
    if io.remove token then
      (s.setTokensAt (msgTime vMsgId) ((s.tokensAt (msgTime vMsgId)).insert token.sample { token with ttl := 0 }),
        token.sample)
    else (s, List.replicate 8 0)

def purge : MessageStore × Except SecureMessageCode Unit :=
  if !io.dbOpens then (s, .error .generalError)
  else
    let (s, sample) := (s.touchBucket (msgTime vMsgId)).purgeToken ripemd160 io vMsgId
    let purged : SecMsgPurged := { timestamp := msgTime vMsgId, sample, timepurged := io.time }
    ({ s with
        purgedDb := s.purgedDb.insert vMsgId purged
        setPurgedTimestamps := s.setPurgedTimestamps.insert purged.timestamp () }, .ok ())

def purgedExpiry (chain : Pow.Chain) (purged : SecMsgPurged) : Int :=
  purged.timepurged + 31 * smsgGetSecondsInDay chain

/-- `BuildPurgedSets`: expired records are erased, and the timestamps of the others collected. -/
def buildPurgedSets (chain : Pow.Chain) (dbOpens : Bool) (time : Int) : MessageStore :=
  if !dbOpens then s
  else
    let purgedDb := s.purgedDb.filter fun _ purged => decide (time ≤ purgedExpiry chain purged)
    { s with
      purgedDb
      setPurgedTimestamps := (Map.values purgedDb).foldl (fun set purged => set.insert purged.timestamp ()) ∅ }

end MessageStore

/-! ### Receive -/

/-- A header read from its bytes, with the payload that follows. -/
def readMessage (header pPayload : Bytes) : SecureMessage where
  hash := Bytes.readAt (8 * 4) header 0 4
  version := (header.getD 4 0, header.getD 5 0)
  flags := header.getD 6 0
  timestamp := Int64.ofBitVec (Bytes.readAt 64 header 7 8)
  iv := Bytes.readAt (8 * 16) header 15 16
  cpkR := Bytes.readAt (8 * 33) header 31 33
  mac := Bytes.readAt (8 * 32) header 64 32
  nonce := Bytes.readAt (8 * 4) header 96 4
  nPayload := Bytes.readAt (8 * 4) header 100 4
  pPayload := pPayload

/-- A call of `Store` or `StoreUnscanned`: the state before it, its inputs and its result. -/
structure StoreCall where
  before : MessageStore
  unscanned : Bool
  io : StoreIO
  message : SecureMessage
  pPayload : Bytes
  result : Except SecureMessageCode Unit

/-- What the system answers to `Receive`, for the messages by their position in the bunch. -/
structure ReceiveIO (CKey : Type) where
  adjustedTime : Int
  numWantSent : ℕ
  validateEnv : ValidateEnv
  node : SmsgNode CKey
  store : ℕ → StoreIO
  storeUnscanned : ℕ → StoreIO

section Receive

variable {CKey CPubKey : Type} (c : Crypto CKey CPubKey) (ripemd160 : Bytes → Uint160)

/-- `ScanMessage` of a stored message, as far as it stores it again for a locked wallet. -/
def scanStored (s : MessageStore) (io : StoreIO) (node : SmsgNode CKey) (m : SecureMessage) : List StoreCall :=
  if node.scanMessage c m = .walletLocked true then
    [{ before := s, unscanned := true, io, message := m, pPayload := m.pPayload,
       result := s.storeUnscanned ripemd160 io m m.pPayload }]
  else []

/-- The loop over the bunch.  It ends early if the data is too short or a message is not stored;
invalid messages and those of other topics are passed over. -/
def receiveLoop (io : ReceiveIO CKey) : ℕ → ℕ → Bytes → MessageStore → MessageStore × List StoreCall
  | 0, _, _, s => (s, [])
  | n + 1, i, data, s =>
    if data.length < smsgHdrLen then (s, [])
    else
      let header := data.take smsgHdrLen
      let nPayload := (Bytes.readAt 32 header 100 4).toNat
      if nPayload > data.length - smsgHdrLen then (s, [])
      else
        let m := readMessage header (Bytes.slice data smsgHdrLen nPayload)
        let rest := data.drop (smsgHdrLen + nPayload)
        if validate c ripemd160 io.validateEnv m m.pPayload ≠ .done () then receiveLoop io n (i + 1) rest s
        else if m.isTopicVersion && !io.node.isSubscribedTopicHash m.nonce then receiveLoop io n (i + 1) rest s
        else
          let (s', result) := s.store ripemd160 (io.store i) m m.pPayload
          let call : StoreCall :=
            { before := s, unscanned := false, io := io.store i, message := m, pPayload := m.pPayload, result }
          match result with
          | .error _ => (s', [call])
          | .ok _ =>
            let scanned := scanStored c ripemd160 s' (io.storeUnscanned i) io.node m
            let (s'', calls) := receiveLoop io n (i + 1) rest s'
            (s'', call :: (scanned ++ calls))

/-- `Receive`, with the calls it makes. -/
def receive (io : ReceiveIO CKey) (vchData : Bytes) (s : MessageStore) : MessageStore × List StoreCall :=
  let nBunch := (Bytes.readAt 32 vchData 0 4).toNat
  let bktTime := (Int64.ofBitVec (Bytes.readAt 64 vchData 4 8)).toInt
  if vchData.length < 12 then (s, [])
  else if bktTime > io.adjustedTime + smsgTimeLeeway then (s, [])
  else if bktTime < io.adjustedTime - smsgRetention then (s, [])
  else if nBunch = 0 ∨ nBunch > 500 then (s, [])
  else if nBunch > io.numWantSent then (s, [])
  else receiveLoop c ripemd160 io nBunch 0 (vchData.drop 12) s

end Receive

end OmegaCore.Smsg
