import OmegaCore.Evo.ProviderTx
import OmegaCore.Pow.Lwma
import OmegaCore.Util.Bytes
import OmegaCore.Util.Loop

/-!
Secure messages.  A message is a header of 104 bytes and a payload of `nPayload` bytes; its id
is a hash of both, without the tail that funds a paid message.  The nonce holds the retention
days of a paid message.  For any other, `SetHash` counts it up until a keyed hash meets the
target, though its bytes also route a topic message.

`Encrypt` lays the sender, a signature, the topic with the parent id, and the plaintext out in
one payload, compressed if it is long; `DecryptWithR` takes it apart again by lengths and flags.
The primitives are parameters.  A received paid message names a transaction, an output of which
must commit to its id, plainly or under a blinding key that is sent with it, and burn the fee.
-/

namespace OmegaCore.Smsg

open Util

/-- The codes of `SecureMessageCodes` other than `SMSG_NO_ERROR`, as far as they are returned. -/
inductive SecureMessageCode where
  | generalError | unknownVersion | invalidAddress | invalidAddressFrom | invalidAddressTo
  | pubkeyNotExists | unknownKeyFrom | macMismatch | payloadOverSize | timeInFuture | timeExpired
  | invalidHash | checksumMismatch | shutdownDetected | messageTooLong | compressFailed
  | encryptFailed | fundFailed | purgedMsg
  deriving DecidableEq, Repr

def smsgHdrLen : ℕ := 104
def smsgPlHdrLen : ℕ := 1 + 20 + 65 + 4
def smsgBucketLen : Int64 := 60 * 60
def smsgSecondsInDay : Int := 86400
def smsgMaxPaidTTL : Int := smsgSecondsInDay * 31
def smsgRetention : Int := smsgMaxPaidTTL
def smsgTimeLeeway : Int := 24
def smsgMaxMsgBytes : ℕ := 24000
def smsgMaxAmsgBytes : ℕ := 512
def smsgMaxMsgBytesPaid : ℕ := 512 * 1024

def lz4CompressBound (n : ℕ) : ℕ :=
  n + n / 255 + 16

def smsgVersionTopic : UInt8 := 4
def smsgMaxTopicLen : ℕ := 64

def smsgMaxMsgWorst : ℕ := lz4CompressBound (smsgMaxMsgBytes + smsgPlHdrLen)

def smsgMaxMsgWorstTopic : ℕ :=
  lz4CompressBound (smsgMaxMsgBytes + smsgPlHdrLen + 1 + smsgMaxTopicLen + 20 + 2)

/-- The fields of the header in the order of its bytes, and the payload. -/
structure SecureMessage where
  hash : BitVec (8 * 4) := 0#32
  version : UInt8 × UInt8 := (2, 1)
  flags : UInt8 := 0
  timestamp : Int64 := 0
  iv : BitVec (8 * 16)
  cpkR : BitVec (8 * 33)
  mac : BitVec (8 * 32)
  nonce : BitVec (8 * 4) := 0#32
  nPayload : BitVec (8 * 4) := 0#32
  pPayload : Bytes := []

namespace SecureMessage

variable (m : SecureMessage)

/-- `SecureMessage(fPaid, nDaysRetention, fBlinded)`; the other fields of `m` are not set. -/
def init (fPaid : Bool) (nDaysRetention : ℕ) (fBlinded : Bool) : SecureMessage :=
  { iv := m.iv
    cpkR := m.cpkR
    mac := m.mac
    version := if fPaid then (3, if fBlinded then 1 else 0) else (2, 1)
    nonce := if fPaid then BitVec.ofNat 32 (nDaysRetention % 256) else 0#32 }

def isPaidVersion : Bool :=
  m.version.1 == 3

def isTopicVersion : Bool :=
  m.version.1 == smsgVersionTopic

def isBlindedPaid : Bool :=
  m.version.1 == 3 && m.version.2 == 1

/-- The number of bytes after the ciphertext: blinding key and funding txid. -/
def getPaidTailSize : ℕ :=
  if !m.isPaidVersion then 0 else if m.isBlindedPaid then 64 else 32

/-- `nonce[0]`. -/
def nDaysRetention : ℕ :=
  m.nonce.toNat % 256

/-- The header after its first four bytes, which are the checksum. -/
def bodyBytes : Bytes :=
  [m.version.1, m.version.2, m.flags] ++ (Bytes.ofBitVec 8 m.timestamp.toBitVec ++ (Bytes.ofBitVec 16 m.iv ++
    (Bytes.ofBitVec 33 m.cpkR ++ (Bytes.ofBitVec 32 m.mac ++ (Bytes.ofBitVec 4 m.nonce ++
      Bytes.ofBitVec 4 m.nPayload)))))

def headerBytes : Bytes :=
  Bytes.ofBitVec 4 m.hash ++ m.bodyBytes

theorem length_headerBytes (m : SecureMessage) : m.headerBytes.length = smsgHdrLen := by
  simp [headerBytes, bodyBytes, smsgHdrLen]

end SecureMessage

/-! ### Message ids -/

section Ids

variable (ripemd160 : Bytes → Uint160)

/-- `HashMsg`; the header must not claim fewer bytes than are hashed. -/
def hashMsg (m : SecureMessage) (payload : Bytes) (nPayload : BitVec 32) : Except SecureMessageCode Uint160 :=
  if m.nPayload < nPayload then .error .generalError
  else .ok (ripemd160 (m.headerBytes ++ payload.take nPayload.toNat))

def hashedLength (m : SecureMessage) : BitVec 32 :=
  m.nPayload - BitVec.ofNat 32 m.getPaidTailSize

/-- `GetMsgID`: the timestamp, most significant byte first, and the hash. -/
def getMsgID (m : SecureMessage) (payload : Bytes) : Bytes :=
  (Bytes.ofBitVec 8 m.timestamp.toBitVec).reverse ++
    Bytes.ofBitVec 20 (match hashMsg ripemd160 m payload (hashedLength m) with
      | .ok hash => hash
      | .error _ => 0#160)

end Ids

/-! ### Topics -/

def smsgTopicHash (topic : Bytes) : BitVec 32 :=
  topic.foldl (fun h c => (h ^^^ c.toBitVec.setWidth 32) * 16777619#32) 2166136261#32

/-- `omega.` -/
def topicPrefix : Bytes := [111, 109, 101, 103, 97, 46]

def isTopicChar (c : UInt8) : Bool :=
  (97 ≤ c && c ≤ 122) || (48 ≤ c && c ≤ 57) || c == 46

def hasDoubleDot : Bytes → Bool
  | a :: b :: topic => (a == 46 && b == 46) || hasDoubleDot (b :: topic)
  | _ => false

def isValidTopic (topic : Bytes) : Bool :=
  decide (7 ≤ topic.length) && decide (topic.length ≤ smsgMaxTopicLen) && topic.take 6 == topicPrefix &&
    topic.all isTopicChar && !hasDoubleDot topic && topic.getLast? != some 46

/-! ### Encryption -/

/-- The cryptographic primitives, over the types of private and public keys. -/
structure Crypto (CKey CPubKey : Type) where
  sha256 : Bytes → Uint256
  setKey : Uint256 → Option CKey
  getPubKey : CKey → CPubKey
  isValid : CPubKey → Bool
  getID : CPubKey → CKeyID
  serialize : CPubKey → BitVec (8 * 33)
  parse : BitVec (8 * 33) → Option CPubKey
  validPoint : CPubKey → Bool
  ecdh : CPubKey → CKey → Option Uint256
  sha512 : Bytes → Bytes
  hmacSha256 : Bytes → Bytes → BitVec (8 * 32)
  aesEncrypt : Bytes → BitVec (8 * 16) → Bytes → Option Bytes
  aesDecrypt : Bytes → BitVec (8 * 16) → Bytes → Option Bytes
  lz4Compress : Bytes → Option Bytes
  lz4Decompress : Bytes → ℕ → Option Bytes
  hash : Bytes → Uint256
  signCompact : CKey → Uint256 → BitVec (8 * 65)
  recoverCompact : Uint256 → BitVec (8 * 65) → Option CPubKey
  encodeDestination : CKeyID → String

/-- `Base58Prefix(PUBKEY_ADDRESS)[0]`. -/
def pubkeyAddress : Pow.Chain → UInt8
  | .main => 115
  | _ => 140

/-- What `Encrypt` takes from the node: the chain, the clock, the key stores, random values, and
the bytes that are in the tail of a paid payload before it is funded. -/
structure SendEnv (CKey CPubKey : Type) where
  chain : Pow.Chain
  time : Int64
  pubKeyOf : CKeyID → Option CPubKey
  privKeyOf : CKeyID → Option CKey
  iv : BitVec (8 * 16)
  keyR : CKey
  tail : ℕ → Bytes

/-- Decrypted data; `vchMessage` ends in a null byte. -/
structure MessageData where
  timestamp : Int64 := 0
  sFromAddress : String := ""
  sTopic : Bytes := []
  parentMsgId : Uint160 := 0#160
  nRetentionDays : BitVec 16 := 0#16
  vchMessage : Bytes := []
  deriving DecidableEq

/-- The value, or the code that the function returns without it. -/
def orFail {α : Type} (code : SecureMessageCode) : Option α → Except SecureMessageCode α
  | some a => .ok a
  | none => .error code

def failIf (code : SecureMessageCode) (condition : Bool) : Except SecureMessageCode Unit :=
  if condition then .error code else .ok ()

section Encrypt

variable {CKey CPubKey : Type} (c : Crypto CKey CPubKey)

/-- `omega_topic_key:` -/
def topicKeyPrefix : Bytes := [111, 109, 101, 103, 97, 95, 116, 111, 112, 105, 99, 95, 107, 101, 121, 58]

/-- The key that all subscribers of a topic share; there is none if the hash is no key. -/
def getTopicSharedKey (topic : Bytes) : Option CKey :=
  c.setKey (c.sha256 (topicKeyPrefix ++ topic))

/-- `key_e` and `key_m`. -/
def secretKeys (P : Uint256) : Bytes × Bytes :=
  let hashed := c.sha512 (Bytes.ofBitVec 32 P)
  (Bytes.slice hashed 0 32, Bytes.slice hashed 32 32)

/-- The plaintext, compressed if it has more than 128 bytes. -/
def messageData (message : Bytes) : Except SecureMessageCode Bytes :=
  if message.length > 128 then orFail .compressFailed (c.lz4Compress message) else .ok message

/-- The checks of the topic and the fields of the header that it sets. -/
def applyTopic (smsg : SecureMessage) (fSendAnonymous : Bool) (topic : Bytes) :
    Except SecureMessageCode SecureMessage :=
  if topic = [] then .ok smsg
  else if fSendAnonymous then .error .generalError
  else if !isValidTopic topic then .error .generalError
  else .ok { smsg with version := (smsgVersionTopic, 0), nonce := smsgTopicHash topic }

def anonymousPayload (lenMsg : BitVec 32) (data : Bytes) : Bytes :=
  [250, 0, 0, 0, 0] ++ (Bytes.ofBitVec 4 lenMsg ++ data)

/-- Topic, parent id and retention after the fixed header of a payload. -/
def topicExtra (topic : Bytes) (parentMsgId : Uint160) (nTopicRetentionDays : BitVec 16) : Bytes :=
  if topic = [] then []
  else
    [UInt8.ofNat topic.length] ++ (topic ++ (Bytes.ofBitVec 20 parentMsgId ++ Bytes.ofBitVec 2 nTopicRetentionDays))

def signedPayload (addressPrefix : UInt8) (ckidFrom : CKeyID) (signature : BitVec (8 * 65))
    (lenMsg : BitVec 32) (extra data : Bytes) : Bytes :=
  [addressPrefix] ++ (Bytes.ofBitVec 20 ckidFrom ++ (Bytes.ofBitVec 65 signature ++
    (Bytes.ofBitVec 4 lenMsg ++ (extra ++ data))))

def plainPayload (env : SendEnv CKey CPubKey) (addressFrom : CKeyID) (message topic data : Bytes)
    (parentMsgId : Uint160) (nTopicRetentionDays : BitVec 16) : Except SecureMessageCode Bytes :=
  let lenMsg := BitVec.ofNat 32 message.length
  if addressFrom = 0#160 then .ok (anonymousPayload lenMsg data)
  else do
    let keyFrom ← orFail .unknownKeyFrom (env.privKeyOf addressFrom)
    return signedPayload (pubkeyAddress env.chain) addressFrom (c.signCompact keyFrom (c.hash message)) lenMsg
      (topicExtra topic parentMsgId nTopicRetentionDays) data

def macData (timestamp : Int64) (iv : BitVec (8 * 16)) (ciphertext : Bytes) : Bytes :=
  Bytes.ofBitVec 8 timestamp.toBitVec ++ (Bytes.ofBitVec 16 iv ++ ciphertext)

def encrypt (env : SendEnv CKey CPubKey) (smsg : SecureMessage) (addressFrom addressTo : CKeyID)
    (message topic : Bytes) (parentMsgId : Uint160) (nTopicRetentionDays : BitVec 16) :
    Except SecureMessageCode SecureMessage := do
  let timestamp := if smsg.timestamp = 0 then env.time else smsg.timestamp
  let cpkDestK ← orFail .pubkeyNotExists (env.pubKeyOf addressTo)
  failIf .invalidAddressTo (!c.validPoint cpkDestK)
  let P ← orFail .generalError (c.ecdh cpkDestK env.keyR)
  failIf .generalError (!c.isValid (c.getPubKey env.keyR))
  let (keyE, keyM) := secretKeys c P
  let data ← messageData c message
  let smsg ← applyTopic smsg (addressFrom = 0#160) topic
  let plain ← plainPayload c env addressFrom message topic data parentMsgId nTopicRetentionDays
  let ciphertext ← orFail .encryptFailed (c.aesEncrypt keyE env.iv plain)
  let nTailSize := smsg.getPaidTailSize
  return { smsg with
    timestamp
    iv := env.iv
    cpkR := c.serialize (c.getPubKey env.keyR)
    pPayload := ciphertext ++ env.tail nTailSize
    nPayload := BitVec.ofNat 32 (ciphertext.length + nTailSize)
    mac := c.hmacSha256 keyM (macData timestamp env.iv ciphertext) }

/-! ### Decryption -/

/-- What the decrypted payload says about itself. -/
structure PayloadLayout where
  fFromAnonymous : Bool
  lenPlain : BitVec 32
  data : Bytes
  sTopic : Bytes := []
  parentMsgId : Uint160 := 0#160
  nRetentionDays : BitVec 16 := 0#16

/-- The topic fields at their offsets, and the length they take. -/
def parseTopicExtra (plain : Bytes) : Except SecureMessageCode (Bytes × Uint160 × BitVec 16 × ℕ) := do
  failIf .generalError (plain.length ≤ smsgPlHdrLen)
  let topicLen := (plain.getD smsgPlHdrLen 0).toNat
  failIf .generalError
    (topicLen = 0 || topicLen > smsgMaxTopicLen || plain.length < smsgPlHdrLen + 1 + topicLen + 20 + 2)
  let topic := Bytes.slice plain (smsgPlHdrLen + 1) topicLen
  failIf .generalError (!isValidTopic topic)
  return (topic, Bytes.readAt 160 plain (smsgPlHdrLen + 1 + topicLen) 20,
    Bytes.readAt 16 plain (smsgPlHdrLen + 1 + topicLen + 20) 2, 1 + topicLen + 20 + 2)

/-- The fields of a payload that is not anonymous. -/
def parseSigned (isTopic : Bool) (plain : Bytes) (msg : MessageData) : Except SecureMessageCode PayloadLayout := do
  let (sTopic, parentMsgId, nRetentionDays, topicOffset) ←
    if isTopic then parseTopicExtra plain else .ok (msg.sTopic, msg.parentMsgId, msg.nRetentionDays, 0)
  failIf .generalError (plain.length < smsgPlHdrLen + topicOffset)
  return { fFromAnonymous := false
           lenPlain := Bytes.readAt 32 plain (1 + 20 + 65) 4
           data := plain.drop (smsgPlHdrLen + topicOffset)
           sTopic, parentMsgId, nRetentionDays }

def parsePayload (isTopic : Bool) (plain : Bytes) (msg : MessageData) : Except SecureMessageCode PayloadLayout :=
  if !isTopic && plain.head? == some 250 then
    if plain.length < 9 then .error .generalError
    else .ok { fFromAnonymous := true
               lenPlain := Bytes.readAt 32 plain 5 4
               data := plain.drop 9
               sTopic := msg.sTopic
               parentMsgId := msg.parentMsgId
               nRetentionDays := msg.nRetentionDays }
  else parseSigned isTopic plain msg

/-- The plaintext of a payload, without the null byte. -/
def plaintextOf (isPaid : Bool) (layout : PayloadLayout) : Except SecureMessageCode Bytes := do
  let lenPlain := layout.lenPlain.toNat
  failIf .generalError (lenPlain > if isPaid then smsgMaxMsgBytesPaid else smsgMaxMsgBytes)
  if lenPlain > 128 then
    match c.lz4Decompress layout.data lenPlain with
    | some message => if message.length = lenPlain then .ok message else .error .generalError
    | none => .error .generalError
  else if lenPlain > layout.data.length then .error .generalError
  else .ok (layout.data.take lenPlain)

/-- The sender, whose key is recovered from the signature of the plaintext. -/
def senderOf (layout : PayloadLayout) (plain message : Bytes) : Except SecureMessageCode String :=
  if layout.fFromAnonymous then .ok "anon"
  else do
    let ckidFrom : CKeyID := Bytes.readAt 160 plain 1 20
    failIf .invalidAddress (ckidFrom = 0#160)
    let cpkFromSig ← orFail .generalError (c.recoverCompact (c.hash message) (Bytes.readAt (8 * 65) plain 21 65))
    failIf .generalError (!c.isValid cpkFromSig)
    failIf .generalError (ckidFrom ≠ c.getID cpkFromSig)
    return c.encodeDestination ckidFrom

/-- The length of the ciphertext; the tail of a paid message is not part of it. -/
def cipherLength (psmsg : SecureMessage) (nPayload : BitVec 32) : Except SecureMessageCode (BitVec 32) :=
  if psmsg.version.1 = 3 then .ok (nPayload - BitVec.ofNat 32 psmsg.getPaidTailSize)
  else if psmsg.version.1 ≠ 2 ∧ psmsg.version.1 ≠ smsgVersionTopic then .error .unknownVersion
  else .ok nPayload

def decryptWithR (fTestOnly : Bool) (keyDest : CKey) (R : CPubKey) (psmsg : SecureMessage) (pPayload : Bytes)
    (nPayload : BitVec 32) (msg : MessageData) : Except SecureMessageCode MessageData := do
  let nPayload ← cipherLength psmsg nPayload
  let P ← orFail .generalError (c.ecdh R keyDest)
  let (keyE, keyM) := secretKeys c P
  let ciphertext := pPayload.take nPayload.toNat
  failIf .macMismatch (c.hmacSha256 keyM (macData psmsg.timestamp psmsg.iv ciphertext) ≠ psmsg.mac)
  if fTestOnly then return msg
  let plain ← orFail .generalError (c.aesDecrypt keyE psmsg.iv ciphertext)
  failIf .generalError (plain = [])
  let layout ← parsePayload psmsg.isTopicVersion plain msg
  let message ← plaintextOf c psmsg.isPaidVersion layout
  let sFromAddress ← senderOf c layout plain message
  return { timestamp := psmsg.timestamp
           sFromAddress
           sTopic := layout.sTopic
           parentMsgId := layout.parentMsgId
           nRetentionDays := layout.nRetentionDays
           vchMessage := message ++ [0] }

/-- `Decrypt`, which parses the ephemeral key of the header. -/
def decrypt (fTestOnly : Bool) (keyDest : CKey) (smsg : SecureMessage) (msg : MessageData) :
    Except SecureMessageCode MessageData := do
  let R ← orFail .generalError (c.parse smsg.cpkR)
  decryptWithR c fTestOnly keyDest R smsg smsg.pPayload smsg.nPayload msg

end Encrypt

/-- The checks of `Send` on the length of the plaintext and on the topic. -/
def sendAccepts (fPaid fSendAnonymous : Bool) (message topic : Bytes) : Bool :=
  (if fPaid then decide (message.length ≤ smsgMaxMsgBytesPaid)
    else decide (message.length ≤ if fSendAnonymous then smsgMaxAmsgBytes else smsgMaxMsgBytes)) &&
    (topic == [] || (!fPaid && isValidTopic topic))

section SetHash

variable {CKey CPubKey : Type} (c : Crypto CKey CPubKey)

/-- `civ`: the nonce, eight times. -/
def powKey (nonce : BitVec (8 * 4)) : Bytes :=
  (List.replicate 8 (Bytes.ofBitVec 4 nonce)).flatten

/-- The hash of header and payload, with a nonce written into the header. -/
def powHash (m : SecureMessage) (pPayload : Bytes) (nPayload : BitVec 32) (nonce : BitVec (8 * 4)) : BitVec (8 * 32) :=
  c.hmacSha256 (powKey nonce) ({ m with nonce }.bodyBytes ++ pPayload.take nPayload.toNat)

def meetsTarget (sha256Hash : BitVec (8 * 32)) : Bool :=
  let bytes := Bytes.ofBitVec 32 sha256Hash
  bytes.getD 31 0 == 0 && bytes.getD 30 0 == 0 && (~~~(bytes.getD 29 0) &&& 7) != 0

/-- How the search ends. -/
inductive PowEnd where
  | disabled
  | found (nonce : BitVec (8 * 4))
  | noMatch

/-- The loop of `SetHash`; `enabled` are the values that successive reads of `fSecMsgEnabled`
give.  It returns the number of reads too. -/
def searchNonce (enabled : ℕ → Bool) (hashAt : BitVec (8 * 4) → BitVec (8 * 32)) :
    ℕ → ℕ → BitVec (8 * 4) → Option (PowEnd × ℕ)
  | 0, _, _ => none
  | fuel + 1, reads, nonce =>
    if !enabled reads then some (.disabled, reads + 1)
    else if meetsTarget (hashAt nonce) then some (.found nonce, reads + 1)
    else if nonce.toNat ≥ 4294967295 then some (.noMatch, reads + 1)
    else searchNonce enabled hashAt fuel (reads + 1) (nonce + 1#32)

/-- `SetHash`; the checksum is the first four bytes of the hash. -/
def setHash (enabled : ℕ → Bool) (m : SecureMessage) (pPayload : Bytes) (nPayload : BitVec 32) :
    Except SecureMessageCode SecureMessage :=
  match searchNonce enabled (powHash c m pPayload nPayload) (2 ^ 32) 0 m.nonce with
  | some (.found nonce, reads) =>
    if !enabled reads then .error .shutdownDetected
    else .ok { m with nonce, hash := (powHash c m pPayload nPayload nonce).setWidth (8 * 4) }
  | some (_, reads) => if !enabled reads then .error .shutdownDetected else .error .generalError
  | none => .error .generalError

end SetHash

section Search

variable {enabled : ℕ → Bool} {hashAt : BitVec (8 * 4) → BitVec (8 * 32)}

/-- The nonce found is the first one that meets the target. -/
theorem searchNonce_found {fuel reads reads' : ℕ} {nonce nonce' : BitVec (8 * 4)}
    (h : searchNonce enabled hashAt fuel reads nonce = some (.found nonce', reads')) :
    nonce ≤ nonce' ∧ meetsTarget (hashAt nonce') = true ∧
      ∀ n, nonce ≤ n → n < nonce' → meetsTarget (hashAt n) = false := by
  induction fuel generalizing reads nonce with
  | zero => cases h
  | succ fuel ih =>
    unfold searchNonce at h
    split_ifs at h with hdisabled hmeets hlast
    · cases h
    · cases h
      exact ⟨BitVec.le_refl nonce', hmeets, fun n hle hlt => absurd hlt (BitVec.not_lt.mpr hle)⟩
    · cases h
    · have hnext : (nonce + 1#32).toNat = nonce.toNat + 1 := by
        rw [BitVec.toNat_add, BitVec.toNat_ofNat]
        omega
      obtain ⟨hle, htarget, hbefore⟩ := ih h
      refine ⟨?_, htarget, fun n hn hlt => ?_⟩
      · rw [BitVec.le_def] at hle ⊢
        omega
      · by_cases heq : n = nonce
        · rw [heq]
          simpa using hmeets
        · apply hbefore n _ hlt
          have hne : n.toNat ≠ nonce.toNat := fun h => heq (BitVec.eq_of_toNat_eq h)
          rw [BitVec.le_def] at hn ⊢
          omega

end Search

variable {enabled : ℕ → Bool} {m final : SecureMessage}

section

variable {CKey CPubKey : Type} {c : Crypto CKey CPubKey} {pPayload : Bytes} {nPayload : BitVec 32}
  (h : setHash c enabled m pPayload nPayload = .ok final)

include h

/-- A message with its proof of work: the nonce is the first one, from the one in the header on,
that meets the target. -/
theorem setHash_eq_ok :
    (∃ checksum, final = { m with nonce := final.nonce, hash := checksum }) ∧ m.nonce ≤ final.nonce ∧
      meetsTarget (powHash c m pPayload nPayload final.nonce) = true ∧
      ∀ n, m.nonce ≤ n → n < final.nonce → meetsTarget (powHash c m pPayload nPayload n) = false := by
  unfold setHash at h
  split at h
  · next nonce reads hsearch =>
    split_ifs at h
    cases h
    exact ⟨⟨_, rfl⟩, searchNonce_found hsearch⟩
  · split_ifs at h
  · cases h

/-- The nonce stays what it was exactly if it meets the target already. -/
theorem setHash_nonce_eq_iff : final.nonce = m.nonce ↔ meetsTarget (powHash c m pPayload nPayload m.nonce) = true := by
  obtain ⟨_, hle, htarget, hbefore⟩ := setHash_eq_ok h
  constructor
  · intro heq
    rwa [heq] at htarget
  · intro hmeets
    by_contra hne
    have hlt : m.nonce < final.nonce := BitVec.lt_of_le_ne hle (Ne.symm hne)
    have hfails := hbefore m.nonce (BitVec.le_refl m.nonce) hlt
    rw [hmeets] at hfails
    cases hfails

end

/-! ### Validation -/

def isCoinBase (tx : Evo.CTransaction) : Bool :=
  tx.vin == [{}]

def smsgGetSecondsInDay : Pow.Chain → ℕ
  | .regtest => 600
  | _ => 86400

def nMsgFeePerKPerDay : ℕ := 50000

/-- What `Validate` asks the node: the time, transactions with the hash of their block, and the
heights of the blocks of the active chain. -/
structure ValidateEnv where
  chain : Pow.Chain
  nPaidSmsgTime : Int
  now : Int
  getTransaction : Uint256 → Option (Evo.CTransaction × Uint256)
  activeHeight : Int
  activeBlock : Uint256 → Option Int

/-! ### Funding data -/

/-- `GetFundingTxid`: the last 32 bytes of the payload. -/
def getFundingTxid (pPayload : Bytes) (nPayload : ℕ) : Option Uint256 :=
  if nPayload < 32 then none else some (Bytes.readAt 256 pPayload (nPayload - 32) 32)

/-- `GetFundingBlindKey`: the 32 bytes before the txid. -/
def getFundingBlindKey (pPayload : Bytes) (nPayload : ℕ) : Option Bytes :=
  if nPayload < 64 then none else some (Bytes.slice pPayload (nPayload - 64) 32)

def messageFee (nMsgBytes nDaysRetention : ℕ) : ℕ :=
  nMsgFeePerKPerDay * nMsgBytes / 1000 * nDaysRetention

/-- `nExpectFee`; the size is a sum of two `unsigned int`. -/
def expectFee (m : SecureMessage) : ℕ :=
  messageFee (BitVec.ofNat 32 smsgHdrLen + m.nPayload).toNat m.nDaysRetention

def commitmentData (blindKey : Bytes) (msgId : Uint160) (feeLE : BitVec (8 * 4)) : Bytes :=
  blindKey ++ (Bytes.ofBitVec 20 msgId ++ Bytes.ofBitVec 4 feeLE)

/-- What an output says about the funding of a message. -/
inductive FundingCheck where
  | absent
  | found
  | underfunded
  deriving DecidableEq, Repr

section Funding

variable (ripemd160 : Bytes → Uint160)

/-- `'B' <20-byte commitment>` -/
def checkBlinded (m : SecureMessage) (pPayload : Bytes) (msgId : Uint160) (nValue : Int) (vData : Bytes) :
    FundingCheck :=
  match getFundingBlindKey pPayload m.nPayload.toNat with
  | none => .absent
  | some blindKey =>
    let expectedCommitment := ripemd160 (commitmentData blindKey msgId (BitVec.ofNat 32 (expectFee m)))
    if (vData.length - 1) / 20 ≠ 1 then .absent
    else if Bytes.readAt 160 vData 1 20 = expectedCommitment ∧ nValue ≥ expectFee m then .found
    else .absent

/-- `'F' <20-byte msgId> <4-byte fee>` -/
def checkPlain (m : SecureMessage) (msgId : Uint160) (nValue : Int) (vData : Bytes) : FundingCheck :=
  let nAmount : BitVec 32 := Bytes.readAt 32 vData (1 + 20) 4
  if (vData.length - 1) / 24 ≠ 1 then .absent
  else if Bytes.readAt 160 vData 1 20 ≠ msgId then .absent
  else if nAmount.toNat < expectFee m ∨ nValue < expectFee m then .underfunded
  else .found

/-- One round of the loop over the outputs; 106 is `OP_RETURN`. -/
def checkFundingOutput (m : SecureMessage) (pPayload : Bytes) (msgId : Uint160) (v : CTxOut) : FundingCheck :=
  let vData := v.scriptPubKey.drop 2
  if v.scriptPubKey.length < 23 ∨ v.scriptPubKey.head? ≠ some 106 then .absent
  else if vData.length < 21 then .absent
  else if vData.head? = some 66 then checkBlinded ripemd160 m pPayload msgId v.nValue vData
  else if vData.head? = some 70 ∧ vData.length ≥ 25 then checkPlain m msgId v.nValue vData
  else .absent

/-- The loop over the outputs, which ends with the first that decides. -/
def findFunding (check : CTxOut → FundingCheck) : List CTxOut → FundingCheck
  | [] => .absent
  | v :: vs =>
    match check v with
    | .absent => findFunding check vs
    | .found => .found
    | .underfunded => .underfunded

end Funding

/-! ### Validate -/

section Validate

variable {CKey CPubKey : Type} (c : Crypto CKey CPubKey) (ripemd160 : Bytes → Uint160)

variable (env : ValidateEnv) (m : SecureMessage) (pPayload : Bytes)

/-- The transaction that a payload names, if it is in the active chain and no coinbase. -/
def fundingTransaction (txid : Uint256) : Option Evo.CTransaction :=
  match env.getTransaction txid with
  | none => none
  | some (txOut, hashBlock) =>
    if hashBlock = 0#256 then none
    else if isCoinBase txOut then none
    else
      let blockDepth : Int :=
        match env.activeBlock hashBlock with
        | none => -1
        | some nHeight => env.activeHeight - nHeight + 1
      if blockDepth < 1 then none else some txOut

/-- The branch of paid messages.  It is undefined if the header claims more bytes than there are,
since the id and the txid are then read from behind the payload. -/
def validatePaid : Outcome SecureMessageCode Unit :=
  let ttl : Int := smsgGetSecondsInDay env.chain * m.nDaysRetention
  if env.nPaidSmsgTime > env.now then .left .generalError
  else if ttl < smsgGetSecondsInDay env.chain ∨ ttl > smsgMaxPaidTTL then .left .generalError
  else if env.now > m.timestamp.toInt + ttl then .left .timeExpired
  else if pPayload.length < smsgPlHdrLen + m.getPaidTailSize then .left .generalError
  else
    match hashMsg ripemd160 m pPayload (hashedLength m) with
    | .error _ => .left .generalError
    | .ok msgId =>
      if pPayload.length < m.nPayload.toNat then .undefined
      else
        match (getFundingTxid pPayload m.nPayload.toNat).bind (fundingTransaction env) with
        | none => .left .generalError
        | some txOut =>
          match findFunding (checkFundingOutput ripemd160 m pPayload msgId) txOut.vout with
          | .found => .done ()
          | _ => .left .fundFailed

/-- The branch of free messages: version, proof of work and checksum. -/
def validateFree : Outcome SecureMessageCode Unit :=
  let sha256Hash := powHash c m pPayload (BitVec.ofNat 32 pPayload.length) m.nonce
  if m.version.1 ≠ 2 ∧ m.version.1 ≠ smsgVersionTopic then .left .unknownVersion
  else if m.version.1 = smsgVersionTopic ∧ pPayload.length < smsgPlHdrLen + 1 + 7 + 20 + 2 then
    .left .generalError
  else if m.hash ≠ sha256Hash.setWidth (8 * 4) then .left .checksumMismatch
  else if meetsTarget sha256Hash then .done ()
  else .left .invalidHash

/-- `Validate`, on a payload of the length that the caller passes. -/
def validate : Outcome SecureMessageCode Unit :=
  let maxPayload :=
    if m.isPaidVersion then smsgMaxMsgBytesPaid
    else if m.isTopicVersion then smsgMaxMsgWorstTopic
    else smsgMaxMsgWorst
  if pPayload.length > maxPayload then .left .payloadOverSize
  else if pPayload.length = 0 then .left .generalError
  else if m.timestamp.toInt > env.now + smsgTimeLeeway then .left .timeInFuture
  else if m.isPaidVersion then validatePaid ripemd160 env m pPayload
  else validateFree c m pPayload

end Validate

/-! ### What FundMsg writes -/

section FundMsg

variable (ripemd160 : Bytes → Uint160)

/-- The script of a funding output; 21 and 25 are the opcodes that push so many bytes. -/
def fundingScript (m : SecureMessage) (blindKey : Bytes) (msgId : Uint160) : CScript :=
  let msgFee := BitVec.ofNat 32 (expectFee m)
  if m.isBlindedPaid then
    [106, 21, 66] ++ Bytes.ofBitVec 20 (ripemd160 (commitmentData blindKey msgId msgFee))
  else [106, 25, 70] ++ (Bytes.ofBitVec 20 msgId ++ Bytes.ofBitVec 4 msgFee)

end FundMsg

end OmegaCore.Smsg
