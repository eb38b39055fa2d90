import OmegaCore.Smsg.SecureMessage

/-!
Decryption gives back what was encrypted.  The payload is read at fixed offsets, so each
layout is followed field by field.  The primitives are assumed to be inverse to each other.
The parent id is a field of topic messages only.
-/

namespace OmegaCore.Smsg

open Util List

variable {CKey CPubKey : Type}

/-- The primitives are correct inverses, and bound the length of what they produce. -/
structure Crypto.Lawful (c : Crypto CKey CPubKey) : Prop where
  ecdh_comm : ∀ a b, c.ecdh (c.getPubKey a) b = c.ecdh (c.getPubKey b) a
  parse_serialize : ∀ k, c.parse (c.serialize (c.getPubKey k)) = some (c.getPubKey k)
  aesDecrypt_eq : ∀ key iv plain ciphertext, c.aesEncrypt key iv plain = some ciphertext →
    c.aesDecrypt key iv ciphertext = some plain
  length_aesEncrypt : ∀ key iv plain ciphertext, c.aesEncrypt key iv plain = some ciphertext →
    ciphertext.length ≤ plain.length + 16
  lz4Decompress_eq : ∀ message data, c.lz4Compress message = some data →
    c.lz4Decompress data message.length = some message
  length_lz4Compress : ∀ message data, c.lz4Compress message = some data → data.length ≤ lz4CompressBound message.length
  recoverCompact_signCompact : ∀ k hash, c.recoverCompact hash (c.signCompact k hash) = some (c.getPubKey k)
  isValid_of_recoverCompact : ∀ hash signature pubkey, c.recoverCompact hash signature = some pubkey → c.isValid pubkey

/-- Private keys are stored under the ids of their public keys. -/
def SendEnv.StoresById (c : Crypto CKey CPubKey) (env : SendEnv CKey CPubKey) : Prop :=
  ∀ address key, env.privKeyOf address = some key → c.getID (c.getPubKey key) = address

variable {code : SecureMessageCode}

@[simp]
theorem orFail_eq_ok {α : Type} {o : Option α} {a : α} : orFail code o = .ok a ↔ o = some a := by
  cases o with
  | none => simp [orFail]
  | some b => simp [orFail]

@[simp]
theorem failIf_eq_ok {condition : Bool} {u : Unit} : failIf code condition = .ok u ↔ condition = false := by
  cases condition with
  | true => simp [failIf]
  | false => simp [failIf]

/-! ### Layouts -/

theorem length_topicExtra (topic : Bytes) (parentMsgId : Uint160) (days : BitVec 16) (h : topic ≠ []) :
    (topicExtra topic parentMsgId days).length = 1 + topic.length + 20 + 2 := by
  simp [topicExtra, h]
  omega

section Signed

variable (p : UInt8) (ckidFrom : CKeyID) (signature : BitVec (8 * 65)) (lenMsg : BitVec 32) (extra data : Bytes)

@[simp]
theorem length_signedPayload :
    (signedPayload p ckidFrom signature lenMsg extra data).length = smsgPlHdrLen + extra.length + data.length := by
  simp [signedPayload, smsgPlHdrLen]
  omega

theorem signedPayload_from : Bytes.readAt 160 (signedPayload p ckidFrom signature lenMsg extra data) 1 20 = ckidFrom :=
  Bytes.readAt_append (n := 20) ckidFrom rfl

theorem signedPayload_signature :
    Bytes.readAt (8 * 65) (signedPayload p ckidFrom signature lenMsg extra data) 21 65 = signature := by
  rw [signedPayload, ← append_assoc]
  exact Bytes.readAt_append (n := 65) signature (by simp)

theorem signedPayload_lenMsg :
    Bytes.readAt 32 (signedPayload p ckidFrom signature lenMsg extra data) (1 + 20 + 65) 4 = lenMsg := by
  rw [signedPayload, ← append_assoc, ← append_assoc]
  exact Bytes.readAt_append (n := 4) lenMsg (by simp)

theorem signedPayload_eq : ∃ header : Bytes, header.length = smsgPlHdrLen ∧
    signedPayload p ckidFrom signature lenMsg extra data = header ++ (extra ++ data) := by
  refine ⟨[p] ++ Bytes.ofBitVec 20 ckidFrom ++ Bytes.ofBitVec 65 signature ++ Bytes.ofBitVec 4 lenMsg, ?_, ?_⟩
  · simp [smsgPlHdrLen]
  · simp [signedPayload]

theorem drop_signedPayload :
    (signedPayload p ckidFrom signature lenMsg extra data).drop (smsgPlHdrLen + extra.length) = data := by
  obtain ⟨header, hlen, heq⟩ := signedPayload_eq p ckidFrom signature lenMsg extra data
  rw [heq, ← append_assoc, ← hlen, ← length_append, drop_left]

end Signed

variable {topic : Bytes}

theorem length_of_isValidTopic (h : isValidTopic topic = true) : 7 ≤ topic.length ∧ topic.length ≤ smsgMaxTopicLen := by
  simp only [isValidTopic, Bool.and_eq_true, decide_eq_true_eq] at h
  exact ⟨h.1.1.1.1.1, h.1.1.1.1.2⟩

theorem ne_nil_of_isValidTopic (h : isValidTopic topic = true) : topic ≠ [] := by
  rintro rfl
  cases h

/-- The topic fields are read back from behind the fixed header. -/
theorem parseTopicExtra_append {header topic : Bytes} (hlen : header.length = smsgPlHdrLen)
    (hvalid : isValidTopic topic = true) (parentMsgId : Uint160) (days : BitVec 16) (data : Bytes) :
    parseTopicExtra (header ++ (topicExtra topic parentMsgId days ++ data)) =
      .ok (topic, parentMsgId, days, 1 + topic.length + 20 + 2) := by
  obtain ⟨hmin, hmax⟩ := length_of_isValidTopic hvalid
  have hextra : header ++ (topicExtra topic parentMsgId days ++ data) =
      header ++ ([UInt8.ofNat topic.length] ++ (topic ++ (Bytes.ofBitVec 20 parentMsgId ++
        (Bytes.ofBitVec 2 days ++ data)))) := by
    simp [topicExtra, ne_nil_of_isValidTopic hvalid]
  generalize header ++ (topicExtra topic parentMsgId days ++ data) = plain at hextra
  have hsize : plain.length = smsgPlHdrLen + (1 + topic.length + 20 + 2) + data.length := by
    rw [hextra]
    simp [hlen]
    omega
  have hbyte : (plain.getD smsgPlHdrLen 0).toNat = topic.length := by
    have hhead : plain.getD smsgPlHdrLen 0 = UInt8.ofNat topic.length := by
      rw [hextra, ← hlen]
      simp
    simp only [smsgMaxTopicLen] at hmax
    rw [hhead, UInt8.toNat_ofNat', Nat.mod_eq_of_lt (by omega)]
  have htopic : Bytes.slice plain (smsgPlHdrLen + 1) topic.length = topic := by
    rw [hextra, ← append_assoc]
    exact Bytes.slice_append (by simp [hlen]) rfl
  have hparent : Bytes.readAt 160 plain (smsgPlHdrLen + 1 + topic.length) 20 = parentMsgId := by
    rw [hextra, ← append_assoc, ← append_assoc]
    exact Bytes.readAt_append (n := 20) parentMsgId (by rw [length_append, length_append, hlen]; rfl)
  have hdays : Bytes.readAt 16 plain (smsgPlHdrLen + 1 + topic.length + 20) 2 = days := by
    rw [hextra, ← append_assoc, ← append_assoc, ← append_assoc]
    refine Bytes.readAt_append (n := 2) days ?_
    rw [length_append, length_append, length_append, hlen, Bytes.length_ofBitVec]
    rfl
  have hchecks : (decide (topic.length = 0) || decide (topic.length > smsgMaxTopicLen) ||
      decide (plain.length < smsgPlHdrLen + 1 + topic.length + 20 + 2)) = false := by
    simp only [Bool.or_eq_false_iff, decide_eq_false_iff_not]
    omega
  have hlong : decide (plain.length ≤ smsgPlHdrLen) = false := by
    rw [decide_eq_false_iff_not]
    omega
  simp only [parseTopicExtra, hbyte, hlong, hchecks, htopic, hvalid, hparent, hdays]
  rfl

/-- The layout of a signed payload; only a topic message has the topic fields. -/
theorem parsePayload_signedPayload {p : UInt8} {ckidFrom : CKeyID} {signature : BitVec (8 * 65)} {lenMsg : BitVec 32}
    {parentMsgId : Uint160} {days : BitVec 16} {data plain : Bytes} (hp : p ≠ 250)
    (hvalid : topic ≠ [] → isValidTopic topic = true)
    (hplain : plain = signedPayload p ckidFrom signature lenMsg (topicExtra topic parentMsgId days) data) :
    parsePayload (decide (topic ≠ [])) plain {} =
      .ok { fFromAnonymous := false
            lenPlain := lenMsg
            data := data
            sTopic := topic
            parentMsgId := if topic = [] then 0#160 else parentMsgId
            nRetentionDays := if topic = [] then 0#16 else days } := by
  have hhead : (plain.head? == some 250) = false := by simpa [hplain, signedPayload] using hp
  have hlenMsg : Bytes.readAt 32 plain (1 + 20 + 65) 4 = lenMsg := hplain ▸ signedPayload_lenMsg ..
  have hdrop := hplain ▸ drop_signedPayload p ckidFrom signature lenMsg (topicExtra topic parentMsgId days) data
  have hsize := congrArg length hplain
  rw [length_signedPayload] at hsize
  by_cases htopic : topic = []
  · subst htopic
    have hlong : decide (plain.length < smsgPlHdrLen + 0) = false := by
      rw [hsize, decide_eq_false_iff_not]
      omega
    have hdrop0 : plain.drop (smsgPlHdrLen + 0) = data := hdrop
    simp only [parsePayload, parseSigned, hhead, ne_eq, not_true_eq_false, decide_false, Bool.not_false,
      Bool.and_false, Bool.false_eq_true, if_false, if_true, ok_bind, hlong, hlenMsg, hdrop0]
    rfl
  · have hextra := length_topicExtra topic parentMsgId days htopic
    obtain ⟨header, hheader, heq⟩ :=
      signedPayload_eq p ckidFrom signature lenMsg (topicExtra topic parentMsgId days) data
    have hparse : parseTopicExtra plain = .ok (topic, parentMsgId, days, 1 + topic.length + 20 + 2) := by
      rw [hplain, heq]
      exact parseTopicExtra_append hheader (hvalid htopic) parentMsgId days data
    rw [hextra] at hdrop hsize
    have hlong : decide (plain.length < smsgPlHdrLen + (1 + topic.length + 20 + 2)) = false := by
      rw [hsize, decide_eq_false_iff_not]
      omega
    simp only [parsePayload, parseSigned, ne_eq, htopic, not_false_eq_true, decide_true, Bool.not_true,
      Bool.false_and, Bool.false_eq_true, if_false, if_true, hparse, ok_bind, hlong, hlenMsg, hdrop]
    rfl

theorem parsePayload_anonymousPayload (lenMsg : BitVec 32) (data : Bytes) :
    parsePayload false (anonymousPayload lenMsg data) {} =
      .ok { fFromAnonymous := true, lenPlain := lenMsg, data := data } := by
  have hlenMsg : Bytes.readAt 32 (anonymousPayload lenMsg data) 5 4 = lenMsg :=
    Bytes.readAt_append (n := 4) lenMsg rfl
  have hdrop : (anonymousPayload lenMsg data).drop 9 = data := by
    have hheader : ([250, 0, 0, 0, 0] ++ Bytes.ofBitVec 4 lenMsg : Bytes).length = 9 := by simp
    rw [anonymousPayload, ← append_assoc, ← hheader, drop_left]
  have hlong : ¬ (anonymousPayload lenMsg data).length < 9 := by
    simp [anonymousPayload]
  have hhead : (anonymousPayload lenMsg data).head? = some 250 := rfl
  simp only [parsePayload, hhead, if_neg hlong, hlenMsg, hdrop]
  rfl

/-! ### Message and sender -/

variable {c : Crypto CKey CPubKey}

theorem length_messageData (laws : c.Lawful) {message data : Bytes} (h : messageData c message = .ok data) :
    data.length ≤ lz4CompressBound message.length := by
  unfold messageData at h
  split at h
  · exact laws.length_lz4Compress message data (orFail_eq_ok.mp h)
  · cases h
    unfold lz4CompressBound
    omega

variable {layout : PayloadLayout}

theorem plaintextOf_messageData (laws : c.Lawful) {message data : Bytes} {isPaid : Bool}
    (hdata : messageData c message = .ok data) (hlayout : layout.data = data)
    (hlen : layout.lenPlain = BitVec.ofNat 32 message.length)
    (hmax : message.length ≤ if isPaid then smsgMaxMsgBytesPaid else smsgMaxMsgBytes) :
    plaintextOf c isPaid layout = .ok message := by
  have hmaxPaid : message.length ≤ smsgMaxMsgBytesPaid :=
    hmax.trans (by cases isPaid <;> decide)
  have hnat : layout.lenPlain.toNat = message.length := by
    simp only [smsgMaxMsgBytesPaid] at hmaxPaid
    rw [hlen, BitVec.toNat_ofNat, Nat.mod_eq_of_lt (by omega)]
  have hcheck : decide (message.length > if isPaid then smsgMaxMsgBytesPaid else smsgMaxMsgBytes) = false := by
    rw [decide_eq_false_iff_not]
    omega
  simp only [plaintextOf, hnat, hcheck, hlayout]
  unfold messageData at hdata
  split at hdata
  · next hlong =>
    have hdecompress := laws.lz4Decompress_eq message data (orFail_eq_ok.mp hdata)
    simp [failIf, hlong, hdecompress]
  · next hshort =>
    cases hdata
    simp [failIf, hshort]

theorem senderOf_signedPayload (laws : c.Lawful) (hlayout : layout.fFromAnonymous = false)
    {ckidFrom : CKeyID} (hfrom : ckidFrom ≠ 0#160) {key : CKey} (hkey : c.getID (c.getPubKey key) = ckidFrom)
    (p : UInt8) (lenMsg : BitVec 32) (extra data message : Bytes) :
    senderOf c layout (signedPayload p ckidFrom (c.signCompact key (c.hash message)) lenMsg extra data) message =
      .ok (c.encodeDestination ckidFrom) := by
  have hrecover := laws.recoverCompact_signCompact key (c.hash message)
  have hisValid := laws.isValid_of_recoverCompact _ _ _ hrecover
  rw [senderOf, hlayout, if_neg Bool.false_ne_true]
  refine bind_eq_ok.mpr ⟨(), failIf_eq_ok.mpr ?_, bind_eq_ok.mpr ⟨c.getPubKey key, orFail_eq_ok.mpr ?_, ?_⟩⟩
  · rw [signedPayload_from, decide_eq_false_iff_not]
    exact hfrom
  · rw [signedPayload_signature]
    exact hrecover
  · refine bind_eq_ok.mpr ⟨(), failIf_eq_ok.mpr ?_, bind_eq_ok.mpr ⟨(), failIf_eq_ok.mpr ?_, ?_⟩⟩
    · rw [hisValid, Bool.not_true]
    · rw [signedPayload_from, hkey, decide_eq_false_iff_not, not_not]
    · rw [signedPayload_from]
      rfl

/-! ### Encryption and decryption -/

variable {env : SendEnv CKey CPubKey} {smsg sent : SecureMessage} {addressFrom addressTo : CKeyID}
  {message topic : Bytes} {parentMsgId : Uint160} {days : BitVec 16}

/-- What a successful `Encrypt` has computed on its way. -/
theorem encrypt_eq_ok : encrypt c env smsg addressFrom addressTo message topic parentMsgId days = .ok sent ↔
    ∃ cpkDestK P data header plain ciphertext,
      env.pubKeyOf addressTo = some cpkDestK ∧ c.validPoint cpkDestK = true ∧ c.ecdh cpkDestK env.keyR = some P ∧
      c.isValid (c.getPubKey env.keyR) = true ∧ messageData c message = .ok data ∧ applyTopic smsg (addressFrom = 0#160) topic = .ok header ∧
      plainPayload c env addressFrom message topic data parentMsgId days = .ok plain ∧
      c.aesEncrypt (secretKeys c P).1 env.iv plain = some ciphertext ∧
      sent = { header with
        timestamp := if smsg.timestamp = 0 then env.time else smsg.timestamp
        iv := env.iv
        cpkR := c.serialize (c.getPubKey env.keyR)
        pPayload := ciphertext ++ env.tail header.getPaidTailSize
        nPayload := BitVec.ofNat 32 (ciphertext.length + header.getPaidTailSize)
        mac := c.hmacSha256 (secretKeys c P).2
          (macData (if smsg.timestamp = 0 then env.time else smsg.timestamp) env.iv ciphertext) } := by
  constructor
  · intro h
    obtain ⟨cpkDestK, hdest, h⟩ := bind_eq_ok.mp h
    obtain ⟨_, hpoint, h⟩ := bind_eq_ok.mp h
    obtain ⟨P, hP, h⟩ := bind_eq_ok.mp h
    obtain ⟨_, hR, h⟩ := bind_eq_ok.mp h
    obtain ⟨data, hdata, h⟩ := bind_eq_ok.mp h
    obtain ⟨header, hheader, h⟩ := bind_eq_ok.mp h
    obtain ⟨plain, hplain, h⟩ := bind_eq_ok.mp h
    obtain ⟨ciphertext, hcipher, h⟩ := bind_eq_ok.mp h
    cases h
    exact ⟨cpkDestK, P, data, header, plain, ciphertext, orFail_eq_ok.mp hdest, by simpa using hpoint,
      orFail_eq_ok.mp hP, by simpa using hR, hdata, hheader, hplain, orFail_eq_ok.mp hcipher, rfl⟩
  · rintro ⟨cpkDestK, P, data, header, plain, ciphertext, hdest, hpoint, hP, hR, hdata, hheader, hplain, hcipher, rfl⟩
    simp only [encrypt, hdest, hpoint, hP, hR, hdata, hheader, hplain, hcipher, orFail, ok_bind]
    rfl

variable {header : SecureMessage}

/-- The header has the version of a topic message exactly if there is a topic. -/
theorem applyTopic_eq_ok {fSendAnonymous : Bool} (h : applyTopic smsg fSendAnonymous topic = .ok header) :
    (topic = [] ∧ header = smsg) ∨ (isValidTopic topic = true ∧ fSendAnonymous = false ∧
      header = { smsg with version := (smsgVersionTopic, 0), nonce := smsgTopicHash topic }) := by
  unfold applyTopic at h
  split_ifs at h with htopic hanon hvalid
  · cases h
    exact .inl ⟨htopic, rfl⟩
  · cases h
    simp only [Bool.not_eq_true', Bool.not_eq_false] at hvalid
    exact .inr ⟨hvalid, by simpa using hanon, rfl⟩

/-- The fields before the message in a payload. -/
def overhead (addressFrom : CKeyID) (topic : Bytes) : ℕ :=
  if addressFrom = 0#160 then 9 else smsgPlHdrLen + if topic = [] then 0 else 1 + topic.length + 20 + 2

theorem length_plainPayload {plain data : Bytes}
    (h : plainPayload c env addressFrom message topic data parentMsgId days = .ok plain) :
    plain.length = overhead addressFrom topic + data.length := by
  unfold plainPayload at h
  unfold overhead
  split_ifs at h ⊢ with hfrom htopic
  · cases h
    simp [anonymousPayload]
    omega
  · obtain ⟨key, -, h⟩ := bind_eq_ok.mp h
    cases h
    simp [topicExtra, htopic]
  · obtain ⟨key, -, h⟩ := bind_eq_ok.mp h
    cases h
    rw [length_signedPayload, length_topicExtra topic parentMsgId days htopic]

theorem cipherLength_eq (hversion : header.version.1 = 2 ∨ header.version.1 = 3 ∨
    header.version.1 = smsgVersionTopic) (n : ℕ) :
    cipherLength header (BitVec.ofNat 32 (n + header.getPaidTailSize)) = .ok (BitVec.ofNat 32 n) := by
  unfold cipherLength
  split
  · rw [BitVec.ofNat_add, BitVec.add_sub_cancel]
  · next hpaid =>
    have htail : header.getPaidTailSize = 0 := by simp [SecureMessage.getPaidTailSize, SecureMessage.isPaidVersion, hpaid]
    rw [if_neg (by tauto), htail, Nat.add_zero]

theorem pubkeyAddress_ne (chain : Pow.Chain) : pubkeyAddress chain ≠ 250 := by
  cases chain with
  | main => exact (by decide : (115 : UInt8) ≠ 250)
  | test => exact (by decide : (140 : UInt8) ≠ 250)
  | devnet powTargetSpacing parsed => exact (by decide : (140 : UInt8) ≠ 250)
  | regtest => exact (by decide : (140 : UInt8) ≠ 250)

/-- What a recipient is to find in a message. -/
def sentData (c : Crypto CKey CPubKey) (timestamp : Int64) (addressFrom : CKeyID) (message topic : Bytes)
    (parentMsgId : Uint160) (days : BitVec 16) : MessageData where
  timestamp := timestamp
  sFromAddress := if addressFrom = 0#160 then "anon" else c.encodeDestination addressFrom
  sTopic := topic
  parentMsgId := parentMsgId
  nRetentionDays := days
  vchMessage := message ++ [0]

/-- The payload holds the message, the sender and the topic. -/
theorem decode_plainPayload (laws : c.Lawful) (hkeys : env.StoresById c) {plain data : Bytes} {isPaid : Bool}
    (hdata : messageData c message = .ok data)
    (hplain : plainPayload c env addressFrom message topic data parentMsgId days = .ok plain)
    (hvalid : topic ≠ [] → isValidTopic topic = true) (hanon : addressFrom = 0#160 → topic = [])
    (hmax : message.length ≤ if isPaid then smsgMaxMsgBytesPaid else smsgMaxMsgBytes) :
    plain ≠ [] ∧ ∃ layout, parsePayload (decide (topic ≠ [])) plain {} = .ok layout ∧
      plaintextOf c isPaid layout = .ok message ∧
      senderOf c layout plain message =
        .ok (if addressFrom = 0#160 then "anon" else c.encodeDestination addressFrom) ∧
      layout.sTopic = topic ∧ layout.parentMsgId = (if topic = [] then 0#160 else parentMsgId) ∧
      layout.nRetentionDays = (if topic = [] then 0#16 else days) := by
  unfold plainPayload at hplain
  split at hplain
  · next hzero =>
    cases hplain
    rw [hanon hzero]
    refine ⟨by simp [anonymousPayload], _, parsePayload_anonymousPayload _ data,
      plaintextOf_messageData laws hdata rfl rfl hmax, ?_, rfl, rfl, rfl⟩
    rw [if_pos hzero]
    rfl
  · next hfrom =>
    obtain ⟨key, hkey, hplain⟩ := bind_eq_ok.mp hplain
    cases hplain
    refine ⟨by simp [signedPayload], _,
      parsePayload_signedPayload (pubkeyAddress_ne env.chain) hvalid rfl,
      plaintextOf_messageData laws hdata rfl rfl hmax, ?_, rfl, rfl, rfl⟩
    rw [if_neg hfrom]
    exact senderOf_signedPayload laws rfl hfrom (hkeys addressFrom key (orFail_eq_ok.mp hkey)) _ _ _ _ _

/-- What the header of an encrypted message says of the message in it. -/
structure HeaderFits (addressFrom : CKeyID) (message topic : Bytes) (header : SecureMessage) : Prop where
  version : header.version.1 = 2 ∨ header.version.1 = 3 ∨ header.version.1 = smsgVersionTopic
  isTopicVersion : header.isTopicVersion = decide (topic ≠ [])
  isValidTopic : topic ≠ [] → isValidTopic topic = true
  anonymous : addressFrom = 0#160 → topic = []
  length_le : message.length ≤ if header.isPaidVersion then smsgMaxMsgBytesPaid else smsgMaxMsgBytes

theorem headerFits_of_topic (hne : topic ≠ []) (hlen : message.length ≤ smsgMaxMsgBytes)
    (hheader : applyTopic smsg (addressFrom = 0#160) topic = .ok header) :
    HeaderFits addressFrom message topic header := by
  rcases applyTopic_eq_ok hheader with ⟨htopic, _⟩ | ⟨hvalid, hanon, rfl⟩
  · exact absurd htopic hne
  · have hfrom : addressFrom ≠ 0#160 := by simpa using hanon
    exact ⟨.inr (.inr rfl), by simp [hne, SecureMessage.isTopicVersion], fun _ => hvalid, fun h => absurd h hfrom, hlen⟩

theorem headerFits_of_applyTopic {m header : SecureMessage} {fPaid fBlinded : Bool} {nDaysRetention : ℕ}
    (haccepts : sendAccepts fPaid (addressFrom = 0#160) message topic = true)
    (hheader : applyTopic (m.init fPaid nDaysRetention fBlinded) (addressFrom = 0#160) topic = .ok header) :
    HeaderFits addressFrom message topic header := by
  by_cases hne : topic = []
  · subst hne
    obtain ⟨_, rfl⟩ | ⟨hvalid, _⟩ := applyTopic_eq_ok hheader
    · cases fPaid with
      | true =>
        refine ⟨.inr (.inl rfl), rfl, fun h => absurd rfl h, fun _ => rfl, ?_⟩
        simpa [sendAccepts, SecureMessage.isPaidVersion, SecureMessage.init] using haccepts
      | false =>
        refine ⟨.inl rfl, rfl, fun h => absurd rfl h, fun _ => rfl, ?_⟩
        have hlen : message.length ≤ if addressFrom = 0#160 then smsgMaxAmsgBytes else smsgMaxMsgBytes := by
          simpa [sendAccepts] using haccepts
        have hmax : (if addressFrom = 0#160 then smsgMaxAmsgBytes else smsgMaxMsgBytes) ≤ smsgMaxMsgBytes := by
          split <;> decide
        exact hlen.trans hmax
    · cases hvalid
  · obtain ⟨htopic, _⟩ | ⟨hvalid, hanon, _⟩ := applyTopic_eq_ok hheader
    · exact absurd htopic hne
    · have hfrom : addressFrom ≠ 0#160 := by simpa using hanon
      refine headerFits_of_topic hne ?_ hheader
      cases fPaid with
      | true => simp [sendAccepts, hne] at haccepts
      | false => simpa [sendAccepts, hne, hfrom, hvalid] using haccepts

/-- The recipient's key and the ephemeral key of the sender decrypt the message. -/
theorem decryptWithR_encrypt (laws : c.Lawful) (hkeys : env.StoresById c) {keyDest : CKey}
    (hfits : ∀ header, applyTopic smsg (addressFrom = 0#160) topic = .ok header →
      HeaderFits addressFrom message topic header) (hdest : env.pubKeyOf addressTo = some (c.getPubKey keyDest))
    (hsent : encrypt c env smsg addressFrom addressTo message topic parentMsgId days = .ok sent) :
    c.parse sent.cpkR = some (c.getPubKey env.keyR) ∧
    decryptWithR c false keyDest (c.getPubKey env.keyR) sent sent.pPayload sent.nPayload {} =
      .ok (sentData c sent.timestamp addressFrom message topic (if topic = [] then 0#160 else parentMsgId)
        (if topic = [] then 0#16 else days)) := by
  obtain ⟨cpkDestK, P, data, header, plain, ciphertext, hpub, -, hP, -, hdata, hheader, hplain, hcipher, rfl⟩ :=
    encrypt_eq_ok.mp hsent
  cases hdest.symm.trans hpub
  have hfits := hfits header hheader
  obtain ⟨hplainNe, layout, hparse, hmessage, hsender, hlTopic, hlParent, hlDays⟩ :=
    decode_plainPayload laws hkeys hdata hplain hfits.isValidTopic hfits.anonymous hfits.length_le
  have hsize : ciphertext.length < 2 ^ 32 := by
    have hmaxPaid : message.length ≤ smsgMaxMsgBytesPaid := hfits.length_le.trans (by split <;> decide)
    have hdataLen := length_messageData laws hdata
    have htopicLen : topic.length ≤ smsgMaxTopicLen := by
      by_cases htopic : topic = []
      · simp [htopic]
      · exact (length_of_isValidTopic (hfits.isValidTopic htopic)).2
    have hplainLen := length_plainPayload hplain
    have hcipherLen := laws.length_aesEncrypt _ _ _ _ hcipher
    simp only [lz4CompressBound, overhead, smsgMaxMsgBytesPaid, smsgMaxTopicLen, smsgPlHdrLen] at *
    split_ifs at hplainLen <;> omega
  -- the recipient agrees on the secret, and reads the same ciphertext
  have htake (tail : Bytes) : (ciphertext ++ tail).take (BitVec.ofNat 32 ciphertext.length).toNat = ciphertext := by
    rw [BitVec.toNat_ofNat, Nat.mod_eq_of_lt hsize, take_left]
  have hsecret : c.ecdh (c.getPubKey env.keyR) keyDest = some P := by
    rw [← laws.ecdh_comm]
    exact hP
  have hplainAgain := laws.aesDecrypt_eq _ _ _ _ hcipher
  refine ⟨laws.parse_serialize env.keyR, ?_⟩
  refine bind_eq_ok.mpr ⟨_, cipherLength_eq hfits.version ciphertext.length, ?_⟩
  refine bind_eq_ok.mpr ⟨P, orFail_eq_ok.mpr hsecret, ?_⟩
  simp only [htake]
  refine bind_eq_ok.mpr ⟨(), failIf_eq_ok.mpr (by simp), ?_⟩
  refine bind_eq_ok.mpr ⟨plain, orFail_eq_ok.mpr hplainAgain, ?_⟩
  refine bind_eq_ok.mpr ⟨(), failIf_eq_ok.mpr (by simpa using hplainNe), ?_⟩
  refine bind_eq_ok.mpr ⟨layout, hfits.isTopicVersion ▸ hparse, ?_⟩
  refine bind_eq_ok.mpr ⟨message, hmessage, ?_⟩
  refine bind_eq_ok.mpr ⟨_, hsender, ?_⟩
  rw [hlTopic, hlParent, hlDays]
  rfl

/-- A message that `Send` lets through is decrypted to what was sent.  Parent id and retention
days travel with a topic only. -/
theorem decrypt_encrypt (laws : c.Lawful) (hkeys : env.StoresById c) {keyDest : CKey} {m : SecureMessage}
    {fPaid fBlinded : Bool} {nDaysRetention : ℕ}
    (haccepts : sendAccepts fPaid (addressFrom = 0#160) message topic = true)
    (hdest : env.pubKeyOf addressTo = some (c.getPubKey keyDest))
    (hsent : encrypt c env (m.init fPaid nDaysRetention fBlinded) addressFrom addressTo message topic
      parentMsgId days = .ok sent) :
    decrypt c false keyDest sent {} =
      .ok (sentData c sent.timestamp addressFrom message topic (if topic = [] then 0#160 else parentMsgId)
        (if topic = [] then 0#16 else days)) := by
  obtain ⟨hparse, hdecrypt⟩ :=
    decryptWithR_encrypt laws hkeys (fun _ => headerFits_of_applyTopic haccepts) hdest hsent
  exact bind_eq_ok.mpr ⟨_, orFail_eq_ok.mpr hparse, hdecrypt⟩

/-- Primitives that hide nothing: keys are their own ids, and texts are left as they are. -/
def plainCrypto : Crypto CKeyID CKeyID where
  sha256 bytes := BitVec.ofNat 256 (Bytes.toNat bytes)
  setKey hash := some (hash.setWidth 160)
  getPubKey := id
  isValid _ := true
  getID := id
  serialize k := k.setWidth (8 * 33)
  parse bits := some (bits.setWidth 160)
  validPoint _ := true
  ecdh a b := some ((a + b).setWidth 256)
  sha512 bytes := bytes ++ bytes
  hmacSha256 key data := BitVec.ofNat (8 * 32) (Bytes.toNat key + Bytes.toNat data)
  aesEncrypt _ _ plain := some plain
  aesDecrypt _ _ ciphertext := some ciphertext
  lz4Compress message := some message
  lz4Decompress data _ := some data
  hash bytes := BitVec.ofNat 256 (Bytes.toNat bytes)
  signCompact k _ := k.setWidth (8 * 65)
  recoverCompact _ signature := some (signature.setWidth 160)
  encodeDestination k := String.ofList (Nat.toDigits 10 k.toNat)

theorem plainCrypto_lawful : plainCrypto.Lawful where
  ecdh_comm a b := congrArg some (congrArg (BitVec.setWidth 256) (BitVec.add_comm a b))
  parse_serialize k := congrArg some (BitVec.setWidth_setWidth_of_le k (by decide))
  aesDecrypt_eq _ _ _ _ h := h.symm
  length_aesEncrypt _ _ plain _ h := by
    cases h
    exact Nat.le_add_right plain.length 16
  lz4Decompress_eq _ _ h := by
    cases h
    rfl
  length_lz4Compress message _ h := by
    cases h
    unfold lz4CompressBound
    omega
  recoverCompact_signCompact k _ := congrArg some (BitVec.setWidth_setWidth_of_le k (by decide))
  isValid_of_recoverCompact _ _ _ _ := rfl

def plainEnv : SendEnv CKeyID CKeyID where
  chain := .main
  time := 1700000000
  pubKeyOf address := some address
  privKeyOf address := some address
  iv := 7#(8 * 16)
  keyR := 5#160
  tail n := List.replicate n 0

theorem plainEnv_storesById : plainEnv.StoresById plainCrypto := by
  intro address key h
  cases h
  rfl

def emptyMessage : SecureMessage where
  iv := 0#(8 * 16)
  cpkR := 0#(8 * 33)
  mac := 0#(8 * 32)

/-- `omega.a` -/
def sampleTopic : Bytes := topicPrefix ++ [97]

set_option maxRecDepth 4000 in
theorem decrypt_encrypt_topic : ∃ sent,
    encrypt plainCrypto plainEnv (emptyMessage.init false 0 false) 3#160 9#160 [104, 105] sampleTopic 11#160
      30#16 = .ok sent ∧
    decrypt plainCrypto false 9#160 sent {} =
      .ok (sentData plainCrypto sent.timestamp 3#160 [104, 105] sampleTopic 11#160 30#16) :=
  ⟨_, rfl, decrypt_encrypt plainCrypto_lawful plainEnv_storesById (by decide) rfl rfl⟩

set_option maxRecDepth 4000 in
/-- A message without a topic has no room for the parent id that it is given. -/
theorem decrypt_encrypt_drops_parent :
    ¬ ∀ (c : Crypto CKeyID CKeyID) (env : SendEnv CKeyID CKeyID) (keyDest : CKeyID) (m sent : SecureMessage)
      (fPaid fBlinded : Bool) (nDaysRetention : ℕ) (addressFrom addressTo : CKeyID) (message topic : Bytes)
      (parentMsgId : Uint160) (days : BitVec 16),
      c.Lawful → env.StoresById c → sendAccepts fPaid (addressFrom = 0#160) message topic = true →
      env.pubKeyOf addressTo = some (c.getPubKey keyDest) →
      encrypt c env (m.init fPaid nDaysRetention fBlinded) addressFrom addressTo message topic parentMsgId days =
        .ok sent →
      (decrypt c false keyDest sent {}).map (·.parentMsgId) = .ok parentMsgId := by
  intro h
  have hlost := h plainCrypto plainEnv 9#160 emptyMessage _ false false 0 3#160 9#160 [104, 105] [] 11#160 0#16
    plainCrypto_lawful plainEnv_storesById (by decide) rfl rfl
  cases hlost

end OmegaCore.Smsg
