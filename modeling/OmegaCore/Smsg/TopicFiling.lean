import OmegaCore.Smsg.TopicRouting

/-!
Filing of topic messages.  When `ScanMessage` has found a topic message to be an own one, it
enters the message into the index of a topic.  The topic is the string that an attempt to decrypt
has read from the payload.  It is compared neither with the hash in the header nor with the topic
whose key has opened the message, and a string stays that was read before an attempt failed.
-/

namespace OmegaCore.Smsg

open Util

section Filing

variable {CKey CPubKey : Type} (c : Crypto CKey CPubKey) (R : CPubKey) (m : SecureMessage)

/-- The string that `DecryptWithR` writes into `msg.sTopic`, before it checks it. -/
def readTopic (keyDest : CKey) : Option Bytes := do
  let P ← c.ecdh R keyDest
  let (keyE, keyM) := secretKeys c P
  let ciphertext := m.pPayload.take m.nPayload.toNat
  guard (c.hmacSha256 keyM (macData m.timestamp m.iv ciphertext) = m.mac)
  let plain ← c.aesDecrypt keyE m.iv ciphertext
  guard (smsgPlHdrLen < plain.length)
  let topicLen := (plain.getD smsgPlHdrLen 0).toNat
  guard (topicLen ≠ 0 ∧ topicLen ≤ smsgMaxTopicLen ∧ smsgPlHdrLen + 1 + topicLen + 20 + 2 ≤ plain.length)
  return Bytes.slice plain (smsgPlHdrLen + 1) topicLen

/-- An attempt to decrypt: the string it reads, and whether it succeeds. -/
structure Attempt where
  sTopic : Option Bytes
  succeeds : Bool

/-- `msg.sTopic` after a loop of attempts, which ends with the first that succeeds. -/
def topicAfter : List Attempt → Bytes → Bytes
  | [], sTopic => sTopic
  | attempt :: rest, sTopic =>
    if attempt.succeeds then attempt.sTopic.getD sTopic else topicAfter rest (attempt.sTopic.getD sTopic)

/-- What the system answers while a message is filed. -/
structure FilingIO (CKey : Type) where
  trollboxAddress : CKeyID := 0#160
  existed : Bool := false
  dbOpens : Bool := true
  readSmsgKey : CKeyID → Option CKey := fun _ => none

namespace SmsgNode

variable (node : SmsgNode CKey) (io : FilingIO CKey)

def topicAttempts : List Attempt :=
  (node.keyIDs m.nonce).filterMap fun topicKeyID =>
    (node.findKey topicKeyID).bind fun smsgKey =>
      if !smsgKey.receiveOn then none
      else smsgKey.key.map fun key =>
        ⟨readTopic c R m key, (decryptWithR c false key R m m.pPayload m.nPayload {}).isOk⟩

/-- An address that receives anonymous messages is tried without reading the payload. -/
def walletAttempts (pwallet : Wallet CKey) : List Attempt :=
  node.addresses.filterMap fun addr =>
    if !addr.fReceiveEnabled then none
    else (pwallet.getKey addr.address).map fun key =>
      ⟨if addr.fReceiveAnon then none else readTopic c R m key, (tryKey c m R addr.fReceiveAnon key addr.address).isSome⟩

/-- `msg.sTopic` after both loops; the wallet is asked only if no topic key opens the message. -/
def scannedTopic : Bytes :=
  let sTopic := topicAfter (node.topicAttempts c R m) []
  if (node.scanTopicKeys c m R).isSome then sTopic
  else
    match node.pwallet with
    | none => sTopic
    | some pwallet => topicAfter (node.walletAttempts c R m pwallet) sTopic

/-- The key by which `Decrypt` finds an address: that of the database, or of the wallet. -/
def privateKey (address : CKeyID) : Option CKey :=
  match io.readSmsgKey address with
  | some key => some key
  | none =>
    match node.pwallet with
    | none => none
    | some pwallet => if pwallet.isLocked then none else pwallet.getKey address

/-- `topicMsg.sTopic`, from a second attempt that reads the payload. -/
def recoveredTopic (address : CKeyID) : Bytes :=
  ((node.privateKey io address).bind (readTopic c R m)).getD []

def indexedTopic (addressTo : CKeyID) : Bytes :=
  if node.scannedTopic c R m = [] then node.recoveredTopic c R m io addressTo else node.scannedTopic c R m

/-- The topic under which `ScanMessage` writes a message into the index. -/
def filedTopic : Option Bytes :=
  match c.parse m.cpkR, node.scanMessage c m with
  | some R, .own addressTo =>
    let sTopic := node.indexedTopic c R m io addressTo
    if io.existed ∨ addressTo = io.trollboxAddress ∨ ¬ m.isTopicVersion ∨ sTopic = [] ∨ ¬ io.dbOpens then none
    else some sTopic
  | _, _ => none

end SmsgNode

/-- A message is what it says: the header has the hash of the topic, and the key of the topic
decrypts it and finds the topic inside. -/
def BelongsTo (t : Bytes) : Prop :=
  m.nonce = smsgTopicHash t ∧ ∃ key msg, getTopicSharedKey c t = some key ∧
    decryptWithR c false key R m m.pPayload m.nPayload {} = .ok msg ∧ msg.sTopic = t

/-! ### Where the topic comes from -/

variable {c R m} {node : SmsgNode CKey} {io : FilingIO CKey} {t sTopic : Bytes} {key : CKey}

variable (c R m) in
/-- Nothing was read so far, or the string was read with some key. -/
def ReadBy (t : Bytes) : Prop :=
  t = [] ∨ ∃ key, readTopic c R m key = some t

theorem readBy_getD {read : Option Bytes} (hread : ∀ t ∈ read, ReadBy c R m t) (hbefore : ReadBy c R m sTopic) :
    ReadBy c R m (read.getD sTopic) := by
  cases read with
  | none => exact hbefore
  | some t => exact hread t rfl

theorem readBy_topicAfter {list : List Attempt} (hlist : ∀ a ∈ list, ∀ t ∈ a.sTopic, ReadBy c R m t)
    (hbefore : ReadBy c R m sTopic) : ReadBy c R m (topicAfter list sTopic) := by
  induction list generalizing sTopic with
  | nil => exact hbefore
  | cons attempt rest ih =>
    obtain ⟨hfirst, hrest⟩ := List.forall_mem_cons.mp hlist
    rw [topicAfter]
    split_ifs
    · exact readBy_getD hfirst hbefore
    · exact ih hrest (readBy_getD hfirst hbefore)

theorem readBy_topicAttempts : ∀ a ∈ node.topicAttempts c R m, ∀ t ∈ a.sTopic, ReadBy c R m t := by
  intro a ha t ht
  obtain ⟨topicKeyID, _, hsome⟩ := List.mem_filterMap.mp ha
  obtain ⟨smsgKey, _, hsome⟩ := Option.bind_eq_some_iff.mp hsome
  split_ifs at hsome
  obtain ⟨key, _, rfl⟩ := Option.map_eq_some_iff.mp hsome
  exact .inr ⟨key, ht⟩

theorem readBy_walletAttempts {pwallet : Wallet CKey} :
    ∀ a ∈ node.walletAttempts c R m pwallet, ∀ t ∈ a.sTopic, ReadBy c R m t := by
  intro a ha t ht
  obtain ⟨addr, _, hsome⟩ := List.mem_filterMap.mp ha
  by_cases henabled : addr.fReceiveEnabled
  · simp only [henabled, Bool.not_true, Bool.false_eq_true, if_false] at hsome
    obtain ⟨key, _, rfl⟩ := Option.map_eq_some_iff.mp hsome
    dsimp only at ht
    split_ifs at ht
    · cases ht
    · exact .inr ⟨key, ht⟩
  · simp [henabled] at hsome

theorem readBy_scannedTopic : ReadBy c R m (node.scannedTopic c R m) := by
  have htopic : ReadBy c R m (topicAfter (node.topicAttempts c R m) []) :=
    readBy_topicAfter readBy_topicAttempts (.inl rfl)
  rw [SmsgNode.scannedTopic]
  split_ifs
  · exact htopic
  · split
    · exact htopic
    · exact readBy_topicAfter readBy_walletAttempts htopic

theorem readBy_recoveredTopic {address : CKeyID} : ReadBy c R m (node.recoveredTopic c R m io address) := by
  refine readBy_getD (fun t ht => ?_) (.inl rfl)
  obtain ⟨key, _, hread⟩ := Option.bind_eq_some_iff.mp ht
  exact .inr ⟨key, hread⟩

theorem exists_readTopic_of_filedTopic (hparse : c.parse m.cpkR = some R) (hfiled : node.filedTopic c m io = some t) :
    ∃ key, readTopic c R m key = some t := by
  rw [SmsgNode.filedTopic, hparse] at hfiled
  split at hfiled
  · rename_i R' addressTo hR hown
    cases hR
    have hread : ReadBy c R m (node.indexedTopic c R m io addressTo) := by
      rw [SmsgNode.indexedTopic]
      split_ifs
      · exact readBy_recoveredTopic
      · exact readBy_scannedTopic
    dsimp only at hfiled
    split_ifs at hfiled with hnot
    rw [Option.some.inj hfiled] at hread hnot
    exact hread.resolve_left fun hempty => hnot (.inr (.inr (.inr (.inl hempty))))
  · cases hfiled

/-- What a key needs to read a topic is also what the test of the address needs. -/
theorem decryptWithR_of_readTopic (hversion : m.isTopicVersion = true) (hread : readTopic c R m key = some t) :
    decryptWithR c true key R m m.pPayload m.nPayload {} = .ok {} ∧ t ≠ [] := by
  have hcipher : cipherLength m m.nPayload = .ok m.nPayload := by
    have htopic : m.version.1 = smsgVersionTopic := by simpa [SecureMessage.isTopicVersion] using hversion
    rw [cipherLength, htopic]
    rfl
  simp only [readTopic, Option.bind_eq_bind, Option.bind_eq_some_iff, Option.guard_eq_some', exists_and_left, exists_const] at hread
  obtain ⟨P, hP, hmac, plain, _, _, ⟨hpos, _, hlen⟩, htopic⟩ := hread
  constructor
  · rw [decryptWithR, hcipher, hP]
    simp [orFail, hmac, failIf]
  · rw [← Option.some.inj htopic, ← List.length_pos_iff_ne_nil, Bytes.slice, List.length_take,
      List.length_drop]
    omega

/-- A node with one address, that receives anonymous messages. -/
def anonymousNode (key : CKey) : SmsgNode CKey where
  pwallet := some { isLocked := false, getKey := fun _ => some key }
  addresses := [{ address := 1#160, fReceiveEnabled := true, fReceiveAnon := true }]

theorem filedTopic_anonymousNode (hversion : m.isTopicVersion = true) (hparse : c.parse m.cpkR = some R)
    (hread : readTopic c R m key = some t) : (anonymousNode key).filedTopic c m {} = some t := by
  obtain ⟨htest, hne⟩ := decryptWithR_of_readTopic hversion hread
  have hkeys : (anonymousNode key).scanTopicKeys c m R = none := by
    simp [SmsgNode.scanTopicKeys, SmsgNode.keyIDs, anonymousNode]
  have hscan : (anonymousNode key).scanMessage c m = .own 1#160 := by
    simp only [SmsgNode.scanMessage, hparse, hversion, if_true, hkeys]
    simp [anonymousNode, SmsgNode.scanWallet, SmsgNode.tryKey, htest]
  have hscanned : (anonymousNode key).scannedTopic c R m = [] := by
    simp [SmsgNode.scannedTopic, hkeys, SmsgNode.topicAttempts, SmsgNode.keyIDs]
    simp [anonymousNode, SmsgNode.walletAttempts, topicAfter]
  have hrecovered : (anonymousNode key).recoveredTopic c R m {} 1#160 = t := by
    simp [SmsgNode.recoveredTopic, SmsgNode.privateKey, anonymousNode, hread]
  have hindexed : (anonymousNode key).indexedTopic c R m {} 1#160 = t := by
    rw [SmsgNode.indexedTopic, if_pos hscanned, hrecovered]
  rw [SmsgNode.filedTopic, hparse, hscan]
  simp [hindexed, hversion, hne]

end Filing

/-- A message of the sample topic, encrypted for the key of another topic and under its hash. -/
def misfiledMessage : SecureMessage :=
  match encrypt plainCrypto plainEnv emptyMessage 3#160
      ((getTopicSharedKey plainCrypto SmsgNode.otherTopic).getD 0#160) [104, 105] sampleTopic 0#160 0#16 with
  | .ok sent => { sent with nonce := smsgTopicHash SmsgNode.otherTopic }
  | .error _ => emptyMessage

set_option maxRecDepth 4000 in
theorem filedTopic_misfiledMessage :
    (SmsgNode.run plainCrypto [.subscribe SmsgNode.otherTopic]).filedTopic plainCrypto misfiledMessage {} =
      some sampleTopic := by
  decide +kernel

theorem misfiledMessage_header : misfiledMessage.isTopicVersion = true ∧
    plainCrypto.parse misfiledMessage.cpkR = some 5#160 := by
  decide +kernel

end OmegaCore.Smsg
