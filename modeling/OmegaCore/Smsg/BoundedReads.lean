import OmegaCore.Smsg.RoundTrip

/-!
The reads of `DecryptWithR` in the decrypted payload, at offsets that come from lengths the sender
chose.  Here each read is checked against the end of the buffer, and the program is stuck where it
would go beyond.
-/

namespace OmegaCore.Smsg

open Util

/-- A program that returns a code or a value, or is stuck. -/
abbrev Checked := ExceptT SecureMessageCode Option

/-- `n` bytes from an offset on, as `memcpy` and `LZ4_decompress_safe` read them. -/
def readBuffer (vch : Bytes) (off n : ℕ) : Checked Bytes :=
  if off + n ≤ vch.length then pure (Bytes.slice vch off n) else .mk none

def readNumber (w : ℕ) (vch : Bytes) (off n : ℕ) : Checked (BitVec w) := do
  return .ofNat w (Bytes.toNat (← readBuffer vch off n))

section

variable {CKey CPubKey : Type} (c : Crypto CKey CPubKey)

def readTopicExtra (vchPayload : Bytes) : Checked (Bytes × Uint160 × BitVec 16 × ℕ) := do
  failIf .generalError (vchPayload.length ≤ smsgPlHdrLen)
  let topicLen := ((← readBuffer vchPayload smsgPlHdrLen 1).getD 0 0).toNat
  failIf .generalError
    (topicLen = 0 || topicLen > smsgMaxTopicLen || vchPayload.length < smsgPlHdrLen + 1 + topicLen + 20 + 2)
  let topic ← readBuffer vchPayload (smsgPlHdrLen + 1) topicLen
  failIf .generalError (!isValidTopic topic)
  let parentMsgId ← readNumber 160 vchPayload (smsgPlHdrLen + 1 + topicLen) 20
  let nRetentionDays ← readNumber 16 vchPayload (smsgPlHdrLen + 1 + topicLen + 20) 2
  return (topic, parentMsgId, nRetentionDays, 1 + topicLen + 20 + 2)

/-- The fields of a payload with a sender; the data are all bytes from `pMsgData` on. -/
def readSigned (vchPayload : Bytes) : Bytes × Uint160 × BitVec 16 × ℕ → Checked PayloadLayout
  | (sTopic, parentMsgId, nRetentionDays, topicOffset) => do
    failIf .generalError (vchPayload.length < smsgPlHdrLen + topicOffset)
    let lenPlain ← readNumber 32 vchPayload (1 + 20 + 65) 4
    let data ← readBuffer vchPayload (smsgPlHdrLen + topicOffset) (vchPayload.length - (smsgPlHdrLen + topicOffset))
    return { fFromAnonymous := false, lenPlain, data, sTopic, parentMsgId, nRetentionDays }

def readLayout (isTopic : Bool) (vchPayload : Bytes) (msg : MessageData) : Checked PayloadLayout := do
  let first ← readBuffer vchPayload 0 1
  if !isTopic && first == [250] then
    failIf .generalError (vchPayload.length < 9)
    let lenPlain ← readNumber 32 vchPayload 5 4
    let data ← readBuffer vchPayload 9 (vchPayload.length - 9)
    return { msg with fFromAnonymous := true, lenPlain, data }
  else if isTopic then readSigned vchPayload (← readTopicExtra vchPayload)
  else readSigned vchPayload (msg.sTopic, msg.parentMsgId, msg.nRetentionDays, 0)

def readPlaintext (isPaid : Bool) (layout : PayloadLayout) : Checked Bytes := do
  let lenPlain := layout.lenPlain.toNat
  failIf .generalError (lenPlain > if isPaid then smsgMaxMsgBytesPaid else smsgMaxMsgBytes)
  if lenPlain > 128 then
    match c.lz4Decompress layout.data lenPlain with
    | some message => if message.length = lenPlain then return message else throw .generalError
    | none => throw .generalError
  else if lenPlain > layout.data.length then throw .generalError
  else readBuffer layout.data 0 lenPlain

def readSender (layout : PayloadLayout) (vchPayload message : Bytes) : Checked String := do
  if layout.fFromAnonymous then return "anon"
  else
    let ckidFrom ← readNumber 160 vchPayload 1 20
    failIf .invalidAddress (ckidFrom = 0#160)
    let vchSig ← readNumber (8 * 65) vchPayload (1 + 20) 65
    let cpkFromSig ← orFail .generalError (c.recoverCompact (c.hash message) vchSig)
    failIf .generalError (!c.isValid cpkFromSig)
    failIf .generalError (ckidFrom ≠ c.getID cpkFromSig)
    return c.encodeDestination ckidFrom

/-- `DecryptWithR` with checked reads of the decrypted payload. -/
def decryptChecked (fTestOnly : Bool) (keyDest : CKey) (R : CPubKey) (psmsg : SecureMessage) (pPayload : Bytes)
    (nPayload : BitVec 32) (msg : MessageData) : Checked MessageData := do
  let nPayload ← cipherLength psmsg nPayload
  let P ← orFail .generalError (c.ecdh R keyDest)
  let (keyE, keyM) := secretKeys c P
  let ciphertext := pPayload.take nPayload.toNat
  failIf .macMismatch (c.hmacSha256 keyM (macData psmsg.timestamp psmsg.iv ciphertext) ≠ psmsg.mac)
  if fTestOnly then return msg
  let vchPayload ← orFail .generalError (c.aesDecrypt keyE psmsg.iv ciphertext)
  failIf .generalError (vchPayload = [])
  let layout ← readLayout psmsg.isTopicVersion vchPayload msg
  let message ← readPlaintext c psmsg.isPaidVersion layout
  let sFromAddress ← readSender c layout vchPayload message
  return { timestamp := psmsg.timestamp, sFromAddress, sTopic := layout.sTopic, parentMsgId := layout.parentMsgId
           nRetentionDays := layout.nRetentionDays, vchMessage := message ++ [0] }

/-- The length field of a decrypted payload. -/
def lengthField (isTopic : Bool) (vchPayload : Bytes) : BitVec 32 :=
  Bytes.readAt 32 vchPayload (if !isTopic && vchPayload.head? == some 250 then 5 else 1 + 20 + 65) 4

end

/-! ### No read is stuck -/

variable {α β : Type} {vch : Bytes} {off n w : ℕ}

theorem readBuffer_eq (h : off + n ≤ vch.length) : readBuffer vch off n = pure (Bytes.slice vch off n) :=
  if_pos h

theorem readNumber_eq (h : off + n ≤ vch.length) : readNumber w vch off n = pure (Bytes.readAt w vch off n) := by
  rw [readNumber, readBuffer_eq h]
  rfl

theorem liftM_bind {x : Except SecureMessageCode α} {f : α → Checked β} {g : α → Except SecureMessageCode β}
    (h : ∀ a, x = .ok a → f a = liftM (g a)) : (liftM x >>= f) = (liftM (x >>= g) : Checked β) := by
  cases x with
  | error e => rfl
  | ok a => exact h a rfl

theorem getD_slice_one : (Bytes.slice vch off 1).getD 0 0 = vch.getD off 0 := by
  simp [Bytes.slice, List.getD]

theorem readTopicExtra_eq (vch : Bytes) : readTopicExtra vch = liftM (parseTopicExtra vch) := by
  unfold readTopicExtra parseTopicExtra
  refine liftM_bind fun _ hlong => ?_
  simp only [failIf_eq_ok, decide_eq_false_iff_not, not_le] at hlong
  rw [readBuffer_eq hlong, pure_bind, getD_slice_one]
  refine liftM_bind fun _ hfits => ?_
  simp only [failIf_eq_ok, Bool.or_eq_false_iff, decide_eq_false_iff_not, not_lt] at hfits
  rw [readBuffer_eq (by omega), pure_bind]
  refine liftM_bind fun _ _ => ?_
  rw [readNumber_eq (by omega), pure_bind, readNumber_eq (by omega), pure_bind]
  rfl

theorem slice_rest : Bytes.slice vch off (vch.length - off) = vch.drop off := by
  rw [Bytes.slice, ← List.length_drop, List.take_length]

theorem readLayout_eq (isTopic : Bool) (msg : MessageData) (hne : vch ≠ []) :
    readLayout isTopic vch msg = liftM (parsePayload isTopic vch msg) := by
  have hfirst : (Bytes.slice vch 0 1 == [250]) = (vch.head? == some 250) := by
    cases vch <;> simp [Bytes.slice] at hne ⊢
  unfold readLayout parsePayload
  rw [readBuffer_eq (List.length_pos_iff.mpr hne), pure_bind, hfirst]
  by_cases hanon : (!isTopic && vch.head? == some 250) = true
  · rw [if_pos hanon, if_pos hanon]
    split_ifs with hshort
    · simp only [failIf, hshort]
      rfl
    · rw [readNumber_eq (by omega), pure_bind, readBuffer_eq (by omega), pure_bind, slice_rest]
      simp only [failIf, hshort]
      rfl
  · rw [if_neg hanon, if_neg hanon]
    unfold parseSigned
    cases isTopic
    case' true =>
      simp only [if_true, readTopicExtra_eq]
      refine liftM_bind fun fields _ => ?_
    all_goals
      refine liftM_bind fun _ hlong => ?_
      have hlong := of_decide_eq_false (failIf_eq_ok.mp hlong)
      rw [smsgPlHdrLen] at hlong ⊢
      rw [readNumber_eq (by omega), pure_bind, readBuffer_eq (by omega), pure_bind, slice_rest]
      rfl

theorem readPlaintext_eq {CKey CPubKey : Type} (c : Crypto CKey CPubKey) (isPaid : Bool) (layout : PayloadLayout) :
    readPlaintext c isPaid layout = liftM (plaintextOf c isPaid layout) := by
  unfold readPlaintext plaintextOf
  refine liftM_bind fun _ _ => ?_
  split_ifs with hlong hdata
  · cases c.lz4Decompress layout.data layout.lenPlain.toNat with
    | none => rfl
    | some message => dsimp only; split_ifs <;> rfl
  · rfl
  · rw [readBuffer_eq (by omega)]
    rfl

theorem readSender_eq {CKey CPubKey : Type} (c : Crypto CKey CPubKey) {layout : PayloadLayout} (message : Bytes)
    (h : layout.fFromAnonymous = false → smsgPlHdrLen ≤ vch.length) :
    readSender c layout vch message = liftM (senderOf c layout vch message) := by
  unfold readSender senderOf
  split_ifs with hanon
  · rfl
  · have hlong := h (by simpa using hanon)
    rw [smsgPlHdrLen] at hlong
    rw [readNumber_eq (by omega), pure_bind]
    refine liftM_bind fun _ _ => ?_
    rw [readNumber_eq (by omega), pure_bind]
    exact liftM_bind fun _ _ => liftM_bind fun _ _ => liftM_bind fun _ _ => rfl

theorem parsePayload_spec {isTopic : Bool} {msg : MessageData} {layout : PayloadLayout}
    (h : parsePayload isTopic vch msg = .ok layout) :
    (layout.fFromAnonymous = false → smsgPlHdrLen ≤ vch.length) ∧ layout.lenPlain = lengthField isTopic vch := by
  unfold parsePayload parseSigned at h
  unfold lengthField
  split_ifs at h ⊢
  · cases h
    exact ⟨nofun, rfl⟩
  all_goals
    obtain ⟨fields, -, h⟩ := bind_eq_ok.mp h
    obtain ⟨u, hlong, h⟩ := bind_eq_ok.mp h
    have hlong := of_decide_eq_false (failIf_eq_ok.mp hlong)
    cases h
    exact ⟨fun _ => by omega, rfl⟩

theorem length_of_plaintextOf {CKey CPubKey : Type} {c : Crypto CKey CPubKey} {isPaid : Bool} {layout : PayloadLayout}
    {message : Bytes} (h : plaintextOf c isPaid layout = .ok message) : message.length = layout.lenPlain.toNat := by
  obtain ⟨u, -, h⟩ := bind_eq_ok.mp h
  split_ifs at h with hlong hdata
  · split at h
    · split_ifs at h with hlen
      cases h
      exact hlen
    · cases h
  · cases h
    rw [List.length_take]
    omega

/-- Whatever the decrypted bytes are, no read goes beyond them, and a message that is returned has the length that the
length field says, before its null byte. -/
theorem decryptChecked_eq {CKey CPubKey : Type} (c : Crypto CKey CPubKey) (fTestOnly : Bool) (keyDest : CKey)
    (R : CPubKey) (psmsg : SecureMessage) (pPayload : Bytes) (nPayload : BitVec 32) (msg : MessageData) :
    (decryptChecked c fTestOnly keyDest R psmsg pPayload nPayload msg).run =
        some (decryptWithR c fTestOnly keyDest R psmsg pPayload nPayload msg) ∧
      ∀ out, decryptWithR c false keyDest R psmsg pPayload nPayload msg = .ok out →
        ∃ length P vchPayload, cipherLength psmsg nPayload = .ok length ∧ c.ecdh R keyDest = some P ∧
          c.aesDecrypt (secretKeys c P).1 psmsg.iv (pPayload.take length.toNat) = some vchPayload ∧
          out.vchMessage.length = (lengthField psmsg.isTopicVersion vchPayload).toNat + 1 := by
  constructor
  · change decryptChecked .. = liftM (decryptWithR ..)
    refine liftM_bind fun _ _ => liftM_bind fun _ _ => liftM_bind fun _ _ => ?_
    split_ifs
    · rfl
    refine liftM_bind fun vchPayload _ => liftM_bind fun _ hne => ?_
    rw [readLayout_eq _ _ (of_decide_eq_false (failIf_eq_ok.mp hne))]
    refine liftM_bind fun layout hlayout => ?_
    rw [readPlaintext_eq]
    refine liftM_bind fun message _ => ?_
    rw [readSender_eq c message (parsePayload_spec hlayout).1]
    exact liftM_bind fun _ _ => rfl
  · intro out hout
    obtain ⟨length, hlength, hout⟩ := bind_eq_ok.mp hout
    obtain ⟨P, hP, hout⟩ := bind_eq_ok.mp hout
    obtain ⟨_, -, hout⟩ := bind_eq_ok.mp hout
    obtain ⟨vchPayload, hdecrypt, hout⟩ := bind_eq_ok.mp hout
    obtain ⟨_, -, hout⟩ := bind_eq_ok.mp hout
    obtain ⟨layout, hlayout, hout⟩ := bind_eq_ok.mp hout
    obtain ⟨message, hmessage, hout⟩ := bind_eq_ok.mp hout
    obtain ⟨sender, -, hout⟩ := bind_eq_ok.mp hout
    cases hout
    refine ⟨length, P, vchPayload, hlength, orFail_eq_ok.mp hP, orFail_eq_ok.mp hdecrypt, ?_⟩
    rw [List.length_append, length_of_plaintextOf hmessage, (parsePayload_spec hlayout).2]
    rfl

end OmegaCore.Smsg
