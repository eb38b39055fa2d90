import OmegaCore.Smsg.RoundTrip
import OmegaCore.Util.Lz4

/-!
The length of encrypted payloads.  `Encrypt` has no limit of its own, and the limits of `Validate`
leave little room for a text that LZ4 makes longer and for the padding of the last block.  Only the
lengths of what the primitives return matter here, and that LZ4 returns a block of the text.
-/

namespace OmegaCore.Smsg

open Util List SecureMessage

variable {CKey CPubKey : Type} {c : Crypto CKey CPubKey} {env : SendEnv CKey CPubKey}
variable {smsg header sent : SecureMessage} {addressFrom addressTo : CKeyID} {message topic : Bytes}
variable {parentMsgId : Uint160} {days : BitVec 16}

/-- AES pads to whole blocks, and LZ4 keeps to its format. -/
structure Crypto.Formatted (c : Crypto CKey CPubKey) : Prop where
  length_aesEncrypt : ∀ key iv plain ciphertext, c.aesEncrypt key iv plain = some ciphertext →
    ciphertext.length = 16 * (plain.length / 16 + 1)
  isBlock_lz4Compress : ∀ message data, c.lz4Compress message = some data → Lz4.IsBlock message data

/-- The limit of `Validate` for the version. -/
def SecureMessage.maxPayload (m : SecureMessage) : ℕ :=
  if m.isPaidVersion then smsgMaxMsgBytesPaid
  else if m.isTopicVersion then smsgMaxMsgWorstTopic
  else smsgMaxMsgWorst

/-- The most bytes to encrypt that stay within the limit with their padding and the tail. -/
def payloadRoom (smsg : SecureMessage) (topic : Bytes) : ℕ :=
  if topic ≠ [] then 24271
  else if smsg.isPaidVersion then if smsg.isBlindedPaid then 524223 else 524255
  else if smsg.isTopicVersion then 24271
  else 24191

theorem padded_le_iff {fSendAnonymous : Bool} (h : applyTopic smsg fSendAnonymous topic = .ok header) (n : ℕ) :
    16 * (n / 16 + 1) + header.getPaidTailSize ≤ header.maxPayload ↔ n ≤ payloadRoom smsg topic := by
  have hworst : smsgMaxMsgWorst = 24200 ∧ smsgMaxMsgWorstTopic = 24287 ∧ smsgMaxMsgBytesPaid = 524288 := by decide
  rcases applyTopic_eq_ok h with ⟨rfl, rfl⟩ | ⟨hvalid, -, rfl⟩
  · simp only [payloadRoom, maxPayload, getPaidTailSize, hworst, ne_eq, not_true_eq_false,
      if_false, Bool.not_eq_true']
    split_ifs <;> simp_all <;> omega
  · simp only [payloadRoom, maxPayload, getPaidTailSize, isPaidVersion,
      isTopicVersion, hworst, ne_nil_of_isValidTopic hvalid, ne_eq, not_false_eq_true, if_true]
    simp [smsgVersionTopic]
    omega

/-- The most bytes that stand for a message of this length. -/
def dataBound (n : ℕ) : ℕ :=
  if n > 128 then Lz4.literalLength n else n

theorem length_messageData_le {data : Bytes} (hc : c.Formatted) (h : messageData c message = .ok data) :
    data.length ≤ dataBound message.length ∧ (¬ Lz4.Repeats message → data.length = dataBound message.length) := by
  unfold messageData at h
  unfold dataBound
  split_ifs at h ⊢
  · have hblock := hc.isBlock_lz4Compress message data (orFail_eq_ok.mp h)
    exact ⟨hblock.length_le, hblock.length_of_not_repeats⟩
  · cases h
    exact ⟨le_rfl, fun _ => rfl⟩

/-- The payload is within the limit exactly if the bytes to encrypt are. -/
theorem payload_le_of_encrypt (htail : ∀ n, (env.tail n).length = n) (hc : c.Formatted)
    (h : encrypt c env smsg addressFrom addressTo message topic parentMsgId days = .ok sent) :
    ∃ data, messageData c message = .ok data ∧
      (sent.pPayload.length ≤ sent.maxPayload ↔ overhead addressFrom topic + data.length ≤ payloadRoom smsg topic) := by
  obtain ⟨_, _, data, header, plain, ciphertext, -, -, -, -, hdata, hheader, hplain, hcipher, rfl⟩ := encrypt_eq_ok.mp h
  refine ⟨data, hdata, ?_⟩
  rw [length_append, htail, hc.length_aesEncrypt _ _ _ _ hcipher, ← length_plainPayload hplain]
  exact padded_le_iff hheader _

/-- Primitives that find no match. -/
def literalCrypto (c : Crypto CKey CPubKey) : Crypto CKey CPubKey :=
  { c with
    aesEncrypt := fun _ _ plain => some (List.replicate (16 * (plain.length / 16 + 1)) 0)
    lz4Compress := fun message => some (Lz4.lastLiterals message) }

theorem formatted_literalCrypto (c : Crypto CKey CPubKey) : (literalCrypto c).Formatted where
  length_aesEncrypt _ _ _ _ h := by
    cases h
    exact length_replicate
  isBlock_lz4Compress message _ h := by
    cases h
    exact Lz4.isBlock_literals message

/-- What can be encrypted at all does not depend on the text. -/
theorem exists_encrypt_literalCrypto (text : Bytes)
    (h : encrypt c env smsg addressFrom addressTo message topic parentMsgId days = .ok sent) :
    ∃ sent', encrypt (literalCrypto c) env smsg addressFrom addressTo text topic parentMsgId days = .ok sent' := by
  obtain ⟨cpkDestK, P, _, header, plain, _, hdest, hpoint, hP, hR, -, hheader, hplain, -, -⟩ := encrypt_eq_ok.mp h
  obtain ⟨data, hdata⟩ : ∃ data, messageData (literalCrypto c) text = .ok data := by
    unfold messageData
    split_ifs
    · exact ⟨_, rfl⟩
    · exact ⟨text, rfl⟩
  obtain ⟨plain', hplain'⟩ : ∃ plain', plainPayload (literalCrypto c) env addressFrom text topic data parentMsgId days =
      .ok plain' := by
    unfold plainPayload at hplain ⊢
    split_ifs at hplain ⊢
    · exact ⟨_, rfl⟩
    · obtain ⟨key, hkey, -⟩ := bind_eq_ok.mp hplain
      exact ⟨_, bind_eq_ok.mpr ⟨key, hkey, rfl⟩⟩
  exact ⟨_, encrypt_eq_ok.mpr ⟨cpkDestK, P, data, header, plain', _, hdest, hpoint, hP, hR, hdata, hheader, hplain',
    rfl, rfl⟩⟩

/-- All messages of a length are within the limit exactly if the length is small enough.  If it is not, then every
message of that length which repeats no four bytes is over the limit, whichever matches LZ4 looks for, and what is over
the limit is rejected by every receiver. -/
theorem payload_le_iff {sent₀ : SecureMessage} (htail : ∀ n, (env.tail n).length = n)
    (h : encrypt c env smsg addressFrom addressTo message topic parentMsgId days = .ok sent₀) :
    ((∀ (c : Crypto CKey CPubKey) (text : Bytes), c.Formatted → text.length = message.length → ∀ sent,
        encrypt c env smsg addressFrom addressTo text topic parentMsgId days = .ok sent →
        sent.pPayload.length ≤ sent.maxPayload) ↔
      overhead addressFrom topic + dataBound message.length ≤ payloadRoom smsg topic) ∧
    (∀ (c : Crypto CKey CPubKey) (text : Bytes), c.Formatted → ¬ Lz4.Repeats text → ∀ sent,
      encrypt c env smsg addressFrom addressTo text topic parentMsgId days = .ok sent →
      (sent.pPayload.length ≤ sent.maxPayload ↔
        overhead addressFrom topic + dataBound text.length ≤ payloadRoom smsg topic)) ∧
    ∀ (c : Crypto CKey CPubKey) ripemd160 receiver (m : SecureMessage) (pPayload : Bytes),
      m.maxPayload < pPayload.length → validate c ripemd160 receiver m pPayload = .left .payloadOverSize := by
  have hnew : ∀ (c : Crypto CKey CPubKey) (text : Bytes), c.Formatted → ¬ Lz4.Repeats text → ∀ sent,
      encrypt c env smsg addressFrom addressTo text topic parentMsgId days = .ok sent →
      (sent.pPayload.length ≤ sent.maxPayload ↔
        overhead addressFrom topic + dataBound text.length ≤ payloadRoom smsg topic) := by
    intro c text hc hnew sent hsent
    obtain ⟨data, hdata, hiff⟩ := payload_le_of_encrypt htail hc hsent
    rw [hiff, (length_messageData_le hc hdata).2 hnew]
  refine ⟨⟨fun hall => ?_, fun hle c text hc htext sent hsent => ?_⟩, hnew,
    fun c ripemd160 receiver m pPayload hlong => if_pos hlong⟩
  · -- a text that cannot be compressed, and LZ4 as it does not compress it
    obtain ⟨sent, hsent⟩ := exists_encrypt_literalCrypto (Lz4.countingText message.length) h
    have hc := formatted_literalCrypto c
    have hfits := hall _ _ hc (Lz4.length_countingText _) sent hsent
    rw [hnew _ _ hc (Lz4.not_repeats_countingText _) sent hsent, Lz4.length_countingText] at hfits
    exact hfits
  · obtain ⟨data, hdata, hiff⟩ := payload_le_of_encrypt htail hc hsent
    have hlen := (length_messageData_le hc hdata).1
    rw [hiff]
    rw [htext] at hlen
    omega

/-- Two bytes under a topic. -/
theorem payload_le_iff_topic : (plainEnv.tail 32).length = 32 ∧
    ∀ sent, encrypt (literalCrypto plainCrypto) plainEnv (emptyMessage.init false 0 false) 3#160 9#160 [104, 105] sampleTopic
      0#160 0#16 = .ok sent → sent.pPayload.length ≤ sent.maxPayload :=
  ⟨length_replicate, (payload_le_iff (c := plainCrypto) (fun _ => length_replicate) rfl).1.mpr (by decide) _ _
    (formatted_literalCrypto plainCrypto) rfl⟩

/-- `omega.` and as many letters as a topic may have. -/
def longTopic : Bytes :=
  topicPrefix ++ List.replicate 58 97

/-- As many bytes as `Send` lets through under such a topic, if they repeat nothing: whatever matches LZ4 looks for, the
payload is over the limit. -/
theorem payload_overSize : ¬ Lz4.Repeats (Lz4.countingText 24000) ∧
    sendAccepts false false (Lz4.countingText 24000) longTopic = true ∧
    (∃ (c : Crypto CKeyID CKeyID) (sent : SecureMessage), c.Formatted ∧
      encrypt c plainEnv (emptyMessage.init false 0 false) 3#160 9#160 (Lz4.countingText 24000) longTopic 0#160 0#16 =
        .ok sent) ∧
    ∀ (c : Crypto CKeyID CKeyID) (sent : SecureMessage), c.Formatted →
      encrypt c plainEnv (emptyMessage.init false 0 false) 3#160 9#160 (Lz4.countingText 24000) longTopic 0#160 0#16 =
        .ok sent → ¬ sent.pPayload.length ≤ sent.maxPayload := by
  have hnew := Lz4.not_repeats_countingText 24000
  refine ⟨hnew, ?_, ?_, fun c sent hc hsent hle => ?_⟩
  · rw [sendAccepts, Lz4.length_countingText]
    decide
  · obtain ⟨sent, hsent⟩ := exists_encrypt_literalCrypto (Lz4.countingText 24000) (@encrypt_eq_ok _ _ plainCrypto
      plainEnv (emptyMessage.init false 0 false) _ 3#160 9#160 [] longTopic 0#160 0#16 |>.mpr
        ⟨_, _, [], _, _, _, rfl, rfl, rfl, rfl, rfl, rfl, rfl, rfl, rfl⟩)
    exact ⟨_, sent, formatted_literalCrypto plainCrypto, hsent⟩
  · obtain ⟨data, hdata, hiff⟩ := payload_le_of_encrypt (fun _ => length_replicate) hc hsent
    rw [hiff, (length_messageData_le hc hdata).2 hnew, Lz4.length_countingText] at hle
    revert hle
    decide

end OmegaCore.Smsg
