import OmegaCore.Smsg.MessageStore
import OmegaCore.Smsg.PaidMessages

/-!
Retention of free messages.  `Store` writes a message to the file of its hour and records in its
token how many days it lives, and `BuildBucketSet` reads the tokens back from the files.  Both
take two days for versions below 3 and the first byte of the nonce for any other.  In a paid
message this byte is the retention that was paid for, but in a topic message it belongs to the
proof of work.
-/

namespace OmegaCore.Smsg

open Util MessageStore SecureMessage

/-! ### BuildBucketSet -/

/-- The days to live that `BuildBucketSet` finds in a header; a purged message has none. -/
def rebuiltDaysToLive (m : SecureMessage) : ℕ :=
  if m.version = (0, 0) then 0 else daysToLive m

/-- The loop over a bucket file, from the position `offset` on.  It passes over a payload that is
too short for a sample, and ends with the first message that is cut off. -/
def readTokens : ℕ → ℕ → Bytes → List SecMsgToken
  | 0, _, _ => []
  | n + 1, offset, data =>
    if data.length < smsgHdrLen then []
    else
      let m := readMessage (data.take smsgHdrLen) []
      let next := smsgHdrLen + m.nPayload.toNat
      if m.nPayload.toNat < 8 then readTokens n (offset + next) (data.drop next)
      else if data.length < smsgHdrLen + 8 then []
      else
        { timestamp := m.timestamp
          sample := Bytes.slice data smsgHdrLen 8
          offset
          ttl := rebuiltDaysToLive m } :: readTokens n (offset + next) (data.drop next)

/-- `tokenSet.insert`, which keeps a token that is there already. -/
def insertToken (tokens : TokenSet) (token : SecMsgToken) : TokenSet :=
  tokens.insert token.timestamp ((tokens[token.timestamp]?.getD ∅).emplace token.sample token)

/-- The bucket that `BuildBucketSet` makes of a file. -/
def readBucket (data : Bytes) : TokenSet :=
  (readTokens data.length 0 data).foldl insertToken ∅

def TokenSet.get (tokens : TokenSet) (timestamp : Int64) (sample : Bytes) : Option SecMsgToken :=
  tokens[timestamp]?.bind (·[sample]?)

theorem get_insertToken {tokens : TokenSet} {token token' : SecMsgToken} {timestamp : Int64} {sample : Bytes}
    (hget : (insertToken tokens token).get timestamp sample = some token') :
    token' = token ∨ tokens.get timestamp sample = some token' := by
  unfold TokenSet.get insertToken at *
  rw [Map.get_insert] at hget
  split_ifs at hget with htime
  · rw [Option.bind_some, Map.get_emplace] at hget
    split_ifs at hget
    · exact .inl (Option.some.inj hget).symm
    · subst htime
      cases hbucket : tokens[token.timestamp]? with
      | none => simp [hbucket] at hget
      | some bucket => exact .inr (by simpa [hbucket] using hget)
  · exact .inr hget

theorem get_foldl_insertToken {list : List SecMsgToken} {tokens : TokenSet} {token : SecMsgToken}
    {timestamp : Int64} {sample : Bytes} (hget : (list.foldl insertToken tokens).get timestamp sample = some token) :
    token ∈ list ∨ tokens.get timestamp sample = some token := by
  induction list generalizing tokens with
  | nil => exact .inr hget
  | cons first rest ih =>
    rcases ih hget with hmem | hget
    · exact .inl (List.mem_cons_of_mem _ hmem)
    · rcases get_insertToken hget with rfl | hget
      · exact .inl List.mem_cons_self
      · exact .inr hget

/-- A token says what the header at its offset says. -/
theorem ttl_of_mem_readTokens {n offset : ℕ} {data : Bytes} {token : SecMsgToken}
    (hmem : token ∈ readTokens n offset data) :
    ∃ k : ℕ, token.offset = offset + k ∧
      token.ttl = rebuiltDaysToLive (readMessage ((data.drop k).take smsgHdrLen) []) := by
  induction n generalizing offset data with
  | zero => cases hmem
  | succ n ih =>
    have hlater : ∀ next, token ∈ readTokens n (offset + next) (data.drop next) → ∃ k : ℕ,
        token.offset = offset + k ∧ token.ttl = rebuiltDaysToLive (readMessage ((data.drop k).take smsgHdrLen) []) := by
      intro next hmem
      obtain ⟨k, hoffset, httl⟩ := ih hmem
      exact ⟨next + k, by omega, by rw [httl, List.drop_drop]⟩
    rw [readTokens] at hmem
    dsimp only at hmem
    split_ifs at hmem
    · cases hmem
    · exact hlater _ hmem
    · cases hmem
    · rcases List.mem_cons.mp hmem with rfl | hmem
      · exact ⟨0, by simp, rfl⟩
      · exact hlater _ hmem

theorem readMessage_nonce (m : SecureMessage) : (readMessage m.headerBytes []).nonce = m.nonce := by
  have hbytes : m.headerBytes = (Bytes.ofBitVec 4 m.hash ++ [m.version.1, m.version.2, m.flags] ++
      Bytes.ofBitVec 8 m.timestamp.toBitVec ++ Bytes.ofBitVec 16 m.iv ++ Bytes.ofBitVec 33 m.cpkR ++
        Bytes.ofBitVec 32 m.mac) ++ (Bytes.ofBitVec 4 m.nonce ++ Bytes.ofBitVec 4 m.nPayload) := by
    simp [headerBytes, bodyBytes]
  change Bytes.readAt (8 * 4) m.headerBytes 96 4 = m.nonce
  rw [hbytes]
  exact Bytes.readAt_append m.nonce (by simp)

theorem rebuiltDaysToLive_header (m : SecureMessage) :
    rebuiltDaysToLive (readMessage m.headerBytes []) = rebuiltDaysToLive m := by
  have hversion : (readMessage m.headerBytes []).version = m.version := rfl
  simp only [rebuiltDaysToLive, daysToLive, nDaysRetention, hversion, readMessage_nonce]

/-! ### The retention of a message -/

section Retained

variable {CKey CPubKey : Type} (ripemd160 : Bytes → Uint160)

/-- A time to live that `Store` records for a message, or that `BuildBucketSet` finds for it in a
file in which the message stands at the offset of its token. -/
inductive Retained (m : SecureMessage) : ℕ → Prop
  | stored {s : MessageStore} {io : StoreIO} {token : SecMsgToken}
    (hok : (s.store ripemd160 io m m.pPayload).2 = .ok ())
    (htoken : ((s.store ripemd160 io m m.pPayload).1.tokensAt m.timestamp)[tokenSample m.pPayload]? = some token) :
    Retained m token.ttl
  | rebuilt {before after : Bytes} {token : SecMsgToken}
    (htoken : (readBucket (before ++ (m.headerBytes ++ (m.pPayload ++ after)))).get m.timestamp
      (tokenSample m.pPayload) = some token) (hoffset : token.offset = before.length) :
    Retained m token.ttl

/-- Two free messages live equally long: topic messages with the same first byte of the nonce,
which is two if the other message has no topic. -/
def SameFirstByte (m₁ m₂ : SecureMessage) : Prop :=
  (if m₁.isTopicVersion then m₁.nDaysRetention else 2) = if m₂.isTopicVersion then m₂.nDaysRetention else 2

variable {c : Crypto CKey CPubKey} {ripemd160} {env env₁ env₂ : ValidateEnv} {m m₁ m₂ : SecureMessage} {n : ℕ}

theorem daysToLive_of_validate (hvalid : validate c ripemd160 env m m.pPayload = .done ())
    (hfree : m.isPaidVersion = false) :
    rebuiltDaysToLive m = daysToLive m ∧
      daysToLive m = if m.isTopicVersion then m.nDaysRetention else 2 := by
  have hversion : m.version.1 = 2 ∨ m.version.1 = smsgVersionTopic := by
    by_contra hversion
    push Not at hversion
    simp [validate, hfree, validateFree, hversion] at hvalid
    split_ifs at hvalid
  have hne : m.version ≠ (0, 0) := by
    rintro hzero
    simp [hzero, smsgVersionTopic] at hversion
  refine ⟨if_neg hne, ?_⟩
  rcases hversion with h | h <;> simp [daysToLive, isTopicVersion, h, smsgVersionTopic]

theorem tokensAt_store {s : MessageStore} {io : StoreIO} (hok : (s.store ripemd160 io m m.pPayload).2 = .ok ()) :
    ((s.store ripemd160 io m m.pPayload).1.tokensAt m.timestamp)[tokenSample m.pPayload]? =
      some ⟨m.timestamp, tokenSample m.pPayload, io.offset, daysToLive m⟩ := by
  unfold store at *
  split at hok
  · cases hok
  · split_ifs at hok ⊢
    simp [setTokensAt, tokensAt]

theorem ttl_of_retained (hdays : rebuiltDaysToLive m = daysToLive m)
    (hretained : Retained ripemd160 m n) : n = daysToLive m := by
  cases hretained with
  | stored hok htoken =>
    cases (tokensAt_store hok).symm.trans htoken
    rfl
  | @rebuilt before _ _ htoken hoffset =>
    rcases get_foldl_insertToken htoken with hmem | hnone
    · obtain ⟨k, hk, httl⟩ := ttl_of_mem_readTokens hmem
      obtain rfl : k = before.length := by
        rw [hoffset] at hk
        omega
      rw [httl, List.drop_left, List.take_left' m.length_headerBytes, rebuiltDaysToLive_header, hdays]
    · cases hnone

/-- The empty store takes every message at its own time. -/
theorem retained_daysToLive (m : SecureMessage) : Retained ripemd160 m (daysToLive m) := by
  have hok : ((({} : MessageStore).store ripemd160 { adjustedTime := m.timestamp.toInt } m m.pPayload)).2 = .ok () := by
    have hwindow : inWindow m.timestamp.toInt m.timestamp = true := by
      simp [inWindow, smsgTimeLeeway, smsgRetention, smsgMaxPaidTTL, smsgSecondsInDay]
    simp [store, checkPurged, hwindow, tokensAt]
  exact .stored hok (tokensAt_store hok)

/-- Two free messages get one time to live, from `Store` and from `BuildBucketSet`, exactly if
their versions and nonces say so: the nonce of a topic message decides how long it is kept. -/
theorem sameRetention_iff (hvalid₁ : validate c ripemd160 env₁ m₁ m₁.pPayload = .done ())
    (hvalid₂ : validate c ripemd160 env₂ m₂ m₂.pPayload = .done ()) (hfree₁ : m₁.isPaidVersion = false)
    (hfree₂ : m₂.isPaidVersion = false) :
    (∀ n₁ n₂, Retained ripemd160 m₁ n₁ → Retained ripemd160 m₂ n₂ → n₁ = n₂) ↔ SameFirstByte m₁ m₂ := by
  obtain ⟨hrebuilt₁, hdays₁⟩ := daysToLive_of_validate hvalid₁ hfree₁
  obtain ⟨hrebuilt₂, hdays₂⟩ := daysToLive_of_validate hvalid₂ hfree₂
  rw [SameFirstByte, ← hdays₁, ← hdays₂]
  constructor
  · intro hsame
    exact hsame _ _ (retained_daysToLive m₁) (retained_daysToLive m₂)
  · intro hsame n₁ n₂ hretained₁ hretained₂
    rw [ttl_of_retained hrebuilt₁ hretained₁, ttl_of_retained hrebuilt₂ hretained₂, hsame]

end Retained

/-- Primitives with which every nonce is a proof of work. -/
def freeCrypto : Crypto CKeyID CKeyID :=
  { plainCrypto with hmacSha256 := fun _ _ => 0 }

def topicWithNonce (nonce : BitVec (8 * 4)) : SecureMessage :=
  { emptyMessage with version := (smsgVersionTopic, 0), nonce, pPayload := samplePayload }

theorem validate_topicWithNonce (nonce : BitVec (8 * 4)) : validate freeCrypto lowBytes sampleValidateEnv
    (topicWithNonce nonce) (topicWithNonce nonce).pPayload = .done () := by
  have hmax : ¬ smsgMaxMsgWorstTopic < 122 := by decide
  have htarget : meetsTarget 0#256 = true := by decide
  simp [validate, validateFree, topicWithNonce, samplePayload, hmax, isPaidVersion,
    isTopicVersion, smsgVersionTopic, emptyMessage, sampleValidateEnv, smsgPlHdrLen, smsgTimeLeeway,
    powHash, freeCrypto, htarget]

theorem sameRetention_iff_sample : (∀ n₁ n₂, Retained lowBytes (topicWithNonce 3#32) n₁ →
    Retained lowBytes (topicWithNonce 259#32) n₂ → n₁ = n₂) ↔
      SameFirstByte (topicWithNonce 3#32) (topicWithNonce 259#32) :=
  sameRetention_iff (validate_topicWithNonce _) (validate_topicWithNonce _) rfl rfl

/-- The first byte of the nonce keeps one topic message for a day and another for eight months. -/
theorem retention_of_nonces : ¬ ∀ (c : Crypto CKeyID CKeyID) (ripemd160 : Bytes → Uint160) (env₁ env₂ : ValidateEnv)
    (m₁ m₂ : SecureMessage), validate c ripemd160 env₁ m₁ m₁.pPayload = .done () →
      validate c ripemd160 env₂ m₂ m₂.pPayload = .done () → m₁.isPaidVersion = false → m₂.isPaidVersion = false →
      m₁.timestamp = m₂.timestamp →
      ∀ n₁ n₂, Retained ripemd160 m₁ n₁ → Retained ripemd160 m₂ n₂ → n₁ = n₂ := by
  intro h
  have hsame := h freeCrypto lowBytes sampleValidateEnv sampleValidateEnv (topicWithNonce 1#32) (topicWithNonce 240#32)
    (validate_topicWithNonce _) (validate_topicWithNonce _) rfl rfl rfl _ _ (retained_daysToLive _)
    (retained_daysToLive _)
  exact absurd hsame (by decide)

end OmegaCore.Smsg
