import OmegaCore.Smsg.RoundTrip

/-!
Soundness of paid messages.  The output that makes `Validate` accept a message commits to its
id and burns the fee.  The commitment leaves no choice of the id, as long as none of the hashed
texts collide, so an output pays for one message only.
-/

namespace OmegaCore.Smsg

open Util List

section Outputs

variable {ripemd160 : Bytes → Uint160} {m : SecureMessage} {pPayload : Bytes} {msgId : Uint160} {v : CTxOut}

/-- An output commits to a message id: it carries the id itself, or a hash of it with a blinding
key and a fee. -/
def CommitsTo (ripemd160 : Bytes → Uint160) (v : CTxOut) (msgId : Uint160) : Prop :=
  v.scriptPubKey.head? = some 106 ∧
    (((v.scriptPubKey.drop 2).head? = some 70 ∧ Bytes.readAt 160 (v.scriptPubKey.drop 2) 1 20 = msgId) ∨
      (v.scriptPubKey.drop 2).head? = some 66 ∧ ∃ blindKey feeLE,
        Bytes.readAt 160 (v.scriptPubKey.drop 2) 1 20 = ripemd160 (commitmentData blindKey msgId feeLE))

theorem checkBlinded_eq_found {nValue : Int} {vData : Bytes}
    (h : checkBlinded ripemd160 m pPayload msgId nValue vData = .found) :
    ∃ blindKey, getFundingBlindKey pPayload m.nPayload.toNat = some blindKey ∧
      Bytes.readAt 160 vData 1 20 =
        ripemd160 (commitmentData blindKey msgId (BitVec.ofNat 32 (expectFee m))) ∧
      (expectFee m : Int) ≤ nValue := by
  unfold checkBlinded at h
  split at h
  · cases h
  · next blindKey hkey =>
    dsimp only at h
    split_ifs at h with hcount hcommit
    exact ⟨blindKey, hkey, hcommit⟩

theorem checkPlain_eq_found {nValue : Int} {vData : Bytes} (h : checkPlain m msgId nValue vData = .found) :
    Bytes.readAt 160 vData 1 20 = msgId ∧ (expectFee m : Int) ≤ nValue := by
  unfold checkPlain at h
  dsimp only at h
  split_ifs at h with hcount hid hfee
  exact ⟨by simpa using hid, by omega⟩

/-- The two ways in which an output can fund a message. -/
theorem checkFundingOutput_eq_found (h : checkFundingOutput ripemd160 m pPayload msgId v = .found) :
    v.scriptPubKey.head? = some 106 ∧ (expectFee m : Int) ≤ v.nValue ∧
      (((v.scriptPubKey.drop 2).head? = some 70 ∧ Bytes.readAt 160 (v.scriptPubKey.drop 2) 1 20 = msgId) ∨
        (v.scriptPubKey.drop 2).head? = some 66 ∧ ∃ blindKey,
          getFundingBlindKey pPayload m.nPayload.toNat = some blindKey ∧
          Bytes.readAt 160 (v.scriptPubKey.drop 2) 1 20 =
            ripemd160 (commitmentData blindKey msgId (BitVec.ofNat 32 (expectFee m)))) := by
  unfold checkFundingOutput at h
  dsimp only at h
  split_ifs at h with hscript hshort hblind hplain
  · obtain ⟨blindKey, hkey, hcommit, hfee⟩ := checkBlinded_eq_found h
    exact ⟨by tauto, hfee, .inr ⟨hblind, blindKey, hkey, hcommit⟩⟩
  · obtain ⟨hid, hfee⟩ := checkPlain_eq_found h
    exact ⟨by tauto, hfee, .inl ⟨hplain.1, hid⟩⟩

theorem commitsTo_of_found (h : checkFundingOutput ripemd160 m pPayload msgId v = .found) :
    CommitsTo ripemd160 v msgId := by
  obtain ⟨hop, _, hplain | ⟨hblind, blindKey, _, hcommit⟩⟩ := checkFundingOutput_eq_found h
  · exact ⟨hop, .inl hplain⟩
  · exact ⟨hop, .inr ⟨hblind, blindKey, _, hcommit⟩⟩

theorem exists_of_findFunding {check : CTxOut → FundingCheck} {vout : List CTxOut}
    (h : findFunding check vout = .found) : ∃ v ∈ vout, check v = .found := by
  induction vout with
  | nil => cases h
  | cons v vs ih =>
    unfold findFunding at h
    split at h
    · obtain ⟨w, hmem, hfound⟩ := ih h
      exact ⟨w, mem_cons_of_mem v hmem, hfound⟩
    · next hfound => exact ⟨v, mem_cons_self, hfound⟩
    · cases h

end Outputs

section Accepted

variable {CKey CPubKey : Type} {c : Crypto CKey CPubKey} {ripemd160 : Bytes → Uint160} {env : ValidateEnv}
  {m : SecureMessage} {pPayload : Bytes}

/-- What an accepted paid message has shown: its bytes are all there, and the transaction that it
names is in the active chain and has an output that funds it. -/
structure Funded (ripemd160 : Bytes → Uint160) (env : ValidateEnv) (m : SecureMessage) (pPayload : Bytes)
    (v : CTxOut) : Prop where
  length_le : m.nPayload.toNat ≤ pPayload.length ∧ pPayload.length ≤ smsgMaxMsgBytesPaid
  output : ∃ msgId, hashMsg ripemd160 m pPayload (hashedLength m) = .ok msgId ∧
    checkFundingOutput ripemd160 m pPayload msgId v = .found
  transaction : ∃ txid tx hashBlock nHeight, getFundingTxid pPayload m.nPayload.toNat = some txid ∧
    env.getTransaction txid = some (tx, hashBlock) ∧ isCoinBase tx = false ∧
    env.activeBlock hashBlock = some nHeight ∧ nHeight ≤ env.activeHeight ∧ v ∈ tx.vout

theorem fundingTransaction_eq_some {txid : Uint256} {tx : Evo.CTransaction}
    (h : fundingTransaction env txid = some tx) :
    ∃ hashBlock nHeight, env.getTransaction txid = some (tx, hashBlock) ∧ isCoinBase tx = false ∧
      env.activeBlock hashBlock = some nHeight ∧ nHeight ≤ env.activeHeight := by
  unfold fundingTransaction at h
  split at h
  · cases h
  · next txOut hashBlock htx =>
    split_ifs at h with hnull hcoinbase
    cases hblock : env.activeBlock hashBlock with
    | none => simp [hblock] at h
    | some nHeight =>
      simp only [hblock] at h
      split_ifs at h with hdepth
      cases h
      exact ⟨hashBlock, nHeight, htx, by simpa using hcoinbase, hblock, by omega⟩

theorem funded_of_validatePaid (hsize : pPayload.length ≤ smsgMaxMsgBytesPaid)
    (h : validatePaid ripemd160 env m pPayload = .done ()) : ∃ v, Funded ripemd160 env m pPayload v := by
  unfold validatePaid at h
  dsimp only at h
  split_ifs at h with htime httl hexpired hshort hlong
  · split at h <;> cases h
  · split at h
    · cases h
    · next msgId hhash =>
      split at h
      · cases h
      · next tx htx =>
        obtain ⟨txid, htxid, htx⟩ := Option.bind_eq_some_iff.mp htx
        obtain ⟨hashBlock, nHeight, hget, hcoinbase, hblock, hheight⟩ := fundingTransaction_eq_some htx
        split at h
        · next hfound =>
          obtain ⟨v, hmem, hcheck⟩ := exists_of_findFunding hfound
          exact ⟨v, ⟨by omega, hsize⟩, ⟨msgId, hhash, hcheck⟩,
            txid, tx, hashBlock, nHeight, htxid, hget, hcoinbase, hblock, hheight, hmem⟩
        · cases h

theorem funded_of_validate (hpaid : m.isPaidVersion = true) (h : validate c ripemd160 env m pPayload = .done ()) :
    ∃ v, Funded ripemd160 env m pPayload v := by
  unfold validate at h
  dsimp only at h
  split_ifs at h with hsize hzero htime
  exact funded_of_validatePaid (by omega) h

theorem Funded.expectFee_eq {v : CTxOut} (h : Funded ripemd160 env m pPayload v) :
    expectFee m = messageFee (smsgHdrLen + m.nPayload.toNat) m.nDaysRetention := by
  have hsum : (BitVec.ofNat 32 smsgHdrLen + m.nPayload).toNat = smsgHdrLen + m.nPayload.toNat := by
    have hmax := h.length_le
    simp only [smsgMaxMsgBytesPaid] at hmax
    rw [BitVec.toNat_add, BitVec.toNat_ofNat]
    simp only [smsgHdrLen]
    omega
  rw [expectFee, hsum]

/-- The texts that are hashed while a message is checked. -/
def hashedTexts (ripemd160 : Bytes → Uint160) (m : SecureMessage) (pPayload : Bytes) : Set Bytes :=
  {text | text = m.headerBytes ++ pPayload.take (hashedLength m).toNat ∨
    ∃ blindKey msgId, getFundingBlindKey pPayload m.nPayload.toNat = some blindKey ∧
      hashMsg ripemd160 m pPayload (hashedLength m) = .ok msgId ∧
      text = commitmentData blindKey msgId (BitVec.ofNat 32 (expectFee m))}

theorem Funded.length_blindKey {v : CTxOut} (h : Funded ripemd160 env m pPayload v) {blindKey : Bytes}
    (hkey : getFundingBlindKey pPayload m.nPayload.toNat = some blindKey) : blindKey.length = 32 := by
  unfold getFundingBlindKey at hkey
  split_ifs at hkey with hshort
  cases hkey
  have hlen := h.length_le.1
  rw [Bytes.slice, length_take, length_drop]
  omega

theorem commitmentData_inj {blindKey blindKey' : Bytes} {msgId msgId' : Uint160} {fee fee' : BitVec (8 * 4)}
    (hlen : blindKey.length = blindKey'.length)
    (h : commitmentData blindKey msgId fee = commitmentData blindKey' msgId' fee') : msgId = msgId' := by
  obtain ⟨_, hrest⟩ := append_inj h hlen
  obtain ⟨hid, _⟩ := append_inj hrest (by simp)
  exact Bytes.ofBitVec_injective (n := 20) hid

theorem hashMsg_eq_ok {msgId : Uint160} (h : hashMsg ripemd160 m pPayload (hashedLength m) = .ok msgId) :
    msgId = ripemd160 (m.headerBytes ++ pPayload.take (hashedLength m).toNat) := by
  unfold hashMsg at h
  split_ifs at h
  cases h
  rfl

theorem timestamp_eq_of_headerBytes {m' : SecureMessage} (h : m.headerBytes = m'.headerBytes) :
    m.timestamp = m'.timestamp := by
  obtain ⟨_, hbody⟩ := append_inj h (by simp)
  obtain ⟨_, hrest⟩ := append_inj hbody rfl
  obtain ⟨htime, _⟩ := append_inj hrest (by simp)
  exact Int64.toBitVec_inj.mp (Bytes.ofBitVec_injective (n := 8) htime)

theorem getMsgID_eq {msgId : Uint160} (h : hashMsg ripemd160 m pPayload (hashedLength m) = .ok msgId) :
    getMsgID ripemd160 m pPayload = (Bytes.ofBitVec 8 m.timestamp.toBitVec).reverse ++ Bytes.ofBitVec 20 msgId := by
  rw [getMsgID, h]

/-- An output funds messages of one id only. -/
theorem Funded.msgID_unique {env' : ValidateEnv} {m' : SecureMessage} {pPayload' : Bytes} {v : CTxOut}
    (h : Funded ripemd160 env m pPayload v) (h' : Funded ripemd160 env' m' pPayload' v)
    (hinj : Set.InjOn ripemd160 (hashedTexts ripemd160 m pPayload ∪ hashedTexts ripemd160 m' pPayload')) :
    getMsgID ripemd160 m pPayload = getMsgID ripemd160 m' pPayload' := by
  obtain ⟨msgId, hhash, hcheck⟩ := h.output
  obtain ⟨msgId', hhash', hcheck'⟩ := h'.output
  have hid : msgId = msgId' := by
    obtain ⟨_, _, ⟨hkind, hplain⟩ | ⟨hkind, blindKey, hkey, hcommit⟩⟩ := checkFundingOutput_eq_found hcheck
    · obtain ⟨_, _, ⟨_, hplain'⟩ | ⟨hkind', _⟩⟩ := checkFundingOutput_eq_found hcheck'
      · exact hplain.symm.trans hplain'
      · cases hkind.symm.trans hkind'
    · obtain ⟨_, _, ⟨hkind', _⟩ | ⟨_, blindKey', hkey', hcommit'⟩⟩ := checkFundingOutput_eq_found hcheck'
      · cases hkind.symm.trans hkind'
      · have htexts := hinj (.inl (.inr ⟨blindKey, msgId, hkey, hhash, rfl⟩))
          (.inr (.inr ⟨blindKey', msgId', hkey', hhash', rfl⟩)) (hcommit.symm.trans hcommit')
        exact commitmentData_inj ((h.length_blindKey hkey).trans (h'.length_blindKey hkey').symm) htexts
  -- equal hashes come from equal headers, and the header holds the timestamp
  have hsame : ripemd160 (m.headerBytes ++ pPayload.take (hashedLength m).toNat) =
      ripemd160 (m'.headerBytes ++ pPayload'.take (hashedLength m').toNat) := by
    rw [← hashMsg_eq_ok hhash, ← hashMsg_eq_ok hhash', hid]
  obtain ⟨hheader, _⟩ := append_inj (hinj (.inl (.inl rfl)) (.inr (.inl rfl)) hsame)
    (m.length_headerBytes.trans m'.length_headerBytes.symm)
  rw [getMsgID_eq hhash, getMsgID_eq hhash', timestamp_eq_of_headerBytes hheader, hid]

/-- Paid messages are sound: an accepted one has burnt its fee in a confirmed output that commits to
its id, and no output can be used for two ids. -/
theorem validate_paid_sound (c : Crypto CKey CPubKey) (ripemd160 : Bytes → Uint160) :
    (∀ (env : ValidateEnv) (m : SecureMessage) (pPayload : Bytes), m.isPaidVersion = true →
      validate c ripemd160 env m pPayload = .done () →
      ∃ v msgId, Funded ripemd160 env m pPayload v ∧
        hashMsg ripemd160 m pPayload (hashedLength m) = .ok msgId ∧ CommitsTo ripemd160 v msgId ∧
        (messageFee (smsgHdrLen + m.nPayload.toNat) m.nDaysRetention : Int) ≤ v.nValue) ∧
    ∀ (env env' : ValidateEnv) (m m' : SecureMessage) (pPayload pPayload' : Bytes) (v : CTxOut),
      Set.InjOn ripemd160 (hashedTexts ripemd160 m pPayload ∪ hashedTexts ripemd160 m' pPayload') →
      Funded ripemd160 env m pPayload v → Funded ripemd160 env' m' pPayload' v →
      getMsgID ripemd160 m pPayload = getMsgID ripemd160 m' pPayload' := by
  refine ⟨fun env m pPayload hpaid haccept => ?_, fun _ _ _ _ _ _ _ hinj h h' => h.msgID_unique h' hinj⟩
  obtain ⟨v, hfunded⟩ := funded_of_validate hpaid haccept
  obtain ⟨msgId, hhash, hcheck⟩ := hfunded.output
  obtain ⟨_, hfee, _⟩ := checkFundingOutput_eq_found hcheck
  exact ⟨v, msgId, hfunded, hhash, commitsTo_of_found hcheck, hfunded.expectFee_eq ▸ hfee⟩

end Accepted

def lowBytes (text : Bytes) : Uint160 :=
  BitVec.ofNat 160 (Bytes.toNat text)

def samplePaid : SecureMessage :=
  { emptyMessage with version := (3, 0), nonce := 1#32, nPayload := 122#32 }

def samplePayload : Bytes := List.replicate 122 0

def sampleFunding : CTxOut where
  nValue := 11300
  scriptPubKey := fundingScript lowBytes samplePaid [] (lowBytes (samplePaid.headerBytes ++ List.replicate 90 0))

/-- A node that has the funding output in block 5 of its chain. -/
def sampleValidateEnv : ValidateEnv where
  chain := .main
  nPaidSmsgTime := 0
  now := 100
  getTransaction _ := some ({ hash := 0#256, vout := [sampleFunding] }, 1#256)
  activeHeight := 6
  activeBlock _ := some 5

/-- The same message, which names its funding transaction by another id. -/
def otherPayload : Bytes := List.replicate 90 0 ++ List.replicate 32 1

set_option maxRecDepth 4000 in
theorem lowBytes_injOn_sample : Set.InjOn lowBytes
    (hashedTexts lowBytes samplePaid samplePayload ∪ hashedTexts lowBytes samplePaid otherPayload) := by
  have htwo : hashedTexts lowBytes samplePaid samplePayload ∪ hashedTexts lowBytes samplePaid otherPayload ⊆
      {samplePaid.headerBytes ++ replicate 90 0, commitmentData (replicate 32 0)
        (lowBytes (samplePaid.headerBytes ++ replicate 90 0)) 11300#32} := by
    rintro text ((rfl | ⟨blindKey, msgId, hkey, hhash, rfl⟩) | (rfl | ⟨blindKey, msgId, hkey, hhash, rfl⟩))
    · exact .inl rfl
    · cases hkey
      cases hashMsg_eq_ok hhash
      exact .inr rfl
    · exact .inl rfl
    · cases hkey
      cases hashMsg_eq_ok hhash
      exact .inr rfl
  exact (Set.injOn_pair.mpr fun heq => absurd heq (by decide +kernel)).mono htwo

theorem eq_sampleFunding {pPayload : Bytes} {v : CTxOut} (h : Funded lowBytes sampleValidateEnv samplePaid pPayload v) :
    v = sampleFunding := by
  obtain ⟨txid, tx, hashBlock, nHeight, -, htx, -, -, -, hv⟩ := h.transaction
  cases htx
  exact mem_singleton.mp hv

theorem validate_paid_sound_sample : samplePayload ≠ otherPayload ∧
    validate plainCrypto lowBytes sampleValidateEnv samplePaid samplePayload = .done () ∧
    validate plainCrypto lowBytes sampleValidateEnv samplePaid otherPayload = .done () ∧
    ∃ v msgId, Funded lowBytes sampleValidateEnv samplePaid samplePayload v ∧
      Funded lowBytes sampleValidateEnv samplePaid otherPayload v ∧ CommitsTo lowBytes v msgId ∧ (11300 : Int) ≤ v.nValue ∧
      getMsgID lowBytes samplePaid samplePayload = getMsgID lowBytes samplePaid otherPayload := by
  have haccept : validate plainCrypto lowBytes sampleValidateEnv samplePaid samplePayload = .done () ∧
      validate plainCrypto lowBytes sampleValidateEnv samplePaid otherPayload = .done () := by decide +kernel
  obtain ⟨hsound, hunique⟩ := validate_paid_sound plainCrypto lowBytes
  obtain ⟨v, msgId, hfunded, _, hcommits, hfee⟩ := hsound sampleValidateEnv samplePaid samplePayload rfl haccept.1
  obtain ⟨v', -, hfunded', -⟩ := hsound sampleValidateEnv samplePaid otherPayload rfl haccept.2
  obtain rfl : v' = v := (eq_sampleFunding hfunded').trans (eq_sampleFunding hfunded).symm
  exact ⟨by decide +kernel, haccept.1, haccept.2, v', msgId, hfunded, hfunded', hcommits, hfee,
    hunique sampleValidateEnv sampleValidateEnv _ _ _ _ v' lowBytes_injOn_sample hfunded hfunded'⟩

end OmegaCore.Smsg
