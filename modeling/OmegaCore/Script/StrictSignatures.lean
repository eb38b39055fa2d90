import OmegaCore.Script.FlagOrder

/-!
Strict signatures under DERSIG and LOW_S.  With Schnorr signatures enabled the encoding check lets every
signature of 65 bytes pass, but only OP_CHECKSIG then verifies it as a Schnorr one; the others hand it to
the lax parser.  A spend in which no strictly encoded signature is taken for a Schnorr one, having integers
of 58 bytes together, stays valid.
-/

namespace OmegaCore.Script

open Util Util.Logged

variable (F : ScriptFlags) (sig : Valtype) (m : Machine)

/-- Encoded strictly, with a low S value where the flags ask for one. -/
def StrictSig : Prop :=
  isValidSignatureEncoding sig = true ∧ (F.lowS = true → isLowSignature sig = true)

/-- The encoding check of a signature that it takes for a Schnorr one is the hash type alone. -/
def takesShortcut : Bool :=
  F.enableSchnorr && isSchnorrSignature sig

/-- A signature that is verified as ECDSA with success is strict. -/
def StrictCheck (c : SigCheck) : Prop :=
  c.algorithm = .ecdsa → c.success = true → c.sig ≠ [] → StrictSig F c.sig

/-- The signatures that an instruction can only verify as ECDSA: those of an executed OP_CHECKDATASIG or
OP_CHECKMULTISIG. -/
def ecdsaOperands : Instr → List Valtype
  | .bad => []
  | .op opcode _ _ =>
    if m.fExec then
      match Op.ofOpcode opcode with
      | .checkDataSig _ => (m.stack.drop 2).take 1
      | .checkMultiSig _ =>
        match multiSigArgs F (countOp opcode m.nOpCount) m.stack with
        | .ok args => args.sigs
        | .error _ => []
      | _ => []
    else []

/-- No such signature takes the shortcut without being strict. -/
def NoLaxSig (i : Instr) : Prop :=
  ∀ sig ∈ ecdsaOperands F m i, takesShortcut F sig = true → StrictSig F sig

instance decidableStrictSig : Decidable (StrictSig F sig) :=
  inferInstanceAs (Decidable (_ ∧ _))

instance decidableNoLaxSig (i : Instr) : Decidable (NoLaxSig F m i) :=
  inferInstanceAs (Decidable (∀ sig ∈ ecdsaOperands F m i, takesShortcut F sig = true → StrictSig F sig))

variable {H : Crypto} {C : SignatureChecker} {F : ScriptFlags} {sigversion : SigVersion}

variable {vchSig vchPubKey : Valtype}

theorem strictSig_of_checkEncodings (hder : F.dersig = true)
    (h : checkEncodings F vchSig vchPubKey = .ok ()) (hne : vchSig ≠ []) (hshort : takesShortcut F vchSig = true → StrictSig F vchSig) :
    StrictSig F vchSig := by
  obtain ⟨u, hsig, -⟩ := bind_eq_ok.mp h
  by_cases hs : takesShortcut F vchSig = true
  · exact hshort hs
  · rw [takesShortcut] at hs
    rw [checkSignatureEncoding, if_neg hne, if_neg hs, hder] at hsig
    simp only [ite_error_eq_ok, Bool.true_or, Bool.true_and, Bool.not_eq_true', Bool.not_eq_false] at hsig
    refine ⟨hsig.1, ?_⟩
    intro hlow
    have hhigh := hsig.2.2.1
    rw [hlow, Bool.true_and, Bool.not_eq_true', Bool.not_eq_false] at hhigh
    exact hhigh

theorem mem_log_verifySig {c c' : SigCheck} (h : c ∈ (verifySig c').log) : c = c' :=
  List.mem_singleton.mp h

/-! ### Opcodes -/

variable {scriptCode : CScript}

theorem checkSigOf_schnorr (h : takesShortcut F vchSig = true) :
    (checkSigOf C F sigversion scriptCode vchSig vchPubKey).algorithm = .schnorr := by
  rw [checkSigOf]
  exact congrArg SigCheck.algorithm (if_pos h)

theorem sig_checkSigOf : (checkSigOf C F sigversion scriptCode vchSig vchPubKey).sig = vchSig := by
  rw [checkSigOf]
  split <;> rfl

variable {verify : Bool} {c : SigCheck}

section

variable (hder : F.dersig = true)

include hder

theorem opCheckSig_strict {codehash : CScript} {stack : Stack}
    (hc : c ∈ (opCheckSig C F sigversion codehash verify stack).log) : StrictCheck F c := by
  match stack with
  | [] | [_] => cases hc
  | vchPubKey :: vchSig :: stack =>
    rcases mem_log_bind hc with hc | ⟨u, henc, hc⟩
    · cases hc
    rcases mem_log_bind hc with hc | ⟨scriptCode, -, hc⟩
    · cases hc
    rcases mem_log_bind hc with hc | ⟨fSuccess, -, hc⟩
    · have heq := mem_log_verifySig hc
      intro halg _ hne
      rw [heq, sig_checkSigOf] at hne ⊢
      apply strictSig_of_checkEncodings hder henc hne
      intro hs
      rw [heq, checkSigOf_schnorr hs] at halg
      cases halg
    · split at hc <;> cases hc

theorem checkDataSig_strict {vchSig hash vchPubKey : Valtype}
    (hshort : takesShortcut F vchSig = true → StrictSig F vchSig)
    (hc : c ∈ (checkDataSig H F vchSig hash vchPubKey).log) : StrictCheck F c := by
  unfold checkDataSig at hc
  split at hc
  · cases hc
  · next hne =>
    split at hc
    · split at hc
      · rw [mem_log_verifySig hc]
        intro halg
        cases halg
      · cases hc
    · rcases mem_log_bind hc with hc | ⟨u, henc, hc⟩
      · cases hc
      · rw [mem_log_verifySig hc]
        intro _ _ _
        exact strictSig_of_checkEncodings hder henc hne hshort

theorem opCheckDataSig_strict {stack : Stack}
    (hshort : ∀ sig ∈ (stack.drop 2).take 1, takesShortcut F sig = true → StrictSig F sig)
    (hc : c ∈ (opCheckDataSig H F verify stack).log) : StrictCheck F c := by
  match stack with
  | [] | [_] | [_, _] => cases hc
  | vchPubKey :: vchMessage :: vchSig :: stack =>
    rcases mem_log_bind hc with hc | ⟨fSuccess, -, hc⟩
    · exact checkDataSig_strict hder (hshort vchSig List.mem_cons_self) hc
    · split at hc <;> cases hc

theorem multiSigLoop_strict {keys sigs : List Valtype}
    (hshort : ∀ sig ∈ sigs, takesShortcut F sig = true → StrictSig F sig)
    (hc : c ∈ (multiSigLoop C F sigversion scriptCode keys sigs).log) : StrictCheck F c := by
  induction keys generalizing sigs with
  | nil => cases sigs <;> cases hc
  | cons vchPubKey keys ih =>
    cases sigs with
    | nil => cases hc
    | cons vchSig sigs =>
      rcases mem_log_bind hc with hc | ⟨u, henc, hc⟩
      · cases hc
      rcases mem_log_bind hc with hc | ⟨fOk, -, hc⟩
      · rw [mem_log_verifySig hc]
        intro _ _ hne
        exact strictSig_of_checkEncodings hder henc hne (hshort vchSig List.mem_cons_self)
      · -- the signatures that are left are among these
        have hleft : ∀ sig ∈ (if fOk then sigs else vchSig :: sigs), takesShortcut F sig = true → StrictSig F sig := by
          intro sig hsig
          apply hshort sig
          cases fOk with
          | true => exact List.mem_cons_of_mem _ hsig
          | false => exact hsig
        generalize (if fOk then sigs else vchSig :: sigs) = left at hc hleft
        dsimp only at hc
        split at hc
        · cases hc
        · exact ih hleft hc

theorem opCheckMultiSig_strict {m : Machine} (hshort : ∀ args, multiSigArgs F m.nOpCount m.stack = .ok args →
      ∀ sig ∈ args.sigs, takesShortcut F sig = true → StrictSig F sig)
    (hc : c ∈ (opCheckMultiSig C F sigversion verify m).log) : StrictCheck F c := by
  rcases mem_log_bind hc with hc | ⟨args, hargs, hc⟩
  · cases hc
  rcases mem_log_bind hc with hc | ⟨scriptCode, -, hc⟩
  · cases hc
  rcases mem_log_bind hc with hc | ⟨fSuccess, -, hc⟩
  · exact multiSigLoop_strict hder (hshort args hargs) hc
  · split at hc
    · cases hc
    · split at hc
      · cases hc
      · split at hc
        · cases hc
        · rcases mem_log_bind hc with hc | ⟨_, -, hc⟩ <;> cases hc

/-! ### Runs -/

theorem step_strict {m : Machine} {i : Instr} (h : NoLaxSig F m i)
    (hc : c ∈ (step H C F sigversion m i).log) : StrictCheck F c := by
  cases i with
  | bad => cases hc
  | op opcode data rest =>
    cases hcheck : checkInstr F sigversion opcode data m with
    | error e =>
      rw [log_step_error hcheck] at hc
      cases hc
    | ok m₁ =>
      rw [log_step hcheck, log_execInstr] at hc
      split at hc
      · next hexec =>
        rw [checkInstr_eq hcheck] at hc hexec
        have hexec' : m.fExec = true := hexec.1
        simp only [NoLaxSig, ecdsaOperands, hexec', if_true] at h
        cases hop : Op.ofOpcode opcode with
        | checkSig verify =>
          rw [hop, execOp, log_bind_of_forall fun _ => rfl] at hc
          exact opCheckSig_strict hder hc
        | checkDataSig verify =>
          rw [hop, execOp, log_bind_of_forall fun _ => rfl] at hc
          rw [hop] at h
          exact opCheckDataSig_strict hder h hc
        | checkMultiSig verify =>
          rw [hop] at hc h
          apply opCheckMultiSig_strict hder _ hc
          intro args hargs
          have hargs' : multiSigArgs F (countOp opcode m.nOpCount) m.stack = .ok args := hargs
          rw [hargs'] at h
          exact h
        | _ => exact absurd hexec.2 (by rw [hop]; exact Bool.false_ne_true)
      · cases hc

end

/-- Where no executed OP_CHECKMULTISIG or OP_CHECKDATASIG takes a signature of 65 bytes that is not strict, every
signature that verifies as ECDSA is strict. -/
theorem ecdsa_strict (H : Crypto) (C : SignatureChecker) (F : ScriptFlags) (hder : F.dersig = true) :
    (∀ sigversion stack script, EvalMeets H C F (NoLaxSig F) sigversion stack script →
      ∀ c ∈ (evalScript H C F sigversion stack script).log, StrictCheck F c) ∧
    ∀ scriptSig scriptPubKey, VerifyMeets H C F (NoLaxSig F) scriptSig scriptPubKey →
      ∀ c ∈ (verifyScript H C F scriptSig scriptPubKey).log, StrictCheck F c := by
  constructor
  · intro sigversion stack script h
    exact evalScript_log (fun m i hi c hc => step_strict hder hi hc) h
  · intro scriptSig scriptPubKey h
    exact verifyScript_log (fun m i hi c hc => step_strict hder hi hc) h

/-! ### Samples -/

def sampleKey : Valtype :=
  2 :: List.replicate 32 1

/-- Two integers of 29 bytes with the hash type SIGHASH_ALL, 65 bytes in all. -/
def sampleSig (r s : Valtype) : Valtype :=
  [0x30, 62, 0x02, 29] ++ r ++ [0x02, 29] ++ s ++ [0x01]

def sampleMultiSig : CScript :=
  [0x51] ++ pushScript sampleKey ++ [0x51, 0xae]

/-- The script signature for such an output: the dummy value and the signature. -/
def sampleMultiSigSpend : CScript :=
  0x00 :: pushScript sig

def paddedSig : Valtype :=
  sampleSig (List.replicate 28 0 ++ [1]) (List.replicate 28 0 ++ [1])

def strictSig65 : Valtype :=
  sampleSig (1 :: List.replicate 28 0) (1 :: List.replicate 28 0)

def shortSig : Valtype :=
  [0x30, 6, 0x02, 1, 1, 0x02, 1, 1, 0x01]

theorem ecdsa_strict_sample : standardScriptVerifyFlags.dersig = true ∧
    ∀ c ∈ (verifyScript sampleCrypto (sampleTx.checker sampleCrypto) standardScriptVerifyFlags
      (sampleMultiSigSpend strictSig65) sampleMultiSig).log, StrictCheck standardScriptVerifyFlags c := by
  refine ⟨rfl, (ecdsa_strict sampleCrypto (sampleTx.checker sampleCrypto) standardScriptVerifyFlags rfl).2 _ _ ?_⟩
  have heval : (evalScript sampleCrypto (sampleTx.checker sampleCrypto) standardScriptVerifyFlags .base []
      (sampleMultiSigSpend strictSig65)).result = .ok [strictSig65, []] := by decide +kernel
  constructor
  · decide +kernel
  · intro stack hstack
    cases heval.symm.trans hstack
    decide +kernel
  · intro pubKey stack _ hp2sh
    exact absurd hp2sh (by decide +kernel)

/-- A padded signature verifies under the standard flags. -/
theorem ecdsa_lax : ¬∀ H C F scriptSig scriptPubKey, F.dersig = true →
      ∀ c ∈ (verifyScript H C F scriptSig scriptPubKey).log, StrictCheck F c := by
  intro hall
  have hlog : (verifyScript sampleCrypto (sampleTx.checker sampleCrypto) standardScriptVerifyFlags
      (sampleMultiSigSpend paddedSig) sampleMultiSig).log = [⟨.ecdsa, paddedSig, sampleKey, true⟩] := by decide +kernel
  have hstrict := hall sampleCrypto (sampleTx.checker sampleCrypto) standardScriptVerifyFlags
    (sampleMultiSigSpend paddedSig) sampleMultiSig rfl _ (hlog ▸ List.mem_cons_self) rfl rfl (by decide)
  exact absurd hstrict.1 (by decide +kernel)

def ScriptFlags.withSchnorr (F : ScriptFlags) : ScriptFlags :=
  { F with enableSchnorr := true }

/-- An OP_CHECKSIG with a signature of 65 bytes, or an OP_CHECKDATASIG with one of 64 bytes and a compressed key. -/
def takenForSchnorr : Op → Stack → Bool
  | .checkSig _, _ :: vchSig :: _ => vchSig.length == 65
  | .checkDataSig _, vchPubKey :: _ :: vchSig :: _ => vchSig.length == 64 && vchPubKey.length == CPubKey.compressedSize
  | _, _ => false

/-- The instruction, if executed, takes no signature for a Schnorr one. -/
def NotTakenForSchnorr (m : Machine) : Instr → Prop
  | .bad => True
  | .op opcode _ _ => m.fExec = true → takenForSchnorr (.ofOpcode opcode) m.stack = false

instance decidableNotTakenForSchnorr (m : Machine) (i : Instr) : Decidable (NotTakenForSchnorr m i) :=
  match i with
  | .bad => .isTrue trivial
  | .op opcode _ _ => inferInstanceAs (Decidable (m.fExec = true → takenForSchnorr (.ofOpcode opcode) m.stack = false))

variable {H : Crypto} {C : SignatureChecker} {F : ScriptFlags} {sigversion : SigVersion}

/-! ### Strict signatures and their length -/

/-- The lengths of R and S in a strictly encoded signature. -/
def integerLengths (sig : Valtype) : ℕ × ℕ :=
  ((sig.getD 3 0).toNat, (sig.getD (5 + (sig.getD 3 0).toNat) 0).toNat)

theorem length_of_isValidSignatureEncoding {sig : Valtype} (h : isValidSignatureEncoding sig = true) :
    (integerLengths sig).1 + (integerLengths sig).2 + 7 = sig.length := by
  simp only [isValidSignatureEncoding, Bool.and_eq_true, beq_iff_eq] at h
  exact h.1.1.1.1.2

theorem isSchnorrSignature_iff {sig : Valtype} (h : isValidSignatureEncoding sig = true) :
    isSchnorrSignature sig = true ↔ (integerLengths sig).1 + (integerLengths sig).2 = 58 := by
  have hlen := length_of_isValidSignatureEncoding h
  rw [isSchnorrSignature, beq_iff_eq]
  omega

/-! ### The checks of signatures -/

variable (hoff : F.enableSchnorr = false)

include hoff in
theorem checkEncodings_withSchnorr (vchSig vchPubKey : Valtype) :
    OkLe (checkEncodings F vchSig vchPubKey) (checkEncodings F.withSchnorr vchSig vchPubKey) := by
  have hsig : OkLe (checkSignatureEncoding F vchSig) (checkSignatureEncoding F.withSchnorr vchSig) := by
    intro u h
    by_cases hne : vchSig = []
    · rw [checkSignatureEncoding, if_pos hne]
    · rw [checkSignatureEncoding, if_neg hne, hoff, Bool.false_and, if_neg Bool.false_ne_true] at h
      rw [checkSignatureEncoding, if_neg hne]
      split
      · -- only the hash type is checked, as it was before
        simp only [ite_error_eq_ok] at h
        exact ite_error_eq_ok.mpr ⟨h.2.2.2.1, rfl⟩
      · exact h
  exact .bind hsig fun _ => .refl _

theorem cleanScriptCode_withSchnorr (scriptCode : CScript) (sigs : List Valtype) :
    cleanScriptCode F.withSchnorr sigversion scriptCode sigs = cleanScriptCode F sigversion scriptCode sigs := by
  induction sigs generalizing scriptCode with
  | nil => rfl
  | cons vchSig sigs ih =>
    simp only [cleanScriptCode, ih]
    rfl

variable {vchSig vchPubKey : Valtype}

include hoff in
theorem checkSigOf_off {scriptCode : CScript} : checkSigOf C F sigversion scriptCode vchSig vchPubKey =
      ⟨.ecdsa, vchSig, vchPubKey, C.checkSig vchSig vchPubKey scriptCode sigversion⟩ := by
  rw [checkSigOf, hoff]
  rfl

theorem checkSigOf_withSchnorr {scriptCode : CScript} (h : vchSig.length ≠ 65) :
    checkSigOf C F.withSchnorr sigversion scriptCode vchSig vchPubKey =
      ⟨.ecdsa, vchSig, vchPubKey, C.checkSig vchSig vchPubKey scriptCode sigversion⟩ := by
  rw [checkSigOf, isSchnorrSignature, beq_false_of_ne h, Bool.and_false]
  rfl

/-! ### Steps and runs -/

variable {codehash : CScript} {verify : Bool} {vchPubKey vchSig : Valtype} {stack : Stack}

include hoff in
theorem opCheckSig_withSchnorr (h : vchSig.length ≠ 65) :
    Refines (opCheckSig C F sigversion codehash verify (vchPubKey :: vchSig :: stack))
      (opCheckSig C F.withSchnorr sigversion codehash verify (vchPubKey :: vchSig :: stack)) := by
  apply Refines.bind (Refines.lift (checkEncodings_withSchnorr hoff vchSig vchPubKey))
  intro _ _
  rw [cleanScriptCode_withSchnorr]
  apply Refines.bind (Refines.refl _)
  intro scriptCode _
  rw [checkSigOf_off hoff, checkSigOf_withSchnorr h]
  exact .refl _

include hoff in
theorem opCheckDataSig_withSchnorr {vchPubKey vchMessage vchSig : Valtype}
    (h : (vchSig.length == 64 && vchPubKey.length == CPubKey.compressedSize) = false) :
    Refines (opCheckDataSig H F verify (vchPubKey :: vchMessage :: vchSig :: stack))
      (opCheckDataSig H F.withSchnorr verify (vchPubKey :: vchMessage :: vchSig :: stack)) := by
  have hdata : Refines (checkDataSig H F vchSig (H.sha256 vchMessage) vchPubKey)
      (checkDataSig H F.withSchnorr vchSig (H.sha256 vchMessage) vchPubKey) := by
    rw [checkDataSig, checkDataSig, Bool.and_assoc, Bool.and_assoc, h, Bool.and_false, Bool.and_false, if_neg Bool.false_ne_true,
      if_neg Bool.false_ne_true]
    apply Refines.ite fun _ => Refines.refl _
    intro _
    exact .bind (.lift (checkEncodings_withSchnorr hoff vchSig vchPubKey)) fun _ _ => .refl _
  exact .bind hdata fun _ _ => .refl _

theorem multiSigArgs_withSchnorr (nOpCount : ℕ) (stack : Stack) :
    multiSigArgs F.withSchnorr nOpCount stack = multiSigArgs F nOpCount stack := by
  cases stack <;> rfl

section

variable (hoff : F.enableSchnorr = false)

include hoff

theorem opCheckMultiSig_withSchnorr (verify : Bool) (m : Machine) :
    Refines (opCheckMultiSig C F sigversion verify m) (opCheckMultiSig C F.withSchnorr sigversion verify m) := by
  unfold opCheckMultiSig
  rw [multiSigArgs_withSchnorr]
  apply Refines.bind (Refines.refl _)
  intro args _
  rw [cleanScriptCode_withSchnorr]
  apply Refines.bind (Refines.refl _)
  intro scriptCode _
  exact .bind (multiSigLoop_refines (checkEncodings_withSchnorr hoff) scriptCode args.keys args.sigs)
    fun _ _ => .refl _

theorem execOp_withSchnorr {rest : CScript} {opcode : UInt8} {data : Valtype} {m m₁ : Machine}
    (hm₁ : m₁ = { m with nOpCount := countOp opcode m.nOpCount })
    (hexec : (Op.ofOpcode opcode).isSignature = true → m.fExec = true) (h : NotTakenForSchnorr m (.op opcode data rest)) :
    Refines (execOp H C F sigversion rest (.ofOpcode opcode) m₁)
      (execOp H C F.withSchnorr sigversion rest (.ofOpcode opcode) m₁) := by
  have hstack : m.stack = m₁.stack := by rw [hm₁]
  simp only [NotTakenForSchnorr, hstack] at h
  cases hop : Op.ofOpcode opcode with
  | checkSig verify =>
    rw [hop] at hexec h
    apply Refines.bind _ fun _ _ => Refines.refl _
    match hs : m₁.stack with
    | [] | [_] => exact .refl _
    | vchPubKey :: vchSig :: stack =>
      rw [hs] at h
      exact opCheckSig_withSchnorr hoff (beq_eq_false_iff_ne.mp (h (hexec rfl)))
  | checkDataSig verify =>
    rw [hop] at hexec h
    apply Refines.bind _ fun _ _ => Refines.refl _
    match hs : m₁.stack with
    | [] | [_] | [_, _] => exact .refl _
    | vchPubKey :: vchMessage :: vchSig :: stack =>
      rw [hs] at h
      exact opCheckDataSig_withSchnorr hoff (h (hexec rfl))
  | checkMultiSig verify => exact opCheckMultiSig_withSchnorr hoff verify m₁
  | _ => exact .refl _

theorem step_withSchnorr {m : Machine} {i : Instr} (h : NotTakenForSchnorr m i) :
    Refines (step H C F sigversion m i) (step H C F.withSchnorr sigversion m i) := by
  cases i with
  | bad => exact .refl _
  | op opcode data rest =>
    apply Refines.bind (Refines.refl _)
    intro m₁ hcheck
    have hm₁ := checkInstr_eq (F := F) (m := m) hcheck
    apply Refines.bind _ fun _ _ => Refines.refl _
    apply Refines.ite fun _ => Refines.refl _
    intro _
    apply Refines.ite _ fun _ => Refines.refl _
    intro hrun
    apply execOp_withSchnorr hoff hm₁ _ h
    intro hsig
    rcases hrun with hexec | hctl
    · rw [hm₁] at hexec
      exact hexec
    · exact absurd (opEndIf_lt_of_isSignature hsig) (UInt8.not_lt.mpr hctl.2)

theorem verifyScript_withSchnorr {scriptSig scriptPubKey : CScript}
    (h : VerifyMeets H C F NotTakenForSchnorr scriptSig scriptPubKey)
    (hok : (verifyScript H C F scriptSig scriptPubKey).result = .ok ()) :
    (verifyScript H C F.withSchnorr scriptSig scriptPubKey).result = .ok () := by
  have hstep : ∀ m i, NotTakenForSchnorr m i → Refines (step H C F .base m i) (step H C F.withSchnorr .base m i) :=
    fun m i hi => step_withSchnorr hoff hi
  rw [verifyScript_eq_ok] at hok ⊢
  obtain ⟨hpush, stackCopy, stack, final, hsig, hpub, htop, hp2sh, hclean⟩ := hok
  refine ⟨hpush, stackCopy, stack, final, (evalScript_refines hstep h.inSig).result hsig,
    (evalScript_refines hstep (h.inPubKey stackCopy hsig)).result hpub, htop, ?_, hclean⟩
  have hredeem : Refines (evalP2SH H C F scriptSig scriptPubKey stackCopy stack)
      (evalP2SH H C F.withSchnorr scriptSig scriptPubKey stackCopy stack) := by
    apply Refines.ite _ fun _ => Refines.refl _
    intro hp
    apply Refines.ite fun _ => Refines.refl _
    intro _
    exact evalRedeemScript_refines hstep fun pubKey rest heq => h.inRedeem pubKey rest (heq ▸ hsig) hp
  exact hredeem.result hp2sh

end

/-! ### One OP_CHECKSIG -/

/-- The stack behind an OP_CHECKSIG that accepts the signature. -/
def acceptedStack (verify : Bool) (stack : Stack) : Stack :=
  if verify then stack else vchTrue :: stack

theorem pushResult_eq_accepted {e : ScriptError} {fSuccess : Bool} :
    pushResult verify e fSuccess stack = .ok (acceptedStack verify stack) ↔ fSuccess = true := by
  cases verify <;> cases fSuccess <;> simp [pushResult, acceptedStack, vchBool, vchTrue, vchFalse]

/-- How OP_CHECKSIG accepts a signature. -/
theorem opCheckSig_accepts :
    (opCheckSig C F sigversion codehash verify (vchPubKey :: vchSig :: stack)).result = .ok (acceptedStack verify stack) ↔
      checkEncodings F vchSig vchPubKey = .ok () ∧ ∃ scriptCode,
        cleanScriptCode F sigversion codehash [vchSig] = .ok scriptCode ∧
        (checkSigOf C F sigversion scriptCode vchSig vchPubKey).success = true := by
  have hend : ∀ fSuccess : Bool, (if !fSuccess && F.nullfail && vchSig != [] then fail .sigNullFail
        else lift (pushResult verify .checkSigVerify fSuccess stack) : Eval Stack).result = .ok (acceptedStack verify stack) ↔
        fSuccess = true := by
    intro fSuccess
    cases fSuccess with
    | true => exact pushResult_eq_accepted
    | false =>
      split
      · simp
      · exact pushResult_eq_accepted
  simp only [opCheckSig, result_bind_eq_ok, result_lift, hend, verifySig, Except.ok.injEq, exists_eq_left', Unique.exists_iff]

include hoff in
/-- A signature that OP_CHECKSIG accepts before the fork is accepted behind it if it is not taken for a Schnorr
one, or if it is one. -/
theorem opCheckSig_fork
    (h : (opCheckSig C F sigversion codehash verify (vchPubKey :: vchSig :: stack)).result = .ok (acceptedStack verify stack)) :
    (opCheckSig C F.withSchnorr sigversion codehash verify (vchPubKey :: vchSig :: stack)).result =
        .ok (acceptedStack verify stack) ↔
      (vchSig.length = 65 → ∀ scriptCode, cleanScriptCode F sigversion codehash [vchSig] = .ok scriptCode →
        C.checkSchnorrSig (vchSig.take 64) vchPubKey scriptCode (vchSig.getLastD 0) = true) := by
  rw [opCheckSig_accepts] at h
  obtain ⟨henc, scriptCode, hcode, hsuccess⟩ := h
  rw [checkSigOf_off hoff] at hsuccess
  simp only [opCheckSig_accepts, cleanScriptCode_withSchnorr, hcode, Except.ok.injEq, exists_eq_left', forall_eq',
    checkEncodings_withSchnorr hoff vchSig vchPubKey () henc, true_and]
  by_cases hlen : vchSig.length = 65
  · have hon : (F.withSchnorr.enableSchnorr && isSchnorrSignature vchSig) = true := by
      rw [isSchnorrSignature, hlen]
      rfl
    rw [checkSigOf, if_pos hon]
    simp only [hlen, forall_const]
  · rw [checkSigOf_withSchnorr hlen]
    exact ⟨fun _ h65 => absurd h65 hlen, fun _ => hsuccess⟩

/-- What the fork keeps: a strict signature whose integers do not have 58 bytes together is no Schnorr one, an accepted
signature stays accepted if it is not of 65 bytes or is a Schnorr one, and a spend in which none is taken for a Schnorr one
stays valid. -/
theorem schnorr_fork (H : Crypto) (C : SignatureChecker) (F : ScriptFlags) (hoff : F.enableSchnorr = false) :
    (∀ sig, isValidSignatureEncoding sig = true →
      (isSchnorrSignature sig = false ↔ (integerLengths sig).1 + (integerLengths sig).2 ≠ 58)) ∧
    (∀ sigversion codehash verify vchPubKey vchSig stack,
      (opCheckSig C F sigversion codehash verify (vchPubKey :: vchSig :: stack)).result = .ok (acceptedStack verify stack) →
      ((opCheckSig C F.withSchnorr sigversion codehash verify (vchPubKey :: vchSig :: stack)).result =
          .ok (acceptedStack verify stack) ↔
        (vchSig.length = 65 → ∀ scriptCode, cleanScriptCode F sigversion codehash [vchSig] = .ok scriptCode →
          C.checkSchnorrSig (vchSig.take 64) vchPubKey scriptCode (vchSig.getLastD 0) = true))) ∧
    ∀ scriptSig scriptPubKey, VerifyMeets H C F NotTakenForSchnorr scriptSig scriptPubKey →
      (verifyScript H C F scriptSig scriptPubKey).result = .ok () →
      (verifyScript H C F.withSchnorr scriptSig scriptPubKey).result = .ok () := by
  refine ⟨?_, ?_, ?_⟩
  · intro sig hsig
    rw [← Bool.not_eq_true, isSchnorrSignature_iff hsig]
  · intro sigversion codehash verify vchPubKey vchSig stack h
    exact opCheckSig_fork hoff h
  · intro scriptSig scriptPubKey h hok
    exact verifyScript_withSchnorr hoff h hok

/-! ### Samples -/

def flagsBeforeFork : ScriptFlags :=
  { standardScriptVerifyFlags with enableSchnorr := false }

def samplePubKeyOutput : CScript :=
  pushScript sampleKey ++ [0xac]

theorem schnorr_fork_sample :
    isSchnorrSignature shortSig = false ∧
    (verifyScript sampleCrypto (sampleTx.checker sampleCrypto) flagsBeforeFork.withSchnorr
      (pushScript shortSig) samplePubKeyOutput).result = .ok () := by
  have hfork := schnorr_fork sampleCrypto (sampleTx.checker sampleCrypto) flagsBeforeFork rfl
  refine ⟨(hfork.1 shortSig (by decide +kernel)).mpr (by decide +kernel), hfork.2.2 _ _ ?_ (by decide +kernel)⟩
  have heval : (evalScript sampleCrypto (sampleTx.checker sampleCrypto) flagsBeforeFork .base []
      (pushScript shortSig)).result = .ok [shortSig] := by decide +kernel
  constructor
  · decide +kernel
  · intro stack hstack
    cases heval.symm.trans hstack
    decide +kernel
  · intro pubKey stack _ hp2sh
    exact absurd hp2sh (by decide +kernel)

/-- A strict signature of 65 bytes is taken for a Schnorr one, and its spend fails behind the fork. -/
theorem schnorr_fork_ambiguous :
    (¬∀ sig, isValidSignatureEncoding sig = true → isSchnorrSignature sig = false) ∧
      ¬∀ H C F scriptSig scriptPubKey, F.dersig = true → F.enableSchnorr = false →
        (verifyScript H C F scriptSig scriptPubKey).result = .ok () →
        (verifyScript H C F.withSchnorr scriptSig scriptPubKey).result = .ok () := by
  constructor
  · intro hall
    exact absurd (hall strictSig65 (by decide +kernel)) (by decide +kernel)
  · intro hall
    have hok := hall sampleCrypto (sampleTx.checker sampleCrypto) flagsBeforeFork (pushScript strictSig65) samplePubKeyOutput
      rfl rfl (by decide +kernel)
    exact absurd hok (by decide +kernel)

end OmegaCore.Script
