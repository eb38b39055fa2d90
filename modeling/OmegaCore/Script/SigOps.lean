import OmegaCore.Script.StrictSignatures

/-!
The signatures that a script verifies and its count of signature operations.  The count sees OP_CHECKSIG and
OP_CHECKMULTISIG, but not OP_CHECKDATASIG.
-/

namespace OmegaCore.Script

open Util Util.Logged CScriptNum

def isDataSigOpcode (opcode : UInt8) : Bool :=
  opcode == 0xba || opcode == 0xbb

/-- The script holds one of these opcodes, executed or not. -/
def hasDataSig (script : CScript) : Bool :=
  (instructions script).any fun
    | .op opcode _ _ => isDataSigOpcode opcode
    | .bad => false

/-- None of these opcodes is executed, if the flags enable them. -/
def NoDataSig (F : ScriptFlags) (m : Machine) : Instr → Prop
  | .op opcode _ _ => F.enableDip0020Opcodes = true → m.fExec = true → isDataSigOpcode opcode = false
  | .bad => True

variable {H : Crypto} {C : SignatureChecker} {F : ScriptFlags} {sigversion : SigVersion}

/-! ### Opcodes -/

variable {verify : Bool} {stack : Stack}

theorem length_log_opCheckSig {codehash : CScript} :
    (opCheckSig C F sigversion codehash verify stack).log.length ≤ 1 := by
  match stack with
  | [] | [_] => exact Nat.zero_le 1
  | vchPubKey :: vchSig :: stack =>
    apply length_log_lift_bind_le
    intro _ _
    apply length_log_lift_bind_le
    intro scriptCode _
    rw [log_bind_of_forall]
    · exact Nat.le_refl 1
    · intro fSuccess
      split <;> rfl

theorem length_log_multiSigLoop {scriptCode : CScript} {keys sigs : List Valtype} :
    (multiSigLoop C F sigversion scriptCode keys sigs).log.length ≤ keys.length := by
  induction keys generalizing sigs with
  | nil => cases sigs <;> exact Nat.zero_le 0
  | cons vchPubKey keys ih =>
    cases sigs with
    | nil => exact Nat.zero_le _
    | cons vchSig sigs =>
      apply length_log_lift_bind_le
      intro _ _
      rw [List.length_cons, Nat.add_comm]
      apply length_log_bind_le (Nat.le_refl 1)
      intro fOk _
      dsimp only
      generalize (if fOk then sigs else vchSig :: sigs) = left
      split
      · exact Nat.zero_le _
      · exact ih

theorem length_keys_multiSigArgs {nOpCount : ℕ} {top : Valtype} {s : Stack} {args : MultiSigArgs}
    (h : multiSigArgs F nOpCount (top :: s) = .ok args) :
    args.keys.length ≤ maxPubkeysPerMultisig ∧ args.keys.length ≤ (getint (setVch top)).toNat := by
  obtain ⟨n, hn, h⟩ := bind_eq_ok.mp h
  have hn' : setVch top = n := by
    simp only [ofVch, ite_error_eq_ok] at hn
    exact Except.ok.inj hn.2.2
  obtain ⟨hrange, h⟩ := ite_error_eq_ok.mp h
  obtain ⟨-, h⟩ := ite_error_eq_ok.mp h
  have hkeys : args.keys = s.take (getint n).toNat := by
    split at h
    · cases h
    · obtain ⟨k, -, h⟩ := bind_eq_ok.mp h
      obtain ⟨-, h⟩ := ite_error_eq_ok.mp h
      obtain ⟨-, h⟩ := ite_error_eq_ok.mp h
      cases h
      rfl
  rw [hkeys, hn', List.length_take]
  omega

variable {m : Machine}

theorem length_log_opCheckMultiSig {n : ℕ}
    (h : ∀ args, multiSigArgs F m.nOpCount m.stack = .ok args → args.keys.length ≤ n) :
    (opCheckMultiSig C F sigversion verify m).log.length ≤ n := by
  apply length_log_lift_bind_le
  intro args hargs
  apply length_log_lift_bind_le
  intro scriptCode _
  rw [log_bind_of_forall]
  · exact length_log_multiSigLoop.trans (h args hargs)
  · intro fSuccess
    split
    · rfl
    · split
      · rfl
      · split
        · rfl
        · exact log_bind_of_forall fun _ => rfl

/-! ### The opcode before -/

def isSmallInt (opcode : UInt8) : Prop :=
  op1 ≤ opcode ∧ opcode ≤ op16

variable {opcode : UInt8}

/-- A small number is pushed in a form that is read back. -/
theorem small_spec (h : isSmallInt opcode) : Op.ofOpcode opcode = .pushInt ((opcode.toNat - 0x50 : ℕ) : Int) ∧
    (getint (setVch (serialize ((opcode.toNat - 0x50 : ℕ) : Int)))).toNat =
      opcode.toNat - 0x50 := by
  have hall : ∀ k : Fin 256, op1 ≤ UInt8.ofNat k ∧ UInt8.ofNat k ≤ op16 →
      Op.ofOpcode (UInt8.ofNat k) = .pushInt (((UInt8.ofNat k).toNat - 0x50 : ℕ) : Int) ∧
        (getint (setVch (serialize (((UInt8.ofNat k).toNat - 0x50 : ℕ) : Int)))).toNat =
          (UInt8.ofNat k).toNat - 0x50 := by decide +kernel
  have hop := hall ⟨opcode.toNat, opcode.toNat_lt⟩
  simp only [UInt8.ofNat_toNat] at hop
  exact hop h

/-- Where the last opcode was a small number that was executed, it is on top of the stack. -/
def Follows (lastOpcode : UInt8) (m : Machine) : Prop :=
  isSmallInt lastOpcode → m.fExec = true →
    ∃ s, m.stack = serialize ((lastOpcode.toNat - 0x50 : ℕ) : Int) :: s

variable {data : Valtype} {rest : CScript}

theorem execInstr_small (h : isSmallInt opcode) :
    execInstr H C F sigversion opcode data rest m =
      if m.fExec = true then pure { m with stack := serialize ((opcode.toNat - 0x50 : ℕ) : Int) :: m.stack }
      else pure m := by
  have hpush : ¬opcode ≤ opPushData4 :=
    fun hle => absurd (UInt8.le_trans h.1 hle) (by decide : ¬op1 ≤ opPushData4)
  have hctl : ¬(opIf ≤ opcode ∧ opcode ≤ opEndIf) :=
    fun hc => absurd (UInt8.le_trans hc.1 h.2) (by decide : ¬opIf ≤ op16)
  unfold execInstr
  rw [if_neg (fun hc => hpush hc.2), (small_spec h).1]
  simp only [hctl, or_false]
  rfl

theorem step_follows {m m' : Machine}
    (h : (step H C F sigversion m (.op opcode data rest)).result = .ok m') : Follows opcode m' := by
  intro hsmall hexec
  obtain ⟨m₁, -, h⟩ := result_bind_eq_ok.mp h
  obtain ⟨m₂, hm₂, h⟩ := result_bind_eq_ok.mp h
  have hm' : m₂ = m' := by
    rw [result_lift, checkStackSize, ite_error_eq_ok] at h
    exact Except.ok.inj h.2
  subst hm'
  rw [execInstr_small hsmall] at hm₂
  split at hm₂
  · cases hm₂
    exact ⟨_, rfl⟩
  · next hoff =>
    cases hm₂
    exact absurd hexec hoff

/-! ### Runs -/

theorem sigOpcodes : ∀ p ∈ opcodeTable, ∀ v, (p.2 = .checkSig v → p.1 = 0xac ∨ p.1 = 0xad) ∧
    (p.2 = .checkMultiSig v → p.1 = 0xae ∨ p.1 = 0xaf) ∧ (p.2 = .checkDataSig v → isDataSigOpcode p.1 = true) := by
  decide

theorem enabled_of_checkInstr {m m₁ : Machine} (hop : isDataSigOpcode opcode = true)
    (h : checkInstr F sigversion opcode data m = .ok m₁) : F.enableDip0020Opcodes = true := by
  simp only [checkInstr, ite_error_eq_ok] at h
  have hcontains : dip0020Opcodes.contains opcode = true := by
    rw [isDataSigOpcode, Bool.or_eq_true, beq_iff_eq, beq_iff_eq] at hop
    rcases hop with rfl | rfl <;> rfl
  have hon := h.2.2.1
  rwa [hcontains, Bool.and_true, Bool.not_eq_true', Bool.not_eq_false] at hon

variable {lastOpcode opcode : UInt8}

theorem sigOpsOf_checkMultiSig (h : opcode = 0xae ∨ opcode = 0xaf) :
    sigOpsOf true lastOpcode opcode =
      if op1 ≤ lastOpcode ∧ lastOpcode ≤ op16 then lastOpcode.toNat - 0x50 else maxPubkeysPerMultisig := by
  rcases h with rfl | rfl <;> simp [sigOpsOf]

theorem length_keys_le_sigOpsOf {nOpCount : ℕ} {args : MultiSigArgs}
    (hop : opcode = 0xae ∨ opcode = 0xaf) (hlast : Follows lastOpcode m) (hexec : m.fExec = true)
    (hargs : multiSigArgs F nOpCount m.stack = .ok args) : args.keys.length ≤ sigOpsOf true lastOpcode opcode := by
  rw [sigOpsOf_checkMultiSig hop]
  split
  · next hsmall =>
    obtain ⟨s, hs⟩ := hlast hsmall hexec
    rw [hs] at hargs
    have hle := (length_keys_multiSigArgs hargs).2
    rwa [(small_spec hsmall).2] at hle
  · match hs : m.stack with
    | [] =>
      rw [hs] at hargs
      cases hargs
    | top :: s =>
      rw [hs] at hargs
      exact (length_keys_multiSigArgs hargs).1

/-- An instruction verifies at most as many signatures as are counted for it, unless it is an OP_CHECKDATASIG. -/
theorem length_log_step (hlast : Follows lastOpcode m) (hnone : NoDataSig F m (.op opcode data rest)) :
    (step H C F sigversion m (.op opcode data rest)).log.length ≤ sigOpsOf true lastOpcode opcode := by
  cases hcheck : checkInstr F sigversion opcode data m with
  | error e =>
    rw [log_step_error hcheck]
    exact Nat.zero_le _
  | ok m₁ =>
    rw [log_step hcheck, log_execInstr]
    split
    · next hexec =>
      have hm₁ := checkInstr_eq hcheck
      cases hop : Op.ofOpcode opcode with
      | checkSig verify =>
        rw [execOp, log_bind_of_forall fun _ => rfl, sigOpsOf, if_pos ((sigOpcodes _ (mem_opcodeTable hop (by simp)) verify).1 rfl)]
        exact length_log_opCheckSig
      | checkDataSig verify =>
        have hdata := (sigOpcodes _ (mem_opcodeTable hop (by simp)) verify).2.2 rfl
        rw [hm₁] at hexec
        exact absurd (hdata.symm.trans (hnone (enabled_of_checkInstr hdata hcheck) hexec.1)) (by decide)
      | checkMultiSig verify =>
        rw [execOp]
        apply length_log_opCheckMultiSig
        intro args hargs
        rw [hm₁] at hargs hexec
        have hmulti := (sigOpcodes _ (mem_opcodeTable hop (by simp)) verify).2.1 rfl
        exact length_keys_le_sigOpsOf hmulti hlast hexec.1 hargs
      | _ => exact absurd hexec.2 (by rw [hop]; exact Bool.false_ne_true)
    · exact Nat.zero_le _

theorem length_log_run {lastOpcode : UInt8} (hlast : Follows lastOpcode m) {is : List Instr}
    (h : RunMeets H C F (NoDataSig F) sigversion m is) :
    (run H C F sigversion m is).log.length ≤ sigOpCountFrom true lastOpcode is := by
  induction is generalizing lastOpcode m with
  | nil => exact Nat.zero_le _
  | cons i is ih =>
    cases i with
    | bad => exact Nat.zero_le _
    | op opcode data rest =>
      exact length_log_bind_le (length_log_step hlast h.1) fun m' hm' => ih (step_follows hm') (h.2 m' hm')

theorem follows_startMachine (stack : Stack) (script : CScript) : Follows 0xff (startMachine stack script) :=
  fun hsmall => absurd hsmall.2 (by decide)

theorem length_log_evalScript {script : CScript} (h : EvalMeets H C F (NoDataSig F) sigversion stack script) :
    (evalScript H C F sigversion stack script).log.length ≤ getSigOpCount true script := by
  unfold evalScript
  split
  · exact Nat.zero_le _
  · rw [log_bind_of_forall]
    · exact length_log_run (follows_startMachine stack script) h
    · intro m
      split <;> rfl

theorem noDataSig_of_not_enabled (h : F.enableDip0020Opcodes = false) (m : Machine) (i : Instr) : NoDataSig F m i := by
  cases i with
  | bad => trivial
  | op opcode data rest => exact fun hon => absurd (h.symm.trans hon) Bool.false_ne_true

theorem noDataSig_of_mem {script : CScript} (h : hasDataSig script = false) (m : Machine) {i : Instr}
    (hmem : i ∈ instructions script) : NoDataSig F m i := by
  rw [hasDataSig, List.any_eq_false] at h
  cases i with
  | bad => trivial
  | op opcode data rest => exact fun _ _ => Bool.eq_false_iff.mpr (h _ hmem)

/-! ### One OP_CHECKDATASIG -/

/-- The operands of one OP_CHECKDATASIG, which pass every check of encodings. -/
def dataSigStack : Stack :=
  [sampleKey, [], shortSig]

theorem checkEncodings_sample (F : ScriptFlags) : checkEncodings F shortSig sampleKey = .ok () := by
  have hschnorr : isSchnorrSignature shortSig = false := by decide +kernel
  have hvalid : isValidSignatureEncoding shortSig = true := by decide +kernel
  have hlow : isLowSignature shortSig = true := by decide +kernel
  have htype : isDefinedHashtypeSignature shortSig = true := by decide +kernel
  have hkey : isCompressedOrUncompressedPubKey sampleKey = true := by decide +kernel
  have hsig : checkSignatureEncoding F shortSig = .ok () := by
    simp [checkSignatureEncoding, hschnorr, hvalid, hlow, htype]
  rw [checkEncodings, hsig, checkPubKeyEncoding, hkey]
  simp

theorem length_log_checkDataSig_sample : (checkDataSig H F shortSig (H.sha256 []) sampleKey).log.length = 1 := by
  have hlen : (shortSig.length == 64) = false := by decide
  rw [checkDataSig, if_neg (by decide), hlen, Bool.and_false, Bool.false_and, if_neg Bool.false_ne_true,
    checkEncodings_sample F, lift_ok_bind]
  rfl

theorem length_log_dataSig (hon : F.enableDip0020Opcodes = true) :
    1 ≤ (evalScript H C F sigversion dataSigStack [0xba]).log.length := by
  have hcheck : checkInstr F sigversion 0xba [] (startMachine dataSigStack [0xba]) =
      .ok { startMachine dataSigStack [0xba] with nOpCount := 1 } := by
    simp only [checkInstr, ite_error_eq_ok, hon]
    exact ⟨Nat.not_lt_zero _, by decide, by decide, by decide, fun hc => absurd hc.1 (by decide), rfl⟩
  have hop : Op.ofOpcode 0xba = .checkDataSig false := by decide
  have hinstr : instructions [0xba] = [.op 0xba [] []] := by decide
  have hstep : 1 ≤ (step H C F sigversion (startMachine dataSigStack [0xba]) (.op 0xba [] [])).log.length := by
    rw [log_step hcheck, log_execInstr, hop, if_pos ⟨rfl, rfl⟩, execOp, log_bind_of_forall fun _ => rfl]
    calc 1 = (checkDataSig H F shortSig (H.sha256 []) sampleKey).log.length := length_log_checkDataSig_sample.symm
      _ ≤ _ := length_log_le_bind
  rw [evalScript, if_neg (by decide), hinstr]
  exact hstep.trans (length_log_le_bind.trans length_log_le_bind)

/-- The signatures that scripts verify under a flag set are counted exactly if it does not enable OP_CHECKDATASIG; under
every flag set those of a script are in which none is executed, or none stands. -/
theorem verifications_counted (F : ScriptFlags) :
    ((∀ H C sigversion stack script, (evalScript H C F sigversion stack script).log.length ≤ getSigOpCount true script) ↔
      F.enableDip0020Opcodes = false) ∧
    ∀ H C sigversion stack script,
      EvalMeets H C F (NoDataSig F) sigversion stack script ∨ hasDataSig script = false →
      (evalScript H C F sigversion stack script).log.length ≤ getSigOpCount true script := by
  constructor
  · constructor
    · intro hall
      cases hon : F.enableDip0020Opcodes with
      | false => rfl
      | true =>
        have hle := hall sampleCrypto (sampleTx.checker sampleCrypto) .base dataSigStack [0xba]
        have hcount : getSigOpCount true [0xba] = 0 := by decide
        rw [hcount] at hle
        exact absurd ((length_log_dataSig hon).trans hle) (by decide)
    · intro hoff H C sigversion stack script
      exact length_log_evalScript (runMeets_of_forall (fun m i _ => noDataSig_of_not_enabled hoff m i) _)
  · rintro H C sigversion stack script (hmeets | hnone)
    · exact length_log_evalScript hmeets
    · exact length_log_evalScript (runMeets_of_forall (fun m i hi => noDataSig_of_mem hnone m hi) _)

/-- One OP_CHECKDATASIG under the standard flags. -/
theorem verifications_uncounted : ¬∀ H C F sigversion stack script,
      (evalScript H C F sigversion stack script).log.length ≤ getSigOpCount true script := by
  intro hall
  exact absurd (hall sampleCrypto (sampleTx.checker sampleCrypto) standardScriptVerifyFlags .base dataSigStack [0xba])
    (by decide +kernel)

end OmegaCore.Script
