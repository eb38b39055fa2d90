import OmegaCore.Script.Interpreter

/-!
Rules for whole runs of the interpreter.  A condition on the state before every step is carried
through a run, the evaluation of a script and `VerifyScript`.  By these rules restricting flags only
make scripts fail: every step that succeeds does the same under weaker flags.
-/

namespace OmegaCore.Script

open Util Util.Logged

section Step

variable {H : Crypto} {C : SignatureChecker} {F : ScriptFlags} {sigversion : SigVersion}

variable {opcode : UInt8} {data : Valtype}

theorem checkInstr_eq {m m₁ : Machine} (h : checkInstr F sigversion opcode data m = .ok m₁) :
    m₁ = { m with nOpCount := countOp opcode m.nOpCount } := by
  simp only [checkInstr, ite_error_eq_ok] at h
  exact (Except.ok.inj h.2.2.2.2.2).symm

/-! ### What a step logs -/

def Op.isSignature : Op → Bool
  | .checkSig _ | .checkDataSig _ | .checkMultiSig _ => true
  | _ => false

theorem opEndIf_lt_of_isSignature (h : (Op.ofOpcode opcode).isSignature = true) : opEndIf < opcode := by
  have htable : ∀ p ∈ opcodeTable, p.2.isSignature = true → opEndIf < p.1 := by decide
  refine htable _ (mem_opcodeTable rfl ?_) h
  intro hinv
  rw [hinv] at h
  cases h

variable {rest : CScript} {m : Machine}

theorem log_execOp {op : Op} (h : op.isSignature = false) : (execOp H C F sigversion rest op m).log = [] := by
  cases op with
  | checkSig | checkDataSig | checkMultiSig => cases h
  | _ => rfl

/-- Only an executed opcode for signatures verifies any. -/
theorem log_execInstr :
    (execInstr H C F sigversion opcode data rest m).log =
      if m.fExec = true ∧ (Op.ofOpcode opcode).isSignature = true then
        (execOp H C F sigversion rest (Op.ofOpcode opcode) m).log
      else [] := by
  by_cases hsig : (Op.ofOpcode opcode).isSignature = true
  · have hlt := opEndIf_lt_of_isSignature hsig
    have hpush : ¬opcode ≤ opPushData4 := by
      intro hle
      exact absurd (UInt8.lt_of_lt_of_le hlt hle) (by decide : ¬opEndIf < opPushData4)
    unfold execInstr
    rw [if_neg (fun hc => hpush hc.2)]
    by_cases hexec : m.fExec = true
    · rw [if_pos (.inl hexec), if_pos ⟨hexec, hsig⟩]
    · rw [if_neg (by rintro (hc | hc); exacts [hexec hc, absurd hlt (UInt8.not_lt.mpr hc.2)]), if_neg (fun hc => hexec hc.1)]
      rfl
  · rw [if_neg (fun hc => hsig hc.2)]
    unfold execInstr
    split
    · split <;> rfl
    · split
      · exact log_execOp (Bool.eq_false_iff.mpr hsig)
      · rfl

theorem log_step {m m₁ : Machine} (h : checkInstr F sigversion opcode data m = .ok m₁) :
    (step H C F sigversion m (.op opcode data rest)).log = (execInstr H C F sigversion opcode data rest m₁).log := by
  show (lift (checkInstr F sigversion opcode data m) >>= _ : Eval Machine).log = _
  rw [h, lift_ok_bind]
  exact log_bind_of_forall fun _ => rfl

theorem log_step_error {e : ScriptError}
    (h : checkInstr F sigversion opcode data m = .error e) : (step H C F sigversion m (.op opcode data rest)).log = [] := by
  show (lift (checkInstr F sigversion opcode data m) >>= _ : Eval Machine).log = _
  rw [h, lift_error_bind]
  rfl

end Step

/-! ### Conditions on every step -/

section Meets

variable (H : Crypto) (C : SignatureChecker) (F : ScriptFlags) (P : Machine → Instr → Prop)

/-- Every step of the run meets a condition on the state before it. -/
def RunMeets (sigversion : SigVersion) : Machine → List Instr → Prop
  | _, [] => True
  | m, i :: is => P m i ∧ ∀ m', (step H C F sigversion m i).result = .ok m' → RunMeets sigversion m' is

def EvalMeets (sigversion : SigVersion) (stack : Stack) (script : CScript) : Prop :=
  RunMeets H C F P sigversion (startMachine stack script) (instructions script)

/-- Every step of `VerifyScript` meets the condition, in the script signature, in the output script
and in the redeem script. -/
structure VerifyMeets (scriptSig scriptPubKey : CScript) : Prop where
  inSig : EvalMeets H C F P .base [] scriptSig
  inPubKey : ∀ stack, (evalScript H C F .base [] scriptSig).result = .ok stack →
    EvalMeets H C F P .base stack scriptPubKey
  inRedeem : ∀ pubKey stack, (evalScript H C F .base [] scriptSig).result = .ok (pubKey :: stack) →
    (F.p2sh && scriptPubKey.isPayToScriptHash) = true → EvalMeets H C F P .base stack pubKey

instance decidableRunMeets [∀ m i, Decidable (P m i)] (sigversion : SigVersion) :
    ∀ m is, Decidable (RunMeets H C F P sigversion m is)
  | _, [] => .isTrue trivial
  | m, i :: is =>
    match hr : (step H C F sigversion m i).result with
    | .error _ => decidable_of_iff (P m i)
        ⟨fun h => ⟨h, fun _ hm' => absurd (hr.symm.trans hm') (fun heq => nomatch heq)⟩, And.left⟩
    | .ok m₁ =>
      have := decidableRunMeets sigversion m₁ is
      decidable_of_iff (P m i ∧ RunMeets H C F P sigversion m₁ is)
        ⟨fun h => ⟨h.1, fun _ hm' => Except.ok.inj (hr.symm.trans hm') ▸ h.2⟩, fun h => ⟨h.1, h.2 m₁ hr⟩⟩

instance decidableEvalMeets [∀ m i, Decidable (P m i)] (sigversion : SigVersion) (stack : Stack) (script : CScript) :
    Decidable (EvalMeets H C F P sigversion stack script) :=
  decidableRunMeets H C F P sigversion _ _

end Meets

variable {H : Crypto} {C : SignatureChecker} {F F' : ScriptFlags} {P : Machine → Instr → Prop} {sigversion : SigVersion}

theorem runMeets_of_forall {is : List Instr} (h : ∀ m, ∀ i ∈ is, P m i) (m : Machine) : RunMeets H C F P sigversion m is := by
  induction is generalizing m with
  | nil => trivial
  | cons i is ih =>
    exact ⟨h m i List.mem_cons_self, fun m' _ => ih (fun m i hi => h m i (List.mem_cons_of_mem _ hi)) m'⟩

/-- How `VerifyScript` succeeds. -/
theorem verifyScript_eq_ok {scriptSig scriptPubKey : CScript} :
    (verifyScript H C F scriptSig scriptPubKey).result = .ok () ↔
      (F.sigpushonly && !isPushOnly scriptSig) = false ∧ ∃ stackCopy stack final,
          (evalScript H C F .base [] scriptSig).result = .ok stackCopy ∧
          (evalScript H C F .base stackCopy scriptPubKey).result = .ok stack ∧
          checkTop stack = .ok () ∧
          (evalP2SH H C F scriptSig scriptPubKey stackCopy stack).result = .ok final ∧
          checkCleanStack F final = .ok () := by
  unfold verifyScript
  cases F.sigpushonly && !isPushOnly scriptSig with
  | true => simp
  | false => simp [result_bind_eq_ok, Unique.exists_iff]

/-! ### What a run logs -/

section Log

variable {Q : SigCheck → Prop}

theorem run_log (hstep : ∀ m i, P m i → ∀ c ∈ (step H C F sigversion m i).log, Q c) {m : Machine} {is : List Instr}
    (h : RunMeets H C F P sigversion m is) : ∀ c ∈ (run H C F sigversion m is).log, Q c := by
  induction is generalizing m with
  | nil =>
    intro c hc
    cases hc
  | cons i is ih =>
    intro c hc
    rcases mem_log_bind hc with hc | ⟨m', hm', hc⟩
    · exact hstep m i h.1 c hc
    · exact ih (h.2 m' hm') c hc

theorem evalScript_log (hstep : ∀ m i, P m i → ∀ c ∈ (step H C F sigversion m i).log, Q c) {stack : Stack} {script : CScript}
    (h : EvalMeets H C F P sigversion stack script) : ∀ c ∈ (evalScript H C F sigversion stack script).log, Q c := by
  intro c hc
  unfold evalScript at hc
  split at hc
  · cases hc
  · rcases mem_log_bind hc with hc | ⟨m, -, hc⟩
    · exact run_log hstep h c hc
    · split at hc <;> cases hc

variable {scriptSig scriptPubKey : CScript}

section

variable (hstep : ∀ m i, P m i → ∀ c ∈ (step H C F .base m i).log, Q c) (h : VerifyMeets H C F P scriptSig scriptPubKey)

include hstep h

theorem evalP2SH_log {stackCopy : Stack}
    (hcopy : (evalScript H C F .base [] scriptSig).result = .ok stackCopy) (stack : Stack) :
    ∀ c ∈ (evalP2SH H C F scriptSig scriptPubKey stackCopy stack).log, Q c := by
  intro c hc
  unfold evalP2SH at hc
  split at hc
  · next hp2sh =>
    split at hc
    · cases hc
    · cases stackCopy with
      | nil => cases hc
      | cons pubKey stackCopy =>
        rcases mem_log_bind hc with hc | ⟨s, -, hc⟩
        · exact evalScript_log hstep (h.inRedeem pubKey stackCopy hcopy hp2sh) c hc
        · rcases mem_log_bind hc with hc | ⟨u, -, hc⟩ <;> cases hc
  · cases hc

theorem verifyScript_log : ∀ c ∈ (verifyScript H C F scriptSig scriptPubKey).log, Q c := by
  intro c hc
  unfold verifyScript at hc
  split at hc
  · cases hc
  · rcases mem_log_bind hc with hc | ⟨stackCopy, hcopy, hc⟩
    · exact evalScript_log hstep h.inSig c hc
    · rcases mem_log_bind hc with hc | ⟨stack, -, hc⟩
      · exact evalScript_log hstep (h.inPubKey stackCopy hcopy) c hc
      · rcases mem_log_bind hc with hc | ⟨_, -, hc⟩
        · cases hc
        · rcases mem_log_bind hc with hc | ⟨_, -, hc⟩
          · exact evalP2SH_log hstep h hcopy stack c hc
          · cases hc

end

end Log

/-! ### Two flag sets -/

section Refine

theorem run_refines (hstep : ∀ m i, P m i → Refines (step H C F sigversion m i) (step H C F' sigversion m i))
    {m : Machine} {is : List Instr} (h : RunMeets H C F P sigversion m is) :
    Refines (run H C F sigversion m is) (run H C F' sigversion m is) := by
  induction is generalizing m with
  | nil => exact Refines.refl _
  | cons i is ih => exact Refines.bind (hstep m i h.1) fun m' hm' => ih (h.2 m' hm')

theorem evalScript_refines (hstep : ∀ m i, P m i → Refines (step H C F sigversion m i) (step H C F' sigversion m i))
    {stack : Stack} {script : CScript} (h : EvalMeets H C F P sigversion stack script) :
    Refines (evalScript H C F sigversion stack script) (evalScript H C F' sigversion stack script) := by
  apply Refines.guard id
  exact Refines.bind (run_refines hstep h) fun _ _ => Refines.refl _

theorem evalRedeemScript_refines (hstep : ∀ m i, P m i → Refines (step H C F .base m i) (step H C F' .base m i))
    {stack : Stack} (h : ∀ pubKey rest, stack = pubKey :: rest → EvalMeets H C F P .base rest pubKey) :
    Refines (evalRedeemScript H C F stack) (evalRedeemScript H C F' stack) := by
  cases stack with
  | nil => exact Refines.refl _
  | cons pubKey stack => exact Refines.bind (evalScript_refines hstep (h pubKey stack rfl)) fun _ _ => Refines.refl _

end Refine

/-- `F'` is `F` without some of its restricting flags; CLEANSTACK does not stay without P2SH. -/
structure ScriptFlags.Weakens (F F' : ScriptFlags) : Prop where
  p2sh : F'.p2sh = true → F.p2sh = true
  strictenc : F'.strictenc = true → F.strictenc = true
  dersig : F'.dersig = true → F.dersig = true
  lowS : F'.lowS = true → F.lowS = true
  nulldummy : F'.nulldummy = true → F.nulldummy = true
  sigpushonly : F'.sigpushonly = true → F.sigpushonly = true
  minimaldata : F'.minimaldata = true → F.minimaldata = true
  discourageUpgradableNops : F'.discourageUpgradableNops = true → F.discourageUpgradableNops = true
  cleanstack : F'.cleanstack = true → F.cleanstack = true ∧ F'.p2sh = true
  checklocktimeverify : F'.checklocktimeverify = true → F.checklocktimeverify = true
  checksequenceverify : F'.checksequenceverify = true → F.checksequenceverify = true
  nullfail : F'.nullfail = true → F.nullfail = true
  constScriptcode : F'.constScriptcode = true → F.constScriptcode = true
  enableDip0020Opcodes : F'.enableDip0020Opcodes = F.enableDip0020Opcodes
  enableLargeElements : F'.enableLargeElements = F.enableLargeElements
  enableSchnorr : F'.enableSchnorr = F.enableSchnorr

theorem flag_and {a b c : Bool} (h : b = true → a = true) (hc : (b && c) = true) : (a && c) = true := by
  rw [Bool.and_eq_true] at hc ⊢
  exact ⟨h hc.1, hc.2⟩

theorem okLe_unless {a b : Bool} (h : b = true → a = true) {x y : Except ScriptError Unit} (hxy : OkLe x y) :
    OkLe (if !a then .ok () else x) (if !b then .ok () else y) := by
  intro u hu
  cases b with
  | false => rfl
  | true =>
    rw [h rfl] at hu
    exact hxy u hu

/-- The loop of OP_CHECKMULTISIG only uses the flags for the encodings. -/
theorem multiSigLoop_refines
    (henc : ∀ vchSig vchPubKey, OkLe (checkEncodings F vchSig vchPubKey) (checkEncodings F' vchSig vchPubKey))
    (scriptCode : CScript) (keys sigs : List Valtype) :
    Refines (multiSigLoop C F sigversion scriptCode keys sigs) (multiSigLoop C F' sigversion scriptCode keys sigs) := by
  induction keys generalizing sigs with
  | nil => cases sigs <;> exact .refl _
  | cons vchPubKey keys ih =>
    cases sigs with
    | nil => exact .refl _
    | cons vchSig sigs =>
      apply Refines.bind (Refines.lift (henc vchSig vchPubKey))
      intro _ _
      apply Refines.bind (Refines.refl _)
      intro fOk _
      exact .ite (fun _ => .refl _) fun _ => ih _

/-! ### Numbers and encodings -/

section

variable (h : F.Weakens F')

include h

theorem ofVch_okLe (vch : Valtype) (n : ℕ) :
    OkLe (CScriptNum.ofVch vch F.minimaldata n) (CScriptNum.ofVch vch F'.minimaldata n) := by
  unfold CScriptNum.ofVch
  apply OkLe.guard id
  exact OkLe.guard (flag_and h.minimaldata) (OkLe.refl _)

theorem maxElementSize_eq : maxElementSize F' = maxElementSize F := by
  rw [maxElementSize, maxElementSize, h.enableLargeElements]

theorem checkSignatureEncoding_okLe (vchSig : Valtype) :
    OkLe (checkSignatureEncoding F vchSig) (checkSignatureEncoding F' vchSig) := by
  have hder : (F'.dersig || F'.lowS || F'.strictenc) = true → (F.dersig || F.lowS || F.strictenc) = true := by
    simp only [Bool.or_eq_true]
    rintro ((hd | hl) | hs)
    · exact .inl (.inl (h.dersig hd))
    · exact .inl (.inr (h.lowS hl))
    · exact .inr (h.strictenc hs)
  unfold checkSignatureEncoding
  rw [h.enableSchnorr]
  split
  · exact .refl _
  · split
    · exact .guard (flag_and h.strictenc) (.refl _)
    · apply OkLe.guard (flag_and hder)
      apply OkLe.guard (flag_and h.lowS)
      apply OkLe.guard (flag_and h.lowS)
      exact OkLe.guard (flag_and h.strictenc) (OkLe.refl _)

theorem checkEncodings_okLe (vchSig vchPubKey : Valtype) :
    OkLe (checkEncodings F vchSig vchPubKey) (checkEncodings F' vchSig vchPubKey) := by
  apply OkLe.bind (checkSignatureEncoding_okLe h vchSig)
  intro _
  exact .guard (flag_and h.strictenc) (.refl _)

theorem cleanScriptCode_okLe (scriptCode : CScript) (sigs : List Valtype) :
    OkLe (cleanScriptCode F sigversion scriptCode sigs) (cleanScriptCode F' sigversion scriptCode sigs) := by
  induction sigs generalizing scriptCode with
  | nil => exact .refl _
  | cons vchSig sigs ih =>
    rw [cleanScriptCode, cleanScriptCode]
    split
    · exact .guard (fun hc => ⟨hc.1, h.constScriptcode hc.2⟩) (ih _)
    · exact ih _

/-! ### Opcodes -/

theorem opUnary_okLe (op : UnaryOp) (stack : Stack) :
    OkLe (opUnary F.minimaldata op stack) (opUnary F'.minimaldata op stack) := by
  match stack with
  | [] => exact .refl _
  | x :: _ => exact .bind (ofVch_okLe h x _) fun _ => .refl _

theorem opBinary_okLe (op : BinaryOp) (stack : Stack) :
    OkLe (opBinary F.minimaldata op stack) (opBinary F'.minimaldata op stack) := by
  match stack with
  | [] | [_] => exact .refl _
  | x2 :: x1 :: _ =>
    apply OkLe.bind (ofVch_okLe h x1 _)
    intro _
    exact .bind (ofVch_okLe h x2 _) fun _ => .refl _

variable (stack : Stack)

theorem opWithin_okLe : OkLe (opWithin F.minimaldata stack) (opWithin F'.minimaldata stack) := by
  match stack with
  | [] | [_] | [_, _] => exact .refl _
  | x3 :: x2 :: x1 :: _ =>
    apply OkLe.bind (ofVch_okLe h x1 _)
    intro _
    apply OkLe.bind (ofVch_okLe h x2 _)
    intro _
    exact .bind (ofVch_okLe h x3 _) fun _ => .refl _

theorem stackOp_okLe (op : Op) (stack : Stack) : OkLe (stackOp H F op stack) (stackOp H F' op stack) := by
  simp only [stackOp, maxElementSize_eq h]
  cases op with
  | unary op => exact opUnary_okLe h op stack
  | binary op => exact opBinary_okLe h op stack
  | within => exact opWithin_okLe h stack
  | pick | roll | split | num2bin =>
    -- the four read one number from the top of at least two elements
    match stack with
    | [] | [_] => exact .refl _
    | x :: _ :: _ => exact .bind (ofVch_okLe h x _) fun _ => .refl _
  | _ => exact .refl _

theorem opCheckLockTimeVerify_okLe : OkLe (opCheckLockTimeVerify C F stack) (opCheckLockTimeVerify C F' stack) := by
  apply okLe_unless h.checklocktimeverify
  cases stack with
  | nil => exact .refl _
  | cons x stack => exact .bind (ofVch_okLe h x 5) fun _ => .refl _

theorem opCheckSequenceVerify_okLe : OkLe (opCheckSequenceVerify C F stack) (opCheckSequenceVerify C F' stack) := by
  apply okLe_unless h.checksequenceverify
  cases stack with
  | nil => exact .refl _
  | cons x stack => exact .bind (ofVch_okLe h x 5) fun _ => .refl _

theorem plainOp_okLe (rest : CScript) (op : Op) (m : Machine) :
    OkLe (plainOp H C F rest op m) (plainOp H C F' rest op m) := by
  cases op with
  | checkLockTimeVerify => exact .bind (opCheckLockTimeVerify_okLe h m.stack) fun _ => .refl _
  | checkSequenceVerify => exact .bind (opCheckSequenceVerify_okLe h m.stack) fun _ => .refl _
  | upgradableNop => exact .guard h.discourageUpgradableNops (.refl _)
  | nop | opIf | opNotIf | opElse | opEndIf | opReturn | toAltStack | fromAltStack | codeSeparator | invalid =>
    exact .refl _
  | _ => exact .bind (stackOp_okLe h _ m.stack) fun _ => .refl _

/-! ### Signatures -/

theorem checkSigOf_eq (scriptCode : CScript) (vchSig vchPubKey : Valtype) :
    checkSigOf C F' sigversion scriptCode vchSig vchPubKey = checkSigOf C F sigversion scriptCode vchSig vchPubKey := by
  rw [checkSigOf, checkSigOf, h.enableSchnorr]

theorem nullfail_guard {fSuccess c : Bool} (hc : (!fSuccess && F'.nullfail && c) = true) :
    (!fSuccess && F.nullfail && c) = true := by
  simp only [Bool.and_eq_true] at hc ⊢
  exact ⟨⟨hc.1.1, h.nullfail hc.1.2⟩, hc.2⟩

theorem opCheckSig_refines (codehash : CScript) (verify : Bool) (stack : Stack) :
    Refines (opCheckSig C F sigversion codehash verify stack) (opCheckSig C F' sigversion codehash verify stack) := by
  match stack with
  | [] | [_] => exact .refl _
  | vchPubKey :: vchSig :: stack =>
    apply Refines.bind (Refines.lift (checkEncodings_okLe h vchSig vchPubKey))
    intro _ _
    apply Refines.bind (Refines.lift (cleanScriptCode_okLe h codehash [vchSig]))
    intro scriptCode _
    rw [checkSigOf_eq h]
    apply Refines.bind (Refines.refl _)
    intro fSuccess _
    exact .guard (nullfail_guard h) (.refl _)

theorem checkDataSig_refines (vchSig hash vchPubKey : Valtype) :
    Refines (checkDataSig H F vchSig hash vchPubKey) (checkDataSig H F' vchSig hash vchPubKey) := by
  unfold checkDataSig
  rw [h.enableSchnorr]
  split
  · exact .refl _
  · split
    · exact .refl _
    · exact .bind (.lift (checkEncodings_okLe h vchSig vchPubKey)) fun _ _ => .refl _

theorem opCheckDataSig_refines (verify : Bool) (stack : Stack) :
    Refines (opCheckDataSig H F verify stack) (opCheckDataSig H F' verify stack) := by
  match stack with
  | [] | [_] | [_, _] => exact .refl _
  | vchPubKey :: vchMessage :: vchSig :: stack =>
    apply Refines.bind (checkDataSig_refines h vchSig _ vchPubKey)
    intro fSuccess _
    exact .guard (nullfail_guard h) (.refl _)

theorem multiSigArgs_okLe (nOpCount : ℕ) (stack : Stack) :
    OkLe (multiSigArgs F nOpCount stack) (multiSigArgs F' nOpCount stack) := by
  cases stack with
  | nil => exact .refl _
  | cons top s =>
    apply OkLe.bind (ofVch_okLe h top _)
    intro n
    apply OkLe.guard id
    apply OkLe.guard id
    split
    · exact .refl _
    · next num s' _ => exact .bind (ofVch_okLe h num _) fun _ => .refl _

theorem opCheckMultiSig_refines (verify : Bool) (m : Machine) :
    Refines (opCheckMultiSig C F sigversion verify m) (opCheckMultiSig C F' sigversion verify m) := by
  apply Refines.bind (Refines.lift (multiSigArgs_okLe h m.nOpCount m.stack))
  intro args _
  apply Refines.bind (Refines.lift (cleanScriptCode_okLe h m.codehash args.sigs))
  intro scriptCode _
  apply Refines.bind (multiSigLoop_refines (checkEncodings_okLe h) scriptCode args.keys args.sigs)
  intro fSuccess _
  apply Refines.guard (nullfail_guard h)
  split
  · exact Refines.refl _
  · exact .guard (flag_and h.nulldummy) (.refl _)

/-! ### Runs -/

theorem checkInstr_okLe (opcode : UInt8) (data : Valtype) (m : Machine) :
    OkLe (checkInstr F sigversion opcode data m) (checkInstr F' sigversion opcode data m) := by
  simp only [checkInstr, maxElementSize_eq h, h.enableDip0020Opcodes]
  iterate 4 apply OkLe.guard id
  exact .guard (fun hc => ⟨hc.1, hc.2.1, h.constScriptcode hc.2.2⟩) (.refl _)

theorem execOp_refines (rest : CScript) (op : Op) (m : Machine) :
    Refines (execOp H C F sigversion rest op m) (execOp H C F' sigversion rest op m) := by
  cases op with
  | checkSig verify => exact .bind (opCheckSig_refines h m.codehash verify m.stack) fun _ _ => .refl _
  | checkDataSig verify => exact .bind (opCheckDataSig_refines h verify m.stack) fun _ _ => .refl _
  | checkMultiSig verify => exact opCheckMultiSig_refines h verify m
  | _ => exact .lift (plainOp_okLe h rest _ m)

theorem execInstr_refines (opcode : UInt8) (data : Valtype) (rest : CScript) (m : Machine) :
    Refines (execInstr H C F sigversion opcode data rest m) (execInstr H C F' sigversion opcode data rest m) := by
  unfold execInstr
  split
  · exact .guard (flag_and h.minimaldata) (.refl _)
  · split
    · exact execOp_refines h rest _ m
    · exact .refl _

theorem step_refines (m : Machine) (i : Instr) : Refines (step H C F sigversion m i) (step H C F' sigversion m i) := by
  cases i with
  | bad => exact .refl _
  | op opcode data rest =>
    apply Refines.bind (Refines.lift (checkInstr_okLe h opcode data m))
    intro m₁ _
    exact .bind (execInstr_refines h opcode data rest m₁) fun _ _ => .refl _

theorem evalScript_weakens (script : CScript) :
    Refines (evalScript H C F sigversion stack script) (evalScript H C F' sigversion stack script) :=
  evalScript_refines (P := fun _ _ => True) (fun m i _ => step_refines h m i) (runMeets_of_forall (fun _ _ _ => trivial) _)

theorem evalRedeemScript_weakens : Refines (evalRedeemScript H C F stack) (evalRedeemScript H C F' stack) :=
  evalRedeemScript_refines (P := fun _ _ => True) (fun m i _ => step_refines h m i)
    fun _ _ _ => runMeets_of_forall (fun _ _ _ => trivial) _

/-- Without P2SH there is nothing left to evaluate. -/
theorem evalP2SH_weakens {scriptSig scriptPubKey : CScript} {stackCopy stack final : Stack}
    (hok : (evalP2SH H C F scriptSig scriptPubKey stackCopy stack).result = .ok final)
    (hclean : checkCleanStack F final = .ok ()) :
    ∃ final', (evalP2SH H C F' scriptSig scriptPubKey stackCopy stack).result = .ok final' ∧
      checkCleanStack F' final' = .ok () := by
  unfold evalP2SH at hok ⊢
  have hweak : F'.p2sh = F.p2sh → checkCleanStack F' final = .ok () := by
    intro hp
    unfold checkCleanStack at hclean ⊢
    rw [hp]
    exact OkLe.guard (flag_and fun hc => (h.cleanstack hc).1) (OkLe.refl _) () hclean
  cases hF' : F'.p2sh with
  | true =>
    have hF := h.p2sh hF'
    rw [hF] at hok hweak
    have hrefine := evalRedeemScript_weakens (H := H) (C := C) h stackCopy
    exact ⟨final, (Refines.ite (fun _ => Refines.ite (fun _ => Refines.refl _) fun _ => hrefine) fun _ => Refines.refl _).result hok,
      hweak hF'⟩
  | false =>
    refine ⟨stack, rfl, ?_⟩
    have hc : F'.cleanstack = false := by
      cases hc : F'.cleanstack with
      | false => rfl
      | true => exact absurd ((h.cleanstack hc).2.symm.trans hF') (by decide)
    rw [checkCleanStack, hc]
    rfl

theorem verifyScript_weakens {scriptSig scriptPubKey : CScript}
    (hok : (verifyScript H C F scriptSig scriptPubKey).result = .ok ()) :
    (verifyScript H C F' scriptSig scriptPubKey).result = .ok () := by
  rw [verifyScript_eq_ok] at hok ⊢
  obtain ⟨hpush, stackCopy, stack, final, hsig, hpub, htop, hp2sh, hclean⟩ := hok
  have hpush' : (F'.sigpushonly && !isPushOnly scriptSig) = false := by
    rw [Bool.eq_false_iff] at hpush ⊢
    exact fun hc => hpush (flag_and h.sigpushonly hc)
  obtain ⟨final', hp2sh', hclean'⟩ := evalP2SH_weakens h hp2sh hclean
  exact ⟨hpush', stackCopy, stack, final', (evalScript_weakens h [] scriptSig).result hsig,
    (evalScript_weakens h stackCopy scriptPubKey).result hpub, htop, hp2sh', hclean'⟩

end

/-! ### Policy and consensus -/

theorem standard_weakens_block {params : ForkHeights} {b : BlockContext} (hschnorr : params.nSchnorrHeight ≤ b.nHeight)
    (hlarge : params.nLargeElementsHeight ≤ b.nHeight) :
    standardScriptVerifyFlags.Weakens (getBlockScriptFlags params b) := by
  constructor <;> simp [standardScriptVerifyFlags, getBlockScriptFlags, hschnorr, hlarge]

/-- What verifies under the standard flags verifies under every weaker flag set, and a transaction that is
valid under the standard flags is valid in every block from the fork heights on. -/
theorem standard_implies_consensus (H : Crypto) : (∀ C F' scriptSig scriptPubKey, standardScriptVerifyFlags.Weakens F' →
      (verifyScript H C standardScriptVerifyFlags scriptSig scriptPubKey).result = .ok () →
        (verifyScript H C F' scriptSig scriptPubKey).result = .ok ()) ∧
    ∀ params b inputs, params.nSchnorrHeight ≤ b.nHeight → params.nLargeElementsHeight ≤ b.nHeight →
      inputsVerify H standardScriptVerifyFlags inputs → inputsVerify H (getBlockScriptFlags params b) inputs := by
  constructor
  · intro C F' scriptSig scriptPubKey h hok
    exact verifyScript_weakens h hok
  · intro params b inputs hschnorr hlarge hok i hi
    exact verifyScript_weakens (standard_weakens_block hschnorr hlarge) (hok i hi)

/-- Hash functions and a curve for concrete runs. -/
def sampleCrypto : Crypto where
  ripemd160 := id
  sha1 := id
  sha256 := id
  hash160 := id
  hash256 := id
  ecdsaVerify sig _ _ := sig.s != 0
  schnorrVerify _ _ _ := false

def sampleTx : TxContext where
  signatureHash _ _ := []
  nLockTime := 0
  nVersion := 2
  nSequence := 0

/-- One plus one is two, in a block of the heights from which all flags are set. -/
def sampleInput : SpendingInput where
  scriptSig := [0x51]
  scriptPubKey := [0x8b, 0x52, 0x87]
  checker := sampleTx.checker sampleCrypto

theorem standard_implies_consensus_sample :
    inputsVerify sampleCrypto standardScriptVerifyFlags [sampleInput] ∧
      (verifyScript sampleCrypto sampleInput.checker { standardScriptVerifyFlags with p2sh := false, cleanstack := false }
        sampleInput.scriptSig sampleInput.scriptPubKey).result = .ok () ∧
      inputsVerify sampleCrypto (getBlockScriptFlags ⟨10, 10, 20, 30⟩ ⟨30, 1333238400, false, false, false⟩) [sampleInput] := by
  have hstd : inputsVerify sampleCrypto standardScriptVerifyFlags [sampleInput] := by
    intro i hi
    rw [List.mem_singleton] at hi
    subst hi
    decide +kernel
  refine ⟨hstd, ?_, ?_⟩
  · apply (standard_implies_consensus sampleCrypto).1
    · constructor <;> simp [standardScriptVerifyFlags]
    · exact hstd sampleInput List.mem_cons_self
  · exact (standard_implies_consensus sampleCrypto).2 _ _ _ (by decide) (by decide) hstd

end OmegaCore.Script
