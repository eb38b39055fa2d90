import OmegaCore.Chainstate.Coins
import OmegaCore.Script.Script
import OmegaCore.Util.Except

/-!
The script interpreter.  A run keeps a log of the signatures it verifies, which also holds what was
verified before a failure.  Stacks are lists with their top at the head.
-/

namespace OmegaCore.Script

open Util Logged CScriptNum

/-! ### Limits -/

def maxOpsPerScript : ℕ := 201

def maxStackSize : ℕ := 1000

variable (H : Crypto) (C : SignatureChecker) (F : ScriptFlags) (sigversion : SigVersion)
  (fRequireMinimal : Bool)

/-- `MAX_SCRIPT_ELEMENT_SIZE`, or `MAX_SCRIPT_ELEMENT_SIZE_EXTENDED` -/
def maxElementSize : ℕ :=
  if F.enableLargeElements then 4096 else 520

/-! ### The log -/

inductive SigAlgorithm where
  | ecdsa | schnorr
  deriving DecidableEq, Repr

/-- A signature that was verified, and with which answer. -/
structure SigCheck where
  algorithm : SigAlgorithm
  sig : Valtype
  pubKey : Valtype
  success : Bool
  deriving DecidableEq, Repr

abbrev Eval := Logged ScriptError SigCheck

def verifySig (c : SigCheck) : Eval Bool :=
  ⟨[c], .ok c.success⟩

abbrev Stack := List Valtype

/-! ### Operations on the stack -/

def invalidStack : Except ScriptError Stack :=
  .error .invalidStackOperation

variable (stack : Stack) (verify : Bool) (m : Machine)

/-- The result of an opcode that may also check and remove it. -/
def pushResult (e : ScriptError) (fSuccess : Bool) (stack : Stack) : Except ScriptError Stack :=
  if verify then if fSuccess then .ok stack else .error e
  else .ok (vchBool fSuccess :: stack)

def UnaryOp.eval (bn : Int) : UnaryOp → Int
  | add1 => bn + 1
  | sub1 => bn - 1
  | negate => -bn
  | abs => if bn < 0 then -bn else bn
  | not => if bn = 0 then 1 else 0
  | notEqual0 => if bn ≠ 0 then 1 else 0

def numOfBool (b : Bool) : Int :=
  if b then 1 else 0

/-- Division and remainder truncate toward zero. -/
def BinaryOp.eval (bn1 bn2 : Int) : BinaryOp → Except ScriptError Int
  | add => .ok (bn1 + bn2)
  | sub => .ok (bn1 - bn2)
  | div => if bn2 = 0 then .error .divByZero else .ok (bn1.tdiv bn2)
  | mod => if bn2 = 0 then .error .modByZero else .ok (bn1.tmod bn2)
  | boolAnd => .ok (numOfBool (bn1 != 0 && bn2 != 0))
  | boolOr => .ok (numOfBool (bn1 != 0 || bn2 != 0))
  | numEqual => .ok (numOfBool (bn1 == bn2))
  | numEqualVerify => .ok (numOfBool (bn1 == bn2))
  | numNotEqual => .ok (numOfBool (bn1 != bn2))
  | lessThan => .ok (numOfBool (decide (bn1 < bn2)))
  | greaterThan => .ok (numOfBool (decide (bn2 < bn1)))
  | lessThanOrEqual => .ok (numOfBool (decide (bn1 ≤ bn2)))
  | greaterThanOrEqual => .ok (numOfBool (decide (bn2 ≤ bn1)))
  | min => .ok (if bn1 < bn2 then bn1 else bn2)
  | max => .ok (if bn2 < bn1 then bn1 else bn2)

def BitwiseOp.eval : BitwiseOp → UInt8 → UInt8 → UInt8
  | and => (· &&& ·)
  | or => (· ||| ·)
  | xor => (· ^^^ ·)

def HashOp.eval : HashOp → Valtype → Valtype
  | ripemd160 => H.ripemd160
  | sha1 => H.sha1
  | sha256 => H.sha256
  | hash160 => H.hash160
  | hash256 => H.hash256

/-- OP_NUM2BIN for a value whose encoding is minimal: zeros go between the number and its sign. -/
def numToBin (rawnum : Valtype) (size : ℕ) : Valtype :=
  if rawnum.length = size then rawnum
  else
    match rawnum.reverse with
    | [] => List.replicate size 0
    | last :: before =>
      ((last &&& 0x7f) :: before).reverse ++ List.replicate (size - 1 - rawnum.length) 0 ++ [last &&& 0x80]

/-- OP_PICK and OP_ROLL -/
def opPick (fRequireMinimal roll : Bool) : Stack → Except ScriptError Stack
  | x :: x0 :: s => do
    let n := getint (← ofVch x fRequireMinimal)
    if n < 0 ∨ (s.length + 1 : ℕ) ≤ n then invalidStack
    else
      let stack := if roll then (x0 :: s).eraseIdx n.toNat else x0 :: s
      pure ((x0 :: s).getD n.toNat [] :: stack)
  | _ => invalidStack

def opUnary (op : UnaryOp) : Stack → Except ScriptError Stack
  | x :: s => do
    let bn ← ofVch x fRequireMinimal
    pure (serialize (op.eval bn) :: s)
  | _ => invalidStack

def opBinary (op : BinaryOp) : Stack → Except ScriptError Stack
  | x2 :: x1 :: s => do
    let bn1 ← ofVch x1 fRequireMinimal
    let bn2 ← ofVch x2 fRequireMinimal
    let bn ← op.eval bn1 bn2
    if op = .numEqualVerify then
      if castToBool (serialize bn) then pure s else .error .numEqualVerify
    else pure (serialize bn :: s)
  | _ => invalidStack

def opWithin : Stack → Except ScriptError Stack
  | x3 :: x2 :: x1 :: s => do
    let bn1 ← ofVch x1 fRequireMinimal
    let bn2 ← ofVch x2 fRequireMinimal
    let bn3 ← ofVch x3 fRequireMinimal
    pure (vchBool (decide (bn2 ≤ bn1) && decide (bn1 < bn3)) :: s)
  | _ => invalidStack

def opSplit : Stack → Except ScriptError Stack
  | x :: data :: s => do
    let nPosition := getint (← ofVch x fRequireMinimal)
    if nPosition < 0 ∨ (data.length : ℕ) < nPosition then .error .invalidSplitRange
    else pure (data.drop nPosition.toNat :: data.take nPosition.toNat :: s)
  | _ => invalidStack

def opNum2bin (nMaxElementSize : ℕ) : Stack → Except ScriptError Stack
  | x :: rawnum :: s => do
    -- a negative size is a large unsigned one
    let size := getint (← ofVch x fRequireMinimal)
    if size < 0 ∨ (nMaxElementSize : ℕ) < size then .error .pushSize
    else
      let rawnum := minimallyEncode rawnum
      if size.toNat < rawnum.length then .error .impossibleEncoding
      else pure (numToBin rawnum size.toNat :: s)
  | _ => invalidStack

def opCat (nMaxElementSize : ℕ) : Stack → Except ScriptError Stack
  | x2 :: x1 :: s => if nMaxElementSize < x1.length + x2.length then .error .pushSize else .ok ((x1 ++ x2) :: s)
  | _ => invalidStack

/-- The opcodes that only use the stack and read no number from it, those of signatures apart. -/
def shuffleOp : Op → Stack → Except ScriptError Stack
  | .pushInt n, s => .ok (serialize n :: s)
  | .opVerify, x :: s => if castToBool x then .ok s else .error .verify
  | .drop2, _ :: _ :: s => .ok s
  | .dup2, x2 :: x1 :: s => .ok (x2 :: x1 :: x2 :: x1 :: s)
  | .dup3, x3 :: x2 :: x1 :: s => .ok (x3 :: x2 :: x1 :: x3 :: x2 :: x1 :: s)
  | .over2, x4 :: x3 :: x2 :: x1 :: s => .ok (x2 :: x1 :: x4 :: x3 :: x2 :: x1 :: s)
  | .rot2, x6 :: x5 :: x4 :: x3 :: x2 :: x1 :: s => .ok (x2 :: x1 :: x6 :: x5 :: x4 :: x3 :: s)
  | .swap2, x4 :: x3 :: x2 :: x1 :: s => .ok (x2 :: x1 :: x4 :: x3 :: s)
  | .ifDup, x :: s => .ok (if castToBool x then x :: x :: s else x :: s)
  | .depth, s => .ok (serialize s.length :: s)
  | .drop, _ :: s => .ok s
  | .dup, x :: s => .ok (x :: x :: s)
  | .nip, x2 :: _ :: s => .ok (x2 :: s)
  | .over, x2 :: x1 :: s => .ok (x1 :: x2 :: x1 :: s)
  | .rot, x3 :: x2 :: x1 :: s => .ok (x1 :: x3 :: x2 :: s)
  | .swap, x2 :: x1 :: s => .ok (x1 :: x2 :: s)
  | .tuck, x2 :: x1 :: s => .ok (x2 :: x1 :: x2 :: s)
  | .size, x :: s => .ok (serialize x.length :: x :: s)
  | .equal verify, x2 :: x1 :: s => pushResult verify .equalVerify (x1 == x2) s
  | .bitwise op, x2 :: x1 :: s =>
    if x1.length ≠ x2.length then .error .invalidOperandSize else .ok (List.zipWith op.eval x1 x2 :: s)
  | .hash op, x :: s => .ok (op.eval H x :: s)
  | .bin2num, x :: s =>
    let n := minimallyEncode x
    if !isMinimallyEncoded n then .error .invalidNumberRange else .ok (n :: s)
  | _, _ => invalidStack

/-- The opcodes that only use the stack, those of signatures apart. -/
def stackOp (op : Op) (stack : Stack) : Except ScriptError Stack :=
  match op with
  | .pick => opPick F.minimaldata false stack
  | .roll => opPick F.minimaldata true stack
  | .unary op => opUnary F.minimaldata op stack
  | .binary op => opBinary F.minimaldata op stack
  | .within => opWithin F.minimaldata stack
  | .cat => opCat (maxElementSize F) stack
  | .split => opSplit F.minimaldata stack
  | .num2bin => opNum2bin F.minimaldata (maxElementSize F) stack
  | op => shuffleOp H op stack

/-! ### The other opcodes -/

structure Machine where
  stack : Stack
  altstack : Stack := []
  vfExec : List Bool := []
  nOpCount : ℕ := 0
  /-- The script from the last code separator on. -/
  codehash : CScript
  deriving DecidableEq, Repr

def Machine.fExec : Bool :=
  m.vfExec.all id

/-- OP_CHECKLOCKTIMEVERIFY -/
def opCheckLockTimeVerify : Except ScriptError Unit :=
  if !F.checklocktimeverify then .ok ()
  else
    match stack with
    | [] => .error .invalidStackOperation
    | x :: _ => do
      let nLockTime ← ofVch x F.minimaldata 5
      if nLockTime < 0 then .error .negativeLockTime
      else if !C.checkLockTime nLockTime then .error .unsatisfiedLockTime
      else pure ()

/-- OP_CHECKSEQUENCEVERIFY -/
def opCheckSequenceVerify : Except ScriptError Unit :=
  if !F.checksequenceverify then .ok ()
  else
    match stack with
    | [] => .error .invalidStackOperation
    | x :: _ => do
      let nSequence ← ofVch x F.minimaldata 5
      if nSequence < 0 then .error .negativeLockTime
      -- SEQUENCE_LOCKTIME_DISABLE_FLAG
      else if nSequence.toNat.testBit 31 then pure ()
      else if !C.checkSequence nSequence then .error .unsatisfiedLockTime
      else pure ()

/-- OP_IF and OP_NOTIF -/
def opConditional (negated : Bool) (m : Machine) : Except ScriptError Machine :=
  if m.fExec then
    match m.stack with
    | [] => .error .unbalancedConditional
    | x :: stack => .ok { m with stack := stack, vfExec := (castToBool x != negated) :: m.vfExec }
  else .ok { m with vfExec := false :: m.vfExec }

/-- The opcodes that verify no signature; `rest` is the script behind the opcode. -/
def plainOp (rest : CScript) (op : Op) (m : Machine) : Except ScriptError Machine :=
  match op with
  | .nop => .ok m
  | .checkLockTimeVerify => do
    opCheckLockTimeVerify C F m.stack
    pure m
  | .checkSequenceVerify => do
    opCheckSequenceVerify C F m.stack
    pure m
  | .upgradableNop => if F.discourageUpgradableNops then .error .discourageUpgradableNops else .ok m
  | .opIf => opConditional false m
  | .opNotIf => opConditional true m
  | .opElse =>
    match m.vfExec with
    | [] => .error .unbalancedConditional
    | b :: vfExec => .ok { m with vfExec := (!b) :: vfExec }
  | .opEndIf =>
    match m.vfExec with
    | [] => .error .unbalancedConditional
    | _ :: vfExec => .ok { m with vfExec := vfExec }
  | .opReturn => .error .opReturn
  | .toAltStack =>
    match m.stack with
    | [] => .error .invalidStackOperation
    | x :: stack => .ok { m with stack := stack, altstack := x :: m.altstack }
  | .fromAltStack =>
    match m.altstack with
    | [] => .error .invalidAltStackOperation
    | x :: altstack => .ok { m with stack := x :: m.stack, altstack := altstack }
  | .codeSeparator => .ok { m with codehash := rest }
  | .invalid => .error .badOpcode
  | op => do
    let stack ← stackOp H F op m.stack
    pure { m with stack := stack }

/-! ### Signatures -/

/-- The signed script: signatures do not sign themselves. -/
def cleanScriptCode (F : ScriptFlags) (sigversion : SigVersion) : CScript → List Valtype → Except ScriptError CScript
  | scriptCode, [] => .ok scriptCode
  | scriptCode, vchSig :: sigs =>
    if sigversion = .base then
      let found := findAndDelete scriptCode (pushScript vchSig)
      if 0 < found.1 ∧ F.constScriptcode then .error .sigFindAndDelete
      else cleanScriptCode F sigversion found.2 sigs
    else cleanScriptCode F sigversion scriptCode sigs

/-- The checks before a signature is verified as ECDSA. -/
def checkEncodings (vchSig vchPubKey : Valtype) : Except ScriptError Unit := do
  checkSignatureEncoding F vchSig
  checkPubKeyEncoding F vchPubKey

/-- The signature of OP_CHECKSIG, as a Schnorr one if it has the length of one. -/
def checkSigOf (scriptCode : CScript) (vchSig vchPubKey : Valtype) : SigCheck :=
  if F.enableSchnorr && isSchnorrSignature vchSig then
    ⟨.schnorr, vchSig, vchPubKey, C.checkSchnorrSig (vchSig.take 64) vchPubKey scriptCode (vchSig.getLastD 0)⟩
  else ⟨.ecdsa, vchSig, vchPubKey, C.checkSig vchSig vchPubKey scriptCode sigversion⟩

/-- OP_CHECKSIG and OP_CHECKSIGVERIFY -/
def opCheckSig (codehash : CScript) (verify : Bool) : Stack → Eval Stack
  | vchPubKey :: vchSig :: stack => do
    lift (checkEncodings F vchSig vchPubKey)
    let scriptCode ← lift (cleanScriptCode F sigversion codehash [vchSig])
    let fSuccess ← verifySig (checkSigOf C F sigversion scriptCode vchSig vchPubKey)
    if !fSuccess && F.nullfail && vchSig != [] then fail .sigNullFail
    else lift (pushResult verify .checkSigVerify fSuccess stack)
  | _ => fail .invalidStackOperation

/-- The signature of OP_CHECKDATASIG on the hash of a message. -/
def checkDataSig (vchSig hash vchPubKey : Valtype) : Eval Bool :=
  if vchSig = [] then pure false
  else if F.enableSchnorr && vchSig.length == 64 && vchPubKey.length == CPubKey.compressedSize then
    if CPubKey.isValid vchPubKey then verifySig ⟨.schnorr, vchSig, vchPubKey, verifySchnorr H vchPubKey hash vchSig⟩
    else pure false
  else do
    lift (checkEncodings F vchSig vchPubKey)
    verifySig ⟨.ecdsa, vchSig, vchPubKey, CPubKey.verify H vchPubKey hash vchSig⟩

/-- OP_CHECKDATASIG and OP_CHECKDATASIGVERIFY -/
def opCheckDataSig : Stack → Eval Stack
  | vchPubKey :: vchMessage :: vchSig :: stack => do
    let fSuccess ← checkDataSig H F vchSig (H.sha256 vchMessage) vchPubKey
    if !fSuccess && F.nullfail && vchSig != [] then fail .sigNullFail
    else lift (pushResult verify .checkDataSigVerify fSuccess stack)
  | _ => fail .invalidStackOperation

structure MultiSigArgs where
  keys : List Valtype
  sigs : List Valtype
  /-- The dummy value and what is below it. -/
  rest : Stack
  deriving DecidableEq, Repr

def multiSigArgs (nOpCount : ℕ) : Stack → Except ScriptError MultiSigArgs
  | [] => .error .invalidStackOperation
  | top :: s => do
    let nKeysCount := getint (← ofVch top F.minimaldata)
    if nKeysCount < 0 ∨ (maxPubkeysPerMultisig : ℕ) < nKeysCount then .error .pubkeyCount
    else if maxOpsPerScript < nOpCount + nKeysCount.toNat then .error .opCount
    else
      match s.drop nKeysCount.toNat with
      | [] => .error .invalidStackOperation
      | num :: s' => do
        let nSigsCount := getint (← ofVch num F.minimaldata)
        if nSigsCount < 0 ∨ nKeysCount < nSigsCount then .error .sigCount
        else if s'.length < nSigsCount.toNat + 1 then .error .invalidStackOperation
        else pure ⟨s.take nKeysCount.toNat, s'.take nSigsCount.toNat, s'.drop nSigsCount.toNat⟩

/-- Every signature in turn is tried with the next keys. -/
def multiSigLoop (C : SignatureChecker) (F : ScriptFlags) (sigversion : SigVersion) (scriptCode : CScript) :
    List Valtype → List Valtype → Eval Bool
  | _, [] => pure true
  | [], _ :: _ => pure false
  | vchPubKey :: keys, vchSig :: sigs => do
    lift (checkEncodings F vchSig vchPubKey)
    let fOk ← verifySig ⟨.ecdsa, vchSig, vchPubKey, C.checkSig vchSig vchPubKey scriptCode sigversion⟩
    let left := if fOk then sigs else vchSig :: sigs
    if keys.length < left.length then pure false else multiSigLoop C F sigversion scriptCode keys left

/-- OP_CHECKMULTISIG and OP_CHECKMULTISIGVERIFY -/
def opCheckMultiSig : Eval Machine := do
  let args ← lift (multiSigArgs F m.nOpCount m.stack)
  let scriptCode ← lift (cleanScriptCode F sigversion m.codehash args.sigs)
  let fSuccess ← multiSigLoop C F sigversion scriptCode args.keys args.sigs
  if !fSuccess && F.nullfail && args.sigs.any (· != []) then fail .sigNullFail
  else
    match args.rest with
    | [] => fail .invalidStackOperation
    | dummy :: rest =>
      if F.nulldummy && dummy != [] then fail .sigNullDummy
      else do
        let stack ← lift (pushResult verify .checkMultiSigVerify fSuccess rest)
        pure { m with stack := stack, nOpCount := m.nOpCount + args.keys.length }

/-! ### Runs -/

/-- `nOpCount` behind an instruction: opcodes above OP_16 count. -/
def countOp (opcode : UInt8) (nOpCount : ℕ) : ℕ :=
  if op16 < opcode then nOpCount + 1 else nOpCount

/-- The checks that do not depend on whether the instruction is executed. -/
def checkInstr (opcode : UInt8) (data : Valtype) (m : Machine) : Except ScriptError Machine :=
  if maxElementSize F < data.length then .error .pushSize
  else if maxOpsPerScript < countOp opcode m.nOpCount then .error .opCount
  else if !F.enableDip0020Opcodes && dip0020Opcodes.contains opcode then .error .disabledOpcode
  else if disabledOpcodes.contains opcode then .error .disabledOpcode
  else if opcode = opCodeSeparator ∧ sigversion = .base ∧ F.constScriptcode then .error .opCodeSeparator
  else .ok { m with nOpCount := countOp opcode m.nOpCount }

def execOp (rest : CScript) (op : Op) (m : Machine) : Eval Machine :=
  match op with
  | .checkSig verify => do
    let stack ← opCheckSig C F sigversion m.codehash verify m.stack
    pure { m with stack := stack }
  | .checkDataSig verify => do
    let stack ← opCheckDataSig H F verify m.stack
    pure { m with stack := stack }
  | .checkMultiSig verify => opCheckMultiSig C F sigversion verify m
  | op => lift (plainOp H C F rest op m)

def execInstr (opcode : UInt8) (data : Valtype) (rest : CScript) (m : Machine) : Eval Machine :=
  if m.fExec ∧ opcode ≤ opPushData4 then
    if F.minimaldata && !checkMinimalPush data opcode then fail .minimalData
    else pure { m with stack := data :: m.stack }
  else if m.fExec ∨ (opIf ≤ opcode ∧ opcode ≤ opEndIf) then
    execOp H C F sigversion rest (Op.ofOpcode opcode) m
  else pure m

def checkStackSize : Except ScriptError Machine :=
  if maxStackSize < m.stack.length + m.altstack.length then .error .stackSize else .ok m

/-- One round of the loop of `EvalScript`. -/
def step : Instr → Eval Machine
  | .bad => fail .badOpcode
  | .op opcode data rest => do
    let m ← lift (checkInstr F sigversion opcode data m)
    let m ← execInstr H C F sigversion opcode data rest m
    lift (checkStackSize m)

def run (H : Crypto) (C : SignatureChecker) (F : ScriptFlags) (sigversion : SigVersion) : Machine → List Instr → Eval Machine
  | m, [] => pure m
  | m, i :: is => do
    let m ← step H C F sigversion m i
    run H C F sigversion m is

def startMachine (script : CScript) : Machine where
  stack := stack
  codehash := script

/-- `EvalScript`: the stack that is left. -/
def evalScript (script : CScript) : Eval Stack :=
  if maxScriptSize < script.length then fail .scriptSize
  else do
    let m ← run H C F sigversion (startMachine stack script) (instructions script)
    if m.vfExec ≠ [] then fail .unbalancedConditional else pure m.stack

def checkTop : Stack → Except ScriptError Unit
  | [] => .error .evalFalse
  | top :: _ => if castToBool top then .ok () else .error .evalFalse

/-- The redeem script of a P2SH output, which the script signature pushed last.  The stack is not empty, since the
output script was evaluated on it; the code asserts so. -/
def evalRedeemScript : Stack → Eval Stack
  | [] => fail .unknownError
  | pubKeySerialized :: stack => do
    let stack ← evalScript H C F .base stack pubKeySerialized
    lift (checkTop stack)
    pure stack

/-- The additional validation of P2SH outputs, on the stack that the script signature left. -/
def evalP2SH (scriptSig scriptPubKey : CScript) (stackCopy stack : Stack) : Eval Stack :=
  if F.p2sh && scriptPubKey.isPayToScriptHash then
    if !isPushOnly scriptSig then fail .sigPushOnly else evalRedeemScript H C F stackCopy
  else pure stack

def checkCleanStack : Except ScriptError Unit :=
  if F.cleanstack && (!F.p2sh || stack.length != 1) then .error .cleanStack else .ok ()

def verifyScript (scriptSig scriptPubKey : CScript) : Eval Unit :=
  if F.sigpushonly && !isPushOnly scriptSig then fail .sigPushOnly
  else do
    let stackCopy ← evalScript H C F .base [] scriptSig
    let stack ← evalScript H C F .base stackCopy scriptPubKey
    lift (checkTop stack)
    let stack ← evalP2SH H C F scriptSig scriptPubKey stackCopy stack
    lift (checkCleanStack F stack)

/-! ### Flag sets -/

def standardScriptVerifyFlags : ScriptFlags where
  p2sh := true
  dersig := true
  strictenc := true
  minimaldata := true
  nulldummy := true
  discourageUpgradableNops := true
  cleanstack := true
  nullfail := true
  checklocktimeverify := true
  checksequenceverify := true
  lowS := true
  enableDip0020Opcodes := true
  constScriptcode := true
  enableSchnorr := true
  enableLargeElements := true

/-- The heights of `Consensus::Params`. -/
structure ForkHeights where
  bip66Height : Int
  bip65Height : Int
  nSchnorrHeight : Int
  nLargeElementsHeight : Int
  deriving DecidableEq, Repr

/-- A block with the deployments that are active behind its predecessor. -/
structure BlockContext where
  nHeight : Int
  nTime : Int
  csvActive : Bool
  bip147Active : Bool
  dip0020Active : Bool
  deriving DecidableEq, Repr

def getBlockScriptFlags (params : ForkHeights) (b : BlockContext) : ScriptFlags where
  p2sh := decide (1333238400 ≤ b.nTime)
  dersig := decide (params.bip66Height ≤ b.nHeight)
  checklocktimeverify := decide (params.bip65Height ≤ b.nHeight)
  checksequenceverify := decide (params.nSchnorrHeight ≤ b.nHeight) || b.csvActive
  nulldummy := decide (params.nSchnorrHeight ≤ b.nHeight) || b.bip147Active
  enableDip0020Opcodes := decide (params.nSchnorrHeight ≤ b.nHeight) || b.dip0020Active
  enableSchnorr := decide (params.nSchnorrHeight ≤ b.nHeight)
  enableLargeElements := decide (params.nLargeElementsHeight ≤ b.nHeight)

/-- An input with the output it spends. -/
structure SpendingInput where
  scriptSig : CScript
  scriptPubKey : CScript
  checker : SignatureChecker

/-- The script checks of a transaction: one for every input. -/
def inputsVerify (inputs : List SpendingInput) : Prop :=
  ∀ i ∈ inputs, (verifyScript H i.checker F i.scriptSig i.scriptPubKey).result = .ok ()

end OmegaCore.Script
