import OmegaCore.Primitives
import OmegaCore.Util.Bytes

/-!
The values on the stack of the script interpreter, byte vectors that are read as truth values or as
numbers with a sign bit in the last byte, and scripts as byte strings and as the instructions that
are read from them.  Signatures and public keys have a strict encoding, checked by flags, and a lax
parser that the verification itself uses.
-/

namespace OmegaCore.Script

open Util

abbrev Valtype := Bytes

inductive ScriptError where
  | unknownError | evalFalse | opReturn
  | scriptSize | pushSize | opCount | stackSize | sigCount | pubkeyCount
  | verify | equalVerify | checkMultiSigVerify | checkSigVerify | numEqualVerify | checkDataSigVerify
  | badOpcode | disabledOpcode | invalidStackOperation | invalidAltStackOperation | unbalancedConditional
  | invalidSplitRange | invalidOperandSize | invalidNumberRange | impossibleEncoding | divByZero | modByZero
  | negativeLockTime | unsatisfiedLockTime
  | sigHashType | sigDer | minimalData | sigPushOnly | sigHighS | sigNullDummy | pubkeyType | cleanStack | sigNullFail
  | discourageUpgradableNops | opCodeSeparator | sigFindAndDelete | schnorrSigHashType
  deriving DecidableEq, Repr

/-- `CastToBool`: zero and negative zero are false. -/
def castToBool : Valtype → Bool
  | [] => false
  | [b] => b != 0 && b != 0x80
  | b :: vch => b != 0 || castToBool vch

def vchTrue : Valtype := [1]

def vchFalse : Valtype := []

def vchBool (b : Bool) : Valtype :=
  if b then vchTrue else vchFalse

namespace CScriptNum

/-- The default `nMaxNumSize` -/
def defaultMaxNumSize : ℕ := 4

def isMinimallyEncoded (vch : Valtype) (nMaxNumSize : ℕ := defaultMaxNumSize) : Bool :=
  !decide (nMaxNumSize < vch.length) &&
    match vch.reverse with
    | [] => true
    | last :: before => last &&& 0x7f != 0 || (before.headD 0) &&& 0x80 != 0

/-- `MinimallyEncode`: zeros before the sign are cut off. -/
def minimallyEncode (data : Valtype) : Valtype :=
  match data.reverse with
  | [] => data
  | last :: before =>
    if last &&& 0x7f != 0 then data
    else
      match before with
      | [] => []
      | next :: _ =>
        if next &&& 0x80 != 0 then data
        else
          match before.dropWhile (· == 0) with
          | [] => []
          | b :: bs => if b &&& 0x80 != 0 then (last :: b :: bs).reverse else ((b ||| last) :: bs).reverse

def setVch (vch : Valtype) : Int :=
  match vch.reverse with
  | [] => 0
  | last :: _ =>
    if last &&& 0x80 != 0 then -((Bytes.toNat vch - 0x80 * 256 ^ (vch.length - 1) : ℕ) : Int) else (Bytes.toNat vch : Int)

def absBytes : ℕ → ℕ → Valtype
  | 0, _ => []
  | fuel + 1, n => if n = 0 then [] else UInt8.ofNat (n % 256) :: absBytes fuel (n / 256)

/-- `serialize` of a 64-bit number. -/
def serialize (value : Int) : Valtype :=
  let result := absBytes 8 value.natAbs
  match result.reverse with
  | [] => []
  | last :: before =>
    if last &&& 0x80 != 0 then result ++ [if value < 0 then 0x80 else 0]
    else if value < 0 then ((last ||| 0x80) :: before).reverse
    else result

/-- The constructor from a vector.  What it throws ends the script. -/
def ofVch (vch : Valtype) (fRequireMinimal : Bool) (nMaxNumSize : ℕ := defaultMaxNumSize) : Except ScriptError Int :=
  if nMaxNumSize < vch.length then .error .unknownError
  else if fRequireMinimal && !isMinimallyEncoded vch nMaxNumSize then .error .unknownError
  else .ok (setVch vch)

def getint (n : Int) : Int :=
  max (-2 ^ 31) (min (2 ^ 31 - 1) n)

end CScriptNum

/-! ### Opcodes -/

/-- Opcodes with one number operand. -/
inductive UnaryOp where
  | add1 | sub1 | negate | abs | not | notEqual0
  deriving DecidableEq, Repr

/-- Opcodes with two number operands. -/
inductive BinaryOp where
  | add | sub | div | mod | boolAnd | boolOr | numEqual | numEqualVerify | numNotEqual
  | lessThan | greaterThan | lessThanOrEqual | greaterThanOrEqual | min | max
  deriving DecidableEq, Repr

inductive BitwiseOp where
  | and | or | xor
  deriving DecidableEq, Repr

inductive HashOp where
  | ripemd160 | sha1 | sha256 | hash160 | hash256
  deriving DecidableEq, Repr

/-- The cases of the interpreter's switch.  A second opcode that also removes the result it checks
is the case with `verify` set. -/
inductive Op where
  | pushInt (n : Int)
  | nop | checkLockTimeVerify | checkSequenceVerify | upgradableNop
  | opIf | opNotIf | opElse | opEndIf | opVerify | opReturn
  | toAltStack | fromAltStack
  | drop2 | dup2 | dup3 | over2 | rot2 | swap2 | ifDup | depth | drop | dup | nip | over | pick | roll | rot | swap | tuck
  | size
  | equal (verify : Bool)
  | bitwise (op : BitwiseOp)
  | unary (op : UnaryOp)
  | binary (op : BinaryOp)
  | within
  | hash (op : HashOp)
  | codeSeparator
  | checkSig (verify : Bool)
  | checkDataSig (verify : Bool)
  | checkMultiSig (verify : Bool)
  | cat | split | num2bin | bin2num
  | invalid
  deriving DecidableEq, Repr

def opPushData1 : UInt8 := 0x4c

def opPushData2 : UInt8 := 0x4d

def opPushData4 : UInt8 := 0x4e

def op1 : UInt8 := 0x51

def op16 : UInt8 := 0x60

def opIf : UInt8 := 0x63

def opEndIf : UInt8 := 0x68

def opCodeSeparator : UInt8 := 0xab

/-- The opcodes that `SCRIPT_ENABLE_DIP0020_OPCODES` enables: CAT, SPLIT, AND, OR, XOR, DIV, MOD, NUM2BIN,
BIN2NUM, CHECKDATASIG and CHECKDATASIGVERIFY. -/
def dip0020Opcodes : List UInt8 :=
  [0x7e, 0x7f, 0x84, 0x85, 0x86, 0x96, 0x97, 0x80, 0x81, 0xba, 0xbb]

def disabledOpcodes : List UInt8 :=
  [0x83, 0x8d, 0x8e, 0x95, 0x98, 0x99]

/-- The case labels of the switch. -/
def opcodeTable : List (UInt8 × Op) :=
  [(0x4f, .pushInt (-1)),
   (0x51, .pushInt 1), (0x52, .pushInt 2), (0x53, .pushInt 3), (0x54, .pushInt 4),
   (0x55, .pushInt 5), (0x56, .pushInt 6), (0x57, .pushInt 7), (0x58, .pushInt 8),
   (0x59, .pushInt 9), (0x5a, .pushInt 10), (0x5b, .pushInt 11), (0x5c, .pushInt 12),
   (0x5d, .pushInt 13), (0x5e, .pushInt 14), (0x5f, .pushInt 15), (0x60, .pushInt 16),
   (0x61, .nop), (0x63, .opIf), (0x64, .opNotIf), (0x67, .opElse), (0x68, .opEndIf),
   (0x69, .opVerify), (0x6a, .opReturn), (0x6b, .toAltStack), (0x6c, .fromAltStack),
   (0x6d, .drop2), (0x6e, .dup2), (0x6f, .dup3), (0x70, .over2), (0x71, .rot2), (0x72, .swap2),
   (0x73, .ifDup), (0x74, .depth), (0x75, .drop), (0x76, .dup), (0x77, .nip), (0x78, .over),
   (0x79, .pick), (0x7a, .roll), (0x7b, .rot), (0x7c, .swap), (0x7d, .tuck),
   (0x7e, .cat), (0x7f, .split), (0x80, .num2bin), (0x81, .bin2num), (0x82, .size),
   (0x84, .bitwise .and), (0x85, .bitwise .or), (0x86, .bitwise .xor),
   (0x87, .equal false), (0x88, .equal true),
   (0x8b, .unary .add1), (0x8c, .unary .sub1), (0x8f, .unary .negate), (0x90, .unary .abs),
   (0x91, .unary .not), (0x92, .unary .notEqual0),
   (0x93, .binary .add), (0x94, .binary .sub), (0x96, .binary .div), (0x97, .binary .mod),
   (0x9a, .binary .boolAnd), (0x9b, .binary .boolOr), (0x9c, .binary .numEqual),
   (0x9d, .binary .numEqualVerify), (0x9e, .binary .numNotEqual), (0x9f, .binary .lessThan),
   (0xa0, .binary .greaterThan), (0xa1, .binary .lessThanOrEqual), (0xa2, .binary .greaterThanOrEqual),
   (0xa3, .binary .min), (0xa4, .binary .max), (0xa5, .within),
   (0xa6, .hash .ripemd160), (0xa7, .hash .sha1), (0xa8, .hash .sha256), (0xa9, .hash .hash160),
   (0xaa, .hash .hash256), (0xab, .codeSeparator),
   (0xac, .checkSig false), (0xad, .checkSig true), (0xae, .checkMultiSig false), (0xaf, .checkMultiSig true),
   (0xb0, .upgradableNop), (0xb1, .checkLockTimeVerify), (0xb2, .checkSequenceVerify),
   (0xb3, .upgradableNop), (0xb4, .upgradableNop), (0xb5, .upgradableNop), (0xb6, .upgradableNop),
   (0xb7, .upgradableNop), (0xb8, .upgradableNop), (0xb9, .upgradableNop),
   (0xba, .checkDataSig false), (0xbb, .checkDataSig true)]

def Op.ofOpcode (opcode : UInt8) : Op :=
  (opcodeTable.lookup opcode).getD .invalid

theorem mem_opcodeTable {opcode : UInt8} {op : Op} (h : Op.ofOpcode opcode = op) (hop : op ≠ .invalid) :
    (opcode, op) ∈ opcodeTable := by
  rw [Op.ofOpcode] at h
  cases hlook : opcodeTable.lookup opcode with
  | none =>
    rw [hlook] at h
    exact absurd h.symm hop
  | some op' =>
    rw [hlook] at h
    have hop' : op' = op := h
    subst hop'
    obtain ⟨l₁, l₂, heq, -⟩ := List.lookup_eq_some_iff.mp hlook
    rw [heq]
    simp

/-! ### Reading instructions -/

/-- The data of a push with its length in `n` bytes, and what follows. -/
def getPushData (n : ℕ) (pc : CScript) : Option (Valtype × CScript) :=
  if pc.length < n then none
  else
    let nSize := Bytes.toNat (pc.take n)
    let data := pc.drop n
    if data.length < nSize then none else some (data.take nSize, data.drop nSize)

/-- `GetScriptOp`: the opcode, the data it pushes and the rest of the script. -/
def getScriptOp : CScript → Option (UInt8 × Valtype × CScript)
  | [] => none
  | opcode :: pc =>
    if opcode < opPushData1 then
      if pc.length < opcode.toNat then none else some (opcode, pc.take opcode.toNat, pc.drop opcode.toNat)
    else if opcode = opPushData1 then (getPushData 1 pc).map (opcode, ·)
    else if opcode = opPushData2 then (getPushData 2 pc).map (opcode, ·)
    else if opcode = opPushData4 then (getPushData 4 pc).map (opcode, ·)
    else some (opcode, [], pc)

/-- What a loop over `GetOp` sees, and where it stands afterwards. -/
inductive Instr where
  | op (opcode : UInt8) (data : Valtype) (rest : CScript)
  | bad
  deriving DecidableEq, Repr

def instructionsAux : ℕ → CScript → List Instr
  | 0, _ => []
  | _, [] => []
  | fuel + 1, b :: s =>
    match getScriptOp (b :: s) with
    | none => [.bad]
    | some (opcode, data, rest) => .op opcode data rest :: instructionsAux fuel rest

/-- The instructions of a script, up to the first one that cannot be read. -/
def instructions (s : CScript) : List Instr :=
  instructionsAux s.length s

/-! ### Scripts as a whole -/

def isPushOnly (s : CScript) : Bool :=
  (instructions s).all fun
    | .op opcode _ _ => decide (opcode ≤ op16)
    | .bad => false

def maxPubkeysPerMultisig : ℕ := 20

/-- The signature operations of the opcode that follows `lastOpcode`. -/
def sigOpsOf (fAccurate : Bool) (lastOpcode opcode : UInt8) : ℕ :=
  if opcode = 0xac ∨ opcode = 0xad then 1
  else if opcode = 0xae ∨ opcode = 0xaf then
    if fAccurate ∧ op1 ≤ lastOpcode ∧ lastOpcode ≤ op16 then lastOpcode.toNat - 0x50 else maxPubkeysPerMultisig
  else 0

def sigOpCountFrom (fAccurate : Bool) : UInt8 → List Instr → ℕ
  | _, [] => 0
  | _, .bad :: _ => 0
  | lastOpcode, .op opcode _ _ :: is => sigOpsOf fAccurate lastOpcode opcode + sigOpCountFrom fAccurate opcode is

def getSigOpCount (fAccurate : Bool) (s : CScript) : ℕ :=
  sigOpCountFrom fAccurate 0xff (instructions s)

/-- `CScript() << vch` -/
def pushScript (vch : Valtype) : CScript :=
  if vch.length < 0x4c then UInt8.ofNat vch.length :: vch
  else if vch.length ≤ 0xff then opPushData1 :: (Bytes.ofNat 1 vch.length ++ vch)
  else if vch.length ≤ 0xffff then opPushData2 :: (Bytes.ofNat 2 vch.length ++ vch)
  else opPushData4 :: (Bytes.ofNat 4 vch.length ++ vch)

/-- The copies of `b` at the start, and what follows them. -/
def skipCopies (b : CScript) : ℕ → CScript → ℕ × CScript
  | 0, pc => (0, pc)
  | fuel + 1, pc =>
    if pc.take b.length = b then
      let (n, pc) := skipCopies b fuel (pc.drop b.length)
      (n + 1, pc)
    else (0, pc)

def findAndDeleteLoop (b : CScript) : ℕ → CScript → ℕ × CScript
  | 0, pc => (0, pc)
  | fuel + 1, pc =>
    let (n, pc) := skipCopies b pc.length pc
    match getScriptOp pc with
    | none => (n, pc)
    | some (_, _, rest) =>
      let (m, result) := findAndDeleteLoop b fuel rest
      (n + m, pc.take (pc.length - rest.length) ++ result)

/-- `FindAndDelete`: how often the push `b` was found where an instruction starts, and the script without it. -/
def findAndDelete (script b : CScript) : ℕ × CScript :=
  if b = [] then (0, script)
  else
    let (nFound, result) := findAndDeleteLoop b (script.length + 1) script
    if 0 < nFound then (nFound, result) else (0, script)

/-! ### Flags -/

/-- The bits of the `SCRIPT_VERIFY` and `SCRIPT_ENABLE` flags. -/
structure ScriptFlags where
  p2sh : Bool := false
  strictenc : Bool := false
  dersig : Bool := false
  lowS : Bool := false
  nulldummy : Bool := false
  sigpushonly : Bool := false
  minimaldata : Bool := false
  discourageUpgradableNops : Bool := false
  cleanstack : Bool := false
  checklocktimeverify : Bool := false
  checksequenceverify : Bool := false
  nullfail : Bool := false
  constScriptcode : Bool := false
  enableDip0020Opcodes : Bool := false
  enableLargeElements : Bool := false
  enableSchnorr : Bool := false
  deriving DecidableEq, Repr

inductive SigVersion where
  | base | schnorr
  deriving DecidableEq, Repr

/-! ### Lax parsing -/

def secp256k1Order : ℕ := 0xFFFFFFFFFFFFFFFFFFFFFFFFFFFFFFFEBAAEDCE6AF48A03BBFD25E8CD0364141

/-- `secp256k1_ecdsa_signature` -/
structure EcdsaSignature where
  r : ℕ
  s : ℕ
  deriving DecidableEq, Repr

/-- A length byte with its long form, and what follows. -/
def parseLaxLength : Bytes → Option (ℕ × Bytes)
  | [] => none
  | lenbyte :: input =>
    if lenbyte &&& 0x80 ≠ 0 then
      let n := lenbyte.toNat - 0x80
      if input.length < n then none
      else
        let digits := (input.take n).dropWhile (· == 0)
        if 4 ≤ digits.length then none else some (Bytes.toNat digits.reverse, input.drop n)
    else some (lenbyte.toNat, input)

/-- The bytes of an integer without leading zeros, and what follows. -/
def parseLaxInteger : Bytes → Option (Bytes × Bytes)
  | [] => none
  | tag :: input =>
    if tag ≠ 0x02 then none
    else
      match parseLaxLength input with
      | none => none
      | some (len, input) =>
        if input.length < len then none else some ((input.take len).dropWhile (· == 0), input.drop len)

/-- Behind the length of the sequence, which nothing uses. -/
def skipSequenceLength : Bytes → Option Bytes
  | [] => none
  | lenbyte :: input =>
    if lenbyte &&& 0x80 ≠ 0 then
      let n := lenbyte.toNat - 0x80
      if input.length < n then none else some (input.drop n)
    else some input

/-- A value that is too large gives the signature that never verifies. -/
def signatureOfBytes (r s : Bytes) : EcdsaSignature :=
  let sig : EcdsaSignature := ⟨Bytes.toNat r.reverse, Bytes.toNat s.reverse⟩
  if 32 < r.length ∨ 32 < s.length ∨ secp256k1Order ≤ sig.r ∨ secp256k1Order ≤ sig.s then ⟨0, 0⟩ else sig

def ecdsaSignatureParseDerLax : Bytes → Option EcdsaSignature
  | [] => none
  | tag :: input =>
    if tag ≠ 0x30 then none
    else do
      let input ← skipSequenceLength input
      let (r, input) ← parseLaxInteger input
      let (s, _) ← parseLaxInteger input
      pure (signatureOfBytes r s)

def EcdsaSignature.isHigh (sig : EcdsaSignature) : Bool :=
  decide (secp256k1Order / 2 < sig.s)

/-- `secp256k1_ecdsa_signature_normalize` -/
def EcdsaSignature.normalize (sig : EcdsaSignature) : EcdsaSignature :=
  if sig.isHigh then { sig with s := secp256k1Order - sig.s } else sig

variable (vchSig : Valtype)

def checkLowS : Bool :=
  match ecdsaSignatureParseDerLax vchSig with
  | none => false
  | some sig => !sig.isHigh

/-! ### Keys -/

/-- The hash functions and the curve. -/
structure Crypto where
  ripemd160 : Valtype → Valtype
  sha1 : Valtype → Valtype
  sha256 : Valtype → Valtype
  hash160 : Valtype → Valtype
  hash256 : Valtype → Valtype
  /-- `secp256k1_ec_pubkey_parse` and `secp256k1_ecdsa_verify` -/
  ecdsaVerify : EcdsaSignature → Valtype → Valtype → Bool
  /-- `secp256k1_xonly_pubkey_parse` and `secp256k1_schnorrsig_verify` -/
  schnorrVerify : Valtype → Valtype → Valtype → Bool

namespace CPubKey

def compressedSize : ℕ := 33

/-- `SIZE` -/
def fullSize : ℕ := 65

def getLen (chHeader : UInt8) : ℕ :=
  if chHeader = 2 ∨ chHeader = 3 then compressedSize
  else if chHeader = 4 ∨ chHeader = 6 ∨ chHeader = 7 then fullSize
  else 0

/-- `IsValid` of a key made from these bytes: they have the length that the first one tells. -/
def isValid : Valtype → Bool
  | [] => false
  | chHeader :: vch => getLen chHeader != 0 && getLen chHeader == vch.length + 1

/-- `IsCompressed` of a key that is valid. -/
def isCompressed (vch : Valtype) : Bool :=
  vch.length == compressedSize

def verify (H : Crypto) (vchPubKey hash vchSig : Valtype) : Bool :=
  isValid vchPubKey &&
    match ecdsaSignatureParseDerLax vchSig with
    | none => false
    | some sig => H.ecdsaVerify sig.normalize hash vchPubKey

end CPubKey

/-- `XOnlyPubKey(pubkey).VerifySchnorr` for a compressed key. -/
def verifySchnorr (H : Crypto) (vchPubKey msg sig : Valtype) : Bool :=
  sig.length == 64 && H.schnorrVerify sig msg (vchPubKey.drop 1)

/-! ### Strict encodings -/

def isCompressedOrUncompressedPubKey : Valtype → Bool
  | [] => false
  | b :: vch =>
    if b = 0x04 then vch.length + 1 == CPubKey.fullSize
    else if b = 0x02 ∨ b = 0x03 then vch.length + 1 == CPubKey.compressedSize
    else false

def isSchnorrSignature : Bool :=
  vchSig.length == 65

/-- The start of an integer that is positive and not padded. -/
def isMinimalInteger (first second : UInt8) (len : ℕ) : Bool :=
  len != 0 && first &&& 0x80 == 0 && !(decide (1 < len) && first == 0x00 && second &&& 0x80 == 0)

def isValidSignatureEncoding (sig : Valtype) : Bool :=
  let byte (i : ℕ) : UInt8 := sig.getD i 0
  let lenR := (byte 3).toNat
  let lenS := (byte (5 + lenR)).toNat
  decide (9 ≤ sig.length) && decide (sig.length ≤ 73) && byte 0 == 0x30 && (byte 1).toNat == sig.length - 3 &&
    decide (5 + lenR < sig.length) && lenR + lenS + 7 == sig.length &&
    byte 2 == 0x02 && isMinimalInteger (byte 4) (byte 5) lenR &&
    byte (lenR + 4) == 0x02 && isMinimalInteger (byte (lenR + 6)) (byte (lenR + 7)) lenS

/-- `IsLowDERSignature` for a signature that is validly encoded: its last byte is the hash type. -/
def isLowSignature : Bool :=
  checkLowS vchSig.dropLast

def isDefinedHashtypeSignature : Bool :=
  match vchSig.getLast? with
  | none => false
  | some b =>
    let nHashType := b &&& 0x7f
    decide (1 ≤ nHashType) && decide (nHashType ≤ 3)

def checkSignatureEncoding (F : ScriptFlags) (vchSig : Valtype) : Except ScriptError Unit :=
  if vchSig = [] then .ok ()
  else if F.enableSchnorr && isSchnorrSignature vchSig then
    if F.strictenc && !isDefinedHashtypeSignature vchSig then .error .schnorrSigHashType else .ok ()
  else if (F.dersig || F.lowS || F.strictenc) && !isValidSignatureEncoding vchSig then .error .sigDer
  else if F.lowS && !isValidSignatureEncoding vchSig then .error .sigDer
  else if F.lowS && !isLowSignature vchSig then .error .sigHighS
  else if F.strictenc && !isDefinedHashtypeSignature vchSig then .error .sigHashType
  else .ok ()

def checkPubKeyEncoding (F : ScriptFlags) (vchPubKey : Valtype) : Except ScriptError Unit :=
  if F.strictenc && !isCompressedOrUncompressedPubKey vchPubKey then .error .pubkeyType else .ok ()

def checkMinimalPush (data : Valtype) (opcode : UInt8) : Bool :=
  match data with
  | [] => opcode == 0
  | [b] =>
    if 1 ≤ b ∧ b ≤ 16 then false
    else if b = 0x81 then false
    else opcode == 1
  | data =>
    if data.length ≤ 75 then opcode.toNat == data.length
    else if data.length ≤ 255 then opcode == opPushData1
    else if data.length ≤ 65535 then opcode == opPushData2
    else true

/-! ### Signature checkers -/

/-- `BaseSignatureChecker`: a signature with its hash type, the key and the signed script. -/
structure SignatureChecker where
  checkSig : Valtype → Valtype → CScript → SigVersion → Bool
  /-- A signature without its hash type, the key, the signed script and the hash type. -/
  checkSchnorrSig : Valtype → Valtype → CScript → UInt8 → Bool
  checkLockTime : Int → Bool
  checkSequence : Int → Bool

/-- What `GenericTransactionSignatureChecker` reads of a transaction and its input. -/
structure TxContext where
  /-- `SignatureHash` of the script and the hash type -/
  signatureHash : CScript → UInt8 → Valtype
  nLockTime : BitVec 32
  nVersion : BitVec 16
  nSequence : BitVec 32

namespace TxContext

def lockTimeThreshold : Int := 500000000

def sequenceFinal : BitVec 32 := 0xffffffff

def sequenceLockTimeTypeFlag : ℕ := 2 ^ 22

/-- The bits of `SEQUENCE_LOCKTIME_TYPE_FLAG` and `SEQUENCE_LOCKTIME_MASK`. -/
def lockTimeMask (n : ℕ) : ℕ :=
  n &&& (sequenceLockTimeTypeFlag ||| 0xffff)

variable (H : Crypto) (tx : TxContext)

def checkSig (vchSigIn vchPubKey : Valtype) (scriptCode : CScript) (_ : SigVersion) : Bool :=
  CPubKey.isValid vchPubKey &&
    match vchSigIn.getLast? with
    | none => false
    | some nHashType => CPubKey.verify H vchPubKey (tx.signatureHash scriptCode nHashType) vchSigIn.dropLast

def checkSchnorrSig (sig64 vchPubKey : Valtype) (scriptCode : CScript) (nHashType : UInt8) : Bool :=
  CPubKey.isValid vchPubKey && CPubKey.isCompressed vchPubKey &&
    verifySchnorr H vchPubKey (tx.signatureHash scriptCode nHashType) sig64

def checkLockTime (nLockTime : Int) : Bool :=
  let txLockTime : Int := tx.nLockTime.toNat
  decide (txLockTime < lockTimeThreshold) == decide (nLockTime < lockTimeThreshold) &&
    decide (nLockTime ≤ txLockTime) && tx.nSequence != sequenceFinal

/-- The operand is not negative here. -/
def checkSequence (nSequence : Int) : Bool :=
  let txToSequenceMasked := lockTimeMask tx.nSequence.toNat
  let nSequenceMasked := lockTimeMask nSequence.toNat
  decide (2 ≤ (tx.nVersion.signExtend 32).toNat) && !tx.nSequence.getLsbD 31 &&
    decide (txToSequenceMasked < sequenceLockTimeTypeFlag) == decide (nSequenceMasked < sequenceLockTimeTypeFlag) &&
    decide (nSequenceMasked ≤ txToSequenceMasked)

/-- `TransactionSignatureChecker` -/
def checker : SignatureChecker where
  checkSig := checkSig H tx
  checkSchnorrSig := checkSchnorrSig H tx
  checkLockTime := checkLockTime tx
  checkSequence := checkSequence tx

end TxContext

end OmegaCore.Script
