import Mathlib.Algebra.Order.Ring.Int
import Mathlib.Data.BitVec
import OmegaCore.Util.DBTransaction

/-!
The primitive values the masternode code is built on: hashes, outpoints with their
order, network addresses, scripts, coins and the block index.  Hash functions,
signature schemes and address classification enter later as parameters.  A block
index entry is modelled by its hash and its chain of predecessors, so `pprev` and
`GetAncestor` are total functions on a finite chain.
-/

namespace OmegaCore

abbrev Uint256 := BitVec 256

instance instTransOrdUint256 : Std.TransOrd Uint256 := inferInstance

instance instLawfulEqOrdUint256 : Std.LawfulEqOrd Uint256 := inferInstance

abbrev Uint160 := BitVec 160

/-- A key id is the 160-bit hash of a public key. -/
abbrev CKeyID := Uint160

/-- A raw script. -/
abbrev CScript := List UInt8

structure COutPoint where
  hash : Uint256 := 0
  n : BitVec 32 := -1
  deriving DecidableEq, Repr

/-- The address families of `enum Network`. -/
inductive Network where
  | unroutable | ipv4 | ipv6 | onion | i2p | cjdns | internal
  deriving DecidableEq, Repr

/-- A network address with its port; the default value is `CService()`. -/
structure CService where
  net : Network := .ipv6
  addr : List UInt8 := List.replicate 16 0
  port : BitVec 16 := 0
  deriving DecidableEq, Repr

def CService.isIPv4 (s : CService) : Bool :=
  decide (s.net = .ipv4)

def CScript.isPayToPublicKeyHash (s : CScript) : Bool :=
  s.length == 25 && s[0]? == some 0x76 && s[1]? == some 0xa9 && s[2]? == some 0x14 &&
    s[23]? == some 0x88 && s[24]? == some 0xac

def CScript.isPayToScriptHash (s : CScript) : Bool :=
  s.length == 23 && s[0]? == some 0xa9 && s[1]? == some 0x14 && s[22]? == some 0x87

/-- `CNoDestination` is the failure of `ExtractDestination`. -/
inductive CTxDestination where
  | pkHash (h : Uint160)
  | scriptHash (h : Uint160)
  deriving DecidableEq, Repr

structure CTxOut where
  nValue : Int
  scriptPubKey : CScript
  deriving DecidableEq, Repr

/-- An unspent output; a spent coin has a null output. -/
structure Coin where
  out : CTxOut
  deriving DecidableEq, Repr

def CTxOut.isNull (o : CTxOut) : Bool :=
  o.nValue == -1

def Coin.isSpent (c : Coin) : Bool :=
  c.out.isNull

/-- The part of `CCoinsViewCache` that the checks read. -/
structure CCoinsViewCache where
  getCoin : COutPoint → Option Coin

/-- `COIN`, in base units. -/
def coin : Int := 100000000

/-! ### Block index -/

/-- A block index entry: a block hash and the entries below it. -/
inductive CBlockIndex where
  | genesis (hash : Uint256)
  | child (hash : Uint256) (pprev : CBlockIndex)
  deriving DecidableEq, Repr

namespace CBlockIndex

def getBlockHash : CBlockIndex → Uint256
  | genesis h => h
  | child h _ => h

def height : CBlockIndex → ℕ
  | genesis _ => 0
  | child _ p => p.height + 1

/-- The height as the signed integer the sources compute with. -/
def nHeight (b : CBlockIndex) : Int :=
  b.height

def pprev : CBlockIndex → Option CBlockIndex
  | genesis _ => none
  | child _ p => some p

/-- The entry `k` blocks below, if the chain is that long. -/
def down : CBlockIndex → ℕ → Option CBlockIndex
  | b, 0 => some b
  | genesis _, _ + 1 => none
  | child _ p, k + 1 => p.down k

/-- The source walks skip pointers; the entry it reaches is the one at that height. -/
def getAncestor (b : CBlockIndex) (h : Int) : Option CBlockIndex :=
  if h > b.nHeight ∨ h < 0 then none else b.down (b.height - h.toNat)

@[simp]
theorem nHeight_child (h : Uint256) (p : CBlockIndex) : (child h p).nHeight = p.nHeight + 1 := by
  simp [nHeight, height]

theorem nHeight_nonneg (b : CBlockIndex) : 0 ≤ b.nHeight := by
  simp [nHeight]

end CBlockIndex

instance instOrdCOutPoint : Ord COutPoint :=
  ⟨compareOn fun o => (o.hash, o.n)⟩

instance instTransOrdCOutPoint : Std.TransOrd COutPoint :=
  inferInstanceAs (Std.TransCmp (compareOn fun o : COutPoint => (o.hash, o.n)))

instance instLawfulEqOrdCOutPoint : Std.LawfulEqOrd COutPoint where
  eq_of_compare {a b} h := by
    have hcompare : compare (a.hash, a.n) (b.hash, b.n) = .eq := h
    have hpair := Std.LawfulEqCmp.eq_of_compare hcompare
    cases a
    cases b
    cases hpair
    rfl

end OmegaCore
