import Mathlib.Data.Nat.Bitwise
import OmegaCore.Primitives
import OmegaCore.Util.ByteFloat
import OmegaCore.Util.Limbs

/-!
The 256-bit numbers of the difficulty code, eight limbs of 32 bits, and their compact
form with one byte for the size and three for the mantissa.  Every operation is followed
by what it does to the number that the limbs stand for.
-/

namespace OmegaCore

open Util Util.Limbs Nat

/-- `arith_uint256`, which is `base_uint<256>`. -/
structure ArithUint256 where
  pn : List (BitVec 32)
  length_pn : pn.length = 8
  deriving DecidableEq, Repr

namespace ArithUint256

variable (a : ArithUint256)

def toNat : ℕ :=
  value a.pn

theorem capacity_eight : capacity 32 8 = 2 ^ 256 :=
  rfl

theorem toNat_lt (a : ArithUint256) : a.toNat < 2 ^ 256 := by
  have hlt := value_lt a.pn
  rw [a.length_pn, capacity_eight] at hlt
  exact hlt

@[ext] theorem ext_toNat {a b : ArithUint256} (h : a.toNat = b.toNat) : a = b := by
  have hpn : a.pn = b.pn := value_injective (a.length_pn.trans b.length_pn.symm) h
  cases b
  cases hpn
  rfl

/-! ### Conversions -/

/-- `base_uint(uint64_t b)`. -/
def ofUint64 (b : BitVec 64) : ArithUint256 where
  pn := [b.setWidth 32, (b >>> 32).setWidth 32, 0, 0, 0, 0, 0, 0]
  length_pn := rfl

def uintToArith256 (a : Uint256) : ArithUint256 where
  pn := (List.range 8).map fun x => (a >>> (32 * x)).setWidth 32
  length_pn := rfl

def ofNat (n : ℕ) : ArithUint256 :=
  uintToArith256 (BitVec.ofNat 256 n)

def getLow64 : BitVec 64 :=
  (limb a.pn 0).setWidth 64 ||| (limb a.pn 1).setWidth 64 <<< 32

@[simp] theorem toNat_ofUint64 (b : BitVec 64) : (ofUint64 b).toNat = b.toNat := by
  simp only [toNat, ofUint64, value, BitVec.toNat_setWidth, BitVec.toNat_ushiftRight, shiftRight_eq_div_pow]
  simp
  omega

@[simp] theorem toNat_uintToArith256 (a : Uint256) : (uintToArith256 a).toNat = a.toNat := by
  apply value_eq_of_testBit (by decide)
  · rw [(uintToArith256 a).length_pn, capacity_eight]
    exact a.isLt
  · intro i r hi hr
    have hi' : i < 8 := by simpa [uintToArith256] using hi
    rw [uintToArith256, limb_map_range _ hi', BitVec.getLsbD_setWidth, BitVec.getLsbD_ushiftRight,
      decide_eq_true hr, Bool.true_and]
    rfl

theorem toNat_ofNat {n : ℕ} (h : n < 2 ^ 256) : (ofNat n).toNat = n := by
  rw [ofNat, toNat_uintToArith256, BitVec.toNat_ofNat, mod_eq_of_lt h]

theorem toNat_getLow64 (a : ArithUint256) : a.getLow64.toNat = a.toNat % 2 ^ 64 := by
  have hmod : a.toNat % capacity 32 2 = (limb a.pn 0).toNat + 2 ^ 32 * (limb a.pn 1).toNat := by
    rw [toNat, value_mod_capacity, value_mod_capacity, capacity_zero, mod_one]
    simp [capacity]
  have h0 := (limb a.pn 0).isLt
  have hcapacity : capacity 32 2 = 2 ^ 64 := rfl
  rw [← hcapacity, hmod, getLow64, BitVec.toNat_or, BitVec.toNat_shiftLeft, BitVec.toNat_setWidth,
    BitVec.toNat_setWidth, mod_eq_of_lt (by omega), mod_eq_of_lt (a := (limb a.pn 1).toNat) (by omega),
    shiftLeft_eq, mod_eq_of_lt (by omega), Nat.or_comm, Nat.mul_comm, ← two_pow_add_eq_or_of_lt h0,
    Nat.add_comm]

/-! ### Arithmetic -/

/-- `operator+=`. -/
def add (a b : ArithUint256) : ArithUint256 where
  pn := addCarry 0 a.pn b.pn
  length_pn := by rw [length_addCarry, a.length_pn, b.length_pn, min_self]

/-- `operator*=(uint32_t)`. -/
def mulUint32 (b32 : BitVec 32) : ArithUint256 where
  pn := mulLimb b32 0 a.pn
  length_pn := by rw [length_mulLimb, a.length_pn]

/-- `operator*=(const base_uint&)`, row by row. -/
def mul (a b : ArithUint256) : ArithUint256 where
  pn := addRows (List.replicate 8 0#32) a.pn b.pn
  length_pn := by rw [length_addRows, List.length_replicate]

/-- `operator<<=`. -/
def shiftLeft (shift : ℕ) : ArithUint256 where
  pn := Limbs.shiftLeft a.pn shift
  length_pn := by rw [length_shiftLeft, a.length_pn]

/-- `operator>>=`. -/
def shiftRight (shift : ℕ) : ArithUint256 where
  pn := Limbs.shiftRight a.pn shift
  length_pn := by rw [length_shiftRight, a.length_pn]

def compareTo (a b : ArithUint256) : Ordering :=
  compareBelow a.pn b.pn 8

def bits : ℕ :=
  bitsBelow a.pn 8

/-- `operator/=`, which throws `uint_error("Division by zero")`. -/
def div (a b : ArithUint256) : Except String ArithUint256 :=
  if b.bits = 0 then .error "Division by zero"
  else .ok ⟨divide a.pn b.pn, by rw [length_divide, a.length_pn]⟩

theorem toNat_add (a b : ArithUint256) : (a.add b).toNat = (a.toNat + b.toNat) % 2 ^ 256 := by
  have hvalue := value_addCarry (c := 0#(32 + 32)) (by decide) (a.length_pn.trans b.length_pn.symm)
  rw [BitVec.toNat_zero, Nat.zero_add, a.length_pn] at hvalue
  exact hvalue

theorem toNat_mulUint32 (a : ArithUint256) (b32 : BitVec 32) :
    (a.mulUint32 b32).toNat = (a.toNat * b32.toNat) % 2 ^ 256 := by
  rw [toNat, mulUint32, value_mulLimb b32 (by decide), a.length_pn, capacity_eight]
  change (0 + b32.toNat * a.toNat) % 2 ^ 256 = _
  rw [Nat.zero_add, Nat.mul_comm]

theorem toNat_mul (a b : ArithUint256) : (a.mul b).toNat = (a.toNat * b.toNat) % 2 ^ 256 := by
  have hlength : (List.replicate 8 0#32).length ≤ b.pn.length := by
    rw [List.length_replicate, b.length_pn]
  have hvalue : value (a.mul b).pn = _ := value_addRows hlength
  rw [value_replicate_zero, Nat.zero_add, List.length_replicate, capacity_eight] at hvalue
  exact hvalue

theorem toNat_shiftLeft (a : ArithUint256) (shift : ℕ) :
    (a.shiftLeft shift).toNat = (a.toNat * 2 ^ shift) % 2 ^ 256 := by
  have hvalue := value_shiftLeft (by decide) a.pn shift
  rw [a.length_pn] at hvalue
  exact hvalue

theorem toNat_shiftRight (a : ArithUint256) (shift : ℕ) : (a.shiftRight shift).toNat = a.toNat / 2 ^ shift :=
  value_shiftRight (by decide) a.pn shift

theorem compareTo_eq (a b : ArithUint256) : a.compareTo b = compare a.toNat b.toNat := by
  have hcompare := compareBelow_length (a.length_pn.trans b.length_pn.symm)
  rw [a.length_pn] at hcompare
  exact hcompare

theorem bits_eq (a : ArithUint256) : a.bits = a.toNat.size := by
  have hbits := bitsBelow_length a.pn
  rw [a.length_pn] at hbits
  exact hbits

theorem div_eq_ok {a b : ArithUint256} (h : 0 < b.toNat) : ∃ q, a.div b = .ok q ∧ q.toNat = a.toNat / b.toNat := by
  have hbits : b.bits ≠ 0 := by
    rw [bits_eq]
    exact (size_pos.mpr h).ne'
  refine ⟨_, if_neg hbits, ?_⟩
  exact value_divide (by decide) (a.length_pn.trans b.length_pn.symm) h

/-! ### The compact form -/

def setCompact (nCompact : BitVec 32) : ArithUint256 :=
  let nSize := (nCompact >>> 24).toNat
  let nWord := nCompact &&& 0x007fffff
  if nSize ≤ 3 then ofUint64 ((nWord >>> (8 * (3 - nSize))).setWidth 64)
  else (ofUint64 (nWord.setWidth 64)).shiftLeft (8 * (nSize - 3))

def leadingWord (nSize : ℕ) : BitVec 32 :=
  if nSize ≤ 3 then (a.getLow64 <<< (8 * (3 - nSize))).setWidth 32
  else (a.shiftRight (8 * (nSize - 3))).getLow64.setWidth 32

def getCompact (fNegative : Bool := false) : BitVec 32 :=
  let nSize := (a.bits + 7) / 8
  let nCompact := a.leadingWord nSize
  -- the bit of the sign is already set, so a byte of the mantissa is given up
  let signed := nCompact &&& 0x00800000 ≠ 0
  let nCompact := if signed then nCompact >>> 8 else nCompact
  let nSize := if signed then nSize + 1 else nSize
  let nCompact := nCompact ||| BitVec.ofNat 32 nSize <<< 24
  nCompact ||| (if fNegative && nCompact &&& 0x007fffff ≠ 0 then 0x00800000 else 0#32)

theorem toNat_setCompact (nCompact : BitVec 32) :
    (setCompact nCompact).toNat = ofBytes (nCompact.toNat / 2 ^ 24) (nCompact.toNat % 2 ^ 23) % 2 ^ 256 := by
  have hsize : (nCompact >>> 24).toNat = nCompact.toNat / 2 ^ 24 := by
    rw [BitVec.toNat_ushiftRight, shiftRight_eq_div_pow]
  have hword : (nCompact &&& 0x007fffff).toNat = nCompact.toNat % 2 ^ 23 := by
    rw [BitVec.toNat_and]
    exact and_two_pow_sub_one_eq_mod _ 23
  have hlt := mod_lt nCompact.toNat (Nat.two_pow_pos 23)
  unfold setCompact ofBytes
  dsimp only
  rw [hsize]
  split_ifs with h3
  · have hle := (Nat.div_le_self (nCompact.toNat % 2 ^ 23) (2 ^ (8 * (3 - nCompact.toNat / 2 ^ 24)))).trans_lt hlt
    rw [toNat_ofUint64, BitVec.toNat_setWidth, BitVec.toNat_ushiftRight, shiftRight_eq_div_pow, hword,
      mod_eq_of_lt (hle.trans (by decide)), mod_eq_of_lt (hle.trans (by decide))]
  · rw [toNat_shiftLeft, toNat_ofUint64, BitVec.toNat_setWidth, hword, mod_eq_of_lt (b := 2 ^ 64) (by omega)]

theorem toNat_leadingWord {a : ArithUint256} {nSize : ℕ} (h : a.toNat.size ≤ 8 * nSize) :
    (a.leadingWord nSize).toNat = leadingBytes a.toNat nSize := by
  have hlt : leadingBytes a.toNat nSize < 2 ^ 24 := leadingBytes_lt (by omega)
  unfold leadingWord
  unfold leadingBytes at *
  split_ifs at * with h3
  · have hle : a.toNat ≤ a.toNat * 2 ^ (8 * (3 - nSize)) := Nat.le_mul_of_pos_right _ (Nat.two_pow_pos _)
    have hlow : a.toNat % 2 ^ 64 = a.toNat := mod_eq_of_lt (by omega)
    rw [BitVec.toNat_setWidth, BitVec.toNat_shiftLeft, toNat_getLow64, hlow, shiftLeft_eq,
      mod_eq_of_lt (hlt.trans (by decide)), mod_eq_of_lt (hlt.trans (by decide))]
  · rw [BitVec.toNat_setWidth, toNat_getLow64, toNat_shiftRight, mod_eq_of_lt (hlt.trans (by decide)),
      mod_eq_of_lt (hlt.trans (by decide))]

theorem and_sign_ne_zero {x : BitVec 32} (h : x.toNat < 2 ^ 24) : x &&& 0x00800000 ≠ 0 ↔ 2 ^ 23 ≤ x.toNat := by
  have hand : (x &&& 0x00800000).toNat = (x.toNat.testBit 23).toNat * 2 ^ 23 := by
    rw [BitVec.toNat_and]
    exact and_two_pow _ 23
  have hzero : x &&& 0x00800000 = 0 ↔ x.toNat.testBit 23 = false := by
    rw [← BitVec.toNat_inj, hand]
    cases x.toNat.testBit 23 <;> simp
  rw [Ne, hzero, testBit_eq_decide_div_mod_eq, decide_eq_false_iff_not]
  omega

theorem toNat_or_size {x : BitVec 32} {nSize : ℕ} (hx : x.toNat < 2 ^ 24) (hnSize : nSize < 2 ^ 8) :
    (x ||| BitVec.ofNat 32 nSize <<< 24).toNat = x.toNat + 2 ^ 24 * nSize := by
  rw [BitVec.toNat_or, BitVec.toNat_shiftLeft, BitVec.toNat_ofNat, mod_eq_of_lt (a := nSize) (by omega),
    shiftLeft_eq, mod_eq_of_lt (by omega), Nat.or_comm, Nat.mul_comm, ← two_pow_add_eq_or_of_lt hx,
    Nat.add_comm]

theorem le_leadingBytes_iff (n : ℕ) : 2 ^ 23 ≤ leadingBytes n ((n.size + 7) / 8) ↔ n ≠ 0 ∧ n.size % 8 = 0 := by
  constructor
  · intro h
    have hn : n ≠ 0 := by
      rintro rfl
      simp [leadingBytes] at h
    by_contra hmod
    have hlt : leadingBytes n ((n.size + 7) / 8) < 2 ^ 23 := leadingBytes_lt (by omega)
    omega
  · rintro ⟨hn, hmod⟩
    exact le_leadingBytes (size_pos.mpr (Nat.pos_of_ne_zero hn)) (by omega)

theorem toNat_getCompact (a : ArithUint256) :
    a.getCompact.toNat = byteMantissa a.toNat + 2 ^ 24 * byteExponent a.toNat := by
  have hsize : a.toNat.size ≤ 256 := size_le.mpr a.toNat_lt
  have hword : (a.leadingWord ((a.bits + 7) / 8)).toNat = leadingBytes a.toNat ((a.toNat.size + 7) / 8) := by
    rw [toNat_leadingWord (by rw [bits_eq]; omega), bits_eq]
  have hlt : leadingBytes a.toNat ((a.toNat.size + 7) / 8) < 2 ^ 24 := leadingBytes_lt (by omega)
  have hmantissa := byteMantissa_lt a.toNat
  have hsign := and_sign_ne_zero (hword ▸ hlt)
  rw [hword, le_leadingBytes_iff] at hsign
  unfold getCompact
  dsimp only
  rw [Bool.false_and, if_neg Bool.false_ne_true, BitVec.or_zero]
  by_cases hsigned : a.leadingWord ((a.bits + 7) / 8) &&& 0x00800000 ≠ 0
  · obtain ⟨hn, hmod⟩ := hsign.mp hsigned
    have hexponent : byteExponent a.toNat = (a.bits + 7) / 8 + 1 := by
      rw [byteExponent, if_neg hn, bits_eq]
      omega
    have hshifted : (a.leadingWord ((a.bits + 7) / 8) >>> 8).toNat = byteMantissa a.toNat := by
      rw [BitVec.toNat_ushiftRight, shiftRight_eq_div_pow, hword, byteMantissa, hexponent, bits_eq,
        leadingBytes_succ]
    rw [if_pos hsigned, if_pos hsigned, toNat_or_size (by omega) (by rw [bits_eq]; omega), hshifted, hexponent]
  · have hexponent : byteExponent a.toNat = (a.bits + 7) / 8 := by
      rw [hsign, not_and_or, not_ne_iff] at hsigned
      rw [byteExponent, bits_eq]
      split_ifs with hn
      · simp [hn]
      · omega
    rw [if_neg hsigned, if_neg hsigned, toNat_or_size (by omega) (by rw [bits_eq]; omega), hword, byteMantissa,
      hexponent, bits_eq]

theorem toNat_setCompact_getCompact (a : ArithUint256) : (setCompact a.getCompact).toNat = truncateBytes a.toNat := by
  have hmantissa := byteMantissa_lt a.toNat
  have hsize : a.getCompact.toNat / 2 ^ 24 = byteExponent a.toNat := by
    rw [toNat_getCompact]
    omega
  have hword : a.getCompact.toNat % 2 ^ 23 = byteMantissa a.toNat := by
    rw [toNat_getCompact]
    omega
  rw [toNat_setCompact, hsize, hword, ofBytes_byteExponent]
  exact mod_eq_of_lt ((truncateBytes_le _).trans_lt a.toNat_lt)

/-- Zero, or a number that is not negative, fits and is written with as few bytes as it needs. -/
def IsCanonical (nCompact : BitVec 32) : Prop :=
  let nSize := nCompact.toNat / 2 ^ 24
  let nWord := nCompact.toNat % 2 ^ 24
  nCompact = 0 ∨ 2 ^ 15 ≤ nWord ∧ nWord < 2 ^ 23 ∧ 2 ^ (8 * (3 - nSize)) ∣ nWord ∧ ofBytes nSize nWord < 2 ^ 256

theorem getCompact_setCompact {nCompact : BitVec 32} (h : IsCanonical nCompact) :
    (setCompact nCompact).getCompact = nCompact := by
  obtain rfl | ⟨hle, hlt, hdvd, hfits⟩ := h
  · decide
  · have hword : nCompact.toNat % 2 ^ 23 = nCompact.toNat % 2 ^ 24 := by omega
    obtain ⟨hexponent, hmantissa⟩ := byteExponent_ofBytes hle hlt hdvd
    apply BitVec.eq_of_toNat_eq
    rw [toNat_getCompact, toNat_setCompact, hword, mod_eq_of_lt hfits, hexponent, hmantissa]
    omega

theorem mul_div_compact_exact (a b : ArithUint256) :
    (a.mul b).toNat = a.toNat * b.toNat % 2 ^ 256 ∧
      (0 < b.toNat → ∃ q, a.div b = .ok q ∧ q.toNat = a.toNat / b.toNat) ∧
      IsGreatest {x | x ≤ a.toNat ∧ 2 ^ byteShift a.toNat ∣ x} (setCompact a.getCompact).toNat ∧
      (a.toNat ≤ b.toNat → a.getCompact ≤ b.getCompact) ∧
      ∀ nCompact, IsCanonical nCompact → (setCompact nCompact).getCompact = nCompact := by
  refine ⟨toNat_mul a b, div_eq_ok, ?_, ?_, fun _ => getCompact_setCompact⟩
  · rw [toNat_setCompact_getCompact]
    exact isGreatest_truncateBytes a.toNat
  · intro hle
    rw [BitVec.le_def, toNat_getCompact, toNat_getCompact]
    exact byteMantissa_add_mono hle

end ArithUint256

end OmegaCore
