import Mathlib.Algebra.Order.Ring.Nat
import Mathlib.Data.BitVec

/-!
Little-endian bytes.  A number is written to a fixed count of bytes, the least significant
one first, and read back from a slice of a longer byte string.

Hexadecimal digits.  A number is written with a fixed count of lower case digits, the
most significant one first, and read back from digits of either case.
-/

namespace OmegaCore.Util

abbrev Bytes := List UInt8

namespace Bytes

/-- The lowest `n` bytes of a number. -/
def ofNat : ℕ → ℕ → Bytes
  | 0, _ => []
  | n + 1, v => UInt8.ofNat (v % 256) :: ofNat n (v / 256)

def toNat : Bytes → ℕ
  | [] => 0
  | b :: bs => b.toNat + 256 * toNat bs

/-- The bytes of a word, in the order in which `memcpy` copies them. -/
def ofBitVec {w : ℕ} (n : ℕ) (x : BitVec w) : Bytes :=
  ofNat n x.toNat

/-- The `n` bytes from an offset on. -/
def slice (bs : Bytes) (off n : ℕ) : Bytes :=
  (bs.drop off).take n

def readAt (w : ℕ) (bs : Bytes) (off n : ℕ) : BitVec w :=
  BitVec.ofNat w (toNat (slice bs off n))

@[simp]
theorem length_ofNat (n v : ℕ) : (ofNat n v).length = n := by
  induction n generalizing v with
  | zero => rfl
  | succ n ih => rw [ofNat, List.length_cons, ih]

@[simp]
theorem length_ofBitVec {w : ℕ} (n : ℕ) (x : BitVec w) : (ofBitVec n x).length = n :=
  length_ofNat n x.toNat

theorem toNat_ofNat (n v : ℕ) : toNat (ofNat n v) = v % 256 ^ n := by
  induction n generalizing v with
  | zero => simp [ofNat, toNat, Nat.mod_one]
  | succ n ih =>
    have hbyte : (UInt8.ofNat (v % 256)).toNat = v % 256 := by
      rw [UInt8.toNat_ofNat', Nat.mod_mod]
    rw [ofNat, toNat, ih, hbyte, pow_succ', Nat.mod_mul]

theorem ofNat_toNat (bs : Bytes) : ofNat bs.length (toNat bs) = bs := by
  induction bs with
  | nil => rfl
  | cons b bs ih =>
    have hb := b.toNat_lt
    rw [List.length_cons, ofNat, toNat, show (b.toNat + 256 * toNat bs) % 256 = b.toNat by omega,
      show (b.toNat + 256 * toNat bs) / 256 = toNat bs by omega, ih, UInt8.ofNat_toNat]

theorem toNat_ofBitVec {n : ℕ} (x : BitVec (8 * n)) : toNat (ofBitVec n x) = x.toNat := by
  have hlt : x.toNat < 256 ^ n := by
    have hpow : (2 : ℕ) ^ (8 * n) = 256 ^ n := pow_mul 2 8 n
    exact hpow ▸ x.isLt
  rw [ofBitVec, toNat_ofNat, Nat.mod_eq_of_lt hlt]

theorem ofBitVec_injective {n : ℕ} : Function.Injective (ofBitVec n : BitVec (8 * n) → Bytes) := by
  intro x y h
  apply BitVec.eq_of_toNat_eq
  rw [← toNat_ofBitVec x, ← toNat_ofBitVec y, h]

theorem slice_append {before middle after : Bytes} {off n : ℕ} (hoff : before.length = off)
    (hn : middle.length = n) : slice (before ++ (middle ++ after)) off n = middle := by
  subst hoff hn
  rw [slice, List.drop_left, List.take_left]

theorem readAt_append {n : ℕ} (x : BitVec (8 * n)) {before after : Bytes} {off : ℕ}
    (hoff : before.length = off) : readAt (8 * n) (before ++ (ofBitVec n x ++ after)) off n = x := by
  rw [readAt, slice_append hoff (length_ofBitVec n x), toNat_ofBitVec, BitVec.ofNat_toNat, BitVec.setWidth_eq]

end Bytes

namespace Hex

def digitChars : List Char :=
  ['0', '1', '2', '3', '4', '5', '6', '7', '8', '9', 'a', 'b', 'c', 'd', 'e', 'f']

def digitChar (d : ℕ) : Char :=
  digitChars.getD d '0'

/-- The value of a digit that is read, of either case. -/
def hexDigit (c : Char) : Option ℕ :=
  if '0' ≤ c ∧ c ≤ '9' then some (c.toNat - '0'.toNat)
  else if 'a' ≤ c ∧ c ≤ 'f' then some (c.toNat - 'a'.toNat + 10)
  else if 'A' ≤ c ∧ c ≤ 'F' then some (c.toNat - 'A'.toNat + 10)
  else none

/-- The lowest `k` digits of a number. -/
def write : ℕ → ℕ → List Char
  | 0, _ => []
  | k + 1, n => write k (n / 16) ++ [digitChar (n % 16)]

def read (cs : List Char) : ℕ :=
  cs.foldl (fun n c => 16 * n + (hexDigit c).getD 0) 0

theorem hexDigit_digitChar {d : ℕ} (h : d < 16) : hexDigit (digitChar d) = some d := by
  have hall : ∀ d < 16, hexDigit (digitChar d) = some d := by decide
  exact hall d h

theorem length_write (k n : ℕ) : (write k n).length = k := by
  induction k generalizing n with
  | zero => rfl
  | succ k ih => rw [write, List.length_append, ih, List.length_singleton]

theorem isSome_hexDigit_of_mem_write {k n : ℕ} {c : Char} (h : c ∈ write k n) : (hexDigit c).isSome = true := by
  induction k generalizing n with
  | zero => cases h
  | succ k ih =>
    rcases List.mem_append.mp h with h | h
    · exact ih h
    · rw [List.mem_singleton.mp h, hexDigit_digitChar (Nat.mod_lt n (by omega))]
      rfl

theorem read_write (k n : ℕ) : read (write k n) = n % 16 ^ k := by
  induction k generalizing n with
  | zero => simp [read, write, Nat.mod_one]
  | succ k ih =>
    have hlast : read (write (k + 1) n) = 16 * read (write k (n / 16)) + n % 16 := by
      rw [write, read, List.foldl_append, ← read, List.foldl_cons, List.foldl_nil,
        hexDigit_digitChar (Nat.mod_lt n (by omega)), Option.getD_some]
    rw [hlast, ih, pow_succ', Nat.mod_mul]
    omega

end Hex

end OmegaCore.Util
