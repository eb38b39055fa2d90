import Mathlib.Data.Nat.Bitwise
import OmegaCore.Util.Bytes
import OmegaCore.Util.Except

/-!
The numbers of a serialized stream: compact sizes, of which the first byte gives the width, and
VarInts, whose bytes are digits to the base 128 with a bit that says whether another digit follows.
Every number has one VarInt: all but the last digit count from one.
-/

namespace OmegaCore.Serialize

open Util List UInt8 Nat

/-- How a read fails: it throws, or it writes outside of the vector that it fills. -/
inductive ReadError where
  | failure (what : String)
  | outside (pos : Int)
  deriving DecidableEq, Repr

/-- A read gives a value and the rest of the stream. -/
abbrev Reader (α : Type) := Bytes → Except ReadError (α × Bytes)

def endOfData : ReadError :=
  .failure "CDataStream::read(): end of data"

def serReaddata8 : Reader UInt8
  | [] => .error endOfData
  | b :: bs => .ok (b, bs)

variable (n : ℕ) (b : UInt8)

def readBytes : Reader Bytes := fun bs =>
  if bs.length < n then .error endOfData else .ok (bs.take n, bs.drop n)

theorem readBytes_append {n : ℕ} {w : Bytes} (hw : w.length = n) (rest : Bytes) : readBytes n (w ++ rest) = .ok (w, rest) := by
  subst hw
  rw [readBytes, if_neg (by simp), take_left, drop_left]

/-! ### Compact sizes -/

def maxSize : ℕ := 0x02000000

def writeCompactSize (nSize : ℕ) : Bytes :=
  if nSize < 253 then [ofNat nSize]
  else if nSize ≤ 0xffff then 253 :: Bytes.ofNat 2 nSize
  else if nSize ≤ 0xffffffff then 254 :: Bytes.ofNat 4 nSize
  else 255 :: Bytes.ofNat 8 nSize

/-- A number of `n` bytes that has to be at least `least`. -/
def readCanonical (n least : ℕ) : Reader ℕ := fun bs => do
  let (w, bs) ← readBytes n bs
  if Bytes.toNat w < least then .error (.failure "non-canonical ReadCompactSize()") else .ok (Bytes.toNat w, bs)

/-- `ReadCompactSize` with its range check. -/
def readCompactSize : Reader ℕ := fun bs => do
  let (chSize, bs) ← serReaddata8 bs
  let (nSizeRet, bs) ←
    if chSize < 253 then .ok (chSize.toNat, bs)
    else if chSize = 253 then readCanonical 2 253 bs
    else if chSize = 254 then readCanonical 4 0x10000 bs
    else readCanonical 8 0x100000000 bs
  if maxSize < nSizeRet then .error (.failure "ReadCompactSize(): size too large") else .ok (nSizeRet, bs)

theorem readCanonical_ofNat {least v : ℕ} (hleast : least ≤ v) (hv : v < 256 ^ n) (rest : Bytes) :
    readCanonical n least (Bytes.ofNat n v ++ rest) = .ok (v, rest) := by
  unfold readCanonical
  rw [readBytes_append (Bytes.length_ofNat n v)]
  show (if _ then _ else _) = _
  rw [Bytes.toNat_ofNat, mod_eq_of_lt hv, if_neg (by omega)]

theorem readCompactSize_write {n : ℕ} (hn : n ≤ maxSize) (rest : Bytes) :
    readCompactSize (writeCompactSize n ++ rest) = .ok (n, rest) := by
  have hlimit : n ≤ 0x02000000 := hn
  unfold writeCompactSize
  split_ifs with hbyte hshort hint
  · have hsmall : (ofNat n).toNat = n := by
      rw [UInt8.toNat_ofNat', mod_eq_of_lt (by omega)]
    have hlt : ofNat n < 253 := by
      rw [lt_iff_toNat_lt, hsmall]
      exact hbyte
    simp only [readCompactSize, serReaddata8, cons_append, nil_append, bind, Except.bind, if_pos hlt, hsmall]
    exact if_neg (not_lt.mpr hn)
  · have hread := readCanonical_ofNat 2 (not_lt.mp hbyte) (by omega) rest
    simp only [readCompactSize, serReaddata8, cons_append, bind, Except.bind]
    rw [if_neg (by decide), if_pos trivial, hread]
    exact if_neg (not_lt.mpr hn)
  · have hleast : 0x10000 ≤ n := by omega
    have hread := readCanonical_ofNat 4 hleast (by omega) rest
    simp only [readCompactSize, serReaddata8, cons_append, bind, Except.bind]
    rw [if_neg (by decide), if_neg (by decide), if_pos trivial, hread]
    exact if_neg (not_lt.mpr hn)
  · omega

theorem readCompactSize_write_large {n : ℕ} (hn : maxSize < n) (rest : Bytes) :
    ∃ what, readCompactSize (writeCompactSize n ++ rest) = .error (.failure what) := by
  have hlimit : 0x02000000 < n := hn
  unfold writeCompactSize
  rw [if_neg (by omega), if_neg (by omega)]
  split_ifs with hint
  · have hleast : 0x10000 ≤ n := by omega
    have hread := readCanonical_ofNat 4 hleast (by omega) rest
    refine ⟨"ReadCompactSize(): size too large", ?_⟩
    simp only [readCompactSize, serReaddata8, cons_append, bind, Except.bind]
    rw [if_neg (by decide), if_neg (by decide), if_pos trivial, hread]
    exact if_pos hn
  · simp only [readCompactSize, serReaddata8, cons_append, bind, Except.bind, readCanonical,
      readBytes_append (Bytes.length_ofNat 8 n)]
    by_cases hleast : Bytes.toNat (Bytes.ofNat 8 n) < 0x100000000
    · exact ⟨"non-canonical ReadCompactSize()", by simp [hleast]⟩
    · have hlarge : maxSize < Bytes.toNat (Bytes.ofNat 8 n) := by
        unfold maxSize
        omega
      simp [hleast, hlarge]

theorem readCanonical_ok {n least v : ℕ} {bs rest : Bytes} (hread : readCanonical n least bs = .ok (v, rest)) :
    least ≤ v ∧ v < 256 ^ n ∧ bs = Bytes.ofNat n v ++ rest := by
  obtain ⟨⟨w, bs'⟩, hbytes, hread⟩ := bind_eq_ok.mp hread
  obtain ⟨hleast, hv⟩ := ite_error_eq_ok.mp hread
  obtain ⟨hn, hw⟩ := ite_error_eq_ok.mp hbytes
  cases hv
  cases hw
  have hlength : (bs.take n).length = n := by simp; omega
  have hinv := Bytes.ofNat_toNat (bs.take n)
  have hmod := Bytes.toNat_ofNat n (Bytes.toNat (bs.take n))
  rw [hlength] at hinv
  rw [hinv] at hmod
  exact ⟨not_lt.mp hleast, hmod ▸ mod_lt _ (by simp), by rw [hinv, take_append_drop]⟩

/-- A compact size is read from the bytes that are written for it, and from no others. -/
theorem readCompactSize_eq_ok {v : ℕ} {bs rest : Bytes} :
    readCompactSize bs = .ok (v, rest) ↔ v ≤ maxSize ∧ bs = writeCompactSize v ++ rest := by
  constructor
  · intro hread
    cases bs with
    | nil => cases hread
    | cons b bs =>
      simp only [readCompactSize, serReaddata8, ok_bind, lt_iff_toNat_lt, ← UInt8.toNat_inj] at hread
      have hb := b.toNat_lt
      unfold writeCompactSize
      split_ifs at hread with hlt hmax h253 h254
      · cases hread
        rw [if_pos (by exact hlt), UInt8.ofNat_toNat]
        exact ⟨not_lt.mp hmax, rfl⟩
      all_goals
        obtain ⟨⟨n, bs'⟩, hform, hread⟩ := bind_eq_ok.mp hread
        obtain ⟨hmax, hv⟩ := ite_error_eq_ok.mp hread
        obtain ⟨hleast, hbound, rfl⟩ := readCanonical_ok hform
        cases hv
        refine ⟨not_lt.mp hmax, ?_⟩
      · rw [if_neg (by omega), if_pos (by omega), UInt8.toNat_inj.mp h253, cons_append]
      · rw [if_neg (by omega), if_neg (by omega), if_pos (by omega), UInt8.toNat_inj.mp h254, cons_append]
      · have h255 : b = 255 := UInt8.toNat_inj.mp (by simp at *; omega)
        rw [if_neg (by omega), if_neg (by omega), if_neg (by omega), h255, cons_append]
  · rintro ⟨hv, rfl⟩
    exact readCompactSize_write hv rest

/-! ### VarInts -/

/-- The bytes that `WriteVarInt` puts into a buffer of `fuel` bytes, the last digit first. -/
def varIntTmp : ℕ → ℕ → Bool → Bytes
  | 0, _, _ => []
  | fuel + 1, n, isFirst =>
    let b := ofNat ((n &&& 0x7F) ||| if isFirst then 0x00 else 0x80)
    if n ≤ 0x7F then [b] else b :: varIntTmp fuel ((n >>> 7) - 1) false

/-- `WriteVarInt` for an unsigned type of `w` bits. -/
def writeVarInt (w n : ℕ) : Bytes :=
  (varIntTmp ((w + 6) / 7) n true).reverse

/-- The loop of `ReadVarInt` from the value of the digits that were read before. -/
def readVarIntFrom (w : ℕ) : ℕ → Reader ℕ
  | _, [] => .error endOfData
  | n, chData :: bs =>
    if (2 ^ w - 1) >>> 7 < n then .error (.failure "ReadVarInt(): size too large")
    else
      let n := n <<< 7 ||| (chData &&& 0x7F).toNat
      if chData &&& 0x80 ≠ 0 then
        if n = 2 ^ w - 1 then .error (.failure "ReadVarInt(): size too large") else readVarIntFrom w (n + 1) bs
      else .ok (n, bs)

def readVarInt (w : ℕ) : Reader ℕ :=
  readVarIntFrom w 0

theorem toNat_low : (b &&& 0x7F).toNat = b.toNat % 128 := by
  exact and_two_pow_sub_one_eq_mod b.toNat 7

theorem high_ne_zero : b &&& 0x80 ≠ 0 ↔ 128 ≤ b.toNat := by
  have hbytes : ∀ i : Fin 256, (i : ℕ) &&& 128 ≠ 0 ↔ 128 ≤ (i : ℕ) := by decide +kernel
  rw [Ne, ← UInt8.toNat_inj, UInt8.toNat_and]
  exact hbytes ⟨b.toNat, b.toNat_lt⟩

theorem shift_or : n <<< 7 ||| (b &&& 0x7F).toNat = n * 128 + b.toNat % 128 := by
  have hlt : b.toNat % 128 < 2 ^ 7 := mod_lt _ (by decide)
  rw [toNat_low, ← shiftLeft_add_eq_or_of_lt hlt, shiftLeft_eq]

theorem low_or (isFirst : Bool) :
    (n &&& 0x7F) ||| (if isFirst then 0x00 else 0x80) = n % 128 + if isFirst then 0 else 128 := by
  have hlow : n &&& 0x7F = n % 128 := and_two_pow_sub_one_eq_mod n 7
  rw [hlow]
  cases isFirst with
  | false =>
    have hlt : n % 128 < 2 ^ 7 := mod_lt _ (by decide)
    have hadd : 128 + n % 128 = 128 ||| n % 128 := two_pow_add_eq_or_of_lt hlt 1
    simp only [Bool.false_eq_true, if_false]
    rw [Nat.or_comm, ← hadd, Nat.add_comm]
  | true => simp

/-- The digits before the last one, where `0` stands for none. -/
def carried : ℕ → Bytes
  | 0 => []
  | n + 1 => carried (n / 128) ++ [ofNat (n % 128 + 128)]

@[simp]
theorem carried_zero : carried 0 = [] := by
  rw [carried]

theorem carried_succ : carried (n + 1) = carried (n / 128) ++ [ofNat (n % 128 + 128)] := by
  rw [carried]

theorem reverse_varIntTmp {fuel n : ℕ} (hn : n < 128 ^ (fuel + 1)) (isFirst : Bool) :
    (varIntTmp (fuel + 1) n isFirst).reverse =
      carried (n / 128) ++ [ofNat (n % 128 + if isFirst then 0 else 128)] := by
  induction fuel generalizing n isFirst with
  | zero =>
    have hsmall : n ≤ 0x7F := by omega
    rw [varIntTmp, if_pos hsmall, low_or, div_eq_of_lt (by omega), carried_zero]
    rfl
  | succ fuel ih =>
    rw [varIntTmp, low_or]
    by_cases hsmall : n ≤ 0x7F
    · rw [if_pos hsmall, div_eq_of_lt (by omega), carried_zero]
      rfl
    · have hshift : n >>> 7 = n / 128 := shiftRight_eq_div_pow n 7
      have hpos : n / 128 = n / 128 - 1 + 1 := by omega
      have hbound : n / 128 - 1 < 128 ^ (fuel + 1) := by
        have hdiv : n / 128 < 128 ^ (fuel + 1) := Nat.div_lt_of_lt_mul (by rw [← pow_succ']; exact hn)
        omega
      rw [if_neg hsmall, reverse_cons, hshift, ih hbound false]
      rw [hpos, carried_succ]
      rfl

variable {w n : ℕ}

theorem writeVarInt_eq (hw : 7 ≤ w) (hn : n < 2 ^ w) : writeVarInt w n = carried (n / 128) ++ [ofNat (n % 128)] := by
  obtain ⟨fuel, hfuel⟩ : ∃ fuel, (w + 6) / 7 = fuel + 1 := ⟨(w + 6) / 7 - 1, by omega⟩
  have hbound : n < 128 ^ (fuel + 1) := by
    have hpow : (128 : ℕ) ^ (fuel + 1) = 2 ^ (7 * (fuel + 1)) := (pow_mul 2 7 (fuel + 1)).symm
    rw [hpow]
    exact lt_of_lt_of_le hn (Nat.pow_le_pow_right (by decide) (by omega))
  rw [writeVarInt, hfuel, reverse_varIntTmp hbound true]
  rfl

theorem writeVarInt_ne_nil (hw : 7 ≤ w) (hn : n < 2 ^ w) : writeVarInt w n ≠ [] := by
  rw [writeVarInt_eq hw hn]
  simp

theorem readVarIntFrom_cons (w n : ℕ) (b : UInt8) (bs : Bytes) :
    readVarIntFrom w n (b :: bs) =
      if (2 ^ w - 1) / 128 < n then .error (.failure "ReadVarInt(): size too large")
      else if 128 ≤ b.toNat then
        if n * 128 + b.toNat % 128 = 2 ^ w - 1 then .error (.failure "ReadVarInt(): size too large")
        else readVarIntFrom w (n * 128 + b.toNat % 128 + 1) bs
      else .ok (n * 128 + b.toNat % 128, bs) := by
  rw [readVarIntFrom, shiftRight_eq_div_pow, shift_or]
  simp only [high_ne_zero]

theorem readVarIntFrom_carried (hn : n ≤ (2 ^ w - 1) / 128) (bs : Bytes) :
    readVarIntFrom w 0 (carried n ++ bs) = readVarIntFrom w n bs := by
  induction n using Nat.strongRecOn generalizing bs with
  | ind n ih =>
    cases n with
    | zero => rw [carried_zero, nil_append]
    | succ m =>
      have hbyte : (ofNat (m % 128 + 128)).toNat = m % 128 + 128 := by
        rw [UInt8.toNat_ofNat', mod_eq_of_lt (by omega)]
      rw [carried_succ, append_assoc, ih (m / 128) (by omega) (by omega), singleton_append, readVarIntFrom_cons,
        hbyte, if_neg (by omega), if_pos (by omega), if_neg (by omega)]
      congr 1
      omega

theorem readVarInt_write (hw : 7 ≤ w) (hn : n < 2 ^ w) (rest : Bytes) :
    readVarInt w (writeVarInt w n ++ rest) = .ok (n, rest) := by
  have hbyte : (ofNat (n % 128)).toNat = n % 128 := by
    rw [UInt8.toNat_ofNat', mod_eq_of_lt (by omega)]
  have hdiv : n / 128 ≤ (2 ^ w - 1) / 128 := Nat.div_le_div_right (by omega)
  rw [readVarInt, writeVarInt_eq hw hn, append_assoc, readVarIntFrom_carried hdiv, singleton_append,
    readVarIntFrom_cons, hbyte, if_neg (by omega), if_neg (by omega)]
  congr 2
  omega

theorem readVarIntFrom_ok {w n v : ℕ} {bs rest : Bytes} (hw : 7 ≤ w) (hread : readVarIntFrom w n bs = .ok (v, rest)) :
    v < 2 ^ w ∧ carried n ++ bs = carried (v / 128) ++ ofNat (v % 128) :: rest := by
  induction bs generalizing n with
  | nil => cases hread
  | cons b bs ih =>
    have hpos : 0 < 2 ^ (w - 7) := Nat.two_pow_pos (w - 7)
    have hpow : 2 ^ w = 128 * 2 ^ (w - 7) := by
      rw [show (128 : ℕ) = 2 ^ 7 from rfl, ← pow_add]
      congr 1
      omega
    have hb := b.toNat_lt
    rw [readVarIntFrom_cons] at hread
    split_ifs at hread with hlarge hmore hmax
    · obtain ⟨hv, hbytes⟩ := ih hread
      refine ⟨hv, ?_⟩
      have hdigit : ofNat ((n * 128 + b.toNat % 128) % 128 + 128) = b := by
        apply UInt8.toNat_inj.mp
        rw [UInt8.toNat_ofNat']
        omega
      have hn : (n * 128 + b.toNat % 128) / 128 = n := by omega
      rw [carried_succ, hdigit, hn, append_assoc, singleton_append] at hbytes
      exact hbytes
    · cases hread
      have hdigit : ofNat ((n * 128 + b.toNat % 128) % 128) = b := by
        apply UInt8.toNat_inj.mp
        rw [UInt8.toNat_ofNat']
        omega
      have hn : (n * 128 + b.toNat % 128) / 128 = n := by omega
      rw [hdigit, hn]
      exact ⟨by omega, rfl⟩

theorem readVarInt_ok {w v : ℕ} {bs rest : Bytes} (hw : 7 ≤ w) (hread : readVarInt w bs = .ok (v, rest)) :
    v < 2 ^ w ∧ bs = writeVarInt w v ++ rest := by
  obtain ⟨hv, hbytes⟩ := readVarIntFrom_ok hw hread
  refine ⟨hv, ?_⟩
  rw [carried_zero, nil_append] at hbytes
  rw [writeVarInt_eq hw hv, hbytes, append_assoc, singleton_append]

theorem readVarInt_eq_ok {w v : ℕ} {bs rest : Bytes} (hw : 7 ≤ w) :
    readVarInt w bs = .ok (v, rest) ↔ v < 2 ^ w ∧ bs = writeVarInt w v ++ rest := by
  refine ⟨readVarInt_ok hw, ?_⟩
  rintro ⟨hv, rfl⟩
  exact readVarInt_write hw hv rest

theorem readVarInt_eq_ok_300 : 7 ≤ 32 ∧ readVarInt 32 (writeVarInt 32 300 ++ [7]) = .ok (300, [7]) :=
  ⟨by decide, (readVarInt_eq_ok (by decide)).mpr ⟨by decide, rfl⟩⟩

theorem readVarIntFrom_error {bs : Bytes} {e : ReadError} (hread : readVarIntFrom w n bs = .error e) :
    ∃ what, e = .failure what := by
  induction bs generalizing n with
  | nil =>
    cases hread
    exact ⟨_, rfl⟩
  | cons b bs ih =>
    rw [readVarIntFrom_cons] at hread
    split_ifs at hread
    · cases hread
      exact ⟨_, rfl⟩
    · cases hread
      exact ⟨_, rfl⟩
    · exact ih hread

end OmegaCore.Serialize
