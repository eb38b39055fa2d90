import OmegaCore.Serialize.VarInt

/-!
Bit vectors in a serialized stream: as bytes (`FixedBitSet`), as the distances between the set bits
(`FixedVarIntsBitSet`), or as the shorter of the two (`AutoBitSet`).  The index of the first set bit
is computed in 32 bits, and a distance above 2^31 gives an index below the vector.
-/

namespace OmegaCore.Serialize

open Util List UInt8 Nat

/-! ### Bytes -/

variable (vec : List Bool) (size : ℕ)

def writeFixedBitSet : Bytes :=
  (List.range (min size vec.length)).foldl
    (fun vBytes p => vBytes.modify (p / 8) (· ||| (if vec.getD p false then 1 else 0) <<< ofNat (p % 8)))
    (List.replicate ((size + 7) / 8) 0)

variable (vBytes : Bytes) (p : ℕ)

/-- The bit `p` of some bytes. -/
def bitAt : Bool :=
  vBytes.getD (p / 8) 0 &&& 1 <<< ofNat (p % 8) != 0

def readFixedBitSet : Reader (List Bool) := fun bs => do
  let (vBytes, bs) ← readBytes ((size + 7) / 8) bs
  let vec := (List.range size).map (bitAt vBytes)
  -- the last byte has no bits above the vector
  if vBytes.length * 8 ≠ size ∧ vBytes.getD (vBytes.length - 1) 0 &&& ~~~(0xff >>> ofNat (vBytes.length * 8 - size)) ≠ 0 then
    .error (.failure "Out-of-range bits set")
  else .ok (vec, bs)

/-! ### Distances -/

/-- A number as a value of `int32_t`. -/
def toInt32 (n : Int) : Int :=
  n.bmod (2 ^ 32)

/-- The loop of `WriteFixedVarIntsBitSet` from an index on. -/
def writeOffsets (last i : Int) : List Bool → Bytes
  | [] => writeVarInt 32 0
  | true :: vec => writeVarInt 32 ((i - last) % 2 ^ 32).toNat ++ writeOffsets i (i + 1) vec
  | false :: vec => writeOffsets last (i + 1) vec

def writeFixedVarIntsBitSet : Bytes :=
  writeOffsets (-1) 0 (vec.take (toInt32 vec.length).toNat)

/-- `vec[idx] = true` -/
def setBit (idx : Int) : Except ReadError (List Bool) :=
  if 0 ≤ idx ∧ idx < vec.length then .ok (vec.set idx.toNat true) else .error (.outside idx)

/-- The loop of `ReadFixedVarIntsBitSet`.  It reads a byte or more in each round, so it takes no more rounds than there
are bytes. -/
def readOffsets (size : ℕ) : ℕ → List Bool → Int → Reader (List Bool)
  | 0, _, _, _ => .error endOfData
  | fuel + 1, vec, last, bs => do
    let (offset, bs) ← readVarInt 32 bs
    if offset = 0 then .ok (vec, bs)
    else
      let idx := toInt32 (last + offset)
      if toInt32 size ≤ idx then .error (.failure "out of bounds index")
      else if last ≠ -1 ∧ idx ≤ last then .error (.failure "offset overflow")
      else
        let vec ← setBit vec idx
        readOffsets size fuel vec idx bs

def readFixedVarIntsBitSet : Reader (List Bool) := fun bs =>
  readOffsets size bs.length (List.replicate size false) (-1) bs

/-! ### The shorter one -/

def getSizeOfFixedBitSet : ℕ :=
  (size + 7) / 8 % 2 ^ 32

/-- A vector in one of the two formats, after the byte that says which. -/
def autoFormat (isVarInts : Bool) (vec : List Bool) : Bytes :=
  if isVarInts then 1 :: writeFixedVarIntsBitSet vec else 0 :: writeFixedBitSet vec vec.length

/-- Whether the distances are not longer than the bytes. -/
def prefersVarInts : Bool :=
  !decide ((writeFixedBitSet vec vec.length).length < (writeFixedVarIntsBitSet vec).length)

/-- `WriteAutoBitSet`, or nothing if an assertion fails. -/
def writeAutoBitSet : Option Bytes :=
  if vec.length ≠ size then none
  else if (writeFixedBitSet vec size).length ≠ getSizeOfFixedBitSet size then none
  else some (autoFormat (prefersVarInts vec) vec)

def readAutoBitSet : Reader (List Bool) := fun bs => do
  let (isVarInts, bs) ← serReaddata8 bs
  if isVarInts ≠ 0 ∧ isVarInts ≠ 1 then .error (.failure "invalid value for isVarInts byte")
  else if isVarInts = 0 then readFixedBitSet size bs
  else readFixedVarIntsBitSet size bs

/-! ### Vectors with their length -/

def writeDynamicBitSet : Bytes :=
  writeCompactSize vec.length ++ writeFixedBitSet vec vec.length

def readDynamicBitSet : Reader (List Bool) := fun bs => do
  let (size, bs) ← readCompactSize bs
  readFixedBitSet size bs

/-! ### Bits and bytes -/

theorem bitAt_eq : bitAt vBytes p = (vBytes.getD (p / 8) 0).toNat.testBit (p % 8) := by
  have hbits : ∀ (i : Fin 256) (j : Fin 8), (ofNat i &&& 1 <<< ofNat j != 0) = (i : ℕ).testBit j := by
    decide +kernel
  have hbyte := hbits ⟨(vBytes.getD (p / 8) 0).toNat, toNat_lt _⟩ ⟨p % 8, mod_lt _ (by decide)⟩
  rw [bitAt, ← hbyte]
  simp

theorem bytes_ext {v w : Bytes} (hlen : v.length = w.length) (hbits : ∀ p < 8 * v.length, bitAt v p = bitAt w p) : v = w := by
  apply ext_getElem hlen
  intro i hv hw
  apply UInt8.toNat_inj.mp
  apply eq_of_testBit_eq
  intro j
  by_cases hj : j < 8
  · have hbit := hbits (8 * i + j) (by omega)
    rw [bitAt_eq, bitAt_eq] at hbit
    have hdiv : (8 * i + j) / 8 = i := by omega
    have hmod : (8 * i + j) % 8 = j := by omega
    rw [hdiv, hmod] at hbit
    simpa [getD_eq_getElem?_getD, hv, hw] using hbit
  · have hzero : ∀ b : UInt8, b.toNat.testBit j = false := by
      intro b
      apply testBit_lt_two_pow
      exact lt_of_lt_of_le b.toNat_lt (Nat.pow_le_pow_right (n := 2) (by decide) (not_lt.mp hj))
    rw [hzero, hzero]

theorem bitAt_replicate_zero (n p : ℕ) : bitAt (List.replicate n 0) p = false := by
  rw [bitAt_eq]
  simp

theorem bitAt_modify {vBytes : Bytes} {q : ℕ} (hq : q < 8 * vBytes.length) (b : Bool) (p : ℕ) :
    bitAt (vBytes.modify (q / 8) (· ||| (if b then 1 else 0) <<< ofNat (q % 8))) p =
      (bitAt vBytes p || (b && decide (p = q))) := by
  have hshift : ∀ (b : Bool) (j k : Fin 8),
      ((if b then 1 else 0 : UInt8) <<< ofNat k).toNat.testBit j = (b && decide (j = k)) := by decide +kernel
  have hbit := hshift b ⟨p % 8, mod_lt _ (by decide)⟩ ⟨q % 8, mod_lt _ (by decide)⟩
  rw [bitAt_eq, bitAt_eq, getD_eq_getElem?_getD, getD_eq_getElem?_getD, getElem?_modify]
  by_cases hbyte : q / 8 = p / 8
  · have hlt : p / 8 < vBytes.length := by omega
    have hpq : (p % 8 = q % 8) = (p = q) := propext ⟨by omega, by omega⟩
    rw [getElem?_eq_getElem hlt]
    simp only [Option.map_eq_map, Option.map_some, Option.getD_some, if_pos hbyte, UInt8.toNat_or, testBit_or]
    rw [hbit]
    simp [hpq]
  · have hpq : p ≠ q := by
      rintro rfl
      exact hbyte rfl
    simp [hbyte, hpq]

/-- One round of `WriteFixedBitSet`. -/
def putBit : Bytes :=
  vBytes.modify (p / 8) (· ||| (if vec.getD p false then 1 else 0) <<< ofNat (p % 8))

theorem length_foldl_putBit (vec : List Bool) (ps : List ℕ) (vBytes : Bytes) :
    (ps.foldl (putBit vec) vBytes).length = vBytes.length := by
  induction ps generalizing vBytes with
  | nil => rfl
  | cons q ps ih => rw [foldl_cons, ih, putBit, length_modify]

theorem bitAt_foldl_putBit (vec : List Bool) (ps : List ℕ) (vBytes : Bytes) (hps : ∀ q ∈ ps, q < 8 * vBytes.length) (p : ℕ) :
    bitAt (ps.foldl (putBit vec) vBytes) p = (bitAt vBytes p || (decide (p ∈ ps) && vec.getD p false)) := by
  induction ps generalizing vBytes with
  | nil => simp
  | cons q ps ih =>
    have hrest : ∀ x ∈ ps, x < 8 * (putBit vec vBytes q).length := by
      intro x hx
      rw [putBit, length_modify]
      exact hps x (mem_cons_of_mem q hx)
    rw [foldl_cons, ih _ hrest, putBit, bitAt_modify (hps q mem_cons_self)]
    by_cases hpq : p = q
    · subst hpq
      cases bitAt vBytes p <;> cases vec.getD p false <;> simp
    · simp [hpq]

@[simp]
theorem length_writeFixedBitSet (vec : List Bool) (size : ℕ) : (writeFixedBitSet vec size).length = (size + 7) / 8 := by
  exact (length_foldl_putBit vec _ _).trans length_replicate

theorem bitAt_writeFixedBitSet (vec : List Bool) (p : ℕ) : bitAt (writeFixedBitSet vec vec.length) p = vec.getD p false := by
  have hrange : ∀ q ∈ range (min vec.length vec.length),
      q < 8 * (replicate ((vec.length + 7) / 8) (0 : UInt8)).length := by
    intro q hq
    rw [mem_range] at hq
    rw [length_replicate]
    omega
  refine (bitAt_foldl_putBit vec _ _ hrange p).trans ?_
  rw [bitAt_replicate_zero, Bool.false_or]
  by_cases hp : p < vec.length
  · simp [hp]
  · simp [hp, getD_eq_getElem?_getD]

variable {size : ℕ}

/-- The check of the last byte: no bit from the size on is set. -/
theorem out_of_range_iff {vBytes : Bytes} (hlen : vBytes.length = (size + 7) / 8) :
    (vBytes.length * 8 ≠ size ∧
      vBytes.getD (vBytes.length - 1) 0 &&& ~~~(0xff >>> ofNat (vBytes.length * 8 - size)) ≠ 0) ↔
      ∃ p, size ≤ p ∧ p < 8 * vBytes.length ∧ bitAt vBytes p = true := by
  have hmask : ∀ (i : Fin 256) (rem : Fin 8), ofNat i &&& ~~~(0xff >>> ofNat rem) ≠ 0 ↔
      ∃ j : Fin 8, 8 ≤ (j : ℕ) + rem ∧ (i : ℕ).testBit j = true := by decide +kernel
  have hlast := hmask ⟨(vBytes.getD (vBytes.length - 1) 0).toNat, toNat_lt _⟩ ⟨vBytes.length * 8 - size, by omega⟩
  dsimp only at hlast
  rw [UInt8.ofNat_toNat] at hlast
  rw [hlast]
  constructor
  · rintro ⟨hne, j, hj, hbit⟩
    refine ⟨8 * (vBytes.length - 1) + j, by omega, by omega, ?_⟩
    have hdiv : (8 * (vBytes.length - 1) + (j : ℕ)) / 8 = vBytes.length - 1 := by omega
    have hmod : (8 * (vBytes.length - 1) + (j : ℕ)) % 8 = j := by omega
    rw [bitAt_eq, hdiv, hmod]
    exact hbit
  · rintro ⟨p, hsize, hp, hbit⟩
    have hdiv : p / 8 = vBytes.length - 1 := by omega
    rw [bitAt_eq, hdiv] at hbit
    exact ⟨by omega, ⟨p % 8, mod_lt _ (by decide)⟩, by dsimp only; omega, hbit⟩

variable {vec : List Bool}

/-- What is read: it throws, or the vector has the size and its distances are the bytes that were read. -/
def Faithful (size : ℕ) (write : List Bool → Bytes) (bs : Bytes) : Except ReadError (List Bool × Bytes) → Prop
  | .error (.failure _) => True
  | .error (.outside _) => False
  | .ok (vec, rest) => vec.length = size ∧ bs = write vec ++ rest

theorem readFixedBitSet_faithful (size : ℕ) (bs : Bytes) :
    Faithful size (fun vec => writeFixedBitSet vec vec.length) bs (readFixedBitSet size bs) := by
  unfold readFixedBitSet readBytes
  by_cases hshort : bs.length < (size + 7) / 8
  · rw [if_pos hshort]
    trivial
  · have hlen : (bs.take ((size + 7) / 8)).length = (size + 7) / 8 := by
      rw [length_take]
      omega
    have hsplit := take_append_drop ((size + 7) / 8) bs
    rw [if_neg hshort]
    simp only [bind, Except.bind]
    generalize bs.take ((size + 7) / 8) = vBytes at hlen hsplit ⊢
    split_ifs with hbits
    · trivial
    · rw [out_of_range_iff hlen] at hbits
      refine ⟨by simp, ?_⟩
      have hsame : vBytes =
          writeFixedBitSet ((range size).map (bitAt vBytes)) ((range size).map (bitAt vBytes)).length := by
        apply bytes_ext
        · rw [length_writeFixedBitSet, hlen]
          simp
        · intro p hp
          rw [bitAt_writeFixedBitSet, getD_eq_getElem?_getD]
          by_cases hsize : p < size
          · simp [hsize]
          · have hclear : bitAt vBytes p = false := by
              rw [← Bool.not_eq_true]
              exact fun hset => hbits ⟨p, not_lt.mp hsize, hp, hset⟩
            rw [hclear]
            simp [hsize]
      dsimp only
      rw [← hsame, hsplit]

variable {bs : Bytes}

theorem readFixedBitSet_write (vec : List Bool) (rest : Bytes) :
    readFixedBitSet vec.length (writeFixedBitSet vec vec.length ++ rest) = .ok (vec, rest) := by
  have hwritten := length_writeFixedBitSet vec vec.length
  unfold readFixedBitSet
  rw [readBytes_append hwritten]
  simp only [bind, Except.bind]
  rw [if_neg]
  · congr 2
    apply ext_getElem
    · simp
    · intro i hi hv
      rw [getElem_map, getElem_range, bitAt_writeFixedBitSet, getD_eq_getElem?_getD,
        getElem?_eq_getElem hv]
      rfl
  · rw [out_of_range_iff hwritten]
    rintro ⟨p, hsize, -, hbit⟩
    rw [bitAt_writeFixedBitSet, getD_eq_getElem?_getD, getElem?_eq_none hsize] at hbit
    cases hbit

/-! ### Indices in 32 bits -/

theorem toInt32_eq (n : Int) : toInt32 n = if n % 2 ^ 32 < 2 ^ 31 then n % 2 ^ 32 else n % 2 ^ 32 - 2 ^ 32 := by
  rfl

theorem toInt32_of_lt {n : Int} (hlow : -2 ^ 31 ≤ n) (hhigh : n < 2 ^ 31) : toInt32 n = n := by
  rw [toInt32_eq]
  split <;> omega

theorem toInt32_of_ge {n : Int} (hlow : 2 ^ 31 ≤ n) (hhigh : n < 2 ^ 32 + 2 ^ 31) : toInt32 n = n - 2 ^ 32 := by
  rw [toInt32_eq]
  split <;> omega

theorem toInt32_lt (n : Int) : toInt32 n < 2 ^ 31 := by
  rw [toInt32_eq]
  split <;> omega

theorem toInt32_le (n : ℕ) : toInt32 n ≤ n := by
  rw [toInt32_eq]
  split <;> omega

theorem writeOffsets_false (last i : Int) (k : ℕ) (vec : List Bool) :
    writeOffsets last i (List.replicate k false ++ vec) = writeOffsets last (i + k) vec := by
  induction k generalizing i with
  | zero => simp
  | succ k ih =>
    rw [replicate_succ, cons_append, writeOffsets, ih]
    congr 1
    omega

theorem writeOffsets_true {last i : Int} {offset : ℕ} (hoffset : i - last = offset) (hlt : offset < 2 ^ 32) (vec : List Bool) :
    writeOffsets last i (true :: vec) = writeVarInt 32 offset ++ writeOffsets i (i + 1) vec := by
  have hmod : ((i - last) % 2 ^ 32).toNat = offset := by omega
  rw [writeOffsets, hmod]

/-- The first distance is above 2^31. -/
def startsFar (bs : Bytes) : Bool :=
  match readVarInt 32 bs with
  | .ok (offset, _) => decide (2 ^ 31 < offset)
  | .error _ => false

/-- One round: an index below the size is set above the last one, and otherwise it throws.  The first index is taken
from an offset of at most 2^31. -/
theorem readOffsets_round (fuel : ℕ) {k offset : ℕ} {bs bs' : Bytes} (hk : k ≤ toInt32 size)
    (hread : readVarInt 32 bs = .ok (offset, bs')) (hpos : offset ≠ 0) (hfirst : k = 0 → offset ≤ 2 ^ 31) :
    ((k + offset : ℕ) ≤ toInt32 size → k + offset ≤ vec.length → readOffsets size (fuel + 1) vec (k - 1) bs =
        readOffsets size fuel (vec.set (k + offset - 1) true) ((k + offset : ℕ) - 1) bs') ∧
      (toInt32 size < (k + offset : ℕ) → ∃ what, readOffsets size (fuel + 1) vec (k - 1) bs = .error (.failure what)) := by
  have hlt := (readVarInt_ok (by decide) hread).1
  have hmax := toInt32_lt size
  rw [readOffsets, hread]
  simp only [bind, Except.bind]
  rw [if_neg hpos]
  by_cases hwrap : (k : Int) - 1 + offset < 2 ^ 31
  · rw [toInt32_of_lt (by omega) hwrap]
    refine ⟨fun hin hvec => ?_, fun hout => ⟨_, if_pos (by omega)⟩⟩
    have hidx : ((k : Int) - 1 + offset).toNat = k + offset - 1 := by omega
    have hlast : (k : Int) - 1 + offset = (k + offset : ℕ) - 1 := by omega
    rw [if_neg (by omega), if_neg (by omega), setBit, if_pos (by omega), hidx, hlast]
  · -- the sum wraps around to an index that is not above the last one
    rw [toInt32_of_ge (n := k - 1 + offset) (by omega) (by omega), if_neg (by omega), if_pos (by omega)]
    exact ⟨fun hin => by omega, fun hout => ⟨_, rfl⟩⟩

/-- The loop from an index on, where the vector is clear. -/
theorem readOffsets_faithful (hsize : size < 2 ^ 31) (fuel : ℕ) (low : List Bool) (hlow : low.length ≤ size)
    (bs : Bytes) (hfirst : low = [] → startsFar bs = false) :
    match readOffsets size fuel (low ++ List.replicate (size - low.length) false) (low.length - 1) bs with
    | .error e => ∃ what, e = .failure what
    | .ok (vec, rest) => ∃ v, vec = low ++ v ∧ v.length = size - low.length ∧
        bs = writeOffsets (low.length - 1) low.length v ++ rest := by
  induction fuel generalizing low bs with
  | zero => exact ⟨_, rfl⟩
  | succ fuel ih =>
    cases hread : readVarInt 32 bs with
    | error e =>
      rw [readOffsets, hread]
      exact readVarIntFrom_error hread
    | ok r =>
      obtain ⟨offset, bs'⟩ := r
      obtain ⟨hlt, hbytes⟩ := readVarInt_ok (by decide) hread
      by_cases hzero : offset = 0
      · subst hzero
        rw [readOffsets, hread]
        refine ⟨replicate (size - low.length) false, rfl, length_replicate, ?_⟩
        have hclear := writeOffsets_false (low.length - 1) low.length (size - low.length) []
        rw [append_nil] at hclear
        rw [hclear]
        exact hbytes
      · have hbound : toInt32 size = size := toInt32_of_lt (by omega) (by omega)
        have hround := @readOffsets_round size (low ++ replicate (size - low.length) false) fuel low.length offset bs
          bs' (by omega) hread hzero fun hk => by simpa [startsFar, hread] using hfirst (length_eq_zero_iff.mp hk)
        rw [hbound, Int.ofNat_le, Int.ofNat_lt] at hround
        clear hbound
        rcases lt_or_ge size (low.length + offset) with hout | hin
        · obtain ⟨what, hthrow⟩ := hround.2 hout
          rw [hthrow]
          exact ⟨what, rfl⟩
        · -- the bits up to the new index
          have hclear : replicate (size - low.length) false =
              replicate (offset - 1) false ++ false :: replicate (size - (low.length + offset)) false := by
            rw [← replicate_succ, replicate_append_replicate]
            congr 1
            omega
          have hset : (low ++ replicate (size - low.length) false).set (low.length + offset - 1) true =
              (low ++ (replicate (offset - 1) false ++ [true])) ++ replicate (size - (low.length + offset)) false := by
            have hidx : low.length + offset - 1 - low.length = offset - 1 := by omega
            rw [hclear, set_append_right _ _ (by omega), hidx, set_append_right _ _ (by simp)]
            simp
          have hlen : (low ++ (replicate (offset - 1) false ++ [true])).length = low.length + offset := by
            simp
            omega
          have hnext := ih (low ++ (replicate (offset - 1) false ++ [true])) (by omega) bs'
            (fun hnil => absurd hnil (by simp))
          rw [hlen, ← hset] at hnext
          rw [hround.1 hin (by simp; omega)]
          generalize readOffsets size fuel _ _ bs' = r at hnext ⊢
          obtain e | ⟨vec, rest⟩ := r
          · exact hnext
          · obtain ⟨v, hvec, hv, hrest⟩ := hnext
            have hdistance : (low.length : Int) + (offset - 1 : ℕ) - (low.length - 1) = offset := by omega
            refine ⟨replicate (offset - 1) false ++ true :: v, by simp [hvec], by simp; omega, ?_⟩
            rw [writeOffsets_false, writeOffsets_true hdistance hlt, append_assoc, hbytes, hrest]
            congr 3
            · omega
            · omega

/-- The distances of a vector are read back into a clear one.  Above the vector there may be more bits. -/
theorem readOffsets_write {size : ℕ} (v low high : List Bool) (k fuel : ℕ) (rest : Bytes) (hk : k ≤ low.length)
    (hsize : v ≠ [] → (low.length + v.length : ℕ) ≤ toInt32 size)
    (hfuel : (writeOffsets (k - 1) low.length v).length ≤ fuel) :
    readOffsets size fuel (low ++ List.replicate v.length false ++ high) (k - 1)
      (writeOffsets (k - 1) low.length v ++ rest) = .ok (low ++ v ++ high, rest) := by
  have hmax := toInt32_lt size
  induction v generalizing low k fuel with
  | nil =>
    cases fuel with
    | zero => exact absurd (length_eq_zero_iff.mp (le_zero.mp hfuel)) (writeVarInt_ne_nil (by decide) (by decide))
    | succ fuel =>
      rfl
  | cons b v ih =>
    have hlen : ∀ b : Bool, (low ++ [b]).length = low.length + 1 := by simp
    have hsize := hsize (cons_ne_nil b v)
    rw [length_cons] at hsize
    cases b with
    | false =>
      have hbytes : (writeOffsets (k - 1) (low ++ [false]).length v).length ≤ fuel := by
        rw [hlen, cast_succ]
        exact hfuel
      have hnext := ih (low ++ [false]) k fuel (by rw [hlen]; omega) (fun _ => by rw [hlen]; omega) hbytes
      simpa [replicate_succ, writeOffsets] using hnext
    | true =>
      obtain ⟨offset, hoffset⟩ : ∃ offset, k + offset = low.length + 1 := ⟨low.length + 1 - k, by omega⟩
      have hdistance : (low.length : Int) - (k - 1) = offset := by omega
      have hlt : offset < 2 ^ 32 := by omega
      rw [writeOffsets_true hdistance hlt] at hfuel ⊢
      rw [length_append] at hfuel
      have hbyte := length_pos_iff.mpr (writeVarInt_ne_nil (w := 32) (by decide) hlt)
      cases fuel with
      | zero => omega
      | succ fuel =>
        have hnext := ih (low ++ [true]) (low.length + 1) fuel (by rw [hlen]) (fun _ => by rw [hlen]; omega)
          (by rw [hlen, cast_succ, add_sub_cancel_right]; omega)
        have hround := (@readOffsets_round size (low ++ replicate (true :: v).length false ++ high) fuel k offset _ _
          (by omega) (readVarInt_write (by decide) hlt (writeOffsets low.length (low.length + 1) v ++ rest)) (by omega)
          fun _ => by omega).1 (by omega) (by simp; omega)
        rw [hoffset] at hround
        rw [append_assoc (writeVarInt 32 offset), hround]
        simpa [replicate_succ] using hnext

/-! ### Streams from a peer -/

theorem writeFixedVarIntsBitSet_eq (hlen : vec.length < 2 ^ 31) :
    writeFixedVarIntsBitSet vec = writeOffsets (-1) 0 vec := by
  rw [writeFixedVarIntsBitSet, toInt32_of_lt (by omega) (by omega), Int.toNat_natCast, take_length]

theorem readFixedVarIntsBitSet_far (hsize : size < 2 ^ 31) (hfar : startsFar bs = true) :
    ∃ idx < 0, readFixedVarIntsBitSet size bs = .error (.outside idx) := by
  unfold startsFar at hfar
  split at hfar
  next offset rest hread =>
    have hoffset : 2 ^ 31 < offset := of_decide_eq_true hfar
    have hlt := (readVarInt_ok (by decide) hread).1
    refine ⟨-1 + offset - 2 ^ 32, by omega, ?_⟩
    obtain ⟨fuel, hfuel⟩ : ∃ fuel, bs.length = fuel + 1 := by
      cases bs with
      | nil => cases hread
      | cons b bs => exact ⟨bs.length, rfl⟩
    rw [readFixedVarIntsBitSet, hfuel, readOffsets, hread]
    have hidx : toInt32 (-1 + offset) = -1 + offset - 2 ^ 32 := toInt32_of_ge (by omega) (by omega)
    have hbound : toInt32 size = size := toInt32_of_lt (by omega) (by omega)
    simp only [bind, Except.bind]
    rw [if_neg (by omega), hidx, hbound, if_neg (by omega), if_neg (by simp), setBit, if_neg (by omega)]
  next => cases hfar

theorem readFixedVarIntsBitSet_faithful_iff (hsize : size < 2 ^ 31) (bs : Bytes) :
    Faithful size writeFixedVarIntsBitSet bs (readFixedVarIntsBitSet size bs) ↔ startsFar bs = false := by
  constructor
  · intro hfaithful
    rw [← Bool.not_eq_true]
    intro hfar
    obtain ⟨idx, -, hread⟩ := readFixedVarIntsBitSet_far hsize hfar
    rw [hread] at hfaithful
    exact hfaithful
  · intro hnear
    have hloop := readOffsets_faithful hsize bs.length [] (Nat.zero_le size) bs (fun _ => hnear)
    have hstart : readOffsets size bs.length ([] ++ replicate (size - ([] : List Bool).length) false)
        ((([] : List Bool).length : ℕ) - 1) bs = readFixedVarIntsBitSet size bs := rfl
    rw [hstart] at hloop
    generalize readFixedVarIntsBitSet size bs = r at hloop ⊢
    obtain e | ⟨vec, rest⟩ := r
    · obtain ⟨what, rfl⟩ := hloop
      trivial
    · obtain ⟨v, hvec, hv, hbytes⟩ := hloop
      subst hvec
      have hlen : vec.length = size := hv
      refine ⟨hlen, ?_⟩
      rw [writeFixedVarIntsBitSet_eq (hlen ▸ hsize)]
      exact hbytes

theorem faithful_cons {write : List Bool → Bytes} {r : Except ReadError (List Bool × Bytes)} (b : UInt8) :
    Faithful size (fun vec => b :: write vec) (b :: bs) r ↔ Faithful size write bs r := by
  match r with
  | .error (.failure _) => exact Iff.rfl
  | .error (.outside _) => exact Iff.rfl
  | .ok (vec, rest) =>
    show vec.length = size ∧ b :: bs = b :: write vec ++ rest ↔ vec.length = size ∧ bs = write vec ++ rest
    simp

theorem readAutoBitSet_one (size : ℕ) (bs : Bytes) : readAutoBitSet size (1 :: bs) = readFixedVarIntsBitSet size bs :=
  rfl

theorem readAutoBitSet_faithful_iff (hsize : size < 2 ^ 31) (bs : Bytes) :
    Faithful size (autoFormat (bs.head? == some 1)) bs (readAutoBitSet size bs) ↔
      ¬ (bs.head? = some 1 ∧ startsFar bs.tail = true) := by
  cases bs with
  | nil =>
    refine iff_of_true trivial ?_
    simp
  | cons b bs =>
    by_cases hzero : b = 0
    · subst hzero
      refine iff_of_true ?_ (by simp)
      exact (faithful_cons 0).mpr (readFixedBitSet_faithful size bs)
    · by_cases hone : b = 1
      · subst hone
        refine ((faithful_cons 1).trans (readFixedVarIntsBitSet_faithful_iff hsize bs)).trans ?_
        simp
      · have hread : readAutoBitSet size (b :: bs) = .error (.failure "invalid value for isVarInts byte") := by
          simp [readAutoBitSet, serReaddata8, bind, Except.bind, hzero, hone]
        rw [hread]
        refine iff_of_true trivial ?_
        simp [hone]

/-! ### Reading back -/

theorem readDynamicBitSet_write_iff (vec : List Bool) (rest : Bytes) :
    readDynamicBitSet (writeDynamicBitSet vec ++ rest) = .ok (vec, rest) ↔ vec.length ≤ maxSize := by
  unfold readDynamicBitSet writeDynamicBitSet
  rw [append_assoc]
  constructor
  · intro hread
    by_contra hlarge
    obtain ⟨what, herror⟩ := readCompactSize_write_large (not_le.mp hlarge) (writeFixedBitSet vec vec.length ++ rest)
    rw [herror] at hread
    cases hread
  · intro hsmall
    rw [readCompactSize_write hsmall]
    exact readFixedBitSet_write vec rest

theorem readFixedVarIntsBitSet_write (vec : List Bool) (rest : Bytes) :
    readFixedVarIntsBitSet vec.length (writeFixedVarIntsBitSet vec ++ rest) =
      .ok (vec.take (toInt32 vec.length).toNat ++ List.replicate (vec.length - (toInt32 vec.length).toNat) false, rest) := by
  have hle := toInt32_le vec.length
  have hsize : (toInt32 vec.length).toNat ≤ toInt32 vec.length ∨ (toInt32 vec.length).toNat = 0 := by omega
  unfold readFixedVarIntsBitSet writeFixedVarIntsBitSet
  generalize hn : (toInt32 vec.length).toNat = n at hsize ⊢
  have hreach : n ≤ vec.length := by omega
  have hlen : (vec.take n).length = n := by rw [length_take, min_eq_left hreach]
  have hclear : replicate vec.length false =
      replicate (vec.take n).length false ++ replicate (vec.length - n) false := by
    rw [hlen, replicate_append_replicate, Nat.add_sub_cancel' hreach]
  rw [hclear]
  have hread := @readOffsets_write vec.length (vec.take n) [] (replicate (vec.length - n) false) 0
    (writeOffsets (-1) 0 (vec.take n) ++ rest).length rest le_rfl
  rw [nil_append, nil_append] at hread
  refine hread (fun hne => ?_) ?_
  · have hpos := length_pos_iff.mpr hne
    simp only [length_nil, Nat.zero_add]
    omega
  · rw [length_append]
    exact Nat.le_add_right _ _

theorem readFixedVarIntsBitSet_write_iff (vec : List Bool) (rest : Bytes) :
    readFixedVarIntsBitSet vec.length (writeFixedVarIntsBitSet vec ++ rest) = .ok (vec, rest) ↔
      ∀ p : ℕ, toInt32 vec.length ≤ p → vec.getD p false = false := by
  have hsplit := take_append_drop (toInt32 vec.length).toNat vec
  rw [readFixedVarIntsBitSet_write]
  constructor
  · intro hsame p hp
    have hvec := (Prod.mk.inj (Except.ok.inj hsame)).1
    rw [← hvec, getD_eq_getElem?_getD, getElem?_append_right (by rw [length_take]; omega),
      getElem?_replicate]
    split <;> rfl
  · intro hclear
    have htail : vec.drop (toInt32 vec.length).toNat = replicate (vec.length - (toInt32 vec.length).toNat) false := by
      apply ext_getElem
      · simp
      · intro i hi hi'
        have hbit := hclear ((toInt32 vec.length).toNat + i) (by omega)
        rw [getElem_replicate, getElem_drop, ← hbit, getD_eq_getElem?_getD, getElem?_eq_getElem,
          Option.getD_some]
    rw [← htail, hsplit]

theorem readAutoBitSet_write_iff (hwrite : writeAutoBitSet vec vec.length = some bs) (rest : Bytes) :
    readAutoBitSet vec.length (bs ++ rest) = .ok (vec, rest) ↔
      (prefersVarInts vec = true → ∀ p : ℕ, toInt32 vec.length ≤ p → vec.getD p false = false) := by
  unfold writeAutoBitSet at hwrite
  split_ifs at hwrite
  obtain rfl := Option.some.inj hwrite
  cases prefersVarInts vec with
  | false =>
    exact iff_of_true (readFixedBitSet_write vec rest) (fun h => absurd h Bool.false_ne_true)
  | true =>
    rw [autoFormat, if_pos rfl, cons_append, readAutoBitSet_one, readFixedVarIntsBitSet_write_iff]
    simp

/-- What a stream can do to a bit set of a size, and which bit vectors are read back. -/
theorem bitSets_exact (vec : List Bool) (rest : Bytes) : (∀ size < 2 ^ 31, ∀ bs,
      Faithful size (fun vec => writeFixedBitSet vec vec.length) bs (readFixedBitSet size bs) ∧
      (Faithful size writeFixedVarIntsBitSet bs (readFixedVarIntsBitSet size bs) ↔ startsFar bs = false) ∧
      (Faithful size (autoFormat (bs.head? == some 1)) bs (readAutoBitSet size bs) ↔
        ¬ (bs.head? = some 1 ∧ startsFar bs.tail = true))) ∧
      (readDynamicBitSet (writeDynamicBitSet vec ++ rest) = .ok (vec, rest) ↔ vec.length ≤ maxSize) ∧
      (readFixedVarIntsBitSet vec.length (writeFixedVarIntsBitSet vec ++ rest) = .ok (vec, rest) ↔
        ∀ p : ℕ, toInt32 vec.length ≤ p → vec.getD p false = false) ∧
      ∀ bs, writeAutoBitSet vec vec.length = some bs →
        (readAutoBitSet vec.length (bs ++ rest) = .ok (vec, rest) ↔
          (prefersVarInts vec = true → ∀ p : ℕ, toInt32 vec.length ≤ p → vec.getD p false = false)) := by
  refine ⟨fun size hsize bs => ⟨?_, ?_, ?_⟩, ?_, ?_, fun bs hwrite => ?_⟩
  · exact readFixedBitSet_faithful size bs
  · exact readFixedVarIntsBitSet_faithful_iff hsize bs
  · exact readAutoBitSet_faithful_iff hsize bs
  · exact readDynamicBitSet_write_iff vec rest
  · exact readFixedVarIntsBitSet_write_iff vec rest
  · exact readAutoBitSet_write_iff hwrite rest

theorem bitSets_exact_sample :
    Faithful 10 writeFixedVarIntsBitSet [1, 3, 0, 7] (readFixedVarIntsBitSet 10 [1, 3, 0, 7]) ∧
      readFixedVarIntsBitSet 10 [1, 3, 0, 7] =
        .ok ([true, false, false, true, false, false, false, false, false, false], [7]) ∧
      readAutoBitSet 3 ([0, 2] ++ [9]) = .ok ([false, true, false], [9]) := by
  have hread := (((bitSets_exact [] []).1 10 (by decide) [1, 3, 0, 7]).2.1).mpr (by decide)
  have hback := ((bitSets_exact [false, true, false] [9]).2.2.2 [0, 2] (by decide)).mpr (fun h => absurd h (by decide))
  exact ⟨hread, by decide, hback⟩

/-- The distance 2^31 + 1 is taken for the index -2^31. -/
theorem readFixedVarIntsBitSet_outside : ¬ ((∀ size < 2 ^ 31, ∀ bs,
        Faithful size (fun vec => writeFixedBitSet vec vec.length) bs (readFixedBitSet size bs) ∧
        Faithful size writeFixedVarIntsBitSet bs (readFixedVarIntsBitSet size bs) ∧
        Faithful size (autoFormat (bs.head? == some 1)) bs (readAutoBitSet size bs)) ∧
      ∀ (vec : List Bool) (rest : Bytes),
        readDynamicBitSet (writeDynamicBitSet vec ++ rest) = .ok (vec, rest) ∧
        readFixedVarIntsBitSet vec.length (writeFixedVarIntsBitSet vec ++ rest) = .ok (vec, rest) ∧
        ∀ bs, writeAutoBitSet vec vec.length = some bs → readAutoBitSet vec.length (bs ++ rest) = .ok (vec, rest)) := by
  intro hall
  have hread := (hall.1 10 (by decide) [0x86, 0xfe, 0xfe, 0xff, 0x01, 0x00]).2.1
  exact hread

end OmegaCore.Serialize
