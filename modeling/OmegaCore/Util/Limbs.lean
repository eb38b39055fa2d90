import Mathlib.Data.BitVec
import Mathlib.Data.Nat.Size
import Mathlib.Tactic.Ring

/-!
Fixed-width numbers as lists of limbs, the least significant one first.  Sums and
products are computed limb by limb with a carry of double width, shifts and comparisons
limb by limb, and division by shifting and subtracting.  Every operation is described by
the natural number that the limbs stand for.
-/

namespace OmegaCore.Util.Limbs

open List Nat

variable {w : ℕ}

def value : List (BitVec w) → ℕ
  | [] => 0
  | x :: xs => x.toNat + 2 ^ w * value xs

/-- One more than the largest number of a given count of limbs. -/
def capacity (w n : ℕ) : ℕ :=
  (2 ^ w) ^ n

variable (x : BitVec w) (xs : List (BitVec w)) (n : BitVec (w + w))

def limb (i : ℕ) : BitVec w :=
  xs.getD i 0

@[simp] theorem value_nil : value ([] : List (BitVec w)) = 0 :=
  rfl

theorem value_cons : value (x :: xs) = x.toNat + 2 ^ w * value xs :=
  rfl

@[simp] theorem capacity_zero : capacity w 0 = 1 :=
  rfl

theorem capacity_succ (n : ℕ) : capacity w (n + 1) = 2 ^ w * capacity w n := by
  rw [capacity, capacity, pow_succ, Nat.mul_comm]

theorem capacity_eq (w n : ℕ) : capacity w n = 2 ^ (w * n) :=
  (pow_mul 2 w n).symm

theorem capacity_pos (w n : ℕ) : 0 < capacity w n :=
  Nat.pow_pos (Nat.two_pow_pos w)

theorem digit_add_mul_mod {r a m : ℕ} (k : ℕ) (h : a < r) : (a + r * m) % (r * k) = a + r * (m % k) := by
  rw [mod_mul, add_mul_mod_self_left, mod_eq_of_lt h, add_mul_div_left _ _ (by omega),
    div_eq_of_lt h, Nat.zero_add]

theorem value_lt : value xs < capacity w xs.length := by
  induction xs with
  | nil => exact Nat.one_pos
  | cons x xs ih =>
    rw [value_cons, length_cons, capacity_succ]
    calc x.toNat + 2 ^ w * value xs < 2 ^ w + 2 ^ w * value xs := Nat.add_lt_add_right x.isLt _
      _ = 2 ^ w * (value xs + 1) := by ring
      _ ≤ 2 ^ w * capacity w xs.length := Nat.mul_le_mul_left _ ih

variable {xs ys : List (BitVec w)}

theorem value_injective (hlength : xs.length = ys.length) (h : value xs = value ys) : xs = ys := by
  induction xs generalizing ys with
  | nil => exact (length_eq_zero_iff.mp hlength.symm).symm
  | cons x xs ih =>
    cases ys with
    | nil => cases hlength
    | cons y ys =>
      rw [value_cons, value_cons] at h
      have hdigit : x.toNat = y.toNat := by
        have hmod := congrArg (· % 2 ^ w) h
        simpa [add_mul_mod_self_left, mod_eq_of_lt x.isLt, mod_eq_of_lt y.isLt] using hmod
      rw [hdigit] at h
      have hrest : value xs = value ys :=
        Nat.eq_of_mul_eq_mul_left (Nat.two_pow_pos w) (Nat.add_left_cancel h)
      rw [BitVec.eq_of_toNat_eq hdigit, ih (succ.inj hlength) hrest]

theorem value_replicate_zero (n : ℕ) : value (List.replicate n 0#w) = 0 := by
  induction n with
  | zero => rfl
  | succ n ih =>
    rw [replicate_succ, value_cons, ih]
    simp

/-! ### Carries -/

def widen : BitVec (w + w) :=
  x.setWidth (w + w)

@[simp] theorem toNat_widen : (widen x).toNat = x.toNat := by
  rw [widen, BitVec.toNat_setWidth, mod_eq_of_lt]
  calc x.toNat < 2 ^ w := x.isLt
    _ ≤ 2 ^ (w + w) := Nat.pow_le_pow_right (by decide) (by omega)

def digit : BitVec w :=
  n.setWidth w

def carryOf : BitVec (w + w) :=
  n >>> w

theorem toNat_digit : (digit n).toNat = n.toNat % 2 ^ w :=
  BitVec.toNat_setWidth w n

theorem toNat_carryOf : (carryOf n).toNat = n.toNat / 2 ^ w := by
  rw [carryOf, BitVec.toNat_ushiftRight, shiftRight_eq_div_pow]

theorem carryOf_lt : (carryOf n).toNat < 2 ^ w := by
  rw [toNat_carryOf]
  apply Nat.div_lt_of_lt_mul
  rw [← pow_add]
  exact n.isLt

theorem value_digit_cons {n : BitVec (w + w)} {xs : List (BitVec w)} {m k : ℕ}
    (h : value xs = ((carryOf n).toNat + m) % k) : value (digit n :: xs) = (n.toNat + 2 ^ w * m) % (2 ^ w * k) := by
  have hsplit : n.toNat + 2 ^ w * m = n.toNat % 2 ^ w + 2 ^ w * (n.toNat / 2 ^ w + m) := by
    have hdiv := mod_add_div n.toNat (2 ^ w)
    rw [Nat.mul_add]
    omega
  rw [value_cons, h, hsplit, digit_add_mul_mod k (mod_lt _ (Nat.two_pow_pos w)), toNat_digit, toNat_carryOf]

theorem square_two_pow (w : ℕ) : (2 ^ w - 1) * (2 ^ w - 1) + 2 * (2 ^ w - 1) + 1 = 2 ^ (w + w) := by
  obtain ⟨b, hb⟩ := Nat.exists_eq_add_of_lt (Nat.two_pow_pos w)
  rw [pow_add, hb]
  simp only [Nat.zero_add, Nat.add_sub_cancel]
  ring

variable {c : BitVec (w + w)}

theorem toNat_add_add (x y : BitVec w) (hc : c.toNat < 2 ^ w) :
    (c + widen x + widen y).toNat = c.toNat + x.toNat + y.toNat := by
  have hsquare := square_two_pow w
  have hself := Nat.le_mul_self (2 ^ w - 1)
  rw [BitVec.toNat_add, BitVec.toNat_add, toNat_widen, toNat_widen,
    mod_eq_of_lt (a := c.toNat + x.toNat) (by omega)]
  exact mod_eq_of_lt (by omega)

theorem toNat_add_mul {c a : BitVec (w + w)} (x y : BitVec w) (hc : c.toNat < 2 ^ w) (ha : a.toNat < 2 ^ w) :
    (c + a + widen x * widen y).toNat = c.toNat + a.toNat + x.toNat * y.toNat := by
  have hproduct : x.toNat * y.toNat ≤ (2 ^ w - 1) * (2 ^ w - 1) :=
    Nat.mul_le_mul (le_sub_one_of_lt x.isLt) (le_sub_one_of_lt y.isLt)
  have hsquare := square_two_pow w
  rw [BitVec.toNat_add, BitVec.toNat_add, BitVec.toNat_mul, toNat_widen, toNat_widen,
    mod_eq_of_lt (a := x.toNat * y.toNat) (by omega), mod_eq_of_lt (a := c.toNat + a.toNat) (by omega)]
  exact mod_eq_of_lt (by omega)

/-- The sum of two numbers, with a carry. -/
def addCarry (carry : BitVec (w + w)) : List (BitVec w) → List (BitVec w) → List (BitVec w)
  | x :: xs, y :: ys =>
    let n := carry + widen x + widen y
    digit n :: addCarry (carryOf n) xs ys
  | _, _ => []

/-- The product with one limb, with a carry. -/
def mulLimb (b : BitVec w) (carry : BitVec (w + w)) : List (BitVec w) → List (BitVec w)
  | [] => []
  | x :: xs =>
    let n := carry + widen b * widen x
    digit n :: mulLimb b (carryOf n) xs

/-- Add the product of a number with one limb, cut off at the end of the accumulator. -/
def addRow (x : BitVec w) (carry : BitVec (w + w)) : List (BitVec w) → List (BitVec w) → List (BitVec w)
  | a :: as, b :: bs =>
    let n := carry + widen a + widen x * widen b
    digit n :: addRow x (carryOf n) as bs
  | as, _ => as

/-- The rows of a product, each one limb further up. -/
def addRows : List (BitVec w) → List (BitVec w) → List (BitVec w) → List (BitVec w)
  | as, [], _ => as
  | as, x :: xs, bs =>
    match addRow x 0#(w + w) as bs with
    | [] => []
    | a :: as => a :: addRows as xs bs

@[simp] theorem length_addCarry (c : BitVec (w + w)) (xs ys : List (BitVec w)) :
    (addCarry c xs ys).length = min xs.length ys.length := by
  induction xs generalizing c ys with
  | nil => simp [addCarry]
  | cons x xs ih =>
    cases ys with
    | nil => simp [addCarry]
    | cons y ys => simp [addCarry, ih]

@[simp] theorem length_mulLimb (b : BitVec w) (c : BitVec (w + w)) (xs : List (BitVec w)) :
    (mulLimb b c xs).length = xs.length := by
  induction xs generalizing c with
  | nil => rfl
  | cons x xs ih => simp [mulLimb, ih]

@[simp] theorem length_addRow (c : BitVec (w + w)) (as bs : List (BitVec w)) :
    (addRow x c as bs).length = as.length := by
  induction as generalizing c bs with
  | nil => rfl
  | cons a as ih =>
    cases bs with
    | nil => rfl
    | cons b bs => simp [addRow, ih]

@[simp] theorem length_addRows (as xs bs : List (BitVec w)) : (addRows as xs bs).length = as.length := by
  induction xs generalizing as with
  | nil => rfl
  | cons x xs ih =>
    have hlength := length_addRow x 0#(w + w) as bs
    unfold addRows
    cases hrow : addRow x 0#(w + w) as bs with
    | nil => rw [← hlength, hrow]
    | cons a as' =>
      rw [hrow] at hlength
      rw [length_cons, ih, ← hlength, length_cons]

theorem value_addCarry (hc : c.toNat < 2 ^ w) (hlength : xs.length = ys.length) :
    value (addCarry c xs ys) = (c.toNat + (value xs + value ys)) % capacity w xs.length := by
  induction xs generalizing c ys with
  | nil => simp [addCarry, mod_one]
  | cons x xs ih =>
    cases ys with
    | nil => cases hlength
    | cons y ys =>
      rw [addCarry, value_digit_cons (ih (carryOf_lt _) (succ.inj hlength)), toNat_add_add x y hc,
        length_cons, capacity_succ, value_cons, value_cons]
      congr 1
      ring

theorem value_mulLimb (b : BitVec w) {xs : List (BitVec w)} (hc : c.toNat < 2 ^ w) :
    value (mulLimb b c xs) = (c.toNat + b.toNat * value xs) % capacity w xs.length := by
  induction xs generalizing c with
  | nil => simp [mulLimb, mod_one]
  | cons x xs ih =>
    have hn := toNat_add_mul b x hc (a := 0#(w + w)) (by simp)
    rw [BitVec.add_zero, BitVec.toNat_zero, Nat.add_zero] at hn
    rw [mulLimb, value_digit_cons (ih (carryOf_lt _)), hn, length_cons, capacity_succ, value_cons]
    congr 1
    ring

theorem value_addRow (x : BitVec w) {as bs : List (BitVec w)} (hc : c.toNat < 2 ^ w) (hlength : as.length ≤ bs.length) :
    value (addRow x c as bs) = (c.toNat + (value as + x.toNat * value bs)) % capacity w as.length := by
  induction as generalizing c bs with
  | nil => simp [addRow, mod_one]
  | cons a as ih =>
    cases bs with
    | nil => simp at hlength
    | cons b bs =>
      rw [addRow, value_digit_cons (ih (carryOf_lt _) (by simpa using hlength)),
        toNat_add_mul x b hc (by simpa using a.isLt), toNat_widen, length_cons, capacity_succ, value_cons,
        value_cons]
      congr 1
      ring

theorem value_addRows {as xs bs : List (BitVec w)} (hlength : as.length ≤ bs.length) :
    value (addRows as xs bs) = (value as + value xs * value bs) % capacity w as.length := by
  induction xs generalizing as with
  | nil =>
    rw [addRows, value_nil, Nat.zero_mul, Nat.add_zero, mod_eq_of_lt (value_lt as)]
  | cons x xs ih =>
    have hrow := value_addRow x (c := 0#(w + w)) (by simp) hlength
    have hrowLength := length_addRow x 0#(w + w) as bs
    unfold addRows
    cases hresult : addRow x 0#(w + w) as bs with
    | nil =>
      rw [hresult, length_nil] at hrowLength
      rw [← hrowLength, capacity_zero, mod_one, value_nil]
    | cons a rest =>
      rw [hresult, length_cons] at hrowLength
      rw [hresult, value_cons] at hrow
      rw [value_cons, ih (by omega), ← digit_add_mul_mod _ a.isLt, ← capacity_succ, hrowLength, value_cons,
        Nat.mul_add, ← Nat.add_assoc, hrow, add_mod, mod_mod, ← add_mod]
      rw [BitVec.toNat_zero]
      congr 1
      ring

/-! ### Negation and subtraction -/

/-- One more, stopping at the first limb that does not become zero. -/
def increment : List (BitVec w) → List (BitVec w)
  | [] => []
  | x :: xs => if x + 1#w = 0#w then (x + 1#w) :: increment xs else (x + 1#w) :: xs

def negate (xs : List (BitVec w)) : List (BitVec w) :=
  increment (xs.map (~~~ ·))

/-- The difference, as the sum with the two's complement. -/
def subtract (xs ys : List (BitVec w)) : List (BitVec w) :=
  addCarry 0#(w + w) xs (negate ys)

@[simp] theorem length_increment (xs : List (BitVec w)) : (increment xs).length = xs.length := by
  induction xs with
  | nil => rfl
  | cons x xs ih =>
    unfold increment
    split_ifs <;> simp [ih]

@[simp] theorem length_negate (xs : List (BitVec w)) : (negate xs).length = xs.length := by
  simp [negate]

@[simp] theorem length_subtract (xs ys : List (BitVec w)) : (subtract xs ys).length = min xs.length ys.length := by
  simp [subtract]

theorem value_increment (xs : List (BitVec w)) : value (increment xs) = (value xs + 1) % capacity w xs.length := by
  induction xs with
  | nil => simp [increment]
  | cons x xs ih =>
    have htoNat : (x + 1#w).toNat = (x.toNat + 1) % 2 ^ w := by simp [BitVec.toNat_add]
    unfold increment
    split_ifs with hzero
    · -- the limb wraps around, and the next one is incremented
      have hfull : x.toNat + 1 = 2 ^ w := by
        have hx := x.isLt
        rw [hzero, BitVec.toNat_zero] at htoNat
        have hle := le_of_dvd (succ_pos _) (dvd_of_mod_eq_zero htoNat.symm)
        omega
      have hsum : value (x :: xs) + 1 = 0 + 2 ^ w * (value xs + 1) := by
        rw [value_cons, Nat.mul_add]
        omega
      rw [value_cons, hzero, ih, hsum, length_cons, capacity_succ, digit_add_mul_mod _ (Nat.two_pow_pos w)]
      simp
    · have hlt : x.toNat + 1 < 2 ^ w := by
        have hx := x.isLt
        have hne : x.toNat + 1 ≠ 2 ^ w := fun h => hzero <| BitVec.eq_of_toNat_eq <| by
          rw [htoNat, h, mod_self, BitVec.toNat_zero]
        omega
      have hsum : value (x :: xs) + 1 = (x.toNat + 1) + 2 ^ w * value xs := by
        rw [value_cons]
        omega
      rw [value_cons, htoNat, mod_eq_of_lt hlt, hsum, length_cons, capacity_succ,
        digit_add_mul_mod _ hlt, mod_eq_of_lt (value_lt xs)]

theorem value_complement (xs : List (BitVec w)) : value (xs.map (~~~ ·)) + value xs + 1 = capacity w xs.length := by
  induction xs with
  | nil => rfl
  | cons x xs ih =>
    rw [map_cons, value_cons, value_cons, length_cons, capacity_succ, ← ih, BitVec.toNat_not]
    simp only [Nat.mul_add, Nat.mul_one]
    omega

theorem value_negate (xs : List (BitVec w)) :
    value (negate xs) = (capacity w xs.length - value xs) % capacity w xs.length := by
  have hcomplement := value_complement xs
  rw [negate, value_increment, length_map]
  congr 1
  omega

theorem value_subtract (hlength : xs.length = ys.length) (h : value ys ≤ value xs) :
    value (subtract xs ys) = value xs - value ys := by
  have hlt := value_lt xs
  rw [subtract, value_addCarry (by simp) (by simpa using hlength), value_negate, ← hlength]
  have hsum : value xs + (capacity w xs.length - value ys) = (value xs - value ys) + capacity w xs.length := by
    omega
  rw [BitVec.toNat_zero, Nat.zero_add, add_mod_mod, hsum, add_mod_right, mod_eq_of_lt (by omega)]

/-! ### Bits -/

@[simp] theorem limb_nil (i : ℕ) : limb ([] : List (BitVec w)) i = 0#w :=
  rfl

@[simp] theorem limb_cons_zero (x : BitVec w) (xs : List (BitVec w)) : limb (x :: xs) 0 = x :=
  rfl

@[simp] theorem limb_cons_succ (x : BitVec w) (xs : List (BitVec w)) (i : ℕ) : limb (x :: xs) (i + 1) = limb xs i :=
  rfl

variable {xs : List (BitVec w)}

theorem limb_of_le {i : ℕ} (h : xs.length ≤ i) : limb xs i = 0#w := by
  simp [limb, List.getD_eq_getElem?_getD, List.getElem?_eq_none h]

theorem limb_map_range (f : ℕ → BitVec w) {n i : ℕ} (h : i < n) : limb ((List.range n).map f) i = f i := by
  simp [limb, List.getD_eq_getElem?_getD, List.getElem?_range h]

theorem testBit_value (hw : 0 < w) (xs : List (BitVec w)) (p : ℕ) :
    (value xs).testBit p = (limb xs (p / w)).getLsbD (p % w) := by
  induction xs generalizing p with
  | nil => simp
  | cons x xs ih =>
    rw [value_cons, Nat.add_comm, testBit_two_pow_mul_add _ x.isLt]
    split_ifs with hp
    · rw [div_eq_of_lt hp, mod_eq_of_lt hp, limb_cons_zero, BitVec.testBit_toNat]
    · obtain ⟨q, rfl⟩ := Nat.exists_eq_add_of_le (Nat.le_of_not_lt hp)
      rw [ih, Nat.add_sub_cancel_left, add_div_left _ hw, add_mod_left, limb_cons_succ]

theorem testBit_value_mul_add {i r : ℕ} (hr : r < w) : (value xs).testBit (w * i + r) = (limb xs i).getLsbD r := by
  rw [testBit_value (by omega), mul_add_div (by omega), mul_add_mod, div_eq_of_lt hr,
    mod_eq_of_lt hr, Nat.add_zero]

theorem value_eq_of_testBit (hw : 0 < w) {n : ℕ} (hn : n < capacity w xs.length)
    (h : ∀ i r, i < xs.length → r < w → (limb xs i).getLsbD r = n.testBit (w * i + r)) : value xs = n := by
  apply eq_of_testBit_eq
  intro p
  rw [testBit_value hw]
  by_cases hp : p / w < xs.length
  · rw [h _ _ hp (mod_lt _ hw), div_add_mod]
  · have hle : w * xs.length ≤ p := by
      rw [Nat.mul_comm]
      exact (Nat.le_div_iff_mul_le hw).mp (Nat.le_of_not_lt hp)
    rw [limb_of_le (Nat.le_of_not_lt hp), BitVec.getLsbD_zero]
    symm
    apply testBit_lt_two_pow
    calc n < 2 ^ (w * xs.length) := capacity_eq w _ ▸ hn
      _ ≤ 2 ^ p := Nat.pow_le_pow_right (by decide) hle

/-! ### Shifts -/

/-- Shift to the left.  A limb takes the low bits of one limb and, below them, the high bits of the limb
before it. -/
def shiftLeft (xs : List (BitVec w)) (shift : ℕ) : List (BitVec w) :=
  let k := shift / w
  let s := shift % w
  (List.range xs.length).map fun i =>
    (if k + 1 ≤ i ∧ s ≠ 0 then limb xs (i - k - 1) >>> (w - s) else 0#w) |||
    (if k ≤ i then limb xs (i - k) <<< s else 0#w)

def shiftRight (xs : List (BitVec w)) (shift : ℕ) : List (BitVec w) :=
  let k := shift / w
  let s := shift % w
  (List.range xs.length).map fun i =>
    (if i + k + 1 < xs.length ∧ s ≠ 0 then limb xs (i + k + 1) <<< (w - s) else 0#w) |||
    (if i + k < xs.length then limb xs (i + k) >>> s else 0#w)

@[simp] theorem length_shiftLeft (xs : List (BitVec w)) (shift : ℕ) : (shiftLeft xs shift).length = xs.length := by
  simp [shiftLeft]

@[simp] theorem length_shiftRight (xs : List (BitVec w)) (shift : ℕ) : (shiftRight xs shift).length = xs.length := by
  simp [shiftRight]

theorem value_shiftLeft (hw : 0 < w) (xs : List (BitVec w)) (shift : ℕ) :
    value (shiftLeft xs shift) = (value xs * 2 ^ shift) % capacity w xs.length := by
  apply value_eq_of_testBit hw
  · rw [length_shiftLeft]
    exact mod_lt _ (capacity_pos w _)
  · intro i r hi hr
    rw [length_shiftLeft] at hi
    have hin : w * i + r < w * xs.length := by
      calc w * i + r < w * i + w := by omega
        _ = w * (i + 1) := by ring
        _ ≤ w * xs.length := Nat.mul_le_mul_left w hi
    rw [capacity_eq, testBit_mod_two_pow, ← shiftLeft_eq, testBit_shiftLeft, decide_eq_true hin,
      Bool.true_and, shiftLeft, limb_map_range _ hi]
    generalize hk : shift / w = k
    generalize hs : shift % w = s
    obtain rfl : w * k + s = shift := by rw [← hk, ← hs, div_add_mod]
    have hslt : s < w := hs ▸ mod_lt _ hw
    obtain hik | ⟨m, rfl⟩ : i < k ∨ ∃ m, i = k + m := by
      by_cases h : i < k
      · exact .inl h
      · exact .inr ⟨i - k, by omega⟩
    · -- the limb is below the shifted number
      have hbelow : ¬ w * i + r ≥ w * k + s := by
        have hle := Nat.mul_le_mul_left w (succ_le_of_lt hik)
        rw [mul_succ] at hle
        omega
      rw [if_neg (by omega), if_neg (by omega), decide_eq_false hbelow]
      simp
    · rw [Nat.mul_add, if_pos (Nat.le_add_right k m), Nat.add_sub_cancel_left, BitVec.getLsbD_or,
        BitVec.getLsbD_shiftLeft]
      by_cases hrs : r < s
      · cases m with
        | zero =>
          simp [hrs]
        | succ m =>
          have hindex : w * k + w * (m + 1) + r - (w * k + s) = w * m + (w - s + r) := by
            rw [mul_succ]
            omega
          have habove : w * k + w * (m + 1) + r ≥ w * k + s := by
            rw [mul_succ]
            omega
          rw [if_pos (by omega), hindex, testBit_value_mul_add (by omega), decide_eq_true habove, Nat.add_sub_cancel]
          simp [hrs]
      · have hindex : w * k + w * m + r - (w * k + s) = w * m + (r - s) := by omega
        have hhigh (x : BitVec w) : (if k + 1 ≤ k + m ∧ s ≠ 0 then x >>> (w - s) else 0#w).getLsbD r = false := by
          split_ifs with h
          · rw [BitVec.getLsbD_ushiftRight]
            exact BitVec.getLsbD_of_ge _ _ (by omega)
          · exact BitVec.getLsbD_zero
        have habove : w * k + w * m + r ≥ w * k + s := by omega
        rw [hindex, testBit_value_mul_add (by omega), decide_eq_true habove, hhigh, decide_eq_true hr,
          decide_eq_false hrs]
        rfl

theorem value_shiftRight (hw : 0 < w) (xs : List (BitVec w)) (shift : ℕ) :
    value (shiftRight xs shift) = value xs / 2 ^ shift := by
  apply value_eq_of_testBit hw
  · rw [length_shiftRight]
    exact lt_of_le_of_lt (Nat.div_le_self _ _) (value_lt xs)
  · intro i r hi hr
    rw [length_shiftRight] at hi
    rw [testBit_div_two_pow, shiftRight, limb_map_range _ hi]
    generalize hk : shift / w = k
    generalize hs : shift % w = s
    obtain rfl : w * k + s = shift := by rw [← hk, ← hs, div_add_mod]
    have hslt : s < w := hs ▸ mod_lt _ hw
    -- a limb beyond the end reads as zero
    have hlow : (if i + k < xs.length then limb xs (i + k) >>> s else 0#w) = limb xs (i + k) >>> s := by
      split_ifs with h
      · rfl
      · simp [limb_of_le (Nat.le_of_not_lt h)]
    rw [BitVec.getLsbD_or, hlow, BitVec.getLsbD_ushiftRight]
    by_cases hrs : s + r < w
    · have hindex : w * i + r + (w * k + s) = w * (i + k) + (s + r) := by ring
      have hhigh (x : BitVec w) : (if i + k + 1 < xs.length ∧ s ≠ 0 then x <<< (w - s) else 0#w).getLsbD r = false := by
        split_ifs with h
        · rw [BitVec.getLsbD_shiftLeft, decide_eq_true (show r < w - s by omega)]
          simp
        · exact BitVec.getLsbD_zero
      rw [hindex, testBit_value_mul_add hrs, hhigh, Bool.false_or]
    · have hindex : w * i + r + (w * k + s) = w * (i + k + 1) + (r - (w - s)) := by
        rw [mul_succ, Nat.mul_add]
        omega
      have hhigh : (if i + k + 1 < xs.length ∧ s ≠ 0 then limb xs (i + k + 1) <<< (w - s) else 0#w) =
          limb xs (i + k + 1) <<< (w - s) := by
        split_ifs with h
        · rfl
        · rw [limb_of_le (by omega), BitVec.zero_shiftLeft]
      rw [hindex, testBit_value_mul_add (by omega), hhigh, BitVec.getLsbD_shiftLeft, decide_eq_true hr,
        decide_eq_false (by omega), BitVec.getLsbD_of_ge (limb xs (i + k)) _ (by omega)]
      simp

/-! ### Comparison -/

/-- Compare the limbs below a position, the most significant ones first. -/
def compareBelow (xs ys : List (BitVec w)) : ℕ → Ordering
  | 0 => .eq
  | i + 1 =>
    if limb xs i < limb ys i then .lt
    else if limb xs i > limb ys i then .gt
    else compareBelow xs ys i

theorem value_mod_capacity (xs : List (BitVec w)) (i : ℕ) :
    value xs % capacity w (i + 1) = value xs % capacity w i + capacity w i * (limb xs i).toNat := by
  induction i generalizing xs with
  | zero =>
    cases xs with
    | nil => simp
    | cons x xs =>
      rw [capacity_succ, value_cons, digit_add_mul_mod _ x.isLt]
      simp [mod_one]
  | succ i ih =>
    cases xs with
    | nil => simp
    | cons x xs =>
      rw [capacity_succ (i + 1), value_cons, digit_add_mul_mod _ x.isLt, ih, capacity_succ i,
        digit_add_mul_mod _ x.isLt, limb_cons_succ]
      ring

theorem compare_add_right (a b c : ℕ) : compare (a + c) (b + c) = compare a b := by
  rcases Nat.lt_trichotomy a b with h | rfl | h
  · rw [Nat.compare_eq_lt.mpr h, Nat.compare_eq_lt.mpr (by omega)]
  · simp
  · rw [Nat.compare_eq_gt.mpr h, Nat.compare_eq_gt.mpr (by omega)]

theorem compareBelow_eq (xs ys : List (BitVec w)) (i : ℕ) :
    compareBelow xs ys i = compare (value xs % capacity w i) (value ys % capacity w i) := by
  induction i with
  | zero => simp [compareBelow, mod_one]
  | succ i ih =>
    have hx := mod_lt (value xs) (capacity_pos w i)
    have hy := mod_lt (value ys) (capacity_pos w i)
    rw [value_mod_capacity, value_mod_capacity, compareBelow, ih]
    split_ifs with hlt hgt
    · have hle := Nat.mul_le_mul_left (capacity w i) (succ_le_of_lt (BitVec.lt_def.mp hlt))
      rw [mul_succ] at hle
      exact (Nat.compare_eq_lt.mpr (by omega)).symm
    · have hle := Nat.mul_le_mul_left (capacity w i) (succ_le_of_lt (BitVec.lt_def.mp hgt))
      rw [mul_succ] at hle
      exact (Nat.compare_eq_gt.mpr (by omega)).symm
    · have heq : (limb xs i).toNat = (limb ys i).toNat := by
        rw [BitVec.lt_def] at hlt
        rw [gt_iff_lt, BitVec.lt_def] at hgt
        omega
      rw [heq, compare_add_right]

theorem compareBelow_length {xs ys : List (BitVec w)} (hlength : xs.length = ys.length) :
    compareBelow xs ys xs.length = compare (value xs) (value ys) := by
  rw [compareBelow_eq, mod_eq_of_lt (value_lt xs), mod_eq_of_lt (hlength ▸ value_lt ys)]

/-! ### The length in bits -/

/-- The highest bit of a limb that is set, down from a position; zero if there is none above bit zero. -/
def highestBit (x : BitVec w) : ℕ → ℕ
  | 0 => 0
  | n + 1 => if x.getLsbD (n + 1) then n + 1 else highestBit x n

/-- The position of the highest bit plus one, of the limbs below a position. -/
def bitsBelow (xs : List (BitVec w)) : ℕ → ℕ
  | 0 => 0
  | i + 1 => if limb xs i ≠ 0#w then w * i + highestBit (limb xs i) (w - 1) + 1 else bitsBelow xs i

theorem size_toNat_eq {x : BitVec w} {n : ℕ} (hx : x.toNat ≠ 0) (h : x.toNat < 2 ^ (n + 1)) :
    x.toNat.size = highestBit x n + 1 := by
  induction n with
  | zero =>
    have hone : x.toNat = 1 := by omega
    rw [hone]
    rfl
  | succ n ih =>
    unfold highestBit
    split_ifs with hbit
    · exact le_antisymm (size_le.mpr h) (lt_size.mpr (ge_two_pow_of_testBit hbit))
    · apply ih
      have hquotient : x.toNat / 2 ^ (n + 1) < 2 := Nat.div_lt_of_lt_mul (by rwa [← pow_succ])
      have hclear : x.toNat.testBit (n + 1) = false := Bool.eq_false_iff.mpr hbit
      rw [testBit_eq_decide_div_mod_eq, decide_eq_false_iff_not] at hclear
      apply lt_of_div_eq_zero (Nat.two_pow_pos _)
      generalize x.toNat / 2 ^ (n + 1) = t at hquotient hclear ⊢
      omega

theorem size_add_two_pow_mul {m a d : ℕ} (ha : a < 2 ^ m) (hd : d ≠ 0) : (a + 2 ^ m * d).size = m + d.size := by
  have hsize : d.size = d.size - 1 + 1 := by
    have hpos := size_pos.mpr (Nat.pos_of_ne_zero hd)
    omega
  apply le_antisymm
  · apply size_le.mpr
    calc a + 2 ^ m * d < 2 ^ m + 2 ^ m * d := Nat.add_lt_add_right ha _
      _ = 2 ^ m * (d + 1) := by ring
      _ ≤ 2 ^ m * 2 ^ d.size := Nat.mul_le_mul_left _ (lt_size_self d)
      _ = 2 ^ (m + d.size) := (pow_add 2 m _).symm
  · rw [hsize, ← Nat.add_assoc]
    apply lt_size.mpr
    calc 2 ^ (m + (d.size - 1)) = 2 ^ m * 2 ^ (d.size - 1) := pow_add 2 m _
      _ ≤ 2 ^ m * d := Nat.mul_le_mul_left _ (lt_size.mp (by omega))
      _ ≤ a + 2 ^ m * d := Nat.le_add_left _ _

theorem bitsBelow_eq (xs : List (BitVec w)) (i : ℕ) : bitsBelow xs i = (value xs % capacity w i).size := by
  induction i with
  | zero => simp [bitsBelow, mod_one]
  | succ i ih =>
    have hlow := mod_lt (value xs) (capacity_pos w i)
    rw [value_mod_capacity, bitsBelow]
    split_ifs with hlimb
    · have hne : (limb xs i).toNat ≠ 0 := fun h => hlimb (BitVec.eq_of_toNat_eq (by simpa using h))
      have hlt := (limb xs i).isLt
      have hw : w - 1 + 1 = w := by
        cases w with
        | zero => omega
        | succ w => rfl
      rw [capacity_eq] at hlow ⊢
      rw [size_add_two_pow_mul hlow hne, size_toNat_eq hne (by rwa [hw]), Nat.add_assoc]
    · have hzero : limb xs i = 0#w := not_ne_iff.mp hlimb
      rw [hzero, BitVec.toNat_zero, Nat.mul_zero, Nat.add_zero, ih]

theorem bitsBelow_length (xs : List (BitVec w)) : bitsBelow xs xs.length = (value xs).size := by
  rw [bitsBelow_eq, mod_eq_of_lt (value_lt xs)]

/-! ### Division -/

def setBit (xs : List (BitVec w)) (p : ℕ) : List (BitVec w) :=
  xs.modify (p / w) (· ||| 1#w <<< (p % w))

/-- The loop of the division.  The divisor has been shifted to the left by one less than the count. -/
def divideLoop : ℕ → List (BitVec w) → List (BitVec w) → List (BitVec w) → List (BitVec w)
  | 0, _, _, quotient => quotient
  | shift + 1, num, div, quotient =>
    if compareBelow num div num.length ≠ .lt then
      divideLoop shift (subtract num div) (shiftRight div 1) (setBit quotient shift)
    else divideLoop shift num (shiftRight div 1) quotient

/-- The quotient.  The divisor must not be zero. -/
def divide (num div : List (BitVec w)) : List (BitVec w) :=
  let zero := List.replicate num.length 0#w
  let numBits := bitsBelow num num.length
  let divBits := bitsBelow div div.length
  if divBits > numBits then zero
  else divideLoop (numBits - divBits + 1) num (shiftLeft div (numBits - divBits)) zero

@[simp] theorem length_setBit (xs : List (BitVec w)) (p : ℕ) : (setBit xs p).length = xs.length := by
  simp [setBit]

@[simp] theorem length_divideLoop (n : ℕ) (num div quotient : List (BitVec w)) :
    (divideLoop n num div quotient).length = quotient.length := by
  induction n generalizing num div quotient with
  | zero => rfl
  | succ n ih =>
    unfold divideLoop
    split_ifs <;> simp [ih]

@[simp] theorem length_divide (num div : List (BitVec w)) : (divide num div).length = num.length := by
  unfold divide
  dsimp only
  split_ifs <;> simp

theorem limb_modify (xs : List (BitVec w)) (f : BitVec w → BitVec w) (k i : ℕ) (h : i < xs.length) :
    limb (xs.modify k f) i = if k = i then f (limb xs i) else limb xs i := by
  simp only [limb, List.getD_eq_getElem?_getD, List.getElem?_modify, List.getElem?_eq_getElem h]
  split_ifs <;> rfl

theorem getLsbD_one_shiftLeft {s r : ℕ} (hr : r < w) : (1#w <<< s).getLsbD r = decide (r = s) := by
  by_cases h : r = s
  · simp [h]
    omega
  · simp [h]
    omega

theorem value_setBit (hw : 0 < w) {p q : ℕ} (hp : p < w * xs.length)
    (hvalue : value xs = 2 ^ (p + 1) * q) : value (setBit xs p) = value xs + 2 ^ p := by
  have hor : value xs + 2 ^ p = value xs ||| 2 ^ p := by
    rw [hvalue, two_pow_add_eq_or_of_lt (Nat.pow_lt_pow_right (by decide) (lt_succ_self p))]
  rw [hor]
  apply value_eq_of_testBit hw
  · rw [length_setBit, capacity_eq]
    exact or_lt_two_pow (capacity_eq w _ ▸ value_lt xs) (Nat.pow_lt_pow_right (by decide) hp)
  · intro i r hi hr
    rw [length_setBit] at hi
    have hsplit := div_add_mod p w
    rw [testBit_or, testBit_value_mul_add hr, testBit_two_pow, setBit, limb_modify _ _ _ _ hi]
    split_ifs with hindex
    · rw [BitVec.getLsbD_or, getLsbD_one_shiftLeft hr]
      congr 1
      rw [← hindex]
      simp only [decide_eq_decide]
      omega
    · have hne : ¬ p = w * i + r := by
        rintro rfl
        exact hindex (by rw [mul_add_div hw, div_eq_of_lt hr, Nat.add_zero])
      rw [decide_eq_false hne, Bool.or_false]

theorem value_divideLoop (hw : 0 < w) {n d q : ℕ} {num div quotient : List (BitVec w)} (hd : 0 < d)
    (hlength : num.length = div.length) (hn : n ≤ w * quotient.length)
    (hdiv : value div = d * 2 ^ n / 2) (hnum : value num < d * 2 ^ n) (hquotient : value quotient = 2 ^ n * q) :
    value (divideLoop n num div quotient) = value quotient + value num / d := by
  induction n generalizing num div quotient q with
  | zero =>
    rw [divideLoop, div_eq_of_lt (by simpa using hnum), Nat.add_zero]
  | succ n ih =>
    have haligned : value div = d * 2 ^ n := by
      rw [hdiv, pow_succ, ← Nat.mul_assoc, Nat.mul_div_cancel _ (by decide)]
    have hshifted : value (shiftRight div 1) = d * 2 ^ n / 2 := by
      rw [value_shiftRight hw, haligned, pow_one]
    have heven : 2 ^ (n + 1) * q = 2 ^ n * (2 * q) := by ring
    rw [divideLoop, compareBelow_length hlength]
    split_ifs with hge
    · -- the divisor is subtracted, and the bit goes to the quotient
      have hle : value div ≤ value num := by
        rw [Ne, Nat.compare_eq_lt] at hge
        omega
      have hbit := value_setBit hw (lt_of_succ_le hn) hquotient
      have hquotient' : value (setBit quotient n) = 2 ^ n * (2 * q + 1) := by
        rw [hbit, hquotient, heven, mul_succ]
      have hsub := value_subtract hlength hle
      have hrest : value (subtract num div) < d * 2 ^ n := by
        rw [pow_succ, ← Nat.mul_assoc] at hnum
        omega
      rw [ih (by simp [hlength]) (by simp; omega) hshifted hrest hquotient', hbit, hsub, haligned]
      have hdivide : value num / d = 2 ^ n + (value num - d * 2 ^ n) / d := by
        rw [sub_mul_div, Nat.add_sub_cancel']
        rw [Nat.le_div_iff_mul_le hd, Nat.mul_comm]
        omega
      omega
    · have hlt : value num < d * 2 ^ n := by
        rw [not_ne_iff, Nat.compare_eq_lt] at hge
        omega
      exact ih (by simpa using hlength) (by omega) hshifted hlt (heven ▸ hquotient)

theorem value_divide (hw : 0 < w) {num div : List (BitVec w)} (hlength : num.length = div.length)
    (hdiv : 0 < value div) : value (divide num div) = value num / value div := by
  unfold divide
  dsimp only
  rw [bitsBelow_length, bitsBelow_length]
  split_ifs with hbits
  · have hlt : value num < value div := by
      by_contra hge
      have hle := size_le_size (Nat.le_of_not_lt hge)
      omega
    rw [value_replicate_zero, div_eq_of_lt hlt]
  · obtain ⟨k, hk⟩ : ∃ k, (value num).size = (value div).size + k := Nat.exists_eq_add_of_le (by omega)
    have hsize : (value num).size ≤ w * num.length := by
      rw [size_le, ← capacity_eq]
      exact value_lt num
    have hdivPos := size_pos.mpr hdiv
    have hshift : value (shiftLeft div k) = value div * 2 ^ k := by
      rw [value_shiftLeft hw]
      apply mod_eq_of_lt
      calc value div * 2 ^ k < 2 ^ (value div).size * 2 ^ k :=
            Nat.mul_lt_mul_of_pos_right (lt_size_self _) (Nat.two_pow_pos _)
        _ = 2 ^ (value num).size := by rw [hk, pow_add]
        _ ≤ capacity w div.length := by
            rw [capacity_eq, ← hlength]
            exact Nat.pow_le_pow_right (by decide) hsize
    have hnum : value num < value div * 2 ^ (k + 1) := by
      have hle := lt_size.mp (sub_lt hdivPos Nat.one_pos)
      calc value num < 2 ^ (value num).size := lt_size_self _
        _ = 2 ^ ((value div).size - 1) * 2 ^ (k + 1) := by
            rw [← pow_add]
            congr 1
            omega
        _ ≤ value div * 2 ^ (k + 1) := Nat.mul_le_mul_right _ hle
    have haligned : value (shiftLeft div k) = value div * 2 ^ (k + 1) / 2 := by
      rw [hshift, pow_succ, ← Nat.mul_assoc, Nat.mul_div_cancel _ (by decide)]
    have hzero : value (List.replicate num.length 0#w) = 2 ^ (k + 1) * 0 := by
      rw [value_replicate_zero, Nat.mul_zero]
    rw [hk, Nat.add_sub_cancel_left, value_divideLoop hw hdiv (by simpa using hlength)
      (by rw [List.length_replicate]; omega) haligned hnum hzero, value_replicate_zero, Nat.zero_add]

end OmegaCore.Util.Limbs
