import Mathlib.Data.Nat.Log
import Mathlib.Tactic.Ring

/-!
Products of an integer with a constant in double precision.  Magnitudes are natural
numbers: a double with a 53-bit significand is a multiple of the power of two that its
size asks for, and results are rounded to the nearest one, ties to even.
-/

namespace OmegaCore.Util

def excessBits (n : ℕ) : ℕ :=
  Nat.log2 n + 1 - 53

/-- Round to 53 significant bits, to the nearest, ties to even. -/
def roundDouble (n : ℕ) : ℕ :=
  let ulp := 2 ^ excessBits n
  let q := n / ulp
  let r := n % ulp
  if 2 * r > ulp ∨ (2 * r = ulp ∧ q % 2 = 1) then (q + 1) * ulp else q * ulp

/-- The product of an integer with `m / 2 ^ e` in double precision, converted back to an integer. -/
def mulDouble (v : Int) (m e : ℕ) : Int :=
  v.sign * (roundDouble (roundDouble v.natAbs * m) / 2 ^ e : ℕ)

theorem two_mul_roundDouble_le (n : ℕ) : 2 * roundDouble n ≤ 2 * n + 2 ^ excessBits n := by
  have hdiv := Nat.div_add_mod' n (2 ^ excessBits n)
  unfold roundDouble
  dsimp only
  split_ifs with hup
  · rw [Nat.add_mul, Nat.one_mul]
    omega
  · omega

theorem roundDouble_of_excessBits_eq_zero {n : ℕ} (h : excessBits n = 0) : roundDouble n = n := by
  simp [roundDouble, h, Nat.mod_one]

theorem roundDouble_le (n : ℕ) : roundDouble n * 2 ^ 53 ≤ n * (2 ^ 53 + 1) := by
  by_cases hexact : excessBits n = 0
  · rw [roundDouble_of_excessBits_eq_zero hexact]
    omega
  · have hn : n ≠ 0 := by
      rintro rfl
      exact hexact (by decide)
    have hsize : 2 ^ excessBits n * 2 ^ 52 ≤ n := by
      rw [← pow_add]
      have hlog : excessBits n + 52 = Nat.log2 n := by
        unfold excessBits at hexact ⊢
        omega
      rw [hlog]
      exact Nat.log2_self_le hn
    calc roundDouble n * 2 ^ 53 = 2 * roundDouble n * 2 ^ 52 := by ring
      _ ≤ (2 * n + 2 ^ excessBits n) * 2 ^ 52 := Nat.mul_le_mul_right _ (two_mul_roundDouble_le n)
      _ = n * 2 ^ 53 + 2 ^ excessBits n * 2 ^ 52 := by ring
      _ ≤ n * 2 ^ 53 + n := Nat.add_le_add_left hsize _
      _ = n * (2 ^ 53 + 1) := by ring

theorem mulDouble_le {v : Int} {m e : ℕ} (hv : 0 ≤ v) (hm : m * (2 ^ 53 + 1) ^ 2 ≤ 2 ^ e * 2 ^ 106) :
    0 ≤ mulDouble v m e ∧ mulDouble v m e ≤ v := by
  obtain ⟨n, rfl⟩ := Int.eq_ofNat_of_zero_le hv
  have hbound : roundDouble (roundDouble n * m) / 2 ^ e ≤ n := by
    refine Nat.div_le_of_le_mul ?_
    refine Nat.le_of_mul_le_mul_right ?_ (show 0 < 2 ^ 106 by norm_num)
    calc roundDouble (roundDouble n * m) * 2 ^ 106 = roundDouble (roundDouble n * m) * 2 ^ 53 * 2 ^ 53 := by ring
      _ ≤ roundDouble n * m * (2 ^ 53 + 1) * 2 ^ 53 := Nat.mul_le_mul_right _ (roundDouble_le _)
      _ = roundDouble n * 2 ^ 53 * (m * (2 ^ 53 + 1)) := by ring
      _ ≤ n * (2 ^ 53 + 1) * (m * (2 ^ 53 + 1)) := Nat.mul_le_mul_right _ (roundDouble_le n)
      _ = n * (m * (2 ^ 53 + 1) ^ 2) := by ring
      _ ≤ n * (2 ^ e * 2 ^ 106) := Nat.mul_le_mul_left _ hm
      _ = 2 ^ e * n * 2 ^ 106 := by ring
  rcases Nat.eq_zero_or_pos n with rfl | hpos
  · simp [mulDouble]
  · have hsign : Int.sign (n : Int) = 1 := Int.sign_eq_one_of_pos (by omega)
    rw [mulDouble, hsign, one_mul, Int.natAbs_natCast]
    exact ⟨Int.natCast_nonneg _, Int.ofNat_le.mpr hbound⟩

end OmegaCore.Util
