import Mathlib.Data.Nat.Size
import Mathlib.Tactic.Ring

/-!
Numbers with a mantissa of three bytes, whose highest bit is not used, and an exponent
that counts bytes.  Rounding down to such a number is monotone and loses less than one
part in `2 ^ 15`.
-/

namespace OmegaCore.Util

open Nat

variable (n : ℕ)

/-- The bits below the three highest bytes, or the two highest where the first has its highest bit set. -/
def byteShift : ℕ :=
  8 * (n.size / 8 - 2)

/-- Round down to a number with a mantissa of three bytes. -/
def truncateBytes : ℕ :=
  n / 2 ^ byteShift n * 2 ^ byteShift n

theorem truncateBytes_le : truncateBytes n ≤ n :=
  div_mul_le_self n _

theorem isGreatest_truncateBytes : IsGreatest {m | m ≤ n ∧ 2 ^ byteShift n ∣ m} (truncateBytes n) := by
  refine ⟨⟨truncateBytes_le n, Dvd.intro_left _ rfl⟩, ?_⟩
  rintro _ ⟨hle, k, rfl⟩
  unfold truncateBytes
  rw [Nat.mul_comm]
  apply Nat.mul_le_mul_right
  rwa [Nat.le_div_iff_mul_le (Nat.two_pow_pos _), Nat.mul_comm]

theorem lt_truncateBytes_add : n < truncateBytes n + 2 ^ byteShift n := by
  unfold truncateBytes
  have hdiv := div_add_mod' n (2 ^ byteShift n)
  omega

theorem two_pow_byteShift_mul_le {n : ℕ} (h : byteShift n ≠ 0) : 2 ^ byteShift n * 2 ^ 15 ≤ n := by
  rw [← pow_add]
  apply lt_size.mp
  unfold byteShift at h ⊢
  omega

theorem truncateBytes_mono {m n : ℕ} (h : m ≤ n) : truncateBytes m ≤ truncateBytes n := by
  have hsize := size_le_size h
  by_cases hshift : byteShift m = byteShift n
  · unfold truncateBytes
    rw [hshift]
    exact Nat.mul_le_mul_right _ (Nat.div_le_div_right h)
  · -- a power of two between the two numbers is kept by the rounding
    have hbetween : m < 2 ^ (8 * (n.size / 8) - 1) := by
      apply size_le.mp
      unfold byteShift at hshift
      omega
    have hle : 2 ^ (8 * (n.size / 8) - 1) ≤ n := by
      apply lt_size.mp
      unfold byteShift at hshift
      omega
    have hsplit : 2 ^ (8 * (n.size / 8) - 1) = 2 ^ 15 * 2 ^ byteShift n := by
      rw [← pow_add]
      unfold byteShift at hshift ⊢
      congr 1
      omega
    calc truncateBytes m ≤ m := truncateBytes_le m
      _ ≤ 2 ^ (8 * (n.size / 8) - 1) := hbetween.le
      _ = 2 ^ 15 * 2 ^ byteShift n := hsplit
      _ ≤ truncateBytes n := by
        apply Nat.mul_le_mul_right
        rw [Nat.le_div_iff_mul_le (Nat.two_pow_pos _), ← hsplit]
        exact hle

theorem truncateBytes_lt {m n : ℕ} (h : m * 2 ^ 15 + n < n * 2 ^ 15) : truncateBytes m < truncateBytes n := by
  have hle := truncateBytes_le m
  have hlt := lt_truncateBytes_add n
  by_cases hshift : byteShift n = 0
  · rw [hshift] at hlt
    omega
  · have hsmall := two_pow_byteShift_mul_le hshift
    omega

/-! ### Mantissa and exponent -/

def leadingBytes (n nSize : ℕ) : ℕ :=
  if nSize ≤ 3 then n * 2 ^ (8 * (3 - nSize)) else n / 2 ^ (8 * (nSize - 3))

theorem leadingBytes_succ (n nSize : ℕ) : leadingBytes n (nSize + 1) = leadingBytes n nSize / 2 ^ 8 := by
  unfold leadingBytes
  split_ifs with h1 h2
  · have hsplit : 8 * (3 - nSize) = 8 * (3 - (nSize + 1)) + 8 := by omega
    rw [hsplit, pow_add, ← Nat.mul_assoc, Nat.mul_div_cancel _ (by decide)]
  · omega
  · have hsize : nSize = 3 := by omega
    simp [hsize]
  · have hsplit : 8 * (nSize + 1 - 3) = 8 * (nSize - 3) + 8 := by omega
    rw [hsplit, pow_add, Nat.div_div_eq_div_mul]

theorem leadingBytes_lt {n nSize k : ℕ} (h : n.size + 24 ≤ k + 8 * nSize) : leadingBytes n nSize < 2 ^ k := by
  have hlt := lt_size_self n
  unfold leadingBytes
  split_ifs with h3
  · calc n * 2 ^ (8 * (3 - nSize)) < 2 ^ n.size * 2 ^ (8 * (3 - nSize)) :=
          Nat.mul_lt_mul_of_pos_right hlt (Nat.two_pow_pos _)
      _ = 2 ^ (n.size + 8 * (3 - nSize)) := (pow_add _ _ _).symm
      _ ≤ 2 ^ k := Nat.pow_le_pow_right (by decide) (by omega)
  · apply Nat.div_lt_of_lt_mul
    rw [← pow_add]
    exact hlt.trans_le (Nat.pow_le_pow_right (by decide) (by omega))

theorem le_leadingBytes {n nSize k : ℕ} (hsize : 0 < n.size) (h : k + 8 * nSize < n.size + 24) :
    2 ^ k ≤ leadingBytes n nSize := by
  have hle := lt_size.mp (sub_lt hsize Nat.one_pos)
  unfold leadingBytes
  split_ifs with h3
  · calc 2 ^ k ≤ 2 ^ (n.size - 1 + 8 * (3 - nSize)) := Nat.pow_le_pow_right (by decide) (by omega)
      _ = 2 ^ (n.size - 1) * 2 ^ (8 * (3 - nSize)) := pow_add _ _ _
      _ ≤ n * 2 ^ (8 * (3 - nSize)) := Nat.mul_le_mul_right _ hle
  · rw [Nat.le_div_iff_mul_le (Nat.two_pow_pos _), ← pow_add]
    exact (Nat.pow_le_pow_right (by decide) (by omega)).trans hle

/-- The number of bytes, counted so that the highest bit is free. -/
def byteExponent : ℕ :=
  if n = 0 then 0 else n.size / 8 + 1

def byteMantissa : ℕ :=
  leadingBytes n (byteExponent n)

theorem byteMantissa_lt : byteMantissa n < 2 ^ 23 := by
  unfold byteMantissa byteExponent
  split_ifs with hzero
  · simp [leadingBytes, hzero]
  · exact leadingBytes_lt (by omega)

theorem byteMantissa_add_mono {m n : ℕ} (h : m ≤ n) :
    byteMantissa m + 2 ^ 24 * byteExponent m ≤ byteMantissa n + 2 ^ 24 * byteExponent n := by
  have hsize := size_le_size h
  have hm := byteMantissa_lt m
  have hexponent : byteExponent m ≤ byteExponent n := by
    unfold byteExponent
    split_ifs
    all_goals omega
  by_cases heq : byteExponent m = byteExponent n
  · have hword : byteMantissa m ≤ byteMantissa n := by
      unfold byteMantissa leadingBytes
      rw [heq]
      split_ifs
      · exact Nat.mul_le_mul_right _ h
      · exact Nat.div_le_div_right h
    omega
  · omega

def ofBytes (nSize nWord : ℕ) : ℕ :=
  if nSize ≤ 3 then nWord / 2 ^ (8 * (3 - nSize)) else nWord * 2 ^ (8 * (nSize - 3))

theorem ofBytes_byteExponent : ofBytes (byteExponent n) (byteMantissa n) = truncateBytes n := by
  unfold ofBytes byteMantissa leadingBytes truncateBytes
  split_ifs with h3
  · have hshift : byteShift n = 0 := by
      unfold byteExponent at h3
      unfold byteShift
      split_ifs at h3 with hzero
      · simp [hzero]
      · omega
    rw [Nat.mul_div_cancel _ (Nat.two_pow_pos _), hshift]
    simp
  · have hshift : byteShift n = 8 * (byteExponent n - 3) := by
      unfold byteExponent at h3 ⊢
      unfold byteShift
      split_ifs at h3 ⊢ with hzero
      · omega
      · omega
    rw [hshift]

theorem byteExponent_ofBytes {nSize nWord : ℕ} (hle : 2 ^ 15 ≤ nWord) (hlt : nWord < 2 ^ 23)
    (hdvd : 2 ^ (8 * (3 - nSize)) ∣ nWord) :
    byteExponent (ofBytes nSize nWord) = nSize ∧ byteMantissa (ofBytes nSize nWord) = nWord := by
  have hword : leadingBytes (ofBytes nSize nWord) nSize = nWord := by
    unfold leadingBytes ofBytes
    split_ifs
    · exact Nat.div_mul_cancel hdvd
    · exact Nat.mul_div_cancel _ (Nat.two_pow_pos _)
  have hexponent : byteExponent (ofBytes nSize nWord) = nSize := by
    generalize ofBytes nSize nWord = n at hword
    have hne : n ≠ 0 := by
      rintro rfl
      simp [leadingBytes] at hword
      omega
    have hlow := mt (@leadingBytes_lt n nSize 15) (by omega)
    have hhigh := mt (@le_leadingBytes n nSize 23 (size_pos.mpr (Nat.pos_of_ne_zero hne))) (by omega)
    unfold byteExponent
    rw [if_neg hne]
    omega
  exact ⟨hexponent, by rw [byteMantissa, hexponent, hword]⟩

end OmegaCore.Util
