import Mathlib.Data.Nat.Bitwise
import Mathlib.Data.Nat.Log
import Mathlib.Data.BitVec
import OmegaCore.Consensus.Merkle

/-!
Branches of a Merkle tree.  `ComputeMerkleBranch` collects the siblings on the way from a
leaf to the root, and `VerifyMerkleBranch` hashes a leaf up along them.  A branch of the
right length that leads another leaf to the root of the list gives a collision of the hash.
-/

namespace OmegaCore.Smsg

open Consensus Nat

variable {α : Type} (hash : α → α → α)

/-- The loop of `ComputeMerkleBranch`.  An index beyond the level has no sibling. -/
def branchLoop : ℕ → List α → BitVec 32 → Option (List α)
  | 0, _, _ => some []
  | n + 1, hashes, index =>
    if hashes.length > 1 then
      match (padOdd hashes)[(index ^^^ 1).toNat]?, branchLoop n (nextLevel hash hashes) (index >>> 1) with
      | some sibling, some branch => some (sibling :: branch)
      | _, _ => none
    else some []

def computeMerkleBranch (hashes : List α) (index : BitVec 32) : Option (List α) :=
  branchLoop hash hashes.length hashes index

/-- The loop of `VerifyMerkleBranch`. -/
def hashUp (cur : α) : List α → BitVec 32 → α
  | [], _ => cur
  | sibling :: branch, index =>
    hashUp (if index &&& 1 ≠ 0 then hash sibling cur else hash cur sibling) branch (index >>> 1)

def verifyMerkleBranch [DecidableEq α] (leaf : α) (branch : List α) (index : BitVec 32) (root : α) : Bool :=
  hashUp hash leaf branch index == root

/-! ### The index -/

theorem toNat_xor_one (index : BitVec 32) : (index ^^^ 1).toNat = siblingIndex index.toNat := by
  rw [BitVec.toNat_xor, siblingIndex]
  split_ifs with hodd
  · exact xor_one_of_odd (odd_iff.mpr hodd)
  · exact xor_one_of_even (even_iff.mpr (by omega))

theorem toNat_shift_one (index : BitVec 32) : (index >>> 1).toNat = index.toNat / 2 := by
  rw [BitVec.toNat_ushiftRight, shiftRight_eq_div_pow, pow_one]

theorem hashUp_cons (cur sibling : α) (branch : List α) (index : BitVec 32) :
    hashUp hash cur (sibling :: branch) index =
      hashUp hash (parent hash index.toNat cur sibling) branch (index >>> 1) := by
  have hbit : index &&& 1 ≠ 0 ↔ index.toNat % 2 = 1 := by
    have hand : (index &&& 1).toNat = index.toNat % 2 := by
      rw [BitVec.toNat_and]
      exact and_one_is_mod _
    rw [Ne, ← BitVec.toNat_inj, hand]
    change ¬ index.toNat % 2 = 0 ↔ _
    omega
  rw [hashUp, parent]
  congr 1
  exact if_congr hbit rfl rfl

/-! ### Completeness -/

/-- Along its branch a leaf is hashed to the root. -/
theorem hashUp_branchLoop [DecidableEq α] (null : α) {n : ℕ} {hashes : List α} {index : BitVec 32} {leaf : α}
    (hn : hashes.length ≤ n) (hleaf : hashes[index.toNat]? = some leaf) :
    ∃ branch, branchLoop hash n hashes index = some branch ∧
      hashUp hash leaf branch index = (computeMerkleRoot hash null hashes).1 := by
  have hindex : index.toNat < hashes.length := (List.getElem?_eq_some_iff.mp hleaf).1
  induction n generalizing hashes index leaf with
  | zero => omega
  | succ n ih =>
    by_cases hlong : hashes.length > 1
    · obtain ⟨sibling, hsibling, hparent⟩ := getElem?_nextLevel hash hleaf
      rw [← toNat_shift_one] at hparent
      have hlength := length_nextLevel hash hashes
      obtain ⟨branch, hbranch, hroot⟩ := ih (by omega) hparent (List.getElem?_eq_some_iff.mp hparent).1
      refine ⟨sibling :: branch, ?_, ?_⟩
      · rw [branchLoop, if_pos hlong, toNat_xor_one, hsibling, hbranch]
      · rw [hashUp_cons, hroot, ← computeMerkleRoot_nextLevel hash null hlong]
    · have hone : hashes.length = 1 := by omega
      obtain ⟨a, rfl⟩ := List.length_eq_one_iff.mp hone
      have hzero : index.toNat = 0 := by omega
      rw [hzero] at hleaf
      cases hleaf
      exact ⟨[], by rw [branchLoop, if_neg hlong], rfl⟩

/-! ### Binding -/

def Collision : Prop :=
  ∃ a b c d : α, (a, b) ≠ (c, d) ∧ hash a b = hash c d

theorem eq_of_parent_eq {hash : α → α → α} (hfree : ¬ Collision hash) {i : ℕ} {a b s t : α}
    (h : parent hash i a s = parent hash i b t) : a = b := by
  have hinj {a b c d : α} (h : hash a b = hash c d) : a = c ∧ b = d := by
    by_contra hne
    exact hfree ⟨a, b, c, d, fun heq => hne (Prod.mk.inj heq), h⟩
  unfold parent at h
  split_ifs at h
  · exact (hinj h).2
  · exact (hinj h).1

theorem clog_length_nextLevel {hashes : List α} (h : 1 < hashes.length) :
    clog 2 hashes.length = clog 2 (nextLevel hash hashes).length + 1 := by
  rw [length_nextLevel, clog_of_one_lt (by decide) h]
  rfl

/-- Without a collision a branch of the right length belongs to one leaf. -/
theorem eq_of_hashUp_eq [DecidableEq α] (null : α) {hash : α → α → α} (hfree : ¬ Collision hash) {branch hashes : List α}
    {index : BitVec 32} {leaf : α} (hindex : index.toNat < hashes.length)
    (hlength : branch.length = clog 2 hashes.length)
    (h : hashUp hash leaf branch index = (computeMerkleRoot hash null hashes).1) :
    hashes[index.toNat]? = some leaf := by
  induction branch generalizing hashes index leaf with
  | nil =>
    have hone : hashes.length = 1 := by
      have hle := (clog_le_iff_le_pow (by decide)).mp (Nat.le_of_eq hlength.symm)
      simp only [List.length_nil, pow_zero] at hle
      omega
    obtain ⟨a, rfl⟩ := List.length_eq_one_iff.mp hone
    have hzero : index.toNat = 0 := by omega
    rw [hzero, show leaf = a from h]
    rfl
  | cons sibling branch ih =>
    have hlong : 1 < hashes.length := by
      by_contra hshort
      rw [clog_of_right_le_one (by omega)] at hlength
      cases hlength
    have hleaf := List.getElem?_eq_getElem hindex
    obtain ⟨sibling', -, hparent⟩ := getElem?_nextLevel hash hleaf
    rw [hashUp_cons, computeMerkleRoot_nextLevel hash null hlong] at h
    rw [List.length_cons, clog_length_nextLevel hash hlong] at hlength
    have hup := ih (by exact (List.getElem?_eq_some_iff.mp hparent).1) (by omega) h
    rw [toNat_shift_one, hparent] at hup
    rw [hleaf, eq_of_parent_eq hfree (Option.some.inj hup)]

/-- Every leaf is verified with its branch, and with an injective hash a verified branch of the right length
belongs to the leaf at its index. -/
theorem verifyMerkleBranch_complete_binding [DecidableEq α] (null : α) (hash : α → α → α) (hashes : List α) (index : BitVec 32)
    (hindex : index.toNat < hashes.length) :
    (∃ branch, computeMerkleBranch hash hashes index = some branch ∧
      verifyMerkleBranch hash hashes[index.toNat] branch index (computeMerkleRoot hash null hashes).1 = true) ∧
    (Function.Injective2 hash → ∀ (leaf : α) (branch : List α), branch.length = clog 2 hashes.length →
      verifyMerkleBranch hash leaf branch index (computeMerkleRoot hash null hashes).1 = true →
      leaf = hashes[index.toNat]) := by
  have hleaf := List.getElem?_eq_getElem hindex
  constructor
  · obtain ⟨branch, hbranch, hroot⟩ := hashUp_branchLoop hash null (Nat.le_refl _) hleaf
    exact ⟨branch, hbranch, by rw [verifyMerkleBranch, hroot, beq_self_eq_true]⟩
  · intro hinj leaf branch hlength hverified
    have hfree : ¬ Collision hash := by
      rintro ⟨a, b, c, d, hne, heq⟩
      obtain ⟨rfl, rfl⟩ := hinj heq
      exact hne rfl
    have hroot := eq_of_beq hverified
    have hfound := eq_of_hashUp_eq null hfree hindex hlength hroot
    rw [hleaf] at hfound
    exact (Option.some.inj hfound).symm

theorem verifyMerkleBranch_complete_binding_three :
    (∃ branch, computeMerkleBranch pair [5, 6, 7] 2 = some branch ∧
      verifyMerkleBranch pair 7 branch 2 (computeMerkleRoot pair 0 [5, 6, 7]).1 = true) ∧
    ∀ (leaf : ℕ) (branch : List ℕ), branch.length = 2 →
      verifyMerkleBranch pair leaf branch 2 (computeMerkleRoot pair 0 [5, 6, 7]).1 = true → leaf = 7 := by
  obtain ⟨hcomplete, hbinding⟩ := verifyMerkleBranch_complete_binding 0 pair [5, 6, 7] 2 (by decide)
  refine ⟨hcomplete, fun leaf branch hlength hverified => ?_⟩
  have hinj : Function.Injective2 pair := fun a b c d h => pair_eq_pair.mp h
  have hclog : clog 2 [5, 6, 7].length = 2 := by decide
  exact hbinding hinj leaf branch (hlength.trans hclog.symm) hverified

end OmegaCore.Smsg
