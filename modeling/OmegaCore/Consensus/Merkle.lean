import Mathlib.Algebra.Order.Ring.Nat
import Mathlib.Data.List.Induction
import Mathlib.Data.Nat.Pairing

/-!
Merkle roots.  A level of the tree is hashed in pairs, an odd one with its last hash
repeated, until one hash is left.  The hash function of a pair, double SHA-256 of its 64
bytes, is a parameter, and so is the type of hashes.
-/

namespace OmegaCore.Consensus

variable {α : Type} (hash : α → α → α)

variable (hashes : List α)

def padOdd : List α :=
  if hashes.length % 2 = 1 then hashes ++ hashes.getLast?.toList else hashes

/-- `SHA256D64`, which hashes a level in pairs. -/
def hashPairs : List α → List α
  | a :: b :: hashes => hash a b :: hashPairs hashes
  | _ => []

def nextLevel : List α :=
  hashPairs hash (padOdd hashes)

section Root

variable [DecidableEq α]

def equalPair : List α → Bool
  | a :: b :: hashes => a == b || equalPair hashes
  | _ => false

/-- The loop over the levels, with a bound on their number. -/
def merkleLoop : ℕ → List α → Bool → List α × Bool
  | 0, hashes, mutation => (hashes, mutation)
  | n + 1, hashes, mutation =>
    if hashes.length > 1 then merkleLoop n (nextLevel hash hashes) (mutation || equalPair hashes)
    else (hashes, mutation)

/-- The root and whether a mutation was seen.  The root of no hashes is the null hash. -/
def computeMerkleRoot (null : α) (hashes : List α) : α × Bool :=
  let result := merkleLoop hash hashes.length hashes false
  (result.1.headD null, result.2)

end Root

/-! ### Levels -/

theorem length_padOdd : (padOdd hashes).length = hashes.length + hashes.length % 2 := by
  unfold padOdd
  split_ifs with hodd
  · cases hashes with
    | nil => cases hodd
    | cons a hashes =>
      rw [List.length_append, List.getLast?_cons, Option.toList_some, List.length_singleton]
      omega
  · omega

theorem length_hashPairs : (hashPairs hash hashes).length = hashes.length / 2 := by
  induction hashes using hashPairs.induct with
  | case1 a b hashes ih =>
    simp only [hashPairs, List.length_cons, ih]
    omega
  | case2 hashes hshort =>
    match hashes, hshort with
    | [], _ => simp [hashPairs]
    | [a], _ => simp [hashPairs]
    | a :: b :: hashes, hshort => exact absurd rfl (hshort a b hashes)

theorem length_nextLevel : (nextLevel hash hashes).length = (hashes.length + 1) / 2 := by
  rw [nextLevel, length_hashPairs, length_padOdd]
  omega

variable {hashes : List α}

theorem getElem?_padOdd {i : ℕ} (h : i < hashes.length) : (padOdd hashes)[i]? = hashes[i]? := by
  unfold padOdd
  split_ifs
  · exact List.getElem?_append_left h
  · rfl

def siblingIndex (i : ℕ) : ℕ :=
  if i % 2 = 1 then i - 1 else i + 1

/-- The hash of a pair, one of whose hashes is known by its index. -/
def parent (i : ℕ) (a sibling : α) : α :=
  if i % 2 = 1 then hash sibling a else hash a sibling

theorem getElem?_hashPairs {i : ℕ} {a sibling : α} (ha : hashes[i]? = some a)
    (hsibling : hashes[siblingIndex i]? = some sibling) :
    (hashPairs hash hashes)[i / 2]? = some (parent hash i a sibling) := by
  induction hashes using hashPairs.induct generalizing i with
  | case1 b c hashes ih =>
    match i with
    | 0 =>
      cases ha
      cases hsibling
      rfl
    | 1 =>
      cases ha
      cases hsibling
      rfl
    | i + 2 =>
      have hindex : siblingIndex (i + 2) = siblingIndex i + 2 := by
        unfold siblingIndex
        split_ifs <;> omega
      rw [hindex] at hsibling
      have hhalf : (i + 2) / 2 = i / 2 + 1 := by omega
      have hparent : parent hash (i + 2) a sibling = parent hash i a sibling := by
        unfold parent
        rw [Nat.add_mod_right]
      rw [hhalf, hparent, hashPairs, List.getElem?_cons_succ]
      exact ih ha hsibling
  | case2 hashes hshort =>
    match hashes, hshort with
    | [], _ => cases ha
    | [b], _ =>
      match i with
      | 0 => cases hsibling
      | i + 1 => cases ha
    | b :: c :: hashes, hshort => exact absurd rfl (hshort b c hashes)

theorem getElem?_nextLevel {i : ℕ} {a : α} (ha : hashes[i]? = some a) :
    ∃ sibling, (padOdd hashes)[siblingIndex i]? = some sibling ∧
      (nextLevel hash hashes)[i / 2]? = some (parent hash i a sibling) := by
  have hi : i < hashes.length := (List.getElem?_eq_some_iff.mp ha).1
  have hsibling : siblingIndex i < (padOdd hashes).length := by
    rw [length_padOdd]
    unfold siblingIndex
    split_ifs <;> omega
  refine ⟨(padOdd hashes)[siblingIndex i], List.getElem?_eq_getElem hsibling, ?_⟩
  apply getElem?_hashPairs
  · rw [getElem?_padOdd hi, ha]
  · exact List.getElem?_eq_getElem hsibling

@[simp]
theorem nextLevel_cons_cons (a b : α) : nextLevel hash (a :: b :: hashes) = hash a b :: nextLevel hash hashes := by
  have hparity : (hashes.length + 1 + 1) % 2 = hashes.length % 2 := by omega
  unfold nextLevel padOdd
  cases hashes <;> simp only [List.length_cons] at hparity ⊢
  · simp [hashPairs]
  · simp only [hparity]
    split_ifs <;> simp [hashPairs]

/-! ### The root -/

variable [DecidableEq α]

theorem merkleLoop_congr {n m : ℕ} (hn : hashes.length ≤ n) (hm : hashes.length ≤ m)
    (mutation : Bool) : merkleLoop hash n hashes mutation = merkleLoop hash m hashes mutation := by
  induction n generalizing m hashes mutation with
  | zero =>
    have hempty : ¬ hashes.length > 1 := by omega
    cases m with
    | zero => rfl
    | succ m => rw [merkleLoop, merkleLoop, if_neg hempty]
  | succ n ih =>
    cases m with
    | zero =>
      have hempty : ¬ hashes.length > 1 := by omega
      rw [merkleLoop, merkleLoop, if_neg hempty]
    | succ m =>
      rw [merkleLoop, merkleLoop]
      split_ifs with hlong
      · exact ih (by rw [length_nextLevel]; omega) (by rw [length_nextLevel]; omega) _
      · rfl

theorem merkleLoop_fst_mutation (n : ℕ) (hashes : List α) (mutation mutation' : Bool) :
    (merkleLoop hash n hashes mutation).1 = (merkleLoop hash n hashes mutation').1 := by
  induction n generalizing hashes mutation mutation' with
  | zero => rfl
  | succ n ih =>
    rw [merkleLoop, merkleLoop]
    split_ifs
    · exact ih _ _ _
    · rfl

theorem computeMerkleRoot_nextLevel (null : α) (h : 1 < hashes.length) :
    (computeMerkleRoot hash null hashes).1 = (computeMerkleRoot hash null (nextLevel hash hashes)).1 := by
  have hlength := length_nextLevel hash hashes
  obtain ⟨n, hn⟩ : ∃ n, hashes.length = n + 1 := ⟨hashes.length - 1, by omega⟩
  unfold computeMerkleRoot
  dsimp only
  rw [hn, merkleLoop, if_pos (by omega), merkleLoop_fst_mutation hash n _ _ false,
    merkleLoop_congr hash (by omega) (Nat.le_refl _)]

/-! ### Mutations -/

open Function

variable {hash} {hashes' : List α} {root : α} {k j n : ℕ}

/-- `k` levels without a mutation lead from a list to its root. -/
structure Climbs (hash : α → α → α) (k : ℕ) (hashes : List α) (root : α) : Prop where
  root : (nextLevel hash)^[k] hashes = [root]
  unmutated : ∀ i < k, equalPair ((nextLevel hash)^[i] hashes) = false

theorem Climbs.tail (h : Climbs hash (k + 1) hashes root) : Climbs hash k (nextLevel hash hashes) root :=
  ⟨h.root, fun i hi => h.unmutated (i + 1) (by omega)⟩

theorem exists_climbs {mutation : Bool} (hn : hashes.length ≤ n) (hne : hashes ≠ [])
    (h : (merkleLoop hash n hashes mutation).2 = false) :
    mutation = false ∧ ∃ k root, (merkleLoop hash n hashes mutation).1 = [root] ∧ Climbs hash k hashes root := by
  induction n generalizing hashes mutation with
  | zero => simp_all
  | succ n ih =>
    rw [merkleLoop] at h ⊢
    have hpos := List.length_pos_iff.mpr hne
    split_ifs at h ⊢ with hlong
    · have hlength := length_nextLevel hash hashes
      obtain ⟨hflag, k, root, hroot, hclimbs⟩ := ih (by omega) (List.length_pos_iff.mp (by omega)) h
      rw [Bool.or_eq_false_iff] at hflag
      refine ⟨hflag.1, k + 1, root, hroot, hclimbs.root, fun i hi => ?_⟩
      cases i with
      | zero => exact hflag.2
      | succ i => exact hclimbs.unmutated i (by omega)
    · obtain ⟨root, rfl⟩ := List.length_eq_one_iff.mp (by omega : hashes.length = 1)
      exact ⟨h, 0, root, rfl, rfl, by simp⟩

/-- A last hash that is paired with itself differs from a pair, unless that one is a mutation. -/
theorem nextLevel_injective (hinj : Injective2 hash) (h₁ : equalPair hashes = false) (h₂ : equalPair hashes' = false)
    (h : nextLevel hash hashes = nextLevel hash hashes') : hashes = hashes' := by
  have hnil : nextLevel hash [] = [] := rfl
  have hone (a : α) : nextLevel hash [a] = [hash a a] := rfl
  induction hashes using List.twoStepInduction generalizing hashes' with
  | nil => rcases hashes' with _ | ⟨c, _ | ⟨d, hashes'⟩⟩ <;> simp [hnil, hone] at h ⊢
  | singleton a =>
    rcases hashes' with _ | ⟨c, _ | ⟨d, hashes'⟩⟩ <;> simp [equalPair, hinj.eq_iff, hnil, hone] at h₂ h ⊢
    · exact h
    · exact h₂.1 (h.1.1.symm.trans h.1.2)
  | cons_cons a b hashes ih _ =>
    rcases hashes' with _ | ⟨c, _ | ⟨d, hashes'⟩⟩ <;> simp [equalPair, hinj.eq_iff, hnil, hone] at h₁ h₂ h ⊢
    · exact h₁.1 (h.1.1.trans h.1.2.symm)
    · exact ⟨h.1.1, h.1.2, ih h₁.2 h₂.2 h.2⟩

theorem Climbs.eq_iterate (hinj : Injective2 hash) (h : Climbs hash k hashes root)
    (h' : Climbs hash (k + j) hashes' root) : hashes = (nextLevel hash)^[j] hashes' := by
  induction k generalizing hashes hashes' with
  | zero => exact h.root.trans (Nat.zero_add j ▸ h').root.symm
  | succ k ih =>
    rw [Nat.add_right_comm] at h'
    refine nextLevel_injective hinj (h.unmutated 0 (by omega)) (h'.unmutated j (by omega)) ?_
    rw [ih h.tail h'.tail, ← iterate_succ_apply, iterate_succ_apply']

/-- Lists that are not seen as mutated have the same root only if one is a level of the tree of the other. -/
theorem level_of_sameRoot (hinj : Injective2 hash) (null : α) (hne : hashes ≠ []) (hne' : hashes' ≠ [])
    (h : (computeMerkleRoot hash null hashes).2 = false) (h' : (computeMerkleRoot hash null hashes').2 = false)
    (hroot : (computeMerkleRoot hash null hashes).1 = (computeMerkleRoot hash null hashes').1) :
    ∃ k, hashes = (nextLevel hash)^[k] hashes' ∨ hashes' = (nextLevel hash)^[k] hashes := by
  obtain ⟨-, k, root, hloop, hclimbs⟩ := exists_climbs (Nat.le_refl _) hne h
  obtain ⟨-, k', root', hloop', hclimbs'⟩ := exists_climbs (Nat.le_refl _) hne' h'
  obtain rfl : root = root' := by simpa [computeMerkleRoot, hloop, hloop'] using hroot
  rcases Nat.le_total k k' with hle | hle
  · obtain ⟨j, rfl⟩ := Nat.exists_eq_add_of_le hle
    exact ⟨j, .inl (hclimbs.eq_iterate hinj hclimbs')⟩
  · obtain ⟨j, rfl⟩ := Nat.exists_eq_add_of_le hle
    exact ⟨j, .inr (hclimbs'.eq_iterate hinj hclimbs)⟩

theorem level_of_sameRoot_pair : ∃ k, [Nat.pair 1 2] = (nextLevel Nat.pair)^[k] [1, 2] ∨
    [1, 2] = (nextLevel Nat.pair)^[k] [Nat.pair 1 2] :=
  level_of_sameRoot (fun _ _ _ _ => Nat.pair_eq_pair.mp) 0 (by simp) (by simp) (by decide) (by decide) rfl

end OmegaCore.Consensus
