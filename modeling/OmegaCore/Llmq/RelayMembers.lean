import Mathlib.Data.Finset.Union
import OmegaCore.Primitives

/-!
The relay connections inside a quorum.  The members stand in a ring, and each connects to the members at
the distances `1, 2, 4, …`.  With the largest of these distances taken twice, every member is reached in
logarithmically many hops.
-/

namespace OmegaCore.Llmq

open Finset Nat

variable (mns : List Uint256) (i : ℕ) (proTxHash : Uint256)

/-- The member at distance `gap` in the ring; `mns` are the hashes of `GetAllQuorumMembers`. -/
def ringMember (gap : ℕ) : Uint256 :=
  mns.getD ((i + gap) % mns.length) 0

/-- The loop of `calcOutbound`, where `gapMax` is halved before it is tested. -/
def outboundLoop (gapMax gap k : ℕ) (r : Finset Uint256) : Finset Uint256 :=
  if gapMax / 2 ≠ 0 ∨ k ≤ 1 then
    let other := ringMember mns i gap
    outboundLoop (gapMax / 2) (gap * 2) (k + 1) (if other = proTxHash then r else insert other r)
  else r
termination_by gapMax + (2 - k)

def calcOutbound : Finset Uint256 :=
  if mns.length = 1 then ∅ else outboundLoop mns i proTxHash (mns.length - 1) 1 0 ∅

def getQuorumRelayMembers (forMember : Uint256) (onlyOutbound : Bool) : Finset Uint256 :=
  (range mns.length).biUnion fun i =>
    let dmn := mns.getD i 0
    if dmn = forMember then calcOutbound mns i dmn
    else if !onlyOutbound && forMember ∈ calcOutbound mns i dmn then {dmn} else ∅

/-- The members that a message reaches in at most so many hops over outbound connections. -/
def reached (a : Uint256) : ℕ → Finset Uint256
  | 0 => {a}
  | hops + 1 => reached a hops ∪ (reached a hops).biUnion fun b => getQuorumRelayMembers mns b true

variable {mns i proTxHash}

theorem mem_outboundLoop {x : Uint256} {gapMax gap k : ℕ} {r : Finset Uint256} :
    x ∈ outboundLoop mns i proTxHash gapMax gap k r ↔
      x ∈ r ∨ x ≠ proTxHash ∧ ∃ j < max (2 - k) gapMax.log2, x = ringMember mns i (gap * 2 ^ j) := by
  fun_induction outboundLoop with
  | case1 gapMax gap k r hcond other ih =>
    have hrounds : max (2 - k) gapMax.log2 = max (2 - (k + 1)) (gapMax / 2).log2 + 1 := by
      have hhalf : gapMax < 2 → (gapMax / 2).log2 = 0 := fun h => by rw [div_eq_of_lt h]; rfl
      rw [log2_def gapMax]
      split_ifs <;> omega
    simp only [dite_eq_ite] at ih
    rw [ih, hrounds, exists_lt_succ_left]
    simp only [pow_succ', pow_zero, mul_one, mul_assoc]
    grind
  | case2 gapMax gap k r hcond =>
    have hrounds : max (2 - k) gapMax.log2 = 0 := by
      rw [log2_def, if_neg (by omega)]
      omega
    simp [hrounds]

theorem mem_calcOutbound {x : Uint256} :
    x ∈ calcOutbound mns i proTxHash ↔
      mns.length ≠ 1 ∧ x ≠ proTxHash ∧ ∃ j < max 2 (mns.length - 1).log2, x = ringMember mns i (2 ^ j) := by
  unfold calcOutbound
  split_ifs with h
  · simp [h]
  · simp [h, mem_outboundLoop]

variable (h : 2 ≤ mns.length) {a : Uint256} {m gap : ℕ}
include h

/-- Staying counts as well, so that a gap that leads around the ring needs no case of its own. -/
theorem ringMember_mem_reached {j : ℕ} (hj : j < max 2 (mns.length - 1).log2)
    (hgap : ringMember mns i gap ∈ reached mns a m) : ringMember mns i (gap + 2 ^ j) ∈ reached mns a (m + 1) := by
  have hnext : ringMember mns ((i + gap) % mns.length) (2 ^ j) = ringMember mns i (gap + 2 ^ j) := by
    unfold ringMember
    rw [mod_add_mod, Nat.add_assoc]
  rw [reached, mem_union, mem_biUnion]
  by_cases heq : ringMember mns i (gap + 2 ^ j) = ringMember mns i gap
  · exact .inl (heq ▸ hgap)
  · refine .inr ⟨_, hgap, mem_biUnion.mpr ⟨(i + gap) % mns.length, ?_, ?_⟩⟩
    · exact mem_range.mpr (mod_lt _ (by omega))
    · refine (if_pos rfl).symm ▸ mem_calcOutbound.mpr ⟨by omega, heq, j, hj, hnext.symm⟩

/-- The low bits of a distance need one hop each. -/
theorem ringMember_mem_reached_of_lt (hm : m ≤ max 2 (mns.length - 1).log2) (hgap : gap < 2 ^ m) :
    ringMember mns i gap ∈ reached mns (ringMember mns i 0) m := by
  induction m generalizing gap with
  | zero =>
    obtain rfl : gap = 0 := by omega
    simp [reached]
  | succ m ih =>
    by_cases hlow : gap < 2 ^ m
    · exact mem_union_left _ (ih (by omega) hlow)
    · have hrest : gap - 2 ^ m < 2 ^ m := by omega
      have hstep := ringMember_mem_reached h (lt_of_succ_le hm) (ih (by omega) hrest)
      rwa [Nat.sub_add_cancel (by omega)] at hstep

theorem ringMember_mem_reached_log (hgap : gap < mns.length) :
    ringMember mns i gap ∈ reached mns (ringMember mns i 0) ((mns.length - 1).log2 + 2) := by
  have hlt := lt_log2_self (n := mns.length - 1)
  have hlow {gap} := @ringMember_mem_reached_of_lt mns i h _ gap (le_max_right 2 (mns.length - 1).log2)
  have hhop {gap m} := @ringMember_mem_reached mns i h (ringMember mns i 0) m gap
  by_cases hbits : gap < 2 ^ (mns.length - 1).log2
  · exact mem_union_left _ (mem_union_left _ (hlow hbits))
  · cases hlog : (mns.length - 1).log2 with
    | zero =>
      rw [hlog] at hlt
      exact ringMember_mem_reached_of_lt h (le_max_left 2 _) (by omega)
    | succ m =>
      rw [hlog] at hlt hbits hlow hhop
      have hrest : gap - 2 ^ (m + 1) < 2 ^ (m + 1) := by omega
      have hstep := hhop (j := m) (by omega) (hhop (j := m) (by omega) (hlow hrest))
      rwa [show gap - 2 ^ (m + 1) + 2 ^ m + 2 ^ m = gap by omega] at hstep

omit h

theorem quorumRelayMembers_connected (mns : List Uint256) :
    (2 ≤ mns.length → ∀ a ∈ mns, ∀ b ∈ mns, b ∈ reached mns a (log2 (mns.length - 1) + 2)) ∧
      ∀ a b, a ∈ getQuorumRelayMembers mns b false ↔ b ∈ getQuorumRelayMembers mns a false := by
  constructor
  · intro h a ha b hb
    obtain ⟨i, hi, rfl⟩ := List.mem_iff_getElem.mp ha
    obtain ⟨j, hj, rfl⟩ := List.mem_iff_getElem.mp hb
    have hreach := ringMember_mem_reached_log (i := i) h (mod_lt (j + mns.length - i) (by omega))
    have hsum : i + (j + mns.length - i) = j + mns.length := by omega
    simpa [ringMember, hsum, mod_eq_of_lt hi, mod_eq_of_lt hj, hi, hj] using hreach
  · intro a b
    simp only [getQuorumRelayMembers, mem_biUnion, mem_range]
    grind [mem_calcOutbound]

end OmegaCore.Llmq
