import OmegaCore.Evo.Fairness

/-!
The projected payees against the payees of a run of quiet blocks.  The projection sorts all payments
once.  It puts the payments that the last payee has already had where the payee stands in the order of
payments, while the blocks get to them after everybody else.  The two only differ when somebody stands
behind the last payee, which takes a registration or a revival in the last block: `projected_eq_payees_iff`.
-/

namespace OmegaCore.Evo

open Util CDeterministicMNList
open List hiding beq_eq_decide

variable {E : Env} {b b' : CBlockIndex} {l l' : CDeterministicMNList} {d e x : CDeterministicMN} {p q : Uint256}

/-! ### The projection -/

/-- What the first loop of the projection keeps. -/
structure Projection where
  result : List CDeterministicMN := []
  remainingHpmnPayments : ℕ := 0
  hpmnToBeSkipped : Option CDeterministicMN := none

/-- One round of the first loop. -/
def projectLastPayee (l : CDeterministicMNList) (s : Projection) (dmn : CDeterministicMN) : Projection :=
  if dmn.pdmnState.nLastPaidHeight = l.nHeight ∧ dmn.nType = .highPerformance ∧
      dmn.pdmnState.nConsecutivePayments < (MnType.highPerformance.params.votingWeight : Int) then
    let remaining :=
      ((MnType.highPerformance.params.votingWeight : Int) - dmn.pdmnState.nConsecutivePayments).toNat
    ⟨s.result ++ List.replicate remaining dmn, remaining, some dmn⟩
  else s

/-- `std::vector::resize`, which fills up with null pointers. -/
def resize (xs : List CDeterministicMN) (n : ℕ) : List (Option CDeterministicMN) :=
  (xs.take n).map some ++ List.replicate (n - xs.length) none

def projectedPayments (l : CDeterministicMNList) : List CDeterministicMN :=
  let s := (l.forEachMN true).foldl (projectLastPayee l) {}
  let result := s.result ++ spread ((l.forEachMN true).filter fun dmn => some dmn ≠ s.hpmnToBeSkipped)
  -- the payments that the last payee has already had
  let result := result ++ s.hpmnToBeSkipped.elim [] fun dmn =>
    List.replicate dmn.pdmnState.nConsecutivePayments.toNat dmn
  result.take s.remainingHpmnPayments ++ sortBy compareByLastPaid (result.drop s.remainingHpmnPayments)

def getProjectedMNPayees (l : CDeterministicMNList) (nCount : Int) : List (Option CDeterministicMN) :=
  if nCount < 0 then []
  else resize (projectedPayments l) (min nCount l.getValidWeightedMNsCount).toNat

/-! ### The first loop -/

variable {xs : List CDeterministicMN}

theorem projectLastPayee_none (hno : ∀ e ∈ xs, ¬ Unfinished l e) (s : Projection) :
    xs.foldl (projectLastPayee l) s = s := by
  induction xs with
  | nil => rfl
  | cons e xs ih =>
    rw [forall_mem_cons] at hno
    rw [foldl_cons, projectLastPayee, if_neg (by exact hno.1)]
    exact ih hno.2

def paymentsDue (d : CDeterministicMN) : ℕ :=
  ((MnType.highPerformance.params.votingWeight : Int) - d.pdmnState.nConsecutivePayments).toNat

theorem projectLastPayee_eq (hnodup : xs.Nodup) (hmem : x ∈ xs) (hx : Unfinished l x)
    (hunique : ∀ e ∈ xs, Unfinished l e → e = x) :
    xs.foldl (projectLastPayee l) {} = ⟨List.replicate (paymentsDue x) x, paymentsDue x, some x⟩ := by
  obtain ⟨ys, zs, rfl⟩ := append_of_mem hmem
  have hother : ∀ e ∈ ys ++ zs, ¬ Unfinished l e := by
    intro e he hun
    rw [hunique e (perm_middle.mem_iff.mpr (.tail x he)) hun] at he
    exact (nodup_cons.mp (nodup_middle.mp hnodup)).1 he
  rw [forall_mem_append] at hother
  rw [foldl_append, projectLastPayee_none hother.1, foldl_cons, projectLastPayee_none hother.2,
    projectLastPayee, if_pos (by exact hx)]
  rfl

/-! ### The order of payments -/

section Keyed

variable (hl : l.Keyed) (hx : x ∈ l.forEachMN true)

include hl hx

theorem sortBy_place (k : ℕ) :
    sortBy compareByLastPaid (spread ((l.forEachMN true).filter fun dmn => decide (dmn ≠ x)) ++ List.replicate k x) =
      spread (paidBefore l x) ++ (List.replicate k x ++ spread (paidAfter l x)) := by
  refine sortBy_eq_of_perm compareByLastPaid_iff ?_ ?_ fun a ha b hb heq => ?_
  · have hperm := (sortBy_perm compareByLastPaid ((l.forEachMN true).filter fun dmn => decide (dmn ≠ x))).symm
    rw [show sortBy _ _ = others l x from rfl, others_eq hl hx] at hperm
    refine ((hperm.flatMap_right _).append_right _).trans ?_
    rw [flatMap_append, append_assoc]
    exact perm_append_comm.append_left _
  · have hsorted := sorted_others (x := x) hl
    refine pairwise_append.mpr ⟨spread_sorted (hsorted.filter _), pairwise_append.mpr
      ⟨pairwise_replicate.mpr (.inr le_rfl), spread_sorted (hsorted.filter _), fun a ha b hb => ?_⟩, fun a ha b hb => ?_⟩
    · rw [eq_of_mem_replicate ha]
      exact ((mem_paidAfter hl hx).mp (mem_of_mem_spread hb)).2.le
    · have hax := (mem_paidBefore.mp (mem_of_mem_spread ha)).2
      rcases mem_append.mp hb with hb | hb
      · rw [eq_of_mem_replicate hb]
        exact hax.le
      · exact (hax.trans ((mem_paidAfter hl hx).mp (mem_of_mem_spread hb)).2).le
  · have hin {d : CDeterministicMN} (hd : d ∈ spread ((l.forEachMN true).filter fun dmn => decide (dmn ≠ x)) ++
        replicate k x) : d ∈ l.forEachMN true := by
      rcases mem_append.mp hd with hd | hd
      · exact (mem_filter.mp (mem_of_mem_spread hd)).1
      · exact eq_of_mem_replicate hd ▸ hx
    exact payKey_injOn hl (hin ha) (hin hb) heq

/-- The projection when the last payee has payments left. -/
theorem projectedPayments_of_unfinished (hun : Unfinished l x)
    (hunique : ∀ e ∈ l.forEachMN true, Unfinished l e → e = x) :
    projectedPayments l = List.replicate (paymentsDue x) x ++ (spread (paidBefore l x) ++
        (List.replicate x.pdmnState.nConsecutivePayments.toNat x ++ spread (paidAfter l x))) := by
  have hnodup := (hl.nodup_forEachMN true).of_map
  have hfilter : (fun dmn => decide (some dmn ≠ some x)) = fun dmn => decide (dmn ≠ x) := by
    funext dmn
    simp
  simp only [projectedPayments, projectLastPayee_eq hnodup hx hun hunique, Option.elim_some, hfilter, append_assoc]
  rw [take_left' (length_replicate ..), drop_left' (length_replicate ..), sortBy_place hl hx]

theorem projectedPayments_of_next (hno : ∀ e ∈ l.forEachMN true, ¬ Unfinished l e) (hfirst : paidBefore l x = []) :
    projectedPayments l = List.replicate x.nType.params.votingWeight x ++ spread (paidAfter l x) := by
  have hall : (l.forEachMN true).filter (fun dmn => decide (some dmn ≠ none)) = l.forEachMN true := by
    simp
  have hperm : (spread (l.forEachMN true)).Perm (spread ((l.forEachMN true).filter fun dmn => decide (dmn ≠ x)) ++
        replicate x.nType.params.votingWeight x) := by
    have hnodup : (l.forEachMN true).Nodup := (hl.nodup_forEachMN true).of_map
    have hcons := perm_cons_erase hx
    rw [hnodup.erase_eq_filter] at hcons
    refine (hcons.flatMap_right _).trans ?_
    simpa [spread, bne, beq_eq_decide] using perm_append_comm
  have hplace := sortBy_place hl hx x.nType.params.votingWeight
  rw [hfirst] at hplace
  simp only [projectedPayments, projectLastPayee_none hno, nil_append, take_zero, drop_zero, hall,
    Option.elim_none, append_nil]
  refine (sortBy_eq_of_perm compareByLastPaid_iff (hperm.trans (sortBy_perm _ _).symm)
    (sortBy_pairwise compareByLastPaid_iff _) fun a ha b hb => ?_).trans hplace
  exact payKey_injOn hl (mem_of_mem_spread ha) (mem_of_mem_spread hb)

end Keyed

/-! ### The payee of the next block -/

theorem Payable.unfinished_unique (hpay : Payable b l) (hl : l.Keyed) (hd : d ∈ l.forEachMN true)
    (he : e ∈ l.forEachMN true) (hdun : d.pdmnState.nLastPaidHeight = l.nHeight)
    (heun : e.pdmnState.nLastPaidHeight = l.nHeight) : d = e := by
  have hget := hl.get_of_mem hd
  have hget' := hl.get_of_mem he
  have hheight := (hpay.nHeight _ d hget).1
  have hhash := hpay.unique _ _ d e hget hget' (hheight ▸ hdun) (hheight ▸ heun)
  rw [hhash, hget', Option.some.injEq] at hget
  exact hget.symm

theorem payee_cases (hv19 : E.isV19Active b = true) (hx : x ∈ l.forEachMN true) (hpayee : l.getMNPayee E b = some x) :
    Unfinished l x ∨ ((∀ e ∈ l.forEachMN true, ¬ Unfinished l e) ∧ paidBefore l x = []) := by
  obtain ⟨y, hy, heq, hcase⟩ := exists_payee hv19 hx
  rw [hpayee, Option.some.injEq] at heq
  subst heq
  refine hcase.imp id fun hfirst => ⟨fun e he => (hfirst e he).1, eq_nil_iff_forall_not_mem.mpr fun e he => ?_⟩
  obtain ⟨hmem, hlt⟩ := mem_paidBefore.mp he
  exact absurd hlt (not_lt.mpr (hfirst e hmem).2)

/-- The projection, seen from the payee of the next block. -/
theorem projectedPayments_eq (hl : l.Keyed) (hpay : Payable b l) (hv19 : E.isV19Active b = true)
    (hx : x ∈ l.forEachMN true) (hpayee : l.getMNPayee E b = some x) :
    projectedPayments l = (List.replicate (turnsNow x) x ++ spread (paidBefore l x)) ++
      (List.replicate (x.nType.params.votingWeight - turnsNow x) x ++ spread (paidAfter l x)) := by
  rw [append_assoc]
  rcases payee_cases hv19 hx hpayee with hun | ⟨hno, hfirst⟩
  · have hlt := hun.2.2
    have hnow : turnsNow x = paymentsDue x := by
      rw [turnsNow, if_pos hun.2.1, paymentsDue]
      omega
    have hpaid : x.pdmnState.nConsecutivePayments.toNat = x.nType.params.votingWeight - turnsNow x := by
      rw [hnow, hun.2.1, paymentsDue]
      omega
    rw [projectedPayments_of_unfinished hl hx hun fun e he heun => hpay.unfinished_unique hl he hx heun.1 hun.1,
      hpaid, hnow]
  · rw [projectedPayments_of_next hl hx hno hfirst, hfirst]
    show _ = _ ++ ([] ++ _)
    rw [nil_append, ← append_assoc, replicate_append_replicate, 
      Nat.add_sub_cancel' (turnsNow_le (hpay.dated_valid hl hx))]

/-! ### When the projection is right -/

def weightBefore (l : CDeterministicMNList) (x : CDeterministicMN) : ℕ :=
  (((l.forEachMN true).filter fun dmn => compareByLastPaid dmn x).map fun dmn => dmn.nType.params.votingWeight).sum

/-- Somebody stands behind a high-performance masternode that was paid in the last block, and the
projection reaches the payments that it has already had. -/
def OutOfOrder (l : CDeterministicMNList) (n : ℕ) : Prop :=
  ∃ x ∈ l.forEachMN true, x.nType = .highPerformance ∧ x.pdmnState.nLastPaidHeight = l.nHeight ∧
    (∃ e ∈ l.forEachMN true, compareByLastPaid x e = true) ∧
    ((0 < x.pdmnState.nConsecutivePayments ∧ x.pdmnState.nConsecutivePayments < 10 ∧
        10 - x.pdmnState.nConsecutivePayments + weightBefore l x < n) ∨
      (10 ≤ x.pdmnState.nConsecutivePayments ∧ weightBefore l x = 0 ∧ 1 < n))

instance (l : CDeterministicMNList) (n : ℕ) : Decidable (OutOfOrder l n) :=
  inferInstanceAs (Decidable (∃ x ∈ l.forEachMN true, _))

theorem length_spread (xs : List CDeterministicMN) :
    (spread xs).length = (xs.map fun dmn => dmn.nType.params.votingWeight).sum := by
  simp [spread, length_flatMap]

theorem length_spread_before (l : CDeterministicMNList) (x : CDeterministicMN) :
    (spread (paidBefore l x)).length = weightBefore l x := by
  have hperm : (paidBefore l x).Perm ((l.forEachMN true).filter fun dmn => compareByLastPaid dmn x) := by
    refine ((sortBy_perm _ _).filter _).trans ?_
    rw [filter_filter]
    refine .of_eq (filter_congr fun d _ => ?_)
    by_cases hd : d = x
    · simp [hd, compareByLastPaid]
    · simp [hd]
  rw [length_spread, weightBefore]
  exact (hperm.map _).sum_eq

section

variable (hl : l.Keyed) (hpay : Payable b l)

include hl hpay

theorem spread_eq_nil_iff (hxs : ∀ d ∈ xs, d ∈ l.forEachMN true) : spread xs = [] ↔ xs = [] := by
  constructor
  · intro hnil
    refine eq_nil_iff_forall_not_mem.mpr fun d hd => ?_
    have hpos := MnType.votingWeight_pos (hpay.dated_valid hl (hxs d hd)).nType
    have hmem : d ∈ spread xs := mem_flatMap.mpr ⟨d, hd, mem_replicate.mpr ⟨by omega, rfl⟩⟩
    rw [hnil] at hmem
    cases hmem
  · intro hnil
    rw [hnil]
    rfl

theorem weightBefore_eq_zero_iff : weightBefore l x = 0 ↔ paidBefore l x = [] := by
  rw [← length_spread_before, length_eq_zero_iff, spread_eq_nil_iff hl hpay fun d hd => (mem_paidBefore.mp hd).1]

theorem spread_after_eq_nil_iff (hx : x ∈ l.forEachMN true) :
    hashes (spread (paidAfter l x)) = [] ↔ ¬ ∃ e ∈ l.forEachMN true, compareByLastPaid x e = true := by
  rw [hashes, map_eq_nil_iff, spread_eq_nil_iff hl hpay fun d hd => ((mem_paidAfter hl hx).mp hd).1,
    eq_nil_iff_forall_not_mem]
  simp [mem_paidAfter hl hx, compareByLastPaid_iff]

/-- The projection and the blocks, seen from the payee of the next block. -/
theorem take_projected_iff (hv19 : E.isV19Active b = true)
    (hx : x ∈ l.forEachMN true) (hpayee : l.getMNPayee E b = some x) (n : ℕ) :
    (hashes (projectedPayments l)).take n = (roundOfPayments l x).take n ↔
      n ≤ turnsNow x + weightBefore l x ∨ x.nType.params.votingWeight - turnsNow x = 0 ∨
        ¬ ∃ e ∈ l.forEachMN true, compareByLastPaid x e = true := by
  have hout : x.proTxHash ∉ hashes (spread (paidAfter l x)) := by
    intro hmem
    obtain ⟨e, he, hhash⟩ := mem_map.mp hmem
    obtain ⟨hvalid, hlt⟩ := (mem_paidAfter hl hx).mp (mem_of_mem_spread he)
    have hget := hl.get_of_mem hvalid
    rw [hhash, hl.get_of_mem hx, Option.some.injEq] at hget
    exact absurd (hget ▸ hlt) (lt_irrefl _)
  have hlength : (hashes (replicate (turnsNow x) x ++ spread (paidBefore l x))).length =
      turnsNow x + weightBefore l x := by
    rw [hashes, length_map, length_append, length_replicate, length_spread_before]
  have hprojected : hashes (projectedPayments l) = hashes (replicate (turnsNow x) x ++ spread (paidBefore l x)) ++
      (replicate (x.nType.params.votingWeight - turnsNow x) x.proTxHash ++ hashes (spread (paidAfter l x))) := by
    rw [projectedPayments_eq hl hpay hv19 hx hpayee]
    simp [hashes]
  rw [hprojected, roundOfPayments, RoundRobin.take_swap_iff hout, hlength, spread_after_eq_nil_iff hl hpay hx]

theorem outOfOrder_iff (hv19 : E.isV19Active b = true)
    (hx : x ∈ l.forEachMN true) (hpayee : l.getMNPayee E b = some x) (n : ℕ) :
    OutOfOrder l n ↔ turnsNow x + weightBefore l x < n ∧ turnsNow x < x.nType.params.votingWeight ∧
      ∃ e ∈ l.forEachMN true, compareByLastPaid x e = true := by
  have hten : (MnType.highPerformance.params.votingWeight : Int) = 10 := rfl
  have hget := hl.get_of_mem hx
  have hheight := (hpay.nHeight _ x hget).1
  constructor
  · rintro ⟨y, hy, htype, hlast, hafter, hcase⟩
    -- the last payee is also the next one
    have hyx : y = x := by
      rcases payee_cases hv19 hx hpayee with hxun | ⟨hno, hfirst⟩
      · exact hpay.unfinished_unique hl hy hx hlast hxun.1
      · rcases hcase with ⟨-, hlt, -⟩ | ⟨-, hzero, -⟩
        · exact absurd ⟨hlast, htype, by omega⟩ (hno y hy)
        · rw [weightBefore_eq_zero_iff hl hpay] at hzero
          rcases lt_trichotomy (payKey y) (payKey x) with hlt | heq | hlt
          · exact absurd (mem_paidBefore.mpr ⟨hy, hlt⟩) (by simp [hfirst])
          · exact payKey_injOn hl hy hx heq
          · exact absurd (mem_paidBefore.mpr ⟨hx, hlt⟩) (by simp [hzero])
    subst hyx
    rw [turnsNow, if_pos htype, htype]
    refine ⟨?_, ?_, hafter⟩
    · omega
    · omega
  · rintro ⟨hlt, hless, hafter⟩
    have htype : x.nType = .highPerformance := by
      by_contra hne
      rw [turnsNow, if_neg hne] at hless
      cases ht : x.nType with
      | highPerformance => exact hne ht
      | regular | other v =>
        rw [ht] at hless
        exact absurd hless (Nat.not_lt.mpr (Nat.le_of_ble_eq_true rfl))
    rw [turnsNow, if_pos htype] at hlt
    rw [turnsNow, if_pos htype, htype] at hless
    have hcount : 0 < x.pdmnState.nConsecutivePayments := by omega
    have hlast := hpay.counter _ x hget htype (by omega)
    rw [← hheight] at hlast
    refine ⟨x, hx, htype, hlast, hafter, ?_⟩
    by_cases hc : x.pdmnState.nConsecutivePayments < 10
    · exact .inl ⟨hcount, hc, by omega⟩
    · right
      rcases payee_cases hv19 hx hpayee with hxun | ⟨-, hfirst⟩
      · exact absurd hxun.2.2 (by omega)
      · have hzero := (weightBefore_eq_zero_iff hl hpay).mpr hfirst
        exact ⟨by omega, hzero, by omega⟩

end

/-- For a run of quiet blocks after V19, no longer than the valid masternodes weigh, the projection of
the list names the payees of the blocks exactly if nobody stands behind a payee of the last block
whose former payments the projection reaches. -/
theorem projected_eq_payees_iff {Q : BlockContext → CBlock → CDeterministicMNList → Prop}
    {payees : List (Option Uint256)} (hreach : Reachable E Q b l) (hrun : QuietRun E b l payees b' l')
    (hlen : payees.length ≤ l.getValidWeightedMNsCount) :
    (getProjectedMNPayees l payees.length).map (Option.map (·.proTxHash)) = payees ↔ ¬ OutOfOrder l payees.length := by
  have hreach : Reachable E (fun _ _ _ => True) b l := hreach.mono fun _ _ _ _ => trivial
  have hkeyed := hreach.sound.indexed.keyed
  have hcount : (min (payees.length : Int) l.getValidWeightedMNsCount).toNat = payees.length := by omega
  rw [getProjectedMNPayees, if_neg (by omega), hcount]
  by_cases hne : payees = []
  · subst hne
    have hnot : ¬ OutOfOrder l 0 := by
      rintro ⟨x, -, -, -, -, ⟨-, hlt, hn⟩ | ⟨-, -, hn⟩⟩ <;> omega
    simpa [resize] using hnot
  · obtain ⟨x, hx, hpayee, hv19, hlength, heq⟩ := hrun.payees_eq_take hreach hne hlen
    have hprojected : (projectedPayments l).length = l.getValidWeightedMNsCount := by
      rw [← hlength, projectedPayments_eq hkeyed hreach.payable hv19 hx hpayee, roundOfPayments]
      simp only [hashes, length_append, length_map, length_replicate]
      omega
    generalize payees.length = n at hlen heq
    have hresize : (resize (projectedPayments l) n).map (Option.map (·.proTxHash)) =
        ((hashes (projectedPayments l)).take n).map some := by
      rw [resize, show n - (projectedPayments l).length = 0 by omega, replicate_zero, append_nil,
        map_map, hashes, ← map_take, map_map]
      rfl
    rw [hresize, heq, map_inj_right fun _ _ h => Option.some.inj h,
      take_projected_iff hkeyed hreach.payable hv19 hx hpayee, outOfOrder_iff hkeyed hreach.payable hv19 hx hpayee,
      not_and_or, not_and_or, not_lt, not_lt, Nat.sub_eq_zero_iff_le]

/-- After the first of ten payments in a row, with nobody behind the payee. -/
theorem projected_eq_payees_partway : servedStart.2.getValidWeightedMNsCount = 11 ∧
    (getProjectedMNPayees servedStart.2 11).map (Option.map (·.proTxHash)) = quietPayees 11 servedStart := by
  obtain ⟨b', l', hrun⟩ := quietRun_of_checks (n := 11) (s := servedStart) (by decide +kernel)
  have hlen : (quietPayees 11 servedStart).length = 11 := by decide +kernel
  have hcount : servedStart.2.getValidWeightedMNsCount = 11 := by decide +kernel
  have hiff := projected_eq_payees_iff reachable_servedStart hrun (by rw [hlen, hcount])
  rw [hlen] at hiff
  exact ⟨hcount, hiff.mpr (by decide +kernel)⟩

/-- A block that registers a high-performance masternode, and the next one, which pays it for the first
time and registers a regular one. -/
def behindBlock₂ : CBlock :=
  ⟨[sampleCoinbase 9, sampleServedReg 10 .highPerformance 10 3]⟩

def behindBlock₃ : CBlock :=
  ⟨[sampleCoinbase 9, sampleServedReg 11 .regular 11 4]⟩

def behindList₂ : CDeterministicMNList :=
  (listAfter sampleEnv (sampleContext sampleTip) behindBlock₂ { blockHash := 1 }).setBlockHash 2

def behindStart : CBlockIndex × CDeterministicMNList :=
  (sampleTip₃, (listAfter sampleEnv (sampleContext sampleTip₂) behindBlock₃ behindList₂).setBlockHash 3)

theorem reachable_behindStart : Reachable sampleEnv (fun _ _ _ => True) behindStart.1 behindStart.2 := by
  have hreach : Reachable sampleEnv (fun _ _ _ => True) sampleTip₂ behindList₂ :=
    reachable_sampleTip.next 2 behindBlock₂ (by decide) (by decide +kernel) (by decide +kernel)
  exact hreach.next 3 behindBlock₃ (by decide) (by decide +kernel) (by decide +kernel)

/-- The new masternode is paid after nine payments, while the projection puts it last. -/
theorem projected_ne_payees : ¬ ∀ (E : Env) (Q : BlockContext → CBlock → CDeterministicMNList → Prop)
    (b b' : CBlockIndex) (l l' : CDeterministicMNList) (payees : List (Option Uint256)), Reachable E Q b l →
    QuietRun E b l payees b' l' → payees.length ≤ l.getValidWeightedMNsCount →
    (getProjectedMNPayees l payees.length).map (Option.map (·.proTxHash)) = payees := by
  intro hall
  obtain ⟨b', l', hrun⟩ := quietRun_of_checks (n := 11) (s := behindStart) (by decide +kernel)
  have heq := hall sampleEnv _ _ b' _ l' _ reachable_behindStart hrun (by decide +kernel)
  exact absurd heq (by decide +kernel)

end OmegaCore.Evo
