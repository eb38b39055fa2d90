import OmegaCore.Evo.Chain
import OmegaCore.Llmq.Rotation

/-!
Payments, heights and scores of the masternodes along a chain.  Only the payee of a block has its
height as the last payment, and only it can have a payment counter that is not zero.  A predicate that
every phase of a block keeps, an `EntryInvariant`, holds of all masternodes of every list: no height
lies above that of the list, and the precalculated part of a score is the hash it stands for.
-/

namespace OmegaCore.Evo

open Util CDeterministicMNList

variable {E : Env} {ctx : BlockContext} {block : CBlock} {checkSigs : Bool} {tx : CTransaction}
variable {old new l l' l₁ l₂ : CDeterministicMNList} {d : CDeterministicMN} {p q : Uint256} {nHeight : Int}

namespace CDeterministicMNState

/-- The states agree in the fields that payments depend on. -/
structure SamePayments (a b : CDeterministicMNState) : Prop where
  nRegisteredHeight : b.nRegisteredHeight = a.nRegisteredHeight
  nLastPaidHeight : b.nLastPaidHeight = a.nLastPaidHeight
  nConsecutivePayments : b.nConsecutivePayments = a.nConsecutivePayments
  nPoSeRevivedHeight : b.nPoSeRevivedHeight = a.nPoSeRevivedHeight

theorem SamePayments.refl (s : CDeterministicMNState) : SamePayments s s :=
  ⟨rfl, rfl, rfl, rfl⟩

theorem SamePayments.trans {a b c : CDeterministicMNState} (h₁ : SamePayments a b)
    (h₂ : SamePayments b c) : SamePayments a c :=
  ⟨h₂.nRegisteredHeight.trans h₁.nRegisteredHeight, h₂.nLastPaidHeight.trans h₁.nLastPaidHeight,
    h₂.nConsecutivePayments.trans h₁.nConsecutivePayments,
    h₂.nPoSeRevivedHeight.trans h₁.nPoSeRevivedHeight⟩

theorem samePayments_banIfNotBanned (s : CDeterministicMNState) (height : Int) :
    SamePayments s (s.banIfNotBanned height) := by
  unfold banIfNotBanned
  split_ifs
  · exact .refl s
  · exact ⟨rfl, rfl, rfl, rfl⟩

end CDeterministicMNState

open CDeterministicMNState

/-! ### Sweeps and transactions -/

theorem samePayments_sweepInvariant (s : CDeterministicMNState) :
    SweepInvariant E ctx fun d => SamePayments s d.pdmnState where
  confirm _ hd _ := hd.trans ⟨rfl, rfl, rfl, rfl⟩
  decrease _ hd := hd.trans ⟨rfl, rfl, rfl, rfl⟩
  ban _ hd := hd.trans (samePayments_banIfNotBanned _ _)

theorem beforeState_samePayments (dmn : CDeterministicMN) : SamePayments dmn.pdmnState (beforeState E ctx dmn) :=
  (samePayments_sweepInvariant _).beforeState (d := dmn) (.refl _)

variable {s : CDeterministicMNState}

theorem StateStep.payments (hs : StateStep E ctx tx d s) : SamePayments d.pdmnState s ∨
      SamePayments { d.pdmnState with nPoSeRevivedHeight := ctx.nHeight } s := by
  cases hs with
  | keep => exact .inl (.refl _)
  | proUpServ ptx =>
    simp only [proUpServState]
    split_ifs
    · exact .inr ⟨rfl, rfl, rfl, rfl⟩
    · exact .inl ⟨rfl, rfl, rfl, rfl⟩
    · exact .inr ⟨rfl, rfl, rfl, rfl⟩
    · exact .inl ⟨rfl, rfl, rfl, rfl⟩
  | proUpReg ptx =>
    have hban := samePayments_banIfNotBanned d.pdmnState.resetOperatorFields ctx.nHeight
    simp only [proUpRegState]
    split_ifs
    · exact .inl ⟨hban.1, hban.2, hban.3, hban.4⟩
    · exact .inl ⟨rfl, rfl, rfl, rfl⟩
  | proUpRev ptx =>
    have hban := samePayments_banIfNotBanned d.pdmnState.resetOperatorFields ctx.nHeight
    exact .inl ⟨hban.1, hban.2, hban.3, hban.4⟩
  | commitment qc base s payload update =>
    rw [update.frame]
    exact .inl ⟨rfl, rfl, rfl, rfl⟩

/-! ### Bounds along a chain -/

/-- The payment fields are dated no later than they can be; `paid` is the last height with a payment. -/
structure Dated (nHeight paid : Int) (d : CDeterministicMN) : Prop where
  nType : d.nType.isValid = true
  nRegisteredHeight : d.pdmnState.nRegisteredHeight ≤ nHeight
  nPoSeRevivedHeight : d.pdmnState.nPoSeRevivedHeight ≤ nHeight
  nLastPaidHeight : d.pdmnState.nLastPaidHeight ≤ paid
  nConsecutivePayments : 0 ≤ d.pdmnState.nConsecutivePayments

variable {paid : Int}

theorem Dated.same (hd : Dated nHeight paid d)
    (hs : SamePayments d.pdmnState s) : Dated nHeight paid { d with pdmnState := s } :=
  ⟨hd.nType, hs.nRegisteredHeight ▸ hd.nRegisteredHeight, hs.nPoSeRevivedHeight ▸ hd.nPoSeRevivedHeight,
    hs.nLastPaidHeight ▸ hd.nLastPaidHeight, hs.nConsecutivePayments ▸ hd.nConsecutivePayments⟩

theorem Dated.mono {paid paid' nHeight' : Int} (hd : Dated nHeight paid d) (hheight : nHeight ≤ nHeight')
    (hpaid : paid ≤ paid') : Dated nHeight' paid' d :=
  ⟨hd.nType, hd.nRegisteredHeight.trans hheight, hd.nPoSeRevivedHeight.trans hheight,
    hd.nLastPaidHeight.trans hpaid, hd.nConsecutivePayments⟩

theorem StateStep.dated (hs : StateStep E ctx tx d s)
    (hd : Dated ctx.nHeight paid d) : Dated ctx.nHeight paid { d with pdmnState := s } := by
  rcases hs.payments with hsame | hsame
  · exact hd.same hsame
  · exact ⟨hd.nType, hsame.nRegisteredHeight ▸ hd.nRegisteredHeight,
      (hsame.nPoSeRevivedHeight ▸ le_refl _ : s.nPoSeRevivedHeight ≤ ctx.nHeight),
      hsame.nLastPaidHeight ▸ hd.nLastPaidHeight, hsame.nConsecutivePayments ▸ hd.nConsecutivePayments⟩

theorem proRegEntry_dated {ptx : CProRegTx} (htype : ptx.nType.isValid = true)
    (hheight : -1 ≤ nHeight) (hpaid : 0 ≤ paid) : Dated nHeight paid (proRegEntry nHeight l tx ptx) := by
  have hstate : SamePayments { CDeterministicMNState.ofProRegTx ptx with nRegisteredHeight := nHeight }
      (proRegEntry nHeight l tx ptx).pdmnState := by
    simp only [proRegEntry]
    split_ifs
    · exact samePayments_banIfNotBanned _ _
    · exact .refl _
  refine ⟨htype, ?_, ?_, ?_, ?_⟩
  · rw [hstate.nRegisteredHeight]
  · rw [hstate.nPoSeRevivedHeight]
    exact hheight
  · rw [hstate.nLastPaidHeight]
    exact hpaid
  · rw [hstate.nConsecutivePayments]
    exact le_refl _

def AllDated (nHeight paid : Int) (l : CDeterministicMNList) : Prop :=
  ∀ (p : Uint256) d, l.mnMap[p]? = some d → Dated nHeight paid d

/-- The lists in the block loop keep the bounds; registered types have been checked. -/
theorem BlockRun.allDated_removed (h : BlockRun E ctx block old new l₁ l₂)
    (hacc : Accepted E ctx block checkSigs old new) (hold : Sound E old)
    (hdated : AllDated ctx.pindexPrev.nHeight ctx.pindexPrev.nHeight old) :
    AllDated ctx.nHeight ctx.pindexPrev.nHeight l₂ := by
  have hprev := ctx.pindexPrev.nHeight_nonneg
  have hheight : ctx.nHeight = ctx.pindexPrev.nHeight + 1 := rfl
  intro p d hget
  refine h.entries (P := fun _ d => Dated ctx.nHeight ctx.pindexPrev.nHeight d) hold.indexed (fun p d hd => ?_)
    (fun _ _ _ _ hd hs => hs.dated hd) (fun tx htx l ptx hver hpay _ => ?_)
    (h.get_removed hold.indexed hget)
  · exact ((hdated p d hd).mono (by omega) le_rfl).same (beforeState_samePayments d)
  · exact proRegEntry_dated (checkProReg_nType (hacc.checkProReg htx hver hpay)) (by omega) hprev

/-! ### The payment of a block -/

variable (payee : Option CDeterministicMN)

def isPayee (d : CDeterministicMN) : Bool :=
  payee.any fun p => d.proTxHash == p.proTxHash

/-- What the payment of a block does to a masternode that is or is not the payee. -/
structure PaymentUpdate (nHeight : Int) (paid : Bool) (d : CDeterministicMN) (s : CDeterministicMNState) :
    Prop where
  nRegisteredHeight : s.nRegisteredHeight = d.pdmnState.nRegisteredHeight
  nPoSeRevivedHeight : s.nPoSeRevivedHeight = d.pdmnState.nPoSeRevivedHeight
  nLastPaidHeight : s.nLastPaidHeight = if paid then nHeight else d.pdmnState.nLastPaidHeight
  nConsecutivePayments : d.nType = .highPerformance →
    s.nConsecutivePayments = if paid then d.pdmnState.nConsecutivePayments + 1 else 0
  regular : d.nType ≠ .highPerformance → s.nConsecutivePayments = d.pdmnState.nConsecutivePayments

theorem PaymentUpdate.of_same {paid : Bool} {a s : CDeterministicMNState}
    (ha : SamePayments d.pdmnState a) (hs : PaymentUpdate nHeight paid { d with pdmnState := a } s) :
    PaymentUpdate nHeight paid d s := by
  refine ⟨hs.nRegisteredHeight.trans ha.nRegisteredHeight,
    hs.nPoSeRevivedHeight.trans ha.nPoSeRevivedHeight, ?_, fun htype => ?_, fun htype => ?_⟩
  · rw [hs.nLastPaidHeight, ← ha.nLastPaidHeight]
  · rw [hs.nConsecutivePayments htype, ← ha.nConsecutivePayments]
  · rw [hs.regular htype, ← ha.nConsecutivePayments]

theorem PaymentUpdate.same {paid : Bool} {s s' : CDeterministicMNState}
    (hs : PaymentUpdate nHeight paid d s) (hsame : SamePayments s s') : PaymentUpdate nHeight paid d s' := by
  refine ⟨hsame.nRegisteredHeight.trans hs.nRegisteredHeight,
    hsame.nPoSeRevivedHeight.trans hs.nPoSeRevivedHeight, ?_, fun htype => ?_, fun htype => ?_⟩
  · rw [hsame.nLastPaidHeight, hs.nLastPaidHeight]
  · rw [hsame.nConsecutivePayments, hs.nConsecutivePayments htype]
  · rw [hsame.nConsecutivePayments, hs.regular htype]

theorem pay_paymentUpdate (d : CDeterministicMN) :
    PaymentUpdate nHeight (isPayee payee d) d (andThen (payeeState nHeight payee) (resetState payee) d) := by
  unfold andThen payeeState resetState needsReset isPayee paidState
  generalize (payee.any fun p => d.proTxHash == p.proTxHash) = paid
  by_cases htype : d.nType = .highPerformance
  · by_cases hzero : d.pdmnState.nConsecutivePayments = 0
    · cases paid <;> constructor <;> simp [htype, hzero]
    · cases paid <;> constructor <;> simp [htype, hzero]
  · cases paid <;> constructor <;> simp [htype]

theorem afterState_paymentUpdate (d : CDeterministicMN) :
    PaymentUpdate ctx.nHeight (isPayee payee d) d (afterState E ctx payee l d) := by
  have hban : SamePayments d.pdmnState (bannedState ctx.nHeight (livenessCond E ctx.nHeight l) d) :=
    (samePayments_sweepInvariant (E := E) _).bannedState (d := d) (.refl _) _
  exact .of_same hban (pay_paymentUpdate payee
    { d with pdmnState := bannedState ctx.nHeight (livenessCond E ctx.nHeight l) d })

/-! ### The invariant -/

/-- What the payment fields of the list of a block satisfy. -/
structure Payable (b : CBlockIndex) (l : CDeterministicMNList) : Prop where
  dated : AllDated b.nHeight b.nHeight l
  counter : ∀ (p : Uint256) d, l.mnMap[p]? = some d → d.nType = .highPerformance →
    d.pdmnState.nConsecutivePayments ≠ 0 → d.pdmnState.nLastPaidHeight = b.nHeight
  unique : ∀ (p q : Uint256) d e, l.mnMap[p]? = some d → l.mnMap[q]? = some e →
    d.pdmnState.nLastPaidHeight = b.nHeight → e.pdmnState.nLastPaidHeight = b.nHeight → p = q
  nHeight : ∀ (p : Uint256) d, l.mnMap[p]? = some d → l.nHeight = b.nHeight ∧ 0 < b.nHeight

variable {b : CBlockIndex} {r : CDeterministicMNList}

theorem Payable.of_same (hl : Payable b l) (hheight : r.nHeight = b.nHeight)
    (hentry : ∀ (p : Uint256) d', r.mnMap[p]? = some d' → ∃ d s, l.mnMap[p]? = some d ∧
      SamePayments d.pdmnState s ∧ d' = { d with pdmnState := s }) : Payable b r where
  dated := by
    intro p d' hget
    obtain ⟨d, s, hd, hs, rfl⟩ := hentry p d' hget
    exact (hl.dated p d hd).same hs
  counter := by
    intro p d' hget htype hne
    obtain ⟨d, s, hd, hs, rfl⟩ := hentry p d' hget
    rw [hs.nLastPaidHeight]
    exact hl.counter p d hd htype (hs.nConsecutivePayments ▸ hne)
  unique := by
    intro p q d' e' hget hget' hp hq
    obtain ⟨d, s, hd, hs, rfl⟩ := hentry p d' hget
    obtain ⟨e, t, he, ht, rfl⟩ := hentry q e' hget'
    exact hl.unique p q d e hd he (hs.nLastPaidHeight ▸ hp) (ht.nLastPaidHeight ▸ hq)
  nHeight := by
    intro p d' hget
    obtain ⟨d, s, hd, hs, rfl⟩ := hentry p d' hget
    exact ⟨hheight, (hl.nHeight p d hd).2⟩

theorem Payable.setBlockHash (hl : Payable b l) (blockHash : Uint256) : Payable b (l.setBlockHash blockHash) :=
  ⟨hl.dated, hl.counter, hl.unique, hl.nHeight⟩

theorem Accepted.payable (hacc : Accepted E ctx block checkSigs old new) (hold : Sound E old)
    (hpay : Payable ctx.pindexPrev old) (blockHash : Uint256) : Payable (.child blockHash ctx.pindexPrev) new := by
  obtain ⟨l₁, l₂, hrun⟩ := buildNewListFromBlock_ok hold.indexed hacc.built
  have hl₂ := hrun.allDated_removed hacc hold hpay.dated
  have hin := hrun.inBlock_removed hold.indexed
  have hheight : (CBlockIndex.child blockHash ctx.pindexPrev).nHeight = ctx.pindexPrev.nHeight + 1 :=
    CBlockIndex.nHeight_child _ _
  have hctx : ctx.nHeight = ctx.pindexPrev.nHeight + 1 := rfl
  have hentry (p : Uint256) (d' : CDeterministicMN) (hget : new.mnMap[p]? = some d') :
      ∃ d s, l₂.mnMap[p]? = some d ∧ d' = { d with pdmnState := s } ∧ PaymentUpdate ctx.nHeight
        (isPayee (old.getMNPayee E ctx.pindexPrev) d) d s := by
    rw [hrun.finished] at hget
    obtain ⟨d, hd, rfl⟩ := get_of_get_updateStates hget
    exact ⟨d, _, hd, rfl, afterState_paymentUpdate _ d⟩
  -- nobody was paid at the new height before the payee was
  have hpaid (p : Uint256) (d : CDeterministicMN) (s : CDeterministicMNState) (hd : l₂.mnMap[p]? = some d)
      (hs : PaymentUpdate ctx.nHeight (isPayee (old.getMNPayee E ctx.pindexPrev) d) d s)
      (hlast : s.nLastPaidHeight = ctx.nHeight) :
      isPayee (old.getMNPayee E ctx.pindexPrev) d = true := by
    have hbound := (hl₂ p d hd).nLastPaidHeight
    have hupd := hs.nLastPaidHeight
    by_contra hnot
    rw [if_neg hnot, hlast] at hupd
    omega
  refine ⟨fun p d' hget => ?_, fun p d' hget htype hne => ?_, fun p q d' e' hget hget' hp hq => ?_,
    fun p d' hget => ⟨?_, ?_⟩⟩
  · obtain ⟨d, s, hd, rfl, hs⟩ := hentry p d' hget
    have hdated := hl₂ p d hd
    refine ⟨hdated.nType, ?_, ?_, ?_, ?_⟩
    · rw [hs.nRegisteredHeight, hheight]
      exact hdated.nRegisteredHeight
    · rw [hs.nPoSeRevivedHeight, hheight]
      exact hdated.nPoSeRevivedHeight
    · have hbound := hdated.nLastPaidHeight
      rw [hs.nLastPaidHeight]
      split_ifs <;> omega
    · have hcount := hdated.nConsecutivePayments
      by_cases htype : d.nType = .highPerformance
      · rw [hs.nConsecutivePayments htype]
        split_ifs <;> omega
      · rw [hs.regular htype]
        exact hcount
  · obtain ⟨d, s, hd, rfl, hs⟩ := hentry p d' hget
    have hcount := hs.nConsecutivePayments htype
    rw [hs.nLastPaidHeight, hheight]
    split_ifs at hcount ⊢
    · rfl
    · exact absurd hcount hne
  · obtain ⟨d, s, hd, rfl, hs⟩ := hentry p d' hget
    obtain ⟨e, t, he, rfl, ht⟩ := hentry q e' hget'
    have hpd := hpaid p d s hd hs hp
    have hqe := hpaid q e t he ht hq
    rw [← hin.indexed.proTxHash p d hd, ← hin.indexed.proTxHash q e he]
    obtain ⟨payee, hpayee, hpd⟩ := (Option.any_eq_true _ _).mp hpd
    rw [isPayee, hpayee] at hqe
    simp only [Option.any_some, beq_iff_eq] at hpd hqe
    rw [hpd, hqe]
  · exact (hrun.inBlock hold.indexed).nHeight
  · have hnonneg := ctx.pindexPrev.nHeight_nonneg
    omega

theorem Reachable.payable {Q : BlockContext → CBlock → CDeterministicMNList → Prop}
    (hreach : Reachable E Q b l) : Payable b l := by
  induction hreach with
  | initial b _ =>
    exact ⟨fun p d h => by simp at h, fun p d h => by simp at h, fun p q d e h => by simp at h,
      fun p d h => by simp at h⟩
  | connect blockHash prev _ _ accepted ih =>
    exact (accepted.payable prev.sound ih blockHash).setBlockHash blockHash
  | replay blockHash prev _ _ accepted order replayed ih =>
    refine (accepted.payable prev.sound ih blockHash).of_same ?_ fun p d' hget => ?_
    · have hheader := applyDiff_header replayed
      simp only [header, Prod.mk.injEq] at hheader
      exact hheader.2.1
    · obtain ⟨d, key, hd, rfl⟩ := accepted.replayed_get prev.sound order replayed hget
      exact ⟨d, { d.pdmnState with pubKeyOperator := key }, hd, ⟨rfl, rfl, rfl, rfl⟩, rfl⟩

variable {Q : BlockContext → CBlock → CDeterministicMNList → Prop}

/-! ### Predicates on single masternodes -/

/-- Every change that a block makes to an entry keeps the predicate. -/
structure EntryInvariant (E : Env) (ctx : BlockContext) (P : CDeterministicMN → Prop) : Prop
    extends PhaseInvariant E ctx P where
  step : ∀ tx d s, P d → StateStep E ctx tx d s → P { d with pdmnState := s }
  register : ∀ l tx ptx, P (proRegEntry ctx.nHeight l tx ptx)

theorem EntryInvariant.accepted {P : CDeterministicMN → Prop} (hP : EntryInvariant E ctx P)
    (hacc : Accepted E ctx block checkSigs old new) (hold : Sound E old)
    (hall : ∀ (p : Uint256) d, old.mnMap[p]? = some d → P d) (p : Uint256) (d : CDeterministicMN)
    (hget : new.mnMap[p]? = some d) : P d := by
  obtain ⟨l₁, l₂, hrun⟩ := buildNewListFromBlock_ok hold.indexed hacc.built
  obtain ⟨d, hd, rfl⟩ := hrun.get hold.indexed hget
  refine hP.afterState (hrun.entries (P := fun _ d => P d) hold.indexed (fun p d hd => ?_)
    (fun tx _ => hP.step tx) (fun tx _ l ptx _ _ _ => hP.register l tx ptx) hd) _
  exact hP.beforeState (hall p d hd)

/-- A predicate that grows with the height, and that another encoding of the key does not matter to,
holds of all lists of a chain. -/
theorem Reachable.entries {P : Int → CDeterministicMN → Prop}
    (hP : ∀ ctx : BlockContext, EntryInvariant E ctx (P ctx.nHeight))
    (hmono : ∀ nHeight d, P nHeight d → P (nHeight + 1) d)
    (hkey : ∀ nHeight d key, P nHeight d → P nHeight { d with pdmnState := { d.pdmnState with pubKeyOperator := key } })
    (hreach : Reachable E Q b l) (p : Uint256) (d : CDeterministicMN) (hget : l.mnMap[p]? = some d) :
    P b.nHeight d := by
  induction hreach generalizing p d with
  | initial b _ => simp at hget
  | connect blockHash prev _ _ accepted ih =>
    exact (hP _).accepted accepted prev.sound (fun p d hd => hmono _ d (ih p d hd)) p d hget
  | replay blockHash prev _ _ accepted order replayed ih =>
    obtain ⟨e, key, he, rfl⟩ := accepted.replayed_get prev.sound order replayed hget
    exact hkey _ e key ((hP _).accepted accepted prev.sound (fun p d hd => hmono _ d (ih p d hd)) p e he)

/-! ### Bans and successes -/

/-- A masternode is not banned and had no success above the height, and a regular one has no payment counter. -/
structure Bounded (nHeight : Int) (d : CDeterministicMN) : Prop where
  nPoSeBanHeight : d.pdmnState.nPoSeBanHeight ≤ nHeight
  nPoSeSuccessHeight : d.pdmnState.nPoSeSuccessHeight ≤ nHeight
  regular : d.nType ≠ .highPerformance → d.pdmnState.nConsecutivePayments = 0

theorem banIfNotBanned_le {s : CDeterministicMNState} {nHeight : Int} (hs : s.nPoSeBanHeight ≤ nHeight) :
    (s.banIfNotBanned nHeight).nPoSeBanHeight ≤ nHeight := by
  unfold banIfNotBanned
  split_ifs
  · exact hs
  · exact le_refl _

theorem banIfNotBanned_success (s : CDeterministicMNState) (nHeight : Int) :
    (s.banIfNotBanned nHeight).nPoSeSuccessHeight = s.nPoSeSuccessHeight := by
  unfold banIfNotBanned
  split_ifs <;> rfl

namespace Bounded

variable {nHeight : Int} {s : CDeterministicMNState}

theorem mono {nHeight' : Int} (hd : Bounded nHeight d) (hle : nHeight ≤ nHeight') : Bounded nHeight' d :=
  ⟨hd.nPoSeBanHeight.trans hle, hd.nPoSeSuccessHeight.trans hle, hd.regular⟩

theorem same (hd : Bounded nHeight d) (hban : s.nPoSeBanHeight = d.pdmnState.nPoSeBanHeight)
    (hsuccess : s.nPoSeSuccessHeight = d.pdmnState.nPoSeSuccessHeight)
    (hpayments : s.nConsecutivePayments = d.pdmnState.nConsecutivePayments) :
    Bounded nHeight { d with pdmnState := s } :=
  ⟨hban ▸ hd.nPoSeBanHeight, hsuccess ▸ hd.nPoSeSuccessHeight, fun htype => hpayments.trans (hd.regular htype)⟩

theorem ban (hd : Bounded nHeight d) : Bounded nHeight { d with pdmnState := d.pdmnState.banIfNotBanned nHeight } :=
  ⟨banIfNotBanned_le hd.nPoSeBanHeight, (banIfNotBanned_success d.pdmnState nHeight) ▸ hd.nPoSeSuccessHeight,
    fun htype => (samePayments_banIfNotBanned d.pdmnState nHeight).nConsecutivePayments.trans (hd.regular htype)⟩

theorem stateStep (hd : Bounded ctx.nHeight d) (hs : StateStep E ctx tx d s) :
    Bounded ctx.nHeight { d with pdmnState := s } := by
  have hcounter : s.nConsecutivePayments = d.pdmnState.nConsecutivePayments := by
    rcases hs.payments with hsame | hsame
    · exact hsame.nConsecutivePayments
    · exact hsame.nConsecutivePayments
  have hregular (htype : d.nType ≠ .highPerformance) : s.nConsecutivePayments = 0 :=
    hcounter.trans (hd.regular htype)
  have hheight : -1 ≤ ctx.nHeight := by
    have hprev := ctx.pindexPrev.nHeight_nonneg
    have hctx : ctx.nHeight = ctx.pindexPrev.nHeight + 1 := rfl
    omega
  have hreset : (d.pdmnState.resetOperatorFields.banIfNotBanned ctx.nHeight).nPoSeBanHeight ≤ ctx.nHeight :=
    banIfNotBanned_le (s := d.pdmnState.resetOperatorFields) hd.nPoSeBanHeight
  have hresetSuccess := banIfNotBanned_success d.pdmnState.resetOperatorFields ctx.nHeight
  cases hs with
  | keep => exact hd
  | proUpServ ptx =>
    refine ⟨?_, ?_, hregular⟩
    · simp only [proUpServState]
      split_ifs
      · exact hheight
      · exact hd.nPoSeBanHeight
      · exact hheight
      · exact hd.nPoSeBanHeight
    · simp only [proUpServState]
      split_ifs <;> exact hd.nPoSeSuccessHeight
  | proUpReg ptx =>
    refine ⟨?_, ?_, hregular⟩
    · simp only [proUpRegState]
      split_ifs
      · exact hreset
      · exact hd.nPoSeBanHeight
    · simp only [proUpRegState]
      split_ifs
      · exact hresetSuccess.trans_le hd.nPoSeSuccessHeight
      · exact hd.nPoSeSuccessHeight
  | proUpRev ptx => exact ⟨hreset, hresetSuccess.trans_le hd.nPoSeSuccessHeight, hregular⟩
  | commitment qc base s payload update =>
    refine ⟨?_, ?_, hregular⟩
    · rcases update.ban with heq | ⟨-, -, heq⟩
      · exact heq.trans_le hd.nPoSeBanHeight
      · exact heq.le
    · rcases update.success with heq | heq
      · exact heq.trans_le hd.nPoSeSuccessHeight
      · exact heq.le

theorem proRegEntry (hheight : -1 ≤ nHeight) (l : CDeterministicMNList) (tx : CTransaction) (ptx : CProRegTx) :
    Bounded nHeight (Evo.proRegEntry nHeight l tx ptx) := by
  have hnew : Bounded nHeight { Evo.proRegEntry nHeight l tx ptx with
      pdmnState := { CDeterministicMNState.ofProRegTx ptx with nRegisteredHeight := nHeight } } :=
    ⟨hheight, hheight, fun _ => rfl⟩
  unfold Evo.proRegEntry at hnew ⊢
  split_ifs
  · exact hnew.ban
  · exact hnew

theorem entryInvariant (E : Env) (ctx : BlockContext) : EntryInvariant E ctx (Bounded ctx.nHeight) where
  confirm _ hd _ := hd.same rfl rfl rfl
  decrease _ hd := hd.same rfl rfl rfl
  ban _ hd := hd.ban
  pay d hd := by
    unfold paidState
    split_ifs with htype
    · exact ⟨hd.nPoSeBanHeight, hd.nPoSeSuccessHeight, fun hne => absurd htype hne⟩
    · exact hd.same rfl rfl rfl
  reset d hd htype := ⟨hd.nPoSeBanHeight, hd.nPoSeSuccessHeight, fun hne => absurd htype hne⟩
  step tx d s hd hs := hd.stateStep hs
  register l tx ptx := by
    refine proRegEntry ?_ l tx ptx
    have hprev := ctx.pindexPrev.nHeight_nonneg
    show -1 ≤ ctx.pindexPrev.nHeight + 1
    omega

end Bounded

/-! ### Every list of a chain -/

/-- In every list of a chain: at most one masternode was paid at the height of the list, only it can
have consecutive payments and then it is a high-performance one, and no height of a masternode lies
above that of the list. -/
theorem heights_of_reachable (hreach : Reachable E Q b l) :
    (∀ (p q : Uint256) d e, l.mnMap[p]? = some d → l.mnMap[q]? = some e →
      d.pdmnState.nLastPaidHeight = l.nHeight → e.pdmnState.nLastPaidHeight = l.nHeight → p = q) ∧
    (∀ (p : Uint256) d, l.mnMap[p]? = some d → 0 < d.pdmnState.nConsecutivePayments →
      d.nType = .highPerformance ∧ d.pdmnState.nLastPaidHeight = l.nHeight) ∧
    ∀ (p : Uint256) d, l.mnMap[p]? = some d →
      d.pdmnState.nRegisteredHeight ≤ l.nHeight ∧ d.pdmnState.nLastPaidHeight ≤ l.nHeight ∧
        d.pdmnState.nPoSeRevivedHeight ≤ l.nHeight ∧ d.pdmnState.nPoSeBanHeight ≤ l.nHeight ∧
        d.pdmnState.nPoSeSuccessHeight ≤ l.nHeight := by
  have hpay := hreach.payable
  have hbounded := hreach.entries (Bounded.entryInvariant E) (fun nHeight d hd => hd.mono (by omega))
    fun nHeight d key hd => hd.same rfl rfl rfl
  refine ⟨fun p q d e hd he hp hq => ?_, fun p d hd hpos => ?_, fun p d hd => ?_⟩
  · rw [(hpay.nHeight p d hd).1] at hp hq
    exact hpay.unique p q d e hd he hp hq
  · have htype : d.nType = .highPerformance := by
      by_contra hne
      have hzero := (hbounded p d hd).regular hne
      omega
    refine ⟨htype, ?_⟩
    rw [(hpay.nHeight p d hd).1]
    exact hpay.counter p d hd htype (by omega)
  · have hdated := hpay.dated p d hd
    rw [(hpay.nHeight p d hd).1]
    exact ⟨hdated.nRegisteredHeight, hdated.nLastPaidHeight, hdated.nPoSeRevivedHeight,
      (hbounded p d hd).nPoSeBanHeight, (hbounded p d hd).nPoSeSuccessHeight⟩

/-- A block with a high-performance and a regular masternode. -/
def servedBlock : CBlock :=
  ⟨[sampleCoinbase 9, sampleServedReg 10 .highPerformance 10 3, sampleServedReg 11 .regular 11 4]⟩

def servedList : CDeterministicMNList :=
  (listAfter sampleEnv (sampleContext sampleTip) servedBlock { blockHash := 1 }).setBlockHash 2

theorem reachable_servedList : Reachable sampleEnv (fun _ _ _ => True) sampleTip₂ servedList :=
  reachable_sampleTip.next 2 servedBlock (by decide) (by decide +kernel) (by decide +kernel)

/-- The masternode 10 is paid from height 3 on, and after its ten payments the masternode 11 at height 13. -/
def paidChain (n : ℕ) : CBlockIndex × CDeterministicMNList :=
  emptyBlocks sampleEnv n (sampleTip₂, servedList)

theorem heights_of_sampleList :
    (∃ d, (paidChain 2).2.mnMap[(10 : Uint256)]? = some d ∧ d.pdmnState.nConsecutivePayments = 2 ∧
      d.nType = .highPerformance ∧ d.pdmnState.nLastPaidHeight = 4) ∧
    ∃ d e, (paidChain 11).2.mnMap[(10 : Uint256)]? = some d ∧ (paidChain 11).2.mnMap[(11 : Uint256)]? = some e ∧
      e.pdmnState.nLastPaidHeight = 13 ∧ d.pdmnState.nLastPaidHeight ≠ 13 ∧ d.pdmnState.nLastPaidHeight ≤ 13 := by
  have hreach₂ : Reachable sampleEnv (fun _ _ _ => True) (paidChain 2).1 (paidChain 2).2 :=
    reachable_emptyBlocks (n := 2) (s := (sampleTip₂, servedList)) (by decide +kernel) reachable_servedList
  have hreach : Reachable sampleEnv (fun _ _ _ => True) (paidChain 11).1 (paidChain 11).2 :=
    reachable_emptyBlocks (n := 11) (s := (sampleTip₂, servedList)) (by decide +kernel) reachable_servedList
  have hheight₂ : (paidChain 2).2.nHeight = 4 := by decide +kernel
  have hheight : (paidChain 11).2.nHeight = 13 := by decide +kernel
  have hcount : ((paidChain 2).2.mnMap[(10 : Uint256)]?).map (·.pdmnState.nConsecutivePayments) = some 2 := by
    decide +kernel
  have hpaid : ((paidChain 11).2.mnMap[(10 : Uint256)]?).isSome = true ∧
      ((paidChain 11).2.mnMap[(11 : Uint256)]?).map (·.pdmnState.nLastPaidHeight) = some 13 := by decide +kernel
  obtain ⟨d₂, hd₂, htwo⟩ := Option.map_eq_some_iff.mp hcount
  obtain ⟨d, hd⟩ := Option.isSome_iff_exists.mp hpaid.1
  obtain ⟨e, he, hlast⟩ := Option.map_eq_some_iff.mp hpaid.2
  obtain ⟨-, hcounter, -⟩ := heights_of_reachable hreach₂
  obtain ⟨hunique, -, hbounds⟩ := heights_of_reachable hreach
  obtain ⟨htype, hlast₂⟩ := hcounter 10 d₂ hd₂ (by omega)
  have hle := (hbounds 10 d hd).2.1
  refine ⟨⟨d₂, hd₂, htwo, htype, hlast₂.trans hheight₂⟩, d, e, hd, he, hlast, fun hsame => ?_, hheight ▸ hle⟩
  exact absurd (hunique 10 11 d e hd he (hsame.trans hheight.symm) (hlast.trans hheight.symm)) (by decide)

/-! ### Scores -/

/-- The part of its score that a confirmed masternode has precalculated is the hash of its two hashes. -/
def Scored (E : Env) (d : CDeterministicMN) : Prop :=
  d.pdmnState.confirmedHash ≠ 0 →
    d.pdmnState.confirmedHashWithProRegTxHash = E.sha256 d.proTxHash d.pdmnState.confirmedHash

theorem Scored.ban (hd : Scored E d) (nHeight : Int) :
    Scored E { d with pdmnState := d.pdmnState.banIfNotBanned nHeight } := by
  unfold banIfNotBanned
  split_ifs <;> exact hd

theorem Scored.entryInvariant (E : Env) (ctx : BlockContext) : EntryInvariant E ctx (Scored E) where
  confirm _ _ _ _ := rfl
  decrease _ hd := hd
  ban _ hd := hd.ban _
  pay d hd := by
    unfold paidState
    split_ifs <;> exact hd
  reset _ hd _ := hd
  step tx d s hd hs := by
    have hreset : Scored E { d with pdmnState := d.pdmnState.resetOperatorFields } := hd
    cases hs with
    | keep => exact hd
    | proUpServ ptx =>
      simp only [proUpServState]
      split_ifs <;> exact hd
    | proUpReg ptx =>
      simp only [proUpRegState]
      split_ifs
      · exact hreset.ban ctx.nHeight
      · exact hd
    | proUpRev ptx => exact hreset.ban ctx.nHeight
    | commitment qc base s payload update =>
      rw [update.frame]
      exact hd
  register l tx ptx := by
    unfold proRegEntry
    split_ifs <;> simp [Scored, banIfNotBanned, isBanned, ofProRegTx]

/-- The score with the precalculated part is the one that is meant to be calculated. -/
theorem calculateScores_of_reachable (hreach : Reachable E Q b l) {modifier : Uint256} {onlyHighPerformance : Bool}
    {x : Uint256 × CDeterministicMN} (hx : x ∈ l.calculateScores E modifier onlyHighPerformance) :
    x.1 = E.sha256 (E.sha256 x.2.proTxHash x.2.pdmnState.confirmedHash) modifier := by
  unfold calculateScores at hx
  simp only [List.mem_map, List.mem_filter, Bool.and_eq_true, bne_iff_ne] at hx
  obtain ⟨d, ⟨hmem, hconf, -⟩, rfl⟩ := hx
  obtain ⟨p, hget⟩ := (mem_forEachMN.mp hmem).1
  have hscored := hreach.entries (P := fun _ => Scored E) (fun ctx => Scored.entryInvariant E ctx)
    (fun _ _ hd => hd) (fun _ _ _ hd => hd) p d hget
  rw [hscored hconf]

def scoredChain : CBlockIndex × CDeterministicMNList :=
  emptyBlocks sampleEnv 2 (sampleTip₂, (listAfter sampleEnv (sampleContext sampleTip)
    ⟨[sampleCoinbase 9, sampleServedReg 10 .regular 11 4]⟩ { blockHash := 1 }).setBlockHash 2)

theorem calculateScores_scoredChain : ∃ x ∈ scoredChain.2.calculateScores sampleEnv 5 false,
    x.1 = x.2.proTxHash + x.2.pdmnState.confirmedHash + 5 := by
  have hreach := reachable_emptyBlocks (n := 2) (s := (sampleTip₂, _)) (by decide +kernel) <| reachable_sampleTip.next 2
    ⟨[sampleCoinbase 9, sampleServedReg 10 .regular 11 4]⟩ (by decide) (by decide +kernel) (by decide +kernel)
  obtain ⟨x, hx⟩ := List.exists_mem_of_length_pos (by decide +kernel :
    0 < (scoredChain.2.calculateScores sampleEnv 5 false).length)
  exact ⟨x, hx, calculateScores_of_reachable hreach hx⟩

end OmegaCore.Evo
