import Mathlib.Data.Prod.Lex
import OmegaCore.Evo.Payments
import OmegaCore.Util.RoundRobin
import OmegaCore.Util.StrictSort

/-!
Payment fairness.  While no special transaction, spent collateral or ban interferes,
the payees follow a weighted round robin: the last payee goes on while it has
consecutive payments left, then the masternode that waits longest is next.  A list
`Serves` a round robin state when its payment fields encode it; every quiet block
takes one step of the round robin, and the library's round then gives each masternode
its weight in payments.
-/

namespace OmegaCore.Evo

open Util CDeterministicMNList CDeterministicMNState List RoundRobin

variable {E : Env} {ctx : BlockContext} {block : CBlock} {checkSigs : Bool} {b b' : CBlockIndex}
variable {old new l l' : CDeterministicMNList} {d e : CDeterministicMN} {p q : Uint256}

/-! ### Who is paid -/

def payKey (d : CDeterministicMN) : ℤ ×ₗ ℕ :=
  toLex (compareByLastPaidGetHeight d, d.proTxHash.toNat)

theorem compareByLastPaid_iff (d e : CDeterministicMN) : compareByLastPaid d e = true ↔ payKey d < payKey e := by
  unfold compareByLastPaid payKey
  rw [Prod.Lex.toLex_lt_toLex]
  dsimp only
  split_ifs with h
  · simp [h, BitVec.lt_def]
  · simp [h]

def Unfinished (l : CDeterministicMNList) (d : CDeterministicMN) : Prop :=
  d.pdmnState.nLastPaidHeight = l.nHeight ∧ d.nType = .highPerformance ∧
    d.pdmnState.nConsecutivePayments < (MnType.highPerformance.params.votingWeight : Int)

instance (l : CDeterministicMNList) : DecidablePred (Unfinished l) :=
  fun _ => inferInstanceAs (Decidable (_ ∧ _ ∧ _))

theorem unfinishedPayee_eq_find :
    l.unfinishedPayee = (l.forEachMN true).reverse.find? fun d => decide (Unfinished l d) := by
  unfold CDeterministicMNList.unfinishedPayee
  rw [foldl_eq_foldr_reverse]
  induction (l.forEachMN true).reverse with
  | nil => rfl
  | cons d ds ih =>
    rw [foldr_cons, ih, find?_cons]
    by_cases hd : Unfinished l d
    · simp only [hd, decide_true]
      exact if_pos hd
    · simp only [hd, decide_false]
      exact if_neg hd

/-- After V19 the payee goes on with its payments, or it is the first in the order of payments. -/
theorem exists_payee (hv19 : E.isV19Active b = true) (hmem : d ∈ l.forEachMN true) :
    ∃ x ∈ l.forEachMN true, l.getMNPayee E b = some x ∧
      (Unfinished l x ∨ ∀ e ∈ l.forEachMN true, ¬ Unfinished l e ∧ payKey x ≤ payKey e) := by
  rw [CDeterministicMNList.getMNPayee, if_pos hv19, unfinishedPayee_eq_find]
  cases hfind : (l.forEachMN true).reverse.find? fun d => decide (Unfinished l d) with
  | some x =>
    refine ⟨x, mem_reverse.mp (mem_of_find?_eq_some hfind), rfl, .inl ?_⟩
    simpa using find?_some hfind
  | none =>
    have hmin : l.nextPayee = (l.forEachMN true).argmin payKey :=
      foldl_eq_argmin (fun _ => rfl) (fun a b => by simp only [compareByLastPaid_iff]) _
    cases hnext : l.nextPayee with
    | none =>
      rw [argmin_eq_none.mp (hmin.symm.trans hnext)] at hmem
      cases hmem
    | some x =>
      have hmin := hmin.symm.trans hnext
      refine ⟨x, argmin_mem hmin, rfl, .inr fun e he => ⟨?_, le_of_mem_argmin he hmin⟩⟩
      simpa using find?_eq_none.mp hfind e (mem_reverse.mpr he)

/-! ### Quiet blocks -/

theorem Idle.processTx_eq {tx : CTransaction} (hidle : Idle tx) (l : CDeterministicMNList) :
    processTx E ctx l tx = .ok l := by
  unfold processTx
  rcases hidle with hver | hpay
  · rw [if_pos hver]
  · split_ifs
    · rfl
    · revert hpay
      cases tx.payload with
      | quorumCommitment qc =>
        cases qc with
        | none => exact False.elim
        | some qc => intro hnull; simp [applyQuorumCommitment, hnull]
      | proReg _ | proUpServ _ | proUpReg _ | proUpRev _ => exact False.elim
      | normal | coinbase | mnhfSignal | smsgRoom | unknown _ => intro _; rfl

/-- A block after V19 without special transactions and spent collaterals, in which no masternode
changes between banned and valid. -/
structure QuietBlock (E : Env) (ctx : BlockContext) (block : CBlock) (old new : CDeterministicMNList) :
    Prop where
  v19 : E.isV19Active ctx.pindexPrev = true
  idle : ∀ tx ∈ block.vtx.drop 1, Idle tx
  unspent : ∀ tx ∈ block.vtx.drop 1, ∀ prevout ∈ tx.vin, ∀ (p : Uint256) d, old.mnMap[p]? = some d →
    d.collateralOutpoint ≠ prevout
  valid : ∀ p, new.isMNValid p = old.isMNValid p

/-- Without special transactions and spent collaterals only the sweeps and the payment are left. -/
theorem QuietBlock.new_eq (hquiet : QuietBlock E ctx block old new) (hold : Indexed E.toCodec old)
    (hbuilt : buildNewListFromBlock E ctx block old = .ok new) :
    new = (listBeforeTxs E ctx old).updateStates
      (afterState E ctx (old.getMNPayee E ctx.pindexPrev) (listBeforeTxs E ctx old)) := by
  obtain ⟨l₁, l₂, hrun⟩ := buildNewListFromBlock_ok hold hbuilt
  have h₁ : l₁ = listBeforeTxs E ctx old :=
    foldlM_preserves (P := fun l => l = listBeforeTxs E ctx old) (fun tx htx s s' hs hstep => by
        rw [(hquiet.idle tx htx).processTx_eq, Except.ok.injEq] at hstep
        exact hstep ▸ hs) rfl hrun.processed
  have h₂ : l₂ = l₁ := by
    refine foldlM_preserves (P := fun l => l = l₁) (fun prevout hmem s s' hs hstep => ?_) rfl hrun.removed
    obtain ⟨tx, htx, hprevout⟩ := mem_flatMap.mp hmem
    subst hs
    rcases removeSpent_ok (hrun.inBlock_processed hold).indexed hstep with ⟨heq, -⟩ | ⟨q, d, hget, hcol, -⟩
    · exact heq
    · rw [h₁] at hget
      obtain ⟨d₀, hd₀, rfl⟩ := listBeforeTxs_get hget
      exact absurd hcol (hquiet.unspent tx htx prevout hprevout q d₀ hd₀)
  rw [hrun.finished, h₂, h₁]

/-- The next list after a quiet block, built or replayed. -/
inductive QuietStep (E : Env) : CBlockIndex → CDeterministicMNList → CBlockIndex → CDeterministicMNList →
    Prop where
  | connect {ctx : BlockContext} {block : CBlock} {checkSigs : Bool} {old new : CDeterministicMNList}
      (blockHash : Uint256) (active : E.params.DIP0003Height ≤ ctx.nHeight)
      (accepted : Accepted E ctx block checkSigs old new) (quiet : QuietBlock E ctx block old new) :
      QuietStep E ctx.pindexPrev old (.child blockHash ctx.pindexPrev) (new.setBlockHash blockHash)
  | replay {ctx : BlockContext} {block : CBlock} {checkSigs : Bool} {old new l : CDeterministicMNList}
      {us : List (ℕ × CDeterministicMNStateDiff)} (blockHash : Uint256)
      (active : E.params.DIP0003Height ≤ ctx.nHeight)
      (accepted : Accepted E ctx block checkSigs old new) (quiet : QuietBlock E ctx block old new)
      (order : us.Perm (old.buildDiff (new.setBlockHash blockHash)).updatedMNs)
      (replayed : old.applyDiff E.toCodec (.child blockHash ctx.pindexPrev)
        { old.buildDiff (new.setBlockHash blockHash) with updatedMNs := us } = .ok l) :
      QuietStep E ctx.pindexPrev old (.child blockHash ctx.pindexPrev) l

theorem QuietStep.reachable (hstep : QuietStep E b l b' l')
    (hreach : Reachable E (fun _ _ _ => True) b l) : Reachable E (fun _ _ _ => True) b' l' := by
  cases hstep with
  | connect blockHash active accepted quiet => exact .connect blockHash hreach active trivial accepted
  | replay blockHash active accepted quiet order replayed =>
    exact .replay blockHash hreach active trivial accepted order replayed

structure PaymentRound (payee : Option CDeterministicMN) (l l' : CDeterministicMNList) : Prop where
  nHeight : ∀ (p : Uint256) d, l.mnMap[p]? = some d → l'.nHeight = l.nHeight + 1
  entry : ∀ (p : Uint256) d, l.mnMap[p]? = some d → ∃ s, l'.mnMap[p]? = some { d with pdmnState := s } ∧
    PaymentUpdate (l.nHeight + 1) (isPayee payee d) d s
  absent : ∀ p : Uint256, l.mnMap[p]? = none → l'.mnMap[p]? = none
  valid : ∀ p, l'.isMNValid p = l.isMNValid p

theorem QuietBlock.paymentRound (hquiet : QuietBlock E ctx block old new) (hold : Sound E old)
    (hpay : Payable ctx.pindexPrev old) (hbuilt : buildNewListFromBlock E ctx block old = .ok new) :
    PaymentRound (old.getMNPayee E ctx.pindexPrev) old new := by
  have hnew := hquiet.new_eq hold.indexed hbuilt
  set after := afterState E ctx (old.getMNPayee E ctx.pindexPrev) (listBeforeTxs E ctx old)
  have hentry (p : Uint256) : new.mnMap[p]? = (old.mnMap[p]?).map fun d =>
      { d with pdmnState := andThen (beforeState E ctx) after d } := by
    rw [hnew, listBeforeTxs, updateStates_updateStates, get_updateStates]
    rfl
  refine ⟨fun p d hget => ?_, fun p d hget => ?_, fun p hnone => ?_, hquiet.valid⟩
  · rw [hnew, (hpay.nHeight p d hget).1]
    rfl
  · have hbefore : SamePayments d.pdmnState (beforeState E ctx d) := beforeState_samePayments d
    have hupd : PaymentUpdate ctx.nHeight _ _ (after { d with pdmnState := beforeState E ctx d }) :=
      afterState_paymentUpdate (old.getMNPayee E ctx.pindexPrev) { d with pdmnState := beforeState E ctx d }
    have hheight : ctx.nHeight = old.nHeight + 1 := by
      rw [(hpay.nHeight p d hget).1]
      rfl
    rw [hheight] at hupd
    refine ⟨_, ?_, .of_same hbefore hupd⟩
    rw [hentry, hget]
    rfl
  · rw [hentry, hnone]
    rfl

theorem PaymentRound.replayed {payee : Option CDeterministicMN} (hround : PaymentRound payee old new)
    (hheight : ∀ (p : Uint256) d, old.mnMap[p]? = some d → l.nHeight = old.nHeight + 1)
    (hmap : l.mnMap = (new.updateStates old.replayState).mnMap) : PaymentRound payee old l := by
  refine ⟨hheight, fun p d hget => ?_, fun p hnone => ?_, fun p => ?_⟩
  · obtain ⟨s, hs, hupd⟩ := hround.entry p d hget
    obtain ⟨key, hkey⟩ := replayState_key old { d with pdmnState := s }
    have hsame : SamePayments s (old.replayState { d with pdmnState := s }) := hkey ▸ ⟨rfl, rfl, rfl, rfl⟩
    refine ⟨old.replayState { d with pdmnState := s }, ?_, hupd.same hsame⟩
    rw [hmap, get_updateStates, hs]
    rfl
  · rw [hmap, get_updateStates, hround.absent p hnone]
    rfl
  · rw [← hround.valid, isMNValid, isMNValid, hmap, get_updateStates]
    cases new.mnMap[p]? with
    | none => rfl
    | some e =>
      obtain ⟨key, hkey⟩ := replayState_key old e
      simp [isMNValidEntry, isMNPoSeBannedEntry, CDeterministicMNState.isBanned, hkey]

theorem QuietStep.paymentRound (hstep : QuietStep E b l b' l') (hreach : Reachable E (fun _ _ _ => True) b l) :
    PaymentRound (l.getMNPayee E b) l l' ∧ E.isV19Active b = true := by
  have hsound := hreach.sound
  have hpay := hreach.payable
  cases hstep with
  | connect blockHash active accepted quiet =>
    have hround := quiet.paymentRound hsound hpay accepted.built
    exact ⟨⟨hround.nHeight, hround.entry, hround.absent, hround.valid⟩, quiet.v19⟩
  | replay blockHash active accepted quiet order replayed =>
    obtain ⟨-, hmap⟩ := accepted.replayed hsound order replayed
    have hheader := applyDiff_header replayed
    simp only [header, Prod.mk.injEq] at hheader
    refine ⟨(quiet.paymentRound hsound hpay accepted.built).replayed (fun p d hget => ?_) hmap, quiet.v19⟩
    rw [hheader.2.1, CBlockIndex.nHeight_child, (hpay.nHeight p d hget).1]

/-! ### Lists that follow a round robin -/

def weightOf (l : CDeterministicMNList) (p : Uint256) : ℕ :=
  (l.mnMap[p]?).elim 0 fun d => d.nType.params.votingWeight

theorem weightOf_eq (hget : l.mnMap[p]? = some d) : weightOf l p = d.nType.params.votingWeight := by
  rw [weightOf, hget]
  rfl

/-- The consecutive payments the last payee still gets. -/
def paymentsLeft (d : CDeterministicMN) : ℕ :=
  if d.nType = .highPerformance then
    ((MnType.highPerformance.params.votingWeight : Int) - d.pdmnState.nConsecutivePayments).toNat
  else 0

/-- The order of the queue. -/
abbrev PaidFirst (l : CDeterministicMNList) (p q : Uint256) : Prop :=
  ∀ d e, l.mnMap[p]? = some d → l.mnMap[q]? = some e → payKey d < payKey e

/-- The payment fields of the valid masternodes encode the state of a round robin. -/
structure Serves (l : CDeterministicMNList) (s : RoundRobin Uint256) : Prop where
  members : ∀ p, p ∈ s.members ↔ l.isMNValid p = true
  nodup : s.members.Nodup
  sorted : s.waiting.Pairwise fun p q => ∀ d e, l.mnMap[p]? = some d → l.mnMap[q]? = some e → payKey d < payKey e
  current : ∃ d, l.mnMap[s.current]? = some d ∧ d.pdmnState.nLastPaidHeight = l.nHeight ∧ s.left = paymentsLeft d
  waiting : ∀ p ∈ s.waiting, ∀ d, l.mnMap[p]? = some d → compareByLastPaidGetHeight d < l.nHeight ∧
    (d.nType = .highPerformance → d.pdmnState.nConsecutivePayments = 0)

theorem isMNValid_iff : l.isMNValid p = true ↔ ∃ d, l.mnMap[p]? = some d ∧ isMNValidEntry d = true := by
  unfold isMNValid
  cases l.mnMap[p]? <;> simp

theorem isMNValid_iff_mem (hl : l.Keyed) : l.isMNValid p = true ↔ ∃ d ∈ l.forEachMN true, d.proTxHash = p := by
  rw [isMNValid_iff]
  constructor
  · rintro ⟨d, hd, hvalid⟩
    exact ⟨d, mem_forEachMN.mpr ⟨⟨p, hd⟩, fun _ => hvalid⟩, hl p d hd⟩
  · rintro ⟨d, hd, rfl⟩
    exact ⟨d, hl.get_of_mem hd, (mem_forEachMN.mp hd).2 rfl⟩

variable {s : RoundRobin Uint256}

theorem Serves.mem (hs : Serves l s) (hl : l.Keyed) :
    d ∈ l.forEachMN true ↔ l.mnMap[d.proTxHash]? = some d ∧ d.proTxHash ∈ s.members := by
  rw [hs.members, isMNValid_iff]
  constructor
  · intro hmem
    have hget := hl.get_of_mem hmem
    exact ⟨hget, d, hget, (mem_forEachMN.mp hmem).2 rfl⟩
  · rintro ⟨hget, e, he, hvalid⟩
    rw [hget, Option.some.injEq] at he
    exact mem_forEachMN.mpr ⟨⟨_, hget⟩, fun _ => he ▸ hvalid⟩

theorem Serves.get (hs : Serves l s) (hp : p ∈ s.members) : ∃ d, l.mnMap[p]? = some d := by
  obtain ⟨d, hd, -⟩ := isMNValid_iff.mp ((hs.members p).mp hp)
  exact ⟨d, hd⟩

theorem getHeight_of_lastPaid {nHeight : Int} (hrevived : d.pdmnState.nPoSeRevivedHeight ≤ nHeight)
    (hlast : d.pdmnState.nLastPaidHeight = nHeight) (hpos : nHeight ≠ 0) :
    compareByLastPaidGetHeight d = nHeight := by
  simp only [compareByLastPaidGetHeight, hlast]
  rw [if_neg (by omega), if_neg hpos]

theorem payKey_lt_of_getHeight (h : compareByLastPaidGetHeight d < compareByLastPaidGetHeight e) :
    payKey d < payKey e := by
  rw [payKey, payKey, Prod.Lex.toLex_lt_toLex]
  exact .inl h

theorem Payable.getHeight_eq (hpay : Payable b l) (hget : l.mnMap[p]? = some d)
    (hlast : d.pdmnState.nLastPaidHeight = l.nHeight) : compareByLastPaidGetHeight d = l.nHeight := by
  obtain ⟨hheight, hpos⟩ := hpay.nHeight p d hget
  exact getHeight_of_lastPaid (hheight ▸ (hpay.dated p d hget).nPoSeRevivedHeight) hlast (by omega)

theorem Serves.eq_current (hs : Serves l s) (hpay : Payable b l)
    (hget : l.mnMap[p]? = some d) (hp : p ∈ s.members) (hlast : d.pdmnState.nLastPaidHeight = l.nHeight) :
    p = s.current := by
  rcases mem_append.mp hp with hwait | hcur
  · have hkey := hpay.getHeight_eq hget hlast
    have hlt := (hs.waiting p hwait d hget).1
    omega
  · exact mem_singleton.mp hcur

theorem Serves.getMNPayee (hs : Serves l s) (hl : l.Keyed) (hpay : Payable b l)
    (hv19 : E.isV19Active b = true) (w : Uint256 → ℕ) :
    ∃ d ∈ l.forEachMN true, l.getMNPayee E b = some d ∧ d.proTxHash = (s.step w).1 := by
  obtain ⟨dc, hdc, hlast, hleft⟩ := hs.current
  have hkey : dc.proTxHash = s.current := hl _ dc hdc
  have hcur : s.current ∈ s.members := by simp [RoundRobin.members]
  have hmem : dc ∈ l.forEachMN true := (hs.mem hl).mpr ⟨by rw [hkey, hdc], by rw [hkey]; exact hcur⟩
  have hunique {e : CDeterministicMN} (he : e ∈ l.forEachMN true) (hun : Unfinished l e) : e = dc := by
    obtain ⟨hget, hin⟩ := (hs.mem hl).mp he
    rw [hs.eq_current hpay hget hin hun.1, hdc, Option.some.injEq] at hget
    exact hget.symm
  obtain ⟨x, hx, hpayee, hcase⟩ := exists_payee hv19 hmem
  refine ⟨x, hx, hpayee, ?_⟩
  obtain ⟨hget, hin⟩ := (hs.mem hl).mp hx
  obtain ⟨waiting, current, left⟩ := s
  dsimp only at hkey hdc hlast hleft
  cases left with
  | succ n =>
    have hun : Unfinished l dc := by
      unfold paymentsLeft at hleft
      split_ifs at hleft with htype
      exact ⟨hlast, htype, by omega⟩
    rcases hcase with hxun | hno
    · rw [hunique hx hxun]
      exact hkey
    · exact absurd hun (hno dc hmem).1
  | zero =>
    have hdone : ¬ Unfinished l x := by
      intro hun
      rw [hunique hx hun] at hun
      rw [paymentsLeft, if_pos hun.2.1] at hleft
      have hlt := hun.2.2
      omega
    have hfirst := hcase.resolve_left hdone
    cases waiting with
    | nil => simpa [RoundRobin.members, RoundRobin.step] using hin
    | cons y ys =>
      obtain ⟨dy, hdy⟩ := hs.get (p := y) (by simp [RoundRobin.members])
      have hy : dy.proTxHash = y := hl y dy hdy
      have hmemy : dy ∈ l.forEachMN true :=
        (hs.mem hl).mpr ⟨by rw [hy, hdy], by rw [hy]; simp [RoundRobin.members]⟩
      have hle := (hfirst dy hmemy).2
      simp only [RoundRobin.members, mem_append, mem_cons, not_mem_nil, or_false] at hin
      rcases hin with (heq | hys) | heq
      · exact heq
      · exact absurd (rel_of_pairwise_cons hs.sorted hys dy x hdy hget) (not_lt.mpr hle)
      · -- the last payee comes after everybody who waits
        rw [heq, hdc, Option.some.injEq] at hget
        subst hget
        refine absurd (payKey_lt_of_getHeight ?_) (not_lt.mpr hle)
        rw [hpay.getHeight_eq hdc hlast]
        exact (hs.waiting y mem_cons_self dy hdy).1

/-! ### One payment is one step -/

theorem PaymentUpdate.getHeight_eq {nHeight : Int} {s : CDeterministicMNState} (hs : PaymentUpdate nHeight false d s) :
    compareByLastPaidGetHeight { d with pdmnState := s } = compareByLastPaidGetHeight d := by
  have hlast : s.nLastPaidHeight = d.pdmnState.nLastPaidHeight := hs.nLastPaidHeight
  simp only [compareByLastPaidGetHeight, hlast, hs.nRegisteredHeight, hs.nPoSeRevivedHeight]

section Round

variable {payee : CDeterministicMN} (hl : l.Keyed) (hround : PaymentRound (some payee) l l')

include hl hround

theorem PaymentRound.unpaid (hget : l.mnMap[p]? = some d) (hp : p ≠ payee.proTxHash) :
    ∃ s, l'.mnMap[p]? = some { d with pdmnState := s } ∧ PaymentUpdate (l.nHeight + 1) false d s := by
  obtain ⟨s, hs, hupd⟩ := hround.entry p d hget
  have hpayee : isPayee (some payee) d = false := by simp [isPayee, hl p d hget, hp]
  exact ⟨s, hs, hpayee ▸ hupd⟩

theorem PaymentRound.paid (hget : l.mnMap[payee.proTxHash]? = some d) :
    ∃ s, l'.mnMap[payee.proTxHash]? = some { d with pdmnState := s } ∧ PaymentUpdate (l.nHeight + 1) true d s := by
  obtain ⟨s, hs, hupd⟩ := hround.entry _ d hget
  have hpayee : isPayee (some payee) d = true := by simp [isPayee, hl _ d hget]
  exact ⟨s, hs, hpayee ▸ hupd⟩

/-- A valid masternode that is not paid keeps its place in the order and has its counter reset. -/
theorem PaymentRound.waits (hget : l.mnMap[p]? = some d) (hp : p ≠ payee.proTxHash) {d' : CDeterministicMN}
    (hget' : l'.mnMap[p]? = some d') : payKey d' = payKey d ∧
      compareByLastPaidGetHeight d' = compareByLastPaidGetHeight d ∧
      (d'.nType = .highPerformance → d'.pdmnState.nConsecutivePayments = 0) := by
  obtain ⟨s, hs, hupd⟩ := hround.unpaid hl hget hp
  rw [hs, Option.some.injEq] at hget'
  subst hget'
  exact ⟨by rw [payKey, payKey, hupd.getHeight_eq], hupd.getHeight_eq, hupd.nConsecutivePayments⟩

theorem PaymentRound.sorted {xs : List Uint256} (hxs : ∀ p ∈ xs, p ≠ payee.proTxHash ∧ ∃ d, l.mnMap[p]? = some d)
    (hsorted : xs.Pairwise (PaidFirst l)) : xs.Pairwise (PaidFirst l') := by
  refine hsorted.imp_of_mem fun {p q} hp hq hlt d' e' hd' he' => ?_
  obtain ⟨hpne, d, hd⟩ := hxs p hp
  obtain ⟨hqne, e, he⟩ := hxs q hq
  rw [(hround.waits hl hd hpne hd').1, (hround.waits hl he hqne he').1]
  exact hlt d e hd he

omit hl in
theorem PaymentRound.weightOf_eq : weightOf l' = weightOf l := by
  funext p
  unfold weightOf
  cases hget : l.mnMap[p]? with
  | none => rw [hround.absent p hget]
  | some d =>
    obtain ⟨s, hs, -⟩ := hround.entry p d hget
    rw [hs]
    rfl

end Round

/-! ### The first payment -/

theorem payKey_injOn (hl : l.Keyed) {onlyValid : Bool} (hd : d ∈ l.forEachMN onlyValid)
    (he : e ∈ l.forEachMN onlyValid) (h : payKey d = payKey e) : d = e := by
  have hhash : d.proTxHash = e.proTxHash := by
    have hnat := congrArg (fun k => (ofLex k).2) h
    exact BitVec.eq_of_toNat_eq hnat
  have hget := hl.get_of_mem hd
  rw [hhash, hl.get_of_mem he, Option.some.injEq] at hget
  exact hget.symm

/-- The valid masternodes except one, in the order of payments. -/
def others (l : CDeterministicMNList) (x : CDeterministicMN) : List CDeterministicMN :=
  sortBy compareByLastPaid ((l.forEachMN true).filter fun d => decide (d ≠ x))

def hashes (xs : List CDeterministicMN) : List Uint256 :=
  xs.map (·.proTxHash)

variable {x : CDeterministicMN}

theorem mem_others : d ∈ others l x ↔ d ∈ l.forEachMN true ∧ d ≠ x := by
  rw [others, (sortBy_perm _ _).mem_iff, mem_filter, decide_eq_true_eq]

theorem nodup_others (hl : l.Keyed) : (hashes (others l x)).Nodup :=
  ((sortBy_perm _ _).map _).nodup_iff.mpr (hl.nodup_filter true _)

theorem sorted_others (hl : l.Keyed) : (others l x).Pairwise fun d e => payKey d < payKey e := by
  have hle : (others l x).Pairwise fun d e => payKey d ≤ payKey e := sortBy_pairwise compareByLastPaid_iff _
  refine (hle.and (nodup_others hl).of_map).imp_of_mem fun {d e} hd he hde => lt_of_le_of_ne hde.1 fun heq => hde.2 ?_
  exact payKey_injOn hl (mem_others.mp hd).1 (mem_others.mp he).1 heq

theorem sorted_hashes (hl : l.Keyed) : (hashes (others l x)).Pairwise (PaidFirst l) := by
  refine pairwise_map.mpr ((sorted_others hl).imp_of_mem fun {a c} ha hc hac d e hd he => ?_)
  rw [hl.get_of_mem (mem_others.mp ha).1, Option.some.injEq] at hd
  rw [hl.get_of_mem (mem_others.mp hc).1, Option.some.injEq] at he
  exact hd ▸ he ▸ hac

theorem cons_others_perm (hl : l.Keyed) (hx : x ∈ l.forEachMN true) : (x :: others l x).Perm (l.forEachMN true) := by
  have hnodup : (x :: others l x).Nodup :=
    nodup_cons.mpr ⟨fun h => (mem_others.mp h).2 rfl, (nodup_others hl).of_map⟩
  refine (perm_ext_iff_of_nodup hnodup (hl.nodup_forEachMN true).of_map).mpr fun d => ?_
  rw [mem_cons, mem_others]
  grind

theorem queue_perm (hl : l.Keyed) (hx : x ∈ l.forEachMN true) :
    (hashes (others l x) ++ [x.proTxHash]).Perm (hashes (l.forEachMN true)) :=
  (perm_append_singleton _ _).trans ((cons_others_perm hl hx).map _)

theorem getHeight_le {nHeight : Int} (hd : Dated nHeight nHeight d) : compareByLastPaidGetHeight d ≤ nHeight := by
  have h₁ := hd.nRegisteredHeight
  have h₂ := hd.nPoSeRevivedHeight
  have h₃ := hd.nLastPaidHeight
  simp only [compareByLastPaidGetHeight]
  split_ifs <;> omega

theorem Payable.serves_queue (hpay : Payable b l) (hl : l.Keyed) (hround : PaymentRound (some x) l l')
    (hx : x ∈ l.forEachMN true) {s : CDeterministicMNState}
    (hs : l'.mnMap[x.proTxHash]? = some { x with pdmnState := s }) (hupd : PaymentUpdate (l.nHeight + 1) true x s) :
    Serves l' ⟨hashes (others l x), x.proTxHash, paymentsLeft { x with pdmnState := s }⟩ := by
  have hne {e : CDeterministicMN} (he : e ∈ others l x) :
      e.proTxHash ≠ x.proTxHash ∧ l.mnMap[e.proTxHash]? = some e := by
    obtain ⟨hmem, hex⟩ := mem_others.mp he
    exact ⟨fun heq => hex (hl.eq_of_proTxHash (hl.get_of_mem hx) (hl.get_of_mem hmem) heq), hl.get_of_mem hmem⟩
  refine ⟨fun p => ?_, (queue_perm hl hx).nodup_iff.mpr (hl.nodup_forEachMN true), hround.sorted hl ?_ ?_,
    ⟨_, hs, hupd.nLastPaidHeight.trans (hround.nHeight _ x (hl.get_of_mem hx)).symm, rfl⟩, ?_⟩
  · rw [hround.valid, isMNValid_iff_mem hl, RoundRobin.members, (queue_perm hl hx).mem_iff, hashes, mem_map]
  · intro p hp
    obtain ⟨e, he, rfl⟩ := mem_map.mp hp
    exact ⟨(hne he).1, e, (hne he).2⟩
  · exact sorted_hashes hl
  · intro p hp d' hd'
    obtain ⟨e, he, rfl⟩ := mem_map.mp hp
    obtain ⟨-, hheight, hzero⟩ := hround.waits hl (hne he).2 (hne he).1 hd'
    have hle := getHeight_le (hpay.dated _ e (hne he).2)
    rw [← (hpay.nHeight _ e (hne he).2).1] at hle
    have hnext := hround.nHeight _ e (hne he).2
    exact ⟨by show _ < l'.nHeight; omega, hzero⟩

/-! ### One payment is one step -/

/-- Those who wait for a payment of `x`, in order, are all the others. -/
theorem Serves.waiting_eq (hs : Serves l s) (hl : l.Keyed) (hx : x ∈ l.forEachMN true) {ps : List Uint256}
    (hperm : (ps ++ [x.proTxHash]).Perm s.members)
    (hsorted : ps.Pairwise (PaidFirst l)) : ps = hashes (others l x) := by
  have hmembers : s.members.Perm (hashes (l.forEachMN true)) := by
    refine (perm_ext_iff_of_nodup hs.nodup (hl.nodup_forEachMN true)).mpr fun p => ?_
    rw [hs.members, isMNValid_iff_mem hl]
    exact mem_map.symm
  have hget {p : Uint256} (hp : p ∈ ps) := hs.get (hperm.subset (mem_append_left _ hp))
  have hps : ps.Perm (hashes (others l x)) :=
    (perm_append_right_iff _).mp ((hperm.trans hmembers).trans (queue_perm hl hx).symm)
  refine hps.eq_of_pairwise (fun p q hp hq hpq hqp => ?_) hsorted (sorted_hashes hl)
  obtain ⟨d, hd⟩ := hget hp
  obtain ⟨e, he⟩ := hget (hps.symm.subset hq)
  exact absurd (hpq d e hd he) (lt_asymm (hqp e d he hd))

theorem Serves.step (hs : Serves l s) (hl : l.Keyed) (hpay : Payable b l) (hround : PaymentRound (some x) l l')
    (hx : x ∈ l.forEachMN true) (hpayee : x.proTxHash = (s.step (weightOf l)).1) :
    Serves l' (s.step (weightOf l)).2 := by
  have hget := hl.get_of_mem hx
  obtain ⟨st, hst, hupd⟩ := hround.paid hl hget
  have hqueue := hpay.serves_queue hl hround hx hst hupd
  have hcount := hupd.nConsecutivePayments
  simp only [if_true] at hcount
  have hperm := s.perm_members_step (weightOf l)
  obtain ⟨dc, hdc, hlast, hleft⟩ := hs.current
  have hsorted := hs.sorted
  -- the current participant is paid again
  have hagain (n : ℕ) (hcur : x.proTxHash = s.current) (hn : s.left = n + 1 ∨ (s.left = 0 ∧ n = 0)) :
      Serves l' ⟨s.waiting, s.current, n⟩ := by
    rw [← hcur, hget, Option.some.injEq] at hdc
    subst hdc
    have hwaiting := hs.waiting_eq hl hx (hcur ▸ .refl _) hsorted
    have hpayments : n = paymentsLeft { x with pdmnState := st } := by
      simp only [paymentsLeft] at hleft ⊢
      split_ifs at hleft ⊢ with htype
      · rw [hcount htype]
        omega
      · omega
    rw [hwaiting, ← hcur, hpayments]
    exact hqueue
  obtain ⟨waiting, current, left⟩ := s
  cases left with
  | succ n => exact hagain n hpayee (.inl rfl)
  | zero =>
    cases waiting with
    | nil => exact hagain 0 hpayee (.inr ⟨rfl, rfl⟩)
    | cons y ys =>
      obtain rfl : x.proTxHash = y := hpayee
      -- the former payee joins the end of the queue
      have hsorted' : (ys ++ [current]).Pairwise (PaidFirst l) := by
        refine pairwise_append.mpr ⟨hsorted.of_cons, pairwise_singleton _ _, fun p hp q hq d e hd he => ?_⟩
        obtain rfl := mem_singleton.mp hq
        rw [hdc, Option.some.injEq] at he
        subst he
        refine payKey_lt_of_getHeight ?_
        rw [hpay.getHeight_eq hdc hlast]
        exact (hs.waiting p (mem_cons_of_mem _ hp) d hd).1
      have hwaiting : ys ++ [current] = hashes (others l x) := hs.waiting_eq hl hx hperm hsorted'
      have hpayments : weightOf l x.proTxHash - 1 = paymentsLeft { x with pdmnState := st } := by
        have hzero := (hs.waiting _ mem_cons_self x hget).2
        rw [weightOf_eq hget, paymentsLeft]
        split_ifs with htype
        · rw [hcount htype, hzero htype, htype]
          rfl
        · cases ht : x.nType with
          | highPerformance => exact absurd ht htype
          | regular | other v => rfl
      simp only [RoundRobin.step]
      rw [hwaiting, hpayments]
      exact hqueue

/-! ### Runs of quiet blocks -/

/-- A run of quiet blocks, with the payees in order. -/
inductive QuietRun (E : Env) : CBlockIndex → CDeterministicMNList → List (Option Uint256) → CBlockIndex →
    CDeterministicMNList → Prop where
  | nil (b : CBlockIndex) (l : CDeterministicMNList) : QuietRun E b l [] b l
  | cons {b b₁ b₂ : CBlockIndex} {l l₁ l₂ : CDeterministicMNList} {payees : List (Option Uint256)}
      (step : QuietStep E b l b₁ l₁) (rest : QuietRun E b₁ l₁ payees b₂ l₂) :
      QuietRun E b l ((l.getMNPayee E b).map (·.proTxHash) :: payees) b₂ l₂

theorem QuietRun.payees_eq {payees : List (Option Uint256)} (hrun : QuietRun E b l payees b' l')
    (hreach : Reachable E (fun _ _ _ => True) b l) {s : RoundRobin Uint256} (hs : Serves l s) :
    payees = (s.turns (weightOf l) payees.length).map some := by
  induction hrun generalizing s with
  | nil => rfl
  | @cons b b₁ b₂ l l₁ l₂ payees step rest ih =>
    obtain ⟨hround, hv19⟩ := step.paymentRound hreach
    have hkeyed := hreach.sound.indexed.keyed
    obtain ⟨payee, hmem, hpayee, hturn⟩ := hs.getMNPayee hkeyed hreach.payable hv19 (weightOf l)
    rw [hpayee] at hround
    have hrest := ih (step.reachable hreach) (hs.step hkeyed hreach.payable hround hmem hturn)
    rw [hround.weightOf_eq] at hrest
    rw [hpayee, length_cons, turns, map_cons, ← hrest, ← hturn]
    rfl

/-! ### The order of payments -/

def spread (xs : List CDeterministicMN) : List CDeterministicMN :=
  xs.flatMap fun dmn => List.replicate dmn.nType.params.votingWeight dmn

variable {xs : List CDeterministicMN}

/-- The valid masternodes before and after one of them. -/
def paidBefore (l : CDeterministicMNList) (x : CDeterministicMN) : List CDeterministicMN :=
  (others l x).filter fun dmn => compareByLastPaid dmn x

def paidAfter (l : CDeterministicMNList) (x : CDeterministicMN) : List CDeterministicMN :=
  (others l x).filter fun dmn => !compareByLastPaid dmn x

theorem mem_paidBefore : d ∈ paidBefore l x ↔ d ∈ l.forEachMN true ∧ payKey d < payKey x := by
  rw [paidBefore, mem_filter, mem_others, compareByLastPaid_iff]
  exact ⟨fun h => ⟨h.1.1, h.2⟩, fun h => ⟨⟨h.1, fun heq => lt_irrefl _ (heq ▸ h.2)⟩, h.2⟩⟩

theorem mem_of_mem_spread (h : d ∈ spread xs) : d ∈ xs := by
  obtain ⟨e, he, hd⟩ := mem_flatMap.mp h
  exact eq_of_mem_replicate hd ▸ he

theorem spread_sorted (h : xs.Pairwise fun a b => payKey a < payKey b) :
    (spread xs).Pairwise fun a b => payKey a ≤ payKey b := by
  refine pairwise_flatMap.mpr ⟨fun a _ => pairwise_replicate.mpr (.inr le_rfl), h.imp fun hab c hc d hd => ?_⟩
  rw [eq_of_mem_replicate hc, eq_of_mem_replicate hd]
  exact hab.le

section Keyed

variable (hl : l.Keyed) (hx : x ∈ l.forEachMN true)

include hl

theorem mem_paidAfter (hx : x ∈ l.forEachMN true) : d ∈ paidAfter l x ↔ d ∈ l.forEachMN true ∧ payKey x < payKey d := by
  rw [paidAfter, mem_filter, mem_others, Bool.not_eq_true', ← Bool.not_eq_true, compareByLastPaid_iff, not_lt]
  constructor
  · rintro ⟨⟨hd, hne⟩, hle⟩
    exact ⟨hd, lt_of_le_of_ne hle fun heq => hne (payKey_injOn hl hd hx heq.symm)⟩
  · rintro ⟨hd, hlt⟩
    exact ⟨⟨hd, fun heq => lt_irrefl _ (heq ▸ hlt)⟩, hlt.le⟩

include hx

theorem others_eq : others l x = paidBefore l x ++ paidAfter l x := by
  have hsorted := sorted_others (x := x) hl
  refine (filter_append_perm _ _).symm.eq_of_pairwise (fun a b _ _ hab hba => absurd hab (lt_asymm hba)) hsorted ?_
  refine pairwise_append.mpr ⟨hsorted.filter _, hsorted.filter _, fun a ha b hb => ?_⟩
  exact (mem_paidBefore.mp ha).2.trans ((mem_paidAfter hl hx).mp hb).2

end Keyed

/-- The bounds of a valid masternode, at the height of the list. -/
theorem Payable.dated_valid (hpay : Payable b l) (hl : l.Keyed) (hd : d ∈ l.forEachMN true) :
    Dated l.nHeight l.nHeight d := by
  have hget := hl.get_of_mem hd
  exact (hpay.nHeight _ d hget).1 ▸ hpay.dated _ d hget

/-- The payments in a row that a payee gets, with the one in the next block. -/
def turnsNow (d : CDeterministicMN) : ℕ :=
  if d.nType = .highPerformance then
    ((MnType.highPerformance.params.votingWeight : Int) - (d.pdmnState.nConsecutivePayments + 1)).toNat + 1
  else 1

theorem turnsNow_le (hd : Dated l.nHeight l.nHeight d) : turnsNow d ≤ d.nType.params.votingWeight := by
  have hcount := hd.nConsecutivePayments
  have hpos := MnType.votingWeight_pos hd.nType
  have hten : (MnType.highPerformance.params.votingWeight : Int) = 10 := rfl
  unfold turnsNow
  split_ifs with htype
  · rw [htype]
    omega
  · exact hpos

/-! ### The payees of the blocks -/

theorem hashes_spread (hl : l.Keyed) (hxs : ∀ d ∈ xs, d ∈ l.forEachMN true) :
    (hashes xs).flatMap (fun p => List.replicate (weightOf l p) p) = hashes (spread xs) := by
  unfold hashes spread
  rw [flatMap_map, map_flatMap]
  refine flatMap_congr fun d hd => ?_
  rw [weightOf_eq (hl.get_of_mem (hxs d hd)), map_replicate]

/-- The payments of a round of blocks: the payee goes on, then come the others in order, and then the
payee has what it missed. -/
def roundOfPayments (l : CDeterministicMNList) (x : CDeterministicMN) : List Uint256 :=
  hashes (List.replicate (turnsNow x) x ++ spread (paidBefore l x)) ++
    (hashes (spread (paidAfter l x)) ++ List.replicate (x.nType.params.votingWeight - turnsNow x) x.proTxHash)

/-- It is the round that begins with a turn of the payee. -/
theorem roundOfPayments_eq (hl : l.Keyed) (hpay : Payable b l) (hx : x ∈ l.forEachMN true) {left : ℕ}
    (hnow : turnsNow x = left + 1) :
    x.proTxHash :: turns (weightOf l) ⟨hashes (others l x), x.proTxHash, left⟩
        (((hashes (others l x)).map (weightOf l)).sum + (weightOf l x.proTxHash - 1)) =
      roundOfPayments l x := by
  have hget := hl.get_of_mem hx
  have hle := turnsNow_le (hpay.dated_valid hl hx)
  have hothers (e : CDeterministicMN) (he : e ∈ others l x) : e ∈ l.forEachMN true := (mem_others.mp he).1
  have hwaiting (q : Uint256) (hq : q ∈ hashes (others l x)) : 0 < weightOf l q := by
    obtain ⟨e, he, rfl⟩ := mem_map.mp hq
    rw [weightOf_eq (hl.get_of_mem (hothers e he))]
    exact MnType.votingWeight_pos (hpay.dated_valid hl (hothers e he)).nType
  have hleft : left < weightOf l x.proTxHash := by
    rw [weightOf_eq hget]
    omega
  rw [turns_round hleft hwaiting, hashes_spread hl hothers, weightOf_eq hget, roundOfPayments, hnow,
    others_eq hl hx, show x.nType.params.votingWeight - 1 - left = x.nType.params.votingWeight - (left + 1) by omega]
  simp [hashes, spread, replicate_succ]

theorem roundOfPayments_perm (hl : l.Keyed) (hpay : Payable b l) (hx : x ∈ l.forEachMN true) :
    (roundOfPayments l x).Perm (hashes (spread (l.forEachMN true))) := by
  refine .trans ?_ (((cons_others_perm hl hx).flatMap_right _).map _)
  have hweight := Nat.add_sub_of_le (turnsNow_le (hpay.dated_valid hl hx))
  rw [flatMap_cons, ← hweight, replicate_add, others_eq hl hx, roundOfPayments]
  simp only [hashes, spread, flatMap_append, map_append, map_replicate, append_assoc]
  refine .append_left _ ?_
  rw [← append_assoc]
  exact perm_append_comm

theorem length_roundOfPayments (hl : l.Keyed) (hpay : Payable b l) (hx : x ∈ l.forEachMN true) :
    (roundOfPayments l x).length = l.getValidWeightedMNsCount := by
  rw [(roundOfPayments_perm hl hpay hx).length_eq, getValidWeightedMNsCount_eq_sum]
  simp [hashes, spread, length_flatMap]

theorem QuietRun.payees_eq_take {payees : List (Option Uint256)} (hrun : QuietRun E b l payees b' l')
    (hreach : Reachable E (fun _ _ _ => True) b l) (hne : payees ≠ [])
    (hlen : payees.length ≤ l.getValidWeightedMNsCount) :
    ∃ x ∈ l.forEachMN true, l.getMNPayee E b = some x ∧ E.isV19Active b = true ∧
      (roundOfPayments l x).length = l.getValidWeightedMNsCount ∧
      payees = ((roundOfPayments l x).take payees.length).map some := by
  have hkeyed := hreach.sound.indexed.keyed
  have hpay := hreach.payable
  cases hrun with
  | nil => exact absurd rfl hne
  | @cons _ b₁ _ _ l₁ _ payees step rest =>
    obtain ⟨hround, hv19⟩ := step.paymentRound hreach
    obtain ⟨d, hd⟩ : ∃ d, d ∈ l.forEachMN true := by
      by_contra! hnone
      rw [getValidWeightedMNsCount_eq_sum, eq_nil_iff_forall_not_mem.mpr hnone] at hlen
      simp at hlen
    obtain ⟨x, hx, heq, -⟩ := exists_payee hv19 hd
    rw [heq] at hround
    have hreach₁ := step.reachable hreach
    have hget := hkeyed.get_of_mem hx
    obtain ⟨s, hs, hupd⟩ := hround.paid hkeyed hget
    have hserves := hpay.serves_queue hkeyed hround hx hs hupd
    have hnow : turnsNow x = paymentsLeft { x with pdmnState := s } + 1 := by
      have hcount := hupd.nConsecutivePayments
      simp only [if_true] at hcount
      unfold turnsNow paymentsLeft
      split_ifs with htype
      · rw [hcount htype]
      · rfl
    have hpayees := rest.payees_eq hreach₁ hserves
    rw [hround.weightOf_eq] at hpayees
    have hlength := length_roundOfPayments hkeyed hpay hx
    refine ⟨x, hx, heq, hv19, hlength, ?_⟩
    rw [← roundOfPayments_eq hkeyed hpay hx hnow, length_cons, length_turns] at hlength
    rw [length_cons] at hlen ⊢
    rw [heq, ← roundOfPayments_eq hkeyed hpay hx hnow, take_succ_cons, turns_take _ (by omega),
      map_cons, ← hpayees]
    rfl

/-- Over as many quiet blocks as the valid masternodes weigh, each of them is paid as often as it
weighs, wherever in its consecutive payments the last payee was. -/
theorem count_payees_eq_votingWeight (E : Env) (Q : BlockContext → CBlock → CDeterministicMNList → Prop)
    (b b' : CBlockIndex) (l l' : CDeterministicMNList) (payees : List (Option Uint256))
    (hreach : Reachable E Q b l) (hpos : 0 < l.getValidWeightedMNsCount)
    (hrun : QuietRun E b l payees b' l') (hlen : payees.length = l.getValidWeightedMNsCount)
    (p : Uint256) (d : CDeterministicMN) (hget : l.mnMap[p]? = some d) (hvalid : isMNValidEntry d = true) :
    payees.count (some p) = d.nType.params.votingWeight := by
  have hreach : Reachable E (fun _ _ _ => True) b l := hreach.mono fun _ _ _ _ => trivial
  have hne : payees ≠ [] := by
    rintro rfl
    rw [length_nil] at hlen
    omega
  obtain ⟨x, hx, -, -, hlength, heq⟩ := hrun.payees_eq_take hreach hne hlen.le
  have hkeyed := hreach.sound.indexed.keyed
  have hmem : d ∈ l.forEachMN true := mem_forEachMN.mpr ⟨⟨p, hget⟩, fun _ => hvalid⟩
  rw [hlen, ← hlength, take_length] at heq
  rw [heq, count_map_of_injective _ some (Option.some_injective _), ← hkeyed p d hget,
    (roundOfPayments_perm hkeyed hreach.payable hx).count_eq, ← hashes_spread hkeyed fun _ h => h, hashes,
    count_flatMap_replicate (hkeyed.nodup_forEachMN true), if_pos (mem_map_of_mem hmem),
    weightOf_eq (hkeyed.get_of_mem hmem)]

/-! ### A concrete run -/

def quietPayees : ℕ → CBlockIndex × CDeterministicMNList → List (Option Uint256)
  | 0, _ => []
  | n + 1, s => (s.2.getMNPayee sampleEnv s.1).map (·.proTxHash) :: quietPayees n (emptyNext sampleEnv s)

def validities (l : CDeterministicMNList) : List (Uint256 × Bool) :=
  l.mnMap.toList.map fun x => (x.1, isMNValidEntry x.2)

theorem mem_validities : (p, true) ∈ validities l ↔ l.isMNValid p = true := by
  simp only [validities, mem_map, Prod.mk.injEq, Prod.exists, isMNValid_iff]
  constructor
  · rintro ⟨q, d, hmem, rfl, hvalid⟩
    exact ⟨d, Std.ExtTreeMap.mem_toList_iff_getElem?_eq_some.mp hmem, hvalid⟩
  · rintro ⟨d, hd, hvalid⟩
    exact ⟨p, d, Std.ExtTreeMap.mem_toList_iff_getElem?_eq_some.mpr hd, rfl, hvalid⟩

/-- Whether the next blocks of the chain are accepted and quiet. -/
def quietChecks : ℕ → CBlockIndex × CDeterministicMNList → Bool
  | 0, _ => true
  | n + 1, s =>
    (processSpecialTxsInBlock sampleEnv (sampleContext s.1) ⟨[sampleCoinbase 99]⟩ s.2 true).isOk &&
      (s.2.mnMap[(99 : Uint256)]?).isNone && decide (2 ≤ s.1.nHeight + 1) &&
      decide (validities (listAfter sampleEnv (sampleContext s.1) ⟨[sampleCoinbase 99]⟩ s.2) =
        validities s.2) && quietChecks n (emptyNext sampleEnv s)

theorem quietRun_of_checks {n : ℕ} {s : CBlockIndex × CDeterministicMNList} (hchecks : quietChecks n s = true) :
    ∃ b' l', QuietRun sampleEnv s.1 s.2 (quietPayees n s) b' l' := by
  induction n generalizing s with
  | zero => exact ⟨s.1, s.2, .nil s.1 s.2⟩
  | succ n ih =>
    simp only [quietChecks, Bool.and_eq_true, decide_eq_true_eq] at hchecks
    obtain ⟨⟨⟨⟨hok, hfresh⟩, hactive⟩, hvalid⟩, hrest⟩ := hchecks
    obtain ⟨b', l', hrun⟩ := ih hrest
    have hacc := accepted_listAfter hok (by simpa [sampleCoinbase] using hfresh)
    have hquiet : QuietBlock sampleEnv (sampleContext s.1) ⟨[sampleCoinbase 99]⟩ s.2
        (listAfter sampleEnv (sampleContext s.1) ⟨[sampleCoinbase 99]⟩ s.2) := by
      refine ⟨rfl, by simp, by simp, fun p => ?_⟩
      rw [Bool.eq_iff_iff, ← mem_validities, ← mem_validities, hvalid]
    have hstep := QuietStep.connect (BitVec.ofNat 256 (s.1.height + 100)) hactive hacc hquiet
    exact ⟨b', l', .cons hstep hrun⟩

/-- The next block, in which the high-performance masternode receives its first payment. -/
def servedStart : CBlockIndex × CDeterministicMNList :=
  emptyNext sampleEnv (sampleTip₂, servedList)

theorem reachable_servedStart : Reachable sampleEnv (fun _ _ _ => True) servedStart.1 servedStart.2 :=
  reachable_servedList.next _ _ (by decide) (by decide +kernel) (by decide +kernel)

/-- A run that begins after the first of ten consecutive payments: over eleven blocks the
high-performance masternode is paid ten times. -/
theorem count_payees_eq_votingWeight_partway :
    ∃ d, servedStart.2.mnMap[(10 : Uint256)]? = some d ∧ d.nType = .highPerformance ∧
      d.pdmnState.nConsecutivePayments = 1 ∧ (quietPayees 11 servedStart).count (some 10) = 10 := by
  have hfields : (servedStart.2.mnMap[(10 : Uint256)]?).map (fun d =>
      (d.nType, d.pdmnState.nConsecutivePayments, isMNValidEntry d)) =
        some (.highPerformance, 1, true) := by decide +kernel
  obtain ⟨d, hd, hfields⟩ := Option.map_eq_some_iff.mp hfields
  simp only [Prod.mk.injEq] at hfields
  obtain ⟨htype, hcount, hvalid⟩ := hfields
  have hlen : (quietPayees 11 servedStart).length = servedStart.2.getValidWeightedMNsCount := by
    decide +kernel
  have hpos : 0 < servedStart.2.getValidWeightedMNsCount := by decide +kernel
  have hchecks : quietChecks 11 servedStart = true := by decide +kernel
  obtain ⟨b', l', hrun⟩ := quietRun_of_checks hchecks
  refine ⟨d, hd, htype, hcount, ?_⟩
  rw [count_payees_eq_votingWeight sampleEnv _ _ b' _ l' _ reachable_servedStart hpos hrun hlen 10 d hd hvalid, htype]
  rfl

end OmegaCore.Evo
