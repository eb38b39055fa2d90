import OmegaCore.Evo.DiffReplay

/-!
Operator authorization of service updates.  A `ProUpServTx` is checked against the
operator key of the previous block's list and applied to the list as changed by the
earlier transactions of its block.  The two keys agree for every service update of a
block exactly if each update that takes effect is signed by the operator the
masternode has at that point.
-/

namespace OmegaCore.Evo

open Util CDeterministicMNList

variable {E : Env} {ctx : BlockContext} {block : CBlock} {checkSigs : Bool}
variable {old new l l' : CDeterministicMNList} {tx : CTransaction} {txs pre post : List CTransaction}
variable {d d' : CDeterministicMN} {p : Uint256} {ptx : CProUpServTx}

/-- The list that the transactions after `pre` are applied to. -/
def listAfterTxs (E : Env) (ctx : BlockContext) (old : CDeterministicMNList) (pre : List CTransaction) :
    Except BlockError CDeterministicMNList := do
  let newList ← liftThrown (beforeTxs E ctx old)
  processTxs E ctx newList pre

theorem listAfterTxs_eq (hold : old.Keyed) (pre : List CTransaction) :
    listAfterTxs E ctx old pre = processTxs E ctx (listBeforeTxs E ctx old) pre := by
  rw [listAfterTxs, beforeTxs_eq hold]
  rfl

/-- The update changes the address or the operator's payout script, or revives the masternode. -/
def TakesEffect (nHeight : Int) (s : CDeterministicMNState) (ptx : CProUpServTx) : Prop :=
  (proUpServState nHeight s ptx).addr ≠ s.addr ∨
    (proUpServState nHeight s ptx).scriptOperatorPayout ≠ s.scriptOperatorPayout ∨
    (s.isBanned = true ∧ (proUpServState nHeight s ptx).isBanned = false)

/-- `tx` is a service update at this place of the block. -/
structure ServiceUpdate (block : CBlock) (pre : List CTransaction) (tx : CTransaction)
    (post : List CTransaction) (ptx : CProUpServTx) : Prop where
  place : block.vtx.drop 1 = pre ++ tx :: post
  version : tx.nVersion = 3
  payload : tx.payload = .proUpServ (some ptx)

/-- Every service update that takes effect verifies under the operator key its masternode has in
the list it is applied to. -/
def OperatorAuthorized (E : Env) (ctx : BlockContext) (block : CBlock) (old : CDeterministicMNList) : Prop :=
  ∀ pre tx post ptx l d, ServiceUpdate block pre tx post ptx → listAfterTxs E ctx old pre = .ok l →
    l.mnMap[ptx.proTxHash]? = some d → TakesEffect ctx.nHeight d.pdmnState ptx →
      E.verifyInsecure ctx.blsLegacyScheme ptx.sig d.pdmnState.pubKeyOperator.get (E.hashProUpServTx ptx) = true

/-- No service update comes after registrar updates and revocations in its block that leave its
masternode with another operator key. -/
def KeepsOperators (block : CBlock) (old : CDeterministicMNList) : Prop :=
  ∀ pre tx post ptx d, ServiceUpdate block pre tx post ptx → old.mnMap[ptx.proTxHash]? = some d →
    (operatorKeyAfter ptx.proTxHash d.pdmnState.pubKeyOperator pre).get = d.pdmnState.pubKeyOperator.get

/-- A signature of a message belongs to one key at most. -/
def OneSigner (E : Env) : Prop :=
  ∀ legacy sig key key' hash, E.blsVerify legacy sig key hash = true →
    E.blsVerify legacy sig key' hash = true → key = key'

theorem OneSigner.verifyInsecure (hsig : OneSigner E) {legacy : Bool} {sig : CBLSSignature}
    {key key' : CBLSPublicKey} {hash : Uint256} (h : E.verifyInsecure legacy sig key hash = true)
    (h' : E.verifyInsecure legacy sig key' hash = true) : key = key' := by
  cases sig with
  | none => cases h
  | some s =>
    cases key with
    | none => cases h
    | some k =>
      cases key' with
      | none => cases h'
      | some k' => rw [hsig legacy s k k' hash h h']

/-! ### Addresses after a change of the key -/

/-- A transaction that is no service update keeps the default address, and one that changes the
operator key sets it. -/
theorem StateStep.addr_eq_default {s : CDeterministicMNState} (hs : StateStep E ctx tx d s)
    (hno : ∀ ptx, tx.nVersion = 3 → tx.payload = .proUpServ (some ptx) → ptx.proTxHash ≠ d.proTxHash)
    (h : d.pdmnState.addr = {} ∨ s.pubKeyOperator ≠ d.pdmnState.pubKeyOperator) : s.addr = {} := by
  cases hs with
  | keep => exact h.resolve_right fun hne => hne rfl
  | proUpServ ptx version payload proTxHash => exact absurd proTxHash.symm (hno ptx version payload)
  | proUpReg ptx =>
    have hban := resetOperatorFields_ban ctx.nHeight d.pdmnState
    simp only [proUpRegState] at h ⊢
    split_ifs at h ⊢
    · exact hban.addr.symm
    · exact h.resolve_right fun hne => hne rfl
  | proUpRev ptx => exact (resetOperatorFields_ban ctx.nHeight d.pdmnState).addr.symm
  | commitment qc base s payload update =>
    have hsame := update.same
    rcases h with haddr | hne
    · rw [← hsame.addr, haddr]
    · exact absurd hsame.pubKeyOperator.symm hne

/-- A key that differs from the one before the transactions was set after the last service update,
if every service update saw the key from before.  By induction from the end: the last transaction
set the key, or the key differed already. -/
theorem StateRun.addr_eq_default (hrun : StateRun E ctx txs d d')
    (hkey : d'.pdmnState.pubKeyOperator.get ≠ d.pdmnState.pubKeyOperator.get)
    (hserved : ∀ pre tx post ptx, txs = pre ++ tx :: post → tx.nVersion = 3 →
      tx.payload = .proUpServ (some ptx) → ptx.proTxHash = d.proTxHash →
      (operatorKeyAfter d.proTxHash d.pdmnState.pubKeyOperator pre).get =
        d.pdmnState.pubKeyOperator.get) : d'.pdmnState.addr = {} := by
  induction txs using List.reverseRecOn generalizing d' with
  | nil =>
    cases hrun
    exact absurd rfl hkey
  | append_singleton txs tx ih =>
    obtain ⟨d₁, s, hpre, hstep, rfl⟩ := hrun.snoc
    have hid : d₁.proTxHash = d.proTxHash := by rw [hpre.identity]
    have hkey₁ := hpre.operatorKeyAfter_eq
    have hkeystep := hstep.operatorKeyStep_eq
    refine hstep.addr_eq_default (fun ptx hver hpay heq => ?_) ?_
    · -- a service update here would have seen the key from before, and does not change it
      have hseen := hserved txs tx [] ptx rfl hver hpay (heq.trans hid)
      rw [← hkey₁] at hseen
      have hsame : s.pubKeyOperator = d₁.pdmnState.pubKeyOperator := by
        rw [hkeystep]
        simp [operatorKeyStep, hver, hpay]
      rw [hsame] at hkey
      exact hkey hseen
    · by_cases hdiff : d₁.pdmnState.pubKeyOperator.get = d.pdmnState.pubKeyOperator.get
      · exact .inr fun heq => hkey (by rw [heq, hdiff])
      · refine .inl (ih hpre hdiff fun pre t post ptx heq => hserved pre t (post ++ [tx]) ptx ?_)
        rw [heq]
        simp

/-! ### Service updates of an accepted block -/

/-- A service update of an accepted block: what it was checked against and what it is applied to. -/
structure Applied (E : Env) (ctx : BlockContext) (old : CDeterministicMNList) (checkSigs : Bool)
    (pre : List CTransaction) (ptx : CProUpServTx) (l : CDeterministicMNList) (d₀ d : CDeterministicMN) :
    Prop where
  checked : ProUpServChecked E ctx old checkSigs ptx d₀
  before : listAfterTxs E ctx old pre = .ok l
  stored : l.mnMap[ptx.proTxHash]? = some d
  states : StateRun E ctx pre { d₀ with pdmnState := beforeState E ctx d₀ } d

theorem Applied.pubKeyOperator (h : Applied E ctx old checkSigs pre ptx l d d') (hold : old.Keyed) :
    d'.pdmnState.pubKeyOperator = operatorKeyAfter ptx.proTxHash d.pdmnState.pubKeyOperator pre := by
  have hbefore : (beforeState E ctx d).pubKeyOperator = d.pdmnState.pubKeyOperator :=
    (beforeState_same d).pubKeyOperator.symm
  rw [h.states.operatorKeyAfter_eq, hbefore, hold _ d h.checked.get]

theorem Accepted.applied (hacc : Accepted E ctx block checkSigs old new) (hold : Sound E old)
    (hupd : ServiceUpdate block pre tx post ptx) : ∃ l d₀ d, Applied E ctx old checkSigs pre ptx l d₀ d := by
  have htx : tx ∈ block.vtx := List.mem_of_mem_drop (i := 1) (by rw [hupd.place]; simp)
  obtain ⟨d₀, hchecked⟩ := hacc.proUpServ htx hupd.version hold.indexed hupd.payload
  obtain ⟨l₁, l₂, hrun⟩ := buildNewListFromBlock_ok hold.indexed hacc.built
  have hprocessed := hrun.processed
  rw [hupd.place, processTxs, List.foldlM_append, bind_eq_ok] at hprocessed
  obtain ⟨l, hpre, hrest⟩ := hprocessed
  rw [List.foldlM_cons, bind_eq_ok] at hrest
  obtain ⟨l', hstep, -⟩ := hrest
  have hstored : ∃ d, l.mnMap[ptx.proTxHash]? = some d := by
    cases processTx_step hstep with
    | skip idle => simp [Idle, hupd.version, hupd.payload] at idle
    | proReg ptx' l₁ _ _ payload => simp [hupd.payload] at payload
    | proUpServ ptx' dmn _ _ payload stored =>
      rw [hupd.payload] at payload
      cases payload
      exact ⟨dmn, stored⟩
    | proUpReg ptx' dmn _ _ payload => simp [hupd.payload] at payload
    | proUpRev ptx' dmn _ _ payload => simp [hupd.payload] at payload
    | commitment qc base _ _ payload => simp [hupd.payload] at payload
  obtain ⟨d, hd⟩ := hstored
  refine ⟨l, d₀, d, hchecked, (listAfterTxs_eq hold.indexed.keyed pre).trans hpre, hd, ?_⟩
  have hget := hchecked.get
  refine processTxs_stateRun (inBlock_listBeforeTxs hold.indexed) (fun t ht => ?_) (get_listBeforeTxs hget) hpre hd
  exact hacc.ne_hash hget (by rw [hupd.place]; simp [ht])

/-- For every list of a chain and every accepted block with signature checks: the service updates
that take effect are authorized by the operators they find if and only if no service update finds
another operator than the previous list has.  A signature belongs to one key, and the default
address is not a valid one. -/
theorem operatorAuthorized_iff (E : Env) (Q : BlockContext → CBlock → CDeterministicMNList → Prop)
    (ctx : BlockContext) (block : CBlock) (old new : CDeterministicMNList)
    (hreach : Reachable E Q ctx.pindexPrev old) (hacc : Accepted E ctx block true old new)
    (hsig : OneSigner E) (haddr : E.addrIsValid {} = false) :
    OperatorAuthorized E ctx block old ↔ KeepsOperators block old := by
  have hold := hreach.sound
  have hkeyed := hold.indexed.keyed
  constructor
  · -- by induction on the place: the first update with another key would take effect
    intro hauth pre
    induction hlen : pre.length using Nat.strong_induction_on generalizing pre with
    | h n ih =>
      intro tx post ptx d hupd hd
      obtain ⟨l, d₀, d', happ⟩ := hacc.applied hold hupd
      have hget := happ.checked.get
      rw [hd, Option.some.injEq] at hget
      subst hget
      by_contra hne
      rw [← happ.pubKeyOperator hkeyed] at hne
      have hbefore : (beforeState E ctx d).pubKeyOperator = d.pdmnState.pubKeyOperator :=
        (beforeState_same d).pubKeyOperator.symm
      have hdefault : d'.pdmnState.addr = {} := by
        refine happ.states.addr_eq_default (by rwa [hbefore]) ?_
        intro pre' tx' post' ptx' hsplit hver hpay hp
        have hupd' : ServiceUpdate block pre' tx' (post' ++ tx :: post) ptx' :=
          ⟨by rw [hupd.place, hsplit]; simp, hver, hpay⟩
        have hp' : ptx'.proTxHash = ptx.proTxHash := hp.trans (hkeyed _ d hd)
        have hshort : pre'.length < n := by
          rw [← hlen, hsplit]
          simp
        have hkept := ih pre'.length hshort pre' rfl tx' (post' ++ tx :: post) ptx' d hupd' (hp' ▸ hd)
        rw [hp] at hkept
        rw [hbefore]
        exact hkept
      have heffect : TakesEffect ctx.nHeight d'.pdmnState ptx := by
        left
        rw [proUpServState_addr, hdefault]
        intro heq
        have hvalid := happ.checked.addrIsValid
        rw [heq, haddr] at hvalid
        cases hvalid
      have hverified := hauth pre tx post ptx l d' hupd happ.before happ.stored heffect
      exact hne (hsig.verifyInsecure hverified (happ.checked.sig rfl))
  · intro hkeeps pre tx post ptx l d hupd hl hd _
    obtain ⟨l', d₀, d', happ⟩ := hacc.applied hold hupd
    have hbefore := happ.before
    rw [hl, Except.ok.injEq] at hbefore
    subst hbefore
    have hstored := happ.stored
    rw [hd, Option.some.injEq] at hstored
    subst hstored
    rw [happ.pubKeyOperator hkeyed, hkeeps pre tx post ptx d₀ hupd happ.checked.get]
    exact happ.checked.sig rfl

/-! ### Concrete blocks -/

/-- A service update of the sample masternode, signed with the operator key it was registered with. -/
def sampleProUpServ (hash : Uint256) : CTransaction where
  hash := hash
  payload := .proUpServ (some { proTxHash := 10, addr := { net := .ipv4, port := 5 }, sig := some ⟨7⟩ })

theorem oneSigner_sampleEnv : OneSigner sampleEnv := by
  intro _ sig key key' _ h h'
  have hkey : sig.id = key.id.toNat := of_decide_eq_true h
  have hkey' : sig.id = key'.id.toNat := of_decide_eq_true h'
  exact congrArg G1Element.mk (BitVec.eq_of_toNat_eq (hkey.symm.trans hkey'))

theorem operatorAuthorized_serviceUpdate :
    OperatorAuthorized sampleEnv (sampleContext sampleTip₂) ⟨[sampleCoinbase 19, sampleProUpServ 20]⟩
      sampleList₂ := by
  refine (operatorAuthorized_iff sampleEnv _ (sampleContext sampleTip₂)
    ⟨[sampleCoinbase 19, sampleProUpServ 20]⟩ sampleList₂ _ reachable_sampleList₂
    (accepted_listAfter (by decide +kernel) (by decide +kernel)) oneSigner_sampleEnv rfl).mpr ?_
  intro pre tx post ptx d hupd _
  have hplace : [sampleProUpServ 20] = pre ++ tx :: post := hupd.place
  cases pre with
  | nil => rfl
  | cons t pre => simp at hplace

/-- A block in which the owner hands the masternode over to another operator, and the former operator
then updates its service. -/
def handOverAndUpdate : CBlock :=
  ⟨[sampleCoinbase 19, sampleProUpReg 20 (.valid false ⟨8⟩), sampleProUpServ 21]⟩

/-- The update of the former operator takes effect. -/
theorem operatorAuthorized_fails :
    Reachable sampleEnv (fun _ _ _ => True) sampleTip₂ sampleList₂ ∧
      (∃ new, Accepted sampleEnv (sampleContext sampleTip₂) handOverAndUpdate true sampleList₂ new) ∧
      ¬ OperatorAuthorized sampleEnv (sampleContext sampleTip₂) handOverAndUpdate sampleList₂ := by
  refine ⟨reachable_sampleList₂, ⟨_, accepted_listAfter (by decide +kernel) (by decide +kernel)⟩, fun hauth => ?_⟩
  have hstate : (listAfterTxs sampleEnv (sampleContext sampleTip₂) sampleList₂
      [sampleProUpReg 20 (.valid false ⟨8⟩)]).map (fun l => (l.mnMap[(10 : Uint256)]?).map fun d =>
        (d.pdmnState.addr, d.pdmnState.pubKeyOperator)) = .ok (some ({}, .valid false ⟨8⟩)) := by
    decide +kernel
  obtain ⟨l, hl, hentry⟩ := exists_of_map_eq_ok hstate
  obtain ⟨d, hd, hfields⟩ := Option.map_eq_some_iff.mp hentry
  simp only [Prod.mk.injEq] at hfields
  have hverified := hauth [sampleProUpReg 20 (.valid false ⟨8⟩)] (sampleProUpServ 21) [] _ l d
    ⟨rfl, rfl, rfl⟩ hl hd (.inl (by rw [proUpServState_addr, hfields.1]; decide))
  rw [hfields.2] at hverified
  exact absurd hverified (by decide)

end OmegaCore.Evo
