import OmegaCore.Evo.Chain

/-!
The property values a block deals with, and how their slots move.  Hashing is a
parameter, so the results here assume that the finitely many property values that
occur in the previous list and in the block do not collide.  Then a collateral is
found under its own hash only, and a slot that a masternode takes over from another
one of the previous list comes with that masternode's collateral: this is what the
checks against the previous list are for.
-/

namespace OmegaCore.Evo

open Util CDeterministicMNList List

section Values

variable {T : Type} [UniqueProperty T] {C : Codec}

def propertyBytes (C : Codec) (v : T) : List PropertyBytes :=
  if isNullValue v then [] else [UniqueProperty.serialize C v]

theorem propertyHashes_eq (v : T) : propertyHashes C v = (propertyBytes C v).map C.serializeHash := by
  unfold propertyHashes propertyBytes
  split_ifs <;> rfl

end Values

variable {C : Codec}

def stateProperties (C : Codec) (nType : MnType) (s : CDeterministicMNState) : List PropertyBytes :=
  propertyBytes C s.addr ++ propertyBytes C s.keyIDOwner ++ propertyBytes C s.pubKeyOperator ++
    if nType = .highPerformance then propertyBytes C s.platformNodeID else []

def properties (C : Codec) (d : CDeterministicMN) : List PropertyBytes :=
  .outPoint d.collateralOutpoint :: stateProperties C d.nType d.pdmnState

theorem stateSlots_eq (nType : MnType) (s : CDeterministicMNState) :
    stateSlots C nType s = (stateProperties C nType s).map C.serializeHash := by
  simp only [stateSlots, stateProperties, propertyHashes_eq, map_append]
  split_ifs <;> rfl

theorem slots_eq (d : CDeterministicMN) : slots C d = (properties C d).map C.serializeHash := by
  rw [slots, stateSlots_eq]
  rfl

variable {nType : MnType} {s s' : CDeterministicMNState}

theorem stateProperties_congr (h : s.SameProperties s') : stateProperties C nType s = stateProperties C nType s' := by
  rw [stateProperties, stateProperties, h.addr, h.keyIDOwner, h.pubKeyOperator, h.platformNodeID]

def txProperties (C : Codec) (tx : CTransaction) : List PropertyBytes :=
  match tx.payload with
  | .proReg (some ptx) => .outPoint (proRegCollateral tx ptx) ::
      stateProperties C ptx.nType (CDeterministicMNState.ofProRegTx ptx)
  | .proUpServ (some ptx) => propertyBytes C ptx.addr ++ propertyBytes C ptx.platformNodeID
  | .proUpReg (some ptx) => propertyBytes C ptx.pubKeyOperator
  | _ => []

def Occurs (C : Codec) (old : CDeterministicMNList) (block : CBlock) (x : PropertyBytes) : Prop :=
  (∃ (p : Uint256) (d : CDeterministicMN), old.mnMap[p]? = some d ∧ x ∈ properties C d) ∨
    ∃ tx ∈ block.vtx, x ∈ txProperties C tx

/-- No two different values that occur have the same hash. -/
def NoCollisions (C : Codec) (old : CDeterministicMNList) (block : CBlock) : Prop :=
  ∀ x y, Occurs C old block x → Occurs C old block y → C.serializeHash x = C.serializeHash y → x = y

variable {E : Env} {ctx : BlockContext} {block : CBlock} {checkSigs : Bool} {tx : CTransaction}
variable {old new l l' : CDeterministicMNList} {d : CDeterministicMN} {p q : Uint256}

def occurring (C : Codec) (old : CDeterministicMNList) (block : CBlock) : List PropertyBytes :=
  (old.forEachMN false).flatMap (properties C) ++ block.vtx.flatMap (txProperties C)

theorem noCollisions_of_occurring (h : ∀ x ∈ occurring C old block, ∀ y ∈ occurring C old block,
    C.serializeHash x = C.serializeHash y → x = y) : NoCollisions C old block := by
  have hmem {x : PropertyBytes} (hx : Occurs C old block x) : x ∈ occurring C old block := by
    rw [occurring, mem_append, mem_flatMap, mem_flatMap]
    rcases hx with ⟨p, d, hd, hx⟩ | ⟨tx, htx, hx⟩
    · exact .inl ⟨d, mem_forEachMN.mpr ⟨⟨p, hd⟩, by simp⟩, hx⟩
    · exact .inr ⟨tx, htx, hx⟩
  exact fun x y hx hy => h x (hmem hx) y (hmem hy)

/-! ### Where the values of a step come from -/

theorem proUpServState_addr (nHeight : Int) (s : CDeterministicMNState) (ptx : CProUpServTx) :
    (proUpServState nHeight s ptx).addr = ptx.addr := by
  simp only [proUpServState]
  split_ifs <;> rfl

theorem proUpServState_platformNodeID (nHeight : Int) (s : CDeterministicMNState) (ptx : CProUpServTx) :
    (proUpServState nHeight s ptx).platformNodeID =
      if ptx.nType = .highPerformance then ptx.platformNodeID else s.platformNodeID := by
  simp only [proUpServState]
  split_ifs <;> rfl

variable {x : PropertyBytes}

/-- Clearing the operator fields and putting in another key. -/
theorem stateProperties_reset (haddr : s'.addr = {})
    (hnode : s'.platformNodeID = 0) (howner : s'.keyIDOwner = s.keyIDOwner) (hx : x ∈ stateProperties C nType s') :
    x ∈ stateProperties C nType s ∨ x ∈ propertyBytes C s'.pubKeyOperator := by
  have hnull : propertyBytes C ({} : CService) = [] := rfl
  have hnull' : propertyBytes C (0 : Uint160) = [] := rfl
  simp only [stateProperties, haddr, hnode, howner, hnull, hnull', ite_self, mem_append,
    not_mem_nil, false_or, or_false] at hx ⊢
  tauto

theorem proUpRegState_properties (nHeight : Int) (s : CDeterministicMNState) (ptx : CProUpRegTx)
    (hx : x ∈ stateProperties C nType (proUpRegState nHeight s ptx)) :
    x ∈ stateProperties C nType s ∨ x ∈ propertyBytes C ptx.pubKeyOperator := by
  by_cases hkey : s.pubKeyOperator.eq ptx.pubKeyOperator = true
  · left
    have hsame : s.SameProperties (proUpRegState nHeight s ptx) := by
      simp only [proUpRegState, hkey]
      exact ⟨rfl, rfl, rfl, rfl⟩
    rwa [stateProperties_congr hsame]
  · have hstate := resetOperatorFields_ban nHeight s
    rw [Bool.not_eq_true] at hkey
    have hnew : (proUpRegState nHeight s ptx).pubKeyOperator = ptx.pubKeyOperator := by
      rw [proUpRegState_pubKeyOperator, hkey]
      rfl
    rw [← hnew]
    refine stateProperties_reset ?_ ?_ (proUpRegState_keyIDOwner _ _ _) hx
    · simp only [proUpRegState, hkey]
      exact hstate.addr.symm
    · simp only [proUpRegState, hkey]
      exact hstate.platformNodeID.symm

theorem proUpRevState_properties (nHeight : Int) (s : CDeterministicMNState) (ptx : CProUpRevTx)
    (hx : x ∈ stateProperties C nType (proUpRevState nHeight s ptx)) : x ∈ stateProperties C nType s := by
  have hstate := resetOperatorFields_ban nHeight s
  have haddr : (proUpRevState nHeight s ptx).addr = {} := hstate.addr.symm
  have hnode : (proUpRevState nHeight s ptx).platformNodeID = 0 := hstate.platformNodeID.symm
  rcases stateProperties_reset haddr hnode (proUpRevState_keyIDOwner nHeight s ptx) hx with hx | hx
  · exact hx
  · rw [proUpRevState_pubKeyOperator] at hx
    cases hx

theorem proUpServState_properties (nHeight : Int) (s : CDeterministicMNState)
    (ptx : CProUpServTx) (htype : ptx.nType = nType)
    (hx : x ∈ stateProperties C nType (proUpServState nHeight s ptx)) :
    x ∈ stateProperties C nType s ∨ x ∈ propertyBytes C ptx.addr ∨
      (ptx.nType = .highPerformance ∧ x ∈ propertyBytes C ptx.platformNodeID) := by
  simp only [stateProperties, proUpServState_addr, proUpServState_keyIDOwner,
    proUpServState_pubKeyOperator, proUpServState_platformNodeID, mem_append, htype] at hx ⊢
  by_cases hp : nType = .highPerformance
  · simp only [hp, if_true] at hx ⊢
    tauto
  · simp only [hp, if_false, not_mem_nil, or_false] at hx ⊢
    tauto

/-- A value of a masternode after a step is one it had before, or comes from the transaction. -/
theorem StateStep.properties {s : CDeterministicMNState} (h : StateStep E ctx tx d s)
    (hx : x ∈ stateProperties C d.nType s) :
    x ∈ stateProperties C d.nType d.pdmnState ∨
      (∃ ptx, tx.nVersion = 3 ∧ tx.payload = .proUpServ (some ptx) ∧ d.proTxHash = ptx.proTxHash ∧
        (x ∈ propertyBytes C ptx.addr ∨ (ptx.nType = .highPerformance ∧ x ∈ propertyBytes C ptx.platformNodeID))) ∨
      ∃ ptx, tx.nVersion = 3 ∧ tx.payload = .proUpReg (some ptx) ∧ d.proTxHash = ptx.proTxHash ∧
        x ∈ propertyBytes C ptx.pubKeyOperator := by
  cases h with
  | keep => exact .inl hx
  | proUpServ ptx version payload proTxHash nType =>
    rcases proUpServState_properties _ _ _ nType hx with hx | hx
    · exact .inl hx
    · exact .inr (.inl ⟨ptx, version, payload, proTxHash, hx⟩)
  | proUpReg ptx version payload proTxHash =>
    rcases proUpRegState_properties _ _ _ hx with hx | hx
    · exact .inl hx
    · exact .inr (.inr ⟨ptx, version, payload, proTxHash, hx⟩)
  | proUpRev ptx => exact .inl (proUpRevState_properties _ _ _ hx)
  | commitment qc base s payload update =>
    rw [stateProperties_congr update.same]
    exact .inl hx

/-! ### Values that occur -/

/-- Every value of every masternode of `l` occurs in the old list or in the block. -/
def AllOccur (C : Codec) (old : CDeterministicMNList) (block : CBlock) (l : CDeterministicMNList) : Prop :=
  ∀ (p : Uint256) d, l.mnMap[p]? = some d → ∀ x ∈ properties C d, Occurs C old block x

theorem proRegEntry_properties (nHeight : Int) (l : CDeterministicMNList) (tx : CTransaction) (ptx : CProRegTx) :
    properties C (proRegEntry nHeight l tx ptx) = .outPoint (proRegCollateral tx ptx) ::
      stateProperties C ptx.nType (CDeterministicMNState.ofProRegTx ptx) := by
  rw [stateProperties_congr (proRegEntry_state_same nHeight l tx ptx)]
  rfl

theorem allOccur_listBeforeTxs : AllOccur C old block (listBeforeTxs E ctx old) := by
  intro p d' hget x hx
  obtain ⟨d, hd, rfl⟩ := listBeforeTxs_get hget
  refine .inl ⟨p, d, hd, ?_⟩
  have hsame : d.pdmnState.SameProperties (beforeState E ctx d) := beforeState_same d
  rw [properties, stateProperties_congr hsame]
  exact hx

theorem TxStep.allOccur (hstep : TxStep E ctx l tx l') (hl : InBlock E ctx l) (htx : tx ∈ block.vtx)
    (hocc : AllOccur C old block l) : AllOccur C old block l' := by
  intro p d' hget x hx
  have hsrc (hmem : x ∈ txProperties C tx) : Occurs C old block x := .inr ⟨tx, htx, hmem⟩
  rcases hstep.entry hl hget with ⟨d, hd, s, hs, rfl⟩ | ⟨ptx, -, hpay, -, rfl, -⟩
  · rcases mem_cons.mp hx with rfl | hx
    · exact hocc p d hd _ mem_cons_self
    · rcases hs.properties hx with hx | ⟨ptx, -, hpay, -, hx | ⟨-, hx⟩⟩ | ⟨ptx, -, hpay, -, hx⟩
      · exact hocc p d hd x (mem_cons_of_mem _ hx)
      · exact hsrc (by simp [txProperties, hpay, hx])
      · exact hsrc (by simp [txProperties, hpay, hx])
      · exact hsrc (by simp [txProperties, hpay, hx])
  · rw [proRegEntry_properties] at hx
    exact hsrc (by simpa only [txProperties, hpay] using hx)

/-- Without collisions, a masternode whose slots contain the hash of a registration's collateral has
that collateral. -/
theorem NoCollisions.collateral (hno : NoCollisions C old block) (hocc : AllOccur C old block l)
    (hget : l.mnMap[p]? = some d) (htx : tx ∈ block.vtx) {ptx : CProRegTx} (hpay : tx.payload = .proReg (some ptx))
    (hmem : getUniquePropertyHash C (proRegCollateral tx ptx) ∈ slots C d) :
    d.collateralOutpoint = proRegCollateral tx ptx := by
  rw [slots_eq, mem_map] at hmem
  obtain ⟨x, hx, hhash⟩ := hmem
  have hcol : Occurs C old block (.outPoint (proRegCollateral tx ptx)) :=
    .inr ⟨tx, htx, by simp [txProperties, hpay]⟩
  have heq : x = .outPoint (proRegCollateral tx ptx) := hno x _ (hocc p d hget x hx) hcol hhash
  rw [heq] at hx
  rcases mem_cons.mp hx with hx | hx
  · exact (PropertyBytes.outPoint.inj hx).symm
  · -- the other values are no outpoints
    simp only [stateProperties, propertyBytes, mem_append] at hx
    split_ifs at hx <;> simp [UniqueProperty.serialize] at hx
    all_goals cases hkey : d.pdmnState.pubKeyOperator <;> simp [hkey] at hx

/-! ### Slots taken over from the previous list -/

/-- A slot that was another masternode's in the old list comes with that one's collateral. -/
def TakenWithCollateral (C : Codec) (old l : CDeterministicMNList) : Prop :=
  ∀ (p q : Uint256) d e h, l.mnMap[p]? = some d → old.mnMap[q]? = some e → h ∈ slots C d →
    h ∈ slots C e → q = p ∨ d.collateralOutpoint = e.collateralOutpoint

theorem takenWithCollateral_listBeforeTxs (hold : Indexed E.toCodec old) :
    TakenWithCollateral E.toCodec old (listBeforeTxs E ctx old) := by
  intro p q d' e h hget he hh hh'
  obtain ⟨d, hd, rfl⟩ := listBeforeTxs_get hget
  rw [slots_setState, ← stateSlots_congr (beforeState_same d)] at hh
  left
  by_contra hqp
  exact hold.slots_disjoint hd he (Ne.symm hqp) hh hh'

theorem hash_of_mem_propertyBytes {T : Type} [UniqueProperty T] {v : T}
    (hx : x ∈ propertyBytes C v) : C.serializeHash x = getUniquePropertyHash C v := by
  unfold propertyBytes at hx
  split_ifs at hx
  · cases hx
  · rw [mem_singleton.mp hx]
    rfl

/-- What a registration takes from the old list belonged to a masternode with its collateral. -/
theorem ProRegUnique.taken {ptx : CProRegTx} (hunique : ProRegUnique E old tx ptx)
    (hx : x ∈ stateProperties E.toCodec ptx.nType (CDeterministicMNState.ofProRegTx ptx))
    {e : CDeterministicMN} (he : old.mnMap[q]? = some e)
    (hmem : E.serializeHash x ∈ slots E.toCodec e) : e.collateralOutpoint = proRegCollateral tx ptx := by
  simp only [stateProperties, mem_append] at hx
  rcases hx with ((hx | hx) | hx) | hx
  · rw [hash_of_mem_propertyBytes hx] at hmem
    exact hunique.addr q e he hmem
  · rw [hash_of_mem_propertyBytes hx] at hmem
    exact absurd hmem (hunique.keyIDOwner q e he)
  · rw [hash_of_mem_propertyBytes hx] at hmem
    exact absurd hmem (hunique.pubKeyOperator q e he)
  · split_ifs at hx with hp
    · rw [hash_of_mem_propertyBytes hx] at hmem
      exact absurd hmem (hunique.platformNodeID hp q e he)
    · cases hx

/-- One transaction of an accepted block takes slots over with their collateral only. -/
theorem TxStep.takenWithCollateral (hstep : TxStep E ctx l tx l') (hl : InBlock E ctx l)
    (hold : Indexed E.toCodec old) (hacc : Accepted E ctx block checkSigs old new)
    (htx : tx ∈ block.vtx) (hno : NoCollisions E.toCodec old block)
    (hinv : TakenWithCollateral E.toCodec old l) : TakenWithCollateral E.toCodec old l' := by
  intro p q d' e h hget he hh hh'
  rw [slots_eq, mem_map] at hh
  obtain ⟨x, hx, rfl⟩ := hh
  rcases hstep.entry hl hget with ⟨d, hd, s, hs, rfl⟩ | ⟨ptx, hver, hpay, rfl, rfl, -⟩
  · have hbefore (hx : x ∈ properties E.toCodec d) : q = p ∨ d.collateralOutpoint = e.collateralOutpoint :=
      hinv p q d e _ hd he (slots_eq d ▸ mem_map_of_mem hx) hh'
    have hkey : d.proTxHash = p := hl.indexed.proTxHash p d hd
    rcases mem_cons.mp hx with rfl | hx
    · exact hbefore mem_cons_self
    · rcases hs.properties hx with hx | ⟨ptx, hver, hpay, hp, hx⟩ | ⟨ptx, hver, hpay, hp, hx⟩
      · exact hbefore (mem_cons_of_mem _ hx)
      · obtain ⟨_, hchecked⟩ := hacc.proUpServ htx hver hold hpay
        rcases hx with hx | ⟨htype, hx⟩
        · rw [hash_of_mem_propertyBytes hx] at hh'
          exact .inl ((hchecked.addr q e he hh').trans (hp.symm.trans hkey))
        · rw [hash_of_mem_propertyBytes hx] at hh'
          exact .inl ((hchecked.platformNodeID htype q e he hh').trans (hp.symm.trans hkey))
      · obtain ⟨_, hchecked⟩ := hacc.proUpReg htx hver hold hpay
        rw [hash_of_mem_propertyBytes hx] at hh'
        exact .inl ((hchecked.pubKeyOperator q e he hh').trans (hp.symm.trans hkey))
  · right
    rw [proRegEntry_properties] at hx
    rcases mem_cons.mp hx with rfl | hx
    · have hocc : AllOccur E.toCodec old block old := fun q e he x hx => .inl ⟨q, e, he, hx⟩
      exact (hno.collateral hocc he htx hpay hh').symm
    · exact ((hacc.proReg htx hver hold hpay).taken hx he hh').symm

theorem Accepted.apartFrom (hacc : Accepted E ctx block checkSigs old new) (hold : Sound E old)
    (hno : NoCollisions E.toCodec old block) : ApartFrom E.toCodec old new := by
  obtain ⟨l₁, l₂, hrun⟩ := buildNewListFromBlock_ok hold.indexed hacc.built
  have hl₁ : InBlock E ctx l₁ ∧ TakenWithCollateral E.toCodec old l₁ :=
    processTxs_preserves (P := fun l => InBlock E ctx l ∧ TakenWithCollateral E.toCodec old l)
      (fun tx htx l l' hP hstep => ⟨hstep.inBlock hP.1, hstep.takenWithCollateral hP.1 hold.indexed hacc
        (mem_of_mem_drop htx) hno hP.2⟩)
      ⟨inBlock_listBeforeTxs hold.indexed, takenWithCollateral_listBeforeTxs hold.indexed⟩ hrun.processed
  have hnew := (hrun.inBlock hold.indexed).indexed
  intro p q d e f he hd hf hpq h hh hh'
  obtain ⟨e₁, s, he₁, hsame, rfl⟩ := hrun.entry hold.indexed he
  rw [slots_setState, ← stateSlots_congr hsame] at hh
  rcases hl₁.2 p q e₁ d h he₁ hd hh hh' with hqp | hcol
  · exact hpq hqp.symm
  · have hf' : f.collateralOutpoint = d.collateralOutpoint := by
      rw [hacc.sameIdentity hold q d f hd hf]
    exact hnew.collateral_ne he hf hpq (hcol.trans hf'.symm)

end OmegaCore.Evo
