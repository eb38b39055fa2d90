import OmegaCore.Evo.MNListIndex

/-!
Runs of list operations.  A run starts from an empty list and applies the
operations in order; one that throws leaves behind the list its exception carries.
Along a run in which no update merely re-encodes the stored operator key, both
indexes of the list are exactly what its entries say.
-/

namespace OmegaCore.Evo.CDeterministicMNList

open Util

/-- A call of one of the operations that change a list.  Updates name the stored entry. -/
inductive ListOp where
  | addMN (dmn : CDeterministicMN) (fBumpTotalCount : Bool)
  | updateMN (proTxHash : Uint256) (pdmnState : CDeterministicMNState)
  | updateDiff (proTxHash : Uint256) (stateDiff : CDeterministicMNStateDiff)
  | removeMN (proTxHash : Uint256)
  | poSePunish (proTxHash : Uint256) (penalty : Int)
  | poSeDecrease (proTxHash : Uint256)

variable (C : Codec)

variable (l : CDeterministicMNList)

def apply : ListOp → Except Thrown CDeterministicMNList
  | .addMN dmn bump => l.addMN C dmn bump
  | .updateMN p s => l.updateMN C p s
  | .updateDiff p d =>
    match l.getMN p with
    | some dmn => l.updateDiff C dmn d
    | none => .error ⟨.notFound, l⟩
  | .removeMN p => l.removeMN C p
  | .poSePunish p n => l.poSePunish C p n
  | .poSeDecrease p => l.poSeDecrease C p

/-- The list after a call, whether it returned or threw. -/
def step (op : ListOp) : CDeterministicMNList :=
  match l.apply C op with
  | .ok l' => l'
  | .error t => t.left

def run (ops : List ListOp) : CDeterministicMNList :=
  ops.foldl (step C) l

/-- The call replaces a stored operator key by the same key in the other encoding. -/
def ReencodesKey : ListOp → Prop
  | .updateMN p s =>
    ∃ dmn, l.mnMap[p]? = some dmn ∧ dmn.pdmnState.pubKeyOperator.Reencodes s.pubKeyOperator
  | .updateDiff p d =>
    ∃ dmn, l.mnMap[p]? = some dmn ∧ dmn.pdmnState.pubKeyOperator.Reencodes (d.applyToState dmn.pdmnState).pubKeyOperator
  | _ => False

/-- The indexes of a list agree with its entries, for a given notion of a masternode's slots:
`mnInternalIdMap` is the inverse of the internal ids, and `mnUniquePropertyMap` has `(p, c)` at
`h` exactly if `c > 0` slots of `p` have hash `h` and no slot of another masternode has. -/
def IndexesMatch (slotsOf : CDeterministicMN → List Uint256) (l : CDeterministicMNList) : Prop :=
  (∀ (i : ℕ) (p : Uint256),
    l.mnInternalIdMap[i]? = some p ↔ ∃ dmn, l.mnMap[p]? = some dmn ∧ dmn.internalId.val = i) ∧
  ∀ (h p : Uint256) (c : ℕ),
    l.mnUniquePropertyMap[h]? = some (p, c) ↔
      (∃ dmn, l.mnMap[p]? = some dmn ∧ 0 < c ∧ (slotsOf dmn).count h = c) ∧
        ∀ (q : Uint256) dmn, q ≠ p → l.mnMap[q]? = some dmn → h ∉ slotsOf dmn

variable {C} {l : CDeterministicMNList} {op : ListOp}

theorem apply_left {t : Thrown} (hthrow : l.apply C op = .error t) : t.left = l := by
  cases op with
  | addMN dmn bump => exact addMN_left hthrow
  | updateMN p s => exact updateMN_left hthrow
  | updateDiff p d =>
    simp only [apply] at hthrow
    split at hthrow
    · exact updateEntry_left hthrow
    · cases hthrow
      rfl
  | removeMN p => exact removeMN_left hthrow
  | poSePunish p n => exact poSePunish_left hthrow
  | poSeDecrease p => exact poSeDecrease_left hthrow

theorem apply_indexed {l' : CDeterministicMNList} (hl : Indexed C l) (hop : ¬ l.ReencodesKey op)
    (hok : l.apply C op = .ok l') : Indexed C l' := by
  have keeps {p : Uint256} {dmn : CDeterministicMN} {s : CDeterministicMNState}
      (hget : l.mnMap[p]? = some dmn) (hupd : l.updateMN C p s = .ok l')
      (hkey : dmn.pdmnState.SameProperties s) : Indexed C l' := by
    refine updateMN_indexed hl (fun d hd => ?_) hupd
    rw [hget, Option.some.injEq] at hd
    rw [← hkey.pubKeyOperator, ← hd]
    exact CBLSLazyPublicKey.not_reencodes_self _
  cases op with
  | addMN dmn bump => exact addMN_indexed hl hok
  | updateMN p s => exact updateMN_indexed hl (fun dmn hget hre => hop ⟨dmn, hget, hre⟩) hok
  | updateDiff p d =>
    simp only [apply, getMN] at hok
    split at hok
    · next dmn hget => exact updateEntry_indexed hl hget (fun hre => hop ⟨dmn, hget, hre⟩) hok
    · cases hok
  | removeMN p => exact removeMN_indexed hl hok
  | poSePunish p n =>
    simp only [apply, poSePunish, getMN] at hok
    split_ifs at hok
    split at hok
    · cases hok
    · next dmn hget => exact keeps hget hok (sameProperties_punishedState l _ n)
  | poSeDecrease p =>
    simp only [apply, poSeDecrease, getMN] at hok
    split at hok
    · cases hok
    · next dmn hget =>
      split_ifs at hok
      exact keeps hget hok ⟨rfl, rfl, rfl, rfl⟩

theorem step_indexed (hl : Indexed C l) (hop : ¬ l.ReencodesKey op) : Indexed C (l.step C op) := by
  unfold step
  split
  · next hok => exact apply_indexed hl hop hok
  · next hthrow => exact apply_left hthrow ▸ hl

theorem run_indexed {ops : List ListOp} (hl : Indexed C l)
    (hops : ∀ pre op post, ops = pre ++ op :: post → ¬ (l.run C pre).ReencodesKey op) : Indexed C (l.run C ops) := by
  induction ops generalizing l with
  | nil => exact hl
  | cons op ops ih =>
    refine ih (step_indexed hl (hops [] op ops rfl)) fun pre op' post heq => ?_
    exact hops (op :: pre) op' post (by rw [heq]; rfl)

theorem Indexed.indexesMatch (hl : Indexed C l) : IndexesMatch (slots C) l := by
  refine ⟨hl.internalId, fun h p c => ?_⟩
  rw [hl.get_property_iff]
  constructor
  · rintro ⟨hc, rfl⟩
    obtain ⟨dmn, hget, hmem⟩ := slotCount_pos_iff.mp hc
    refine ⟨⟨dmn, hget, hc, (slotCount_of_get hget).symm⟩, fun q d hqp hq => ?_⟩
    exact hl.slots_disjoint hget hq (Ne.symm hqp) hmem
  · rintro ⟨⟨dmn, hget, hc, hcount⟩, -⟩
    exact ⟨hc, (slotCount_of_get hget).trans hcount⟩

/-- After every run from an empty list whose updates never merely re-encode the stored operator
key, both indexes are exactly what the entries say. -/
theorem run_indexesMatch (C : Codec) (blockHash : Uint256) (nHeight : Int)
    (nTotalRegisteredCount : Fin (2 ^ 32)) (ops : List ListOp) (hops : ∀ pre op post, ops = pre ++ op :: post →
      ¬ (run C ⟨blockHash, nHeight, nTotalRegisteredCount, ∅, ∅, ∅⟩ pre).ReencodesKey op) :
    IndexesMatch (slots C) (run C ⟨blockHash, nHeight, nTotalRegisteredCount, ∅, ∅, ∅⟩ ops) :=
  (run_indexed (indexed_of_mnMap_empty rfl rfl rfl) hops).indexesMatch

/-! ### Concrete runs -/

/-- A codec under which small property values hash apart. -/
def sampleCodec : Codec where
  serializeHash
    | .outPoint o => 4 * (o.hash * 2 ^ 32 + o.n.setWidth 256)
    | .service s => 4 * s.port.setWidth 256 + 1
    | .bytes20 b => 4 * b.setWidth 256 + 2
    | .bytes48 b => 4 * b.setWidth 256 + 3
  encode legacy k := k.id ++ BitVec.ofBool legacy

def sampleMN : CDeterministicMN where
  internalId := ⟨0, by decide⟩
  proTxHash := 7
  collateralOutpoint := ⟨5, 0⟩
  pdmnState := { keyIDOwner := 3, pubKeyOperator := .valid true ⟨9⟩ }

/-- A masternode with a platform node, whose id is a 20-byte value like that of an owner key. -/
def platformMN (platformNodeID : Uint160) : CDeterministicMN where
  internalId := ⟨2, by decide⟩
  proTxHash := 8
  collateralOutpoint := ⟨6, 0⟩
  nType := .highPerformance
  pdmnState := { keyIDOwner := 4, platformNodeID := platformNodeID, pubKeyOperator := .valid true ⟨12⟩ }

/-- A masternode is added, then one whose node id is the owner key id of the first, which throws, and one whose node id
is its own owner key id.  Then the first one gets another operator key. -/
def replaceKeyOps : List ListOp :=
  [.addMN sampleMN true, .addMN (platformMN 3) true, .addMN (platformMN 4) true,
    .updateMN 7 { sampleMN.pdmnState with pubKeyOperator := .valid false ⟨10⟩ }]

theorem run_indexesMatch_replaceKey : IndexesMatch (slots sampleCodec) (run sampleCodec {} replaceKeyOps) ∧
    (run sampleCodec {} replaceKeyOps).mnMap.keys = [7, 8] ∧
    (run sampleCodec {} replaceKeyOps).mnMap[(8 : Uint256)]? = some (platformMN 4) := by
  refine ⟨run_indexesMatch sampleCodec 0 (-1) 0 _ fun pre op post heq => ?_, by decide +kernel, by decide +kernel⟩
  rcases pre with _ | ⟨op₁, _ | ⟨op₂, _ | ⟨op₃, _ | ⟨op₄, pre⟩⟩⟩⟩
  · cases heq
    exact id
  · cases heq
    exact id
  · cases heq
    exact id
  · cases heq
    rintro ⟨dmn, hget, hkey, -⟩
    have hstored : (run sampleCodec {} [.addMN sampleMN true, .addMN (platformMN 3) true,
        .addMN (platformMN 4) true]).mnMap[(7 : Uint256)]? = some sampleMN := by decide +kernel
    rw [show dmn = sampleMN from Option.some.inj (hget.symm.trans hstored)] at hkey
    exact absurd hkey (by decide)
  · simp [replaceKeyOps] at heq

/-- The slots with the owner key id counted also when it is null. -/
def slotsWithOwner (C : Codec) (dmn : CDeterministicMN) : List Uint256 :=
  [getUniquePropertyHash C dmn.collateralOutpoint, getUniquePropertyHash C dmn.pdmnState.keyIDOwner] ++
    propertyHashes C dmn.pdmnState.addr ++ propertyHashes C dmn.pdmnState.pubKeyOperator ++
    if dmn.nType = .highPerformance then propertyHashes C dmn.pdmnState.platformNodeID else []

/-- Two runs after which the property map is not the map of all slots.  In the first the owner key
id becomes null, and a null property is not entered into the map.  In the second the operator key
is replaced by the same key in the other encoding, and the map keeps the hash of the old one. -/
theorem indexesMatch_fails : ¬ IndexesMatch (slotsWithOwner sampleCodec) (run sampleCodec {}
          [.addMN sampleMN true, .updateMN 7 { sampleMN.pdmnState with keyIDOwner := 0 }]) ∧
      ¬ IndexesMatch (slotsWithOwner sampleCodec) (run sampleCodec {} [.addMN sampleMN true,
            .updateMN 7 { sampleMN.pdmnState with pubKeyOperator := .valid false ⟨9⟩ }]) := by
  constructor
  · intro hmatch
    have hkeys : (run sampleCodec {} [.addMN sampleMN true,
        .updateMN 7 { sampleMN.pdmnState with keyIDOwner := 0 }]).mnMap.keys = [7] := by
      decide +kernel
    have habsent := (hmatch.2 2 7 1).not.mp (by decide +kernel)
    refine habsent ⟨⟨{ sampleMN with pdmnState := { sampleMN.pdmnState with keyIDOwner := 0 } },
      by decide +kernel, by decide +kernel⟩, fun q dmn hq hget => ?_⟩
    have hmem := Std.ExtTreeMap.mem_keys.mpr (Std.ExtTreeMap.mem_iff_isSome_getElem?.mpr (Option.isSome_of_mem hget))
    exact absurd (List.mem_singleton.mp hmem) hq
  · intro hmatch
    obtain ⟨⟨dmn, hget, -, hcount⟩, -⟩ := (hmatch.2 79 7 1).mp (by decide +kernel)
    have hstored : dmn = { sampleMN with
        pdmnState := { sampleMN.pdmnState with pubKeyOperator := .valid false ⟨9⟩ } } :=
      Option.some.inj (hget.symm.trans (by decide +kernel))
    rw [hstored] at hcount
    exact absurd hcount (by decide +kernel)

end OmegaCore.Evo.CDeterministicMNList
