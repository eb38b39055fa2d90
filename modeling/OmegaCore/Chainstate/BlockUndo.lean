import OmegaCore.Chainstate.Coins
import OmegaCore.Util.UndoLog

/-!
Connecting and disconnecting a block on a view of the coins.  `ConnectBlock` spends the inputs of the
transactions one after the other, keeps the coins as undo data and adds the outputs;
`DisconnectBlock` goes back over the transactions and their inputs in reverse order.  An undo record
with height 0 stands for missing metadata, but no coin that a chain of blocks has left is of height 0.
-/

namespace OmegaCore.Chainstate

open Util List Function

/-- A transaction with its hash, the outpoints that it spends and its serialized size.  An output takes nine bytes or
more. -/
structure CTransaction where
  hash : Uint256
  isQuorumCommitment : Bool := false
  vin : List COutPoint
  vout : List CTxOut
  size : ℕ
  size_ge : 9 * vout.length ≤ size

namespace CTransaction

def isCoinBase (tx : CTransaction) : Bool :=
  tx.vin == [{}]

/-- The outputs with their outpoints, as coins of a block. -/
def coins (tx : CTransaction) (nHeight : ℕ) : List (COutPoint × Coin) :=
  tx.vout.zipIdx.map fun x => (⟨tx.hash, BitVec.ofNat 32 x.2⟩, ⟨x.1, nHeight, tx.isCoinBase⟩)

end CTransaction

def maxLegacyBlockSize : ℕ := 1000000

/-- The checks that do not change the coins.  They may read the coins of the view. -/
structure ConnectEnv where
  /-- of one transaction by itself: the sizes of its payload and of a coinbase script, the sum of its values -/
  checkTransaction : CTransaction → Bool
  /-- of the block: its header, chain locks, special transactions -/
  checkBlock : List CTransaction → Bool
  enforceBIP30 : Bool
  /-- of a transaction on the view: maturity, values, sequence locks, signature operations, scripts -/
  checkTx : ℕ → CTransaction → (COutPoint → Option Coin) → Bool
  /-- after the transactions: instant locks, payments, the writes of the undo data and the indexes -/
  checkAfter : Bool

variable (E : ConnectEnv)

variable (nHeight : ℕ) (v : CCoinsViewCache) (tx : CTransaction) (t : CCoinsViewCache × Bool)

def checkTransaction : Bool :=
  (tx.isQuorumCommitment || !tx.vin.isEmpty) && (tx.isQuorumCommitment || !tx.vout.isEmpty) &&
    !decide (maxLegacyBlockSize < tx.size) && tx.vout.all (fun txout => !decide (txout.nValue < 0)) &&
    decide tx.vin.Nodup && (tx.isCoinBase || tx.vin.all (fun prevout => !(prevout == {}))) && E.checkTransaction tx

def checkBlock : List CTransaction → Bool
  | [] => false
  | tx :: vtx =>
    tx.isCoinBase && vtx.all (fun tx => !tx.isCoinBase) && (tx :: vtx).all (checkTransaction E) && E.checkBlock (tx :: vtx)

def haveAny : CCoinsViewCache → List COutPoint → CCoinsViewCache × Bool
  | v, [] => (v, false)
  | v, o :: os =>
    let r := v.haveCoin o
    if r.2 then (r.1, true) else haveAny r.1 os

def haveInputs : CCoinsViewCache → List COutPoint → CCoinsViewCache × Bool
  | v, [] => (v, true)
  | v, o :: os =>
    let r := v.haveCoin o
    if r.2 then haveInputs r.1 os else (r.1, false)

def addCoins (nHeight : ℕ) : Option CCoinsViewCache :=
  (tx.coins nHeight).foldlM (fun v x => v.addCoin x.1 x.2 tx.isCoinBase) v

/-- One input of `UpdateCoins`: `SpendCoin` and its assertion. -/
def spendInput (prevout : COutPoint) : Option (CCoinsViewCache × Coin) :=
  match v.spendCoin prevout with
  | (_, none) => none
  | (v, some coin) => some (v, coin)

/-- `UpdateCoins` with the undo data of the transaction. -/
def updateCoins (v : CCoinsViewCache) (nHeight : ℕ) : Option (CCoinsViewCache × List Coin) :=
  match if tx.isCoinBase then some (v, []) else UndoLog.run spendInput v tx.vin with
  | none => none
  | some (v, vprevout) => (addCoins v tx nHeight).map fun v => (v, vprevout)

/-- The body of the loop of `ConnectBlock`. -/
def connectTx : Option (CCoinsViewCache × List Coin) :=
  let r := if tx.isCoinBase then (v, true) else haveInputs v tx.vin
  if !r.2 then none
  else if !E.checkTx nHeight tx r.1.unspent then none
  else updateCoins tx r.1 nHeight

/-- `ConnectBlock` for a block that is not the genesis block: the view and the undo data, or nothing if the block is not
accepted. -/
def connectBlock (vtx : List CTransaction) : Option (CCoinsViewCache × List (List Coin)) :=
  if !checkBlock E vtx then none
  else
    let r := if E.enforceBIP30 then haveAny v (vtx.flatMap fun tx => (tx.coins nHeight).map Prod.fst) else (v, false)
    if r.2 then none
    else
      match vtx with
      | [] => none
      | coinbase :: vtx =>
        match connectTx E nHeight r.1 coinbase with
        | none => none
        | some (v, _) =>
          match UndoLog.run (connectTx E nHeight) v vtx with
          | none => none
          | some (v, vtxundo) => if E.checkAfter then some (v, vtxundo) else none

/-! ### Disconnecting -/

inductive DisconnectResult where
  | ok | unclean | failed
  deriving DecidableEq

/-- How the loops of `DisconnectBlock` end early: with `DISCONNECT_FAILED`, or with an exception or an assertion. -/
inductive Stop where
  | failed | thrown
  deriving DecidableEq

def maxOutputsPerBlock : ℕ := 2000000 / 9

/-- `ApplyTxInUndo` on a view and whether it is clean so far. -/
def applyTxInUndo (x : COutPoint × Coin) : Except Stop (CCoinsViewCache × Bool) :=
  let (out, undo) := x
  let present := t.1.haveCoin out
  let fClean := !present.2
  let known :=
    if undo.nHeight = 0 then
      -- missing undo metadata
      let alternate := present.1.accessByTxid out.hash maxOutputsPerBlock 0
      if !alternate.2.isSpent then
        some (alternate.1, { undo with nHeight := alternate.2.nHeight, fCoinBase := alternate.2.fCoinBase })
      else none
    else some (present.1, undo)
  match known with
  | none => .error .failed
  | some (v, undo) =>
    match v.addCoin out undo (!fClean) with
    | none => .error .thrown
    | some v => .ok (v, t.2 && fClean)

def removeOutput (x : COutPoint × Coin) : CCoinsViewCache × Bool :=
  if x.2.out.scriptPubKey.isUnspendable then t
  else
    let r := t.1.spendCoin x.1
    (r.1, t.2 && (r.2 == some x.2))

/-- The body of the loop of `DisconnectBlock`. -/
def disconnectTx (x : CTransaction × List Coin) : Except Stop (CCoinsViewCache × Bool) :=
  let t := (x.1.coins nHeight).foldl removeOutput t
  if x.2.length ≠ x.1.vin.length then .error .failed
  else UndoLog.unrun applyTxInUndo t x.1.vin x.2

/-- The parts of `DisconnectBlock` that do not change the coins: the best block of the EvoDB, the special transactions
and the indexes. -/
structure DisconnectEnv where
  verifyBestBlock : Bool := true
  undoSpecialTxs : Bool := true
  updateIndexes : Bool := true

/-- `DisconnectBlock` with undo data, or nothing if it throws. -/
def disconnectBlock (D : DisconnectEnv) (nHeight : ℕ) (v : CCoinsViewCache) (vtx : List CTransaction)
    (vtxundo : List (List Coin)) : Option (DisconnectResult × CCoinsViewCache) :=
  if !D.verifyBestBlock then some (.failed, v)
  else if vtxundo.length + 1 ≠ vtx.length then some (.failed, v)
  else if !D.undoSpecialTxs then some (.failed, v)
  else
    match vtx with
    | [] => some (.failed, v)
    | coinbase :: vtx =>
      match UndoLog.unrun (disconnectTx nHeight) (v, true) vtx vtxundo with
      | .error .failed => some (.failed, v)
      | .error .thrown => none
      | .ok t =>
        let t := (coinbase.coins nHeight).foldl removeOutput t
        if !D.updateIndexes then some (.failed, t.1)
        else some (if t.2 then .ok else .unclean, t.1)

/-! ### Outputs -/

variable {E} {v v' : CCoinsViewCache} {nHeight : ℕ} {tx : CTransaction} {o : COutPoint} {c : Coin}
variable {coins : COutPoint → Option Coin} {xs : List (COutPoint × Coin)}

open Chainstate.CCoinsViewCache

def putAll (coins : COutPoint → Option Coin) (xs : List (COutPoint × Coin)) : COutPoint → Option Coin :=
  xs.foldl (fun coins x => put coins x.1 x.2) coins

theorem putAll_update (ho : o ∉ xs.map Prod.fst) (coins : COutPoint → Option Coin) (a : Option Coin) :
    putAll (update coins o a) xs = update (putAll coins xs) o a := by
  induction xs generalizing coins with
  | nil => rfl
  | cons x xs ih =>
    rw [map_cons, mem_cons, not_or] at ho
    have hput : put (update coins o a) x.1 x.2 = update (put coins x.1 x.2) o a := by
      unfold put
      split_ifs
      · rfl
      · exact update_comm ho.1 _ _ _
    show putAll (put (update coins o a) x.1 x.2) xs = update (putAll (put coins x.1 x.2) xs) o a
    rw [hput, ih ho.2]

theorem putAll_of_not_mem (ho : o ∉ xs.map Prod.fst) (coins : COutPoint → Option Coin) : putAll coins xs o = coins o := by
  have hself := congrFun (putAll_update ho coins (coins o)) o
  rw [update_eq_self, update_self] at hself
  exact hself

/-- An output that was added was not there, unless it cannot be spent. -/
def isNew (coins : COutPoint → Option Coin) (x : COutPoint × Coin) : Prop :=
  x.2.out.scriptPubKey.isUnspendable = true ∨ coins x.1 = none

theorem addCoin_becomes {overwrite : Bool} (h : v.Sound) (hsettled : v.Settled o) (hfree : overwrite = true → v.unspent o = none)
    (hadd : v.addCoin o c overwrite = some v') : v.Becomes v' (put v.unspent o c) ∧ isNew v.unspent (o, c) := by
  have hspent : c.isSpent = false := by
    rw [← Bool.not_eq_true]
    intro hspent
    rw [addCoin, if_pos hspent] at hadd
    cases hadd
  have hnew : isNew v.unspent (o, c) := by
    cases overwrite with
    | true => exact .inr (hfree rfl)
    | false => exact (unspent_of_addCoin hsettled hadd).2
  refine ⟨?_, hnew⟩
  rcases hnew with hscript | hnone
  · rw [addCoin, if_neg (by rw [hspent]; simp), if_pos hscript] at hadd
    cases hadd
    rw [put, if_pos hscript]
    exact Becomes.refl h
  · obtain ⟨v₁, hadd', hbecomes⟩ := addCoin_of_none h hnone hspent overwrite
    rw [hadd] at hadd'
    cases hadd'
    exact hbecomes

theorem foldlM_addCoin {overwrite : Bool} (h : v.Sound) (hkeys : (xs.map Prod.fst).Nodup)
    (hsettled : ∀ x ∈ xs, v.Settled x.1) (hfree : overwrite = true → ∀ x ∈ xs, v.unspent x.1 = none)
    (hadd : xs.foldlM (fun v x => v.addCoin x.1 x.2 overwrite) v = some v') :
    v.Becomes v' (putAll v.unspent xs) ∧ ∀ x ∈ xs, isNew v.unspent x := by
  induction xs generalizing v with
  | nil =>
    cases hadd
    exact ⟨Becomes.refl h, by simp⟩
  | cons x xs ih =>
    rw [map_cons, nodup_cons] at hkeys
    rw [foldlM_cons] at hadd
    obtain ⟨v₁, hone, hrest⟩ := Option.bind_eq_some_iff.mp hadd
    obtain ⟨hbecomes, hnew⟩ :=
      addCoin_becomes h (hsettled x mem_cons_self) (fun ho => hfree ho x mem_cons_self) hone
    -- the other outpoints are as before
    have hother : ∀ y ∈ xs, v₁.unspent y.1 = v.unspent y.1 := by
      intro y hy
      have hne : y.1 ≠ x.1 := by
        intro heq
        exact hkeys.1 (heq ▸ mem_map_of_mem hy)
      rw [hbecomes.unspent, put]
      split_ifs
      · rfl
      · exact update_of_ne hne _ _
    obtain ⟨hrest, hnews⟩ := ih hbecomes.sound hkeys.2
      (fun y hy => hbecomes.settled y.1 (hsettled y (mem_cons_of_mem x hy)))
      (fun ho y hy => (hother y hy).trans (hfree ho y (mem_cons_of_mem x hy))) hrest
    constructor
    · rw [hbecomes.unspent] at hrest
      exact hbecomes.trans hrest
    · intro y hy
      rcases mem_cons.mp hy with rfl | hy
      · exact hnew
      · unfold isNew
        rw [← hother y hy]
        exact hnews y hy

theorem foldl_removeOutput {t : CCoinsViewCache × Bool} (h : t.1.Sound) (hkeys : (xs.map Prod.fst).Nodup)
    (hcoins : t.1.unspent = putAll coins xs) (hnew : ∀ x ∈ xs, isNew coins x) :
    t.1.Becomes (xs.foldl removeOutput t).1 coins ∧ (xs.foldl removeOutput t).2 = t.2 := by
  induction xs generalizing t with
  | nil => exact ⟨⟨h, hcoins, fun _ ho => ho⟩, rfl⟩
  | cons x xs ih =>
    rw [map_cons, nodup_cons] at hkeys
    have hput : t.1.unspent = putAll (put coins x.1 x.2) xs := hcoins
    rw [foldl_cons]
    by_cases hscript : x.2.out.scriptPubKey.isUnspendable = true
    · rw [put, if_pos hscript] at hput
      rw [removeOutput, if_pos hscript]
      exact ih h hkeys.2 hput (fun y hy => hnew y (mem_cons_of_mem x hy))
    · have hnone : coins x.1 = none := (hnew x mem_cons_self).resolve_left hscript
      rw [put, if_neg hscript, putAll_update hkeys.1] at hput
      obtain ⟨hbecomes, hmoved⟩ := spendCoin_spec h x.1
      have hcoin : (t.1.spendCoin x.1).2 = some x.2 := hmoved x.2 (by rw [hput, update_self])
      have hrest : (t.1.spendCoin x.1).1.unspent = putAll coins xs := by
        rw [hbecomes.unspent, hput, update_idem, ← hnone, ← putAll_of_not_mem hkeys.1 coins, update_eq_self]
      rw [removeOutput, if_neg hscript]
      obtain ⟨hbefore, hclean⟩ := @ih (_, t.2 && ((t.1.spendCoin x.1).2 == some x.2)) hbecomes.sound hkeys.2 hrest
        (fun y hy => hnew y (mem_cons_of_mem x hy))
      refine ⟨hbecomes.trans hbefore, hclean.trans ?_⟩
      rw [hcoin]
      simp

/-! ### Inputs -/

/-- Every coin has the height of a block after the genesis block, and a script that can be spent. -/
def Mined (coins : COutPoint → Option Coin) : Prop :=
  ∀ o c, coins o = some c → c.nHeight ≠ 0 ∧ c.out.scriptPubKey.isUnspendable = false

theorem Mined.update (h : Mined coins) (o : COutPoint) {coin : Option Coin}
    (hcoin : ∀ c ∈ coin, c.nHeight ≠ 0 ∧ c.out.scriptPubKey.isUnspendable = false) : Mined (update coins o coin) := by
  intro o' c hc
  by_cases ho : o' = o
  · subst ho
    rw [update_self] at hc
    exact hcoin c hc
  · rw [update_of_ne ho] at hc
    exact h o' c hc

theorem Mined.putAll (h : Mined coins) (hxs : ∀ x ∈ xs, x.2.nHeight ≠ 0) : Mined (putAll coins xs) := by
  induction xs generalizing coins with
  | nil => exact h
  | cons x xs ih =>
    have hput : Mined (put coins x.1 x.2) := by
      unfold put
      split_ifs with hscript
      · exact h
      · exact h.update x.1 (by simp [hxs x mem_cons_self, hscript])
    exact ih hput (fun y hy => hxs y (mem_cons_of_mem x hy))

/-- A view that is disconnected has the coins of another one, and was clean so far. -/
def Follows (v : CCoinsViewCache) : Prop :=
  t.1.Sound ∧ t.1.unspent = v.unspent ∧ t.2 = true

structure Spendable (v₀ v : CCoinsViewCache) (os : List COutPoint) : Prop where
  becomes : v₀.Becomes v v.unspent
  mined : Mined v.unspent
  nodup : os.Nodup
  there : ∀ o ∈ os, (v.unspent o).isSome = true

theorem spendInput_undone {v₀ v : CCoinsViewCache} {o : COutPoint} {os : List COutPoint} {c : Coin}
    (hv : Spendable v₀ v (o :: os)) (hspend : spendInput v o = some (v', c)) :
    Spendable v₀ v' os ∧ ∀ t, Follows t v' → ∃ t', applyTxInUndo t (o, c) = .ok t' ∧ Follows t' v := by
  obtain ⟨d, hd⟩ := Option.isSome_iff_exists.mp (hv.there o mem_cons_self)
  obtain ⟨hbecomes, hmoved⟩ := spendCoin_spec hv.becomes.sound o
  have hcoin : v' = (v.spendCoin o).1 ∧ c = d := by
    have hsome := hmoved d hd
    unfold spendInput at hspend
    generalize v.spendCoin o = r at hspend hsome
    obtain ⟨v₁, moved⟩ := r
    cases hsome
    cases hspend
    exact ⟨rfl, rfl⟩
  obtain ⟨rfl, rfl⟩ := hcoin
  obtain ⟨hnotin, hnodup⟩ := nodup_cons.mp hv.nodup
  constructor
  · refine ⟨hv.becomes.trans ?_, ?_, hnodup, fun o' ho' => ?_⟩
    · exact ⟨hbecomes.sound, rfl, hbecomes.settled⟩
    · rw [hbecomes.unspent]
      exact hv.mined.update o (by simp)
    · have hne : o' ≠ o := by
        rintro rfl
        exact hnotin ho'
      rw [hbecomes.unspent, update_of_ne hne]
      exact hv.there o' (mem_cons_of_mem o ho')
  · rintro ⟨w, clean⟩ ⟨hsound, hunspent, rfl⟩
    obtain ⟨hheight, hscript⟩ := hv.mined o c hd
    obtain ⟨hfetched, hpresent⟩ := haveCoin_spec hsound o
    have hgone : w.unspent o = none := by
      rw [hunspent, hbecomes.unspent, update_self]
    have hspent := isSpent_of_unspent hd
    obtain ⟨w', hadd, hadded⟩ := addCoin_of_none hfetched.sound (by rw [hfetched.unspent]; exact hgone) hspent false
    refine ⟨(w', true), ?_, hadded.sound, ?_, rfl⟩
    · rw [hgone] at hpresent
      unfold applyTxInUndo
      simp [hpresent, if_neg hheight, hadd]
    · rw [hadded.unspent, hfetched.unspent, hunspent, hbecomes.unspent, put, if_neg (by rw [hscript]; simp),
        update_idem, ← hd, update_eq_self]

/-! ### Transactions -/

theorem haveInputs_spec (h : v.Sound) (os : List COutPoint) :
    v.Becomes (haveInputs v os).1 v.unspent ∧ ((haveInputs v os).2 = true → ∀ o ∈ os, (v.unspent o).isSome = true) := by
  induction os generalizing v with
  | nil => exact ⟨Becomes.refl h, fun _ => by simp⟩
  | cons o os ih =>
    obtain ⟨hfetched, hpresent⟩ := haveCoin_spec h o
    obtain ⟨hrest, hall⟩ := ih hfetched.sound
    rw [hfetched.unspent] at hrest hall
    rw [haveInputs]
    split_ifs with hthere
    · refine ⟨hfetched.trans hrest, fun hhave o' ho' => ?_⟩
      rcases mem_cons.mp ho' with rfl | ho'
      · rw [← hpresent]
        exact hthere
      · exact hall hhave o' ho'
    · refine ⟨hfetched, fun hhave => ?_⟩
      simp at hhave

theorem haveAny_spec (h : v.Sound) (os : List COutPoint) :
    v.Becomes (haveAny v os).1 v.unspent ∧ ((haveAny v os).2 = false → ∀ o ∈ os, v.unspent o = none) := by
  induction os generalizing v with
  | nil => exact ⟨Becomes.refl h, fun _ => by simp⟩
  | cons o os ih =>
    obtain ⟨hfetched, hpresent⟩ := haveCoin_spec h o
    obtain ⟨hrest, hnone⟩ := ih hfetched.sound
    rw [hfetched.unspent] at hrest hnone
    rw [haveAny]
    split_ifs with hthere
    · exact ⟨hfetched, fun hany => absurd hany (by simp)⟩
    · refine ⟨hfetched.trans hrest, fun hany o' ho' => ?_⟩
      rcases mem_cons.mp ho' with rfl | ho'
      · rw [hpresent] at hthere
        simpa using hthere
      · exact hnone hany o' ho'

theorem checkTransaction_size (h : checkTransaction E tx = true) : tx.vout.length < 2 ^ 32 := by
  simp only [checkTransaction, Bool.and_eq_true, Bool.not_eq_true', decide_eq_false_iff_not] at h
  have hsize := h.1.1.1.1.2
  have hge := tx.size_ge
  unfold maxLegacyBlockSize at hsize
  omega

theorem checkTransaction_nodup (h : checkTransaction E tx = true) : tx.vin.Nodup := by
  simp only [checkTransaction, Bool.and_eq_true, decide_eq_true_eq] at h
  exact h.1.1.2

theorem nodup_coins (h : tx.vout.length < 2 ^ 32) (nHeight : ℕ) : ((tx.coins nHeight).map Prod.fst).Nodup := by
  have hkeys : (tx.coins nHeight).map Prod.fst =
      (range tx.vout.length).map fun i => (⟨tx.hash, BitVec.ofNat 32 i⟩ : COutPoint) := by
    rw [CTransaction.coins, map_map]
    apply ext_getElem
    · simp
    · intro i hi hi'
      simp
  rw [hkeys]
  refine Nodup.map_on (fun i hi j hj hij => ?_) nodup_range
  have hn := congrArg BitVec.toNat (congrArg COutPoint.n hij)
  rw [mem_range] at hi hj
  simp only [BitVec.toNat_ofNat] at hn
  rw [Nat.mod_eq_of_lt (by omega), Nat.mod_eq_of_lt (by omega)] at hn
  exact hn

theorem nHeight_coins {x : COutPoint × Coin} (hx : x ∈ tx.coins nHeight) : x.2.nHeight = nHeight := by
  obtain ⟨y, -, rfl⟩ := mem_map.mp hx
  rfl

structure Connectable (E : ConnectEnv) (nHeight : ℕ) (v : CCoinsViewCache) (txs : List CTransaction) : Prop where
  sound : v.Sound
  mined : Mined v.unspent
  checked : ∀ tx ∈ txs, checkTransaction E tx = true
  notCoinBase : ∀ tx ∈ txs, tx.isCoinBase = false
  settled : ∀ tx ∈ txs, ∀ x ∈ tx.coins nHeight, v.Settled x.1

/-- A transaction is connected, and its undo data takes it back. -/
theorem connectTx_undone {txs : List CTransaction} {undo : List Coin} (hheight : nHeight ≠ 0)
    (hv : Connectable E nHeight v (tx :: txs)) (hconnect : connectTx E nHeight v tx = some (v', undo)) :
    Connectable E nHeight v' txs ∧
      ∀ t, Follows t v' → ∃ t', disconnectTx nHeight t (tx, undo) = .ok t' ∧ Follows t' v := by
  have hcoinbase := hv.notCoinBase tx mem_cons_self
  have hchecked := hv.checked tx mem_cons_self
  obtain ⟨hfetched, hthere⟩ := haveInputs_spec hv.sound tx.vin
  unfold connectTx updateCoins at hconnect
  simp only [hcoinbase, Bool.false_eq_true, if_false] at hconnect
  split_ifs at hconnect with hinputs
  split at hconnect
  · cases hconnect
  next v₂ vprevout hrun =>
    obtain ⟨v₃, hadd, heq⟩ := Option.map_eq_some_iff.mp hconnect
    cases heq
    have hstart : Spendable v (haveInputs v tx.vin).1 tx.vin := by
      refine ⟨?_, ?_, checkTransaction_nodup hchecked, ?_⟩
      · rw [hfetched.unspent]
        exact hfetched
      · rw [hfetched.unspent]
        exact hv.mined
      · rw [hfetched.unspent]
        exact hthere (by simpa using hinputs)
    obtain ⟨hspent, hlength, hundo⟩ := UndoLog.run_undone (P := Spendable v) spendInput_undone hstart hrun
    have hkeys := nodup_coins (checkTransaction_size hchecked) nHeight
    unfold addCoins at hadd
    rw [hcoinbase] at hadd
    obtain ⟨hadded, hnew⟩ := foldlM_addCoin hspent.becomes.sound hkeys
      (fun x hx => hspent.becomes.settled x.1 (hv.settled tx mem_cons_self x hx))
      (fun h => absurd h Bool.false_ne_true) hadd
    constructor
    · refine ⟨hadded.sound, ?_, ?_, ?_, ?_⟩
      · rw [hadded.unspent]
        refine hspent.mined.putAll fun x hx => ?_
        rw [nHeight_coins hx]
        exact hheight
      · exact fun tx' htx' => hv.checked tx' (mem_cons_of_mem tx htx')
      · exact fun tx' htx' => hv.notCoinBase tx' (mem_cons_of_mem tx htx')
      · intro tx' htx' x hx
        exact hadded.settled x.1 (hspent.becomes.settled x.1 (hv.settled tx' (mem_cons_of_mem tx htx') x hx))
    · rintro ⟨w, clean⟩ ⟨hsound, hunspent, rfl⟩
      obtain ⟨hremoved, hclean⟩ :=
        foldl_removeOutput (t := (w, true)) hsound hkeys (hunspent.trans hadded.unspent) hnew
      have hfollows : Follows ((tx.coins nHeight).foldl removeOutput (w, true)) v₂ :=
        ⟨hremoved.sound, hremoved.unspent, hclean⟩
      obtain ⟨t', hunrun, ht'⟩ := hundo _ hfollows
      refine ⟨t', ?_, ht'.1, ht'.2.1.trans hfetched.unspent, ht'.2.2⟩
      unfold disconnectTx
      rw [if_neg (not_not.mpr hlength)]
      exact hunrun

/-! ### Blocks -/

/-- The coinbase, whose outputs may overwrite coins, is connected where there are none. -/
theorem connectTx_coinBase {undo : List Coin} (hcoinbase : tx.isCoinBase = true) (hchecked : checkTransaction E tx = true)
    (hsound : v.Sound) (hfree : ∀ x ∈ tx.coins nHeight, v.unspent x.1 = none)
    (hconnect : connectTx E nHeight v tx = some (v', undo)) :
    v.Becomes v' (putAll v.unspent (tx.coins nHeight)) ∧
      ∀ t, Follows t v' → Follows ((tx.coins nHeight).foldl removeOutput t) v := by
  have hkeys := nodup_coins (checkTransaction_size hchecked) nHeight
  unfold connectTx updateCoins at hconnect
  simp only [hcoinbase, if_true, Bool.not_true, Bool.false_eq_true, if_false] at hconnect
  split_ifs at hconnect
  obtain ⟨v₁, hadd, heq⟩ := Option.map_eq_some_iff.mp hconnect
  cases heq
  obtain ⟨hadded, hnew⟩ := foldlM_addCoin hsound hkeys (fun x hx => settled_of_unspent (hfree x hx)) (fun _ => hfree) hadd
  refine ⟨hadded, ?_⟩
  rintro ⟨w, clean⟩ ⟨hw, hunspent, rfl⟩
  obtain ⟨hremoved, hclean⟩ := foldl_removeOutput (t := (w, true)) hw hkeys (hunspent.trans hadded.unspent) hnew
  exact ⟨hremoved.sound, hremoved.unspent, hclean⟩

/-- No transaction of a block has an unspent output with the same outpoint in the view. -/
def NoOverwrite (nHeight : ℕ) (v : CCoinsViewCache) (vtx : List CTransaction) : Prop :=
  ∀ tx ∈ vtx, ∀ x ∈ tx.coins nHeight, v.unspent x.1 = none

theorem connectBlock_cases {vtx : List CTransaction} {vtxundo : List (List Coin)} (hsound : v.Sound)
    (hconnect : connectBlock E nHeight v vtx = some (v', vtxundo)) :
    ∃ coinbase txs v₁ v₂ undo, vtx = coinbase :: txs ∧ checkBlock E vtx = true ∧ v.Becomes v₁ v.unspent ∧
      (E.enforceBIP30 = true → NoOverwrite nHeight v vtx) ∧
      connectTx E nHeight v₁ coinbase = some (v₂, undo) ∧ UndoLog.run (connectTx E nHeight) v₂ txs = some (v', vtxundo) := by
  unfold connectBlock at hconnect
  by_cases hcheck : checkBlock E vtx = true
  · rw [hcheck, Bool.not_true, if_neg Bool.false_ne_true] at hconnect
    dsimp only at hconnect
    obtain ⟨r, hr⟩ : ∃ r, r = if E.enforceBIP30 then haveAny v (vtx.flatMap fun tx => (tx.coins nHeight).map Prod.fst)
      else (v, false) := ⟨_, rfl⟩
    rw [← hr] at hconnect
    have hfetched : v.Becomes r.1 v.unspent ∧ (r.2 = false → E.enforceBIP30 = true → NoOverwrite nHeight v vtx) := by
      split_ifs at hr with hbip30
      · obtain ⟨hbecomes, hnone⟩ := haveAny_spec hsound (vtx.flatMap fun tx => (tx.coins nHeight).map Prod.fst)
        rw [hr]
        exact ⟨hbecomes, fun hany _ tx htx x hx => hnone hany x.1 (mem_flatMap.mpr ⟨tx, htx, mem_map_of_mem hx⟩)⟩
      · rw [hr]
        exact ⟨Becomes.refl hsound, fun _ h => absurd h hbip30⟩
    split at hconnect
    · cases hconnect
    next hany =>
      split at hconnect
      · cases hconnect
      next coinbase txs =>
        split at hconnect
        · cases hconnect
        next v₂ undo hfirst =>
          split at hconnect
          · cases hconnect
          next v₃ undos hrun =>
            split at hconnect
            · cases hconnect
              exact ⟨coinbase, txs, r.1, v₂, undo, rfl, hcheck, hfetched.1, hfetched.2 (by simpa using hany), hfirst, hrun⟩
            · cases hconnect
  · rw [Bool.not_eq_true] at hcheck
    rw [hcheck, Bool.not_false, if_pos rfl] at hconnect
    cases hconnect

theorem checkBlock_cons {coinbase : CTransaction} {txs : List CTransaction} (h : checkBlock E (coinbase :: txs) = true) :
    coinbase.isCoinBase = true ∧ (∀ tx ∈ txs, tx.isCoinBase = false) ∧ ∀ tx ∈ coinbase :: txs, checkTransaction E tx = true := by
  rw [checkBlock, Bool.and_eq_true, Bool.and_eq_true, Bool.and_eq_true, all_eq_true, all_eq_true] at h
  refine ⟨h.1.1.1, fun tx htx => ?_, h.1.2⟩
  simpa using h.1.1.2 tx htx

/-- A block that was connected where it overwrites no coin is disconnected cleanly from every view with its coins, and
leaves the coins before the block.  What is required of the coins holds again after the block. -/
theorem connectBlock_undone {vtx : List CTransaction} {vtxundo : List (List Coin)} (hheight : nHeight ≠ 0)
    (hsound : v.Sound) (hmined : Mined v.unspent) (hfree : E.enforceBIP30 = true ∨ NoOverwrite nHeight v vtx)
    (hconnect : connectBlock E nHeight v vtx = some (v', vtxundo)) :
    (v'.Sound ∧ Mined v'.unspent) ∧ ∀ (D : DisconnectEnv) (w : CCoinsViewCache), D.verifyBestBlock = true →
      D.undoSpecialTxs = true → D.updateIndexes = true → w.Sound → w.unspent = v'.unspent →
      ∃ w', disconnectBlock D nHeight w vtx vtxundo = some (.ok, w') ∧ w'.Sound ∧ w'.unspent = v.unspent := by
  obtain ⟨coinbase, txs, v₁, v₂, undo, rfl, hcheck, hfetched, hbip30, hfirst, hrun⟩ := connectBlock_cases hsound hconnect
  have hfree := hfree.elim hbip30 id
  obtain ⟨hcoinbase, hothers, hchecked⟩ := checkBlock_cons hcheck
  have hfree₁ : ∀ x ∈ coinbase.coins nHeight, v₁.unspent x.1 = none := by
    intro x hx
    rw [hfetched.unspent]
    exact hfree coinbase mem_cons_self x hx
  obtain ⟨hadded, hback⟩ :=
    connectTx_coinBase hcoinbase (hchecked coinbase mem_cons_self) hfetched.sound hfree₁ hfirst
  have hstart : Connectable E nHeight v₂ txs := by
    refine ⟨hadded.sound, ?_, ?_, hothers, ?_⟩
    · rw [hadded.unspent, hfetched.unspent]
      refine hmined.putAll fun x hx => ?_
      rw [nHeight_coins hx]
      exact hheight
    · exact fun tx htx => hchecked tx (mem_cons_of_mem coinbase htx)
    · intro tx htx x hx
      exact hadded.settled x.1 (hfetched.settled x.1 (settled_of_unspent (hfree tx (mem_cons_of_mem coinbase htx) x hx)))
  obtain ⟨hend, hlength, hundo⟩ :=
    UndoLog.run_undone (P := Connectable E nHeight) (connectTx_undone hheight) hstart hrun
  refine ⟨⟨hend.sound, hend.mined⟩, fun D w hbest hspecial hindexes hw hunspent => ?_⟩
  obtain ⟨t, hunrun, ht⟩ := hundo (w, true) ⟨hw, hunspent, rfl⟩
  obtain ⟨hback, hcoins, hclean⟩ := hback t ht
  refine ⟨((coinbase.coins nHeight).foldl removeOutput t).1, ?_, hback, hcoins.trans hfetched.unspent⟩
  have hlen : ¬ vtxundo.length + 1 ≠ (coinbase :: txs).length := by
    rw [length_cons, hlength]
    simp
  unfold disconnectBlock
  rw [hbest, hspecial, hindexes, Bool.not_true, if_neg Bool.false_ne_true, if_neg hlen, if_neg Bool.false_ne_true]
  simp [hunrun, hclean]

/-! ### Chains -/

/-- The views after a chain of accepted blocks, with the height of its tip.  The genesis block leaves no coins.  The
coins may be written to the base and cached again at any time. -/
inductive Reachable : ℕ → CCoinsViewCache → Prop
  | genesis : Reachable 0 ⟨fun _ => none, ∅⟩
  | connectBlock {E : ConnectEnv} {nHeight : ℕ} {v v' : CCoinsViewCache} {vtx : List CTransaction}
      {vtxundo : List (List Coin)} (hv : Reachable nHeight v)
      (hfree : E.enforceBIP30 = true ∨ NoOverwrite (nHeight + 1) v vtx)
      (hconnect : connectBlock E (nHeight + 1) v vtx = some (v', vtxundo)) : Reachable (nHeight + 1) v'
  | cached {nHeight : ℕ} {v w : CCoinsViewCache} (hv : Reachable nHeight v) (hw : w.Sound)
      (hcoins : w.unspent = v.unspent) : Reachable nHeight w

theorem Reachable.mined (h : Reachable nHeight v) : v.Sound ∧ Mined v.unspent := by
  induction h with
  | genesis =>
    have hempty : ∀ (o : COutPoint) (e : CCoinsCacheEntry), ¬ (∅ : Map COutPoint CCoinsCacheEntry)[o]? = some e := by
      intro o e he
      rw [Map.get_empty] at he
      cases he
    refine ⟨⟨fun o e he => absurd he (hempty o e), fun o e he => absurd he (hempty o e)⟩, fun o c hc => ?_⟩
    rw [unspent_of_none (Map.get_empty o)] at hc
    cases hc
  | connectBlock hv hfree hconnect ih =>
    exact (connectBlock_undone (Nat.succ_ne_zero _) ih.1 ih.2 hfree hconnect).1
  | cached hv hw hcoins ih => exact ⟨hw, hcoins ▸ ih.2⟩

/-- After any chain of blocks, the next block that is accepted where it overwrites no coin is disconnected cleanly from
every view with its coins, and leaves the coins before the block. -/
theorem disconnectBlock_connectBlock (E : ConnectEnv) (D : DisconnectEnv) (nHeight : ℕ) (v v' : CCoinsViewCache)
    (vtx : List CTransaction) (vtxundo : List (List Coin)) (hv : Reachable nHeight v)
    (hbest : D.verifyBestBlock = true) (hspecial : D.undoSpecialTxs = true) (hindexes : D.updateIndexes = true)
    (hfree : NoOverwrite (nHeight + 1) v vtx) (hconnect : connectBlock E (nHeight + 1) v vtx = some (v', vtxundo)) :
    ∀ w : CCoinsViewCache, w.Sound → w.unspent = v'.unspent →
      ∃ w', disconnectBlock D (nHeight + 1) w vtx vtxundo = some (.ok, w') ∧ w'.unspent = v.unspent ∧
        Reachable nHeight w' := by
  intro w hw hcoins
  obtain ⟨hsound, hmined⟩ := hv.mined
  obtain ⟨-, hback⟩ := connectBlock_undone (Nat.succ_ne_zero _) hsound hmined (.inr hfree) hconnect
  obtain ⟨w', hdisconnect, hw', hcoins'⟩ := hback D w hbest hspecial hindexes hw hcoins
  exact ⟨w', hdisconnect, hcoins', .cached hv hw' hcoins'⟩

/-- Nothing but what the model computes is checked. -/
def sampleEnv : ConnectEnv where
  checkTransaction _ := true
  checkBlock _ := true
  enforceBIP30 := true
  checkTx _ _ _ := true
  checkAfter := true

/-- A coinbase with two outputs. -/
def sampleFirstBlock : List CTransaction :=
  [⟨9, false, [{}], [⟨50, [0x51]⟩, ⟨60, [0x51]⟩], 100, by decide⟩]

/-- The view after the first block, and the undo data of the block. -/
def sampleFirst : Option (CCoinsViewCache × List (List Coin)) :=
  connectBlock sampleEnv 1 ⟨fun _ => none, ∅⟩ sampleFirstBlock

/-- A coinbase with an output that cannot be spent, a transaction that spends an output of the first block, one that
spends its output in turn, and one without inputs. -/
def sampleBlock : List CTransaction :=
  [⟨1, false, [{}], [⟨10, [0x51]⟩, ⟨0, [0x6a]⟩], 100, by decide⟩, ⟨2, false, [⟨9, 0⟩], [⟨40, [0x52]⟩], 100, by decide⟩,
    ⟨3, false, [⟨2, 0⟩], [⟨30, [0x53]⟩], 100, by decide⟩, ⟨4, true, [], [], 100, by decide⟩]

theorem disconnectBlock_connectBlock_sample :
    ∃ r v' vtxundo w', sampleFirst = some r ∧ connectBlock sampleEnv 2 r.1 sampleBlock = some (v', vtxundo) ∧
      disconnectBlock {} 2 v' sampleBlock vtxundo = some (.ok, w') ∧ w'.unspent = r.1.unspent := by
  have hfirst : sampleFirst.isSome = true := by decide +kernel
  have hsecond : (sampleFirst.bind fun r => connectBlock sampleEnv 2 r.1 sampleBlock).isSome = true := by decide +kernel
  obtain ⟨r, hr⟩ := Option.isSome_iff_exists.mp hfirst
  rw [hr, Option.bind_some] at hsecond
  obtain ⟨⟨v', vtxundo⟩, hconnect⟩ := Option.isSome_iff_exists.mp hsecond
  have hv : Reachable 1 r.1 := .connectBlock .genesis (.inl rfl) hr
  have hfree : NoOverwrite 2 r.1 sampleBlock := by
    have hnone : ∀ tx ∈ sampleBlock, ∀ x ∈ tx.coins 2, (sampleFirst.bind fun r => r.1.unspent x.1) = none := by
      decide +kernel
    rw [hr] at hnone
    exact hnone
  have hsound : v'.Sound := (Reachable.connectBlock hv (.inl rfl) hconnect).mined.1
  obtain ⟨w', hdisconnect, hcoins, -⟩ := disconnectBlock_connectBlock sampleEnv {} 1 r.1 v' sampleBlock vtxundo hv
    rfl rfl rfl hfree hconnect v' hsound rfl
  exact ⟨r, v', vtxundo, w', hr, hconnect, hdisconnect, hcoins⟩

end OmegaCore.Chainstate
