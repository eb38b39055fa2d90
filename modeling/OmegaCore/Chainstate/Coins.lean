import OmegaCore.Primitives

/-!
The view of the unspent coins.  `CCoinsViewCache` keeps changed coins over a base view, with a flag for
entries that may differ from the base (`DIRTY`) and one for entries that the base does not have
(`FRESH`).  While the flags are right, spending and adding a coin are updates of the map from
outpoints to unspent coins.
-/

namespace OmegaCore

open Function

def maxScriptSize : ℕ := 10000

/-- A script that starts with `OP_RETURN` or is too long. -/
def CScript.isUnspendable (s : CScript) : Bool :=
  s.head? == some 0x6a || decide (maxScriptSize < s.length)

namespace Chainstate

open Util

/-- An output with the height of its block and whether its transaction is a coinbase. -/
structure Coin where
  out : CTxOut
  nHeight : ℕ
  fCoinBase : Bool
  deriving DecidableEq

/-- `coinEmpty`, and what `Clear` leaves -/
def coinEmpty : Coin :=
  ⟨⟨-1, []⟩, 0, false⟩

def Coin.isSpent (c : Coin) : Bool :=
  c.out.isNull

structure CCoinsCacheEntry where
  coin : Coin := coinEmpty
  dirty : Bool := false
  fresh : Bool := false

structure CCoinsViewCache where
  /-- `GetCoin` of the base view -/
  base : COutPoint → Option Coin
  cacheCoins : Map COutPoint CCoinsCacheEntry := ∅

namespace CCoinsViewCache

variable (v : CCoinsViewCache) (outpoint : COutPoint)

/-- The entry of an outpoint, which is taken from the base if it is not there. -/
def fetchCoin : CCoinsViewCache × Option CCoinsCacheEntry :=
  match v.cacheCoins[outpoint]? with
  | some e => (v, some e)
  | none =>
    match v.base outpoint with
    | none => (v, none)
    | some tmp =>
      let e := { coin := tmp, fresh := tmp.isSpent }
      ({ v with cacheCoins := v.cacheCoins.insert outpoint e }, some e)

def accessCoin : CCoinsViewCache × Coin :=
  let r := v.fetchCoin outpoint
  (r.1, (r.2.map CCoinsCacheEntry.coin).getD coinEmpty)

def haveCoin : CCoinsViewCache × Bool :=
  let r := v.accessCoin outpoint
  (r.1, !r.2.isSpent)

/-- `SpendCoin` with the coin that it moves out, or nothing if there is no entry. -/
def spendCoin : CCoinsViewCache × Option Coin :=
  match v.fetchCoin outpoint with
  | (v, none) => (v, none)
  | (v, some e) =>
    if e.fresh then ({ v with cacheCoins := v.cacheCoins.erase outpoint }, some e.coin)
    else ({ v with cacheCoins := v.cacheCoins.insert outpoint { e with coin := coinEmpty, dirty := true } }, some e.coin)

/-- `AddCoin`, or nothing if its assertion fails or it throws. -/
def addCoin (coin : Coin) (possibleOverwrite : Bool) : Option CCoinsViewCache :=
  if coin.isSpent then none
  else if coin.out.scriptPubKey.isUnspendable then some v
  else
    let e := v.cacheCoins[outpoint]?.getD {}
    if !possibleOverwrite && !e.coin.isSpent then none
    else
      let fresh := !possibleOverwrite && !e.dirty
      some { v with cacheCoins := v.cacheCoins.insert outpoint ⟨coin, true, e.fresh || fresh⟩ }

/-- `AccessByTxid` from an index on. -/
def accessByTxid (txid : Uint256) : ℕ → ℕ → CCoinsViewCache → CCoinsViewCache × Coin
  | 0, _, v => (v, coinEmpty)
  | fuel + 1, n, v =>
    let r := v.accessCoin ⟨txid, BitVec.ofNat 32 n⟩
    if !r.2.isSpent then r else accessByTxid txid fuel (n + 1) r.1

end CCoinsViewCache

/-! ### Unspent coins -/

def Coin.unspent (c : Coin) : Option Coin :=
  if c.isSpent then none else some c

theorem Coin.unspent_eq_none {c : Coin} : c.unspent = none ↔ c.isSpent = true := by
  unfold Coin.unspent
  split_ifs with h
  · simp [h]
  · simp [h]

theorem Coin.unspent_eq_some {c d : Coin} : c.unspent = some d ↔ c = d ∧ c.isSpent = false := by
  unfold Coin.unspent
  split_ifs with h
  · simp [h]
  · simp [h]

namespace CCoinsViewCache

variable {v v' : CCoinsViewCache} {o : COutPoint} {c : Coin} {e : CCoinsCacheEntry}

def baseUnspent (v : CCoinsViewCache) (o : COutPoint) : Option Coin :=
  (v.base o).bind Coin.unspent

def unspent (v : CCoinsViewCache) (o : COutPoint) : Option Coin :=
  match v.cacheCoins[o]? with
  | some e => e.coin.unspent
  | none => v.baseUnspent o

/-- The flags are right: the base does not have fresh coins, and has those that are not dirty. -/
structure Sound (v : CCoinsViewCache) : Prop where
  fresh : ∀ o e, v.cacheCoins[o]? = some e → e.fresh = true → v.baseUnspent o = none
  clean : ∀ o e, v.cacheCoins[o]? = some e → e.dirty = false → e.coin.unspent = v.baseUnspent o

/-- An outpoint that is not in the cache is not in the base. -/
def Settled (v : CCoinsViewCache) (o : COutPoint) : Prop :=
  v.cacheCoins[o]? = none → v.baseUnspent o = none

theorem unspent_of_entry (h : v.cacheCoins[o]? = some e) : v.unspent o = e.coin.unspent := by
  rw [unspent, h]

theorem unspent_of_none (h : v.cacheCoins[o]? = none) : v.unspent o = v.baseUnspent o := by
  rw [unspent, h]

theorem settled_of_unspent (h : v.unspent o = none) : v.Settled o := by
  intro hnone
  rw [← unspent_of_none hnone]
  exact h

theorem isSpent_of_unspent (h : v.unspent o = some c) : c.isSpent = false := by
  -- the coin of the entry, or that of the base
  have hcoin : ∃ b : Coin, b.unspent = some c := by
    unfold unspent at h
    split at h
    · exact ⟨_, h⟩
    · exact (Option.bind_eq_some_iff.mp h).imp fun b hb => hb.2
  obtain ⟨b, hb⟩ := hcoin
  obtain ⟨rfl, hspent⟩ := Coin.unspent_eq_some.mp hb
  exact hspent

/-! ### Entries -/

theorem unspent_insert (v : CCoinsViewCache) (o : COutPoint) (e : CCoinsCacheEntry) :
    ({ v with cacheCoins := v.cacheCoins.insert o e } : CCoinsViewCache).unspent = update v.unspent o e.coin.unspent := by
  funext o'
  unfold unspent
  rw [Map.get_insert]
  by_cases ho : o' = o
  · subst ho
    simp
  · rw [if_neg ho, update_of_ne ho]
    rfl

theorem unspent_erase (hbase : v.baseUnspent o = none) :
    ({ v with cacheCoins := v.cacheCoins.erase o } : CCoinsViewCache).unspent = update v.unspent o none := by
  funext o'
  unfold unspent
  rw [Map.get_erase]
  by_cases ho : o' = o
  · subst ho
    rw [if_pos rfl, update_self]
    exact hbase
  · rw [if_neg ho, update_of_ne ho]
    rfl

theorem Sound.insert (h : v.Sound) (hfresh : e.fresh = true → v.baseUnspent o = none)
    (hclean : e.dirty = false → e.coin.unspent = v.baseUnspent o) :
    ({ v with cacheCoins := v.cacheCoins.insert o e } : CCoinsViewCache).Sound := by
  constructor
  · exact Map.forall_insert h.fresh hfresh
  · exact Map.forall_insert h.clean hclean

theorem Sound.erase (h : v.Sound) (o : COutPoint) : ({ v with cacheCoins := v.cacheCoins.erase o } : CCoinsViewCache).Sound := by
  constructor
  · exact fun o' e' hentry => h.fresh o' e' (Map.get_of_get_erase hentry)
  · exact fun o' e' hentry => h.clean o' e' (Map.get_of_get_erase hentry)

theorem Settled.insert (h : v.Settled o) (o' : COutPoint) (e : CCoinsCacheEntry) :
    ({ v with cacheCoins := v.cacheCoins.insert o' e } : CCoinsViewCache).Settled o := by
  intro hnone
  rw [Map.get_insert] at hnone
  split_ifs at hnone
  exact h hnone

theorem Settled.erase {o' : COutPoint} (h : v.Settled o) (hbase : v.baseUnspent o' = none) :
    ({ v with cacheCoins := v.cacheCoins.erase o' } : CCoinsViewCache).Settled o := by
  intro hnone
  rw [Map.get_erase] at hnone
  split_ifs at hnone with ho
  · subst ho
    exact hbase
  · exact h hnone

/-! ### Operations as updates -/

/-- The view has other coins, its flags are still right, and no settled outpoint is lost. -/
structure Becomes (v v' : CCoinsViewCache) (coins : COutPoint → Option Coin) : Prop where
  sound : v'.Sound
  unspent : v'.unspent = coins
  settled : ∀ o, v.Settled o → v'.Settled o

theorem Becomes.refl (h : v.Sound) : v.Becomes v v.unspent :=
  ⟨h, rfl, fun _ ho => ho⟩

theorem Becomes.trans {v₁ v₂ v₃ : CCoinsViewCache} {coins coins' : COutPoint → Option Coin} (h : v₁.Becomes v₂ coins)
    (h' : v₂.Becomes v₃ coins') : v₁.Becomes v₃ coins' :=
  ⟨h'.sound, h'.unspent, fun o ho => h'.settled o (h.settled o ho)⟩

theorem fetchCoin_spec (h : v.Sound) (o : COutPoint) :
    v.Becomes (v.fetchCoin o).1 v.unspent ∧ (v.fetchCoin o).1.cacheCoins[o]? = (v.fetchCoin o).2 ∧
      ((v.fetchCoin o).2 = none → v.unspent o = none) := by
  unfold fetchCoin
  split
  next e hentry => exact ⟨Becomes.refl h, hentry, fun hnone => absurd hnone (by simp)⟩
  next hnone =>
    split
    next hbase =>
      refine ⟨Becomes.refl h, hnone, fun _ => ?_⟩
      rw [unspent_of_none hnone, baseUnspent, hbase]
      rfl
    next tmp hbase =>
      have htmp : tmp.unspent = v.baseUnspent o := by
        rw [baseUnspent, hbase]
        rfl
      refine ⟨⟨?_, ?_, fun o' ho' => ho'.insert o _⟩, ?_, fun hnone => absurd hnone (by simp)⟩
      · apply h.insert
        · intro hspent
          rw [← htmp]
          exact Coin.unspent_eq_none.mpr hspent
        · intro _
          exact htmp
      · rw [unspent_insert]
        show update v.unspent o tmp.unspent = v.unspent
        rw [htmp, ← unspent_of_none hnone, update_eq_self]
      · rw [Map.get_insert, if_pos rfl]

theorem accessCoin_spec (h : v.Sound) (o : COutPoint) :
    v.Becomes (v.accessCoin o).1 v.unspent ∧ (v.accessCoin o).2.unspent = v.unspent o := by
  obtain ⟨hbecomes, hentry, hnone⟩ := fetchCoin_spec h o
  refine ⟨hbecomes, ?_⟩
  unfold accessCoin
  dsimp only
  cases hr : (v.fetchCoin o).2 with
  | none =>
    rw [hnone hr]
    rfl
  | some e =>
    rw [hr] at hentry
    rw [← hbecomes.unspent, unspent_of_entry hentry]
    rfl

theorem haveCoin_spec (h : v.Sound) (o : COutPoint) :
    v.Becomes (v.haveCoin o).1 v.unspent ∧ (v.haveCoin o).2 = (v.unspent o).isSome := by
  obtain ⟨hbecomes, hcoin⟩ := accessCoin_spec h o
  refine ⟨hbecomes, ?_⟩
  rw [← hcoin]
  show (!(v.accessCoin o).2.isSpent) = _
  unfold Coin.unspent
  cases (v.accessCoin o).2.isSpent <;> rfl

theorem spendCoin_spec (h : v.Sound) (o : COutPoint) :
    v.Becomes (v.spendCoin o).1 (update v.unspent o none) ∧
      ∀ c, v.unspent o = some c → (v.spendCoin o).2 = some c := by
  obtain ⟨hbecomes, hentry, hnone⟩ := fetchCoin_spec h o
  unfold spendCoin
  generalize v.fetchCoin o = r at hbecomes hentry hnone
  obtain ⟨v₁, entry⟩ := r
  cases entry with
  | none =>
    have ho : v.unspent o = none := hnone rfl
    refine ⟨⟨hbecomes.sound, ?_, hbecomes.settled⟩, fun c hc => ?_⟩
    · rw [← ho, update_eq_self]
      exact hbecomes.unspent
    · rw [ho] at hc
      cases hc
  | some e =>
    have hentry : v₁.cacheCoins[o]? = some e := hentry
    have hunspent : v₁.unspent = v.unspent := hbecomes.unspent
    have hcoin : ∀ c, v.unspent o = some c → e.coin = c := by
      intro c hc
      rw [← hunspent, unspent_of_entry hentry] at hc
      exact (Coin.unspent_eq_some.mp hc).1
    dsimp only
    split_ifs with hfresh
    · have hbase := hbecomes.sound.fresh o e hentry hfresh
      refine ⟨⟨hbecomes.sound.erase o, ?_, fun o' ho' => (hbecomes.settled o' ho').erase hbase⟩, fun c hc => ?_⟩
      · rw [unspent_erase hbase, hunspent]
      · rw [hcoin c hc]
    · refine ⟨⟨hbecomes.sound.insert ?_ ?_, ?_, fun o' ho' => (hbecomes.settled o' ho').insert o _⟩, fun c hc => ?_⟩
      · exact fun hflag => absurd hflag hfresh
      · exact fun hflag => absurd hflag (by simp)
      · rw [unspent_insert, hunspent]
        rfl
      · rw [hcoin c hc]

/-- The coins after an output was added, if it can be spent at all. -/
def put (coins : COutPoint → Option Coin) (o : COutPoint) (c : Coin) : COutPoint → Option Coin :=
  if c.out.scriptPubKey.isUnspendable then coins else update coins o (some c)

theorem addCoin_of_none (h : v.Sound) (ho : v.unspent o = none) (hc : c.isSpent = false) (possibleOverwrite : Bool) :
    ∃ v', v.addCoin o c possibleOverwrite = some v' ∧ v.Becomes v' (put v.unspent o c) := by
  unfold addCoin put
  rw [if_neg (by rw [hc]; simp)]
  by_cases hscript : c.out.scriptPubKey.isUnspendable = true
  · rw [if_pos hscript, if_pos hscript]
    exact ⟨v, rfl, Becomes.refl h⟩
  · rw [if_neg hscript, if_neg hscript]
    have hunspent : c.unspent = some c := Coin.unspent_eq_some.mpr ⟨rfl, hc⟩
    have hbase : (v.cacheCoins[o]?.getD {}).coin.isSpent = true ∧
        ((v.cacheCoins[o]?.getD {}).fresh = true ∨ (v.cacheCoins[o]?.getD {}).dirty = false → v.baseUnspent o = none) := by
      cases hentry : v.cacheCoins[o]? with
      | none => exact ⟨rfl, fun _ => unspent_of_none hentry ▸ ho⟩
      | some e =>
        rw [unspent_of_entry hentry] at ho
        refine ⟨Coin.unspent_eq_none.mp ho, ?_⟩
        rintro (hfresh | hclean)
        · exact h.fresh o e hentry hfresh
        · -- a spent entry that is not dirty is not in the base either
          rw [← h.clean o e hentry hclean]
          exact ho
    refine ⟨_, if_neg (by simp [hbase.1]), h.insert (fun hflag => hbase.2 ?_) fun hflag => absurd hflag (by simp), ?_,
      fun o' ho' => ho'.insert o _⟩
    · simp only [Bool.or_eq_true, Bool.and_eq_true, Bool.not_eq_true'] at hflag
      exact hflag.imp_right And.right
    · rw [unspent_insert, hunspent]

theorem unspent_of_addCoin (ho : v.Settled o) (h : v.addCoin o c false = some v') :
    c.isSpent = false ∧ (c.out.scriptPubKey.isUnspendable = true ∨ v.unspent o = none) := by
  unfold addCoin at h
  split_ifs at h with hspent hscript
  · exact ⟨by simpa using hspent, .inl hscript⟩
  · refine ⟨by simpa using hspent, .inr ?_⟩
    cases hcache : v.cacheCoins[o]? with
    | none =>
      rw [unspent_of_none hcache]
      exact ho hcache
    | some e =>
      rw [unspent_of_entry hcache, Coin.unspent_eq_none]
      by_contra hunspent
      rw [hcache, Option.getD_some] at h
      simp [hunspent] at h

end CCoinsViewCache

end Chainstate

end OmegaCore
