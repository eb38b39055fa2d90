import OmegaCore.Llmq.InstantSendLocks

/-!
The verification of pending signature shares.  A call takes shares of the peers in turn and verifies
them as one batch, in which all shares of one quorum member for one sign hash are one message.  Then
all shares of a peer are handed on, or the peer is banned.  So a peer may be judged by the share of
another peer, and by nothing if its own shares are not pushed.
-/

namespace OmegaCore.Llmq

open CBLSBatchVerifier List

/-- The signature is decoded when it is looked at. -/
structure CSigShare where
  llmqType : BitVec 8
  quorumHash : Uint256
  id : Uint256
  msgHash : Uint256
  quorumMember : BitVec 16
  sigShare : CBLSSignature
  deriving DecidableEq

/-- A sign hash and a quorum member. -/
abbrev SigShareKey := Uint256 × BitVec 16

/-- What a verification looks up.  The verification vector of a quorum was checked before a share became pending, so
every member has a public key share. -/
structure ShareEnv where
  buildSignHash : BitVec 8 → Uint256 → Uint256 → Uint256 → Uint256
  hasRecoveredSigForId : BitVec 8 → Uint256 → Bool
  getPubKeyShare : BitVec 8 → Uint256 → BitVec 16 → G1Element
  verifyInsecure : G1Element → Uint256 → G2Element → Bool
  /-- Whether `sigShares` has a verified share. -/
  hasSigShare : SigShareKey → Bool

/-- An unordered map from peers to shares, in the order of its iteration. -/
abbrev SharesByNode := List (NodeId × List CSigShare)

/-- The order in which a map iterates. -/
abbrev HashOrder := ∀ l : SharesByNode, { l' : SharesByNode // l'.Perm l }

variable (E : ShareEnv)

namespace ShareEnv

def signHash (s : CSigShare) : Uint256 :=
  E.buildSignHash s.llmqType s.quorumHash s.id s.msgHash

/-- `UpdateKey`. -/
def key (s : CSigShare) : SigShareKey :=
  (E.signHash s, s.quorumMember)

def pubKeyShare (s : CSigShare) : G1Element :=
  E.getPubKeyShare s.llmqType s.quorumHash s.quorumMember

end ShareEnv

/-! ### Collecting shares -/

/-- The state of `IterateNodesRandom`: the peers of `rndNodes` from `idx` on and around, each with its pending shares. -/
structure Collecting where
  rndNodes : SharesByNode
  uniqueSignHashes : List (NodeId × Uint256) := []
  retSigShares : List (NodeId × CSigShare) := []
  deriving DecidableEq

/-- The callback for one peer.  A peer without further shares is erased, the others are asked again in turn. -/
def collectFirst (c : Collecting) : Collecting :=
  match c.rndNodes with
  | [] => c
  | (_, []) :: rest => { c with rndNodes := rest }
  | (nodeId, s :: pending) :: rest =>
    let rndNodes := if pending.isEmpty then rest else rest ++ [(nodeId, pending)]
    if E.hasSigShare (E.key s) then { c with rndNodes := rndNodes }
    else
      { rndNodes := rndNodes
        uniqueSignHashes := c.uniqueSignHashes.insert (nodeId, E.signHash s)
        retSigShares := c.retSigShares ++ [(nodeId, s)] }

def Collecting.isDone (maxUniqueSessions : ℕ) (c : Collecting) : Bool :=
  c.rndNodes.isEmpty || decide (maxUniqueSessions ≤ c.uniqueSignHashes.length)

/-- `IterateNodesRandom`, for at most so many turns. -/
def iterateNodes (maxUniqueSessions : ℕ) : ℕ → Collecting → Collecting
  | 0, c => c
  | fuel + 1, c =>
    if c.isDone maxUniqueSessions then c else iterateNodes maxUniqueSessions fuel (collectFirst E c)

/-- The turns that the pending shares of the peers allow. -/
def turns (nodes : SharesByNode) : ℕ :=
  (nodes.map fun p => p.2.length + 1).sum

def groupByNode (shares : List (NodeId × CSigShare)) : SharesByNode :=
  (shares.map Prod.fst).dedup.map fun nodeId => (nodeId, (shares.filter (·.1 = nodeId)).map Prod.snd)

/-- `CollectPendingSigSharesToVerify` for the shuffled peers.  The result is a map, which iterates in its own order. -/
def collectPendingSigSharesToVerify (maxUniqueSessions : ℕ) (order : HashOrder) (nodes : SharesByNode) : SharesByNode :=
  (order (groupByNode (iterateNodes E maxUniqueSessions (turns nodes) { rndNodes := nodes }).retSigShares)).1

/-! ### Verifying a batch -/

abbrev ShareVerifier := CBLSBatchVerifier NodeId SigShareKey

/-- The shares of one peer, and whether the peer is banned for a malformed one. -/
def pushShares (nodeId : NodeId) : List CSigShare → ShareVerifier → ShareVerifier × Bool
  | [], v => (v, false)
  | s :: rest, v =>
    if E.hasRecoveredSigForId s.llmqType s.id then pushShares nodeId rest v
    else
      match s.sigShare with
      -- no additional shares of this node are verified
      | none => (v, true)
      | some sig =>
        pushShares nodeId rest (v.pushMessage E.verifyInsecure nodeId ⟨E.key s, E.signHash s, sig, E.pubKeyShare s⟩)

/-- The first loop: all peers, and those that are banned for a malformed share. -/
def pushNodes : SharesByNode → ShareVerifier × List NodeId → ShareVerifier × List NodeId
  | [], r => r
  | p :: rest, (v, banned) =>
    let (v, isMalformed) := pushShares E p.1 p.2 v
    pushNodes rest (v, if isMalformed then banned ++ [p.1] else banned)

/-- What a call does: the shares for `ProcessSigShare`, the calls of `BanNode`, and whether there is more work. -/
structure ShareResult where
  processed : List CSigShare := []
  banned : List NodeId := []
  moreWork : Bool := false
  deriving DecidableEq

/-- `ProcessPendingSigShares` for a batch of at most `nMaxBatchSize` sessions. -/
def processBatch (nMaxBatchSize : ℕ) (sigSharesByNodes : SharesByNode) : ShareResult :=
  if sigSharesByNodes.isEmpty then {}
  else
    let (batchVerifier, malformed) := pushNodes E sigSharesByNodes ({ perMessageFallback := true }, [])
    let batchVerifier := batchVerifier.verify E.verifyInsecure
    let isBad := fun p : NodeId × List CSigShare => batchVerifier.badSources.contains p.1
    { processed := (sigSharesByNodes.filter fun p => !isBad p).flatMap Prod.snd
      banned := malformed ++ (sigSharesByNodes.filter isBad).map Prod.fst
      moreWork := decide (nMaxBatchSize ≤ sigSharesByNodes.length) }

def processPendingSigShares (order : HashOrder) (nodes : SharesByNode) : ShareResult :=
  processBatch E 32 (collectPendingSigSharesToVerify E 32 order nodes)

/-! ### What is collected -/

theorem nodup_collectPendingSigSharesToVerify {maxUniqueSessions : ℕ} {order : HashOrder} {nodes : SharesByNode} :
    ((collectPendingSigSharesToVerify E maxUniqueSessions order nodes).map Prod.fst).Nodup := by
  rw [collectPendingSigSharesToVerify, ((order _).2.map Prod.fst).nodup_iff, groupByNode, map_map]
  have hid : (Prod.fst ∘ fun nodeId => (nodeId, ((iterateNodes E maxUniqueSessions (turns nodes)
      { rndNodes := nodes }).retSigShares.filter (·.1 = nodeId)).map Prod.snd)) = id := by
    funext nodeId
    rfl
  rw [hid, map_id]
  exact nodup_dedup _

theorem mem_collectFirst {c : Collecting} {q : NodeId × CSigShare} :
    ((∃ p ∈ (collectFirst E c).rndNodes, p.1 = q.1 ∧ q.2 ∈ p.2) → ∃ p ∈ c.rndNodes, p.1 = q.1 ∧ q.2 ∈ p.2) ∧
      (q ∈ (collectFirst E c).retSigShares → q ∈ c.retSigShares ∨
        E.hasSigShare (E.key q.2) = false ∧ ∃ p ∈ c.rndNodes, p.1 = q.1 ∧ q.2 ∈ p.2) := by
  obtain ⟨rndNodes, uniqueSignHashes, retSigShares⟩ := c
  match rndNodes with
  | [] => exact ⟨id, .inl⟩
  | (n, []) :: rest => exact ⟨fun ⟨p, hp, h⟩ => ⟨p, mem_cons_of_mem _ hp, h⟩, .inl⟩
  | (n, s :: pending) :: rest =>
    have hrest : (∃ p ∈ if pending.isEmpty then rest else rest ++ [(n, pending)], p.1 = q.1 ∧ q.2 ∈ p.2) →
        ∃ p ∈ (n, s :: pending) :: rest, p.1 = q.1 ∧ q.2 ∈ p.2 := by
      rintro ⟨p, hp, hnode, hmem⟩
      have hp' : p ∈ rest ∨ p = (n, pending) := by
        split_ifs at hp
        · exact .inl hp
        · simpa using hp
      rcases hp' with hp | rfl
      · exact ⟨p, mem_cons_of_mem _ hp, hnode, hmem⟩
      · exact ⟨_, mem_cons_self, hnode, mem_cons_of_mem _ hmem⟩
    by_cases hknown : E.hasSigShare (E.key s) = true
    · simp only [collectFirst, if_pos hknown]
      exact ⟨hrest, .inl⟩
    · simp only [collectFirst, if_neg hknown]
      refine ⟨hrest, fun hq => (mem_append.mp hq).imp_right fun hq => ?_⟩
      rw [mem_singleton.mp hq]
      exact ⟨by simpa using hknown, _, mem_cons_self, rfl, mem_cons_self⟩

/-- What is collected was pending, and no verified share was there for it. -/
theorem mem_iterateNodes {maxUniqueSessions fuel : ℕ} {c : Collecting} {q : NodeId × CSigShare}
    (hq : q ∈ (iterateNodes E maxUniqueSessions fuel c).retSigShares) : q ∈ c.retSigShares ∨
      E.hasSigShare (E.key q.2) = false ∧ ∃ p ∈ c.rndNodes, p.1 = q.1 ∧ q.2 ∈ p.2 := by
  induction fuel generalizing c with
  | zero => exact .inl hq
  | succ fuel ih =>
    rw [iterateNodes] at hq
    split_ifs at hq
    · exact .inl hq
    · rcases ih hq with hq | ⟨hnew, hq⟩
      · exact (mem_collectFirst E).2 hq
      · exact .inr ⟨hnew, (mem_collectFirst E).1 hq⟩

theorem mem_collectPendingSigSharesToVerify {maxUniqueSessions : ℕ} {order : HashOrder} {nodes : SharesByNode}
    {p : NodeId × List CSigShare} (hp : p ∈ collectPendingSigSharesToVerify E maxUniqueSessions order nodes)
    {s : CSigShare} (hs : s ∈ p.2) :
    E.hasSigShare (E.key s) = false ∧ ∃ p' ∈ nodes, p'.1 = p.1 ∧ s ∈ p'.2 := by
  rw [collectPendingSigSharesToVerify, (order _).2.mem_iff, groupByNode] at hp
  obtain ⟨n, -, rfl⟩ := mem_map.mp hp
  obtain ⟨q, hmem, rfl⟩ := mem_map.mp hs
  obtain ⟨hq, hnode⟩ := mem_filter.mp hmem
  obtain rfl := of_decide_eq_true hnode
  exact (mem_iterateNodes E hq).resolve_left not_mem_nil

/-! ### What is verified -/

namespace ShareEnv

/-- A share that verifies on its own under the public key share of its member. -/
def verifies (s : CSigShare) : Bool :=
  match s.sigShare with
  | none => false
  | some sig => E.verifyInsecure (E.pubKeyShare s) (E.signHash s) sig

/-- The shares of a peer that are pushed: those without a recovered signature, up to the first malformed one. -/
def checkedShares : List CSigShare → List CSigShare
  | [] => []
  | s :: rest =>
    if E.hasRecoveredSigForId s.llmqType s.id then checkedShares rest
    else if s.sigShare.isNone then []
    else s :: checkedShares rest

def pushed (sigSharesByNodes : SharesByNode) : List (NodeId × CSigShare) :=
  sigSharesByNodes.flatMap fun p => (E.checkedShares p.2).map fun s => (p.1, s)

/-- The first share with the key of a share decides on all of them. -/
def decisive (pushed : List (NodeId × CSigShare)) (s : CSigShare) : CSigShare :=
  ((pushed.find? fun q => decide (E.key q.2 = E.key s)).map Prod.snd).getD s

/-- The shares of a peer verify exactly if those shares verify that decide on the ones it has checked. -/
def JudgedByOwn (sigSharesByNodes : SharesByNode) (p : NodeId × List CSigShare) : Prop :=
  (∀ s ∈ p.2, E.verifies s = true) ↔
    ∀ s ∈ E.checkedShares p.2, E.verifies (E.decisive (E.pushed sigSharesByNodes) s) = true

def message (s : CSigShare) : BatchMessage SigShareKey :=
  ⟨E.key s, E.signHash s, s.sigShare.getD ⟨0⟩, E.pubKeyShare s⟩

variable {E}

theorem mem_of_mem_checkedShares {l : List CSigShare} {s : CSigShare} (h : s ∈ E.checkedShares l) :
    s ∈ l ∧ s.sigShare.isSome = true := by
  induction l with
  | nil => cases h
  | cons x l ih =>
    rw [checkedShares] at h
    split_ifs at h with hrec hnone
    · exact ⟨mem_cons_of_mem _ (ih h).1, (ih h).2⟩
    · cases h
    · rcases mem_cons.mp h with rfl | h
      · refine ⟨mem_cons_self, ?_⟩
        cases hs : s.sigShare with
        | none => simp [hs] at hnone
        | some sig => rfl
      · exact ⟨mem_cons_of_mem _ (ih h).1, (ih h).2⟩

theorem free_of_mem_checkedShares {l : List CSigShare} {s : CSigShare} (h : s ∈ E.checkedShares l) :
    E.hasRecoveredSigForId s.llmqType s.id = false := by
  induction l with
  | nil => cases h
  | cons x l ih =>
    rw [checkedShares] at h
    split_ifs at h with hrec hnone
    · exact ih h
    · cases h
    · rcases mem_cons.mp h with rfl | h
      · simpa using hrec
      · exact ih h

theorem verifiesMessage_message {s : CSigShare} (h : s.sigShare.isSome = true) :
    verifiesMessage E.verifyInsecure (E.message s) = E.verifies s := by
  obtain ⟨sig, hsig⟩ := Option.isSome_iff_exists.mp h
  simp [verifiesMessage, message, verifies, hsig]

variable {q : NodeId × CSigShare}

theorem decisive_append {l m : List (NodeId × CSigShare)} (h : q ∈ l) : E.decisive (l ++ m) q.2 = E.decisive l q.2 := by
  have hsome : (l.find? fun r => decide (E.key r.2 = E.key q.2)).isSome = true := by
    rw [find?_isSome]
    exact ⟨q, h, decide_eq_true rfl⟩
  rw [decisive, decisive, find?_append, Option.or_of_isSome hsome]

variable {l : List (NodeId × CSigShare)}

theorem decisive_mem (h : q ∈ l) : ∃ r ∈ l, E.decisive l q.2 = r.2 := by
  unfold decisive
  cases hfind : l.find? (fun r => decide (E.key r.2 = E.key q.2)) with
  | none => exact ⟨q, h, rfl⟩
  | some r => exact ⟨r, mem_of_find?_eq_some hfind, rfl⟩

structure Holds (E : ShareEnv) (v : ShareVerifier) (l : List (NodeId × CSigShare)) : Prop where
  tracks : Tracks E.verifyInsecure 0 v [] [] (l.map fun q => (q.1, E.message (E.decisive l q.2)))
  find : ∀ k, v.messages.find? (fun m => decide (m.msgId = k)) =
    (l.find? fun q => decide (E.key q.2 = k)).map fun q => E.message q.2

variable {v : ShareVerifier}

theorem Holds.push (h : Holds E v l) (nodeId : NodeId)
    (s : CSigShare) : Holds E (v.pushMessage E.verifyInsecure nodeId (E.message s)) (l ++ [(nodeId, s)]) := by
  obtain ⟨htracks, hmessages⟩ := h.tracks.pushMessage_zero nodeId (E.message s)
  have hfind := h.find (E.key s)
  have hknown : (v.messages.find? fun m => decide (m.msgId = (E.message s).msgId)).getD (E.message s) =
      E.message (E.decisive (l ++ [(nodeId, s)]) s) := by
    rw [show (E.message s).msgId = E.key s from rfl, hfind, decisive, find?_append]
    cases l.find? (fun q => decide (E.key q.2 = E.key s)) with
    | none => simp
    | some q => rfl
  constructor
  · rw [hknown] at htracks
    have hsame : (l.map fun q => (q.1, E.message (E.decisive (l ++ [(nodeId, s)]) q.2))) =
        l.map fun q => (q.1, E.message (E.decisive l q.2)) :=
      map_congr_left fun q hq => by rw [decisive_append hq]
    rw [map_append, hsame]
    exact htracks
  · intro k
    rw [hmessages, find?_append, Option.map_or, show (E.message s).msgId = E.key s from rfl, hfind,
      Option.isSome_map, ← h.find k]
    by_cases hk : E.key s = k
    · subst hk
      cases hl : l.find? (fun q => decide (E.key q.2 = E.key s)) with
      | none =>
        have hmsgs : v.messages.find? (fun m => decide (m.msgId = E.key s)) = none := by rw [hfind, hl]; rfl
        rw [if_neg (by simp), find?_append, hmsgs]
        simp [message]
      | some q =>
        rw [if_pos (Option.isSome_some), hfind, hl]
        rfl
    · have hskip : [(nodeId, s)].find? (fun q => decide (E.key q.2 = k)) = none := by simp [hk]
      rw [hskip, Option.map_none, Option.or_none]
      split_ifs
      · rfl
      · have hskip' : [E.message s].find? (fun m => decide (m.msgId = k)) = none := by simp [message, hk]
        rw [find?_append, hskip', Option.or_none]

/-- The shares of one peer: those that are checked are pushed, and the peer is banned if one is malformed. -/
theorem Holds.pushShares (h : Holds E v l) (nodeId : NodeId) (shares : List CSigShare) :
    Holds E (Llmq.pushShares E nodeId shares v).1 (l ++ (E.checkedShares shares).map fun s => (nodeId, s)) ∧
      ((Llmq.pushShares E nodeId shares v).2 = true → ∃ s ∈ shares, E.verifies s = false) := by
  induction shares generalizing v l with
  | nil => exact ⟨by simpa [Llmq.pushShares, checkedShares] using h, by simp [Llmq.pushShares]⟩
  | cons s shares ih =>
    rw [Llmq.pushShares, checkedShares]
    by_cases hrec : E.hasRecoveredSigForId s.llmqType s.id = true
    · rw [if_pos hrec, if_pos hrec]
      obtain ⟨hholds, hban⟩ := ih h
      refine ⟨hholds, fun hb => ?_⟩
      obtain ⟨x, hx, hfail⟩ := hban hb
      exact ⟨x, mem_cons_of_mem _ hx, hfail⟩
    · rw [if_neg hrec, if_neg hrec]
      cases hsig : s.sigShare with
      | none =>
        refine ⟨by simpa using h, fun _ => ⟨s, mem_cons_self, ?_⟩⟩
        simp [verifies, hsig]
      | some sig =>
        have hmessage : E.message s = ⟨E.key s, E.signHash s, sig, E.pubKeyShare s⟩ := by simp [message, hsig]
        obtain ⟨hholds, hban⟩ := ih (hmessage ▸ h.push nodeId s)
        rw [append_assoc] at hholds
        refine ⟨hholds, fun hb => ?_⟩
        obtain ⟨x, hx, hfail⟩ := hban hb
        exact ⟨x, mem_cons_of_mem _ hx, hfail⟩

theorem Holds.pushNodes (h : Holds E v l) (sigSharesByNodes : SharesByNode) (banned : List NodeId) :
    Holds E (Llmq.pushNodes E sigSharesByNodes (v, banned)).1 (l ++ E.pushed sigSharesByNodes) ∧
      ∀ n ∈ (Llmq.pushNodes E sigSharesByNodes (v, banned)).2,
        n ∈ banned ∨ ∃ p ∈ sigSharesByNodes, p.1 = n ∧ ∃ s ∈ p.2, E.verifies s = false := by
  induction sigSharesByNodes generalizing v l banned with
  | nil => exact ⟨by simpa [Llmq.pushNodes, pushed] using h, fun n hn => .inl hn⟩
  | cons p rest ih =>
    obtain ⟨hp, hmalformed⟩ := h.pushShares p.1 p.2
    obtain ⟨hholds, hbanned⟩ := ih hp (if (Llmq.pushShares E p.1 p.2 v).2 then banned ++ [p.1] else banned)
    rw [append_assoc] at hholds
    refine ⟨hholds, fun n hn => ?_⟩
    rcases hbanned n hn with hn | ⟨q, hq, hfail⟩
    · split_ifs at hn with hb
      · rcases mem_append.mp hn with hn | hn
        · exact .inl hn
        · exact .inr ⟨p, mem_cons_self, (mem_singleton.mp hn).symm, hmalformed hb⟩
      · exact .inl hn
    · exact .inr ⟨q, mem_cons_of_mem _ hq, hfail⟩

theorem holds_nil : Holds E { perMessageFallback := true } [] where
  tracks := ⟨rfl, rfl, by simp, by simp, by simp, by simp⟩
  find := by simp

end ShareEnv

/-! ### Authentic shares -/

variable {E}

open ShareEnv

variable {sigSharesByNodes : SharesByNode}

/-- A peer is a bad source if a share that decides on one of its checked shares does not verify. -/
theorem mem_badSources (hnodup : (sigSharesByNodes.map Prod.fst).Nodup)
    {v : ShareVerifier} (h : Holds E v (E.pushed sigSharesByNodes)) {p : NodeId × List CSigShare}
    (hp : p ∈ sigSharesByNodes) :
    p.1 ∈ (v.verify E.verifyInsecure).badSources ↔
      ∃ s ∈ E.checkedShares p.2, E.verifies (E.decisive (E.pushed sigSharesByNodes) s) = false := by
  have hverifies : ∀ q ∈ E.pushed sigSharesByNodes,
      verifiesMessage E.verifyInsecure (E.message (E.decisive (E.pushed sigSharesByNodes) q.2)) =
        E.verifies (E.decisive (E.pushed sigSharesByNodes) q.2) := by
    intro q hq
    obtain ⟨r, hr, heq⟩ := decisive_mem hq
    obtain ⟨p', -, hr⟩ := mem_flatMap.mp hr
    obtain ⟨s, hs, rfl⟩ := mem_map.mp hr
    rw [heq]
    exact verifiesMessage_message (mem_of_mem_checkedShares hs).2
  rw [(h.tracks.verify).2.1 p.1]
  constructor
  · rintro (hmarked | ⟨m, hm, hnode, hfail⟩)
    · cases hmarked
    · obtain ⟨q, hq, rfl⟩ := mem_map.mp hm
      rw [hverifies q hq] at hfail
      obtain ⟨p', hp', hmem⟩ := mem_flatMap.mp hq
      obtain ⟨s, hs, rfl⟩ := mem_map.mp hmem
      obtain rfl := inj_on_of_nodup_map hnodup hp' hp hnode
      exact ⟨s, hs, hfail⟩
  · rintro ⟨s, hs, hfail⟩
    have hq : (p.1, s) ∈ E.pushed sigSharesByNodes :=
      mem_flatMap.mpr ⟨p, hp, mem_map.mpr ⟨s, hs, rfl⟩⟩
    exact .inr ⟨_, mem_map.mpr ⟨(p.1, s), hq, rfl⟩, rfl, (hverifies _ hq).trans hfail⟩

/-- For a batch: what is handed on verifies, and who is banned sent a share that does not, exactly if every peer is
judged by its own shares. -/
theorem processBatch_iff {nMaxBatchSize : ℕ} (hnodup : (sigSharesByNodes.map Prod.fst).Nodup) :
    ((∀ s ∈ (processBatch E nMaxBatchSize sigSharesByNodes).processed, E.verifies s = true) ∧
      ∀ n ∈ (processBatch E nMaxBatchSize sigSharesByNodes).banned,
        ∃ p ∈ sigSharesByNodes, p.1 = n ∧ ∃ s ∈ p.2, E.verifies s = false) ↔
      ∀ p ∈ sigSharesByNodes, E.JudgedByOwn sigSharesByNodes p := by
  obtain ⟨hholds, hmalformed⟩ := holds_nil.pushNodes (E := E) sigSharesByNodes []
  have hbad := fun p hp => mem_badSources hnodup hholds (p := p) hp
  unfold processBatch
  split_ifs with hempty
  · rw [isEmpty_iff.mp hempty]
    simp
  · generalize Llmq.pushNodes E sigSharesByNodes ({ perMessageFallback := true }, []) = r at *
    obtain ⟨v, malformed⟩ := r
    have hfalse : ∀ s : CSigShare, E.verifies s = false ↔ ¬ E.verifies s = true := fun s => by simp
    constructor
    · rintro ⟨hprocessed, hbanned⟩ p hp
      constructor
      · intro hall
        by_contra hsome
        have hmem : p.1 ∈ (v.verify E.verifyInsecure).badSources := by
          rw [hbad p hp]
          simpa using hsome
        obtain ⟨q, hq, hnode, s, hs, hfail⟩ := hbanned p.1 (mem_append_right _
          (mem_map.mpr ⟨p, mem_filter.mpr ⟨hp, by simpa using hmem⟩, rfl⟩))
        obtain rfl := inj_on_of_nodup_map hnodup hq hp hnode
        exact (hfalse s).mp hfail (hall s hs)
      · intro hall s hs
        have hmem : ¬ p.1 ∈ (v.verify E.verifyInsecure).badSources := by
          rw [hbad p hp]
          simpa using hall
        exact hprocessed s (mem_flatMap.mpr ⟨p, mem_filter.mpr ⟨hp, by simpa using hmem⟩, hs⟩)
    · intro hown
      refine ⟨fun s hs => ?_, fun n hn => ?_⟩
      · obtain ⟨p, hp, hs⟩ := mem_flatMap.mp hs
        obtain ⟨hp, hgood⟩ := mem_filter.mp hp
        have hmem : ¬ p.1 ∈ (v.verify E.verifyInsecure).badSources := by simpa using hgood
        rw [hbad p hp] at hmem
        exact (hown p hp).mpr (by simpa using hmem) s hs
      · rcases mem_append.mp hn with hn | hn
        · exact (hmalformed n hn).resolve_left not_mem_nil
        · obtain ⟨p, hp, rfl⟩ := mem_map.mp hn
          obtain ⟨hp, hmem⟩ := mem_filter.mp hp
          have hmem : p.1 ∈ (v.verify E.verifyInsecure).badSources := by simpa using hmem
          rw [hbad p hp] at hmem
          refine ⟨p, hp, rfl, ?_⟩
          by_contra hnone
          obtain ⟨s, hs, hfail⟩ := hmem
          exact (hfalse _).mp hfail ((hown p hp).mp (by simpa using hnone) s hs)

variable (E) in
/-- Every share that is handed on verifies, and every peer that is banned has a pending share that does not. -/
def AuthenticShares (order : HashOrder) (nodes : SharesByNode) : Prop :=
  (∀ s ∈ (processPendingSigShares E order nodes).processed, E.verifies s = true) ∧
    ∀ n ∈ (processPendingSigShares E order nodes).banned, ∃ p ∈ nodes, p.1 = n ∧ ∃ s ∈ p.2, E.verifies s = false

/-- A peer sends a share, at one time or another. -/
def IsSent (nodes : SharesByNode) (n : NodeId) (s : CSigShare) : Prop :=
  ∃ p ∈ nodes, p.1 = n ∧ s ∈ p.2

variable (E) in
/-- The shares that are pending at one call: some of those that are sent, of a peer at most one for a key. -/
structure IsPart (pending nodes : SharesByNode) : Prop where
  peers : (pending.map Prod.fst).Nodup
  keys : ∀ p ∈ pending, (p.2.map E.key).Nodup
  sent : ∀ p ∈ pending, ∀ s ∈ p.2, IsSent nodes p.1 s

variable (E) in
/-- A share that does not verify is checked, and shares of two peers with one key have the same outcome. -/
structure JudgedAlike (nodes : SharesByNode) : Prop where
  checked : ∀ n s, IsSent nodes n s → E.hasSigShare (E.key s) = false → E.verifies s = false →
    s.sigShare.isSome = true ∧ E.hasRecoveredSigForId s.llmqType s.id = false
  alike : ∀ n s n' s', IsSent nodes n s → IsSent nodes n' s' → n ≠ n' → E.key s = E.key s' →
    E.hasSigShare (E.key s) = false → E.hasRecoveredSigForId s.llmqType s.id = false →
    E.hasRecoveredSigForId s'.llmqType s'.id = false → E.verifies s = E.verifies s'

/-- The map iterates in the order in which the peers were asked. -/
def metOrder : HashOrder := fun l =>
  ⟨l, .refl l⟩

section Alike

variable {nodes pending : SharesByNode} {n n' : NodeId} {s s' : CSigShare}

theorem mem_checkedShares_iff {l : List CSigShare}
    (hl : ∀ s ∈ l, E.hasRecoveredSigForId s.llmqType s.id = false → s.sigShare.isSome = true) :
    s ∈ E.checkedShares l ↔ s ∈ l ∧ E.hasRecoveredSigForId s.llmqType s.id = false := by
  induction l with
  | nil => simp [checkedShares]
  | cons x l ih =>
    have ih := ih fun s hs => hl s (mem_cons_of_mem _ hs)
    rw [checkedShares, mem_cons]
    by_cases hrec : E.hasRecoveredSigForId x.llmqType x.id = true
    · rw [if_pos hrec, ih]
      refine and_congr_left fun hs => ⟨.inr, fun h => h.resolve_left fun hx => ?_⟩
      rw [hx, hrec] at hs
      cases hs
    · have hsome := hl x mem_cons_self (by simpa using hrec)
      rw [if_neg hrec, if_neg (by simp [Option.isSome_iff_ne_none.mp hsome]), mem_cons, ih]
      constructor
      · rintro (rfl | hs)
        · exact ⟨.inl rfl, by simpa using hrec⟩
        · exact ⟨.inr hs.1, hs.2⟩
      · rintro ⟨rfl | hs, hfree⟩
        · exact .inl rfl
        · exact .inr ⟨hs, hfree⟩

theorem key_decisive {l : List (NodeId × CSigShare)} : E.key (E.decisive l s) = E.key s := by
  unfold decisive
  cases hfind : l.find? (fun r => decide (E.key r.2 = E.key s)) with
  | none => rfl
  | some r =>
    have hkey := find?_some hfind
    exact of_decide_eq_true hkey

theorem isPart_singleton (hs : IsSent nodes n s) : IsPart E [(n, [s])] nodes where
  peers := by simp
  keys := by simp
  sent := by simpa using hs

theorem isPart_pair (hn : n ≠ n') (hs : IsSent nodes n s) (hs' : IsSent nodes n' s') :
    IsPart E [(n, [s]), (n', [s'])] nodes where
  peers := by simpa using hn
  keys := by simp
  sent := by simpa using ⟨hs, hs'⟩

theorem collectPendingSigSharesToVerify_singleton (hs : E.hasSigShare (E.key s) = false) :
    collectPendingSigSharesToVerify E 32 metOrder [(n, [s])] = [(n, [s])] := by
  simp [collectPendingSigSharesToVerify, iterateNodes, turns, collectFirst, Collecting.isDone, hs, groupByNode,
    metOrder]

theorem collectPendingSigSharesToVerify_pair (hn : n ≠ n') (hs : E.hasSigShare (E.key s) = false)
    (hs' : E.hasSigShare (E.key s') = false) :
    collectPendingSigSharesToVerify E 32 metOrder [(n, [s]), (n', [s'])] = [(n, [s]), (n', [s'])] := by
  simp [hn, collectPendingSigSharesToVerify, iterateNodes, turns, collectFirst, Collecting.isDone, hs, hs',
    groupByNode, metOrder, hn.symm]

/-- Where everything pending is verified in one batch, each peer is judged by its own shares. -/
theorem AuthenticShares.judgedByOwn (h : AuthenticShares E metOrder pending) (hpeers : (pending.map Prod.fst).Nodup)
    (hall : collectPendingSigSharesToVerify E 32 metOrder pending = pending) :
    ∀ p ∈ pending, E.JudgedByOwn pending p := by
  rw [AuthenticShares, processPendingSigShares, hall] at h
  exact (processBatch_iff hpeers).mp h

/-- A share that is not checked is handed on, whether it verifies or not. -/
theorem checked_of_authenticShares (h : AuthenticShares E metOrder [(n, [s])])
    (hs : E.hasSigShare (E.key s) = false) (hfail : E.verifies s = false) :
    s.sigShare.isSome = true ∧ E.hasRecoveredSigForId s.llmqType s.id = false := by
  have hown := h.judgedByOwn (by simp) (collectPendingSigSharesToVerify_singleton hs) _ mem_cons_self
  by_contra hunchecked
  have hnone : E.checkedShares [s] = [] := by
    rw [checkedShares]
    split_ifs with hrec hmalformed
    · rfl
    · rfl
    · exact absurd ⟨by simpa [Option.isSome_iff_ne_none] using hmalformed, by simpa using hrec⟩ hunchecked
  have := hown.mpr (by simp [hnone]) s mem_cons_self
  simp [hfail] at this

/-- Of two shares with one key, the first one decides on both peers. -/
theorem not_authenticShares_pair (hn : n ≠ n') (hkey : E.key s = E.key s') (hs : E.hasSigShare (E.key s) = false)
    (hrec : E.hasRecoveredSigForId s.llmqType s.id = false) (hrec' : E.hasRecoveredSigForId s'.llmqType s'.id = false)
    (hgood : E.verifies s = true) (hfail : E.verifies s' = false) (hsome' : s'.sigShare.isSome = true) :
    ¬ AuthenticShares E metOrder [(n, [s]), (n', [s'])] := by
  intro h
  have hown := h.judgedByOwn (by simpa using hn) (collectPendingSigSharesToVerify_pair hn hs (hkey ▸ hs))
    (n', [s']) (by simp)
  have hsome : s.sigShare.isSome = true := by
    cases hsig : s.sigShare with
    | none => simp [verifies, hsig] at hgood
    | some sig => rfl
  have hchecked : E.checkedShares [s] = [s] := by
    simp [checkedShares, hrec, Option.isSome_iff_ne_none.mp hsome]
  have hdecisive : E.decisive (E.pushed [(n, [s]), (n', [s'])]) s' = s := by
    simp [decisive, pushed, hchecked, hkey]
  have := hown.mpr fun x hx => by
    obtain rfl := mem_singleton.mp (mem_of_mem_checkedShares hx).1
    rw [hdecisive]
    exact hgood
  simp [hfail] at this

/-- Every peer of a batch is judged by its own shares. -/
theorem JudgedAlike.judgedByOwn (h : JudgedAlike E nodes) (hpart : IsPart E pending nodes) (order : HashOrder)
    {p : NodeId × List CSigShare} (hp : p ∈ collectPendingSigSharesToVerify E 32 order pending) :
    E.JudgedByOwn (collectPendingSigSharesToVerify E 32 order pending) p := by
  set batch := collectPendingSigSharesToVerify E 32 order pending with hbatch
  have hmem : ∀ {q : NodeId × List CSigShare} (_ : q ∈ batch) {x : CSigShare} (_ : x ∈ q.2),
      E.hasSigShare (E.key x) = false ∧ ∃ q' ∈ pending, q'.1 = q.1 ∧ x ∈ q'.2 :=
    fun hq _ hx => mem_collectPendingSigSharesToVerify E hq hx
  have hsent : ∀ {q : NodeId × List CSigShare} (_ : q ∈ batch) {x : CSigShare} (_ : x ∈ q.2), IsSent nodes q.1 x := by
    intro q hq x hx
    obtain ⟨-, q', hq', hnode, hx'⟩ := hmem hq hx
    exact hnode ▸ hpart.sent q' hq' x hx'
  -- a share is checked unless its signature is recovered, and then it verifies
  have hwellFormed : ∀ x ∈ p.2, E.hasRecoveredSigForId x.llmqType x.id = false → x.sigShare.isSome = true := by
    intro x hx hfree
    cases hsig : x.sigShare with
    | none =>
      have hfail : E.verifies x = false := by simp [verifies, hsig]
      have := (h.checked _ x (hsent hp hx) (hmem hp hx).1 hfail).1
      simp [hsig] at this
    | some sig => rfl
  -- the share that decides on a checked one has its outcome
  have hsame : ∀ x ∈ E.checkedShares p.2, E.verifies (E.decisive (E.pushed batch) x) = E.verifies x := by
    intro x hx
    have hq : (p.1, x) ∈ E.pushed batch := mem_flatMap.mpr ⟨p, hp, mem_map.mpr ⟨x, hx, rfl⟩⟩
    obtain ⟨r, hr, heq⟩ := decisive_mem hq
    obtain ⟨p', hp', hr⟩ := mem_flatMap.mp hr
    obtain ⟨y, hy, rfl⟩ := mem_map.mp hr
    have hkey : E.key y = E.key x := by
      rw [← key_decisive (s := x) (l := E.pushed batch), heq]
    rw [heq]
    have hxmem := (mem_of_mem_checkedShares hx).1
    have hymem := (mem_of_mem_checkedShares hy).1
    by_cases hn : p'.1 = p.1
    · obtain ⟨-, q, hq, hnode, hxq⟩ := hmem hp hxmem
      obtain ⟨-, q', hq', hnode', hyq⟩ := hmem hp' hymem
      obtain rfl := inj_on_of_nodup_map hpart.peers hq' hq (by rw [hnode', hnode, hn])
      rw [inj_on_of_nodup_map (hpart.keys _ hq) hyq hxq hkey]
    · exact h.alike _ y _ x (hsent hp' hymem) (hsent hp hxmem) hn hkey (hmem hp' hymem).1
        (free_of_mem_checkedShares hy) (free_of_mem_checkedShares hx)
  constructor
  · intro hall x hx
    rw [hsame x hx]
    exact hall x (mem_of_mem_checkedShares hx).1
  · intro hall x hx
    by_contra hfail
    have hfree := (h.checked _ x (hsent hp hx) (hmem hp hx).1 (by simpa using hfail)).2
    have hchecked := (mem_checkedShares_iff hwellFormed).mpr ⟨hx, hfree⟩
    exact hfail (hsame x hchecked ▸ hall x hchecked)

end Alike

/-- Shares arrive one by one, so a call may find any part of what the peers send.  Whatever it finds, the shares that
are handed on verify and who is banned sent one that does not, exactly if a share that does not verify is checked and
two peers never send shares of one quorum member for one sign hash with different outcomes. -/
theorem processPendingSigShares_authentic_iff (nodes : SharesByNode) :
    (∀ order pending, IsPart E pending nodes → AuthenticShares E order pending) ↔ JudgedAlike E nodes := by
  constructor
  · intro h
    have hchecked : ∀ n s, IsSent nodes n s → E.hasSigShare (E.key s) = false → E.verifies s = false →
        s.sigShare.isSome = true ∧ E.hasRecoveredSigForId s.llmqType s.id = false :=
      fun n s hs hnew hfail => checked_of_authenticShares (h metOrder _ (isPart_singleton hs)) hnew hfail
    refine ⟨hchecked, fun n s n' s' hs hs' hn hkey hnew hfree hfree' => ?_⟩
    cases hgood : E.verifies s <;> cases hgood' : E.verifies s'
    · rfl
    · exact absurd (h metOrder _ (isPart_pair hn.symm hs' hs)) (not_authenticShares_pair hn.symm hkey.symm
        (hkey ▸ hnew) hfree' hfree hgood' hgood (hchecked n s hs hnew hgood).1)
    · exact absurd (h metOrder _ (isPart_pair hn hs hs')) (not_authenticShares_pair hn hkey hnew hfree hfree' hgood
        hgood' (hchecked n' s' hs' (hkey ▸ hnew) hgood').1)
    · rfl
  · intro h order pending hpart
    set batch := collectPendingSigSharesToVerify E 32 order pending with hbatch
    have hnodup : (batch.map Prod.fst).Nodup := nodup_collectPendingSigSharesToVerify E
    obtain ⟨hprocessed, hbanned⟩ := (@processBatch_iff E batch 32 hnodup).mpr fun p hp => h.judgedByOwn hpart order hp
    refine ⟨hprocessed, fun n hn => ?_⟩
    obtain ⟨p, hp, rfl, s, hs, hfail⟩ := hbanned n hn
    obtain ⟨-, p', hp', hnode, hs'⟩ := mem_collectPendingSigSharesToVerify E hp hs
    exact ⟨p', hp', hnode, s, hs', hfail⟩

/-! ### Shares that are not judged by their own signature -/

def sampleShareEnv : ShareEnv where
  buildSignHash _ _ id msgHash := id + msgHash
  hasRecoveredSigForId _ _ := false
  getPubKeyShare _ _ m := ⟨m.setWidth 383⟩
  verifyInsecure _ _ sig := decide (sig = ⟨1⟩)
  hasSigShare _ := false

def sampleShare (sigShare : CBLSSignature) : CSigShare :=
  ⟨1, 10, 20, 30, 0, sigShare⟩

/-- A malformed share is handed on, and a peer is banned for the share of another peer. -/
theorem pendingSigShares_misjudged : ¬ (∀ (E : ShareEnv) (order : HashOrder) (nodes : SharesByNode),
        ∀ s ∈ (processPendingSigShares E order nodes).processed, E.verifies s = true) ∧
    ¬ (∀ (E : ShareEnv) (order : HashOrder) (nodes : SharesByNode),
        ∀ n ∈ (processPendingSigShares E order nodes).banned,
          ∃ p ∈ nodes, p.1 = n ∧ ∃ s ∈ p.2, E.verifies s = false) := by
  constructor
  · intro h
    have := h sampleShareEnv metOrder [(1, [sampleShare none])]
    exact absurd (this _ mem_cons_self) (by decide)
  · intro h
    have hrun : processPendingSigShares sampleShareEnv metOrder
        [(1, [sampleShare (some ⟨2⟩)]), (2, [sampleShare (some ⟨1⟩)])] = { banned := [1, 2] } := by decide +kernel
    have := h sampleShareEnv metOrder [(1, [sampleShare (some ⟨2⟩)]), (2, [sampleShare (some ⟨1⟩)])]
    rw [hrun] at this
    exact absurd (this 2 (by simp)) (by decide)

end OmegaCore.Llmq
