import OmegaCore.Smsg.RoundTrip

/-!
Routing of topic messages.  A node subscribes to a topic by importing its shared key and by
entering the hash of the topic into two tables.  A received topic message is looked up in both
under the first four bytes of its nonce.  `Encrypt` writes the hash of the topic there, and
`SetHash` counts up from it, so the message arrives under the hash only if no step was taken.
-/

namespace OmegaCore.Smsg

open Util List Std Std.ExtTreeMap

/-- A key of the message key store; contacts have no private key. -/
structure SecMsgKey (CKey : Type) where
  key : Option CKey
  receiveOn : Bool
  receiveAnon : Bool

structure SecMsgAddress where
  address : CKeyID
  fReceiveEnabled : Bool
  fReceiveAnon : Bool

structure Wallet (CKey : Type) where
  isLocked : Bool
  getKey : CKeyID → Option CKey

/-- What `ScanMessage` reads: the subscriptions, the key store, and the wallet. -/
structure SmsgNode (CKey : Type) where
  subscribedTopics : Map Bytes Unit := ∅
  subscribedTopicHashes : Map (BitVec (8 * 4)) Unit := ∅
  topicHashToKeyIDs : Map (BitVec (8 * 4)) (List CKeyID) := ∅
  mapKeys : Map CKeyID (SecMsgKey CKey) := ∅
  pwallet : Option (Wallet CKey) := none
  addresses : List SecMsgAddress := []

namespace SmsgNode

variable {CKey CPubKey : Type} (c : Crypto CKey CPubKey) (node : SmsgNode CKey)

/-! ### Subscriptions -/

variable (topic : Bytes) (m : SecureMessage) (hash : BitVec (8 * 4)) (R : CPubKey)

def isSubscribedTopicHash : Bool :=
  node.subscribedTopicHashes[hash]?.isSome

def keyIDs : List CKeyID :=
  node.topicHashToKeyIDs[hash]?.getD []

def pushKeyID (id : CKeyID) : SmsgNode CKey :=
  { node with topicHashToKeyIDs := node.topicHashToKeyIDs.insert hash (node.keyIDs hash ++ [id]) }

def insertTopicHash : SmsgNode CKey :=
  { node with subscribedTopicHashes := node.subscribedTopicHashes.insert hash () }

/-- `ImportTopicKey`; the id is null if there is no key. -/
def importTopicKey : SmsgNode CKey × CKeyID :=
  match getTopicSharedKey c topic with
  | none => (node, 0#160)
  | some key =>
    let addr := c.getID (c.getPubKey key)
    let smsgKey : SecMsgKey CKey := { key := some key, receiveOn := true, receiveAnon := true }
    (if node.mapKeys[addr]?.isSome then node else { node with mapKeys := node.mapKeys.insert addr smsgKey }, addr)

/-- What `SubscribeTopic` and `LoadTopicSubs` do with a valid topic. -/
def addTopic : SmsgNode CKey :=
  let (node, topicKeyID) := node.importTopicKey c topic
  let node := { node with subscribedTopics := node.subscribedTopics.insert topic () }
  let node := node.insertTopicHash (smsgTopicHash topic)
  if topicKeyID = 0#160 then node else node.pushKeyID (smsgTopicHash topic) topicKeyID

def subscribeTopic : SmsgNode CKey :=
  if isValidTopic topic then node.addTopic c topic else node

/-- One round of the loop that `UnsubscribeTopic` rebuilds the tables with. -/
def rebuildTopic : SmsgNode CKey :=
  let node := node.insertTopicHash (smsgTopicHash topic)
  match getTopicSharedKey c topic with
  | none => node
  | some key => node.pushKeyID (smsgTopicHash topic) (c.getID (c.getPubKey key))

def unsubscribeTopic : SmsgNode CKey :=
  if isValidTopic topic then
    let subscribedTopics := node.subscribedTopics.erase topic
    subscribedTopics.keys.foldl (fun node topic => node.rebuildTopic c topic)
      { node with subscribedTopics, subscribedTopicHashes := ∅, topicHashToKeyIDs := ∅ }
  else node

/-- A line of the file of subscriptions. -/
def loadLine (line : Bytes) : SmsgNode CKey :=
  if line = [] ∨ line.head? = some 35 then node
  else if isValidTopic line then node.addTopic c line
  else node

/-- `LoadTopicSubs` with the lines of the file; there are none if it is missing. -/
def loadTopicSubs (lines : List Bytes) : SmsgNode CKey :=
  lines.foldl (fun node line => node.loadLine c line)
    { node with subscribedTopics := ∅, subscribedTopicHashes := ∅, topicHashToKeyIDs := ∅ }

/-! ### Scanning -/

/-- How `ScanMessage` ends: the message is for a key of the node, it is for none, or it is put
aside because the wallet is locked. -/
inductive ScanResult where
  | error (code : SecureMessageCode)
  | own (addressTo : CKeyID)
  | notOwn
  | walletLocked (storeUnscanned : Bool)
  deriving DecidableEq

/-- One attempt to decrypt; it is over with the first key that decrypts, which makes the message
an own one unless it is anonymous and the key does not receive those. -/
def tryKey (receiveAnon : Bool) (key : CKey) (address : CKeyID) : Option (Option CKeyID) :=
  match decryptWithR c receiveAnon key R m m.pPayload m.nPayload {} with
  | .error _ => none
  | .ok msg => some (if receiveAnon || msg.sFromAddress != "anon" then some address else none)

def findKey (keyID : CKeyID) : Option (SecMsgKey CKey) :=
  node.mapKeys[keyID]?

/-- Topic routing: every key of the hash in the nonce is tried. -/
def scanTopicKeys : Option CKeyID :=
  (node.keyIDs m.nonce).find? fun topicKeyID =>
    match node.mapKeys[topicKeyID]? with
    | none => false
    | some smsgKey =>
      match smsgKey.key with
      | none => false
      | some key => smsgKey.receiveOn && (decryptWithR c false key R m m.pPayload m.nPayload {}).isOk

def scanKeyStore : Option CKeyID :=
  (node.mapKeys.toList.findSome? fun (address, smsgKey) =>
    if !smsgKey.receiveOn then none
    else smsgKey.key.bind fun key => tryKey c m R smsgKey.receiveAnon key address).join

def scanWallet (pwallet : Wallet CKey) : Option CKeyID :=
  (node.addresses.findSome? fun addr =>
    if !addr.fReceiveEnabled then none
    else (pwallet.getKey addr.address).bind fun key => tryKey c m R addr.fReceiveAnon key addr.address).join

def scanMessage : ScanResult :=
  match c.parse m.cpkR with
  | none => .error .generalError
  | some R =>
    match if m.isTopicVersion then node.scanTopicKeys c m R else node.scanKeyStore c m R with
    | some addressTo => .own addressTo
    | none =>
      match node.pwallet with
      | none => .notOwn
      | some pwallet =>
        if pwallet.isLocked then .walletLocked (!node.addresses.isEmpty)
        else
          match node.scanWallet c m R pwallet with
          | some addressTo => .own addressTo
          | none => .notOwn

/-- A topic message passes the filter of `Receive` and is found to be an own one. -/
def recognises : Bool :=
  node.isSubscribedTopicHash m.nonce &&
    match node.scanMessage c m with
    | .own _ => true
    | _ => false

/-! ### Runs -/

/-- Changes of a node; the key store, the wallet and its addresses can change in any way. -/
inductive Op (CKey : Type) where
  | subscribe (topic : Bytes)
  | unsubscribe (topic : Bytes)
  | load (lines : List Bytes)
  | other (mapKeys : Map CKeyID (SecMsgKey CKey)) (pwallet : Option (Wallet CKey)) (addresses : List SecMsgAddress)

def step (node : SmsgNode CKey) : Op CKey → SmsgNode CKey
  | .subscribe topic => node.subscribeTopic c topic
  | .unsubscribe topic => node.unsubscribeTopic c topic
  | .load lines => node.loadTopicSubs c lines
  | .other mapKeys pwallet addresses => { node with mapKeys, pwallet, addresses }

def run (ops : List (Op CKey)) : SmsgNode CKey :=
  ops.foldl (step c) {}

/-- A node that has subscribed to a topic, and still receives with the key of the topic. -/
structure Subscribed (key : CKey) : Prop where
  reached : ∃ ops, node = run c ops
  topic_mem : topic ∈ node.subscribedTopics
  holds : ∃ smsgKey, node.mapKeys[c.getID (c.getPubKey key)]? = some smsgKey ∧ smsgKey.key = some key ∧
    smsgKey.receiveOn = true

/-! ### The tables of subscriptions -/

/-- The tables lead from the hash of a topic to its key. -/
def Routes : Prop :=
  node.isSubscribedTopicHash (smsgTopicHash topic) = true ∧
    ∀ key, getTopicSharedKey c topic = some key → c.getID (c.getPubKey key) ≠ 0#160 →
      c.getID (c.getPubKey key) ∈ node.keyIDs (smsgTopicHash topic)

variable {c node} {topic : Bytes}

theorem isSubscribedTopicHash_insertTopicHash (hash hash' : BitVec (8 * 4)) :
    (node.insertTopicHash hash').isSubscribedTopicHash hash = true ↔
      hash = hash' ∨ node.isSubscribedTopicHash hash = true := by
  unfold isSubscribedTopicHash insertTopicHash
  rw [Map.get_insert]
  split_ifs with h <;> simp [h]

theorem keyIDs_pushKeyID (hash hash' : BitVec (8 * 4)) (id : CKeyID) :
    (node.pushKeyID hash' id).keyIDs hash = if hash = hash' then node.keyIDs hash ++ [id] else node.keyIDs hash := by
  unfold pushKeyID
  rw [keyIDs, Map.get_insert]
  split_ifs with h
  · rw [h]
    rfl
  · rfl

/-- The id of the key of a topic, if it has one. -/
def topicKeyIDs (c : Crypto CKey CPubKey) (topic : Bytes) : List CKeyID :=
  ((getTopicSharedKey c topic).map fun key => c.getID (c.getPubKey key)).toList

/-- A topic is entered into both tables, with some ids of keys. -/
def Enters (node node' : SmsgNode CKey) (topic : Bytes) (ids : List CKeyID) : Prop :=
  (∀ hash, node'.isSubscribedTopicHash hash = true ↔
      hash = smsgTopicHash topic ∨ node.isSubscribedTopicHash hash = true) ∧
    ∀ hash, node'.keyIDs hash = node.keyIDs hash ++ if hash = smsgTopicHash topic then ids else []

theorem enters_insertTopicHash (node : SmsgNode CKey) :
    Enters node (node.insertTopicHash (smsgTopicHash topic)) topic [] := by
  refine ⟨fun hash => isSubscribedTopicHash_insertTopicHash hash _, fun hash => ?_⟩
  rw [ite_self, append_nil]
  rfl

theorem enters_pushKeyID (node : SmsgNode CKey) (id : CKeyID) :
    Enters node ((node.insertTopicHash (smsgTopicHash topic)).pushKeyID (smsgTopicHash topic) id) topic [id] := by
  refine ⟨fun hash => isSubscribedTopicHash_insertTopicHash hash _, fun hash => ?_⟩
  rw [keyIDs_pushKeyID]
  split_ifs
  · rfl
  · exact (append_nil _).symm

theorem importTopicKey_eq (node : SmsgNode CKey) (topic : Bytes) :
    ∃ mapKeys, node.importTopicKey c topic = ({ node with mapKeys }, (topicKeyIDs c topic).headD 0#160) := by
  unfold importTopicKey topicKeyIDs
  cases getTopicSharedKey c topic with
  | none => exact ⟨_, rfl⟩
  | some key =>
    dsimp only
    split_ifs
    · exact ⟨_, rfl⟩
    · exact ⟨_, rfl⟩

theorem enters_rebuildTopic : Enters node (node.rebuildTopic c topic) topic (topicKeyIDs c topic) := by
  unfold rebuildTopic topicKeyIDs
  cases getTopicSharedKey c topic with
  | none => exact enters_insertTopicHash node
  | some key => exact enters_pushKeyID node _

/-- Here a null id is left out. -/
theorem enters_addTopic : Enters node (node.addTopic c topic) topic ((topicKeyIDs c topic).filter (· ≠ 0#160)) := by
  obtain ⟨mapKeys, himport⟩ := node.importTopicKey_eq (c := c) topic
  unfold addTopic
  rw [himport]
  unfold topicKeyIDs
  cases getTopicSharedKey c topic with
  | none => exact enters_insertTopicHash { node with mapKeys }
  | some key =>
    dsimp only [Option.map_some, Option.toList_some, headD_cons]
    split_ifs with hnull
    · simp only [hnull, filter_cons, decide_false, ne_eq, not_true, Bool.false_eq_true, if_false, filter_nil]
      exact enters_insertTopicHash { node with mapKeys }
    · simp only [hnull, filter_cons, ne_eq, not_false_eq_true, decide_true, if_true, filter_nil]
      exact enters_pushKeyID { node with mapKeys } _

theorem Enters.routes {node' : SmsgNode CKey} {t : Bytes} {ids : List CKeyID} (h : Enters node node' topic ids)
    (hids : ∀ id ∈ topicKeyIDs c topic, id ≠ 0#160 → id ∈ ids) (ht : t = topic ∨ node.Routes c t) : node'.Routes c t := by
  rcases ht with rfl | ht
  · refine ⟨(h.1 _).mpr (.inl rfl), fun key hkey hne => ?_⟩
    rw [h.2, if_pos rfl]
    exact mem_append_right _ (hids _ (by simp [topicKeyIDs, hkey]) hne)
  · refine ⟨(h.1 _).mpr (.inr ht.1), fun key hkey hne => ?_⟩
    rw [h.2]
    exact mem_append_left _ (ht.2 key hkey hne)

theorem subscribedTopics_addTopic (topic : Bytes) :
    (node.addTopic c topic).subscribedTopics = node.subscribedTopics.insert topic () := by
  obtain ⟨mapKeys, himport⟩ := node.importTopicKey_eq (c := c) topic
  unfold addTopic
  rw [himport]
  dsimp only
  split_ifs
  · rfl
  · rfl

theorem subscribedTopics_rebuildTopic (topic : Bytes) :
    (node.rebuildTopic c topic).subscribedTopics = node.subscribedTopics := by
  unfold rebuildTopic
  split
  · rfl
  · rfl

theorem subscribedTopics_foldl_rebuildTopic (topics : List Bytes) (node : SmsgNode CKey) :
    (topics.foldl (fun node topic => node.rebuildTopic c topic) node).subscribedTopics = node.subscribedTopics :=
  foldlRecOn (motive := (subscribedTopics · = node.subscribedTopics)) topics _ rfl
    fun _ h topic _ => (subscribedTopics_rebuildTopic topic).trans h

def Routed (c : Crypto CKey CPubKey) (node : SmsgNode CKey) : Prop :=
  ∀ topic, topic ∈ node.subscribedTopics → node.Routes c topic

theorem routed_addTopic (h : node.Routed c) (topic : Bytes) : (node.addTopic c topic).Routed c := by
  intro t ht
  rw [subscribedTopics_addTopic, mem_insert] at ht
  refine enters_addTopic.routes (fun id hid hne => by simp [hid, hne]) ?_
  rcases ht with ht | ht
  · exact .inl (LawfulEqCmp.eq_of_compare ht).symm
  · exact .inr (h t ht)

theorem routed_loadTopicSubs (node : SmsgNode CKey) (lines : List Bytes) : (node.loadTopicSubs c lines).Routed c := by
  refine foldlRecOn lines _ ?_ fun node h line _ => ?_
  · intro t ht
    exact absurd ht not_mem_empty
  · rw [loadLine]
    split_ifs
    · exact h
    · exact routed_addTopic h line
    · exact h

/-! ### The tables as images -/

/-- The tables hold the hashes and the key ids of the topics, those of each topic once. -/
def Images (c : Crypto CKey CPubKey) (node : SmsgNode CKey) (topics : List Bytes) : Prop :=
  (∀ hash, node.isSubscribedTopicHash hash = true ↔ ∃ t ∈ topics, smsgTopicHash t = hash) ∧
    ∀ hash, (node.keyIDs hash).Perm ((topics.filter (smsgTopicHash · = hash)).flatMap (topicKeyIDs c))

def Exact (c : Crypto CKey CPubKey) (node : SmsgNode CKey) : Prop :=
  node.Images c node.subscribedTopics.keys

/-- A topic is subscribed to that is not there yet, a file names every topic once, and no topic has the null id. -/
def Op.Fresh (c : Crypto CKey CPubKey) (node : SmsgNode CKey) : Op CKey → Prop
  | .subscribe topic => topic ∉ node.subscribedTopics ∧ 0#160 ∉ topicKeyIDs c topic
  | .load lines => (lines.filter isValidTopic).Nodup ∧ ∀ topic ∈ lines.filter isValidTopic, 0#160 ∉ topicKeyIDs c topic
  | _ => True

def FreshRun (c : Crypto CKey CPubKey) : SmsgNode CKey → List (Op CKey) → Prop
  | _, [] => True
  | node, op :: ops => op.Fresh c node ∧ FreshRun c (step c node op) ops

variable {topics topics' : List Bytes}

theorem Images.perm (h : node.Images c topics) (hperm : topics.Perm topics') : node.Images c topics' := by
  refine ⟨fun hash => ?_, fun hash => (h.2 hash).trans ((hperm.filter _).flatMap_right _)⟩
  rw [h.1]
  exact exists_congr fun t => and_congr_left fun _ => hperm.mem_iff

theorem Images.enters {node' : SmsgNode CKey} (h : node.Images c topics)
    (henters : Enters node node' topic (topicKeyIDs c topic)) : node'.Images c (topic :: topics) := by
  refine ⟨fun hash => ?_, fun hash => ?_⟩
  · rw [henters.1, h.1, exists_mem_cons_iff, eq_comm]
  · rw [henters.2]
    refine perm_append_comm.trans ?_
    by_cases hhash : smsgTopicHash topic = hash
    · rw [if_pos hhash.symm, filter_cons_of_pos (by simpa using hhash), flatMap_cons]
      exact (h.2 hash).append_left _
    · rw [if_neg (Ne.symm hhash), filter_cons_of_neg (by simpa using hhash), nil_append]
      exact h.2 hash

theorem Images.routes (h : node.Images c topics) (ht : topic ∈ topics) : node.Routes c topic := by
  refine ⟨(h.1 _).mpr ⟨topic, ht, rfl⟩, fun key hkey _ => (h.2 _).mem_iff.mpr ?_⟩
  exact mem_flatMap.mpr ⟨topic, by simpa using ht, by simp [topicKeyIDs, hkey]⟩

theorem keys_insert_perm {m : Map Bytes Unit} (hnew : topic ∉ m) : (topic :: m.keys).Perm (m.insert topic ()).keys := by
  have hnodup (m : Map Bytes Unit) : m.keys.Nodup := by
    rw [← map_fst_toList_eq_keys]
    exact Map.nodup_keys m
  rw [perm_ext_iff_of_nodup (nodup_cons.mpr ⟨ExtTreeMap.mem_keys.not.mpr hnew, hnodup m⟩) (hnodup _)]
  intro t
  rw [mem_cons, ExtTreeMap.mem_keys, ExtTreeMap.mem_keys, mem_insert,
    LawfulEqCmp.compare_eq_iff_eq, eq_comm]

theorem exact_foldl_addTopic (h : node.Exact c) (hnodup : topics.Nodup) (hnew : ∀ t ∈ topics, t ∉ node.subscribedTopics)
    (hnull : ∀ t ∈ topics, 0#160 ∉ topicKeyIDs c t) : (topics.foldl (fun node t => node.addTopic c t) node).Exact c := by
  induction topics generalizing node with
  | nil => exact h
  | cons topic topics ih =>
    rw [nodup_cons] at hnodup
    have hids : (topicKeyIDs c topic).filter (· ≠ 0#160) = topicKeyIDs c topic := by
      refine filter_eq_self.mpr fun id hid => decide_eq_true ?_
      rintro rfl
      exact hnull topic mem_cons_self hid
    have henters : Enters node (node.addTopic c topic) topic (topicKeyIDs c topic) := hids ▸ enters_addTopic
    refine ih ?_ hnodup.2 (fun t ht => ?_) fun t ht => hnull t (mem_cons_of_mem _ ht)
    · rw [Exact, subscribedTopics_addTopic]
      exact (h.enters henters).perm (keys_insert_perm (hnew topic mem_cons_self))
    · rw [subscribedTopics_addTopic, mem_insert, LawfulEqCmp.compare_eq_iff_eq, not_or]
      exact ⟨fun heq => hnodup.1 (heq ▸ ht), hnew t (mem_cons_of_mem _ ht)⟩

theorem images_foldl_rebuildTopic (h : node.Images c topics') :
    (topics.foldl (fun node t => node.rebuildTopic c t) node).Images c (topics ++ topics') := by
  induction topics generalizing node topics' with
  | nil => exact h
  | cons topic topics ih => exact (ih (h.enters enters_rebuildTopic)).perm perm_middle

theorem images_nil {node : SmsgNode CKey} (hhashes : node.subscribedTopicHashes = ∅) (hids : node.topicHashToKeyIDs = ∅) :
    node.Images c [] := by
  simp [Images, isSubscribedTopicHash, keyIDs, hhashes, hids]

/-- Lines that are no topics are skipped. -/
theorem loadTopicSubs_eq (lines : List Bytes) :
    node.loadTopicSubs c lines = (lines.filter isValidTopic).foldl (fun node t => node.addTopic c t)
      { node with subscribedTopics := ∅, subscribedTopicHashes := ∅, topicHashToKeyIDs := ∅ } := by
  rw [foldl_filter, loadTopicSubs]
  congr
  funext node line
  unfold loadLine
  by_cases hvalid : isValidTopic line = true
  · have hskip : ¬ (line = [] ∨ line.head? = some 35) := by
      simp only [isValidTopic, Bool.and_eq_true, beq_iff_eq] at hvalid
      have hhead := congrArg head? hvalid.1.1.1.2
      rw [head?_take] at hhead
      cases line with
      | nil => simp [topicPrefix] at hhead
      | cons b line =>
        have hb : b = 111 := by simpa [topicPrefix] using hhead
        simp [hb]
    rw [if_neg hskip]
  · simp [hvalid]

theorem subscribedTopics_unsubscribeTopic (hvalid : isValidTopic topic = true) :
    (node.unsubscribeTopic c topic).subscribedTopics = node.subscribedTopics.erase topic := by
  rw [unsubscribeTopic, if_pos hvalid]
  exact subscribedTopics_foldl_rebuildTopic _ _

/-- Whatever the tables held before, the rebuilding loop leaves the images. -/
theorem exact_unsubscribeTopic (hvalid : isValidTopic topic = true) : (node.unsubscribeTopic c topic).Exact c := by
  rw [Exact, subscribedTopics_unsubscribeTopic hvalid, unsubscribeTopic, if_pos hvalid]
  rw [← append_nil (ExtTreeMap.keys _)]
  exact images_foldl_rebuildTopic (images_nil rfl rfl)

theorem routed_unsubscribeTopic (h : node.Routed c) (topic : Bytes) : (node.unsubscribeTopic c topic).Routed c := by
  by_cases hvalid : isValidTopic topic = true
  · exact fun t ht => (exact_unsubscribeTopic hvalid).routes (ExtTreeMap.mem_keys.mpr ht)
  · rw [unsubscribeTopic, if_neg hvalid]
    exact h

theorem routed_step (h : node.Routed c) (op : Op CKey) : (step c node op).Routed c := by
  cases op with
  | subscribe topic =>
    rw [step, subscribeTopic]
    split_ifs
    · exact routed_addTopic h topic
    · exact h
  | unsubscribe topic => exact routed_unsubscribeTopic h topic
  | load lines => exact routed_loadTopicSubs node lines
  | other mapKeys pwallet addresses => exact h

theorem routed_run (ops : List (Op CKey)) : (run c ops).Routed c := by
  refine foldlRecOn ops _ ?_ fun node h op _ => routed_step h op
  intro t ht
  exact absurd ht not_mem_empty

theorem exact_step (h : node.Exact c) {op : Op CKey} (hfresh : op.Fresh c node) : (step c node op).Exact c := by
  cases op with
  | subscribe topic =>
    rw [step, subscribeTopic]
    split_ifs
    · exact @exact_foldl_addTopic _ _ c node [topic] h (nodup_singleton _) (by simpa using hfresh.1)
        (by simpa using hfresh.2)
    · exact h
  | unsubscribe topic =>
    by_cases hvalid : isValidTopic topic = true
    · exact exact_unsubscribeTopic hvalid
    · rw [step, unsubscribeTopic, if_neg hvalid]
      exact h
  | load lines =>
    rw [step, loadTopicSubs_eq]
    exact exact_foldl_addTopic (images_nil rfl rfl) hfresh.1 (fun t _ => not_mem_empty) hfresh.2
  | other mapKeys pwallet addresses => exact h

theorem exact_foldl_step {ops : List (Op CKey)} (h : node.Exact c) (hfresh : FreshRun c node ops) :
    (ops.foldl (step c) node).Exact c := by
  induction ops generalizing node with
  | nil => exact h
  | cons op ops ih => exact ih (exact_step h hfresh.1) hfresh.2

/-- In every run of fresh steps the tables are the images of the subscribed topics, and leaving a topic undoes a
subscription to it. -/
theorem exact_run (c : Crypto CKey CPubKey) (ops : List (Op CKey)) (hfresh : FreshRun c {} ops) :
    (run c ops).Exact c ∧ ∀ topic, isValidTopic topic = true → topic ∉ (run c ops).subscribedTopics →
      (run c (ops ++ [.subscribe topic, .unsubscribe topic])).Exact c ∧
        (run c (ops ++ [.subscribe topic, .unsubscribe topic])).subscribedTopics = (run c ops).subscribedTopics := by
  refine ⟨exact_foldl_step (images_nil rfl rfl) hfresh, fun topic hvalid hnew => ?_⟩
  rw [run, foldl_append]
  refine ⟨exact_unsubscribeTopic hvalid, ?_⟩
  rw [foldl_cons, foldl_cons, foldl_nil, step, step, subscribedTopics_unsubscribeTopic hvalid, subscribeTopic,
    if_pos hvalid, subscribedTopics_addTopic]
  refine ExtTreeMap.ext_getElem? fun {t} => ?_
  rw [Map.get_erase, Map.get_insert]
  split_ifs with ht
  · exact (ExtTreeMap.getElem?_eq_none (ht ▸ hnew)).symm
  · rfl

/-- `omega.b` -/
def otherTopic : Bytes := topicPrefix ++ [98]

/-- Two topics, of which one is left; then both are read from a file, after a line that is skipped. -/
def sampleTopicOps : List (Op CKeyID) :=
  [.subscribe sampleTopic, .subscribe otherTopic, .unsubscribe sampleTopic, .load [[35], otherTopic, sampleTopic]]

theorem exact_run_sample : (run plainCrypto sampleTopicOps).Exact plainCrypto ∧
    (run plainCrypto sampleTopicOps).subscribedTopics.keys = [sampleTopic, otherTopic] ∧
    (run plainCrypto (sampleTopicOps ++ [.subscribe (topicPrefix ++ [99]), .unsubscribe (topicPrefix ++ [99])])).Exact
      plainCrypto := by
  have hexact := exact_run plainCrypto sampleTopicOps
    ⟨⟨by decide +kernel, by decide +kernel⟩, ⟨by decide +kernel, by decide +kernel⟩, trivial,
      ⟨by decide +kernel, by decide +kernel⟩, trivial⟩
  exact ⟨hexact.1, by decide +kernel, (hexact.2 (topicPrefix ++ [99]) (by decide) (by decide +kernel)).1⟩

/-- A second subscription to a topic enters its key a second time. -/
theorem subscribe_twice : ¬ ∀ ops : List (Op CKeyID), (run plainCrypto ops).Exact plainCrypto := by
  intro h
  have hlength := ((h [.subscribe sampleTopic, .subscribe sampleTopic]).2 (smsgTopicHash sampleTopic)).length_eq
  revert hlength
  decide +kernel

/-- A message under the hash of a routed topic, encrypted for its key, is recognised. -/
theorem recognises_of_routes {m : SecureMessage} {key : CKey} {R : CPubKey} (hroutes : node.Routes c topic)
    (hkey : getTopicSharedKey c topic = some key) (hne : c.getID (c.getPubKey key) ≠ 0#160)
    (hholds : ∃ smsgKey, node.mapKeys[c.getID (c.getPubKey key)]? = some smsgKey ∧ smsgKey.key = some key ∧
      smsgKey.receiveOn = true) (hversion : m.isTopicVersion = true) (hnonce : m.nonce = smsgTopicHash topic)
    (hparse : c.parse m.cpkR = some R)
    (hdecrypt : (decryptWithR c false key R m m.pPayload m.nPayload {}).isOk = true) :
    node.recognises c m = true := by
  obtain ⟨smsgKey, hget, hstored, hreceive⟩ := hholds
  have hfound : (node.scanTopicKeys c m R).isSome = true := by
    rw [scanTopicKeys, find?_isSome, hnonce]
    refine ⟨c.getID (c.getPubKey key), hroutes.2 key hkey hne, ?_⟩
    simp [hget, hstored, hreceive, hdecrypt]
  obtain ⟨addressTo, hsome⟩ := Option.isSome_iff_exists.mp hfound
  have hscan : node.scanMessage c m = .own addressTo := by
    simp [scanMessage, hparse, hversion, hsome]
  rw [recognises, hscan, hnonce, hroutes.1]
  rfl

theorem not_recognises {m : SecureMessage} (h : node.isSubscribedTopicHash m.nonce = false) :
    node.recognises c m = false := by
  rw [recognises, h, Bool.false_and]

/-- The node that has subscribed to one topic only. -/
theorem subscribed_single {key : CKey} (hvalid : isValidTopic topic = true)
    (hkey : getTopicSharedKey c topic = some key) :
    (run c [.subscribe topic]).Subscribed c topic key ∧
      ∀ hash, hash ≠ smsgTopicHash topic → (run c [.subscribe topic]).isSubscribedTopicHash hash = false := by
  have hrun : run c [.subscribe topic] = ({} : SmsgNode CKey).addTopic c topic := by
    simp [run, step, subscribeTopic, if_pos hvalid]
  have himport : ({} : SmsgNode CKey).importTopicKey c topic =
      ({ mapKeys := (∅ : Map CKeyID (SecMsgKey CKey)).insert (c.getID (c.getPubKey key))
          { key := some key, receiveOn := true, receiveAnon := true } }, c.getID (c.getPubKey key)) := by
    rw [importTopicKey, hkey]
    simp
  refine ⟨⟨⟨_, rfl⟩, ?_, ?_⟩, fun hash hne => ?_⟩
  · rw [hrun, subscribedTopics_addTopic]
    exact ExtTreeMap.mem_insert_self
  · refine ⟨{ key := some key, receiveOn := true, receiveAnon := true }, ?_, rfl, rfl⟩
    rw [hrun, addTopic, himport]
    dsimp only
    split_ifs
    · exact (Map.get_insert _ _ _ _).trans (if_pos rfl)
    · exact (Map.get_insert _ _ _ _).trans (if_pos rfl)
  · rw [hrun, ← Bool.not_eq_true, enters_addTopic.1]
    simp [isSubscribedTopicHash, hne]

end SmsgNode

/-! ### Topic messages after their proof of work -/

section Routing

variable {CKey CPubKey : Type} {c : Crypto CKey CPubKey} {env : SendEnv CKey CPubKey}
  {smsg sent final : SecureMessage} {addressFrom addressTo : CKeyID} {message topic : Bytes}
  {parentMsgId : Uint160} {days : BitVec 16} {enabled : ℕ → Bool}

theorem encrypt_topic (htopic : topic ≠ [])
    (hsent : encrypt c env smsg addressFrom addressTo message topic parentMsgId days = .ok sent) :
    isValidTopic topic = true ∧ sent.nonce = smsgTopicHash topic ∧ sent.isTopicVersion = true := by
  obtain ⟨_, _, _, header, _, _, _, _, _, _, _, hheader, _, _, rfl⟩ := encrypt_eq_ok.mp hsent
  rcases applyTopic_eq_ok hheader with ⟨hempty, _⟩ | ⟨hvalid, _, rfl⟩
  · exact absurd hempty htopic
  · exact ⟨hvalid, rfl, rfl⟩

/-- The routing bytes survive the proof of work, and every subscriber recognises a message for the
topic key, exactly if the hash of the topic is a proof of work itself. -/
theorem setHash_topic_iff (htopic : topic ≠ [])
    (hsent : encrypt c env smsg addressFrom addressTo message topic parentMsgId days = .ok sent)
    (hpow : setHash c enabled sent sent.pPayload sent.nPayload = .ok final) :
    (final.nonce = smsgTopicHash topic ↔
      meetsTarget (powHash c sent sent.pPayload sent.nPayload (smsgTopicHash topic)) = true) ∧
    ∀ key, c.Lawful → env.StoresById c → message.length ≤ smsgMaxMsgBytes →
      getTopicSharedKey c topic = some key → c.getID (c.getPubKey key) ≠ 0#160 →
      env.pubKeyOf addressTo = some (c.getPubKey key) →
      ((∀ node : SmsgNode CKey, node.Subscribed c topic key → node.recognises c final = true) ↔
        meetsTarget (powHash c sent sent.pPayload sent.nPayload (smsgTopicHash topic)) = true) := by
  obtain ⟨hvalid, hnonce, hversion⟩ := encrypt_topic htopic hsent
  have hiff := setHash_nonce_eq_iff hpow
  rw [hnonce] at hiff
  refine ⟨hiff, fun key laws hkeys hlen hkey hne hdest => ?_⟩
  rw [← hiff]
  obtain ⟨⟨checksum, hfinal⟩, _⟩ := setHash_eq_ok hpow
  constructor
  · intro hall
    by_contra hother
    obtain ⟨hsubscribed, hnot⟩ := SmsgNode.subscribed_single hvalid hkey
    have hdropped := SmsgNode.not_recognises (c := c) (hnot final.nonce hother)
    rw [hall _ hsubscribed] at hdropped
    cases hdropped
  · intro hrouted node hnode
    obtain ⟨ops, rfl⟩ := hnode.reached
    obtain ⟨hparse, hdecrypt⟩ :=
      decryptWithR_encrypt laws hkeys (fun _ => headerFits_of_topic htopic hlen) hdest hsent
    -- decryption reads neither the nonce nor the checksum
    have hsame : decryptWithR c false key (c.getPubKey env.keyR) final final.pPayload final.nPayload {} =
        decryptWithR c false key (c.getPubKey env.keyR) sent sent.pPayload sent.nPayload {} := by
      rw [hfinal]
      rfl
    refine SmsgNode.recognises_of_routes (SmsgNode.routed_run ops topic hnode.topic_mem) hkey hne hnode.holds
      ?_ hrouted (R := c.getPubKey env.keyR) ?_ ?_
    · rw [hfinal]
      exact hversion
    · rw [hfinal]
      exact hparse
    · rw [hsame, hdecrypt]
      rfl

end Routing

/-- Primitives under which the hash of the sample topic is no proof of work, but the next number is. -/
def steppedCrypto : Crypto CKeyID CKeyID :=
  { plainCrypto with
    hmacSha256 := fun key _ => if key = powKey (smsgTopicHash sampleTopic) then BitVec.allOnes _ else 0#(8 * 32) }

theorem steppedCrypto_lawful : steppedCrypto.Lawful :=
  { plainCrypto_lawful with }

set_option maxRecDepth 4000 in
theorem steppedCrypto_run : ∃ sent final,
    encrypt steppedCrypto plainEnv emptyMessage 3#160 9#160 [104, 105] sampleTopic 0#160 0#16 = .ok sent ∧
    setHash steppedCrypto (fun _ => true) sent sent.pPayload sent.nPayload = .ok final ∧
    final.nonce = smsgTopicHash sampleTopic + 1#32 :=
  ⟨_, _, rfl, rfl, rfl⟩

theorem setHash_topic_iff_stepped : ∃ sent final,
    encrypt steppedCrypto plainEnv emptyMessage 3#160 9#160 [104, 105] sampleTopic 0#160 0#16 = .ok sent ∧
    setHash steppedCrypto (fun _ => true) sent sent.pPayload sent.nPayload = .ok final ∧
    (final.nonce = smsgTopicHash sampleTopic ↔
      meetsTarget (powHash steppedCrypto sent sent.pPayload sent.nPayload (smsgTopicHash sampleTopic)) = true) := by
  obtain ⟨sent, final, hsent, hpow, _⟩ := steppedCrypto_run
  exact ⟨sent, final, hsent, hpow, (setHash_topic_iff (by decide) hsent hpow).1⟩

/-- The search can move the routing bytes away from the hash of the topic. -/
theorem setHash_moves_topic :
    ¬ ∀ (c : Crypto CKeyID CKeyID) (env : SendEnv CKeyID CKeyID) (smsg sent final : SecureMessage)
      (addressFrom addressTo : CKeyID) (message topic : Bytes) (parentMsgId : Uint160) (days : BitVec 16)
      (enabled : ℕ → Bool), c.Lawful → env.StoresById c → topic ≠ [] →
      encrypt c env smsg addressFrom addressTo message topic parentMsgId days = .ok sent →
      setHash c enabled sent sent.pPayload sent.nPayload = .ok final →
      final.nonce = smsgTopicHash topic := by
  intro h
  obtain ⟨sent, final, hsent, hpow, hnext⟩ := steppedCrypto_run
  have hstays := h _ _ _ _ _ _ _ _ _ _ _ _ steppedCrypto_lawful plainEnv_storesById (by decide) hsent hpow
  exact absurd (hnext.symm.trans hstays) (by decide)

end OmegaCore.Smsg
