import OmegaCore.Bls

/-!
`CBLSBatchVerifier`.  Messages of several sources are verified as one batch, and if that fails
source by source and message by message.  A full sub-batch is verified and cleared at once.  An
aggregate check is taken to succeed exactly when every signature in it verifies; then the verifier
ends with the messages that do not verify, and with their sources.
-/

namespace OmegaCore

open List

structure BatchMessage (μ : Type) where
  msgId : μ
  msgHash : Uint256
  sig : G2Element
  pubKey : G1Element
  deriving DecidableEq

/-- `messages` is a map by `msgId`, `messagesBySource` one by source whose values point into it. -/
structure CBLSBatchVerifier (σ μ : Type) where
  perMessageFallback : Bool
  subBatchSize : ℕ := 0
  messages : List (BatchMessage μ) := []
  messagesBySource : List (σ × List (BatchMessage μ)) := []
  badSources : List σ := []
  badMessages : List μ := []
  deriving DecidableEq

namespace CBLSBatchVerifier

variable {σ μ : Type} [DecidableEq σ] [DecidableEq μ] (verifyInsecure : G1Element → Uint256 → G2Element → Bool)

def verifiesMessage (msg : BatchMessage μ) : Bool :=
  verifyInsecure msg.pubKey msg.msgHash msg.sig

/-- `VerifyBatch`; a message that occurs twice is aggregated once. -/
def verifyBatch (its : List (BatchMessage μ)) : Bool :=
  its.all (verifiesMessage verifyInsecure)

/-- The per-message verification of one source. -/
def verifyEach : List (BatchMessage μ) → List μ → List μ
  | [], badMessages => badMessages
  | msg :: its, badMessages =>
    if msg.msgId ∈ badMessages then verifyEach its badMessages
    else if !verifiesMessage verifyInsecure msg then verifyEach its (badMessages.insert msg.msgId)
    else verifyEach its badMessages

variable (v : CBLSBatchVerifier σ μ)

def verifySource (p : σ × List (BatchMessage μ)) : CBLSBatchVerifier σ μ :=
  let batchValid := if v.messagesBySource.length ≠ 1 then verifyBatch verifyInsecure p.2 else false
  if batchValid then v
  else
    let v := { v with badSources := v.badSources.insert p.1 }
    if !v.perMessageFallback then v
    else
      match p.2 with
      | [msg] => { v with badMessages := v.badMessages.insert msg.msgId }
      | its => { v with badMessages := verifyEach verifyInsecure its v.badMessages }

def verify : CBLSBatchVerifier σ μ :=
  if verifyBatch verifyInsecure v.messages then v
  else v.messagesBySource.foldl (verifySource verifyInsecure) v

def clearMessages : CBLSBatchVerifier σ μ :=
  { v with messages := [], messagesBySource := [] }

/-- `messagesBySource[sourceId].emplace_back(it)`. -/
def addToSource (sourceId : σ) (msg : BatchMessage μ) :
    List (σ × List (BatchMessage μ)) → List (σ × List (BatchMessage μ))
  | [] => [(sourceId, [msg])]
  | (s, its) :: rest => if s = sourceId then (s, its ++ [msg]) :: rest else (s, its) :: addToSource sourceId msg rest

def pushMessage (sourceId : σ) (msg : BatchMessage μ) : CBLSBatchVerifier σ μ :=
  let v :=
    match v.messages.find? (·.msgId = msg.msgId) with
    | some known => { v with messagesBySource := addToSource sourceId known v.messagesBySource }
    | none =>
      { v with messages := v.messages ++ [msg], messagesBySource := addToSource sourceId msg v.messagesBySource }
  if v.subBatchSize ≠ 0 ∧ v.messages.length ≥ v.subBatchSize then (verify verifyInsecure v).clearMessages else v

/-! ### What verification finds -/

variable {verifyInsecure}

variable {its : List (BatchMessage μ)}

theorem mem_verifyEach {badMessages : List μ} {id : μ} :
    id ∈ verifyEach verifyInsecure its badMessages ↔
      id ∈ badMessages ∨ ∃ m ∈ its, m.msgId = id ∧ verifiesMessage verifyInsecure m = false := by
  induction its generalizing badMessages with
  | nil => simp [verifyEach]
  | cons m its ih =>
    rw [verifyEach]
    split_ifs with hknown hbad
    · simp only [ih, mem_cons, exists_eq_or_imp]
      have hdone : m.msgId = id ∧ verifiesMessage verifyInsecure m = false → id ∈ badMessages := fun h => h.1 ▸ hknown
      rw [← or_assoc, or_iff_left_of_imp hdone]
    · simp only [Bool.not_eq_true'] at hbad
      simp only [ih, mem_insert_iff, mem_cons, exists_eq_or_imp, hbad, and_true]
      rw [or_assoc, or_left_comm, @eq_comm _ id]
    · rw [ih]
      simp only [Bool.not_eq_true', Bool.not_eq_false] at hbad
      simp [hbad]

omit [DecidableEq μ] in
theorem verifyBatch_eq_false :
    verifyBatch verifyInsecure its = false ↔ ∃ m ∈ its, verifiesMessage verifyInsecure m = false := by
  simp [verifyBatch]

variable {v : CBLSBatchVerifier σ μ}

/-- A source whose batch fails is bad, and so are its messages that fail. -/
theorem verifySource_eq {p : σ × List (BatchMessage μ)} (hfallback : v.perMessageFallback = true)
    (hsingle : v.messagesBySource.length = 1 → verifyBatch verifyInsecure p.2 = false) :
    verifySource verifyInsecure v p =
      if verifyBatch verifyInsecure p.2 then v
      else
        { v with
          badSources := v.badSources.insert p.1
          badMessages := verifyEach verifyInsecure p.2 v.badMessages } := by
  have hvalid : (if v.messagesBySource.length ≠ 1 then verifyBatch verifyInsecure p.2 else false) =
      verifyBatch verifyInsecure p.2 := by
    split_ifs with h
    · rfl
    · exact (hsingle (not_not.mp h)).symm
  unfold verifySource
  rw [hvalid]
  cases hbatch : verifyBatch verifyInsecure p.2 with
  | true => rfl
  | false =>
    simp only [hfallback, Bool.not_true, Bool.false_eq_true, if_false]
    split
    next msg heq =>
      -- a single message that fails is not verified again
      have hmsg : verifiesMessage verifyInsecure msg = false := by
        rw [heq] at hbatch
        simpa [verifyBatch] using hbatch
      congr 1
      rw [heq, verifyEach, verifyEach, verifyEach, hmsg]
      simp only [Bool.not_false, if_true]
      split_ifs with hmem
      · exact insert_of_mem hmem
      · rfl
    next => rfl

theorem foldl_verifySource {l : List (σ × List (BatchMessage μ))} (hfallback : v.perMessageFallback = true)
    (hsingle : v.messagesBySource.length = 1 → ∀ p ∈ l, verifyBatch verifyInsecure p.2 = false) :
    let v' := l.foldl (verifySource verifyInsecure) v
    v' = { v with badSources := v'.badSources, badMessages := v'.badMessages } ∧
    (∀ s, s ∈ v'.badSources ↔
      s ∈ v.badSources ∨ ∃ p ∈ l, ∃ m ∈ p.2, p.1 = s ∧ verifiesMessage verifyInsecure m = false) ∧
    ∀ id, id ∈ v'.badMessages ↔
      id ∈ v.badMessages ∨ ∃ p ∈ l, ∃ m ∈ p.2, m.msgId = id ∧ verifiesMessage verifyInsecure m = false := by
  induction l generalizing v with
  | nil => simp
  | cons p l ih =>
    rw [foldl_cons, verifySource_eq hfallback fun h => hsingle h p mem_cons_self]
    cases hbatch : verifyBatch verifyInsecure p.2 with
    | true =>
      have hnone : ∀ P : BatchMessage μ → Prop, ¬ ∃ m ∈ p.2, P m ∧ verifiesMessage verifyInsecure m = false := by
        rintro P ⟨m, hm, -, hfail⟩
        rw [verifyBatch_eq_false.mpr ⟨m, hm, hfail⟩] at hbatch
        cases hbatch
      obtain ⟨hsame, hsources, hmessages⟩ := ih hfallback fun h q hq => hsingle h q (mem_cons_of_mem _ hq)
      refine ⟨hsame, fun s => ?_, fun id => ?_⟩
      · rw [if_pos rfl, hsources]
        simp [hnone]
      · rw [if_pos rfl, hmessages]
        simp [hnone]
    | false =>
      have hsome := verifyBatch_eq_false.mp hbatch
      obtain ⟨hsame, hsources, hmessages⟩ := @ih
        { v with
          badSources := v.badSources.insert p.1
          badMessages := verifyEach verifyInsecure p.2 v.badMessages } hfallback
        fun h q hq => hsingle h q (mem_cons_of_mem _ hq)
      refine ⟨?_, fun s => ?_, fun id => ?_⟩
      · exact hsame
      · rw [if_neg Bool.false_ne_true, hsources]
        have hbad : (∃ m ∈ p.2, p.1 = s ∧ verifiesMessage verifyInsecure m = false) ↔ p.1 = s := by
          simp [and_left_comm, hsome]
        simp only [mem_insert_iff, mem_cons, exists_eq_or_imp, hbad, or_assoc]
        rw [or_left_comm, @eq_comm _ s]
      · rw [if_neg Bool.false_ne_true, hmessages]
        simp [mem_verifyEach, or_assoc]

/-- What is pending in a verifier, and what it found in the sub-batches before. -/
structure Tracks (verifyInsecure : G1Element → Uint256 → G2Element → Bool) (subBatchSize : ℕ)
    (v : CBLSBatchVerifier σ μ) (marked : List σ) (flushed current : List (σ × BatchMessage μ)) : Prop where
  fallback : v.perMessageFallback = true
  size : v.subBatchSize = subBatchSize
  messages : ∀ m, m ∈ v.messages ↔ ∃ q ∈ current, q.2 = m
  bySource : ∀ s m, (∃ p ∈ v.messagesBySource, p.1 = s ∧ m ∈ p.2) ↔ (s, m) ∈ current
  badSources : ∀ s, s ∈ v.badSources ↔ s ∈ marked ∨ ∃ q ∈ flushed, q.1 = s ∧ verifiesMessage verifyInsecure q.2 = false
  badMessages : ∀ id, id ∈ v.badMessages ↔ ∃ q ∈ flushed, q.2.msgId = id ∧ verifiesMessage verifyInsecure q.2 = false

section Tracks

variable {subBatchSize : ℕ} {v : CBLSBatchVerifier σ μ} {marked : List σ} {flushed current : List (σ × BatchMessage μ)}

omit [DecidableEq σ] [DecidableEq μ] in
theorem exists_flushed_append {P : σ × BatchMessage μ → Prop} :
    (∃ q ∈ flushed ++ current, P q) ↔ (∃ q ∈ flushed, P q) ∨ ∃ q ∈ current, P q := by
  simp [or_and_right, exists_or]

variable (h : Tracks verifyInsecure subBatchSize v marked flushed current)

include h in
omit [DecidableEq σ] [DecidableEq μ] in
theorem Tracks.exists_bySource (P : σ × BatchMessage μ → Prop) :
    (∃ p ∈ v.messagesBySource, ∃ m ∈ p.2, P (p.1, m)) ↔ ∃ q ∈ current, P q := by
  constructor
  · rintro ⟨p, hp, m, hm, hP⟩
    exact ⟨(p.1, m), (h.bySource p.1 m).mp ⟨p, hp, rfl, hm⟩, hP⟩
  · rintro ⟨⟨s, m⟩, hq, hP⟩
    obtain ⟨p, hp, rfl, hm⟩ := (h.bySource s m).mpr hq
    exact ⟨p, hp, m, hm, hP⟩

include h in
/-- After a verification all that was pending is known. -/
theorem Tracks.verify :
    (verify verifyInsecure v).perMessageFallback = true ∧
    (∀ s, s ∈ (CBLSBatchVerifier.verify verifyInsecure v).badSources ↔
      s ∈ marked ∨ ∃ q ∈ flushed ++ current, q.1 = s ∧ verifiesMessage verifyInsecure q.2 = false) ∧
    (∀ id, id ∈ (CBLSBatchVerifier.verify verifyInsecure v).badMessages ↔
      ∃ q ∈ flushed ++ current, q.2.msgId = id ∧ verifiesMessage verifyInsecure q.2 = false) ∧
    (CBLSBatchVerifier.verify verifyInsecure v).subBatchSize = subBatchSize := by
  unfold CBLSBatchVerifier.verify
  simp only [exists_flushed_append]
  split_ifs with hbatch
  · have hnone : ∀ P : σ × BatchMessage μ → Prop, ¬ ∃ q ∈ current, P q ∧ verifiesMessage verifyInsecure q.2 = false := by
      rintro P ⟨q, hq, -, hfail⟩
      rw [verifyBatch_eq_false.mpr ⟨q.2, (h.messages q.2).mpr ⟨q, hq, rfl⟩, hfail⟩] at hbatch
      cases hbatch
    refine ⟨h.fallback, fun s => ?_, fun id => ?_, h.size⟩
    · rw [h.badSources]
      simp [hnone]
    · rw [h.badMessages]
      simp [hnone]
  · rw [Bool.not_eq_true, verifyBatch_eq_false] at hbatch
    obtain ⟨m, hm, hfail⟩ := hbatch
    -- the only source has all messages, so its batch is the one that failed
    have hsingle : v.messagesBySource.length = 1 → ∀ p ∈ v.messagesBySource, verifyBatch verifyInsecure p.2 = false := by
      intro hlen p hp
      obtain ⟨p₀, hp₀⟩ := length_eq_one_iff.mp hlen
      obtain ⟨⟨s, m'⟩, hq, rfl⟩ := (h.messages m).mp hm
      obtain ⟨p', hp', -, hmem⟩ := (h.bySource s m').mpr hq
      rw [hp₀, mem_singleton] at hp hp'
      rw [hp, ← hp']
      exact verifyBatch_eq_false.mpr ⟨m', hmem, hfail⟩
    obtain ⟨hsame, hsources, hmessages⟩ := foldl_verifySource h.fallback hsingle
    refine ⟨?_, fun s => ?_, fun id => ?_, ?_⟩
    · rw [hsame]
      exact h.fallback
    · rw [hsources, h.badSources, or_assoc, 
        h.exists_bySource fun q => q.1 = s ∧ verifiesMessage verifyInsecure q.2 = false]
    · rw [hmessages, h.badMessages, h.exists_bySource fun q => q.2.msgId = id ∧ verifiesMessage verifyInsecure q.2 = false]
    · rw [hsame]
      exact h.size

omit [DecidableEq μ] in
theorem mem_addToSource {sourceId s : σ} {msg m : BatchMessage μ} {l : List (σ × List (BatchMessage μ))} :
    (∃ p ∈ addToSource sourceId msg l, p.1 = s ∧ m ∈ p.2) ↔
      (∃ p ∈ l, p.1 = s ∧ m ∈ p.2) ∨ (s = sourceId ∧ m = msg) := by
  induction l with
  | nil => simp [addToSource, eq_comm]
  | cons p l ih =>
    rw [addToSource]
    split_ifs with hs
    · subst hs
      simp only [mem_cons, exists_eq_or_imp, mem_append, not_mem_nil, or_false]
      constructor
      · rintro (⟨rfl, h | h⟩ | h)
        · exact .inl (.inl ⟨rfl, h⟩)
        · exact .inr ⟨rfl, h⟩
        · exact .inl (.inr h)
      · rintro ((⟨rfl, h⟩ | h) | ⟨rfl, h⟩)
        · exact .inl ⟨rfl, .inl h⟩
        · exact .inr h
        · exact .inl ⟨rfl, .inr h⟩
    · simp [ih, or_assoc]

include h in
omit [DecidableEq μ] in
theorem Tracks.addToSource (sourceId : σ)
    {msg : BatchMessage μ} {messages : List (BatchMessage μ)} (hmessages : ∀ m, m ∈ messages ↔ m ∈ v.messages ∨ m = msg) :
    Tracks verifyInsecure subBatchSize
      { v with messages := messages, messagesBySource := addToSource sourceId msg v.messagesBySource }
      marked flushed (current ++ [(sourceId, msg)]) := by
  refine ⟨h.fallback, h.size, fun m => ?_, fun s m => ?_, h.badSources, h.badMessages⟩
  · rw [hmessages, h.messages]
    simp only [mem_append, mem_singleton, or_and_right, exists_or, exists_eq_left]
    exact or_congr Iff.rfl eq_comm
  · rw [mem_addToSource, h.bySource, mem_append, mem_singleton, Prod.mk.injEq]

include h in
/-- A new message is pending, or completes a sub-batch. -/
theorem Tracks.pushMessage (sourceId : σ) (msg : BatchMessage μ) (hnew : ∀ q ∈ current, q.2.msgId ≠ msg.msgId) :
    if subBatchSize ≠ 0 ∧ v.messages.length + 1 ≥ subBatchSize then
      Tracks verifyInsecure subBatchSize (v.pushMessage verifyInsecure sourceId msg) marked
          (flushed ++ (current ++ [(sourceId, msg)])) [] ∧
        (v.pushMessage verifyInsecure sourceId msg).messages = []
    else
      Tracks verifyInsecure subBatchSize (v.pushMessage verifyInsecure sourceId msg) marked flushed
          (current ++ [(sourceId, msg)]) ∧
        (v.pushMessage verifyInsecure sourceId msg).messages = v.messages ++ [msg] := by
  obtain rfl := h.size
  have hfind : v.messages.find? (fun m => decide (m.msgId = msg.msgId)) = none := by
    rw [find?_eq_none]
    intro m hm
    obtain ⟨q, hq, rfl⟩ := (h.messages m).mp hm
    simpa using hnew q hq
  have hpending := @Tracks.addToSource _ _ _ _ _ _ _ _ _ h sourceId msg (v.messages ++ [msg]) fun m => by
    rw [mem_append, mem_singleton]
  unfold CBLSBatchVerifier.pushMessage
  rw [hfind]
  dsimp only
  rw [length_append, length_singleton]
  split_ifs with hfull
  · obtain ⟨hfallback, hsources, hmessages, hsize⟩ := hpending.verify
    refine ⟨⟨hfallback, hsize, fun m => ?_, fun s m => ?_, hsources, hmessages⟩, rfl⟩
    · simp [clearMessages]
    · simp [clearMessages]
  · exact ⟨hpending, rfl⟩

/-- Without sub-batches a message is that of the first source that pushed its id. -/
theorem Tracks.pushMessage_zero (h : Tracks verifyInsecure 0 v marked flushed current) (sourceId : σ)
    (msg : BatchMessage μ) :
    Tracks verifyInsecure 0 (v.pushMessage verifyInsecure sourceId msg) marked flushed
        (current ++ [(sourceId, (v.messages.find? (·.msgId = msg.msgId)).getD msg)]) ∧
      (v.pushMessage verifyInsecure sourceId msg).messages =
        if (v.messages.find? (·.msgId = msg.msgId)).isSome then v.messages else v.messages ++ [msg] := by
  unfold CBLSBatchVerifier.pushMessage
  cases hfind : v.messages.find? (fun m => decide (m.msgId = msg.msgId)) with
  | none =>
    rw [if_neg (fun hfull => hfull.1 h.size)]
    refine ⟨h.addToSource sourceId fun m => ?_, rfl⟩
    rw [mem_append, mem_singleton]
  | some known =>
    have hknown := mem_of_find?_eq_some hfind
    rw [if_neg (fun hfull => hfull.1 h.size)]
    refine ⟨h.addToSource sourceId fun m => ?_, rfl⟩
    refine ⟨.inl, ?_⟩
    rintro (hm | rfl)
    · exact hm
    · exact hknown

include h in
omit [DecidableEq μ] in
theorem Tracks.mark (s : σ) :
    Tracks verifyInsecure subBatchSize { v with badSources := v.badSources.insert s } (s :: marked) flushed current := by
  refine ⟨h.fallback, h.size, h.messages, h.bySource, fun s' => ?_, h.badMessages⟩
  rw [mem_insert_iff, h.badSources, mem_cons, or_assoc]

end Tracks

end CBLSBatchVerifier

end OmegaCore
