import OmegaCore.Primitives

/-!
The messages of a DKG session.  `PreVerifyMessage` checks the indexes and the bit sets of a message
against the members of the session and the parameters of the quorum, and `ReceiveMessage` then uses
them.  The index of a justification may be the number of members, one more than there is.
-/

namespace OmegaCore.Llmq

/-- What a message says.  Keys, shares and signatures are given by their validity. -/
inductive DKGBody where
  | contribution (blobs vvec : ℕ) (isVvecValid : Bool)
  | complaint (badMembers complainForMembers : List Bool)
  | justification (contributions : List (ℕ × Bool))
  | prematureCommitment (validMembers : List Bool) (isSigValid isQuorumSigValid : Bool)

structure DKGMessage where
  quorumHash : Uint256
  proTxHash : Uint256
  hash : Uint256
  body : DKGBody

/-- A member, with the hashes of its messages. -/
structure CDKGMember where
  proTxHash : Uint256
  contributions : List Uint256 := []
  complaints : List Uint256 := []
  justifications : List Uint256 := []
  prematureCommitments : List Uint256 := []
  bad : Bool := false

def CDKGMember.received (member : CDKGMember) : DKGBody → List Uint256
  | .contribution _ _ _ => member.contributions
  | .complaint _ _ => member.complaints
  | .justification _ => member.justifications
  | .prematureCommitment _ _ _ => member.prematureCommitments

structure CDKGSession where
  quorumHash : Uint256
  size : ℕ
  minSize : ℕ
  threshold : ℕ
  members : List CDKGMember
  myIdx : Option ℕ
  pendingContributionVerifications : List ℕ
  members_le : members.length ≤ size
  myIdx_lt : ∀ i ∈ myIdx, i < members.length
  pending_lt : ∀ i ∈ pendingContributionVerifications, i < members.length

namespace CDKGSession

variable (s : CDKGSession)

/-- A member and its index. -/
def getMember (proTxHash : Uint256) : Option (CDKGMember × ℕ) :=
  s.members.zipIdx.find? fun m => m.1.proTxHash == proTxHash

/-- What `PreVerifyMessage` checks of each kind of message. -/
def checkBody : DKGBody → Bool
  | .contribution blobs vvec isVvecValid => blobs == s.members.length && vvec == s.threshold && isVvecValid
  | .complaint badMembers complainForMembers => badMembers.length == s.size && complainForMembers.length == s.size
  | .justification contributions =>
    !contributions.isEmpty && contributions.all (fun p => !decide (p.1 > s.members.length)) &&
      decide (contributions.map Prod.fst).Nodup && contributions.all (·.2)
  | .prematureCommitment validMembers isSigValid isQuorumSigValid =>
    validMembers.length == s.size && !decide (validMembers.count true < s.minSize) && isSigValid && isQuorumSigValid &&
      (validMembers.drop s.members.length).all (!·)

/-- A message that is not accepted may get the node banned that sent it. -/
def preVerifyMessage (m : DKGMessage) : Except Bool Unit :=
  if m.quorumHash ≠ s.quorumHash then .error false
  else
    match s.getMember m.proTxHash with
    | none => .error true
    | some (member, _) =>
      if !s.checkBody m.body then .error true
      else if (member.received m.body).length ≥ 2 then .error false
      else .ok ()

/-- The indexes that `ReceiveMessage` may use, each with the length of what is indexed.  The debug status has `size`
members. -/
def receiveMessage (m : DKGMessage) : List (ℕ × ℕ) :=
  (s.getMember m.proTxHash).elim [] fun (member, idx) =>
    let count := s.members.length
    let hashes := (member.received m.body).insert m.hash
    (idx, s.size) ::
      match m.body with
      | .contribution blobs _ _ =>
        if hashes.length > 1 then [(idx, count)]
        else
          (idx, count) :: s.myIdx.elim [] fun myIdx =>
            (myIdx, blobs) :: s.pendingContributionVerifications.map (·, count)
      | .complaint badMembers complainForMembers =>
        if hashes.length > 1 then [(idx, count)]
        else
          (List.range count).flatMap fun i =>
            [(i, count), (i, badMembers.length), (i, complainForMembers.length), (i, s.size)]
      | .justification contributions =>
        if hashes.length > 1 then [(idx, count)]
        else if member.bad then []
        else (idx, count) :: contributions.map fun p => (p.1, count)
      | .prematureCommitment validMembers _ _ =>
        -- `GetVerifiedContributions`
        (List.range count).flatMap fun i => [(i, count), (i, validMembers.length)]

/-- The sender of a justification has sent no other one and is not known to be bad. -/
def IsExamined (m : DKGMessage) : Prop :=
  ∃ member idx, s.getMember m.proTxHash = some (member, idx) ∧ member.bad = false ∧
    ((member.received m.body).insert m.hash).length ≤ 1

variable {s} {m : DKGMessage}

theorem preVerifyMessage_ok (h : s.preVerifyMessage m = .ok ()) :
    ∃ member idx, s.getMember m.proTxHash = some (member, idx) ∧ idx < s.members.length ∧ s.checkBody m.body = true := by
  unfold preVerifyMessage at h
  cases hget : s.getMember m.proTxHash with
  | none =>
    rw [hget] at h
    split_ifs at h
  | some r =>
    rw [hget] at h
    split_ifs at h with _ hcheck
    exact ⟨r.1, r.2, rfl, List.snd_lt_of_mem_zipIdx (List.mem_of_find?_eq_some hget), by simpa using hcheck⟩

/-- What `ReceiveMessage` uses of an accepted message exists, unless a justification is examined that has the number of
members as an index. -/
theorem receiveMessage_inBounds_iff (h : s.preVerifyMessage m = .ok ()) :
    (∀ use ∈ s.receiveMessage m, use.1 < use.2) ↔
      ∀ contributions, m.body = .justification contributions → s.IsExamined m →
        ∀ p ∈ contributions, p.1 ≠ s.members.length := by
  have hle := s.members_le
  obtain ⟨member, idx, hget, hidx, hcheck⟩ := preVerifyMessage_ok h
  have hsize : idx < s.size := by omega
  simp only [receiveMessage, IsExamined, hget, Option.elim_some, Option.some.injEq, Prod.mk.injEq]
  cases hbody : m.body with
  | contribution blobs vvec isVvecValid =>
    have hmy := s.myIdx_lt
    have hpending := s.pending_lt
    simp only [hbody, checkBody, Bool.and_eq_true, beq_iff_eq] at hcheck
    refine iff_of_true ?_ nofun
    cases hme : s.myIdx <;> simp only [hme, Option.elim_none, Option.elim_some] at hmy ⊢ <;> grind
  | complaint badMembers complainForMembers =>
    simp only [hbody, checkBody, Bool.and_eq_true, beq_iff_eq] at hcheck
    refine iff_of_true ?_ nofun
    grind
  | justification contributions =>
    simp only [hbody, checkBody, Bool.and_eq_true, List.all_eq_true, Bool.not_eq_true', decide_eq_false_iff_not,
      not_lt] at hcheck
    dsimp only
    constructor
    · rintro huses _ ⟨⟩ ⟨_, _, ⟨rfl, rfl⟩, hbad, hone⟩ p hp
      rw [if_neg hone.not_gt, hbad, if_neg Bool.false_ne_true] at huses
      exact (huses (p.1, _) (.tail _ (.tail _ (List.mem_map.mpr ⟨p, hp, rfl⟩)))).ne
    · intro hne use huse
      split_ifs at huse with hseen hbad
      · grind
      · grind
      · have hlt : ∀ p ∈ contributions, p.1 < s.members.length := fun p hp => (hcheck.1.1.2 p hp).lt_of_ne
          (hne _ rfl ⟨member, idx, ⟨rfl, rfl⟩, by simpa using hbad, not_lt.mp hseen⟩ p hp)
        grind
  | prematureCommitment validMembers isSigValid isQuorumSigValid =>
    simp only [hbody, checkBody, Bool.and_eq_true, beq_iff_eq] at hcheck
    refine iff_of_true ?_ nofun
    grind

/-- A quorum of two that has one member. -/
def soloSession : CDKGSession where
  quorumHash := 1
  size := 2
  minSize := 1
  threshold := 1
  members := [{ proTxHash := 7 }]
  myIdx := none
  pendingContributionVerifications := []
  members_le := by decide
  myIdx_lt := by simp
  pending_lt := by simp

theorem receiveMessage_inBounds_iff_first :
    soloSession.preVerifyMessage ⟨1, 7, 3, .justification [(0, true)]⟩ = .ok () ∧
      ∀ use ∈ soloSession.receiveMessage ⟨1, 7, 3, .justification [(0, true)]⟩, use.1 < use.2 := by
  refine ⟨rfl, (receiveMessage_inBounds_iff rfl).mpr ?_⟩
  rintro _ ⟨⟩ - p hp
  simp_all [soloSession]

/-- The only member justifies itself for a second one. -/
theorem receiveMessage_outOfBounds : ∃ (s : CDKGSession) (m : DKGMessage), s.preVerifyMessage m = .ok () ∧
    ¬ ∀ use ∈ s.receiveMessage m, use.1 < use.2 :=
  ⟨soloSession, ⟨1, 7, 3, .justification [(1, true)]⟩, rfl, by decide⟩

end CDKGSession

end OmegaCore.Llmq
