import OmegaCore.Evo.DiffReplay
import OmegaCore.Llmq.SnapshotReplay

/-!
Rotation over a history of cycles.  The members of a quorum are the quarters of the three
previous cycles, read back from their snapshots, and a new quarter.  As long as every
snapshot leads to the quarters of its cycle and no two members of a quorum get into each
other's way in the list of used masternodes, a quorum has no masternode twice.
-/

namespace OmegaCore.Llmq

open Util Evo CDeterministicMNList List Option

/-- A cycle that stored a snapshot. -/
structure Cycle where
  base : QuorumBase
  snapshot : CQuorumSnapshot

/-- The cycles of a chain, the newest one first, without those that have no snapshot. -/
abbrev History := List (Option Cycle)

section Model

variable (E : Env) (llmqParams : LLMQParams) (history : History) (base : QuorumBase)

def Cycle.quarters (c : Cycle) : Option (List (List CDeterministicMN)) :=
  (getQuorumQuarterMembersBySnapshot E llmqParams c.base c.snapshot).toOption

/-- The quarters of the previous cycles.  One is read only if those after it have a snapshot. -/
def getPreviousQuorumQuarterMembers : Option PreviousQuorumQuarters :=
  let quarters := PreviousQuorumQuarters.empty llmqParams.signingActiveQuorumCount
  match history[0]?.join with
  | none => some quarters
  | some cycleHMinusC =>
    (cycleHMinusC.quarters E llmqParams).bind fun quarterHMinusC =>
      let quarters := { quarters with quarterHMinusC }
      match history[1]?.join with
      | none => some quarters
      | some cycleHMinus2C =>
        (cycleHMinus2C.quarters E llmqParams).bind fun quarterHMinus2C =>
          let quarters := { quarters with quarterHMinus2C }
          match history[2]?.join with
          | none => some quarters
          | some cycleHMinus3C =>
            (cycleHMinus3C.quarters E llmqParams).bind fun quarterHMinus3C =>
              some { quarters with quarterHMinus3C }

/-- The members of a quorum from the previous quarters and its new one. -/
def quorumMembers (previousQuarters : PreviousQuorumQuarters)
    (newQuarterMembers : List (List CDeterministicMN)) (i : ℕ) : List CDeterministicMN :=
  previousQuarters.quarterHMinus3C.getD i [] ++ previousQuarters.quarterHMinus2C.getD i [] ++
    previousQuarters.quarterHMinusC.getD i [] ++ newQuarterMembers.getD i []

/-- The members of every quorum of a cycle, and the snapshot that the cycle stores. -/
def computeQuorumMembersByQuarterRotation : Option (List (List CDeterministicMN) × Option CQuorumSnapshot) :=
  (getPreviousQuorumQuarterMembers E llmqParams history).bind fun previousQuarters =>
    (buildNewQuorumQuarterMembers E llmqParams base previousQuarters).bind fun new =>
      some ((List.range llmqParams.signingActiveQuorumCount).map (quorumMembers previousQuarters new.1), new.2)

end Model

variable {E : Env} {llmqParams : LLMQParams} {history : History} {base : QuorumBase}
variable {q : PreviousQuorumQuarters} {l l' used : CDeterministicMNList} {mn : CDeterministicMN}
variable {mns mns' : List CDeterministicMN} {sorted quarter : List CDeterministicMN} {s s' : Selection}
variable {members quarters : List (List CDeterministicMN)} {stored : Option CQuorumSnapshot}

/-! ### New members -/

/-- Members that a quorum with these used masternodes gets: sorted ones that it does not use yet. -/
structure NewFor (sorted : List CDeterministicMN) (used : CDeterministicMNList)
    (quarter : List CDeterministicMN) : Prop where
  nodup : (quarter.map (·.proTxHash)).Nodup
  sorted : ∀ mn ∈ quarter, mn ∈ sorted
  unused : ∀ mn ∈ quarter, used.hasMN mn.proTxHash = false

theorem forall_mem_snoc {α : Type*} {P : α → Prop} {l : List α} {a : α} :
    (∀ x ∈ l ++ [a], P x) ↔ (∀ x ∈ l, P x) ∧ P a := by
  rw [forall_mem_append, forall_mem_singleton]

theorem newFor_nil : NewFor sorted used [] :=
  ⟨nodup_nil, by simp, by simp⟩

theorem accept_eq_some (h : accept E l mn = some l') :
    l.hasMN mn.proTxHash = false ∧ l.addMN E.toCodec mn = .ok l' := by
  unfold accept at h
  split_ifs at h with hhas
  cases hadd : l.addMN E.toCodec mn with
  | error t => simp [hadd, Except.toOption] at h
  | ok l₁ =>
    simp only [hadd, Except.toOption, some.injEq] at h
    exact ⟨by simpa using hhas, by rw [h]⟩

theorem hasMN_addMN {p : Uint256} (hl : Indexed E.toCodec l) (hadd : l.addMN E.toCodec mn = .ok l') :
    l'.hasMN p = true ↔ l.hasMN p = true ∨ p = mn.proTxHash := by
  simp only [hasMN, getMN, isSome_iff_exists, addMN_get hl hadd]
  constructor
  · rintro ⟨e, he | ⟨-, hp⟩⟩
    · exact .inl ⟨e, he⟩
    · exact .inr hp
  · rintro (⟨e, he⟩ | hp)
    · exact ⟨e, .inl he⟩
    · exact ⟨mn, .inr ⟨rfl, hp⟩⟩

/-- The state of the selection loop: the new members are in the list of the used masternodes, with those
that the quorum used before. -/
structure Gathered (E : Env) (sorted : List CDeterministicMN) (used : CDeterministicMNList)
    (s : Selection) : Prop where
  indexed : Indexed E.toCodec s.mnsUsedAtHIndexed
  new : NewFor sorted used s.quarterQuorumMembers
  before : ∀ p, used.hasMN p = true → s.mnsUsedAtHIndexed.hasMN p = true
  added : ∀ mn ∈ s.quarterQuorumMembers, s.mnsUsedAtHIndexed.hasMN mn.proTxHash = true

theorem Gathered.step (h : Gathered E sorted used s) (hstep : RoundStep E sorted s s') : Gathered E sorted used s' := by
  cases hstep with
  | skip mn updated item refused =>
    refine ⟨?_, ?_, ?_, ?_⟩
    · simpa only [Selection.skip_used] using h.indexed
    · simpa only [Selection.skip_members] using h.new
    · simpa only [Selection.skip_used] using h.before
    · simpa only [Selection.skip_used, Selection.skip_members] using h.added
  | take mn l updated item accepted =>
    obtain ⟨hfree, hadd⟩ := accept_eq_some accepted
    have hhas := fun p => hasMN_addMN (p := p) h.indexed hadd
    have hother : ∀ d ∈ s.quarterQuorumMembers, d.proTxHash ≠ mn.proTxHash := by
      intro d hd heq
      have hin := h.added d hd
      rw [heq, hfree] at hin
      cases hin
    refine ⟨addMN_indexed h.indexed hadd, ⟨?_, ?_, ?_⟩, fun p hp => (hhas p).mpr (.inl (h.before p hp)), ?_⟩
    · rw [map_append, nodup_append]
      refine ⟨h.new.nodup, nodup_singleton _, ?_⟩
      intro p hp p' hp' heq
      obtain ⟨d, hd, rfl⟩ := mem_map.mp hp
      exact hother d hd (heq.trans (mem_singleton.mp hp'))
    · exact forall_mem_snoc.mpr ⟨h.new.sorted, mem_of_getElem? item⟩
    · refine forall_mem_snoc.mpr ⟨h.new.unused, ?_⟩
      by_contra hin
      rw [h.before _ (by simpa using hin)] at hfree
      cases hfree
    · exact forall_mem_snoc.mpr ⟨fun d hd => (hhas _).mpr (.inl (h.added d hd)), (hhas _).mpr (.inr rfl)⟩

theorem selectQuarter_newFor (hok : selectQuarter E llmqParams sorted s = .done s')
    (hused : Indexed E.toCodec s.mnsUsedAtHIndexed) (hempty : s.quarterQuorumMembers = []) :
    NewFor sorted s.mnsUsedAtHIndexed s'.quarterQuorumMembers := by
  have hstart : Gathered E sorted s.mnsUsedAtHIndexed s :=
    ⟨hused, hempty ▸ newFor_nil, fun p hp => hp, by simp [hempty]⟩
  exact (whileLoop_invariant (Gathered E sorted s.mnsUsedAtHIndexed)
    (fun t t' ht _ hround => ht.step (selectRound_step hround)) hok hstart).1.new

theorem selectQuarters_newFor {usedLists : List CDeterministicMNList} {idx first : ℕ} {skipList skipList' : List Int}
    (hok : selectQuarters E llmqParams sorted usedLists idx skipList first = .done (quarters, skipList'))
    (hused : ∀ used ∈ usedLists, Indexed E.toCodec used) : List.Forall₂ (NewFor sorted) usedLists quarters := by
  induction usedLists generalizing idx first skipList quarters skipList' with
  | nil =>
    cases hok
    exact .nil
  | cons used usedLists ih =>
    obtain ⟨s, hfirst, hrest⟩ := Outcome.bind_eq_done.mp hok
    obtain ⟨⟨quarters', skips'⟩, hquarters, hdone⟩ := Outcome.bind_eq_done.mp hrest
    cases hdone
    rw [forall_mem_cons] at hused
    exact .cons (selectQuarter_newFor hfirst hused.1 rfl) (ih hquarters hused.2)

structure NewQuarter (E : Env) (llmqParams : LLMQParams) (base : QuorumBase) (q : PreviousQuorumQuarters)
    (i : ℕ) (quarter : List CDeterministicMN) : Prop where
  new : NewFor (sortedAt E llmqParams base q) (mnsUsedAtHIndexed E base q i) quarter
  short : quarter.length ≤ quarterSize llmqParams

theorem newQuarter_nil (i : ℕ) : NewQuarter E llmqParams base q i [] :=
  ⟨newFor_nil, Nat.zero_le _⟩

theorem selectQuarters_newQuarter {skipList : List Int}
    (hselect : selectQuarters E llmqParams (sortedAt E llmqParams base q) (usedLists E llmqParams base q)
      0 [] 0 = .done (members, skipList)) (i : ℕ) : NewQuarter E llmqParams base q i (members.getD i []) := by
  have hindexed : ∀ used ∈ usedLists E llmqParams base q, Indexed E.toCodec used := by
    intro used hmem
    obtain ⟨j, -, rfl⟩ := mem_map.mp hmem
    exact (fromMembers_mnsUsedAtHIndexed q j).indexed
  have hnew := selectQuarters_newFor hselect hindexed
  have hlens := (selectQuarters_walks hselect (show 0 = 0 % _ from (Nat.zero_mod _).symm) records_nil).1
  rw [getD_eq_getElem?_getD]
  cases hget : members[i]? with
  | none => exact newQuarter_nil i
  | some quarter =>
    obtain ⟨hi, hquarter⟩ := List.getElem?_eq_some_iff.mp hget
    have hcount : i < (usedLists E llmqParams base q).length := hnew.length_eq ▸ hi
    have hentry := List.forall₂_iff_get.mp hnew |>.2 i hcount hi
    have hlen : (members.map List.length)[i]? = some quarter.length := by simp [hget]
    rw [hlens, getElem?_map, getElem?_eq_getElem hcount, map_some, some.injEq] at hlen
    simp only [get_eq_getElem, hquarter] at hentry
    refine ⟨?_, ?_⟩
    · simpa [usedLists] using hentry
    · rw [getD_some, ← hlen]
      exact Nat.min_le_left _ _

theorem getD_replicate_nil {α : Type*} (n i : ℕ) : (List.replicate n ([] : List α)).getD i [] = [] := by
  rw [getD_eq_getElem?_getD, getElem?_replicate]
  split_ifs <;> rfl

theorem buildNewQuorumQuarterMembers_newQuarter
    (hbuilt : buildNewQuorumQuarterMembers E llmqParams base q = some (members, stored)) (i : ℕ) :
    NewQuarter E llmqParams base q i (members.getD i []) := by
  have hempty : NewQuarter E llmqParams base q i
      ((replicate llmqParams.signingActiveQuorumCount []).getD i []) := by
    rw [getD_replicate_nil]
    exact newQuarter_nil i
  unfold buildNewQuorumQuarterMembers at hbuilt
  dsimp only at hbuilt
  split_ifs at hbuilt
  · cases hbuilt
    exact hempty
  · split at hbuilt
    · cases hbuilt
    · cases hbuilt
      exact hempty
    · next hselect =>
      cases hbuilt
      exact selectQuarters_newQuarter hselect i

/-! ### Previous members that can be used together -/

/-- The entries of different masternodes that are still valid share no internal id and no unique property,
so that all of them fit in one list. -/
def Compatible (E : Env) (base : QuorumBase) (mns : List CDeterministicMN) : Prop :=
  ∀ a ∈ mns, ∀ b ∈ mns, StillValid base a → StillValid base b → a.proTxHash ≠ b.proTxHash →
    a.internalId ≠ b.internalId ∧ ∀ h ∈ slots E.toCodec a, h ∉ slots E.toCodec b

structure Addable (mn : CDeterministicMN) : Prop where
  collateral : mn.collateralOutpoint ≠ {}
  owner : mn.pdmnState.keyIDOwner ≠ 0

theorem FromMembers.hasMN_tryAddMN (h : FromMembers E base mns l) (hcompat : Compatible E base mns)
    (hmem : mn ∈ mns) (hvalid : StillValid base mn) (hadd : Addable mn) :
    (l.tryAddMN E.toCodec mn).hasMN mn.proTxHash = true := by
  rw [hasMN, getMN, isSome_iff_exists]
  cases hget : l.mnMap[mn.proTxHash]? with
  | some e => exact ⟨e, get_tryAddMN_of_get h.indexed hget⟩
  | none =>
    have hother : ∀ (p : Uint256) e, l.mnMap[p]? = some e →
        e.internalId ≠ mn.internalId ∧ ∀ x ∈ slots E.toCodec mn, x ∉ slots E.toCodec e := by
      intro p e he
      obtain ⟨hemem, hevalid⟩ := h.entry p e he
      have hne : e.proTxHash ≠ mn.proTxHash := by
        intro heq
        rw [← heq, h.indexed.keyed p e he, he] at hget
        cases hget
      obtain ⟨hid, hslots⟩ := hcompat e hemem mn hmem hevalid hvalid hne
      exact ⟨hid, fun x hx hx' => hslots x hx' hx⟩
    have hid : l.mnInternalIdMap[mn.internalId.val]? = none := by
      rw [eq_none_iff_forall_ne_some]
      intro p hp
      obtain ⟨e, he, heq⟩ := (h.indexed.internalId _ _).mp hp
      exact (hother p e he).1 (Fin.ext heq)
    have hfree : SlotsFree E.toCodec l mn := fun x hx p e _ he => (hother p e he).2 x hx
    obtain ⟨l', hok⟩ := exists_addMN (b := true) h.indexed hget hid hadd.collateral hadd.owner hfree
    have htry : l.tryAddMN E.toCodec mn = l' := by
      unfold tryAddMN
      rw [hok]
    exact ⟨mn, htry ▸ (addMN_get h.indexed hok _ _).mpr (.inr ⟨rfl, rfl⟩)⟩

theorem hasMN_addUsed {p : Uint256} (hl : Indexed E.toCodec l) (hp : l.hasMN p = true) :
    (addUsed E base l mn).hasMN p = true := by
  by_cases hvalid : StillValid base mn
  · rw [addUsed_of_stillValid hvalid]
    rw [hasMN, getMN, isSome_iff_exists] at hp ⊢
    obtain ⟨e, he⟩ := hp
    exact ⟨e, get_tryAddMN_of_get hl he⟩
  · rwa [addUsed_of_not_stillValid hvalid]

/-- Every previous member that is still valid is in the list of the used ones. -/
theorem FromMembers.hasMN_foldl (h : FromMembers E base mns l) (hcompat : Compatible E base mns)
    (hadd : ∀ mn ∈ mns, Addable mn) (hsub : ∀ mn ∈ mns', mn ∈ mns) {p : Uint256}
    (hp : l.hasMN p = true ∨ ∃ mn ∈ mns', StillValid base mn ∧ mn.proTxHash = p) :
    (mns'.foldl (addUsed E base) l).hasMN p = true := by
  induction mns' generalizing l with
  | nil =>
    rcases hp with hp | ⟨mn, hmem, -⟩
    · exact hp
    · cases hmem
  | cons d mns' ih =>
    obtain ⟨hd, hsub⟩ := forall_mem_cons.mp hsub
    have hone : ∀ mn ∈ [d], mn ∈ mns := by simpa using hd
    have hnext : FromMembers E base mns (addUsed E base l d) := h.foldl_addUsed hone
    apply ih hnext hsub
    rcases hp with hp | ⟨mn, hmem, hvalid, rfl⟩
    · exact .inl (hasMN_addUsed h.indexed hp)
    · rcases mem_cons.mp hmem with rfl | hmem
      · rw [addUsed_of_stillValid hvalid]
        exact .inl (h.hasMN_tryAddMN hcompat hd hvalid (hadd mn hd))
      · exact .inr ⟨mn, hmem, hvalid, rfl⟩

/-- A new member of a quorum is none of its previous ones. -/
theorem NewQuarter.proTxHash_ne {i : ℕ} (h : NewQuarter E llmqParams base q i quarter)
    (hall : Sound E base.allMns) (hcompat : Compatible E base (q.members i))
    (hadd : ∀ mn ∈ q.members i, Addable mn) {d : CDeterministicMN} (hd : d ∈ quarter)
    (hmem : mn ∈ q.members i) : d.proTxHash ≠ mn.proTxHash := by
  intro heq
  have hfrom : FromMembers E base (q.all llmqParams.signingActiveQuorumCount) (mnsUsedAtH E llmqParams base q) :=
    fromMembers_mnsUsedAtH q
  have hsorted := h.new.sorted d hd
  rw [sortedAt, mem_sortedCombinedMns hall hfrom.indexed.keyed] at hsorted
  -- a sorted masternode is neither removed nor banned
  have hvalid : StillValid base mn := by
    rcases hsorted with ⟨⟨hget, -⟩ | hget, hban, -⟩
    · rw [heq] at hget
      refine ⟨fun _ => ?_, ?_⟩
      · rw [hasMN, getMN, hget]
        rfl
      · rw [isMNPoSeBanned, hget]
        exact hban
    · have hd := (hfrom.entry _ _ hget).2
      exact ⟨heq ▸ hd.stored, heq ▸ hd.valid⟩
  have hused : (mnsUsedAtHIndexed E base q i).hasMN mn.proTxHash = true :=
    (fromMembers_empty E base _).hasMN_foldl hcompat hadd (fun _ => id) (.inr ⟨mn, hmem, hvalid, rfl⟩)
  rw [← heq, h.new.unused d hd] at hused
  cases hused

/-! ### Members read back -/

/-- A valid confirmed masternode of a list. -/
structure Listed (l : CDeterministicMNList) (mn : CDeterministicMN) : Prop where
  get : l.mnMap[mn.proTxHash]? = some mn
  valid : mn.pdmnState.isBanned = false
  confirmed : mn.pdmnState.confirmedHash ≠ 0

theorem Listed.addable (h : Listed l mn) (hl : Sound E l) : Addable mn :=
  ⟨hl.indexed.collateral _ _ h.get, hl.owned _ _ h.get⟩

theorem Listed.agrees (h : Listed l mn) (hl : Sound E l) (hlater : Later E l l') : Agrees l' mn := by
  refine ⟨h.valid, h.confirmed, fun d hget => ?_⟩
  have hsame := hlater.sameMN hl h.get hget
  exact ⟨hsame.collateralOutpoint, hsame.confirmed h.confirmed⟩

theorem snapshotRound_mem {t t' : SnapshotSelection} (hok : snapshotRound sorted t = .done t')
    (ht : ∀ mn ∈ t.quarterQuorumMembers, mn ∈ sorted) : ∀ mn ∈ t'.quarterQuorumMembers, mn ∈ sorted := by
  unfold snapshotRound at hok
  split at hok
  · cases hok
  · next mn item =>
    split_ifs at hok
    · cases hok
      exact ht
    · cases hok
      exact forall_mem_snoc.mpr ⟨ht, mem_of_getElem? item⟩

theorem copyRound_mem {t t' : SnapshotSelection} (hok : copyRound sorted t = .done t')
    (ht : ∀ mn ∈ t.quarterQuorumMembers, mn ∈ sorted) : ∀ mn ∈ t'.quarterQuorumMembers, mn ∈ sorted := by
  unfold copyRound at hok
  split at hok
  · cases hok
  · next mn item =>
    cases hok
    exact forall_mem_snoc.mpr ⟨ht, mem_of_getElem? item⟩

theorem snapshotQuarters_mem {round : SnapshotSelection → Outcome Unit SnapshotSelection}
    (hround : ∀ t t', round t = .done t' → (∀ mn ∈ t.quarterQuorumMembers, mn ∈ sorted) →
      ∀ mn ∈ t'.quarterQuorumMembers, mn ∈ sorted) {m idx : ℕ} {itsk : List Int}
    (hok : snapshotQuarters llmqParams round m idx itsk = .done quarters) :
    ∀ quarter ∈ quarters, ∀ mn ∈ quarter, mn ∈ sorted := by
  induction m generalizing idx itsk quarters with
  | zero =>
    cases hok
    simp
  | succ m ih =>
    obtain ⟨t, hfirst, hrest⟩ := Outcome.bind_eq_done.mp hok
    obtain ⟨quarters', hquarters, hdone⟩ := Outcome.bind_eq_done.mp hrest
    cases hdone
    have ht := (whileLoop_invariant (fun t => ∀ mn ∈ t.quarterQuorumMembers, mn ∈ sorted)
      (fun t t' ht _ hok => hround t t' hok ht) hfirst (by simp)).1
    intro quarter hmem
    rcases mem_cons.mp hmem with rfl | hmem
    · exact ht
    · exact ih hquarters quarter hmem

theorem listed_bySnapshot (hall : Sound E base.allMns) {skipList : List Int}
    (hok : getQuorumQuarterMembersBySnapshot E llmqParams base (buildQuorumSnapshot E base used skipList) =
      .done quarters) : ∀ quarter ∈ quarters, ∀ mn ∈ quarter, Listed base.allMns mn := by
  have husage := get_usage hall used skipList
  rw [getQuorumQuarterMembersBySnapshot_eq] at hok
  generalize getMNUsageBySnapshot E base (buildQuorumSnapshot E base used skipList) = usage at husage hok
  have hkeyed := hall.indexed.keyed
  have hsorted : ∀ mn ∈ sortedCombinedMns E base usage.1 usage.2, Listed base.allMns mn := by
    refine forall_mem_append.mpr ⟨fun mn hmem => ?_, fun mn hmem => ?_⟩
    · have hget := (mem_calculateQuorum fun p d hd => hkeyed p d ((husage p d).2.mp hd).1).mp hmem
      obtain ⟨hlist, hban, hconf, -⟩ := (husage _ _).2.mp hget.1
      exact ⟨hlist, hban, hconf⟩
    · have hget := (mem_calculateQuorum fun p d hd => hkeyed p d ((husage p d).1.mp hd).1).mp hmem
      obtain ⟨hlist, hban, hconf, -⟩ := (husage _ _).1.mp hget.1
      exact ⟨hlist, hban, hconf⟩
  split_ifs at hok
  · cases hok
    intro quarter hmem mn hmn
    rw [eq_of_mem_replicate hmem] at hmn
    cases hmn
  · exact fun quarter hquarter mn hmn => hsorted mn
      (snapshotQuarters_mem (fun t t' => copyRound_mem) hok quarter hquarter mn hmn)
  · exact fun quarter hquarter mn hmn => hsorted mn
      (snapshotQuarters_mem (fun t t' => snapshotRound_mem) hok quarter hquarter mn hmn)

/-! ### Runs

Runs of the rotation.  In every run in which each snapshot leads to the quarters of its
cycle, the quorums of every cycle have no masternode twice and no more members than the
quorum size.
-/

open PreviousQuorumQuarters

variable {c : Cycle} {snapshot : CQuorumSnapshot}

/-- The list of a new cycle is well formed and later on the chain than those of the cycles before. -/
structure NextCycle (E : Env) (history : History) (base : QuorumBase) : Prop where
  sound : Sound E base.allMns
  later : ∀ c, some c ∈ history → Later E c.base.allMns base.allMns

/-- A history of cycles in which the ones that computed members met a condition. -/
inductive RotationRun (E : Env) (llmqParams : LLMQParams) (ok : History → QuorumBase → Prop) :
    History → Prop where
  | start : RotationRun E llmqParams ok []
  | idle {history : History} (run : RotationRun E llmqParams ok history) : RotationRun E llmqParams ok (none :: history)
  | compute {history : History} {base : QuorumBase} {members : List (List CDeterministicMN)}
      {stored : Option CQuorumSnapshot} (run : RotationRun E llmqParams ok history)
      (next : NextCycle E history base) (condition : ok history base)
      (computed : computeQuorumMembersByQuarterRotation E llmqParams history base = some (members, stored)) :
      RotationRun E llmqParams ok (stored.map (Cycle.mk base) :: history)

/-- No two previous members of a quorum get into each other's way. -/
def NoClash (E : Env) (llmqParams : LLMQParams) (history : History) (base : QuorumBase) : Prop :=
  ∀ q, getPreviousQuorumQuarterMembers E llmqParams history = some q → ∀ i, Compatible E base (q.members i)

/-- The snapshot of a cycle leads to its quarters: removed members are skipped or there are none, and the
scan is unambiguous. -/
def ReadsBack (E : Env) (llmqParams : LLMQParams) (history : History) (base : QuorumBase) : Prop :=
  ∀ q, getPreviousQuorumQuarterMembers E llmqParams history = some q → (base.skipRemovedMNs = true ∨
      ∀ mn ∈ q.all llmqParams.signingActiveQuorumCount, base.allMns.hasMN mn.proTxHash = true) ∧
    Replayable E llmqParams base q

structure Steady (E : Env) (llmqParams : LLMQParams) (history : History) (base : QuorumBase) : Prop where
  noClash : NoClash E llmqParams history base
  readsBack : ReadsBack E llmqParams history base

/-! ### The previous quarters -/

/-- The cycles of a history have well-formed lists, and their snapshots lead to quarters. -/
structure Readable (E : Env) (llmqParams : LLMQParams) (history : History) : Prop where
  sound : ∀ c, some c ∈ history → Sound E c.base.allMns
  quarters : ∀ c, some c ∈ history → ∃ quarters, c.quarters E llmqParams = some quarters

theorem getPreviousQuorumQuarterMembers_none :
    getPreviousQuorumQuarterMembers E llmqParams (none :: history) =
      some (.empty llmqParams.signingActiveQuorumCount) :=
  rfl

/-- A new cycle shifts the quarters. -/
theorem getPreviousQuorumQuarterMembers_some (hread : Readable E llmqParams history)
    (hq : getPreviousQuorumQuarterMembers E llmqParams history = some q)
    (hc : c.quarters E llmqParams = some quarters) :
    getPreviousQuorumQuarterMembers E llmqParams (some c :: history) =
      some ⟨quarters, q.quarterHMinusC, q.quarterHMinus2C⟩ := by
  match history, hread, hq with
  | [], _, hq | none :: _, _, hq =>
    cases hq
    simp [getPreviousQuorumQuarterMembers, hc, empty]
  | some c₂ :: rest, hread, hq =>
    obtain ⟨quarters₂, hc₂⟩ := hread.quarters c₂ (by simp)
    match rest, hread, hq with
    | [], _, hq | none :: _, _, hq =>
      simp only [getPreviousQuorumQuarterMembers, getElem?_cons_zero, getElem?_cons_succ,
        getElem?_nil, join_none, join_some, hc₂, bind_some, some.injEq] at hq
      subst hq
      simp [getPreviousQuorumQuarterMembers, hc, hc₂, empty]
    | some c₃ :: rest, hread, hq =>
      obtain ⟨quarters₃, hc₃⟩ := hread.quarters c₃ (by simp)
      have hq' : q.quarterHMinusC = quarters₂ ∧ q.quarterHMinus2C = quarters₃ := by
        simp only [getPreviousQuorumQuarterMembers, getElem?_cons_zero, getElem?_cons_succ,
          join_some, hc₂, hc₃, bind_some] at hq
        split at hq
        · cases hq
          exact ⟨rfl, rfl⟩
        · obtain ⟨quarters₄, -, hq⟩ := bind_eq_some_iff.mp hq
          cases hq
          exact ⟨rfl, rfl⟩
      simp [getPreviousQuorumQuarterMembers, hc, hc₂, hc₃, hq'.1, hq'.2]

/-- What the previous quarters are like: no quorum has a masternode twice in them, its quarters are short
enough, and its members come from the lists of the cycles. -/
structure Distinct (llmqParams : LLMQParams) (history : History) (q : PreviousQuorumQuarters) : Prop where
  nodup : ∀ i, ((q.members i).map (·.proTxHash)).Nodup
  shortC : ∀ i, (q.quarterHMinusC.getD i []).length ≤ quarterSize llmqParams
  short2C : ∀ i, (q.quarterHMinus2C.getD i []).length ≤ quarterSize llmqParams
  short3C : ∀ i, (q.quarterHMinus3C.getD i []).length ≤ quarterSize llmqParams
  listed : ∀ i, ∀ mn ∈ q.members i, ∃ c, some c ∈ history ∧ Listed c.base.allMns mn

@[simp] theorem members_empty (n i : ℕ) : (empty n).members i = [] := by
  simp only [PreviousQuorumQuarters.members, empty, getD_replicate_nil, append_nil]

theorem distinct_empty : Distinct llmqParams history (.empty llmqParams.signingActiveQuorumCount) := by
  refine ⟨fun i => by simp, ?_, ?_, ?_, fun i => by simp⟩ <;>
  · intro i
    simp only [empty, getD_replicate_nil, length_nil, Nat.zero_le]

structure Consistent (E : Env) (llmqParams : LLMQParams) (history : History) : Prop where
  readable : Readable E llmqParams history
  previous : ∃ q, getPreviousQuorumQuarterMembers E llmqParams history = some q ∧ Distinct llmqParams history q

/-! ### A cycle -/

section

variable (h : Distinct llmqParams history q) (hread : Readable E llmqParams history)

include h hread

theorem Distinct.addable {i : ℕ} : ∀ mn ∈ q.members i, Addable mn := by
  intro mn hmem
  obtain ⟨c, hc, hlisted⟩ := h.listed i mn hmem
  exact hlisted.addable (hread.sound c hc)

theorem Distinct.agrees
    (hnext : NextCycle E history base) : ∀ mn ∈ q.all llmqParams.signingActiveQuorumCount, Agrees base.allMns mn := by
  intro mn hmem
  obtain ⟨i, -, hmem⟩ := mem_flatMap.mp hmem
  obtain ⟨c, hc, hlisted⟩ := h.listed i mn hmem
  exact hlisted.agrees (hread.sound c hc) (hnext.later c hc)

/-- The new members of a quorum and its previous ones are different masternodes. -/
theorem Distinct.nodup_new (hall : Sound E base.allMns) {i : ℕ} (hcompat : Compatible E base (q.members i))
    (hbuilt : buildNewQuorumQuarterMembers E llmqParams base q = some (members, stored)) :
    ((members.getD i [] ++ q.members i).map (·.proTxHash)).Nodup := by
  have hnew := buildNewQuorumQuarterMembers_newQuarter hbuilt i
  rw [map_append, nodup_append]
  refine ⟨hnew.new.nodup, h.nodup i, ?_⟩
  intro p hp p' hp' heq
  obtain ⟨d, hd, rfl⟩ := mem_map.mp hp
  obtain ⟨mn, hmn, rfl⟩ := mem_map.mp hp'
  exact hnew.proTxHash_ne hall hcompat (h.addable hread) hd hmn heq

end

theorem getD_hashes (i : ℕ) (quarters : List (List CDeterministicMN)) :
    (quarters.getD i []).map (·.proTxHash) = (hashes quarters).getD i [] := by
  rw [hashes, getD_eq_getElem?_getD, getD_eq_getElem?_getD, getElem?_map]
  cases quarters[i]? <;> rfl

theorem mem_of_getD_mem {α : Type*} {ls : List (List α)} {i : ℕ} {x : α} (h : x ∈ ls.getD i []) : ∃ l ∈ ls, x ∈ l := by
  rw [getD_eq_getElem?_getD] at h
  cases hget : ls[i]? with
  | none => simp [hget] at h
  | some l =>
    rw [hget] at h
    exact ⟨l, mem_of_getElem? hget, h⟩

/-- The quarters that the next cycles read, once the cycle has stored its snapshot. -/
theorem Distinct.shift (h : Distinct llmqParams history q) (hread : Readable E llmqParams history)
    (hall : Sound E base.allMns) (hcompat : ∀ i, Compatible E base (q.members i))
    (hbuilt : buildNewQuorumQuarterMembers E llmqParams base q = some (members, stored))
    (hhashes : hashes quarters = hashes members)
    (hlisted : ∀ quarter ∈ quarters, ∀ mn ∈ quarter, Listed base.allMns mn) :
    Distinct llmqParams (some ⟨base, snapshot⟩ :: history) ⟨quarters, q.quarterHMinusC, q.quarterHMinus2C⟩ := by
  have hsame (i : ℕ) : (quarters.getD i []).map (·.proTxHash) = (members.getD i []).map (·.proTxHash) := by
    rw [getD_hashes, getD_hashes, hhashes]
  refine ⟨fun i => ?_, fun i => ?_, h.shortC, h.short2C, fun i mn hmem => ?_⟩
  · have hnodup := h.nodup_new hread hall (hcompat i) hbuilt
    simp only [PreviousQuorumQuarters.members, map_append, hsame] at hnodup ⊢
    have hsub : (q.quarterHMinusC.getD i [] ++ q.quarterHMinus2C.getD i []).Sublist (q.members i) :=
      sublist_append_left _ _
    refine Nodup.sublist ?_ hnodup
    rw [append_assoc]
    refine Sublist.append_left ?_ _
    simpa only [PreviousQuorumQuarters.members, map_append] using hsub.map (·.proTxHash)
  · have hlen := congrArg length (hsame i)
    rw [length_map, length_map] at hlen
    rw [hlen]
    exact (buildNewQuorumQuarterMembers_newQuarter hbuilt i).short
  · simp only [PreviousQuorumQuarters.members, mem_append] at hmem
    rcases hmem with (hmem | hmem) | hmem
    · obtain ⟨quarter, hquarter, hmem⟩ := mem_of_getD_mem hmem
      exact ⟨_, mem_cons_self, hlisted quarter hquarter mn hmem⟩
    · obtain ⟨c, hc, hmn⟩ := h.listed i mn (mem_append_left _ (mem_append_left _ hmem))
      exact ⟨c, mem_cons_of_mem _ hc, hmn⟩
    · obtain ⟨c, hc, hmn⟩ := h.listed i mn (mem_append_left _ (mem_append_right _ hmem))
      exact ⟨c, mem_cons_of_mem _ hc, hmn⟩

theorem Consistent.idle (h : Consistent E llmqParams history) : Consistent E llmqParams (none :: history) := by
  refine ⟨⟨fun c hc => ?_, fun c hc => ?_⟩, _, getPreviousQuorumQuarterMembers_none, distinct_empty⟩
  · exact h.readable.sound c (by simpa using hc)
  · exact h.readable.quarters c (by simpa using hc)

/-- A steady cycle keeps the state of the run. -/
theorem Consistent.compute (h : Consistent E llmqParams history) (hnext : NextCycle E history base)
    (hsteady : Steady E llmqParams history base)
    (hok : computeQuorumMembersByQuarterRotation E llmqParams history base = some (members, stored)) :
    Consistent E llmqParams (stored.map (Cycle.mk base) :: history) := by
  obtain ⟨hread, q, hq, hdistinct⟩ := h
  obtain ⟨q', hq', hok⟩ := bind_eq_some_iff.mp hok
  obtain ⟨⟨new, stored'⟩, hbuilt, hok⟩ := bind_eq_some_iff.mp hok
  obtain ⟨-, rfl⟩ := Prod.mk.inj (some.inj hok)
  rw [hq, some.injEq] at hq'
  subst hq'
  cases hstored : stored' with
  | none => exact Consistent.idle ⟨hread, q, hq, hdistinct⟩
  | some snapshot =>
    rw [hstored] at hbuilt
    obtain ⟨hskip, hreplay⟩ := hsteady.readsBack q hq
    have hfrom : FromMembers E base (q.all llmqParams.signingActiveQuorumCount) (mnsUsedAtH E llmqParams base q) :=
      fromMembers_mnsUsedAtH q
    have hused := hfrom.usedList hskip (hdistinct.agrees hread hnext)
    obtain ⟨quarters, hdone, hhashes⟩ := (hused.bySnapshot_iff hnext.sound hbuilt).mpr hreplay
    have hquarters : (Cycle.mk base snapshot).quarters E llmqParams = some quarters :=
      Outcome.toOption_eq_some_iff.mpr hdone
    obtain ⟨skipList, -, rfl⟩ := buildNewQuorumQuarterMembers_snapshot hbuilt
    refine ⟨⟨fun c hc => ?_, fun c hc => ?_⟩, _, getPreviousQuorumQuarterMembers_some hread hq hquarters,
      hdistinct.shift hread hnext.sound (hsteady.noClash q hq) hbuilt hhashes (listed_bySnapshot hnext.sound hdone)⟩
    · rcases mem_cons.mp hc with hc | hc
      · cases hc
        exact hnext.sound
      · exact hread.sound c hc
    · rcases mem_cons.mp hc with hc | hc
      · cases hc
        exact ⟨quarters, hquarters⟩
      · exact hread.quarters c hc

theorem RotationRun.consistent (h : RotationRun E llmqParams (Steady E llmqParams) history) :
    Consistent E llmqParams history := by
  induction h with
  | start => exact ⟨⟨by simp, by simp⟩, _, rfl, distinct_empty⟩
  | idle run ih => exact ih.idle
  | compute run next condition computed ih => exact ih.compute next condition computed

theorem quorumMembers_perm (q : PreviousQuorumQuarters) (new : List (List CDeterministicMN)) (i : ℕ) :
    (quorumMembers q new i).Perm (new.getD i [] ++ q.members i) := by
  rw [perm_iff_count]
  simp only [quorumMembers, PreviousQuorumQuarters.members, count_append]
  omega

/-- For every run of the rotation and every quorum parameters: if each cycle of the run read back the
members of the cycles before it, and the previous members of a quorum of the next cycle fit in one list,
then the next cycle computes for every quorum a list of members without a masternode twice and with no
more than the quorum size. -/
theorem computeQuorumMembersByQuarterRotation_nodup (E : Env) (llmqParams : LLMQParams) (history : History)
    (base : QuorumBase) (hrun : RotationRun E llmqParams (Steady E llmqParams) history)
    (hnext : NextCycle E history base) (hclash : NoClash E llmqParams history base) :
    ∃ members stored,
      computeQuorumMembersByQuarterRotation E llmqParams history base = some (members, stored) ∧
      members.length = llmqParams.signingActiveQuorumCount ∧
      ∀ quorum ∈ members, (quorum.map (·.proTxHash)).Nodup ∧ quorum.length ≤ llmqParams.size := by
  obtain ⟨hread, q, hq, hdistinct⟩ := hrun.consistent
  obtain ⟨⟨new, stored⟩, hbuilt⟩ :=
    isSome_iff_exists.mp (buildNewQuorumQuarterMembers_isSome E llmqParams base q)
  refine ⟨(range llmqParams.signingActiveQuorumCount).map (quorumMembers q new), stored, ?_, by simp, ?_⟩
  · rw [computeQuorumMembersByQuarterRotation, hq, bind_some, hbuilt, bind_some]
  · intro quorum hmem
    obtain ⟨i, -, rfl⟩ := mem_map.mp hmem
    have hperm := quorumMembers_perm q new i
    refine ⟨?_, ?_⟩
    · rw [(hperm.map _).nodup_iff]
      exact hdistinct.nodup_new hread hnext.sound (hclash q hq i) hbuilt
    · have hnew := (buildNewQuorumQuarterMembers_newQuarter hbuilt i).short
      have hC := hdistinct.shortC i
      have h2C := hdistinct.short2C i
      have h3C := hdistinct.short3C i
      unfold quarterSize at hnew hC h2C h3C
      simp only [quorumMembers, length_append]
      omega

/-! ### One masternode -/

theorem later_emptyBlocks {a : CDeterministicMNList} {n : ℕ} {s : CBlockIndex × CDeterministicMNList}
    (hchecks : emptyChecks E n s = true) (hfresh : a.mnMap[(99 : Uint256)]? = none) (hs : Later E a s.2) :
    Later E a (emptyBlocks E n s).2 := by
  induction n generalizing s with
  | zero => exact hs
  | succ n ih =>
    simp only [emptyChecks, Bool.and_eq_true, decide_eq_true_eq] at hchecks
    obtain ⟨⟨⟨hok, hnew⟩, -⟩, hrest⟩ := hchecks
    have hacc := accepted_listAfter hok (by simpa [sampleCoinbase] using hnew)
    exact ih hrest (.block _ hs hacc (by simpa [sampleCoinbase] using hfresh))

/-- The chain with one masternode at the work block of a cycle. -/
def cycleChain : ℕ → CBlockIndex × CDeterministicMNList
  | 0 => soloChain
  | n + 1 => emptyBlocks sampleEnv 24 (cycleChain n)

def cycleBase (n : ℕ) : QuorumBase :=
  { soloBase with allMns := (cycleChain n).2 }

def firstCycle : Cycle :=
  ⟨cycleBase 0, ⟨[false], .noSkipping, []⟩⟩

def secondCycle : Cycle :=
  ⟨cycleBase 1, ⟨[true], .noSkipping, []⟩⟩

theorem later_cycleChain : Later sampleEnv (cycleChain 0).2 (cycleChain 1).2 :=
  later_emptyBlocks (by decide +kernel) (by decide +kernel) .refl

theorem nextCycle_first : NextCycle sampleEnv [] (cycleBase 0) :=
  ⟨reachable_soloChain.sound, by simp⟩

theorem nextCycle_second : NextCycle sampleEnv [some firstCycle] (cycleBase 1) := by
  refine ⟨later_cycleChain.sound reachable_soloChain.sound, fun c hc => ?_⟩
  obtain rfl : c = firstCycle := by simpa using hc
  exact later_cycleChain

theorem nextCycle_third : NextCycle sampleEnv [some secondCycle, some firstCycle] (cycleBase 2) := by
  have hlater : ∀ a, a.mnMap[(99 : Uint256)]? = none → Later sampleEnv a (cycleChain 1).2 →
      Later sampleEnv a (cycleChain 2).2 := fun a => later_emptyBlocks (by decide +kernel)
  have hsecond := hlater (cycleChain 1).2 (by decide +kernel) .refl
  refine ⟨hsecond.sound nextCycle_second.sound, fun c hc => ?_⟩
  rcases mem_cons.mp hc with hc | hc
  · cases hc
    exact hsecond
  · obtain rfl : c = firstCycle := by simpa using hc
    exact hlater (cycleChain 0).2 (by decide +kernel) later_cycleChain

/-- The members of every quorum of a cycle by their hashes, and the snapshot. -/
def computedHashes (history : History) (base : QuorumBase) : Option (List (List Uint256) × Option CQuorumSnapshot) :=
  (computeQuorumMembersByQuarterRotation sampleEnv llmqTestDip0024 history base).map fun x => (hashes x.1, x.2)

theorem rotationRun_first {ok : History → QuorumBase → Prop} (hok : ok [] (cycleBase 0)) :
    RotationRun sampleEnv llmqTestDip0024 ok [some firstCycle] := by
  have hcomputed : computedHashes [] (cycleBase 0) =
      some ([[11], [11]], some ⟨[false], .noSkipping, []⟩) := by decide +kernel
  obtain ⟨members, hcomputed, -⟩ := exists_of_map_hashes hcomputed
  exact .compute .start nextCycle_first hok hcomputed

/-- The first cycle of a network with one masternode: both quorums get it, and do again by the
snapshot. -/
theorem replay_solo : ∃ members, buildNewQuorumQuarterMembers sampleEnv llmqTestDip0024 soloBase (.empty 2) =
      some (members, some ⟨[false], .noSkipping, []⟩) ∧
    ∃ quarters, getQuorumQuarterMembersBySnapshot sampleEnv llmqTestDip0024 soloBase ⟨[false], .noSkipping, []⟩ =
      .done quarters ∧ hashes quarters = hashes members := by
  have hbuilt : (buildNewQuorumQuarterMembers sampleEnv llmqTestDip0024 soloBase (.empty 2)).map
      (fun x => (hashes x.1, x.2)) = some ([[11], [11]], some ⟨[false], .noSkipping, []⟩) := by decide +kernel
  obtain ⟨members, hbuilt, hmembers⟩ := exists_of_map_hashes hbuilt
  refine ⟨members, hbuilt, ?_⟩
  rw [hmembers]
  exact exists_of_hashesBySnapshot (by decide +kernel)

theorem all_empty : (PreviousQuorumQuarters.empty 2).all llmqTestDip0024.signingActiveQuorumCount = [] := by
  decide +kernel

theorem steady_first : Steady sampleEnv llmqTestDip0024 [] (cycleBase 0) := by
  refine ⟨fun q hq i => ?_, fun q hq => ⟨.inl rfl, ?_⟩⟩
  · cases hq
    simp [Compatible]
  · cases hq
    obtain ⟨members, hbuilt, hreplay⟩ := replay_solo
    have hused : UsedList sampleEnv (cycleBase 0) (mnsUsedAtH sampleEnv llmqTestDip0024 (cycleBase 0) (.empty 2)) :=
      (fromMembers_mnsUsedAtH _).usedList (.inl rfl) (by simp [all_empty])
    exact (hused.bySnapshot_iff reachable_soloChain.sound hbuilt).mp hreplay

/-- The members that the second cycle reads are on the list of the first, which has one masternode. -/
theorem noClash_second : NoClash sampleEnv llmqTestDip0024 [some firstCycle] (cycleBase 1) := by
  intro q hq i
  obtain ⟨-, q', hq', hdistinct⟩ := (rotationRun_first steady_first).consistent
  cases hq.symm.trans hq'
  have hsame : ∀ mn ∈ q.members i, mn.proTxHash = 11 := by
    intro mn hmem
    obtain ⟨c, hc, hlisted⟩ := hdistinct.listed i mn hmem
    obtain rfl : c = firstCycle := by simpa using hc
    have hmns : ∀ d ∈ soloChain.2.forEachMN false, d.proTxHash = 11 := by decide +kernel
    exact hmns mn (mem_forEachMN.mpr ⟨⟨_, hlisted.get⟩, nofun⟩)
  intro a ha b hb _ _ hne
  exact absurd ((hsame a ha).trans (hsame b hb).symm) hne

/-- The quorums of the second cycle, after a first one that read back what it selected. -/
theorem computeQuorumMembersByQuarterRotation_nodup_second : ∃ members stored,
    computeQuorumMembersByQuarterRotation sampleEnv llmqTestDip0024 [some firstCycle] (cycleBase 1) =
      some (members, stored) ∧ members.length = 2 ∧
    ∀ quorum ∈ members, (quorum.map (·.proTxHash)).Nodup ∧ quorum.length ≤ 4 :=
  computeQuorumMembersByQuarterRotation_nodup sampleEnv llmqTestDip0024 [some firstCycle] (cycleBase 1)
    (rotationRun_first steady_first) nextCycle_second noClash_second

/-- With one masternode the second cycle selects nobody, but its snapshot leads to the masternode, so that
the third cycle reads it back from both. -/
theorem computeQuorumMembersByQuarterRotation_nodup_fails : ∃ history base members stored,
    RotationRun sampleEnv llmqTestDip0024 (fun _ _ => True) history ∧ NextCycle sampleEnv history base ∧
    computeQuorumMembersByQuarterRotation sampleEnv llmqTestDip0024 history base = some (members, stored) ∧
    ∃ quorum ∈ members, ¬ (quorum.map (·.proTxHash)).Nodup := by
  have hsecond : computedHashes [some firstCycle] (cycleBase 1) =
      some ([[11], [11]], some ⟨[true], .noSkipping, []⟩) := by decide +kernel
  have hthird : computedHashes [some secondCycle, some firstCycle] (cycleBase 2) =
      some ([[11, 11], [11, 11]], some ⟨[true], .noSkipping, []⟩) := by decide +kernel
  obtain ⟨_, hsecond, -⟩ := exists_of_map_hashes hsecond
  obtain ⟨members, hthird, hmembers⟩ := exists_of_map_hashes hthird
  have hrun : RotationRun sampleEnv llmqTestDip0024 (fun _ _ => True) [some secondCycle, some firstCycle] :=
    .compute (rotationRun_first trivial) nextCycle_second trivial hsecond
  refine ⟨_, _, members, _, hrun, nextCycle_third, hthird, ?_⟩
  have hmem : [11, 11] ∈ hashes members := by simp [hmembers]
  obtain ⟨quorum, hquorum, htwice⟩ := mem_map.mp hmem
  exact ⟨quorum, hquorum, by rw [htwice]; decide⟩

end OmegaCore.Llmq
