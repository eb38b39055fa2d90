import OmegaCore.Llmq.Usage
import OmegaCore.Util.CyclicScan

/-!
The selection loops as cyclic scans.  The loop of a new quarter is a walk over the
sorted masternodes that takes what the quorum does not use yet, and its skip list
records the entries it skips.  The loop by a snapshot replays a scan from these entries.
-/

namespace OmegaCore.Llmq

open Util Evo CDeterministicMNList List Selection

variable {E : Env} {llmqParams : LLMQParams} {sorted : List CDeterministicMN} {s s' : Selection}
variable {pos n : ℕ} {skips : List ℕ} {ds : List Bool} {mn : CDeterministicMN}

/-- The list after adding a masternode that is not in it, if it can be added. -/
def accept (E : Env) (l : CDeterministicMNList) (mn : CDeterministicMN) : Option CDeterministicMNList :=
  if l.hasMN mn.proTxHash then none else (l.addMN E.toCodec mn).toOption

def hashAt (sorted : List CDeterministicMN) (j : ℕ) : Uint256 :=
  (sorted.map (·.proTxHash)).getD j 0

theorem hashAt_eq {j : ℕ} (h : sorted[j]? = some mn) : hashAt sorted j = mn.proTxHash := by
  rw [hashAt, getD_eq_getElem?_getD, getElem?_map, h]
  rfl

theorem nextIdx_mod (hn : 0 < n) (pos : ℕ) : nextIdx (pos % n) n = (pos + 1) % n := by
  have hlt := Nat.mod_lt pos hn
  rw [← Nat.mod_add_mod pos n 1]
  unfold nextIdx
  split_ifs with hlast
  · rw [hlast, Nat.mod_self]
  · exact (Nat.mod_eq_of_lt (by omega)).symm

/-! ### Skip lists -/

/-- The first index that the entries after a skip list are relative to. -/
def firstEntry : Int → List Int → Int
  | first, [] => first
  | first, s :: skipList => if first = 0 then firstEntry s skipList else firstEntry first skipList

theorem processedSkipList_append (first : Int) (a b : List Int) :
    processedSkipList first (a ++ b) = processedSkipList first a ++ processedSkipList (firstEntry first a) b := by
  induction a generalizing first with
  | nil => rfl
  | cons x a ih =>
    simp only [cons_append, processedSkipList, firstEntry]
    split_ifs
    · rw [ih, cons_append]
    · rw [ih, cons_append]

theorem firstEntry_append (first : Int) (a b : List Int) :
    firstEntry first (a ++ b) = firstEntry (firstEntry first a) b := by
  induction a generalizing first with
  | nil => rfl
  | cons x a ih =>
    simp only [cons_append, firstEntry]
    split_ifs
    · rw [ih]
    · rw [ih]

/-- A skip list stands for the skipped entries, and its first index is up to date. -/
structure Records (skipList : List Int) (firstSkippedIndex : ℕ) (skips : List ℕ) : Prop where
  processed : processedSkipList 0 skipList = skips.map Nat.cast
  first : firstEntry 0 skipList = firstSkippedIndex

theorem records_nil : Records [] 0 [] :=
  ⟨rfl, rfl⟩

theorem Records.skip (h : Records s.skipList s.firstSkippedIndex skips) :
    Records s.skip.skipList s.skip.firstSkippedIndex (skips ++ [s.idx]) := by
  unfold Selection.skip
  by_cases hfirst : s.firstSkippedIndex = 0
  · rw [if_pos hfirst]
    have hzero : firstEntry 0 s.skipList = 0 := by
      rw [h.first, hfirst]
      rfl
    refine ⟨?_, ?_⟩
    · simp [processedSkipList_append, h.processed, hzero, processedSkipList]
    · simp [firstEntry_append, hzero, firstEntry]
  · rw [if_neg hfirst]
    have hne : (s.firstSkippedIndex : Int) ≠ 0 := by exact_mod_cast hfirst
    refine ⟨?_, ?_⟩
    · rw [processedSkipList_append, h.processed, h.first, processedSkipList, if_neg hne]
      simp [processedSkipList]
    · rw [firstEntry_append, h.first, firstEntry, if_neg hne]
      rfl

/-! ### Rounds of the selection loop -/

variable {l : CDeterministicMNList}

theorem accept_eq_none_iff :
    accept E l mn = none ↔ l.hasMN mn.proTxHash = true ∨ ∃ t, l.addMN E.toCodec mn = .error t := by
  unfold accept
  split_ifs with hhas
  · simp [hhas]
  · cases l.addMN E.toCodec mn <;> simp [hhas, Except.toOption]

theorem visit_of_accept (h : accept E s.mnsUsedAtHIndexed mn = some l) :
    s.visit E mn = { s with
      mnsUsedAtHIndexed := l
      quarterQuorumMembers := s.quarterQuorumMembers ++ [mn]
      updated := true } := by
  unfold accept at h
  unfold visit
  split_ifs at h ⊢
  cases hadd : s.mnsUsedAtHIndexed.addMN E.toCodec mn with
  | error t => simp [hadd, Except.toOption] at h
  | ok l' =>
    simp only [hadd, Except.toOption, Option.some.injEq] at h
    rw [h]

theorem visit_of_refuse (h : accept E s.mnsUsedAtHIndexed mn = none) : s.visit E mn = s.skip := by
  unfold visit
  rcases accept_eq_none_iff.mp h with hhas | ⟨t, hadd⟩
  · rw [if_pos hhas]
  · split_ifs
    · rfl
    · rw [hadd]
      dsimp only
      rw [addMN_left hadd]

/-- What a round of the selection loop does: it takes the current entry or skips it. -/
inductive RoundStep (E : Env) (sorted : List CDeterministicMN) (s : Selection) : Selection → Prop where
  | take (mn : CDeterministicMN) (l : CDeterministicMNList) (updated : Bool)
      (item : sorted[s.idx]? = some mn) (accepted : accept E s.mnsUsedAtHIndexed mn = some l) :
      RoundStep E sorted s { s with
        mnsUsedAtHIndexed := l
        quarterQuorumMembers := s.quarterQuorumMembers ++ [mn]
        idx := nextIdx s.idx sorted.length
        updated := updated }
  | skip (mn : CDeterministicMN) (updated : Bool) (item : sorted[s.idx]? = some mn)
      (refused : accept E s.mnsUsedAtHIndexed mn = none) :
      RoundStep E sorted s { s.skip with idx := nextIdx s.idx sorted.length, updated := updated }

theorem Selection.skip_idx (s : Selection) : s.skip.idx = s.idx := by
  unfold Selection.skip
  split_ifs <;> rfl

theorem Selection.skip_updated (s : Selection) : s.skip.updated = s.updated := by
  unfold Selection.skip
  split_ifs <;> rfl

theorem Selection.skip_members (s : Selection) : s.skip.quarterQuorumMembers = s.quarterQuorumMembers := by
  unfold Selection.skip
  split_ifs <;> rfl

theorem Selection.skip_used (s : Selection) : s.skip.mnsUsedAtHIndexed = s.mnsUsedAtHIndexed := by
  unfold Selection.skip
  split_ifs <;> rfl

theorem selectRound_step {initial : ℕ} (h : selectRound E sorted initial s = .done s') : RoundStep E sorted s s' := by
  unfold selectRound at h
  split at h
  · cases h
  · next mn item =>
    cases hacc : accept E s.mnsUsedAtHIndexed mn with
    | some l =>
      rw [visit_of_accept hacc] at h
      dsimp only at h
      split_ifs at h
      · cases h
        exact .take mn l false item hacc
      · cases h
        exact .take mn l true item hacc
    | none =>
      rw [visit_of_refuse hacc] at h
      dsimp only at h
      rw [skip_idx] at h
      split_ifs at h
      · cases h
        exact .skip mn false item hacc
      · cases h
        exact .skip mn s.skip.updated item hacc

/-- The state of the selection loop after the decisions `ds`, which began at position `pos`. -/
structure Selected (E : Env) (sorted : List CDeterministicMN) (used : CDeterministicMNList) (pos : ℕ)
    (skips : List ℕ) (ds : List Bool) (s : Selection) : Prop where
  walk : Walk (accept E) sorted pos used ds s.mnsUsedAtHIndexed
  idx : s.idx = (pos + ds.length) % sorted.length
  members : s.quarterQuorumMembers.map (·.proTxHash) = (marks sorted.length true pos ds).map (hashAt sorted)
  recorded : Records s.skipList s.firstSkippedIndex (skips ++ marks sorted.length false pos ds)

variable {used : CDeterministicMNList}

theorem Selected.length_members (h : Selected E sorted used pos skips ds s) :
    s.quarterQuorumMembers.length = ds.count true := by
  have hlen := congrArg length h.members
  rwa [length_map, length_map, length_marks] at hlen

theorem marks_snoc (n : ℕ) (b d : Bool) (pos : ℕ) (ds : List Bool) :
    marks n b pos (ds ++ [d]) = marks n b pos ds ++ if d = b then [(pos + ds.length) % n] else [] := by
  rw [marks_append]
  rfl

theorem Selected.step (h : Selected E sorted used pos skips ds s) (hstep : RoundStep E sorted s s') :
    (Selected E sorted used pos skips (ds ++ [true]) s' ∨
      (Selected E sorted used pos skips (ds ++ [false]) s' ∧ s'.quarterQuorumMembers = s.quarterQuorumMembers)) := by
  cases hstep with
  | take mn l updated item accepted =>
    have hn : 0 < sorted.length := length_pos_of_mem (mem_of_getElem? item)
    rw [h.idx] at item
    refine .inl ⟨h.walk.append (.take mn item accepted (.nil _ _)), ?_, ?_, ?_⟩
    · simp [h.idx, nextIdx_mod hn, ← Nat.add_assoc]
    · simp [h.members, marks_snoc, hashAt_eq item]
    · simpa [marks_snoc] using h.recorded
  | skip mn updated item refused =>
    have hn : 0 < sorted.length := length_pos_of_mem (mem_of_getElem? item)
    have hidx := h.idx
    rw [hidx] at item
    refine .inr ⟨⟨?_, ?_, ?_, ?_⟩, s.skip_members⟩
    · rw [skip_used]
      exact h.walk.append (.skip mn item refused (.nil _ _))
    · simp [hidx, nextIdx_mod hn, ← Nat.add_assoc]
    · simp [skip_members, h.members, marks_snoc]
    · have hrec := h.recorded.skip
      rw [hidx] at hrec
      simpa [marks_snoc] using hrec

/-- The selection for one quorum is a walk that ends with its last member.  It stops at a quarter, or
where the used masternodes and the new ones are as many as the sorted ones. -/
theorem selectQuarter_walk (hok : selectQuarter E llmqParams sorted s = .done s')
    (hs : Selected E sorted s.mnsUsedAtHIndexed pos skips [] s) :
    ∃ ds, Selected E sorted s.mnsUsedAtHIndexed pos skips ds s' ∧ EndsTaking ds ∧
      ds.count true = min (quarterSize llmqParams) (sorted.length - s.mnsUsedAtHIndexed.getAllMNsCount) := by
  let I : Selection → Prop := fun t => ∃ ds, Selected E sorted s.mnsUsedAtHIndexed pos skips ds t ∧
    (EndsTaking ds ∨ needsMembers (quarterSize llmqParams) s.mnsUsedAtHIndexed.getAllMNsCount
      sorted.length t = true) ∧
    ds.count true ≤ min (quarterSize llmqParams) (sorted.length - s.mnsUsedAtHIndexed.getAllMNsCount)
  have hround : ∀ t t', I t → needsMembers (quarterSize llmqParams) s.mnsUsedAtHIndexed.getAllMNsCount
      sorted.length t = true → selectRound E sorted s.idx t = .done t' → I t' := by
    rintro t t' ⟨ds, hsel, -, hle⟩ hcond hround
    have hlen := hsel.length_members
    have hneeds := hcond
    simp only [needsMembers, Bool.and_eq_true, decide_eq_true_eq] at hneeds
    rcases hsel.step (selectRound_step hround) with htake | ⟨hskip, hmembers⟩
    · refine ⟨_, htake, .inl (.snoc ds), ?_⟩
      rw [count_append, count_singleton_self]
      omega
    · refine ⟨_, hskip, .inr ?_, by simpa using hle⟩
      rw [needsMembers, hmembers]
      exact hcond
  obtain ⟨⟨ds, hsel, hends, hle⟩, hstop⟩ :=
    whileLoop_invariant I hround hok ⟨[], hs, .inl .nil, by simp⟩
  have hlen := hsel.length_members
  rw [hstop] at hends
  simp only [needsMembers, Bool.and_eq_false_iff, decide_eq_false_iff_not] at hstop
  exact ⟨ds, hsel, hends.resolve_right (by simp), by omega⟩

variable {usedLists : List CDeterministicMNList} {quarters : List (List CDeterministicMN)}

/-- The selection for all quorums: how many members each gets, and the walks that lead to them if each
can get a quarter. -/
theorem selectQuarters_walks {idx first : ℕ} {skipList : List Int} {skipList' : List Int}
    (hok : selectQuarters E llmqParams sorted usedLists idx skipList first = .done (quarters, skipList'))
    (hidx : idx = pos % sorted.length) (hrec : Records skipList first skips) :
    quarters.map List.length =
        usedLists.map (fun used => min (quarterSize llmqParams) (sorted.length - used.getAllMNsCount)) ∧
      (∃ skips' : List ℕ, processedSkipList 0 skipList' = skips'.map Nat.cast) ∧
      ((∀ used ∈ usedLists, used.getAllMNsCount + quarterSize llmqParams ≤ sorted.length) →
        ∃ ds, Walks (accept E) sorted (quarterSize llmqParams) pos usedLists ds ∧
          quarters.flatten.map (·.proTxHash) = (marks sorted.length true pos ds).map (hashAt sorted) ∧
          processedSkipList 0 skipList' = (skips ++ marks sorted.length false pos ds).map Nat.cast) := by
  induction usedLists generalizing pos skips idx first skipList quarters skipList' with
  | nil =>
    cases hok
    exact ⟨rfl, ⟨skips, hrec.processed⟩, fun _ => ⟨[], .nil pos, rfl, by simpa [marks] using hrec.processed⟩⟩
  | cons used usedLists ih =>
    obtain ⟨s, hfirst, hrest⟩ := Outcome.bind_eq_done.mp hok
    obtain ⟨⟨quarters', skips'⟩, hquarters, hdone⟩ := Outcome.bind_eq_done.mp hrest
    cases hdone
    have hstart : Selected E sorted used pos skips [] ⟨[], used, idx, false, skipList, first⟩ :=
      ⟨.nil _ _, hidx, rfl, by simpa [marks] using hrec⟩
    obtain ⟨ds, hsel, hends, hcount⟩ := selectQuarter_walk hfirst hstart
    obtain ⟨hlens, hindices, hwalks⟩ := ih hquarters hsel.idx hsel.recorded
    refine ⟨?_, hindices, fun hfull => ?_⟩
    · rw [map_cons, map_cons, hlens, hsel.length_members, hcount]
    · obtain ⟨ds', hwalks', hmembers, hskips⟩ := hwalks fun u hu => hfull u (mem_cons_of_mem _ hu)
      have hquota : ds.count true = quarterSize llmqParams := by
        have hle := hfull used mem_cons_self
        simp only at hcount
        omega
      refine ⟨ds ++ ds', .cons hsel.walk hquota hends hwalks', ?_, ?_⟩
      · rw [flatten_cons, map_append, hsel.members, hmembers, marks_append, map_append]
      · rw [hskips, marks_append, append_assoc]

/-! ### The selection by a skip list -/

/-- The state of the loop by a skip list after the decisions `ds`, which began at position `pos` with
the skipped entries `S₀`. -/
structure Replayed (sorted : List CDeterministicMN) (pos : ℕ) (S₀ : List ℕ) (ds : List Bool) (S : List ℕ)
    (s : SnapshotSelection) : Prop where
  replay : Replay sorted.length pos S₀ ds S
  idx : s.idx = (pos + ds.length) % sorted.length
  itsk : s.itsk = S.map Nat.cast
  members : s.quarterQuorumMembers.map (·.proTxHash) = (marks sorted.length true pos ds).map (hashAt sorted)

variable {S₀ S : List ℕ} {t t' : SnapshotSelection}

theorem Replayed.length_members (h : Replayed sorted pos S₀ ds S t) :
    t.quarterQuorumMembers.length = ds.count true := by
  have hlen := congrArg length h.members
  rwa [length_map, length_map, length_marks] at hlen

theorem Replayed.round (h : Replayed sorted pos S₀ ds S t) (hn : 0 < sorted.length) :
    ∃ t', snapshotRound sorted t = .done t' ∧ (Replayed sorted pos S₀ (ds ++ [true]) S t' ∨
      ∃ x S', S = x :: S' ∧ Replayed sorted pos S₀ (ds ++ [false]) S' t' ∧
        t'.quarterQuorumMembers = t.quarterQuorumMembers) := by
  have hidx : nextIdx t.idx sorted.length = (pos + (ds.length + 1)) % sorted.length := by
    rw [h.idx, nextIdx_mod hn, Nat.add_assoc]
  obtain ⟨mn, item⟩ : ∃ mn, sorted[t.idx]? = some mn := ⟨_, getElem?_eq_getElem (h.idx ▸ Nat.mod_lt _ hn)⟩
  unfold snapshotRound
  rw [item]
  dsimp only
  split_ifs with hskip
  · refine ⟨_, rfl, .inr ?_⟩
    cases hS : S with
    | nil => simp [h.itsk, hS] at hskip
    | cons x S' =>
      have hx : x = (pos + ds.length) % sorted.length := by
        rw [h.itsk, hS, h.idx] at hskip
        exact_mod_cast Option.some.inj hskip
      have hreplay := h.replay
      rw [hS, hx] at hreplay
      refine ⟨x, S', rfl, ⟨hreplay.append (.skip (.nil _ _)), by simpa using hidx, ?_, ?_⟩, rfl⟩
      · rw [h.itsk, hS]
        rfl
      · rw [h.members, marks_snoc]
        simp
  · have hother : S.head? ≠ some ((pos + ds.length) % sorted.length) := by
      intro hhead
      apply hskip
      rw [h.itsk, head?_map, hhead, h.idx]
      rfl
    refine ⟨_, rfl, .inl ⟨h.replay.append (.take hother (.nil _ _)), by simpa using hidx, h.itsk, ?_⟩⟩
    rw [h.idx] at item
    simp [h.members, marks_snoc, hashAt_eq item]

variable {round : SnapshotSelection → Outcome Unit SnapshotSelection}

/-- The loop for one quorum replays the scan up to its last member: every round uses up a skipped entry or adds a
member. -/
theorem exists_replayed {fuel : ℕ} (hn : 0 < sorted.length)
    (hround : ∀ t, t.itsk <:+ S₀.map Nat.cast → round t = snapshotRound sorted t)
    (ht : Replayed sorted pos S₀ [] S₀ t) (hfuel : quarterSize llmqParams + t.itsk.length < fuel) :
    ∃ t' ds S, whileLoop (fun s => decide (s.quarterQuorumMembers.length < quarterSize llmqParams)) round fuel t =
        .done t' ∧
      Replayed sorted pos S₀ ds S t' ∧ EndsTaking ds ∧ ds.count true = quarterSize llmqParams := by
  let I : SnapshotSelection → Prop := fun t => ∃ ds S, Replayed sorted pos S₀ ds S t ∧
    (EndsTaking ds ∨ t.quarterQuorumMembers.length < quarterSize llmqParams) ∧
    ds.count true ≤ quarterSize llmqParams
  let V : SnapshotSelection → ℕ := fun t => quarterSize llmqParams - t.quarterQuorumMembers.length + t.itsk.length
  have hstep : ∀ t, I t → decide (t.quarterQuorumMembers.length < quarterSize llmqParams) = true →
      ∃ t', round t = .done t' ∧ I t' ∧ V t' < V t := by
    rintro t ⟨ds, S, hrep, -, hle⟩ hcond
    have hlt := of_decide_eq_true hcond
    have hlen := hrep.length_members
    have hsuffix : t.itsk <:+ S₀.map Nat.cast := by
      rw [hrep.itsk]
      exact hrep.replay.suffix.map _
    obtain ⟨t', hok, hcases⟩ := hrep.round hn
    refine ⟨t', (hround t hsuffix).trans hok, ?_⟩
    simp only [V, hrep.itsk]
    rcases hcases with htake | ⟨x, S', rfl, hskip, hmembers⟩
    · have hlen' := htake.length_members
      have hcount : (ds ++ [true]).count true = ds.count true + 1 := by simp
      exact ⟨⟨_, _, htake, .inl (.snoc ds), by omega⟩, by rw [htake.itsk]; omega⟩
    · refine ⟨⟨_, _, hskip, .inr (hmembers ▸ hlt), by simpa using hle⟩, ?_⟩
      rw [hskip.itsk, hmembers, map_cons, length_cons]
      omega
  obtain ⟨t', hok, ⟨ds, S, hrep, hends, hle⟩, hstop⟩ :=
    exists_whileLoop_eq_done I V hstep ⟨[], S₀, ht, .inl .nil, by simp⟩ (show V t < fuel by simp only [V]; omega)
  have hge := of_decide_eq_false hstop
  have hlen := hrep.length_members
  exact ⟨t', ds, S, hok, hrep, hends.resolve_right hge, by omega⟩

/-- The loop over the quorums replays one scan, in which each quorum takes a quarter. -/
theorem snapshotQuarters_replay {m idx : ℕ} (hn : 0 < sorted.length)
    (hround : ∀ t, t.itsk <:+ S₀.map Nat.cast → round t = snapshotRound sorted t) (hidx : idx = pos % sorted.length) :
    ∃ quarters ds S, snapshotQuarters llmqParams round m idx (S₀.map Nat.cast) = .done quarters ∧
      Replay sorted.length pos S₀ ds S ∧ EndsTaking ds ∧
      quarters.map List.length = List.replicate m (quarterSize llmqParams) ∧
      quarters.flatten.map (·.proTxHash) = (marks sorted.length true pos ds).map (hashAt sorted) := by
  induction m generalizing pos S₀ idx with
  | zero => exact ⟨[], [], S₀, rfl, .nil _ _, .nil, rfl, rfl⟩
  | succ m ih =>
    have hstart : Replayed sorted pos S₀ [] S₀ ⟨[], idx, S₀.map Nat.cast⟩ := ⟨.nil _ _, hidx, rfl, rfl⟩
    obtain ⟨t, ds, S, hfirst, hrep, hends, hcount⟩ := exists_replayed hn hround hstart (Nat.lt_succ_self _)
    have hround' : ∀ t, t.itsk <:+ S.map Nat.cast → round t = snapshotRound sorted t := fun t ht =>
      hround t (ht.trans (hrep.replay.suffix.map _))
    obtain ⟨quarters, ds', S', hquarters, hreplay, hends', hlens, hmembers⟩ := ih hround' hrep.idx
    refine ⟨t.quarterQuorumMembers :: quarters, ds ++ ds', S', ?_, hrep.replay.append hreplay, hends.append hends', ?_, ?_⟩
    · rw [snapshotQuarters, hfirst, Outcome.bind, hrep.itsk, hquarters]
      rfl
    · rw [map_cons, hlens, hrep.length_members, hcount]
      rfl
    · rw [flatten_cons, map_append, hrep.members, hmembers, marks_append, map_append]

/-! ### The loops come to an end -/

theorem nextIdx_lt {idx : ℕ} (hidx : idx < n) : nextIdx idx n < n := by
  unfold nextIdx
  split_ifs <;> omega

/-- How many rounds there are until the index comes back to where it started. -/
def lapLeft (n initial idx : ℕ) : ℕ :=
  if idx < initial then initial - idx else n - idx + initial

theorem lapLeft_nextIdx {initial idx : ℕ} (hidx : idx < n) (hinit : initial < n) :
    (nextIdx idx n = initial → lapLeft n initial idx = 1 ∧ lapLeft n initial (nextIdx idx n) = n) ∧
      (nextIdx idx n ≠ initial → lapLeft n initial (nextIdx idx n) + 1 = lapLeft n initial idx) := by
  unfold lapLeft nextIdx
  constructor
  · intro h
    split_ifs at h ⊢ <;> omega
  · intro h
    split_ifs at h ⊢ <;> omega

/-- The members that are missing, in laps, and the rest of the current lap. -/
def lapVariant (quarterSize n initial : ℕ) (s : Selection) : ℕ :=
  (quarterSize - s.quarterQuorumMembers.length + if s.updated then 1 else 0) * n + lapLeft n initial s.idx

/-- A lap with a new member costs a lap of the variant, and a lap without one leaves the function. -/
theorem selectRound_variant {initial quarterSize : ℕ} (hok : selectRound E sorted initial s = .done s')
    (hidx : s.idx < sorted.length) (hinit : initial < sorted.length)
    (hlen : s.quarterQuorumMembers.length < quarterSize) :
    s'.idx < sorted.length ∧
      lapVariant quarterSize sorted.length initial s' < lapVariant quarterSize sorted.length initial s := by
  obtain ⟨hend, hmid⟩ := lapLeft_nextIdx hidx hinit
  have hnext := nextIdx_lt hidx
  obtain ⟨k, hk⟩ : ∃ k, quarterSize - s.quarterQuorumMembers.length = k + 1 :=
    ⟨quarterSize - s.quarterQuorumMembers.length - 1, by omega⟩
  have hk' : quarterSize - (s.quarterQuorumMembers.length + 1) = k := by omega
  unfold selectRound at hok
  rw [getElem?_eq_getElem hidx] at hok
  generalize sorted[s.idx] = mn at hok
  dsimp only at hok
  cases hacc : accept E s.mnsUsedAtHIndexed mn with
  | some l =>
    rw [visit_of_accept hacc] at hok
    split_ifs at hok with hlap
    · cases hok
      obtain ⟨hleft, hleft'⟩ := hend hlap
      refine ⟨hnext, ?_⟩
      simp only [lapVariant, length_append, length_singleton, hk, hk', hleft, hleft']
      have hle : (k + 1) * sorted.length ≤ (k + 1 + if s.updated = true then 1 else 0) * sorted.length :=
        Nat.mul_le_mul_right _ (by omega)
      simp only [Bool.false_eq_true, if_false, Nat.add_zero, Nat.add_mul, Nat.one_mul] at hle ⊢
      omega
    · cases hok
      have hleft := hmid hlap
      refine ⟨hnext, ?_⟩
      simp only [lapVariant, length_append, length_singleton, hk, hk', if_true]
      have hle : (k + 1) * sorted.length ≤ (k + 1 + if s.updated = true then 1 else 0) * sorted.length :=
        Nat.mul_le_mul_right _ (by omega)
      omega
  | none =>
    rw [visit_of_refuse hacc] at hok
    rw [skip_idx, skip_updated, skip_members] at hok
    split_ifs at hok with hlap hupdated
    · cases hok
      obtain ⟨hleft, hleft'⟩ := hend hlap
      refine ⟨hnext, ?_⟩
      simp only [lapVariant, hk, hleft, hleft', hupdated, if_true, Bool.false_eq_true, if_false,
        Nat.add_zero, Nat.add_mul, Nat.one_mul]
      omega
    · cases hok
      refine ⟨hnext, ?_⟩
      simp only [lapVariant]
      omega

theorem selectRound_ne_undefined {initial : ℕ} (hidx : s.idx < sorted.length) :
    selectRound E sorted initial s ≠ .undefined := by
  unfold selectRound
  rw [getElem?_eq_getElem hidx]
  dsimp only
  split_ifs <;> simp

theorem selectQuarter_ne_undefined (hempty : s.quarterQuorumMembers = []) (hidx : s.idx < sorted.length)
    (hupdated : s.updated = false) : selectQuarter E llmqParams sorted s ≠ .undefined := by
  refine whileLoop_ne_undefined (fun t => t.idx < sorted.length)
    (lapVariant (quarterSize llmqParams) sorted.length s.idx)
    (fun t ht _ => selectRound_ne_undefined ht) (fun t t' ht hcond hok => ?_) hidx ?_
  · simp only [needsMembers, Bool.and_eq_true, decide_eq_true_eq] at hcond
    exact selectRound_variant hok ht hidx hcond.1
  · simp only [lapVariant, hempty, hupdated, lapLeft, Nat.lt_irrefl, if_false, length_nil,
      Bool.false_eq_true, Nat.sub_zero, Nat.add_zero, Nat.add_mul]
    omega

theorem selectQuarter_idx_lt (hok : selectQuarter E llmqParams sorted s = .done s')
    (hidx : s.idx < sorted.length) : s'.idx < sorted.length := by
  refine (whileLoop_invariant (fun t => t.idx < sorted.length) (fun t t' ht _ hround => ?_) hok hidx).1
  cases selectRound_step hround with
  | take => exact nextIdx_lt ht
  | skip => exact nextIdx_lt ht

theorem selectQuarters_ne_undefined {idx first : ℕ} {skipList : List Int} (hidx : sorted ≠ [] → idx < sorted.length) :
    selectQuarters E llmqParams sorted usedLists idx skipList first ≠ .undefined := by
  induction usedLists generalizing idx first skipList with
  | nil => simp [selectQuarters]
  | cons used usedLists ih =>
    refine Outcome.bind_ne_undefined ?_ fun t ht => Outcome.bind_ne_undefined (ih fun hne => ?_) (by simp)
    · by_cases hne : sorted = []
      · subst hne
        simp [selectQuarter, whileLoop, needsMembers]
      · exact selectQuarter_ne_undefined rfl (hidx hne) rfl
    · exact selectQuarter_idx_lt ht (hidx hne)

end OmegaCore.Llmq
