import OmegaCore.Llmq.InstantSendLocks
import OmegaCore.Util.Fibers

/-!
Which batches let an invalid lock pass.  A lock that was never pushed to the verifier is handed on,
and so is one whose sender had another fail before it in a divided batch.  A lock for which no quorum
can be selected ends the loop before, unless its sender is already bad.
-/

namespace OmegaCore.Llmq

open CBLSBatchVerifier List

variable {E : LockEnv} {signOffset : Int} {pend : List PendingLock} {p : PendingLock}

/-! ### Batches that are not screened -/

theorem pushLocks_isSome {pend : List PendingLock} (hq : QuorumsSelected E signOffset pend)
    (s : LockVerifier × List (Uint256 × CRecoveredSig)) : ∃ s', pushLocks E signOffset pend s = some s' := by
  induction pend generalizing s with
  | nil => exact ⟨s, rfl⟩
  | cons p pend ih =>
    obtain ⟨hp, hpend⟩ := forall_mem_cons.mp hq
    obtain ⟨s₁, hs₁⟩ := Option.isSome_iff_exists.mp (@pushLock_isSome E signOffset s p hp)
    obtain ⟨s', hs'⟩ := ih hpend s₁
    refine ⟨s', ?_⟩
    rw [pushLocks, hs₁]
    exact hs'

/-- Where a quorum is selected for every lock, all but the bad ones are handed on, and those were checked. -/
theorem mem_processed_iff (hnodup : (pend.map (·.hash)).Nodup) (hq : QuorumsSelected E signOffset pend) (ban : Bool)
    (hp : p ∈ pend) :
    (p ∈ (processLocks E signOffset pend ban).processed ↔ p.hash ∉ (processLocks E signOffset pend ban).badISLocks) ∧
      (p.hash ∈ (processLocks E signOffset pend ban).badISLocks →
        isCheckable E p = true ∧ hasValidSig E signOffset p = false) := by
  obtain ⟨s, hpush⟩ := pushLocks_isSome hq (startVerifier, [])
  obtain ⟨mk, fl, cu, sk, hd, hperm⟩ := exists_dispatched hnodup hpush
  obtain ⟨hgood, hbad⟩ := mem_processLocks hd hnodup hperm hpush ban hp
  rw [hgood, hbad]
  refine ⟨Iff.rfl, fun h => ⟨?_, h.2⟩⟩
  obtain ⟨r, hr, rfl⟩ := mem_map.mp h.1
  exact (hd.isPushed r hr).1

/-- After a full sub-batch with an invalid lock of a peer, the next lock of that peer is handed on unseen. -/
theorem mem_processed_of_same_nodeId {a c : List PendingLock} {p q : PendingLock}
    (hnodup : ((a ++ q :: c).map (·.hash)).Nodup) (hq : QuorumsSelected E signOffset (a ++ q :: c))
    (hcheck : ∀ x ∈ a, isCheckable E x = true) (hlen : a.length = 8) (hp : p ∈ a)
    (hinvalid : hasValidSig E signOffset p = false) (hnode : p.nodeId = q.nodeId) (ban : Bool) :
    q ∈ (processLocks E signOffset (a ++ q :: c) ban).processed := by
  obtain ⟨s, hpush⟩ := pushLocks_isSome hq (startVerifier, [])
  have hall := hpush
  have hnodup_a : (a.map (·.hash)).Nodup := by
    rw [map_append, nodup_append] at hnodup
    exact hnodup.1
  obtain ⟨s₁, fl, ha, hd, hmap⟩ := (@dispatched_start E signOffset).pushGroup (s := (startVerifier, [])) hlen
    (by simpa [seenLocks] using hnodup_a) fun x hx =>
      ⟨(Bool.and_eq_true _ _).mpr ⟨hcheck x hx, hq x (mem_append_left _ hx) (hcheck x hx)⟩, not_mem_nil⟩
  rw [pushLocks_append, ha, Option.bind_some, pushLocks] at hpush
  have hrest := hpush
  rw [map_nil, nil_append] at hmap
  obtain ⟨r, hr, rfl⟩ := mem_map.mp (hmap ▸ hp)
  have hperm : (seenLocks fl [] []).Perm a := by rw [seenLocks, append_nil, append_nil, hmap]
  have hbad : q.nodeId ∈ s₁.1.badSources := (hd.mem_badSources _).mpr (.inr ⟨r, hr, hnode, hinvalid⟩)
  cases hone : pushLock E signOffset s₁ q with
  | none =>
    rw [hone] at hrest
    cases hrest
  | some s₂ =>
    rw [hone] at hrest
    have hnodup' : ((seenLocks fl [] [] ++ q :: c).map (·.hash)).Nodup :=
      ((hperm.append_right (q :: c)).map _).nodup_iff.mpr hnodup
    obtain ⟨mk₂, fl₂, cu₂, sk₂, hd₂, hperm₂, -, -, hskip⟩ := hd.pushLock hnodup' hone
    have hperm₂' := hperm₂.trans (hperm.append_right _)
    obtain ⟨mk₃, fl₃, cu₃, sk₃, hd₃, hperm₃, hsub, -⟩ := hd₂.pushLocks ((hperm₂'.map _).nodup_iff.mpr hnodup) hrest
    exact mem_processed_of_mem_skipped hd₃ hnodup (hperm₃.trans hperm₂') hall ban (hsub q (hskip hbad))

/-- If only valid locks are handed on in every order, the batch is screened. -/
theorem screened_of_forall_perm {batch : List PendingLock} (hnodup : (batch.map (·.hash)).Nodup)
    (hq : QuorumsSelected E signOffset batch) (ban : Bool)
    (h : ∀ pend : List PendingLock, pend.Perm batch → ∀ p ∈ (processLocks E signOffset pend ban).processed,
      hasValidSig E signOffset p = true) : Screened E signOffset batch := by
  have hchecked : ∀ p ∈ batch, hasValidSig E signOffset p = false → isCheckable E p = true := by
    intro p hp hinvalid
    by_contra hcheck
    obtain ⟨hgood, hbad⟩ := mem_processed_iff hnodup hq ban hp
    rw [h batch (Perm.refl _) p (hgood.mpr fun hmem => hcheck (hbad hmem).1)] at hinvalid
    cases hinvalid
  refine ⟨hchecked, ?_⟩
  by_contra hmany
  rw [not_or, not_le, nodup_map_iff_inj_on ((hnodup.of_map _).filter _)] at hmany
  obtain ⟨hmore, hinj⟩ := hmany
  push Not at hinj
  obtain ⟨p, hp, q, hq', hnode, hne⟩ := hinj
  rw [mem_filter, Bool.not_eq_true'] at hp hq'
  -- an order that starts with one of the two and seven other locks, and goes on with the second
  have hpc : p ∈ batch.filter (isCheckable E) := mem_filter.mpr ⟨hp.1, hchecked p hp.1 hp.2⟩
  have hqc : q ∈ (batch.filter (isCheckable E)).erase p :=
    (mem_erase_of_ne hne.symm).mpr (mem_filter.mpr ⟨hq'.1, hchecked q hq'.1 hq'.2⟩)
  obtain ⟨rest, hperm⟩ : ∃ rest, (batch.filter (isCheckable E)).Perm (p :: q :: rest) :=
    ⟨_, (perm_cons_erase hpc).trans ((perm_cons_erase hqc).cons p)⟩
  have hlen := hperm.length_eq
  simp only [length_cons] at hlen
  have horder : (p :: rest.take 7 ++ q :: (rest.drop 7 ++ batch.filter fun x => !isCheckable E x)).Perm batch := by
    have hmid : (p :: rest.take 7 ++ q :: rest.drop 7).Perm (p :: q :: rest) := by
      rw [cons_append]
      refine (perm_middle).cons p |>.trans ?_
      rw [take_append_drop]
    have hsplit := (hmid.trans hperm.symm).append_right (batch.filter fun x => !isCheckable E x)
    rw [append_assoc, cons_append] at hsplit
    exact hsplit.trans (filter_append_perm _ _)
  have hprocessed := @mem_processed_of_same_nodeId E signOffset (p :: rest.take 7)
    (rest.drop 7 ++ batch.filter fun x => !isCheckable E x) p q ((horder.map _).nodup_iff.mpr hnodup)
    (fun x hx => hq x (horder.mem_iff.mp hx))
    (fun x hx => by
      have hx' : x ∈ p :: q :: rest := by
        rcases mem_cons.mp hx with rfl | hx
        · exact mem_cons_self
        · exact mem_cons_of_mem _ (mem_cons_of_mem _ (mem_of_mem_take hx))
      exact (mem_filter.mp (hperm.mem_iff.mpr hx')).2)
    (by rw [length_cons, length_take]; omega) mem_cons_self hp.2 hnode ban
  have hvalid := h _ horder q hprocessed
  rw [hq'.2] at hvalid
  cases hvalid

/-! ### Locks without a quorum -/

variable (E signOffset) in
/-- The peers of the locks for which no quorum is selected, except those that another lock makes bad at once. -/
def strandedPeers (pend : List PendingLock) : List NodeId :=
  ((pend.filter fun p => isCheckable E p && (messageFor E signOffset p).isNone).map (·.nodeId)).dedup.filter
    fun n => !pend.any fun p => decide (p.nodeId = n) && marksPeer E p

variable (E signOffset) in
/-- A lock without a quorum ends the loop in whatever order the batch comes: a peer of such a lock sent none with which
it is found bad before, or there are not enough locks for the full sub-batches in which these peers are. -/
def EndsEarly (pend : List PendingLock) : Prop :=
  (∃ n ∈ strandedPeers E signOffset pend, ∀ p ∈ pend, p.nodeId = n → isPushable E signOffset p = true →
    hasValidSig E signOffset p = true) ∨
  (pend.filter (isPushable E signOffset)).length < 8 * (((strandedPeers E signOffset pend).length + 7) / 8)

theorem mem_strandedPeers {pend : List PendingLock} {n : NodeId} :
    n ∈ strandedPeers E signOffset pend ↔
      (∃ p ∈ pend, isCheckable E p = true ∧ messageFor E signOffset p = none ∧ p.nodeId = n) ∧
        ∀ p ∈ pend, p.nodeId = n → marksPeer E p = false := by
  simp only [strandedPeers, mem_filter, mem_dedup, mem_map, Bool.and_eq_true, Option.isNone_iff_eq_none,
    Bool.not_eq_true', any_eq_false, decide_eq_true_eq, not_and, Bool.not_eq_true, and_assoc]

theorem nodup_strandedPeers : (strandedPeers E signOffset pend).Nodup :=
  (nodup_dedup _).filter _

theorem pushLocks_eq_none {batch : List PendingLock} (hnodup : (batch.map (·.hash)).Nodup)
    (hends : EndsEarly E signOffset batch) (hperm : pend.Perm batch) :
    pushLocks E signOffset pend (startVerifier, []) = none := by
  by_contra hsome
  obtain ⟨s, hpush⟩ := Option.ne_none_iff_exists'.mp hsome
  obtain ⟨mk, fl, cu, sk, hd, hseen⟩ := exists_dispatched ((hperm.map _).nodup_iff.mpr hnodup) hpush
  replace hseen := hseen.trans hperm
  have hpushed : ∀ q ∈ fl, q.1 ∈ batch ∧ isPushable E signOffset q.1 = true := by
    intro q hq
    obtain ⟨hcheck, hmsg⟩ := hd.isPushed q (mem_append_left _ hq)
    refine ⟨hseen.mem_iff.mp (mem_append_left _ (mem_map_of_mem (mem_append_left _ hq))), ?_⟩
    simp [isPushable, hcheck, hmsg]
  -- every peer whose lock would end the loop was found bad in a full sub-batch
  have hbad : ∀ n ∈ strandedPeers E signOffset batch, ∃ q ∈ fl, q.1.nodeId = n ∧ hasValidSig E signOffset q.1 = false := by
    intro n hn
    obtain ⟨⟨p, hp, hcheck, hnone, rfl⟩, hmarks⟩ := mem_strandedPeers.mp hn
    have hskip : p ∈ sk := by
      rcases mem_append.mp (hseen.mem_iff.mpr hp) with hp | hp
      · obtain ⟨q, hq, rfl⟩ := mem_map.mp hp
        cases hnone.symm.trans (hd.isPushed q hq).2
      · exact hp
    refine (hd.isSkipped p hskip hcheck).resolve_left fun hmarked => ?_
    obtain ⟨x, hx, hnode, hx'⟩ := hd.isMarked _ hmarked
    cases hx'.symm.trans (hmarks x (hseen.mem_iff.mp (mem_append_right _ hx)) hnode)
  rcases hends with ⟨n, hn, hvalid⟩ | hfew
  · obtain ⟨q, hq, hnode, hfail⟩ := hbad n hn
    cases hfail.symm.trans (hvalid q.1 (hpushed q hq).1 hnode (hpushed q hq).2)
  · have hpeers : (strandedPeers E signOffset batch).Subperm (fl.map fun q => q.1.nodeId) := by
      refine subperm_of_subset nodup_strandedPeers fun n hn => ?_
      obtain ⟨q, hq, rfl, -⟩ := hbad n hn
      exact mem_map_of_mem (f := fun q => q.1.nodeId) hq
    have hlocks : (fl.map Prod.fst).Subperm (batch.filter (isPushable E signOffset)) := by
      refine subperm_of_subset ?_ fun x hx => ?_
      · have hnd : (seenLocks fl cu sk).Nodup := hseen.nodup_iff.mpr (hnodup.of_map _)
        rw [seenLocks, map_append, append_assoc, nodup_append] at hnd
        exact hnd.1
      · obtain ⟨q, hq, rfl⟩ := mem_map.mp hx
        exact mem_filter.mpr (hpushed q hq)
    have hle := hpeers.length_le
    have hle' := hlocks.length_le
    rw [length_map] at hle hle'
    have hfull := hd.isFull
    omega

theorem pushLock_of_marksPeer {s : LockVerifier × List (Uint256 × CRecoveredSig)} (hp : marksPeer E p = true) :
    ∃ s', pushLock E signOffset s p = some s' ∧ p.nodeId ∈ s'.1.badSources ∧ s.1.badSources ⊆ s'.1.badSources := by
  obtain ⟨hcheck, -⟩ := @of_marksPeer E signOffset p hp
  obtain ⟨s', hs'⟩ := Option.isSome_iff_exists.mp (@pushLock_isSome E signOffset s p (by simp [hcheck]))
  refine ⟨s', hs', ?_⟩
  rcases pushLock_cases hs' with ⟨hbad, rfl⟩ | ⟨-, hnot, -⟩ | ⟨-, heq⟩ | ⟨hcheck', -⟩
  · exact ⟨hbad, Subset.refl _⟩
  · cases hp.symm.trans hnot
  · rw [heq]
    exact ⟨mem_insert_self, fun _ hn => mem_insert_of_mem hn⟩
  · cases hcheck.symm.trans hcheck'

theorem pushLocks_of_marksPeer {l : List PendingLock} (hl : ∀ p ∈ l, marksPeer E p = true)
    (s : LockVerifier × List (Uint256 × CRecoveredSig)) :
    ∃ s', pushLocks E signOffset l s = some s' ∧ (∀ p ∈ l, p.nodeId ∈ s'.1.badSources) ∧
      s.1.badSources ⊆ s'.1.badSources := by
  induction l generalizing s with
  | nil => exact ⟨s, rfl, by simp, Subset.refl _⟩
  | cons p l ih =>
    obtain ⟨hp, hl⟩ := forall_mem_cons.mp hl
    obtain ⟨s₁, hone, hbad, hkeep⟩ := @pushLock_of_marksPeer E signOffset p s hp
    obtain ⟨s', hpush, hbad', hkeep'⟩ := ih hl s₁
    refine ⟨s', ?_, forall_mem_cons.mpr ⟨hkeep' hbad, hbad'⟩, Subset.trans hkeep hkeep'⟩
    rw [pushLocks, hone]
    exact hpush

theorem pushLocks_of_bad {l : List PendingLock} {s : LockVerifier × List (Uint256 × CRecoveredSig)}
    (hl : ∀ p ∈ l, p.nodeId ∈ s.1.badSources) : pushLocks E signOffset l s = some s := by
  induction l with
  | nil => rfl
  | cons p l ih =>
    obtain ⟨hp, hl⟩ := forall_mem_cons.mp hl
    rw [pushLocks, pushLock, if_pos hp]
    exact ih hl

/-- Pushed locks, those that make their peers bad at once and those without a quorum are different locks. -/
theorem subperm_of_pushable {l batch : List PendingLock} (hnd : batch.Nodup) (hl : l.Nodup)
    (hmem : ∀ p ∈ l, p ∈ batch ∧ isPushable E signOffset p = true) :
    (l ++ (batch.filter (marksPeer E) ++
      batch.filter fun p => isCheckable E p && (messageFor E signOffset p).isNone)).Subperm batch := by
  refine subperm_of_subset ?_ ?_
  · refine hl.append ((hnd.filter _).append (hnd.filter _) fun p hp hp' => ?_) fun p hp hp' => ?_
    · have hcheck := (@of_marksPeer E signOffset p (mem_filter.mp hp).2).1
      simp [mem_filter, hcheck] at hp'
    · have hpush := (hmem p hp).2
      simp only [isPushable, Bool.and_eq_true] at hpush
      rcases mem_append.mp hp' with hp' | hp'
      · cases hpush.1.symm.trans (@of_marksPeer E signOffset p (mem_filter.mp hp').2).1
      · obtain ⟨msg, hmsg⟩ := Option.isSome_iff_exists.mp hpush.2
        simp [mem_filter, hmsg] at hp'
  · exact append_subset.mpr ⟨fun p hp => (hmem p hp).1,
      append_subset.mpr ⟨filter_subset_self _, filter_subset_self _⟩⟩

section Order

variable {batch : List PendingLock} (hnodup : (batch.map (·.hash)).Nodup) (hsize : batch.length ≤ 32)
  (hends : ¬ EndsEarly E signOffset batch)

include hnodup hsize hends

/-- Full sub-batches without a common peer, with an invalid lock of every peer whose lock would end the loop. -/
theorem exists_groups_of_not_endsEarly : ∃ gs : List (List PendingLock),
    (∀ g ∈ gs, g.length = 8 ∧ ∀ p ∈ g, p ∈ batch ∧ isPushable E signOffset p = true) ∧ gs.flatten.Nodup ∧
    gs.Pairwise (fun g g' => ∀ p ∈ g, ∀ q ∈ g', p.nodeId ≠ q.nodeId) ∧
    ∀ n ∈ strandedPeers E signOffset batch, ∃ p ∈ gs.flatten, p.nodeId = n ∧ hasValidSig E signOffset p = false := by
  obtain ⟨hinvalid, hroom⟩ := not_or.mp hends
  push Not at hinvalid
  obtain ⟨C, hC, hinj, himage⟩ := Finset.exists_subset_injOn_image_eq_of_surjOn
    {p | p ∈ batch.filter (isPushable E signOffset) ∧ hasValidSig E signOffset p = false}
    (strandedPeers E signOffset batch).toFinset (f := (·.nodeId)) fun n hn => by
      obtain ⟨p, hp, hnode, hpush, hfail⟩ := hinvalid n (mem_toFinset.mp hn)
      exact ⟨p, ⟨mem_filter.mpr ⟨hp, hpush⟩, by simpa using hfail⟩, hnode⟩
  have hcard : C.card = (strandedPeers E signOffset batch).length := by
    rw [← Finset.card_image_of_injOn hinj, himage, toFinset_card_of_nodup nodup_strandedPeers]
  have hpushable := toFinset_card_of_nodup ((hnodup.of_map _).filter (isPushable E signOffset))
  -- each of these peers has a lock that is pushed and one that is not
  have hmany : C.card ≤ 16 := by
    have hsplit := length_eq_length_filter_add (l := batch) (isPushable E signOffset)
    have hstranded : (strandedPeers E signOffset batch).length ≤ (batch.filter (!isPushable E signOffset ·)).length := by
      refine ((filter_sublist.trans (dedup_sublist _)).length_le.trans (length_map _).le).trans ?_
      refine (monotone_filter_right _ fun p hp => ?_).length_le
      simp only [Bool.and_eq_true, Option.isNone_iff_eq_none] at hp
      simp [isPushable, hp.2]
    omega
  obtain ⟨gs, hgs, hapart, hcover⟩ := Util.exists_groups (·.nodeId)
    (fun p hp => mem_toFinset.mpr (hC hp).1) hinj hmany (by rw [hcard, hpushable]; omega)
  refine ⟨gs.map Finset.toList, fun g hg => ?_, nodup_flatten.mpr ⟨fun g hg => ?_, ?_⟩, ?_, fun n hn => ?_⟩
  · obtain ⟨G, hG, rfl⟩ := mem_map.mp hg
    refine ⟨G.length_toList.trans (hgs G hG).2, fun p hp => ?_⟩
    exact mem_filter.mp (mem_toFinset.mp ((hgs G hG).1 (Finset.mem_toList.mp hp)))
  · obtain ⟨G, -, rfl⟩ := mem_map.mp hg
    exact G.nodup_toList
  · refine pairwise_map.mpr (hapart.imp fun h p hp hq => ?_)
    exact h p (Finset.mem_toList.mp hp) p (Finset.mem_toList.mp hq) rfl
  · exact pairwise_map.mpr (hapart.imp fun h p hp q hq => h p (Finset.mem_toList.mp hp) q (Finset.mem_toList.mp hq))
  · rw [← mem_toFinset, ← himage, Finset.mem_image] at hn
    obtain ⟨p, hp, hnode⟩ := hn
    obtain ⟨G, hG, hpG⟩ := hcover p hp
    exact ⟨p, mem_flatten.mpr ⟨_, mem_map_of_mem hG, Finset.mem_toList.mpr hpG⟩, hnode, (hC hp).2⟩

/-- If the loop need not end early, there is an order in which it does not: such sub-batches, the locks that make their
peers bad at once, the locks without a quorum, and the others. -/
theorem exists_perm_pushLocks :
    ∃ pend : List PendingLock, pend.Perm batch ∧ ∃ s, pushLocks E signOffset pend (startVerifier, []) = some s := by
  obtain ⟨gs, hgs, hgroups, hapart, hcover⟩ := exists_groups_of_not_endsEarly hnodup hsize hends
  have hmem : ∀ p ∈ gs.flatten, p ∈ batch ∧ isPushable E signOffset p = true := by
    intro p hp
    obtain ⟨g, hg, hp⟩ := mem_flatten.mp hp
    exact (hgs g hg).2 p hp
  have hhash : (gs.flatten.map (·.hash)).Nodup := (nodup_map_iff_inj_on hgroups).mpr fun p hp q hq =>
    inj_on_of_nodup_map hnodup (hmem p hp).1 (hmem q hq).1
  obtain ⟨s₁, fl, hpush₁, hd, hmap⟩ := (@dispatched_start E signOffset).pushGroups (s := (startVerifier, []))
    (fun g hg => ⟨(hgs g hg).1, fun p hp => ⟨((hgs g hg).2 p hp).2, not_mem_nil⟩⟩) (by simpa [seenLocks] using hhash) hapart
  rw [map_nil, nil_append] at hmap
  obtain ⟨s₂, hpush₂, hbad₂, hkeep⟩ := @pushLocks_of_marksPeer E signOffset (batch.filter (marksPeer E))
    (fun p hp => (mem_filter.mp hp).2) s₁
  have hpush₃ : pushLocks E signOffset (batch.filter fun p => isCheckable E p && (messageFor E signOffset p).isNone) s₂ =
      some s₂ := by
    refine pushLocks_of_bad fun p hp => ?_
    simp only [mem_filter, Bool.and_eq_true, Option.isNone_iff_eq_none] at hp
    by_cases hmarked : ∃ x ∈ batch, x.nodeId = p.nodeId ∧ marksPeer E x = true
    · obtain ⟨x, hx, hnode, hmarks⟩ := hmarked
      exact hnode ▸ hbad₂ x (mem_filter.mpr ⟨hx, hmarks⟩)
    · have hn : p.nodeId ∈ strandedPeers E signOffset batch := mem_strandedPeers.mpr
        ⟨⟨p, hp.1, hp.2.1, hp.2.2, rfl⟩, fun x hx hnode => by simpa using fun h => hmarked ⟨x, hx, hnode, h⟩⟩
      obtain ⟨x, hx, hnode, hfail⟩ := hcover _ hn
      obtain ⟨q, hq, rfl⟩ := mem_map.mp (hmap ▸ hx)
      exact hkeep ((hd.mem_badSources _).mpr (.inr ⟨q, hq, hnode, hfail⟩))
  obtain ⟨l, hl, hsub⟩ := subperm_of_pushable hnodup.of_map hgroups hmem
  obtain ⟨rest, hrest⟩ := hsub.exists_perm_append
  have hperm := hrest.trans (hl.append_right rest)
  obtain ⟨s, hs⟩ := @pushLocks_isSome E signOffset rest (fun p hp hcheck => by
    by_contra hnone
    have hnd := hperm.nodup_iff.mp hnodup.of_map
    have hpb : p ∈ batch := hperm.mem_iff.mpr (mem_append_right _ hp)
    refine (nodup_append.mp hnd).2.2 p (mem_append_right _ (mem_append_right _ (mem_filter.mpr ⟨hpb, ?_⟩))) p hp rfl
    simpa [hcheck] using hnone) s₂
  refine ⟨_, hperm.symm, s, ?_⟩
  rw [pushLocks_append, pushLocks_append, hpush₁, Option.bind_some, pushLocks_append, hpush₂, Option.bind_some,
    hpush₃, Option.bind_some, hs]

end Order

variable (E signOffset) in
/-- Only valid locks are handed on, in whatever order a batch comes. -/
def Secure (batch : List PendingLock) : Prop :=
  (QuorumsSelected E signOffset batch ∧ Screened E signOffset batch) ∨ EndsEarly E signOffset batch

theorem secure_iff {batch : List PendingLock} (hnodup : (batch.map (·.hash)).Nodup) (hsize : batch.length ≤ 32)
    (ban : Bool) :
    (∀ pend : List PendingLock, pend.Perm batch → ∀ p ∈ (processLocks E signOffset pend ban).processed,
      hasValidSig E signOffset p = true) ↔ Secure E signOffset batch := by
  constructor
  · intro h
    by_cases hq : QuorumsSelected E signOffset batch
    · exact .inl ⟨hq, screened_of_forall_perm hnodup hq ban h⟩
    · right
      by_contra hends
      obtain ⟨pend, hperm, s, hpush⟩ := exists_perm_pushLocks hnodup hsize hends
      obtain ⟨p, hp, hcheck, hnone⟩ : ∃ p ∈ batch, isCheckable E p = true ∧ messageFor E signOffset p = none := by
        simpa [QuorumsSelected] using hq
      have hnodup' := (hperm.map (·.hash)).nodup_iff.mpr hnodup
      have hpend := hperm.mem_iff.mpr hp
      obtain ⟨mk, fl, cu, sk, hd, hseen⟩ := exists_dispatched hnodup' hpush
      -- the lock without a quorum is not pushed, so it is handed on
      have hprocessed : p ∈ (processLocks E signOffset pend ban).processed := by
        refine (mem_processLocks hd hnodup' hseen hpush ban hpend).1.mpr fun hpushed => ?_
        obtain ⟨q, hq, rfl⟩ := mem_map.mp hpushed.1
        cases hnone.symm.trans (hd.isPushed q hq).2
      have hvalid := h pend hperm p hprocessed
      rw [hasValidSig, hnone] at hvalid
      cases hvalid
  · rintro (⟨-, hs⟩ | hends) pend hperm p hp
    · exact (hs.perm hperm).hasValidSig_of_mem_processed ((hperm.map _).nodup_iff.mpr hnodup) hp
    · rw [processLocks_of_pushLocks_eq_none ban (pushLocks_eq_none hnodup hends hperm)] at hp
      cases hp

/-! ### A call -/

theorem takeLocks_sublist (deterministic : Bool) (n : ℕ) (pending : List PendingLock) :
    (takeLocks deterministic n pending).1.Sublist pending := by
  induction pending generalizing n with
  | nil => exact Sublist.refl _
  | cons p pending ih =>
    rw [takeLocks]
    split_ifs
    · exact nil_sublist _
    · exact (ih n).cons p
    · exact (ih (n + 1)).cons_cons p

theorem length_takeLocks (deterministic : Bool) (n : ℕ) (pending : List PendingLock) :
    (takeLocks deterministic n pending).1.length ≤ 32 - n := by
  induction pending generalizing n with
  | nil => exact Nat.zero_le _
  | cons p pending ih =>
    rw [takeLocks]
    split_ifs with hfull
    · exact Nat.zero_le _
    · exact ih n
    · have := ih (n + 1)
      simp only [length_cons]
      omega

/-- All that a call hands on is valid, under the quorums of the set that was asked. -/
def Authentic (E₀ E₁ : LockEnv) (pend : List PendingLock) : Prop :=
  (∀ p ∈ (processPendingInstantSendLocks E₀ E₁ pend).1.processed, hasValidSig E₀ 0 p = true) ∧
    ∀ p ∈ (processPendingInstantSendLocks E₀ E₁ pend).2.processed, hasValidSig E₁ E₀.dkgInterval p = true

def oldLocks (E : LockEnv) (pend : List PendingLock) : List PendingLock :=
  pend.filter fun p => !hasValidSig E 0 p

theorem filter_badISLocks {E₀ : LockEnv}
    (h : ∀ p ∈ pend, p.hash ∈ (processLocks E₀ 0 pend false).badISLocks ↔ hasValidSig E₀ 0 p = false) :
    (pend.filter fun p => (processLocks E₀ 0 pend false).badISLocks.contains p.hash) = oldLocks E₀ pend := by
  apply filter_congr
  intro p hp
  rw [Bool.eq_iff_iff, contains_iff_mem, h p hp, Bool.not_eq_true']

section Call

variable {E₀ E₁ : LockEnv} {batch : List PendingLock}

theorem processPendingInstantSendLocks_fst :
    (processPendingInstantSendLocks E₀ E₁ pend).1 = processLocks E₀ 0 pend false := by
  unfold processPendingInstantSendLocks
  dsimp only
  split_ifs <;> rfl

/-- The second verification is that of the old locks, if the first one ended with the bad ones. -/
theorem processPendingInstantSendLocks_snd (hs : Screened E₀ 0 pend) (hq : QuorumsSelected E₀ 0 pend)
    (hnodup : (pend.map (·.hash)).Nodup) :
    (processPendingInstantSendLocks E₀ E₁ pend).2.processed =
      (processLocks E₁ E₀.dkgInterval (oldLocks E₀ pend) true).processed := by
  rcases hs.mem_badISLocks hnodup false with ⟨-, hnone⟩ | hbad
  · obtain ⟨s, hsome⟩ := pushLocks_isSome hq (startVerifier, [])
    cases hnone.symm.trans hsome
  · unfold processPendingInstantSendLocks
    dsimp only
    rw [filter_badISLocks hbad]
    split_ifs with hempty
    · -- without a bad lock there are no old ones
      have hold : oldLocks E₀ pend = [] := by
        rw [← filter_badISLocks hbad, isEmpty_iff.mp hempty]
        simp
      rw [hold]
      rfl
    · rfl

theorem authentic_iff (hnodup : (batch.map (·.hash)).Nodup) (hsize : batch.length ≤ 32) :
    (∀ pend : List PendingLock, pend.Perm batch → Authentic E₀ E₁ pend) ↔
      Secure E₀ 0 batch ∧ (QuorumsSelected E₀ 0 batch → Secure E₁ E₀.dkgInterval (oldLocks E₀ batch)) := by
  have hnodup₁ : ((oldLocks E₀ batch).map (·.hash)).Nodup := (filter_sublist.map _).nodup hnodup
  have hsize₁ : (oldLocks E₀ batch).length ≤ 32 := (length_filter_le ..).trans hsize
  rw [← secure_iff hnodup hsize false, ← secure_iff hnodup₁ hsize₁ true]
  simp only [Authentic, processPendingInstantSendLocks_fst]
  constructor
  · intro h
    refine ⟨fun pend hperm => (h pend hperm).1, fun hq old hperm p hp => ?_⟩
    have hs : Screened E₀ 0 batch := screened_of_forall_perm hnodup hq false fun pend hperm => (h pend hperm).1
    -- any order of the old locks is that of some order of the batch
    have horder : (old ++ batch.filter fun x => hasValidSig E₀ 0 x).Perm batch := by
      refine (perm_append_comm).trans ?_
      exact (hperm.append_left _).trans (filter_append_perm _ _)
    have hold : oldLocks E₀ (old ++ batch.filter fun x => hasValidSig E₀ 0 x) = old := by
      rw [oldLocks, filter_append, filter_eq_self.mpr fun x hx => (mem_filter.mp (hperm.mem_iff.mp hx)).2,
        filter_eq_nil_iff.mpr (fun x hx => by simpa using (mem_filter.mp hx).2), append_nil]
    have hsecond := (h _ horder).2 p
    rw [processPendingInstantSendLocks_snd (hs.perm horder) (fun x hx => hq x (horder.mem_iff.mp hx))
      ((horder.map _).nodup_iff.mpr hnodup), hold] at hsecond
    exact hsecond hp
  · rintro ⟨h₀, h₁⟩ pend hperm
    refine ⟨h₀ pend hperm, fun p hp => ?_⟩
    rcases (secure_iff hnodup hsize false).mp h₀ with ⟨hq, hs⟩ | hends
    · rw [processPendingInstantSendLocks_snd (hs.perm hperm) (fun x hx => hq x (hperm.mem_iff.mp hx))
        ((hperm.map _).nodup_iff.mpr hnodup)] at hp
      exact h₁ hq _ (hperm.filter _) p hp
    · unfold processPendingInstantSendLocks at hp
      rw [processLocks_of_pushLocks_eq_none false (pushLocks_eq_none hnodup hends hperm)] at hp
      cases hp

end Call

/-- For every content of the queue: all locks that a call hands on are valid, in whatever order the batch comes, exactly
if the first verification is secure, and the second one where the first looks at all locks. -/
theorem processPendingInstantSendLocks_authentic (E₀ E₁ : LockEnv) (pending : PendingLocks) (deterministic : Bool) :
    (∀ pend : List PendingLock, pend.Perm (takeLocks deterministic 0 pending.locks).1 → Authentic E₀ E₁ pend) ↔
      Secure E₀ 0 (takeLocks deterministic 0 pending.locks).1 ∧
        (QuorumsSelected E₀ 0 (takeLocks deterministic 0 pending.locks).1 →
          Secure E₁ E₀.dkgInterval (oldLocks E₀ (takeLocks deterministic 0 pending.locks).1)) :=
  authentic_iff (((takeLocks_sublist deterministic 0 pending.locks).map _).nodup pending.nodup)
    (length_takeLocks deterministic 0 pending.locks)

/-! ### Small batches -/

/-- One quorum, whose signature is the first one. -/
def sampleLockEnv : LockEnv where
  getRequestId _ := 7#256
  hasRecoveredSig _ _ := false
  hasRecoveredSigForId _ := false
  lookupBlockIndex _ := none
  chainHeight := 100
  dkgInterval := 24
  selectQuorumForSigning _ _ _ := some ⟨9#256, ⟨1#383⟩⟩
  buildSignHash _ _ txid := txid
  verifyInsecure _ _ sig := decide (sig.id = 1)

/-- A lock of a peer with a signature, or with bytes that are none. -/
def sampleLock (nodeId : NodeId) (sig : CBLSSignature) : PendingLock where
  hash := BitVec.ofInt 256 nodeId
  nodeId := nodeId
  islock := { inputs := [⟨3#256, 0#32⟩], txid := 4#256, cycleHash := 0#256, sig := sig }

/-- A lock without a signature is handed on. -/
theorem unsignedLock_processed : ∃ (E : LockEnv) (pending : PendingLocks) (p : PendingLock),
      (takeLocks false 0 pending.locks).1 = [p] ∧
      p ∈ (processPendingInstantSendLocks E E [p]).1.processed ∧ hasValidSig E 0 p = false := by
  refine ⟨sampleLockEnv, ⟨[sampleLock 1 none], by decide⟩, sampleLock 1 none, ?_, ?_, ?_⟩
  · decide
  · decide
  · decide

end OmegaCore.Llmq
