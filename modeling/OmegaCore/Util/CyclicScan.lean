import Mathlib.Data.List.Basic
import Mathlib.Data.Nat.ModEq

/-!
Scans that go round a list of `n` entries.  A scan is the sequence of its decisions,
`true` where it takes the entry and `false` where it skips it; the decision at position
`pos` is about the entry `pos % n`.  The skipped entries alone determine the scan again
if no `n` entries are taken in a row before a skip.
-/

namespace OmegaCore.Util

open List Option

variable {n pos pos' r : ℕ} {b d : Bool} {ds ds' : List Bool} {S S' : List ℕ}

/-- The entries about which the decision is `b`. -/
def marks (n : ℕ) (b : Bool) : ℕ → List Bool → List ℕ
  | _, [] => []
  | pos, d :: ds => if d = b then pos % n :: marks n b (pos + 1) ds else marks n b (pos + 1) ds

/-- Runs of the decision `b` are shorter than `n` where the other decision follows.  The current run
is `r` long. -/
def ShortRuns (n : ℕ) (b : Bool) : ℕ → List Bool → Prop
  | _, [] => True
  | r, d :: ds => if d = b then ShortRuns n b (r + 1) ds else r < n ∧ ShortRuns n b 0 ds

instance decidableShortRuns (n : ℕ) (b : Bool) : (r : ℕ) → (ds : List Bool) → Decidable (ShortRuns n b r ds)
  | _, [] => .isTrue trivial
  | r, d :: ds =>
    have := decidableShortRuns n b (r + 1) ds
    have := decidableShortRuns n b 0 ds
    inferInstanceAs (Decidable (if d = b then ShortRuns n b (r + 1) ds else r < n ∧ ShortRuns n b 0 ds))

def EndsTaking (ds : List Bool) : Prop :=
  ds.getLast? ≠ some false

/-! ### Marks -/

theorem marks_append (n : ℕ) (b : Bool) (pos : ℕ) (ds ds' : List Bool) :
    marks n b pos (ds ++ ds') = marks n b pos ds ++ marks n b (pos + ds.length) ds' := by
  induction ds generalizing pos with
  | nil => rfl
  | cons d ds ih =>
    have hlen : pos + (d :: ds).length = pos + 1 + ds.length := by
      simp only [length_cons]
      omega
    simp only [cons_append, marks, ih, hlen]
    split_ifs <;> rfl

theorem length_marks (n : ℕ) (b : Bool) (pos : ℕ) (ds : List Bool) : (marks n b pos ds).length = ds.count b := by
  induction ds generalizing pos with
  | nil => rfl
  | cons d ds ih =>
    by_cases hd : d = b
    · simp [marks, hd, ih]
    · simp [marks, hd, ih]

theorem marks_lt (hn : 0 < n) {x : ℕ} (hx : x ∈ marks n b pos ds) : x < n := by
  induction ds generalizing pos with
  | nil => cases hx
  | cons d ds ih =>
    unfold marks at hx
    split_ifs at hx
    · rcases mem_cons.mp hx with rfl | hx
      · exact Nat.mod_lt _ hn
      · exact ih hx
    · exact ih hx

theorem ShortRuns.marks_head {x : ℕ} {rest : List ℕ} (h : ShortRuns n (!b) r ds)
    (hmarks : marks n b pos ds = x :: rest) : ∃ j, x = (pos + j) % n ∧ r + j < n := by
  induction ds generalizing pos r with
  | nil => cases hmarks
  | cons d ds ih =>
    by_cases hd : d = b
    · rw [marks, if_pos hd, cons.injEq] at hmarks
      rw [ShortRuns, if_neg (by simp [hd])] at h
      exact ⟨0, hmarks.1.symm, h.1⟩
    · have hnot : d = !b := by cases d <;> cases b <;> simp_all
      rw [marks, if_neg hd] at hmarks
      rw [ShortRuns, if_pos hnot] at h
      obtain ⟨j, hj, hlt⟩ := ih h hmarks
      exact ⟨j + 1, by rw [hj]; congr 1; omega, by omega⟩

theorem mod_ne_of_lt {j : ℕ} (hpos : 0 < j) (hlt : j < n) : (pos + j) % n ≠ pos % n := by
  intro heq
  have hdvd : n ∣ j := by
    have hmod : pos + j ≡ pos + 0 [MOD n] := heq
    exact (Nat.modEq_zero_iff_dvd).mp (Nat.ModEq.add_left_cancel' pos hmod)
  exact absurd (Nat.le_of_dvd hpos hdvd) (by omega)

/-! ### Last decisions -/

theorem EndsTaking.nil : EndsTaking [] := by
  simp [EndsTaking]

theorem EndsTaking.tail (h : EndsTaking (d :: ds)) : EndsTaking ds := by
  cases ds with
  | nil => exact .nil
  | cons d' ds => simpa [EndsTaking] using h

theorem EndsTaking.append (h : EndsTaking ds) (h' : EndsTaking ds') : EndsTaking (ds ++ ds') := by
  unfold EndsTaking at *
  rw [getLast?_append]
  cases hlast : ds'.getLast? with
  | none => simpa using h
  | some d => simpa [hlast] using h'

theorem EndsTaking.snoc (ds : List Bool) : EndsTaking (ds ++ [true]) := by
  simp [EndsTaking]

theorem EndsTaking.count_pos (h : EndsTaking ds) (hne : ds ≠ []) : 0 < ds.count true := by
  rw [count_pos_iff]
  cases hlast : ds.getLast? with
  | none => exact absurd (getLast?_eq_none_iff.mp hlast) hne
  | some d =>
    cases d with
    | true => exact mem_of_getLast? hlast
    | false => exact absurd hlast h

theorem EndsTaking.eq_nil (h : EndsTaking ds) (hcount : ds.count true = 0) : ds = [] := by
  by_contra hne
  have hpos := h.count_pos hne
  omega

theorem EndsTaking.of_append_cons (h : EndsTaking (ds ++ d :: ds')) : EndsTaking (d :: ds') := by
  simpa [EndsTaking, getLast?_append] using h

theorem exists_of_marks_cons {x : ℕ} {rest : List ℕ} (h : marks n true pos ds = x :: rest) :
    ∃ j tail, ds = List.replicate j false ++ true :: tail ∧ x = (pos + j) % n ∧
      rest = marks n true (pos + j + 1) tail := by
  induction ds generalizing pos with
  | nil => cases h
  | cons d ds ih =>
    cases d with
    | true =>
      obtain ⟨hx, hrest⟩ := cons.inj (h : pos % n :: marks n true (pos + 1) ds = x :: rest)
      exact ⟨0, ds, rfl, hx.symm, hrest.symm⟩
    | false =>
      obtain ⟨j, tail, hds, hx, hrest⟩ := ih (h : marks n true (pos + 1) ds = x :: rest)
      have hj : pos + 1 + j = pos + (j + 1) := by omega
      exact ⟨j + 1, tail, by rw [hds]; rfl, hj ▸ hx, hj ▸ hrest⟩

/-- A scan with short runs of skips has the fewest skips among the scans that take the same entries,
and is the only one with that many.  By induction on the scan: the other one may start some laps
behind, and skips at least as much before each entry it takes. -/
theorem count_false_le_of_marks_eq (hruns : ShortRuns n false r ds) (hends : EndsTaking ds)
    (hends' : EndsTaking ds') (hpos : pos % n = pos' % n) (hmarks : marks n true pos ds = marks n true pos' ds') :
    ds.count false ≤ ds'.count false ∧ (ds'.count false ≤ ds.count false → ds' = ds) := by
  induction ds generalizing pos pos' r ds' with
  | nil =>
    have hnil : ds' = [] := by
      apply hends'.eq_nil
      rw [← length_marks n true pos', ← hmarks]
      rfl
    simp [hnil]
  | cons d ds ih =>
    cases d with
    | true =>
      have hmarks' : marks n true pos' ds' = pos % n :: marks n true (pos + 1) ds := hmarks.symm
      obtain ⟨j, tail, rfl, hx, hrest⟩ := exists_of_marks_cons hmarks'
      have hpos' : (pos + 1) % n = (pos' + j + 1) % n := Nat.ModEq.add_right 1 hx
      obtain ⟨hle, heq⟩ := ih hruns.2 hends.tail hends'.of_append_cons.tail hpos' hrest
      have hcount : (replicate j false ++ true :: tail).count false = j + tail.count false := by
        simp
      have hcount' : (true :: ds).count false = ds.count false := by simp
      refine ⟨by omega, fun hge => ?_⟩
      have hj : j = 0 := by omega
      rw [heq (by omega), hj]
      rfl
    | false =>
      have hruns' : ShortRuns n false (r + 1) ds := hruns
      have hmarks' : marks n true (pos + 1) ds = marks n true pos' ds' := hmarks
      cases ds' with
      | nil =>
        have hzero : ds.count true = 0 := by
          rw [← length_marks n true (pos + 1), hmarks']
          rfl
        rw [hends.tail.eq_nil hzero] at hends
        exact absurd rfl hends
      | cons d' tail =>
        cases d' with
        | true =>
          -- the other scan takes the entry that this one skips
          obtain ⟨j, hj, hlt⟩ := hruns'.marks_head (b := true) hmarks'
          rw [← hpos, show pos + 1 + j = pos + (1 + j) by omega] at hj
          exact absurd hj.symm (mod_ne_of_lt (by omega) (by omega))
        | false =>
          have hpos' : (pos + 1) % n = (pos' + 1) % n := Nat.ModEq.add_right 1 hpos
          obtain ⟨hle, heq⟩ := ih hruns' hends.tail hends'.tail hpos' hmarks'
          simp only [count_cons_self]
          exact ⟨by omega, fun hge => by rw [heq (by omega)]⟩

/-! ### Scans by their skipped entries -/

/-- A scan that skips the listed entries, each the first time it comes round after the one before,
and takes the others. -/
inductive Replay (n : ℕ) : ℕ → List ℕ → List Bool → List ℕ → Prop where
  | nil (pos : ℕ) (S : List ℕ) : Replay n pos S [] S
  | skip {pos : ℕ} {S S' : List ℕ} {ds : List Bool} (rest : Replay n (pos + 1) S ds S') :
      Replay n pos (pos % n :: S) (false :: ds) S'
  | take {pos : ℕ} {S S' : List ℕ} {ds : List Bool} (other : S.head? ≠ some (pos % n))
      (rest : Replay n (pos + 1) S ds S') : Replay n pos S (true :: ds) S'

theorem Replay.append (h : Replay n pos S ds S') {S'' : List ℕ}
    (h' : Replay n (pos + ds.length) S' ds' S'') : Replay n pos S (ds ++ ds') S'' := by
  induction h with
  | nil => exact h'
  | skip rest ih =>
    refine .skip (ih ?_)
    convert h' using 1
    simp only [length_cons]
    omega
  | take other rest ih =>
    refine .take other (ih ?_)
    convert h' using 1
    simp only [length_cons]
    omega

theorem Replay.suffix (h : Replay n pos S ds S') : S' <:+ S := by
  induction h with
  | nil => exact suffix_refl _
  | skip rest ih => exact ih.trans (suffix_cons _ _)
  | take other rest ih => exact ih

theorem Replay.count_false_le (h : Replay n pos S ds S') : ds.count false ≤ S.length := by
  induction h with
  | nil => simp
  | skip rest ih => simpa using ih
  | take other rest ih => simpa using ih

theorem Replay.eq_of_shortRuns (h : Replay n pos (marks n false pos ds) ds' S')
    (hruns : ShortRuns n true r ds) (hends : EndsTaking ds) (hends' : EndsTaking ds')
    (hcount : ds'.count true = ds.count true) : ds' = ds := by
  induction ds generalizing pos r ds' with
  | nil => exact hends'.eq_nil hcount
  | cons d ds ih =>
    cases d with
    | true =>
      have hruns' : ShortRuns n true (r + 1) ds := hruns
      have h' : Replay n pos (marks n false (pos + 1) ds) ds' S' := h
      generalize hS : marks n false (pos + 1) ds = S at h'
      cases h' with
      | nil => simp at hcount
      | skip rest =>
        -- the next skipped entry is less than a lap ahead
        obtain ⟨j, hj, hlt⟩ := hruns'.marks_head (b := false) hS
        rw [show pos + 1 + j = pos + (1 + j) by omega] at hj
        exact absurd hj.symm (mod_ne_of_lt (by omega) (by omega))
      | take other rest =>
        rw [← hS] at rest
        rw [ih rest hruns' hends.tail hends'.tail (by simpa using hcount)]
    | false =>
      have h' : Replay n pos (pos % n :: marks n false (pos + 1) ds) ds' S' := h
      cases h' with
      | nil =>
        have hzero : ds.count true = 0 := by simpa using hcount.symm
        rw [hends.tail.eq_nil hzero] at hends
        exact absurd rfl hends
      | skip rest => rw [ih rest hruns.2 hends.tail hends'.tail (by simpa using hcount)]
      | take other rest => exact absurd rfl other

/-- Conversely, a scan that its own skipped entries lead to takes no lap before a skip: the entry
would have been skipped a lap earlier. -/
theorem Replay.shortRuns (hn : 0 < n) (h : Replay n pos S ds S')
    (hrun : ∀ i, 0 < i → i ≤ r → i ≤ pos ∧ S.head? ≠ some ((pos - i) % n)) : ShortRuns n true r ds := by
  induction h generalizing r with
  | nil => trivial
  | @skip pos S S' ds rest ih =>
    refine ⟨?_, ih fun i hpos hle => absurd hpos (by omega)⟩
    by_contra hlap
    obtain ⟨hle, hne⟩ := hrun n hn (by omega)
    apply hne
    rw [head?_cons, some.injEq, ← Nat.add_mod_right (pos - n), Nat.sub_add_cancel hle]
  | @take pos S S' ds other rest ih =>
    refine ih (r := r + 1) fun i hpos hle => ?_
    by_cases hi : i = 1
    · subst hi
      exact ⟨by omega, by simpa using other⟩
    · obtain ⟨hle', hne⟩ := hrun (i - 1) (by omega) (by omega)
      refine ⟨by omega, ?_⟩
      rw [show pos + 1 - i = pos - (i - 1) by omega]
      exact hne

/-- A scan by skipped entries takes what the scan they come from took if and only if that one takes no
lap before a skip. -/
theorem Replay.marks_eq_iff (hn : 0 < n) (hskips : ShortRuns n false 0 ds) (hends : EndsTaking ds)
    (h : Replay n 0 (marks n false 0 ds) ds' S') (hends' : EndsTaking ds') (hcount : ds'.count true = ds.count true) :
    marks n true 0 ds' = marks n true 0 ds ↔ ShortRuns n true 0 ds := by
  constructor
  · intro hmarks
    have hle : ds'.count false ≤ ds.count false := by
      rw [← length_marks n false 0 ds]
      exact h.count_false_le
    have heq := (count_false_le_of_marks_eq hskips hends hends' rfl hmarks.symm).2 hle
    rw [heq] at h
    exact h.shortRuns hn fun i hpos hle => absurd hpos (by omega)
  · intro hruns
    rw [h.eq_of_shortRuns hruns hends hends' hcount]

/-! ### Scans with quotas -/

section Walk

variable {α σ : Type*} {accept : σ → α → Option σ} {items : List α} {s s' s'' : σ}

variable (accept items) in
/-- A scan of `items` that takes what the state accepts. -/
inductive Walk : ℕ → σ → List Bool → σ → Prop where
  | nil (pos : ℕ) (s : σ) : Walk pos s [] s
  | take {pos : ℕ} {s s' s'' : σ} {ds : List Bool} (x : α) (item : items[pos % items.length]? = some x)
      (accepted : accept s x = some s') (rest : Walk (pos + 1) s' ds s'') : Walk pos s (true :: ds) s''
  | skip {pos : ℕ} {s s' : σ} {ds : List Bool} (x : α) (item : items[pos % items.length]? = some x)
      (refused : accept s x = none) (rest : Walk (pos + 1) s ds s') : Walk pos s (false :: ds) s'

variable (accept items) in
/-- Scans one after the other, one for each state, that each end with the `quota`-th entry they take. -/
inductive Walks (quota : ℕ) : ℕ → List σ → List Bool → Prop where
  | nil (pos : ℕ) : Walks quota pos [] []
  | cons {pos : ℕ} {s s' : σ} {states : List σ} {ds ds' : List Bool}
      (first : Walk accept items pos s ds s') (count : ds.count true = quota) (ends : EndsTaking ds)
      (rest : Walks quota (pos + ds.length) states ds') : Walks quota pos (s :: states) (ds ++ ds')

theorem Walk.append (h : Walk accept items pos s ds s')
    (h' : Walk accept items (pos + ds.length) s' ds' s'') : Walk accept items pos s (ds ++ ds') s'' := by
  induction h with
  | nil => exact h'
  | take x item accepted rest ih =>
    refine .take x item accepted (ih ?_)
    convert h' using 1
    simp only [length_cons]
    omega
  | skip x item refused rest ih =>
    refine .skip x item refused (ih ?_)
    convert h' using 1
    simp only [length_cons]
    omega

theorem Walk.unique (h : Walk accept items pos s ds s') (h' : Walk accept items pos s ds' s'')
    (hends : EndsTaking ds) (hends' : EndsTaking ds') (hcount : ds.count true = ds'.count true) : ds = ds' := by
  induction h generalizing ds' s'' with
  | nil => exact (hends'.eq_nil (by simpa using hcount.symm)).symm
  | take x item accepted rest ih =>
    cases h' with
    | nil => simp at hcount
    | take x' item' accepted' rest' =>
      rw [item, some.injEq] at item'
      subst item'
      rw [accepted, some.injEq] at accepted'
      subst accepted'
      rw [ih rest' hends.tail hends'.tail (by simpa using hcount)]
    | skip x' item' refused' rest' =>
      rw [item, some.injEq] at item'
      subst item'
      rw [accepted] at refused'
      cases refused'
  | skip x item refused rest ih =>
    cases h' with
    | nil =>
      rw [hends.eq_nil (by simpa using hcount)]
    | take x' item' accepted' rest' =>
      rw [item, some.injEq] at item'
      subst item'
      rw [refused] at accepted'
      cases accepted'
    | skip x' item' refused' rest' =>
      rw [ih rest' hends.tail hends'.tail (by simpa using hcount)]

/-- A scan does not skip a whole lap before it takes an entry: what it refuses stays refused. -/
theorem Walk.shortRuns (h : Walk accept items pos s ds s')
    (hrun : ∀ i, 0 < i → i ≤ r → i ≤ pos ∧ ∀ x, items[(pos - i) % items.length]? = some x → accept s x = none) :
    ShortRuns items.length false r ds := by
  induction h generalizing r with
  | nil => trivial
  | @take pos s s' s'' ds x item accepted rest ih =>
    refine ⟨?_, ih fun i hpos hle => absurd hpos (by omega)⟩
    by_contra hlap
    have hn : 0 < items.length := length_pos_of_mem (mem_of_getElem? item)
    obtain ⟨hle, hrefused⟩ := hrun items.length hn (by omega)
    have hmod : (pos - items.length) % items.length = pos % items.length := by
      rw [← Nat.add_mod_right (pos - items.length), Nat.sub_add_cancel hle]
    rw [hrefused x (hmod ▸ item)] at accepted
    cases accepted
  | @skip pos s s' ds x item refused rest ih =>
    refine ih (r := r + 1) fun i hpos hle => ?_
    by_cases hi : i = 1
    · subst hi
      refine ⟨by omega, fun y hy => ?_⟩
      rw [Nat.add_sub_cancel, item, some.injEq] at hy
      exact hy ▸ refused
    · obtain ⟨hle', hrefused⟩ := hrun (i - 1) (by omega) (by omega)
      refine ⟨by omega, fun y hy => hrefused y ?_⟩
      rwa [show pos + 1 - i = pos - (i - 1) by omega] at hy

theorem ShortRuns.append (h : ShortRuns n false r ds) (hends : EndsTaking ds) (hne : ds = [] → r = 0)
    (h' : ShortRuns n false 0 ds') : ShortRuns n false r (ds ++ ds') := by
  induction ds generalizing r with
  | nil => rw [hne rfl]; exact h'
  | cons d ds ih =>
    cases d with
    | true => exact ⟨h.1, ih h.2 hends.tail fun _ => rfl⟩
    | false =>
      refine ih (r := r + 1) h hends.tail fun hnil => ?_
      rw [hnil] at hends
      exact absurd rfl hends

variable {quota : ℕ} {states : List σ}

section

variable (h : Walks accept items quota pos states ds)

include h

theorem Walks.endsTaking : EndsTaking ds := by
  induction h with
  | nil => exact .nil
  | cons first count ends rest ih => exact ends.append ih

theorem Walks.count : ds.count true = states.length * quota := by
  induction h with
  | nil => simp
  | cons first count ends rest ih =>
    rw [count_append, count, ih, length_cons, Nat.add_mul, Nat.one_mul, Nat.add_comm]

theorem Walks.shortRuns : ShortRuns items.length false 0 ds := by
  induction h with
  | nil => trivial
  | cons first count ends rest ih =>
    have hfirst := first.shortRuns (r := 0) fun i hpos hle => absurd hpos (by omega)
    exact hfirst.append ends (fun _ => rfl) ih

theorem Walks.unique (h' : Walks accept items quota pos states ds') : ds = ds' := by
  induction h generalizing ds' with
  | nil => cases h'; rfl
  | cons first count ends rest ih =>
    cases h' with
    | cons first' count' ends' rest' =>
      have heq := first.unique first' ends ends' (count.trans count'.symm)
      subst heq
      rw [ih rest']

end

end Walk

end OmegaCore.Util
