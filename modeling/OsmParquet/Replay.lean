import OsmParquet.Batching

/-!
Diffs that are applied a second time.

After a build from a planet file the updater starts at a sequence number that lies before the
file, and applies diffs the file has already. A version the dataset has, or is past, is stale and
dropped. An element that the diffs delete is not there to be compared with: an old version of it
comes back for a while, until the run with its deletion takes it away again.
-/

namespace OsmParquet.Replay

open OsmParquet.KeyedList OsmParquet.Rows OsmParquet.Tiers OsmParquet.TierSteps
open OsmParquet.ByidReads OsmParquet.Updater OsmParquet.Resolves OsmParquet.PrevCells
open OsmParquet.RunSteps OsmParquet.OneCell OsmParquet.Batching

/-- The own data of an element: its position, refs or members, version and tags. -/
def own : {t : Typ} → Row (ByidCols t) → Body t × ℤ × Option Tags
  | .node, r => (r.cols.coord, r.cols.attrs.version, r.cols.attrs.tags)
  | .way, r => (r.cols.refs, r.cols.attrs.version, r.cols.attrs.tags)
  | .relation, r => (r.cols.members, r.cols.attrs.version, r.cols.attrs.tags)

def ownOf {t : Typ} (c : Change (Body t)) : Body t × ℤ × Option Tags := (c.body, c.version, c.tags)

lemma version_own {t : Typ} (r : Row (ByidCols t)) : (own r).2.1 = (attrs r.cols).version := by
  cases t <;> rfl

/-- The dataset is as some diffs leave it: of every element they change it has the last version,
or nothing where that is a deletion. -/
def Reflects (s : Root) (ds : List Diff) (t : Typ) : Prop :=
  ∀ c ∈ parseBatch ds t, (cur s t c.id).map own = if c.deleted then none else some (ownOf c)

/-- The versions of every element increase. -/
def Increasing (ds : List Diff) (t : Typ) : Prop :=
  (allChanges ds t).Pairwise fun c c' => c.id = c'.id → c.version < c'.version

instance (ds : List Diff) (t : Typ) : Decidable (Increasing ds t) :=
  inferInstanceAs (Decidable (List.Pairwise _ (allChanges ds t)))

section Reflected

variable {s : Root} {ds : List Diff} {t : Typ} {i : ℤ} {c : Change (Body t)}

lemma Reflects.absent (h : Reflects s ds t) (hl : lastChange ds t i = some c)
    (hd : c.deleted = true) : curContent s t i = none := by
  obtain ⟨hc, rfl⟩ := lastChange_eq_some.mp hl
  have hr := h c hc
  rw [hd, if_pos rfl, Option.map_eq_none_iff] at hr
  rw [curContent, hr]
  rfl

lemma Reflects.version (h : Reflects s ds t) (hl : lastChange ds t i = some c)
    (hd : c.deleted = false) : ∃ x, curContent s t i = some x ∧ versionOf x = c.version := by
  obtain ⟨hc, rfl⟩ := lastChange_eq_some.mp hl
  have hr := h c hc
  rw [hd, if_neg Bool.false_ne_true, Option.map_eq_some_iff] at hr
  obtain ⟨r, hcur, hown⟩ := hr
  refine ⟨content r, by rw [curContent, hcur]; rfl, ?_⟩
  rw [versionOf_content, ← version_own, hown]
  rfl

end Reflected

/-! ### One run -/

/-- The element was not there at the start and is to be deleted by the diffs that are left, in a
version past the one that is there now. -/
def Pending (s₀ s : Root) (rest : List Diff) (t : Typ) (i : ℤ) : Prop :=
  curContent s₀ t i = none ∧ ∃ c, lastChange rest t i = some c ∧ c.deleted = true ∧
    ∀ x, curContent s t i = some x → versionOf x < c.version

section Run

variable {s₀ s : Root} {ds rest : List Diff} {f : Fetched} {t : Typ} {i : ℤ}

/-- The last change of what is left is the last of all diffs. -/
lemma lastChange_of_suffix (hs : rest <:+ ds) {c : Change (Body t)}
    (h : lastChange rest t i = some c) : lastChange ds t i = some c := by
  obtain ⟨done, rfl⟩ := hs
  rw [lastChange_append, h, Option.some_or]

lemma Increasing.of_suffix (hv : Increasing ds t) (hs : rest <:+ ds) : Increasing rest t := by
  obtain ⟨done, rfl⟩ := hs
  rw [Increasing, allChanges_append, List.pairwise_append] at hv
  exact hv.2.1

/-- Of what is left, the change that a run sees is not past the last one. -/
lemma version_le_last (hv : Increasing (f.diffs ++ rest) t) {c c' : Change (Body t)}
    (hf : lastChange f.diffs t i = some c') (hl : lastChange (f.diffs ++ rest) t i = some c) :
    c' = c ∧ lastChange rest t i = none ∨ c'.version < c.version ∧
      lastChange rest t i = some c := by
  rw [lastChange_append, hf] at hl
  rcases hrest : lastChange rest t i with _ | d
  · rw [hrest, Option.none_or, Option.some.injEq] at hl
    exact Or.inl ⟨hl, rfl⟩
  · rw [hrest, Option.some_or, Option.some.injEq] at hl
    subst hl
    obtain ⟨hc', hid'⟩ := lastChange_eq_some.mp hf
    obtain ⟨hd, hid⟩ := lastChange_eq_some.mp hrest
    rw [Increasing, allChanges_append, List.pairwise_append] at hv
    exact Or.inr ⟨hv.2.2 c' (mem_allChanges hc') d (mem_allChanges hd) (hid'.trans hid.symm), rfl⟩

/-- A run has nothing to say about an element that its diffs do not change. -/
lemma content_of_untouched (hg : Good s.deltas) (hf : f.diffs ≠ [])
    (hl : lastChange f.diffs t i = none) : curContent (runOnce s f) t i = curContent s t i := by
  have hnone : changeById i (keptOf s f t) = none := by
    rcases hk : changeById i (keptOf s f t) with _ | d
    · rfl
    · have hd := ((changeById_keptOf hg).mp hk).1
      rw [hl] at hd
      cases hd
  rw [curContent_runOnce hg hf, hnone]

/-- What the diffs leave standing is in no version that a run takes for new. -/
lemma content_of_standing (hg : Good s.deltas) (hf : f.diffs ≠ []) {c' : Change (Body t)}
    (hl : lastChange f.diffs t i = some c') {x : Content t} (hx : curContent s t i = some x)
    (hle : c'.version ≤ versionOf x) : curContent (runOnce s f) t i = curContent s t i := by
  have hid := (lastChange_eq_some.mp hl).2
  have hstale : ¬ newer s c' = true := by
    rw [newer_iff, hid]
    intro hnew
    exact absurd (hnew x hx) (not_lt.mpr hle)
  have hnone : changeById i (keptOf s f t) = none := by
    rcases hk : changeById i (keptOf s f t) with _ | d
    · rfl
    · obtain ⟨hd, hn, -⟩ := (changeById_keptOf hg).mp hk
      rw [hl, Option.some.injEq] at hd
      subst hd
      exact absurd hn hstale
  rw [curContent_runOnce hg hf, hnone]

/-- A run with the last deletion of an element leaves it deleted. -/
lemma content_of_deletion (hg : Good s.deltas) (hf : f.diffs ≠ []) {c : Change (Body t)}
    (hl : lastChange f.diffs t i = some c) (hd : c.deleted = true)
    (hold : ∀ x, curContent s t i = some x → versionOf x < c.version) :
    curContent (runOnce s f) t i = none := by
  have hid := (lastChange_eq_some.mp hl).2
  have hnew : newer s c = true := by
    rw [newer_iff, hid]
    exact hold
  rw [curContent_runOnce hg hf]
  rcases hcur : cur s t i with _ | r
  · -- it is not there: the deletion is dropped, and nothing else is kept
    have hnone : changeById i (keptOf s f t) = none := by
      rcases hk : changeById i (keptOf s f t) with _ | d
      · rfl
      · obtain ⟨hd', -, hex | ⟨hdel, -⟩⟩ := (changeById_keptOf hg).mp hk
        · rw [hcur] at hex
          cases hex
        · rw [hl, Option.some.injEq] at hd'
          rw [← hd', hd] at hdel
          cases hdel
    rw [hnone]
    simp [curContent, hcur]
  · have hk : changeById i (keptOf s f t) = some c :=
      (changeById_keptOf hg).mpr ⟨hl, hnew, Or.inl (by rw [hcur]; rfl)⟩
    rw [hk]
    simp [hd]

/-- Before the last deletion of an element, a run brings in a version that it is past. -/
lemma content_of_earlier (hg : Good s.deltas) (hf : f.diffs ≠ []) {c' : Change (Body t)} {v : ℤ}
    (hl : lastChange f.diffs t i = some c') (hlt : c'.version < v)
    (hold : ∀ x, curContent s t i = some x → versionOf x < v) :
    ∀ x, curContent (runOnce s f) t i = some x → versionOf x < v := by
  rw [curContent_runOnce hg hf]
  rcases hk : changeById i (keptOf s f t) with _ | d
  · exact hold
  · obtain ⟨hd, -, -⟩ := (changeById_keptOf hg).mp hk
    rw [hl, Option.some.injEq] at hd
    subst hd
    intro x hx
    simp only at hx
    split at hx
    · cases hx
    · cases hx
      rw [versionOf_contentOf]
      exact hlt

/-- **One run of the replay**: an element is as at the start, or its deletion is still to come. -/
lemma replay_step (hg : Good s.deltas) (hv : Increasing ds t) (hr : Reflects s₀ ds t)
    (hs : f.diffs ++ rest <:+ ds)
    (hi : curContent s t i = curContent s₀ t i ∨ Pending s₀ s (f.diffs ++ rest) t i) :
    curContent (runOnce s f) t i = curContent s₀ t i ∨ Pending s₀ (runOnce s f) rest t i := by
  by_cases hf : f.diffs = []
  · rw [hf, List.nil_append] at hi
    rwa [runOnce_of_nil hf]
  rcases hl : lastChange f.diffs t i with _ | c'
  · have hsame := content_of_untouched hg hf hl
    unfold Pending at hi ⊢
    rwa [hsame, ← show lastChange (f.diffs ++ rest) t i = lastChange rest t i by
      rw [lastChange_append, hl, Option.or_none]]
  obtain ⟨c, hc⟩ : ∃ c, lastChange (f.diffs ++ rest) t i = some c := by
    rw [lastChange_append, hl]
    rcases lastChange rest t i with _ | d <;> simp
  have hall := lastChange_of_suffix hs hc
  have hvs := version_le_last (hv.of_suffix hs) hl hc
  rcases hd : c.deleted with _ | _
  · -- the element stands at the end, and so from the start
    obtain ⟨x, hx, hxv⟩ := hr.version hall hd
    have hcur : curContent s t i = curContent s₀ t i := by
      rcases hi with h | ⟨hnone, -⟩
      · exact h
      · rw [hnone] at hx
        cases hx
    have hle : c'.version ≤ versionOf x := by
      rw [hxv]
      rcases hvs with ⟨rfl, -⟩ | ⟨hlt, -⟩
      · exact le_rfl
      · exact hlt.le
    refine Or.inl ?_
    rw [content_of_standing hg hf hl (hcur.trans hx) hle]
    exact hcur
  · have hnone := hr.absent hall hd
    have hold : ∀ x, curContent s t i = some x → versionOf x < c.version := by
      rcases hi with h | ⟨-, c₁, hc₁, -, hpast⟩
      · rw [h, hnone]
        simp
      · rw [hc, Option.some.injEq] at hc₁
        subst hc₁
        exact hpast
    rcases hvs with ⟨rfl, -⟩ | ⟨hlt, hrest⟩
    · refine Or.inl ?_
      rw [content_of_deletion hg hf hl hd hold, hnone]
    · exact Or.inr ⟨hnone, c, hrest, hd, content_of_earlier hg hf hl hlt hold⟩

/-! ### The replay -/

lemma replay_runs (hg : Good s.deltas) (hv : Increasing ds t) (hr : Reflects s₀ ds t)
    (fs : List Fetched) (hs : fs.flatMap Fetched.diffs <:+ ds)
    (hi : curContent s t i = curContent s₀ t i ∨ Pending s₀ s (fs.flatMap Fetched.diffs) t i) :
    curContent (runs s fs) t i = curContent s₀ t i := by
  induction fs generalizing s with
  | nil =>
    rcases hi with h | ⟨-, c, hc, -⟩
    · exact h
    · cases hc
  | cons f fs ih =>
    rw [List.flatMap_cons] at hs hi
    exact ih (good_runOnce hg f) ((List.suffix_append _ _).trans hs) (replay_step hg hv hr hs hi)

end Run

/-- **A replay converges**: if a dataset is as some diffs leave it, applying the last of them
again, however they are cut into runs, ends with every element as it was. -/
theorem replay_converges (b : Base) (gs : List Fetched) (ds : List Diff) (t : Typ)
    (hv : Increasing ds t) (hr : Reflects (runs (fresh b) gs) ds t) (fs : List Fetched)
    (hs : fs.flatMap Fetched.diffs <:+ ds) (i : ℤ) :
    curContent (runs (runs (fresh b) gs) fs) t i = curContent (runs (fresh b) gs) t i :=
  replay_runs (good_runs (good_fresh b) gs) hv hr fs hs (Or.inl rfl)

/-- The first diff creates a node, the second another and a new version of the first, the third
deletes the first. -/
def three : List Diff :=
  [diff 1 [change 2 1 (some ⟨1, 1⟩)] [] [],
   diff 2 [change 1 1 (some ⟨0, 0⟩), change 2 2 (some ⟨2, 2⟩)] [] [],
   diff 3 [deletion 2 3 none] [] []]

/-- The last two diffs again, in a run each. The first brings the deleted node back. -/
theorem replay_converges_in_two_runs :
    (curContent (runs (fresh ExtentFilter.lone.base) [⟨[three[1]], none⟩]) .node 2).isSome ∧
    ∀ i, curContent (runs (runs (fresh ExtentFilter.lone.base) [])
        [⟨[three[1]], none⟩, ⟨[three[2]], none⟩]) .node i =
      curContent (runs (fresh ExtentFilter.lone.base) []) .node i := by
  refine ⟨by decide, ?_⟩
  refine replay_converges ExtentFilter.lone.base [] three .node ?_ ?_ _ ?_
  · decide
  · have hb : parseBatch three .node =
        [{ deletion 2 3 none with seq := 3 }, { change 1 1 (some ⟨0, 0⟩) with seq := 2 }] := by rfl
    intro c hc
    rw [hb] at hc
    rcases List.mem_pair.mp hc with rfl | rfl <;> rfl
  · exact ⟨[three[0]], rfl⟩

end OsmParquet.Replay
