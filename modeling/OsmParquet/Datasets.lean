import OsmParquet.Compact
import OsmParquet.HistoryBatch
import OsmParquet.HistoryCompact
import OsmParquet.Traces

/-!
A dataset under the commands that change it.

A base is built without history; `history build` gives it one, with no history tiers, and leaves
the delta tiers as they are; compaction starts both stacks again. A run writes the history tiers
by the crossings of the delta tiers, so a history that is built over an hour tier has nothing to
fold when the next run crosses the hour.
-/

namespace OsmParquet.Datasets

open OsmParquet.KeyedList OsmParquet.Rows OsmParquet.Tiers OsmParquet.TierSteps
open OsmParquet.Updater OsmParquet.Resolves OsmParquet.PrevCells OsmParquet.SpatialReads
open OsmParquet.RunSteps OsmParquet.OneCell OsmParquet.HistoryTiers OsmParquet.Snapshots
open OsmParquet.HistoryBatch OsmParquet.Traces

structure Dataset where
  root : Root
  history : Option HistoryRoot

/-- A run; `none` when it fails and publishes nothing. -/
def update (d : Dataset) (f : Fetched) : Option Dataset :=
  if f.diffs = [] then some d
  else
    match d.history with
    | none => some { d with root := runOnce d.root f }
    | some h =>
      (runHistory ⟨d.root.deltas, h.tiers⟩ (historyRun d.root h f)).map fun s =>
        ⟨{ d.root with deltas := s.deltas }, some { h with tiers := s.history }⟩

/-- The commands. What `history build` makes of its input, and the indexes that compaction
rebuilds, are given. -/
inductive Command where
  | build (base : Base)
  | update (f : Fetched)
  | historyBuild (byid : (t : Typ) → HistoryParts (ByidCols t))
      (spatial : (t : Typ) → HistoryCells (SpatialCols t))
  | compact (nodeWay : List IndexPart) (member : List MemberRow)

def built (b : Base) : Dataset := ⟨fresh b, none⟩

def execute (d : Dataset) : Command → Option Dataset
  | .build base => some (built base)
  | .update f => update d f
  | .historyBuild byid spatial => some { d with history := some ⟨byid, spatial, History.empty⟩ }
  | .compact nodeWay member =>
    some
      { root := fresh { d.root.base with toTables := Compact.compact d.root, nodeWay, member }
        history := d.history.map HistoryCompact.compactHistory }

/-! ### The hour tiers -/

section Hour

variable {d : Deltas} {r : TierRun} {h h' : History} {batch : (t : Typ) → HistoryFiles t}
  {a b : ℤ} {ts : Option ℤ} {hc dc : Bool}

lemma hour_of_crossed (hx : (tierCrossings d ts).1 = true) : d.hour.isSome = true := by
  rcases hh : d.hour with _ | m
  · simp [tierCrossings, hh, crossed] at hx
  · rfl

/-- A run without rows starts no hour tier. -/
lemma hour_of_empty (he : r.Empty) (hs : (runTiers d r).hour.isSome = true) :
    d.hour.isSome = true := by
  rcases hh : d.hour with _ | m
  · have hnone : (runTiers d r).hour = none := by
      have hz : ∀ t, (batchFiles r.resolved t).byid = [] := fun t => by simp [batchFiles, he t]
      simp [runTiers, writeTiers, hh, writeHour, mergeType, writeTierVersion, hz]
    rw [hnone] at hs
    exact hs
  · rfl

/-- The roll of the history tiers fails exactly if there is no hour tier to fold. -/
lemma writeHistoryTiers_isSome :
    (writeHistoryTiers h batch a b ts hc dc).isSome = true ↔
    (hc = true → h.hour.isSome = true) := by
  cases hc with
  | false => simp [writeHistoryTiers]
  | true => simp [writeHistoryTiers]

/-- With rows in the batch there is an hour tier after it. -/
lemma hour_of_writeHistoryTiers (hne : totalByid batch ≠ 0)
    (hw : writeHistoryTiers h batch a b ts hc dc = some h') : h'.hour.isSome = true := by
  cases hc with
  | false =>
    simp only [writeHistoryTiers, Bool.not_false, if_true, Option.some.injEq] at hw
    subst hw
    rcases hh : h.hour with _ | m
    · simp [historyAppend, writeHistoryTierVersion, hne]
    · simp
  | true =>
    simp only [writeHistoryTiers, Bool.not_true, Bool.false_eq_true, if_false] at hw
    obtain ⟨m, -, rfl⟩ := Option.map_eq_some_iff.mp hw
    split <;> simp [write_of_rows hne]

end Hour

/-! ### Commands -/

/-- Whether the history stands over an hour tier and has had no rows yet. -/
def bareAfter (bare : Bool) (d : Dataset) : Command → Bool
  | .build _ => false
  | .update f => bare && (f.diffs.isEmpty || decide (tierRun d.root f).Empty)
  | .historyBuild _ _ => d.root.deltas.hour.isSome
  | .compact _ _ => false

/-- A run that resolves some row and crosses the hour. -/
def CrossesHour (d : Dataset) : Command → Prop
  | .update f => f.diffs ≠ [] ∧ ¬ (tierRun d.root f).Empty ∧
      (tierCrossings d.root.deltas f.timestamp).1 = true
  | _ => False

/-- No run crosses the hour with rows while the history stands bare over the hour tier. -/
def Covered : Bool → Dataset → List Command → Prop
  | _, _, [] => True
  | bare, d, c :: cs => ¬ (bare = true ∧ CrossesHour d c) ∧
      ∀ d' ∈ execute d c, Covered (bareAfter bare d c) d' cs

/-- The hour tiers of the two stacks. -/
structure Level (bare : Bool) (d : Dataset) : Prop where
  good : Good d.root.deltas
  none_of_bare : bare = true → ∃ h, d.history = some h ∧ h.tiers.hour = none
  hour : bare = false → ∀ h, d.history = some h → d.root.deltas.hour.isSome = true →
    h.tiers.hour.isSome = true

section Step

variable {bare : Bool} {d d' : Dataset} {f : Fetched} {h : HistoryRoot}

/-- A run that resolves nothing has no history rows. -/
lemma empty_iff_hasRows (hg : Good d.root.deltas) :
    (historyRun d.root h f).hasRows = true ↔ ¬ (tierRun d.root f).Empty := by
  refine ⟨fun hr he => ?_, hasRows_of_resolved hg⟩
  have hnil : ∀ t, buildHistoryBatch d.root h f t = [] := by
    intro t
    rw [buildHistoryBatch_eq]
    refine List.append_eq_nil_iff.mpr ⟨List.eq_nil_iff_forall_not_mem.mpr fun x hx => ?_,
      List.eq_nil_iff_forall_not_mem.mpr fun x hx => ?_⟩
    · obtain ⟨b, -, r, hrow, -⟩ := mem_historyOwn.mp hx
      rw [row_of_empty he] at hrow
      cases hrow
    · obtain ⟨r, c, hrow, -⟩ := (mem_historyMinor hg).mp hx
      rw [row_of_empty he] at hrow
      cases hrow
  simp [HistoryRun.hasRows, HistoryRun.files, historyRun, totalByid,
    finalizeHistoryBatch, hnil] at hr

/-- **When a run fails on a root with history**: it has rows, crosses the hour, and there is no
history hour tier. -/
lemma update_isSome (hg : Good d.root.deltas) (hd : f.diffs ≠ []) (hh : d.history = some h) :
    (update d f).isSome = true ↔
      (CrossesHour d (.update f) → h.tiers.hour.isSome = true) := by
  rw [update, if_neg hd]
  simp only [hh, Option.isSome_map, runHistory, CrossesHour, ← empty_iff_hasRows (h := h) hg]
  split
  · rename_i hr
    rw [Option.isSome_map, writeHistoryTiers_isSome]
    simp only [hd, hr, ne_eq, not_false_eq_true, true_and]
    rfl
  · rename_i hr
    simp [hr]

lemma update_good (hg : Good d.root.deltas) (hu : update d f = some d') : Good d'.root.deltas := by
  unfold update at hu
  split at hu
  · cases hu
    exact hg
  · split at hu
    · cases hu
      exact good_runOnce hg f
    · obtain ⟨s, hs, rfl⟩ := Option.map_eq_some_iff.mp hu
      show Good s.deltas
      rw [runHistory_deltas hs]
      exact good_runTiers hg (oneRow_tierRun hg f)

/-- What a run leaves of the hour tiers. -/
lemma update_hour (hg : Good d.root.deltas) (hd : f.diffs ≠ []) (hh : d.history = some h)
    (hu : update d f = some d') : ∃ h', d'.history = some h' ∧
      (¬ (tierRun d.root f).Empty → h'.tiers.hour.isSome = true) ∧
      ((tierRun d.root f).Empty → h'.tiers = h.tiers ∧
        (d'.root.deltas.hour.isSome = true → d.root.deltas.hour.isSome = true)) := by
  rw [update, if_neg hd] at hu
  simp only [hh] at hu
  obtain ⟨s, hs, rfl⟩ := Option.map_eq_some_iff.mp hu
  refine ⟨_, rfl, fun hne => ?_, fun he => ?_⟩
  · have hr := (empty_iff_hasRows (h := h) hg).mpr hne
    rw [runHistory, if_pos hr] at hs
    obtain ⟨x, hx, rfl⟩ := Option.map_eq_some_iff.mp hs
    refine hour_of_writeHistoryTiers ?_ hx
    simpa [HistoryRun.hasRows] using hr
  · have hr : ¬ (historyRun d.root h f).hasRows = true := fun hr =>
      (empty_iff_hasRows hg).mp hr he
    rw [runHistory, if_neg hr] at hs
    cases hs
    exact ⟨rfl, hour_of_empty he⟩

lemma level_update (hl : Level bare d) (hu : update d f = some d') :
    Level (bareAfter bare d (.update f)) d' := by
  by_cases hd : f.diffs = []
  · rw [update, if_pos hd] at hu
    cases hu
    simpa [bareAfter, hd] using hl
  have hgood := update_good hl.good hu
  rcases hh : d.history with _ | h
  · -- without history nothing is bare
    have hbare : bare = false := by
      by_contra hb
      obtain ⟨h, hsome, -⟩ := hl.none_of_bare (Bool.of_not_eq_false hb)
      rw [hh] at hsome
      cases hsome
    rw [update, if_neg hd] at hu
    simp only [hh] at hu
    cases hu
    refine ⟨hgood, fun hb => ?_, fun _ h hsome => ?_⟩
    · simp [bareAfter, hbare] at hb
    · cases hsome
  · obtain ⟨h', hh', hrows, hempty⟩ := update_hour hl.good hd hh hu
    refine ⟨hgood, fun hb => ⟨h', hh', ?_⟩, fun hb x hx hsome => ?_⟩
    · simp only [bareAfter, Bool.and_eq_true, Bool.or_eq_true, List.isEmpty_iff, hd, false_or,
        decide_eq_true_eq] at hb
      obtain ⟨y, hy, hnone⟩ := hl.none_of_bare hb.1
      rw [hh] at hy
      cases hy
      rw [(hempty hb.2).1]
      exact hnone
    · rw [hh'] at hx
      cases hx
      by_cases he : (tierRun d.root f).Empty
      · have hbare : bare = false := by simpa [bareAfter, he] using hb
        rw [(hempty he).1]
        exact hl.hour hbare h hh ((hempty he).2 hsome)
      · exact hrows he

/-- Without delta tiers nothing can be crossed. -/
lemma level_of_empty (he : d.root.deltas = Deltas.empty) : Level false d := by
  refine ⟨he ▸ good_empty, fun hb => (Bool.false_ne_true hb).elim, fun _ h _ hsome => ?_⟩
  rw [he] at hsome
  cases hsome

lemma level_step {c : Command} (hl : Level bare d) (he : execute d c = some d') :
    Level (bareAfter bare d c) d' := by
  cases c with
  | build base =>
    cases he
    exact level_of_empty rfl
  | update f => exact level_update hl he
  | historyBuild byid spatial =>
    cases he
    refine ⟨hl.good, fun _ => ⟨_, rfl, rfl⟩, fun hb x _ hsome => ?_⟩
    rw [show d.root.deltas.hour.isSome = false from hb] at hsome
    cases hsome
  | compact nodeWay member =>
    cases he
    exact level_of_empty rfl

/-- A command fails exactly if it is a run that crosses the hour while the history is bare. -/
lemma execute_isSome {c : Command} (hl : Level bare d) :
    (execute d c).isSome = true ↔ ¬ (bare = true ∧ CrossesHour d c) := by
  cases c with
  | build | historyBuild | compact => simp [execute, CrossesHour]
  | update f =>
    by_cases hd : f.diffs = []
    · simp [execute, update, CrossesHour, hd]
    rcases hh : d.history with _ | h
    · have hbare : ¬ bare = true := fun hb => by
        obtain ⟨h, hsome, -⟩ := hl.none_of_bare hb
        rw [hh] at hsome
        cases hsome
      simp [execute, update, hd, hh, hbare]
    · rw [execute, update_isSome hl.good hd hh]
      cases bare with
      | false =>
        simp only [Bool.false_eq_true, false_and, not_false_eq_true, iff_true]
        exact fun hc => hl.hour rfl h hh (hour_of_crossed hc.2.2)
      | true =>
        obtain ⟨x, hx, hnone⟩ := hl.none_of_bare rfl
        rw [hh] at hx
        cases hx
        simp [hnone]

end Step

lemma covered_iff {bare : Bool} {d : Dataset} (hl : Level bare d) (cs : List Command) :
    (play execute d cs).isSome = true ↔ Covered bare d cs := by
  induction cs generalizing bare d with
  | nil => simp [Covered]
  | cons c cs ih =>
    rw [play_cons, Covered, ← execute_isSome hl]
    rcases he : execute d c with _ | d'
    · simp
    · simpa using ih (level_step hl he)

/-- **When no command fails.** After a build, a sequence of commands runs to its end exactly if no
run with rows crosses the hour between a `history build` over an hour tier and the next run with
rows, compaction or build. -/
theorem commands_complete_iff (b : Base) (cs : List Command) :
    (play execute (built b) cs).isSome = true ↔ Covered false (built b) cs :=
  covered_iff (level_of_empty rfl) cs

/-- A history of nothing yet. -/
def noHistory : Command := .historyBuild (fun _ => .empty) fun _ => .empty

/-- A move at half past nine, `history build`, and a move at half past ten. -/
theorem history_over_hour_tier_fails : ∃ d, play execute (built oneNode)
    [.update (moveNode 1 2 ⟨450000000, 900000000⟩ 34200), noHistory] = some d ∧
      execute d (.update (moveNode 2 3 ⟨450000000, -900000000⟩ 37800)) = none := by
  refine ⟨_, rfl, ?_⟩
  exact Option.isNone_iff_eq_none.mp (by decide)

end OsmParquet.Datasets
