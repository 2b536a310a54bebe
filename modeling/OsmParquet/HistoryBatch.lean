import Mathlib.Data.List.ReduceOption
import OsmParquet.Batching
import OsmParquet.Snapshots

/-!
The history rows of a run.

On a root with history a run also writes the states its batch brings. Every newer version of a
kept element is one, with the body and the tags the diff gives it; its cell and what is derived of
its geometry are those of the last version. A way or relation that is only touched gets a state
too, with its version as it is and the next minor version. It begins when the last of its refs or
members in the batch was edited, or else at the time of the batch.
-/

namespace OsmParquet.HistoryBatch

open OsmParquet.KeyedList OsmParquet.Rows OsmParquet.Tiers OsmParquet.TierSteps
open OsmParquet.Updater OsmParquet.Resolves OsmParquet.RunSteps OsmParquet.Batching
open OsmParquet.ExtentFilter OsmParquet.HistoryTiers OsmParquet.Snapshots

/-! ### The versions of the batch -/

/-- The current rows the extent filter has fetched. -/
def existing (s : Root) (batch : Batch) : (t : Typ) → List (Row (ByidCols t))
  | .node => existsNode s batch
  | .way => existsWay s batch
  | .relation => existsRelation s batch

/-- Every version of a kept element that is newer than its current row. -/
def historyAll (s : Root) (f : Fetched) (t : Typ) : List (Change (Body t)) :=
  (allChanges f.diffs t).filter fun a =>
    decide (a.id ∈ (keptOf s f t).map Change.id) &&
      match byId a.id (existing s (batchOf s f) t) with
      | none => true
      | some p => a.version > (attrs p.cols).version

/-- The columns of a version: its own, and what was resolved of the last version. Where that one
is deleted there is nothing resolved, and what is NULL then and has no NULL here is zero. -/
def ownCols (s : Root) : {t : Typ} → Option (SpatialCols t) → Change (Body t) → SpatialCols t
  | .node, c, b => ⟨b.body, changeAttrs s b, c.elim 0 NodeCols.hilbert⟩
  | .way, c, b =>
    ⟨⟨b.body, changeAttrs s b, c.bind fun c => c.byid.bbox, c.any fun c => c.byid.isClosed,
      c.any fun c => c.byid.isArea, c.elim 0 fun c => c.byid.hilbert⟩,
      c.bind WaySpatialCols.geometry, c.bind WaySpatialCols.centroid⟩
  | .relation, c, b =>
    ⟨⟨b.body, changeAttrs s b, c.bind fun c => c.byid.bbox⟩, c.bind RelationSpatialCols.centroid,
      c.elim 0 RelationSpatialCols.hilbert⟩

def colsVersion {t : Typ} (c : SpatialCols t) : ℤ := (attrs (byidCols c)).version

/-- The state of a version `b`, given the row `r` that the run resolved of the element. -/
def ownState {t : Typ} (s : Root) (r : DeltaRow (SpatialCols t)) (b : Change (Body t)) :
    HistoryState (SpatialCols t) where
  row :=
    { id := b.id
      version := some b.version
      minor := 0
      timestamp := b.timestamp
      validFrom := b.timestamp
      validTo := none
      visible := !b.deleted
      cell := if b.deleted then r.prevCell else r.cell
      cols := if b.deleted then none else some (ownCols s r.cols b) }
  prevCell := if r.cols.map colsVersion = some b.version then r.prevCell else none

def historyOwn (s : Root) (f : Fetched) (t : Typ) : List (HistoryState (SpatialCols t)) :=
  (historyAll s f t).filterMap fun b => (deltaById b.id (resolvedOf s f t)).map fun r =>
    ownState s r b

/-! ### Minor versions -/

/-- The ids that are touched and are not in the kept batch. -/
def historyTouchedOnlyIds {β : Type} (touched : List ℤ) (kept : List (Change β)) : List ℤ :=
  touched.filter fun i => i ∉ kept.map Change.id

/-- When the refs or members of a row that are in the kept batch were edited. -/
def minorDepTs (kept : Batch) : {t : Typ} → SpatialCols t → List (Option ℤ)
  | .node, _ => []
  | .way, c => c.byid.refs.filterMap fun ref => (changeById ref (kept .node)).map Change.timestamp
  | .relation, c =>
    c.byid.members.filterMap fun m => (changeById m.ref (kept m.type)).map Change.timestamp

def minorValidFrom {t : Typ} (kept : Batch) (batchTimestamp : Option ℤ) (c : SpatialCols t) :
    Option ℤ := (minorDepTs kept c).reduceOption.max?.or batchTimestamp

/-- The base rows of the parts that meet the range of `ids`. -/
def selectParts {α : Type} (h : HistoryParts α) (ids : List ℤ) : List (HistoryRow α) :=
  match ids.min?, ids.max? with
  | some lo, some hi =>
    (h.parts.filter fun p => ¬ (p.maxId < lo ∨ p.minId > hi)).flatMap HistoryPart.rows
  | _, _ => []

/-- The last minor version there is of a version of an element. -/
def historyPrevMinor (h : HistoryRoot) (t : Typ) (ids : List ℤ) (i version : ℤ) : Option ℤ :=
  ((tierByidRows h.tiers t ++ selectParts (h.byid t) ids).filterMap fun r =>
    if r.id = i ∧ r.version = some version then some r.minor else none).max?

/-- The attributes with the promoted columns taken out of the tags once more. -/
def repromote (s : Root) (a : Attrs) : Attrs :=
  { a with promoted := s.base.promotedKeys.map (tagValue a.tags) }

def repromoteCols (s : Root) : {t : Typ} → SpatialCols t → SpatialCols t
  | .node, c => { c with attrs := repromote s c.attrs }
  | .way, c => { c with byid := { c.byid with attrs := repromote s c.byid.attrs } }
  | .relation, c => { c with byid := { c.byid with attrs := repromote s c.byid.attrs } }

/-- The state of an element that is only touched. -/
def minorState {t : Typ} (s : Root) (h : HistoryRoot) (f : Fetched) (ids : List ℤ)
    (r : DeltaRow (SpatialCols t)) (c : SpatialCols t) : HistoryState (SpatialCols t) where
  row :=
    { id := r.id
      version := some (colsVersion c)
      minor := (historyPrevMinor h t ids r.id (colsVersion c)).getD 0 + 1
      timestamp := (attrs (byidCols c)).timestamp
      validFrom := minorValidFrom (keptOf s f) f.timestamp c
      validTo := none
      visible := true
      cell := r.cell
      cols := some (repromoteCols s c) }
  prevCell := r.prevCell

def historyMinor (s : Root) (h : HistoryRoot) (f : Fetched) (t : Typ) (touched : List ℤ) :
    List (HistoryState (SpatialCols t)) :=
  let ids := historyTouchedOnlyIds touched (keptOf s f t)
  ((resolvedOf s f t).filter fun r => !r.deleted && decide (r.id ∈ ids)).filterMap fun r =>
    r.cols.map (minorState s h f ids r)

def historyNode (s : Root) (f : Fetched) : List (HistoryState NodeCols) := historyOwn s f .node

def historyWay (s : Root) (h : HistoryRoot) (f : Fetched) : List (HistoryState WaySpatialCols) :=
  historyOwn s f .way ++ historyMinor s h f .way (workOf s f).wayIds

def historyRelation (s : Root) (h : HistoryRoot) (f : Fetched) :
    List (HistoryState RelationSpatialCols) :=
  historyOwn s f .relation ++ historyMinor s h f .relation (workOf s f).relationIds

def buildHistoryBatch (s : Root) (h : HistoryRoot) (f : Fetched) : HistoryTiers.HistoryBatch
  | .node => historyNode s f
  | .way => historyWay s h f
  | .relation => historyRelation s h f

/-- The run with its history batch. -/
def historyRun (s : Root) (h : HistoryRoot) (f : Fetched) : HistoryRun :=
  ⟨tierRun s f, buildHistoryBatch s h f⟩

/-! ### The states of one element -/

section States

variable {s : Root} {h : HistoryRoot} {f : Fetched} {t : Typ}

lemma byId_existing (hg : Good s.deltas) {b : Change (Body t)}
    (hb : b.id ∈ (keptOf s f t).map Change.id) :
    byId b.id (existing s (batchOf s f) t) = cur s t b.id := by
  obtain ⟨c, hc, hid⟩ := List.mem_map.mp hb
  have hin : b.id ∈ (batchOf s f t).map Change.id := hid ▸ List.mem_map_of_mem (mem_of_kept hc)
  cases t with
  | node =>
    refine (byId_fetch hg _).trans (if_pos ?_)
    simp only [List.mem_append]
    exact .inl (.inl hin)
  | way =>
    refine (byId_fetch hg _).trans (if_pos ?_)
    exact List.mem_append_left _ hin
  | relation =>
    refine (byId_fetch hg _).trans (if_pos ?_)
    exact List.mem_append_left _ hin

/-- **The versions of a run**: the newer ones of the elements it keeps. -/
lemma mem_historyAll (hg : Good s.deltas) {b : Change (Body t)} : b ∈ historyAll s f t ↔
    b ∈ allChanges f.diffs t ∧ b.id ∈ (keptOf s f t).map Change.id ∧ newer s b = true := by
  simp only [historyAll, List.mem_filter, Bool.and_eq_true, decide_eq_true_eq]
  refine and_congr_right fun _ => and_congr_right fun hb => ?_
  rw [byId_existing hg hb]
  unfold newer
  cases cur s t b.id <;> rfl

lemma mem_historyAll_of_kept (hg : Good s.deltas) {c : Change (Body t)} (hc : c ∈ keptOf s f t) :
    c ∈ historyAll s f t := by
  obtain ⟨hp, hn, -⟩ := (mem_keptOf hg).mp hc
  refine (mem_historyAll hg).mpr ⟨?_, List.mem_map_of_mem hc, hn⟩
  exact List.mem_reverse.mp (mem_of_lookup (mem_firstPerKey.mp hp))

/-- The touched ids beside the kept ones; a node is never only touched. -/
def touchedIds (s : Root) (f : Fetched) : Typ → List ℤ
  | .node => []
  | .way => (workOf s f).wayIds
  | .relation => (workOf s f).relationIds

lemma buildHistoryBatch_eq (s : Root) (h : HistoryRoot) (f : Fetched) (t : Typ) :
    buildHistoryBatch s h f t = historyOwn s f t ++ historyMinor s h f t (touchedIds s f t) := by
  cases t with
  | node =>
    rw [historyMinor, List.filter_eq_nil_iff.mpr, List.filterMap_nil, List.append_nil]
    · rfl
    · intro r _
      simp [historyTouchedOnlyIds, touchedIds]
  | way => rfl
  | relation => rfl

lemma touchedRow_cases {α β : Type} {kept : List (Change β)} {ids : List ℤ}
    {now : ℤ → Option (Row α)} {asIs : Row α → Touched β} {i : ℤ} {x : Touched β}
    (hx : touchedRow s kept ids now asIs i = some x) :
    (∃ c, changeById i kept = some c ∧
        x = ⟨c.id, c.body, changeAttrs s c, c.deleted, c.seq, (now i).bind Row.cell⟩) ∨
      (changeById i kept = none ∧ i ∈ ids ∧ ∃ p, now i = some p ∧ x = asIs p) := by
  unfold touchedRow at hx
  split at hx
  · rename_i c hc
    cases hx
    exact .inl ⟨c, hc, rfl⟩
  · rename_i hk
    split at hx
    · rename_i hin
      obtain ⟨p, hp, rfl⟩ := Option.map_eq_some_iff.mp hx
      exact .inr ⟨hk, hin, p, hp, rfl⟩
    · cases hx

/-- **What a run resolves**: what it keeps, and of what it only touches the current row. -/
lemma row_cases (hg : Good s.deltas) {i : ℤ} {r : DeltaRow (SpatialCols t)}
    (hr : (tierRun s f).row t i = some r) :
    (∃ c, changeById i (keptOf s f t) = some c ∧ r.deleted = c.deleted) ∨
      (changeById i (keptOf s f t) = none ∧ i ∈ touchedIds s f t ∧ r.deleted = false) := by
  cases t with
  | node =>
    rw [row_node] at hr
    obtain ⟨c, hc, rfl⟩ := Option.map_eq_some_iff.mp hr
    exact .inl ⟨c, hc, resolveNode_deleted _ _ _⟩
  | way =>
    rw [row_way hg] at hr
    obtain ⟨x, hx, rfl⟩ := Option.map_eq_some_iff.mp hr
    rw [resolveWay_deleted]
    rcases touchedRow_cases hx with ⟨c, hc, rfl⟩ | ⟨hk, hin, p, -, rfl⟩
    · exact .inl ⟨c, hc, rfl⟩
    · exact .inr ⟨hk, hin, rfl⟩
  | relation =>
    rw [row_relation hg] at hr
    obtain ⟨x, hx, rfl⟩ := Option.map_eq_some_iff.mp hr
    rw [resolveRelation_deleted]
    rcases touchedRow_cases hx with ⟨c, hc, rfl⟩ | ⟨hk, hin, p, -, rfl⟩
    · exact .inl ⟨c, hc, rfl⟩
    · exact .inr ⟨hk, hin, rfl⟩

lemma mem_historyOwn {x : HistoryState (SpatialCols t)} : x ∈ historyOwn s f t ↔
    ∃ b ∈ historyAll s f t, ∃ r, (tierRun s f).row t b.id = some r ∧ ownState s r b = x := by
  simp only [historyOwn, List.mem_filterMap, Option.map_eq_some_iff]
  rfl

/-- **The minor versions of a run**, one for each row that is only touched. -/
lemma mem_historyMinor (hg : Good s.deltas) {touched : List ℤ} {x : HistoryState (SpatialCols t)} :
    x ∈ historyMinor s h f t touched ↔ ∃ r c, (tierRun s f).row t r.id = some r ∧
      r.deleted = false ∧ r.cols = some c ∧ r.id ∈ touched ∧ changeById r.id (keptOf s f t) = none ∧
      minorState s h f (historyTouchedOnlyIds touched (keptOf s f t)) r c = x := by
  have hmem : ∀ r, (tierRun s f).row t r.id = some r ↔ r ∈ resolvedOf s f t := fun r =>
    ((resolvedFor_resolvedOf hg f).once t).lookup_eq_some.trans (and_iff_left rfl)
  have honly : ∀ i, i ∈ historyTouchedOnlyIds touched (keptOf s f t) ↔
      i ∈ touched ∧ changeById i (keptOf s f t) = none := by
    intro i
    rw [changeById, lookup_eq_none]
    simp [historyTouchedOnlyIds]
  simp only [historyMinor, List.mem_filterMap, List.mem_filter, Bool.and_eq_true,
    Bool.not_eq_eq_eq_not, Bool.not_true, decide_eq_true_eq, Option.map_eq_some_iff, honly, hmem]
  constructor
  · rintro ⟨r, ⟨hr, hd, ht, hk⟩, c, hc, hx⟩
    exact ⟨r, c, hr, hd, hc, ht, hk, hx⟩
  · rintro ⟨r, c, hr, hd, hc, ht, hk, hx⟩
    exact ⟨r, ⟨hr, hd, ht, hk⟩, c, hc, hx⟩

/-- **A run that resolves a row has a history row.** -/
lemma hasRows_of_resolved (hg : Good s.deltas) (he : ¬ (tierRun s f).Empty) :
    (historyRun s h f).hasRows = true := by
  obtain ⟨t, ht⟩ := not_forall.mp he
  obtain ⟨r, hr⟩ := List.exists_mem_of_ne_nil _ ht
  have hrow : (tierRun s f).row t r.id = some r :=
    ((resolvedFor_resolvedOf hg f).once t).lookup_of_mem hr
  have hstate : buildHistoryBatch s h f t ≠ [] := by
    rw [buildHistoryBatch_eq]
    rcases row_cases hg hrow with ⟨c, hc, -⟩ | ⟨hk, hin, hd⟩
    · have hid : c.id = r.id := key_of_lookup hc
      refine List.ne_nil_of_mem (List.mem_append_left _ (mem_historyOwn.mpr
        ⟨c, mem_historyAll_of_kept hg (mem_of_lookup hc), r, ?_, rfl⟩))
      rw [hid]
      exact hrow
    · obtain ⟨hc, -⟩ := (resolvedFor_resolvedOf hg f).live t r hr hd
      obtain ⟨c, hc⟩ := Option.isSome_iff_exists.mp hc
      exact List.ne_nil_of_mem (List.mem_append_right _ ((mem_historyMinor hg).mpr
        ⟨r, c, hrow, hd, hc, hin, hk, rfl⟩))
  rw [HistoryRun.hasRows, decide_eq_true_eq]
  intro h0
  have hnil := byid_nil_of_totalByid h0 t
  exact hstate (List.map_eq_nil_iff.mp hnil)

end States

end OsmParquet.HistoryBatch
