import OsmParquet.OneCell

/-!
The stored geometry of a way against the positions of its nodes.

A way is resolved again when it is in the batch and when a node of it is. The ways of a node
are found through the index of the base and through the refs of the tier rows. The index of the
base is never updated, so for a way that changed it may say too much, but for a way that is
still as the base has it it says everything.
-/

namespace OsmParquet.WayGeometry

open OsmParquet.KeyedList OsmParquet.Layers OsmParquet.Rows OsmParquet.Tiers OsmParquet.TierSteps
open OsmParquet.ByidReads OsmParquet.Updater OsmParquet.Resolves OsmParquet.PrevCells
open OsmParquet.SpatialReads OsmParquet.RunSteps OsmParquet.OneCell

/-- The current positions of the nodes of a way, in the order of its refs. -/
def curPts (s : Root) (refs : List ℤ) : List Point := refs.filterMap (curCoord s)

/-- The stored box and geometry of a way are those its nodes have now. -/
structure WayCurrent (s : Root) (c : WaySpatialCols) : Prop where
  bbox : c.byid.bbox = wayBBox (curPts s c.byid.refs)
  geometry : c.geometry = wayGeometry (curPts s c.byid.refs)

def WaysCurrent (s : Root) : Prop := ∀ i r, curSpatial s .way i = some r → WayCurrent s r.cols

/-- The boxes of the by-id copy are current. -/
def WayBoxesCurrent (s : Root) : Prop :=
  ∀ i r, cur s .way i = some r → r.cols.bbox = wayBBox (curPts s r.cols.refs)

lemma wayBoxesCurrent {s : Root} (ha : BaseAgrees s.base) (hw : WaysCurrent s) :
    WayBoxesCurrent s := by
  intro i r h
  rw [cur_eq_curSpatial ha] at h
  obtain ⟨x, hx, rfl⟩ := Option.map_eq_some_iff.mp h
  exact (hw i x hx).bbox

/-! ### The parents of a node -/

section Parents

variable {s : Root} {ids : List ℤ} {n i : ℤ}

/-- The parts that are read have the pairs of all ids asked for. -/
lemma mem_baseParentWays (h : ∃ p ∈ s.base.nodeWay, (n, i) ∈ p.rows) (hn : n ∈ ids) :
    i ∈ baseParentWays s ids := by
  obtain ⟨p, hp, hrow⟩ := h
  have hne : ids ≠ [] := List.ne_nil_of_mem hn
  obtain ⟨lo, hlo⟩ := Option.isSome_iff_exists.mp (List.isSome_min?_of_ne_nil hne)
  obtain ⟨hi, hhi⟩ := Option.isSome_iff_exists.mp (List.isSome_max?_of_ne_nil hne)
  have h1 : lo ≤ n := (List.min?_eq_some_iff.mp hlo).2 n hn
  have h2 : n ≤ hi := (List.max?_eq_some_iff.mp hhi).2 n hn
  have hr := p.inRange _ hrow
  simp only [baseParentWays, hlo, hhi, List.mem_filterMap, List.mem_flatMap, List.mem_filter]
  refine ⟨(n, i), ⟨p, ⟨hp, ?_⟩, hrow⟩, by simp [hn]⟩
  simp only [decide_eq_true_eq]
  omega

/-- The alive rows of the tiers. -/
lemma byId_alive (hg : Good s.deltas) (t : Typ) (i : ℤ) : byId i (s.alive t) =
    (winner s.deltas t i).bind fun r => (r.map byidCols).alive := by
  have hu : Distinct DeltaRow.id (rawView s.deltas t) := distinct_firstPerKey
  have h := byId_aliveRows hu i
  rw [deltaById_rawView hg, Option.bind_map] at h
  exact h

/-- A current row is an alive row of the tiers, or the base has it and the tiers say nothing. -/
lemma cur_cases (hg : Good s.deltas) {t : Typ} {r : Row (ByidCols t)} (h : cur s t i = some r) :
    r ∈ s.alive t ∨ r ∈ (s.base.byid t).rows := by
  rw [cur, current_eq] at h
  rcases hw : winner s.deltas t i with _ | x
  · rw [hw] at h
    exact Or.inr (mem_of_lookup h)
  · rw [hw] at h
    have ha : byId i (s.alive t) = some r := by rw [byId_alive hg, hw]; exact h
    exact Or.inl (mem_of_lookup ha)

/-- An alive row of the tiers is current. -/
lemma cur_of_mem_alive (hg : Good s.deltas) {t : Typ} {r : Row (ByidCols t)} (h : r ∈ s.alive t) :
    cur s t r.id = some r := by
  have hu : Distinct Row.id (s.alive t) := distinct_aliveRows distinct_firstPerKey
  have hl : byId r.id (s.alive t) = some r := hu.lookup_of_mem h
  rw [byId_alive hg] at hl
  obtain ⟨x, hx, hal⟩ := Option.bind_eq_some_iff.mp hl
  rw [cur, current_eq, hx]
  exact hal

/-- **A way that exists is found from each of its nodes.** -/
lemma mem_parentWays (hg : Good s.deltas) (hi : NodeWayCovers s.base) {r : Row WayCols}
    (h : cur s .way i = some r) (hn : n ∈ r.cols.refs) (hids : n ∈ ids) :
    i ∈ baseParentWays s ids ++ deltaParentWays s ids := by
  have hid : r.id = i := id_of_cur hg h
  rw [List.mem_append]
  rcases cur_cases hg h with ha | hb
  · refine Or.inr (hid ▸ List.mem_map_of_mem (List.mem_filter.mpr ⟨ha, ?_⟩))
    exact List.any_eq_true.mpr ⟨n, hn, decide_eq_true hids⟩
  · exact Or.inl (mem_baseParentWays (hid ▸ hi r hb n hn) hids)

/-- The touched ways are the kept ones and the existing parents of kept nodes. -/
lemma mem_wayIds {w : Work} (hg : Good w.root.deltas) : i ∈ w.wayIds ↔
    i ∈ (w.kept .way).map Change.id ∨
      i ∈ baseParentWays w.root ((w.kept .node).map Change.id) ++
        deltaParentWays w.root ((w.kept .node).map Change.id) ∧ (cur w.root .way i).isSome := by
  simp only [Work.wayIds, touchedWayIds]
  rw [List.mem_dedup, List.mem_append, mem_fetch_ids hg, List.mem_filter, decide_eq_true_eq]
  tauto

end Parents

/-! ### One run -/

section Step

variable {s : Root} {f : Fetched}

/-- A run resolves a way with the positions that hold after it. -/
lemma wayPts_eq (hg : Good s.deltas) (h : f.diffs ≠ []) {t : Touched (List ℤ)}
    (ht : t ∈ (workOf s f).touchedWays) (hd : t.deleted = false) :
    wayPts (workOf s f).nodeCoords t.body = curPts (runOnce s f) t.body := by
  refine List.filterMap_congr fun n hn => ?_
  have hneed : n ∈ Work.needed (workOf s f) := by
    simp only [Work.needed, List.mem_append, List.mem_flatMap, List.mem_filter]
    exact Or.inl (Or.inr ⟨t, ⟨ht, by simp [hd]⟩, hn⟩)
  rw [curCoord_runOnce hg h]
  exact coordOf_nodeCoords (w := workOf s f) hg (oneChange_keptOf s f) hneed

/-- A way that no run resolves has no node of the batch. -/
lemma curPts_of_untouched (hg : Good s.deltas) (h : f.diffs ≠ []) (hi : NodeWayCovers s.base)
    {i : ℤ} {r : Row WayCols} (hcur : cur s .way i = some r)
    (hrow : (tierRun s f).row .way i = none) :
    curPts (runOnce s f) r.cols.refs = curPts s r.cols.refs := by
  refine List.filterMap_congr fun n hn => ?_
  rw [curCoord_runOnce hg h, coordAfter]
  rcases hc : changeById n (keptOf s f .node) with _ | c
  · rfl
  exfalso
  have hid : c.id = n := key_of_lookup hc
  have hmem : n ∈ ((workOf s f).kept .node).map Change.id :=
    hid ▸ List.mem_map_of_mem (mem_of_lookup hc)
  have htouched : i ∈ (workOf s f).wayIds :=
    (mem_wayIds (w := workOf s f) hg).mpr
      (Or.inr ⟨mem_parentWays hg hi hcur hn hmem, Option.isSome_of_eq_some hcur⟩)
  rw [row_way hg, Option.map_eq_none_iff] at hrow
  have hnone := eq_none_of_touchedRow hrow htouched
  rw [hcur] at hnone
  cases hnone

/-- A way is not resolved and its nodes stay where they are, or it is resolved with the positions
that hold after the run. -/
lemma row_way_cases (hg : Good s.deltas) (h : f.diffs ≠ []) (hi : NodeWayCovers s.base) (i : ℤ) :
    ((tierRun s f).row .way i = none ∧ ∀ r, cur s .way i = some r →
        curPts (runOnce s f) r.cols.refs = curPts s r.cols.refs) ∨
      ∃ t, t.id = i ∧ (tierRun s f).row .way i =
        some (resolveWay s.base (workOf s f).nodeCoords t) ∧ (t.deleted = false →
          wayPts (workOf s f).nodeCoords t.body = curPts (runOnce s f) t.body) := by
  rcases hrow : (tierRun s f).row .way i with _ | x
  · exact Or.inl ⟨rfl, fun r hcur => curPts_of_untouched hg h hi hcur hrow⟩
  · have hx := row_way (f := f) hg i
    rw [hrow] at hx
    obtain ⟨t, ht, rfl⟩ := Option.map_eq_some_iff.mp hx.symm
    have hlook := lookup_touchedWays (w := workOf s f) hg i
    exact Or.inr ⟨t, key_of_lookup (hlook.trans ht), rfl, fun hd =>
      wayPts_eq hg h (mem_of_lookup (hlook.trans ht)) hd⟩

/-- **A run keeps the geometry of all ways current.** -/
theorem waysCurrent_runOnce (hg : Good s.deltas) (ha : BaseAgrees s.base)
    (hi : NodeWayCovers s.base) (hw : WaysCurrent s) : WaysCurrent (runOnce s f) := by
  by_cases h : f.diffs = []
  · rwa [runOnce_of_nil h]
  intro i r hr
  rw [curSpatial_runOnce hg h] at hr
  rcases row_way_cases hg h hi i with ⟨hrow, hpts⟩ | ⟨t, -, hrow, hpts⟩
  · rw [hrow] at hr
    have hcur : cur s .way i = some (r.map byidCols) := by
      rw [cur_eq_curSpatial ha]; exact congrArg _ hr
    have hc := hw i r hr
    refine ⟨?_, ?_⟩
    · rw [hc.bbox]; exact congrArg wayBBox (hpts _ hcur).symm
    · rw [hc.geometry]; exact congrArg wayGeometry (hpts _ hcur).symm
  · rw [hrow] at hr
    rcases hd : t.deleted with _ | _
    · simp only [resolveWay, hd] at hr
      cases hr
      exact ⟨congrArg wayBBox (hpts hd), congrArg wayGeometry (hpts hd)⟩
    · simp [resolveWay, hd, deletedRow, DeltaRow.alive] at hr

end Step

/-! ### All runs -/

lemma waysCurrent_runs {s : Root} (hg : Good s.deltas) (ha : BaseAgrees s.base)
    (hi : NodeWayCovers s.base) (hw : WaysCurrent s) (fs : List Fetched) :
    WaysCurrent (runs s fs) := by
  induction fs generalizing s with
  | nil => exact hw
  | cons f fs ih =>
    have hb := base_runOnce s f
    refine ih (good_runOnce hg f) ?_ ?_ (waysCurrent_runOnce hg ha hi hw)
    · rw [hb]; exact ha
    · rw [hb]; exact hi

/-- **The geometry of every way is current after every sequence of runs**: both copies of the
way have the box, and the spatial copy has the points, that the current positions of its nodes
give. -/
theorem way_geometry_current (b : Base) (ha : BaseAgrees b) (hi : NodeWayCovers b)
    (hw : WaysCurrent (fresh b)) (fs : List Fetched) (i : ℤ) :
    (∀ r, curSpatial (runs (fresh b) fs) .way i = some r → WayCurrent (runs (fresh b) fs) r.cols) ∧
      ∀ r, cur (runs (fresh b) fs) .way i = some r →
        r.cols.bbox = wayBBox (curPts (runs (fresh b) fs) r.cols.refs) := by
  have hall := waysCurrent_runs (good_fresh b) ha hi hw fs
  have ha' := baseAgrees_runs ha fs
  exact ⟨hall i, wayBoxesCurrent ha' hall i⟩

/-! ### A way over two nodes -/

/-- Two nodes and the way between them. -/
def street : World where
  rows
    | .node => [node 1 ⟨0, 0⟩, node 2 ⟨10, 20⟩]
    | .way => [way 1 [1, 2] [⟨0, 0⟩, ⟨10, 20⟩]]
    | .relation => []
  once t := by cases t <;> simp [Distinct, node, way]
  placed t := by cases t <;> simp [node, way]
  refs := by simp [way]

lemma waysCurrent_street : WaysCurrent (fresh street.base) := by
  intro i r hr
  have hmem := mem_of_curSpatial _ hr
  simp only [street, List.mem_singleton] at hmem
  subst hmem
  exact ⟨by decide, by decide⟩

/-- When only the second node moves, the way moves with it. -/
theorem street_follows_node : BaseAgrees street.base ∧ NodeWayCovers street.base ∧
    WaysCurrent (fresh street.base) ∧
    (∀ r, cur (runs (fresh street.base)
      [⟨[diff 1 [change 2 2 (some ⟨30, 40⟩)] [] []], some 0⟩]) .way 1 = some r →
        r.cols.bbox = wayBBox (curPts (runs (fresh street.base)
          [⟨[diff 1 [change 2 2 (some ⟨30, 40⟩)] [] []], some 0⟩]) r.cols.refs)) ∧
    ((cur (runs (fresh street.base)
      [⟨[diff 1 [change 2 2 (some ⟨30, 40⟩)] [] []], some 0⟩]) .way 1).bind fun r => r.cols.bbox) =
        some ⟨0, 0, 30, 40⟩ := by
  refine ⟨baseAgrees _, nodeWayCovers _, waysCurrent_street, ?_, by decide⟩
  exact (way_geometry_current _ (baseAgrees _) (nodeWayCovers _) waysCurrent_street _ 1).2

end OsmParquet.WayGeometry
