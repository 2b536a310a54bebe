import OsmParquet.SpatialReads

/-!
What a run does to the current rows.

Of every element the current row after a run is the one the run resolved, or its absence when
the run deletes it, or else the row as it was. Which nodes, ways and relations a run resolves,
and from which coordinates, is said here once for all results about the content of the rows.
-/

namespace OsmParquet.RunSteps

open OsmParquet.KeyedList OsmParquet.Layers OsmParquet.Rows OsmParquet.Tiers OsmParquet.TierSteps
open OsmParquet.ByidReads OsmParquet.Updater OsmParquet.Resolves OsmParquet.PrevCells
open OsmParquet.SpatialReads

/-- What the steps of the run `f` share. -/
def workOf (s : Root) (f : Fetched) : Work :=
  ⟨s, keptOf s f, (f.diffs.getLast?.map Diff.seq).getD 0⟩

section Rows

variable {s : Root} {f : Fetched}

lemma runOnce_of_diffs (h : f.diffs ≠ []) :
    runOnce s f = { s with deltas := runTiers s.deltas (tierRun s f) } := by
  simp [runOnce, h]

lemma runOnce_of_nil (h : f.diffs = []) : runOnce s f = s := by simp [runOnce, h]

/-- **The current rows after a run.** -/
lemma cur_runOnce (hg : Good s.deltas) (h : f.diffs ≠ []) (t : Typ) (i : ℤ) :
    cur (runOnce s f) t i = (((tierRun s f).row t i).map fun x => (x.map byidCols).alive).getD
      (cur s t i) := by
  have hR := (resolvedFor_resolvedOf hg f).once
  rw [runOnce_of_diffs h]
  have hstep := current_runTiers (s.base.byid t) hg (r := tierRun s f) hR
  have hu : Distinct DeltaRow.id (((tierRun s f).resolved t).map (DeltaRow.map byidCols)) :=
    (distinct_map fun _ => DeltaRow.map_id _ _).mpr (hR t)
  have hl : deltaById i (((tierRun s f).resolved t).map (DeltaRow.map byidCols)) =
      ((tierRun s f).row t i).map (DeltaRow.map byidCols) := lookup_map fun _ => DeltaRow.map_id _ _
  show current (s.base.byid t) (runTiers s.deltas (tierRun s f)) i = _
  rw [hstep, applyRows_apply hu, hl, Option.map_map]
  rfl

lemma curSpatial_runOnce (hg : Good s.deltas) (h : f.diffs ≠ []) (t : Typ) (i : ℤ) :
    curSpatial (runOnce s f) t i = (((tierRun s f).row t i).map DeltaRow.alive).getD
      (curSpatial s t i) := by
  have hR : (tierRun s f).OneRow := (resolvedFor_resolvedOf hg f).once
  rw [runOnce_of_diffs h]
  show read (changes (runTiers s.deltas (tierRun s f)) t) _ i = _
  rw [changes_runTiers hg hR, read_overlay, read_apply]
  rfl

lemma row_node (s : Root) (f : Fetched) (i : ℤ) : (tierRun s f).row .node i =
    (changeById i (keptOf s f .node)).map
      (resolveNode s (existsNode s (dropStaleVersions s (parseBatch f.diffs)))) :=
  lookup_map fun _ => resolveNode_id _ _ _

lemma row_way (hg : Good s.deltas) (i : ℤ) : (tierRun s f).row .way i =
    (touchedRow s (keptOf s f .way) (workOf s f).wayIds (cur s .way)
      (asIsWay (workOf s f).lastSeq) i).map (resolveWay s.base (workOf s f).nodeCoords) := by
  have h := lookup_touchedWays (w := workOf s f) hg i
  exact (lookup_map fun _ => resolveWay_id _).trans (congrArg _ h)

lemma row_relation (hg : Good s.deltas) (i : ℤ) : (tierRun s f).row .relation i =
    (touchedRow s (keptOf s f .relation) (workOf s f).relationIds (cur s .relation)
      (asIsRelation (workOf s f).lastSeq) i).map (resolveRelation s.base (workOf s f).nodeCoords
        (workOf s f).wayBoxes (workOf s f).relationBoxes) := by
  have h := lookup_touchedRelations (w := workOf s f) hg i
  exact (lookup_map fun _ => resolveRelation_id _).trans (congrArg _ h)

lemma oneChange_keptOf (s : Root) (f : Fetched) : OneChange (keptOf s f) :=
  oneChange_extentFilter (oneChange_dropStaleVersions (oneChange_parseBatch _))

end Rows

/-! ### The indexes -/

/-- The index has every node of every way. -/
def NodeWayCovers (b : Base) : Prop :=
  ∀ r ∈ (b.byid .way).rows, ∀ n ∈ r.cols.refs, ∃ p ∈ b.nodeWay, (n, r.id) ∈ p.rows

/-- The index has every member of every relation. -/
def MemberCovers (b : Base) : Prop :=
  ∀ r ∈ (b.byid .relation).rows, ∀ m ∈ r.cols.members,
    ⟨m.type, m.ref, r.id, m.role, r.cell⟩ ∈ b.member

/-! ### Coordinates -/

/-- The position of a node in the current state. -/
def curCoord (s : Root) (i : ℤ) : Option Point := (cur s .node i).bind fun r => r.cols.coord

/-- The position of a node once a batch is applied. -/
def coordAfter (s : Root) (kept : List (Change (Option Point))) (i : ℤ) : Option Point :=
  match changeById i kept with
  | some c => if c.deleted then none else c.body
  | none => curCoord s i

section Coords

variable {s : Root} {f : Fetched} {w : Work}

/-- **A run moves the nodes of its batch and no others.** -/
lemma curCoord_runOnce (hg : Good s.deltas) (h : f.diffs ≠ []) (i : ℤ) :
    curCoord (runOnce s f) i = coordAfter s (keptOf s f .node) i := by
  rw [curCoord, cur_runOnce hg h, row_node, coordAfter]
  rcases changeById i (keptOf s f .node) with _ | c
  · rfl
  · rcases hd : c.deleted with _ | _
    · simp [resolveNode, hd, DeltaRow.map, DeltaRow.alive, byidCols]
    · simp [resolveNode, hd, DeltaRow.map, DeltaRow.alive]

/-- The ids of the nodes whose coordinates a resolve fetches. -/
def Work.needed (w : Work) : List ℤ :=
  (w.kept .node).map Change.id ++
    (w.touchedWays.filter fun t => !t.deleted).flatMap Touched.body ++ w.members .node

/-- **The coordinates a run resolves with** are those its batch leaves. -/
lemma coordOf_nodeCoords (hg : Good w.root.deltas) (hk : OneChange w.kept) {i : ℤ}
    (hi : i ∈ Work.needed w) : coordOf w.nodeCoords i = coordAfter w.root (w.kept .node) i := by
  have h1 : lookup Prod.fst i (((w.kept .node).filter fun c => !c.deleted).map fun c =>
      (c.id, c.body)) =
      (changeById i ((w.kept .node).filter fun c => !c.deleted)).map fun c => (c.id, c.body) :=
    lookup_map fun _ => rfl
  have h2 : changeById i ((w.kept .node).filter fun c => !c.deleted) =
      (changeById i (w.kept .node)).filter fun c => !c.deleted := (hk .node).lookup_filter _
  have h3 : lookup Prod.fst i (((w.root.fetch .node (Work.needed w)).filter fun r =>
      r.id ∉ (w.kept .node).map Change.id).map fun r => (r.id, r.cols.coord)) =
      (byId i ((w.root.fetch .node (Work.needed w)).filter fun r =>
        r.id ∉ (w.kept .node).map Change.id)).map fun r => (r.id, r.cols.coord) :=
    lookup_map fun _ => rfl
  have h4 : byId i ((w.root.fetch .node (Work.needed w)).filter fun r =>
      r.id ∉ (w.kept .node).map Change.id) = if i ∈ (w.kept .node).map Change.id then none
        else byId i (w.root.fetch .node (Work.needed w)) := lookup_without _
  have h5 := byId_fetch (t := .node) (i := i) hg (Work.needed w)
  rw [if_pos hi] at h5
  unfold coordOf coordAfter
  show (lookup Prod.fst i (_ ++ _)).bind Prod.snd = _
  rw [lookup_append, h1, h2]
  show ((_ : Option (ℤ × Option Point)).or (lookup Prod.fst i (((w.root.fetch .node
    (Work.needed w)).filter fun r => r.id ∉ (w.kept .node).map Change.id).map fun r =>
      (r.id, r.cols.coord)))).bind Prod.snd = _
  rw [h3, h4]
  rcases hc : changeById i (w.kept .node) with _ | c
  · rw [if_neg (lookup_eq_none.mp hc), h5, curCoord]
    rcases cur w.root .node i with _ | r <;> simp
  · have hmem : i ∈ (w.kept .node).map Change.id := by
      have hid : c.id = i := key_of_lookup hc
      exact hid ▸ List.mem_map_of_mem (mem_of_lookup hc)
    rw [if_pos hmem]
    rcases hd : c.deleted with _ | _ <;> simp [Option.filter, hd]

end Coords

end OsmParquet.RunSteps
