import OsmParquet.LoosePlacement
import OsmParquet.SetFilter

/-!
Positions that a leaf covers.

Leaves leave gaps, and a query for a gap can miss what lies over it. Where the base had a node there
is no gap. Whatever has such a position in its box is stored in a cell that is read for this
position: also where the corner of the box is in a gap, and whatever the runs since then have moved.
-/

namespace OsmParquet.CoveredPositions

open OsmParquet.KeyedList OsmParquet.Layers OsmParquet.Rows OsmParquet.Tiers OsmParquet.TierSteps
open OsmParquet.ByidReads OsmParquet.Cells OsmParquet.CellTree OsmParquet.Halving OsmParquet.Updater
open OsmParquet.Resolves OsmParquet.PrevCells OsmParquet.SpatialReads OsmParquet.RunSteps
open OsmParquet.Findable OsmParquet.RawPlacement OsmParquet.LoosePlacement OsmParquet.RelationQuery
  OsmParquet.OneCell
open OsmParquet.SetFilter

/-- Some leaf covers the position. -/
def Covered (leaves : List Cell) (p : Point) : Prop := ∃ leaf ∈ leaves, leaf <+: pointDigits p

/-- A build gives every node a leaf. -/
lemma covered_of_mem {nodes : List Point} {n depth : ℕ} (hd : depth ≤ maxDepth) {p : Point}
    (hp : p ∈ nodes) : Covered (selectLeafCells nodes n depth) p := by
  obtain ⟨leaf, hleaf, hcov⟩ := exists_leaf_of_mem (n := n) hd hp
  exact ⟨leaf, hleaf,
    (covers_iff ((length_selectLeafCells hleaf).trans hd) (length_pointDigits p)).mp hcov⟩

/-! ### Digits between two corners -/

section Digits

variable {a p : Point} {b : BBox} {c : Cell} {n : ℕ}

lemma gridX_mono {x y : ℤ} (h : x ≤ y) : gridX x ≤ gridX y := by
  have hpow : (2 : ℤ) ^ maxDepth = 1048576 := by norm_num [maxDepth]
  unfold gridX
  rw [hpow]
  omega

lemma gridY_mono {x y : ℤ} (h : x ≤ y) : gridY x ≤ gridY y := by
  have hpow : (2 : ℤ) ^ maxDepth = 1048576 := by norm_num [maxDepth]
  unfold gridY
  rw [hpow]
  omega

lemma gridX_lt (x : ℤ) : gridX x < 2 ^ maxDepth := clip_lt _

lemma gridY_lt (y : ℤ) : gridY y < 2 ^ maxDepth := clip_lt _

/-- The first digits of a position are those of its column and row without the last bits. -/
lemma take_digits_iff (hn : n ≤ maxDepth) : (pointDigits a).take n = (pointDigits p).take n ↔
    gridX a.lon / 2 ^ (maxDepth - n) = gridX p.lon / 2 ^ (maxDepth - n) ∧
      gridY a.lat / 2 ^ (maxDepth - n) = gridY p.lat / 2 ^ (maxDepth - n) := by
  constructor
  · intro h
    rw [← bitValue_leadingBits (gridX_lt a.lon) hn, ← bitValue_leadingBits (gridX_lt p.lon) hn,
      ← bitValue_leadingBits (gridY_lt a.lat) hn, ← bitValue_leadingBits (gridY_lt p.lat) hn,
      ← eastern_pointDigits hn, ← eastern_pointDigits hn, ← northern_pointDigits hn,
      ← northern_pointDigits hn, h]
    exact ⟨rfl, rfl⟩
  · rintro ⟨hx, hy⟩
    simp only [pointDigits, ← List.map_take, List.take_range, Nat.min_eq_left hn]
    refine List.map_congr_left fun k hk => ?_
    have hk : k < n := List.mem_range.mp hk
    have hbit : maxDepth - 1 - k = n - 1 - k + (maxDepth - n) := by omega
    rw [digitAt, digitAt, hbit, ← Nat.testBit_div_two_pow, ← Nat.testBit_div_two_pow,
      ← Nat.testBit_div_two_pow, ← Nat.testBit_div_two_pow, hx, hy]

lemma div_between {x y z k : ℕ} (hxz : x / k = z / k) (h : x ≤ y) (h' : y ≤ z) : x / k = y / k :=
  le_antisymm (Nat.div_le_div_right h) (hxz ▸ Nat.div_le_div_right h')

/-- A cell with both corners of a box has what is between them. -/
lemma prefix_of_corners (hsw : c <+: pointDigits (southWest b))
    (hne : c <+: pointDigits (northEast b)) (hp : (boxOf b).Holds p.lat p.lon) :
    c <+: pointDigits p := by
  have hlen : c.length ≤ maxDepth := length_pointDigits (southWest b) ▸ hsw.length_le
  have hsw := List.prefix_iff_eq_take.mp hsw
  have hne := List.prefix_iff_eq_take.mp hne
  obtain ⟨hx, hy⟩ := (take_digits_iff hlen).mp (hsw.symm.trans hne)
  obtain ⟨h1, h2, h3, h4⟩ := hp
  have hx' := div_between hx (gridX_mono (Int.cast_le.mp h3)) (gridX_mono (Int.cast_le.mp h4))
  have hy' := div_between hy (gridY_mono (Int.cast_le.mp h1)) (gridY_mono (Int.cast_le.mp h2))
  rw [List.prefix_iff_eq_take, ← (take_digits_iff hlen).mpr ⟨hx', hy'⟩]
  exact hsw

end Digits

/-! ### The cell of a box -/

section Boxes

variable {leaves : List Cell} {depths : List ℕ} {depth : ℕ} {b : BBox} {p : Point} {leaf : Cell}

/-- A box with a covered position does not have its corner before the first leaf. -/
lemma not_beforeFirstLeaf_of_covered (hl : LeavesOk leaves depth) (hd : depth ≤ maxDepth)
    (hp : (boxOf b).Holds p.lat p.lon) (hcov : Covered leaves p) :
    ¬ BeforeFirstLeaf leaves depths b := by
  rintro ⟨first, hfirst, hmin, hlt, hle, -⟩
  obtain ⟨leaf, hleaf, hpre⟩ := hcov
  have hfirstLen : first.length ≤ maxDepth := (hl.length first hfirst).trans hd
  obtain ⟨hc1, hc2⟩ := corners_take hle
  set c := (pointDigits (southWest b)).take first.length with hc
  have hclen : c.length = first.length := length_take_digits hfirstLen
  have hcp : Covers c (pointToQk p) :=
    (covers_iff (hclen.trans_le hfirstLen) (length_pointDigits p)).mpr
      (prefix_of_corners hc1 hc2 hp)
  have hcsw : Covers c (pointToQk (southWest b)) :=
    (covers_iff (hclen.trans_le hfirstLen) (length_pointDigits _)).mpr hc1
  have hleafp : Covers leaf (pointToQk p) :=
    (covers_iff ((hl.length leaf hleaf).trans hd) (length_pointDigits p)).mpr hpre
  -- the first leaf would start after the corner and before the position, in a cell of its own size
  have hfirst : (qkRange first).1 ≤ (qkRange c).2 := (hmin leaf hleaf).trans (hleafp.1.trans hcp.2)
  have hstart : (qkRange c).1 < (qkRange first).1 := hcsw.1.trans_lt hlt
  have hpos : 0 < 4 ^ (maxDepth - first.length) := by positivity
  rw [qkRange_eq, qkRange_eq, hclen] at hfirst
  rw [qkRange_eq, qkRange_eq, hclen] at hstart
  dsimp only at hfirst hstart
  have hkeys : keyToValue c < keyToValue first := lt_of_mul_lt_mul_right hstart hpos.le
  have hnext : (keyToValue c + 1) * 4 ^ (maxDepth - first.length) ≤
      keyToValue first * 4 ^ (maxDepth - first.length) := Nat.mul_le_mul_right _ hkeys
  rw [Nat.add_mul, Nat.one_mul] at hnext
  omega

/-- **The cell of a box is above every leaf that covers a position in it.** -/
lemma mem_allowedAncestors (hl : LeavesOk leaves depth) (hd : depth ≤ maxDepth) (h0 : 0 ∈ depths)
    (hp : (boxOf b).Holds p.lat p.lon) (hleaf : leaf ∈ leaves) (hpre : leaf <+: pointDigits p) :
    containingCellV2 leaves depths depth b ∈ allowedAncestors depths leaf := by
  have hplaced :=
    (placed_iff hl hd h0 b).mpr (not_beforeFirstLeaf_of_covered hl hd hp ⟨leaf, hleaf, hpre⟩)
  have hcp := prefix_of_corners hplaced.corners.1 hplaced.corners.2 hp
  set c := containingCellV2 leaves depths depth b
  rcases hplaced.found with hin | hdepth
  · rw [leaf_unique hl hleaf hin hpre hcp]
    exact List.mem_cons_self
  rcases List.prefix_or_prefix_of_prefix hcp hpre with h | h
  · refine List.mem_cons_of_mem _ (List.mem_map.mpr ⟨c.length, List.mem_filter.mpr ⟨?_, ?_⟩, ?_⟩)
    · exact List.mem_cons_of_mem _ hdepth
    · exact decide_eq_true h.length_le
    · exact (List.prefix_iff_eq_take.mp h).symm
  · rw [hplaced.leaf leaf hleaf (h.trans hplaced.corners.1) (h.trans hplaced.corners.2)]
    exact List.mem_cons_self

end Boxes

/-! ### Rows in their cells -/

/-- The cell that an element is to be stored in. -/
def cellFor (b : Base) : {t : Typ} → SpatialCols t → Cell
  | .node, c => pointCell b.leafCells (c.coord.getD ⟨0, 0⟩)
  | .way, c => boxCell b c.byid.bbox
  | .relation, c => boxCell b c.byid.bbox

/-- The position is that of the node, or in the box of the way or relation. -/
def Touches (p : Point) : {t : Typ} → SpatialCols t → Prop
  | .node, c => c.coord = some p
  | .way, c => ∃ box ∈ c.byid.bbox, (boxOf box).Holds p.lat p.lon
  | .relation, c => ∃ box ∈ c.byid.bbox, (boxOf box).Holds p.lat p.lon

/-- Leaves and depths as a build makes them, and every row in its cell. -/
structure Laid (b : Base) : Prop where
  leaves : LeavesOk b.leafCells b.maxDepth
  depth : b.maxDepth ≤ maxDepth
  root : 0 ∈ b.ancestorDepths
  placed : ∀ t, ∀ r ∈ (b.spatial t).flatMap CellFiles.rows, r.cell = some (cellFor b r.cols)

section Rows

variable {s : Root} {f : Fetched} {t : Typ} {i : ℤ} {p : Point}

/-- The current rows are in their cells. -/
def AllPlaced (s : Root) : Prop :=
  ∀ t i r, curSpatial s t i = some r → r.cell = some (cellFor s.base r.cols)

/-- A run places the rows that it makes. -/
lemma placed_row (hg : Good s.deltas) {x : DeltaRow (SpatialCols t)}
    (hx : (tierRun s f).row t i = some x) {r : Row (SpatialCols t)} (hr : x.alive = some r) :
    r.cell = some (cellFor s.base r.cols) := by
  cases t with
  | node =>
    rw [row_node] at hx
    obtain ⟨c, -, rfl⟩ := Option.map_eq_some_iff.mp hx
    unfold resolveNode at hr
    split_ifs at hr with hdel
    · cases hr
    · cases hr
      rfl
  | way =>
    rw [row_way hg] at hx
    obtain ⟨c, -, rfl⟩ := Option.map_eq_some_iff.mp hx
    unfold resolveWay at hr
    split_ifs at hr with hdel
    · cases hr
    · cases hr
      rfl
  | relation =>
    rw [row_relation hg] at hx
    obtain ⟨c, -, rfl⟩ := Option.map_eq_some_iff.mp hx
    unfold resolveRelation at hr
    split_ifs at hr with hdel
    · cases hr
    · cases hr
      rfl

lemma allPlaced_runOnce (hg : Good s.deltas) (hs : AllPlaced s) : AllPlaced (runOnce s f) := by
  intro t i r hr
  rw [base_runOnce]
  by_cases hf : f.diffs = []
  · rw [runOnce_of_nil hf] at hr
    exact hs t i r hr
  rw [curSpatial_runOnce hg hf] at hr
  cases hx : (tierRun s f).row t i with
  | none =>
    rw [hx, Option.map_none, Option.getD_none] at hr
    exact hs t i r hr
  | some x =>
    rw [hx, Option.map_some, Option.getD_some] at hr
    exact placed_row hg hx hr

lemma allPlaced_runs (hg : Good s.deltas) (hs : AllPlaced s) (fs : List Fetched) :
    AllPlaced (runs s fs) := by
  induction fs generalizing s with
  | nil => exact hs
  | cons f fs ih => exact ih (good_runOnce hg f) (allPlaced_runOnce hg hs)

end Rows

/-! ### What queries read -/

section Reads

variable {s : Root} {t : Typ} {i : ℤ} {p : Point} {r : Row (SpatialCols t)}

/-- The catalog has the cell of every current row. -/
lemma present_of_current (ha : BaseAgrees s.base) (hr : curSpatial s t i = some r) {c : Cell}
    (hc : r.cell = some c) : c ∈ present (catalogOf s) t := by
  unfold present catalogOf
  dsimp only
  cases hrows : tierRows s.deltas t i with
  | nil =>
    rw [curSpatial_of_no_rows hrows] at hr
    obtain ⟨e, he, hre⟩ := List.mem_flatMap.mp (mem_of_lookup hr)
    have hcell := (ha t).own e he r hre
    rw [hc] at hcell
    exact List.mem_append_left _ (Option.some.inj hcell ▸ List.mem_map_of_mem he)
  | cons x rest =>
    rw [curSpatial_of_rows hrows] at hr
    obtain ⟨m, hm, hx⟩ := mem_tierRows_iff.mp
      (hrows ▸ List.mem_cons_self : x ∈ tierRows s.deltas t i)
    refine List.mem_append_right _ (List.mem_dedup.mpr (List.mem_flatMap.mpr ⟨m, hm, ?_⟩))
    exact List.mem_filterMap.mpr ⟨x, mem_of_lookup hx, (DeltaRow.alive_cell hr).symm.trans hc⟩

/-- A query for a covered position of an element reads the cell that the element belongs in. -/
lemma cellFor_read {b : Base} (hl : Laid b) {cat : Catalog} (hleaves : cat.leafCells = b.leafCells)
    (hdepths : cat.ancestorDepths = b.ancestorDepths) {c : SpatialCols t} (hw : InWorld p)
    (htouch : Touches p c) (hcov : Covered b.leafCells p)
    (hpresent : cellFor b c ∈ present cat t) {q : Box}
    (hq : q.Holds p.lat p.lon) : cellFor b c ∈ cellsForBbox cat t (some q) := by
  obtain ⟨leaf, hleaf, hpre⟩ := hcov
  have hleafBox : (cellBBox leaf).Holds p.lat p.lon := holds_of_prefix hw hpre
  have hmeets : bboxIntersects q (cellBBox leaf) := intersects_of_holds hq hleafBox
  refine (mem_cellsForBbox hpresent).mpr (Or.inl ⟨leaf, hleaves ▸ hleaf, ?_, hmeets⟩)
  have hbox : ∀ box : BBox, (boxOf box).Holds p.lat p.lon →
      boxCell b (some box) ∈ allowedAncestors cat.ancestorDepths leaf := fun box hbox =>
    hdepths ▸ mem_allowedAncestors hl.leaves hl.depth hl.root hbox hleaf hpre
  cases t with
  | node =>
    have hlen := fun c hc => (hl.leaves.length c hc).trans hl.depth
    have hcovers : Covers leaf (pointToQk p) :=
      (covers_iff (hlen leaf hleaf) (length_pointDigits p)).mpr hpre
    have hcell : cellFor b (t := .node) c = leaf := by
      rw [cellFor, show c.coord = some p from htouch]
      exact leafForQk_of_covers hl.leaves.prefixFree hlen hleaf hcovers
    rw [hcell]
    exact self_mem_above .node leaf
  | way =>
    obtain ⟨box, hsome, hholds⟩ := htouch
    rw [cellFor, show c.byid.bbox = some box from hsome]
    exact hbox box hholds
  | relation =>
    obtain ⟨box, hsome, hholds⟩ := htouch
    rw [cellFor, show c.byid.bbox = some box from hsome]
    exact hbox box hholds

/-- The cell of a current element is read by every query for a covered position of the element. -/
lemma inCells_of_covered (ha : BaseAgrees s.base) (hl : Laid s.base) (hs : AllPlaced s)
    (hr : curSpatial s t i = some r) (hw : InWorld p) (htouch : Touches p r.cols)
    (hcov : Covered s.base.leafCells p) {q : Box} (hq : q.Holds p.lat p.lon) :
    inCells (cellsForBbox (catalogOf s) t (some q)) r.cell := by
  have hcell := hs t i r hr
  have hread : cellFor s.base r.cols ∈ cellsForBbox (catalogOf s) t (some q) :=
    cellFor_read hl rfl rfl hw htouch hcov (present_of_current ha hr hcell) hq
  rw [hcell]
  exact decide_eq_true hread

lemma allPlaced_fresh {b : Base} (hl : Laid b) : AllPlaced (fresh b) := fun t i r hr =>
  hl.placed t r
    (mem_of_lookup (show byId i ((b.spatial t).flatMap CellFiles.rows) = some r from hr))

end Reads

/-- **What lies over a node of the base is read.** From a base with its rows in their cells, after
any runs: a query reads every current element that has a covered position of the query in its box,
however far the box reaches into gaps, and reads it as it is. -/
theorem covered_read {b : Base} (ha : BaseAgrees b) (hl : Laid b) (fs : List Fetched)
    {t : Typ} {i : ℤ} {r : Row (SpatialCols t)} (hr : curSpatial (runs (fresh b) fs) t i = some r)
    {p : Point} (hw : InWorld p) (htouch : Touches p r.cols) (hcov : Covered b.leafCells p)
    {q : Box} (hq : q.Holds p.lat p.lon) :
    byId i
      (readCells (runs (fresh b) fs) t (cellsForBbox (catalogOf (runs (fresh b) fs)) t (some q))) =
      some r := by
  have hbase : (runs (fresh b) fs).base = b := base_runs (fresh b) fs
  have hplaced : AllPlaced (runs (fresh b) fs) :=
    allPlaced_runs (good_fresh b) (allPlaced_fresh hl) fs
  rw [← hbase] at ha hl hcov
  exact byId_readCells_own (good_runs (good_fresh b) fs) ha (nodup_cellsForBbox _ _ _) hr
    (inCells_of_covered ha hl hplaced hr hw htouch hcov hq)

/-! ### A way over a gap -/

/-- A way from one leaf to another, over quarters of the world without one. -/
def bridge : Base where
  byid
    | .node => ⟨[⟨4, 9, [{ node 4 ⟨450000000, 900000000⟩ with cell := some [1] },
        { node 9 ⟨-450000000, -900000000⟩ with cell := some [2] }], by decide, by decide, by
          decide⟩], by simp⟩
    | .way =>
      ⟨[⟨6, 6, [(way 6 [4, 9] corners).map byidCols], by decide, by simp, by decide⟩], by simp⟩
    | .relation => oneNode.byid .relation
  spatial
    | .node => [⟨[1], [[{ node 4 ⟨450000000, 900000000⟩ with cell := some [1] }]]⟩,
        ⟨[2], [[{ node 9 ⟨-450000000, -900000000⟩ with cell := some [2] }]]⟩]
    | .way => [⟨[], [[way 6 [4, 9] corners]]⟩]
    | .relation => []
  leafCells := selectLeafCells corners 1 1
  ancestorDepths := [0, 3, 6, 9, 12]
  maxDepth := 1
  extent := ⟨-900000000, -1800000000, 900000000, 1800000000⟩
  promotedKeys := []
  nodeWay := [⟨4, 9, [(4, 6), (9, 6)], by decide⟩]
  member := []

lemma baseAgrees_bridge : BaseAgrees bridge := by
  intro t
  cases t with
  | node =>
    have hrows : (bridge.byid .node).rows =
        ((bridge.spatial .node).flatMap CellFiles.rows).map (Row.map byidCols) := rfl
    exact ⟨by decide, by decide, by decide, fun i => hrows ▸ lookup_map fun _ => rfl⟩
  | way => exact agrees_single (t := .way) (r := way 6 [4, 9] corners) rfl rfl
  | relation => exact ⟨by decide, by decide, by decide, fun i => rfl⟩

lemma laid_bridge : Laid bridge := by
  refine ⟨leavesOk_selectLeafCells corners 1 (by decide), by decide, by decide, fun t => ?_⟩
  cases t with
  | node => decide
  | way => decide
  | relation => decide

/-- The first node moves across the gap, and a query for the other one still reads the way. -/
theorem covered_read_bridge : ∃ r, byId 6 (readCells (runs (fresh bridge)
    [⟨[diff 1 [change 4 2 (some ⟨450000000, -900000000⟩)] [] []], some 10⟩]) .way
      (cellsForBbox (catalogOf (runs (fresh bridge)
        [⟨[diff 1 [change 4 2 (some ⟨450000000, -900000000⟩)] [] []], some 10⟩])) .way
          (some ⟨-450000000, -900000000, -450000000, -900000000⟩))) = some r ∧
    r.cols.byid.bbox = some ⟨-450000000, -900000000, 450000000, -900000000⟩ := by
  obtain ⟨r, hr, hbox⟩ : ∃ r, curSpatial (runs (fresh bridge)
      [⟨[diff 1 [change 4 2 (some ⟨450000000, -900000000⟩)] [] []], some 10⟩]) .way 6 = some r ∧
        r.cols.byid.bbox = some ⟨-450000000, -900000000, 450000000, -900000000⟩ :=
    ⟨_, rfl, by decide⟩
  refine ⟨r, covered_read baseAgrees_bridge laid_bridge _ hr (p := ⟨-450000000, -900000000⟩)
    (by decide) ?_ ?_ ?_, hbox⟩
  · exact ⟨_, hbox, by decide⟩
  · show Covered (selectLeafCells corners 1 1) _
    exact covered_of_mem (by decide) (by decide)
  · exact ⟨le_rfl, le_rfl, le_rfl, le_rfl⟩

end OsmParquet.CoveredPositions
