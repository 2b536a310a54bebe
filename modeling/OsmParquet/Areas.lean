import OsmParquet.FoldedTiers
import OsmParquet.MemberGeometry

/-!
The areas that are derived from relations and ways.

The area of a relation is assembled from the lines of its member ways. Compaction does not derive
all areas again, but those of the relations that the tiers have rows of, and keeps the others. That
is right because a run that touches a way touches the relations that have it as a member: a
relation without a tier row has the members it had in the base, with the lines they had there. The
index of closed ways is made anew from the by-id copy, where a full derivation reads the copy by
cell. So the two agree as long as compaction stores every element once in each copy.
-/

namespace OsmParquet.Areas

open OsmParquet.KeyedList OsmParquet.Layers OsmParquet.Rows OsmParquet.Tiers OsmParquet.TierSteps
open OsmParquet.ByidReads OsmParquet.Cells OsmParquet.Updater OsmParquet.Resolves
open OsmParquet.PrevCells OsmParquet.SpatialReads OsmParquet.RunSteps OsmParquet.Compact
open OsmParquet.FoldedTiers OsmParquet.RelationBoxes OsmParquet.Findable OsmParquet.RelationQuery
open OsmParquet.CellTree OsmParquet.MemberGeometry OsmParquet.OneCell OsmParquet.RowGroups

variable {γ : Type}

/-! ### The tables -/

/-- An area of a relation. Its id is that of the relation, shifted. -/
structure AreaRow (γ : Type) where
  id : ℤ
  pivotId : ℤ
  attrs : Attrs
  bbox : BBox
  geometry : γ
  cell : Cell
  hilbert : ℕ
  deriving DecidableEq

/-- The row of an area in the index, which has no geometry. -/
def AreaRow.indexRow (a : AreaRow γ) : AreaRow Unit := { a with geometry := () }

/-- A closed way in the index of ways. -/
structure WayAreaRow where
  id : ℤ
  attrs : Attrs
  bbox : Option BBox
  cell : Option Cell
  hilbert : ℕ
  deriving DecidableEq

/-- The areas of a cell. -/
structure AreaCell (γ : Type) where
  cell : Cell
  rows : List (AreaRow γ)

/-- What the manifest has of areas. -/
structure AreaTables (γ : Type) where
  index : List (AreaRow Unit)
  cells : List (AreaCell γ)
  wayIndex : List WayAreaRow

def relationIdOffset : ℤ := 3600000000

/-- The attributes with the promoted columns taken out of the tags once more. -/
def repromote (keys : List String) (a : Attrs) : Attrs :=
  { a with promoted := keys.map (tagValue a.tags) }

/-! ### Closed ways -/

def wayAreaQualifyingKeys : List String := ["name", "ref", "admin_level", "boundary", "place"]

def wayQualifying (r : Row WayCols) : Bool :=
  r.cols.isClosed && wayAreaQualifyingKeys.any fun k => (tagValue r.cols.attrs.tags k).isSome

def wayAreaRow (keys : List String) (r : Row WayCols) : WayAreaRow :=
  ⟨r.id, repromote keys r.cols.attrs, r.cols.bbox, r.cell, r.cols.hilbert⟩

/-- The index of closed ways from the copy by cell. -/
def buildWayAreaIndex (s : Root) : List WayAreaRow :=
  let cells := cellsForBbox (catalogOf s) .way none
  (((currentRows (t := .way) s.deltas cells (filesOf (s.base.spatial .way) cells) fun r =>
      wayQualifying (r.map byidCols)).map (Row.map byidCols)).map
    (wayAreaRow s.base.promotedKeys)).insertionSort fun a b => a.id ≤ b.id

/-- The index of closed ways from the by-id parts. -/
def buildWayAreaIndexFromFiles (b : Base) : List WayAreaRow :=
  (((b.byid .way).rows.filter wayQualifying).map (wayAreaRow b.promotedKeys)).insertionSort
    fun a b => a.id ≤ b.id

/-! ### Areas of relations -/

/-- The tags of the relations that may be areas. -/
def relationQualifying (tags : Option Tags) : Bool :=
  let value := tagValue tags
  let named := (value "name").isSome
  (decide (value "type" = some "multipolygon") && named) ||
    (decide (value "type" = some "boundary") && named) ||
    ((value "admin_level").isSome && named) ||
    (value "postal_code").isSome || (value "addr:postcode").isSome

def wayMembers (r : Row RelationSpatialCols) : List Member :=
  r.cols.byid.members.filter fun m => m.type = .way

/-- The ways that are not inner ones, or those that are. -/
def rolePart (inner : Bool) (ms : List Member) : List ℤ :=
  (ms.filter fun m => decide (m.role = "inner") == inner).map Member.ref

section Derive

variable (assemble : List (Option (List Point)) → List (Option (List Point)) → Option (γ × BBox))

/-- The cell of an area, and its place in it. -/
def placeArea (b : Base) (pivot : ℤ) (a : Attrs) (bbox : BBox) (geometry : γ) : AreaRow γ where
  id := pivot + relationIdOffset
  pivotId := pivot
  attrs := repromote b.promotedKeys { a with tags := some (a.tags.getD []) }
  bbox := bbox
  geometry := geometry
  cell := containingCellV2 b.leafCells b.ancestorDepths b.maxDepth bbox
  hilbert := hilbertKey (bboxCentroid bbox)

/-- The area of a relation with the lines of its ways. Rings are assembled by a library. -/
def relationArea (b : Base) (line : ℤ → Option (List Point)) (r : Row RelationSpatialCols) :
    Option (AreaRow γ) :=
  let ways := wayMembers r
  if ways = [] then none
  else (assemble ((rolePart false ways).map line) ((rolePart true ways).map line)).map fun x =>
    placeArea b r.id r.cols.byid.attrs x.2 x.1

variable (maxCellFraction : ℚ) (groups : RowGroupIndex)

/-- The areas of all relations, or of some. -/
def deriveRelationAreas (s : Root) (relationIds : Option (List ℤ)) : List (AreaRow γ) :=
  let cells := cellsForBbox (catalogOf s) .relation none
  let cand := currentRows (t := .relation) s.deltas cells (filesOf (s.base.spatial .relation) cells)
    fun r => relationQualifying r.cols.byid.attrs.tags && relationIds.all fun ids =>
      decide (r.id ∈ ids)
  let wayIds := (cand.flatMap fun r => (wayMembers r).map Member.ref).dedup
  let lines := resolveWayGeometries s maxCellFraction groups
    (cand.filterMap fun r => r.cols.byid.bbox) wayIds
  cand.filterMap (relationArea assemble s.base (lineIn lines))

def sortCell (rows : List (AreaRow γ)) : List (AreaRow γ) :=
  rows.insertionSort fun a b => toLex (a.hilbert, a.id) ≤ toLex (b.hilbert, b.id)

def sortIndex (rows : List (AreaRow Unit)) : List (AreaRow Unit) :=
  rows.insertionSort fun a b => a.id ≤ b.id

/-- The areas of each cell that has some. -/
def areaCells (placed : List (AreaRow γ)) : List (AreaCell γ) :=
  (placed.map AreaRow.cell).dedup.map fun c => ⟨c, sortCell (placed.filter fun a => a.cell = c)⟩

/-- All areas from scratch. -/
def buildAreas (s : Root) : AreaTables γ :=
  let placed := deriveRelationAreas assemble maxCellFraction groups s none
  ⟨sortIndex (placed.map AreaRow.indexRow), areaCells placed, buildWayAreaIndex s⟩

/-- The cells that have lost areas or gained some. -/
def touchedAreaCells (old : AreaTables γ) (stale : List ℤ) (placed : List (AreaRow γ)) :
    List Cell :=
  (old.index.filter fun a => a.id ∈ stale).map AreaRow.cell ++ placed.map AreaRow.cell

/-- The file of a cell, if it has rows. -/
def cellEntry (c : Cell) (rows : List (AreaRow γ)) : Option (AreaCell γ) :=
  if rows = [] then none else some ⟨c, sortCell rows⟩

/-- The file of a cell after compaction. It is written anew only for a touched cell. -/
def compactAreaCell (old : AreaTables γ) (stale : List ℤ) (placed : List (AreaRow γ)) (c : Cell) :
    Option (AreaCell γ) :=
  let oldEntry := lookup AreaCell.cell c old.cells
  if c ∉ touchedAreaCells old stale placed then oldEntry
  else cellEntry c (((oldEntry.elim [] AreaCell.rows).filter fun a => a.id ∉ stale) ++
    placed.filter fun a => a.cell = c)

/-- The areas after compaction. Those of the relations that the tiers have rows of are derived
again. -/
def compactAreas (old : AreaTables γ) (s : Root) : AreaTables γ :=
  let touched := (rawView s.deltas .relation).map DeltaRow.id
  let stale := touched.map (· + relationIdOffset)
  let placed := deriveRelationAreas assemble maxCellFraction groups (compacted s) (some touched)
  let allCells := (old.cells.map AreaCell.cell ++ touchedAreaCells old stale placed).dedup
  ⟨sortIndex ((old.index.filter fun a => a.id ∉ stale) ++ placed.map AreaRow.indexRow),
    allCells.filterMap (compactAreaCell old stale placed),
    buildWayAreaIndexFromFiles (compacted s).base⟩

end Derive

/-- The same index, the same areas in every cell, and the same index of ways. -/
structure SameAreas (A B : AreaTables γ) : Prop where
  index : A.index = B.index
  cells : ∀ c, lookup AreaCell.cell c A.cells = lookup AreaCell.cell c B.cells
  wayIndex : A.wayIndex = B.wayIndex

/-! ### What is derived -/

section Full

variable {assemble : List (Option (List Point)) → List (Option (List Point)) → Option (γ × BBox)}
  {maxCellFraction : ℚ} {groups : RowGroupIndex} {b : Base} {i : ℤ}

/-- The lines of its own ways decide on the area of a relation. -/
lemma relationArea_congr {line line' : ℤ → Option (List Point)} {r : Row RelationSpatialCols}
    (h : ∀ m ∈ wayMembers r, line m.ref = line' m.ref) :
    relationArea assemble b line r = relationArea assemble b line' r := by
  have hpart : ∀ inner, (rolePart inner (wayMembers r)).map line =
      (rolePart inner (wayMembers r)).map line' := by
    intro inner
    rw [rolePart, List.map_map, List.map_map]
    exact List.map_congr_left fun m hm => h m (List.mem_filter.mp hm).1
  simp only [relationArea, hpart]

lemma pivot_of_relationArea {line : ℤ → Option (List Point)} {r : Row RelationSpatialCols}
    {a : AreaRow γ} (h : relationArea assemble b line r = some a) :
    a.pivotId = r.id ∧ a.id = r.id + relationIdOffset := by
  unfold relationArea at h
  simp only at h
  split at h
  · cases h
  · obtain ⟨x, -, rfl⟩ := Option.map_eq_some_iff.mp h
    exact ⟨rfl, rfl⟩

/-- The area of a relation from the current data. -/
def areaAt (assemble : List (Option (List Point)) → List (Option (List Point)) → Option (γ × BBox))
    (s : Root) (i : ℤ) : Option (AreaRow γ) :=
  ((curSpatial s .relation i).filter fun r => relationQualifying r.cols.byid.attrs.tags).bind
    (relationArea assemble s.base (currentLine s))

/-- Without tiers a read of everything finds every row. -/
lemma mem_readAll (ha : BaseAgrees b) {t : Typ} {p : Row (SpatialCols t) → Bool}
    {r : Row (SpatialCols t)} :
    r ∈ currentRows (fresh b).deltas (cellsForBbox (catalogOf (fresh b)) t none)
        (filesOf (b.spatial t) (cellsForBbox (catalogOf (fresh b)) t none)) p ↔
      curSpatial (fresh b) t r.id = some r ∧ p r = true := by
  have hread := mem_currentRows (good_fresh b) (tiersRemember_fresh b) ha (not_exposed_fresh b t)
    (nodup_cellsForBbox (catalogOf (fresh b)) t none) (p := p) (r := r)
  refine hread.trans ⟨fun h => ⟨h.1, h.2.2⟩, fun h => ⟨h.1, ?_, h.2⟩⟩
  obtain ⟨e, he, hr⟩ := List.mem_flatMap.mp (mem_of_lookup h.1)
  have hcell := (ha t).own e he r hr
  have hin : e.cell ∈ cellsForBbox (catalogOf (fresh b)) t none :=
    List.mem_dedup.mpr (List.mem_append_left _ (List.mem_map_of_mem he))
  rw [hcell]
  exact decide_eq_true hin

lemma distinct_readAll (ha : BaseAgrees b) {t : Typ} (p : Row (SpatialCols t) → Bool) :
    Distinct Row.id (currentRows (fresh b).deltas (cellsForBbox (catalogOf (fresh b)) t none)
      (filesOf (b.spatial t) (cellsForBbox (catalogOf (fresh b)) t none)) p) := by
  rw [currentRows_where]
  exact (distinct_readCells (s := fresh b) (t := t) ha (nodup_cellsForBbox _ _ _)).filter _

/-- **What is derived from a base**: the area of every relation that is asked for. -/
lemma mem_derive (ha : BaseAgrees b) (hk : CoversWays (fresh b) groups) {ids : Option (List ℤ)}
    {a : AreaRow γ} : a ∈ deriveRelationAreas assemble maxCellFraction groups (fresh b) ids ↔
      areaAt assemble (fresh b) a.pivotId = some a ∧
        ids.all (fun l => decide (a.pivotId ∈ l)) = true := by
  -- the lines of the member ways are the current ones
  have hlines : ∀ (cand : List (Row RelationSpatialCols)) (r), r ∈ cand →
      relationArea assemble b (lineIn (resolveWayGeometries (fresh b) maxCellFraction groups
        (cand.filterMap fun r => r.cols.byid.bbox)
        (cand.flatMap fun r => (wayMembers r).map Member.ref).dedup)) r =
      relationArea assemble b (currentLine (fresh b)) r := by
    intro cand r hr
    refine relationArea_congr fun m hm => ?_
    have hin : m.ref ∈ (cand.flatMap fun r => (wayMembers r).map Member.ref).dedup :=
      List.mem_dedup.mpr (List.mem_flatMap.mpr ⟨r, hr, List.mem_map_of_mem hm⟩)
    exact (resolve_iff (good_fresh b) (tiersRemember_fresh b) ha hk hin).mpr
      (lineKnown_of_no_rows (tierRows_fresh b .way m.ref))
  unfold deriveRelationAreas areaAt
  simp only [List.mem_filterMap]
  constructor
  · rintro ⟨r, hr, hra⟩
    replace hra := (hlines _ r hr).symm.trans hra
    obtain ⟨hcur, hp⟩ := (mem_readAll ha).mp hr
    obtain ⟨hq, hids⟩ := Bool.and_eq_true_iff.mp hp
    have hid := (pivot_of_relationArea hra).1
    rw [hid, hcur, Option.filter_some, if_pos hq, Option.bind_some]
    exact ⟨hra, hids⟩
  · rintro ⟨ha', hids⟩
    obtain ⟨r, hr, hra⟩ := Option.bind_eq_some_iff.mp ha'
    obtain ⟨hcur, hq⟩ := Option.filter_eq_some_iff.mp hr
    have hid := (pivot_of_relationArea hra).1
    rw [hid] at hcur hids
    have hmem := (mem_readAll (t := .relation) ha (p := fun r =>
      relationQualifying r.cols.byid.attrs.tags && ids.all fun l => decide (r.id ∈ l))).mpr
        ⟨hcur, Bool.and_eq_true_iff.mpr ⟨hq, hids⟩⟩
    exact ⟨r, hmem, (hlines _ r hmem).trans hra⟩

/-- Every area is derived once. -/
lemma distinct_derive (ha : BaseAgrees b) (ids : Option (List ℤ)) :
    Distinct AreaRow.id (deriveRelationAreas assemble maxCellFraction groups (fresh b) ids) := by
  unfold deriveRelationAreas
  have hu := distinct_readAll (t := .relation) ha fun r =>
    relationQualifying r.cols.byid.attrs.tags && ids.all fun l => decide (r.id ∈ l)
  have hshift : Distinct (fun r : Row RelationSpatialCols => r.id + relationIdOffset)
      (currentRows (t := .relation) (fresh b).deltas
        (cellsForBbox (catalogOf (fresh b)) .relation none)
        (filesOf (b.spatial .relation) (cellsForBbox (catalogOf (fresh b)) .relation none)) fun r =>
          relationQualifying r.cols.byid.attrs.tags && ids.all fun l => decide (r.id ∈ l)) := by
    unfold Distinct at hu ⊢
    rw [show (fun r : Row RelationSpatialCols => r.id + relationIdOffset) =
      (fun x : ℤ => x + relationIdOffset) ∘ Row.id from rfl, ← List.map_map]
    exact hu.map fun x y hxy => by simpa using hxy
  exact hshift.filterMap fun r a hra => (pivot_of_relationArea hra).2

end Full

/-! ### What the runs touch -/

/-- The ways of a relation that no tier has a row of have none either. -/
def WaysFollow (s : Root) : Prop :=
  ∀ i r, byId i (s.base.byid .relation).rows = some r → tierRows s.deltas .relation i = [] →
    ∀ m ∈ r.cols.members, m.type = .way → tierRows s.deltas .way m.ref = []

section Runs

variable {s : Root} {f : Fetched} {i : ℤ}

lemma tierRows_runOnce (hg : Good s.deltas) (hf : f.diffs ≠ []) {t : Typ} :
    tierRows (runOnce s f).deltas t i = [] ↔
      (tierRun s f).row t i = none ∧ tierRows s.deltas t i = [] := by
  have hR : (tierRun s f).OneRow := (resolvedFor_resolvedOf hg f).once
  have hsilent : ∀ d : Deltas, changes d t i = none ↔ winner d t i = none := fun d =>
    Option.map_eq_none_iff
  have hstep := congrFun (changes_runTiers hg hR t) i
  rw [overlay_apply] at hstep
  rw [← winner_eq_none, ← winner_eq_none, ← hsilent, ← hsilent, runOnce_of_diffs hf]
  show changes (runTiers s.deltas (tierRun s f)) t i = none ↔ _
  rw [hstep, Option.or_eq_none_iff]
  exact and_congr_left fun _ => Option.map_eq_none_iff

/-- **A run that touches a way touches the relations that have it.** -/
lemma waysFollow_runOnce (hg : Good s.deltas) (hm : MemberCovers s.base) (hw : WaysFollow s) :
    WaysFollow (runOnce s f) := by
  by_cases hf : f.diffs = []
  · rw [runOnce_of_nil hf]
    exact hw
  intro i r hr hnone m hmem htype
  rw [base_runOnce] at hr
  obtain ⟨hrow, hbefore⟩ := (tierRows_runOnce hg hf).mp hnone
  refine (tierRows_runOnce hg hf).mpr ⟨?_, hw i r hr hbefore m hmem htype⟩
  by_contra hway
  -- the way is touched, so the relation is a parent of a touched way
  have hcur : cur s .relation i = some r := (cur_of_no_rows hbefore).trans hr
  have hin : m.ref ∈ (workOf s f).wayIds := by
    rw [row_way hg] at hway
    obtain ⟨y, hy⟩ := Option.ne_none_iff_exists'.mp hway
    obtain ⟨x, hx, -⟩ := Option.map_eq_some_iff.mp hy
    exact mem_of_touchedRow (fun _ => keptIds_subset_wayIds) hx
  have hseed : i ∈ Work.seed (workOf s f) := by
    have hpar := mem_parentRelations hg hm hcur hmem hin
    exact List.mem_dedup.mpr (List.mem_append_right _ hpar)
  have htouched := relationIds_of_seed (w := workOf s f) hg hseed (Option.isSome_of_eq_some hcur)
  rw [row_relation hg, Option.map_eq_none_iff] at hrow
  have hcontra := eq_none_of_touchedRow hrow htouched
  rw [hcur] at hcontra
  cases hcontra

lemma waysFollow_runs (b : Base) (hm : MemberCovers b) (fs : List Fetched) :
    WaysFollow (runs (fresh b) fs) := by
  induction fs using List.reverseRecOn with
  | nil => exact fun i r _ _ m _ _ => tierRows_fresh b .way m.ref
  | append_singleton fs f ih =>
    rw [runs_append]
    refine waysFollow_runOnce (good_runs (good_fresh b) fs) ?_ ih
    rw [base_runs]
    exact hm

end Runs

/-! ### Before and after -/

section Compaction

variable {assemble : List (Option (List Point)) → List (Option (List Point)) → Option (γ × BBox)}
  {maxCellFraction : ℚ} {groups groups' : RowGroupIndex} {s : Root} {i : ℤ}

lemma areaAt_compacted (hp : Preserves s (compact s)) :
    areaAt assemble (compacted s) i = areaAt assemble s i := by
  have hline : currentLine (compacted s) = currentLine s := by
    funext w
    rw [currentLine, currentLine, curSpatial_compacted hp]
  rw [areaAt, areaAt, curSpatial_compacted hp, hline]
  rfl

/-- A relation that no tier has a row of has the area it had. -/
lemma areaAt_of_no_rows (ha : BaseAgrees s.base) (hw : WaysFollow s)
    (hn : tierRows s.deltas .relation i = []) :
    areaAt assemble s i = areaAt assemble (fresh s.base) i := by
  have hcur : curSpatial s .relation i = curSpatial (fresh s.base) .relation i :=
    (curSpatial_of_no_rows hn).trans (curSpatial_of_no_rows
      (tierRows_fresh s.base .relation i)).symm
  rw [areaAt, areaAt, hcur]
  rcases hr : curSpatial (fresh s.base) .relation i with _ | r
  · rfl
  by_cases hq : relationQualifying r.cols.byid.attrs.tags = true
  · rw [Option.filter_some, if_pos hq, Option.bind_some, Option.bind_some]
    refine relationArea_congr fun m hm => ?_
    obtain ⟨hmem, htype⟩ := List.mem_filter.mp hm
    have hbyid : byId i (s.base.byid .relation).rows = some (r.map byidCols) := by
      rw [(ha .relation).same i]
      exact congrArg (Option.map (Row.map byidCols)) hr
    have hno := hw i _ hbyid hn m hmem (of_decide_eq_true htype)
    rw [currentLine, currentLine, curSpatial_of_no_rows hno,
      curSpatial_of_no_rows (tierRows_fresh s.base .way m.ref)]
    rfl
  · rw [Option.filter_some, if_neg hq]
    rfl

/-- The relations whose areas are derived again. -/
lemma mem_touched (hg : Good s.deltas) :
    i ∈ (rawView s.deltas .relation).map DeltaRow.id ↔ tierRows s.deltas .relation i ≠ [] := by
  have hlook := deltaById_rawView (t := .relation) hg i
  simp only [deltaById] at hlook
  rw [← lookup_isSome, hlook, Option.isSome_map, Option.isSome_iff_ne_none, Ne, winner_eq_none]

/-- The id of an area is stale exactly if its relation is touched. -/
lemma mem_stale {touched : List ℤ} {a : AreaRow γ} (h : a.id = a.pivotId + relationIdOffset) :
    a.id ∈ touched.map (· + relationIdOffset) ↔ a.pivotId ∈ touched := by
  rw [h, List.mem_map]
  constructor
  · rintro ⟨j, hj, he⟩
    rwa [← add_right_cancel he]
  · exact fun hin => ⟨_, hin, rfl⟩

end Compaction

/-! ### Putting the tables together -/

section Merge

variable {O P N rows rows' : List (AreaRow γ)} {stale : List ℤ} {c : Cell} {a : AreaRow γ}

lemma mem_sortCell : a ∈ sortCell rows ↔ a ∈ rows := (List.perm_insertionSort _ rows).mem_iff

lemma distinct_sortCell : Distinct AreaRow.id (sortCell rows) ↔ Distinct AreaRow.id rows :=
  ((List.perm_insertionSort _ rows).map AreaRow.id).nodup_iff

lemma mem_cellEntry : a ∈ (cellEntry c rows).elim [] AreaCell.rows ↔ a ∈ rows := by
  unfold cellEntry
  split
  · rename_i hnil
    rw [hnil]
    rfl
  · exact mem_sortCell

/-- A cell with the same areas has the same file. -/
lemma cellEntry_congr (hu : Distinct AreaRow.id rows) (hu' : Distinct AreaRow.id rows')
    (h : ∀ a, a ∈ rows ↔ a ∈ rows') : cellEntry c rows = cellEntry c rows' := by
  have hnil : rows = [] ↔ rows' = [] := by
    rw [List.eq_nil_iff_forall_not_mem, List.eq_nil_iff_forall_not_mem]
    exact forall_congr' fun a => not_congr (h a)
  have hsort : sortCell rows = sortCell rows' := by
    refine hu.sort_eq (fun a => toLex (a.hilbert, a.id)) hu' (fun x hx y hy he => ?_) h
    have hid : x.id = y.id := congrArg (fun p => (ofLex p).2) he
    exact hu.eq_of_key hx hy hid
  simp only [cellEntry, hnil, hsort]

lemma lookup_areaCells : lookup AreaCell.cell c (areaCells O) =
    cellEntry c (O.filter fun a => a.cell = c) := by
  have hmap : areaCells O = (O.map AreaRow.cell).dedup.filterMap fun c =>
      some ⟨c, sortCell (O.filter fun a => a.cell = c)⟩ :=
    (congrFun List.filterMap_eq_map _).symm
  have hkey : ∀ (c : Cell) (e : AreaCell γ),
      some (⟨c, sortCell (O.filter fun a => a.cell = c)⟩ : AreaCell γ) = some e → e.cell = c := by
    rintro c e he
    cases he
    rfl
  have hnil : (O.filter fun a => a.cell = c) = [] ↔ c ∉ (O.map AreaRow.cell).dedup := by
    rw [List.filter_eq_nil_iff, List.mem_dedup, List.mem_map]
    simp
  rw [hmap, cellEntry]
  by_cases hc : c ∈ (O.map AreaRow.cell).dedup
  · rw [lookup_filterMap_of_mem hkey hc, if_neg fun h => hnil.mp h hc]
  · rw [lookup_filterMap_of_not_mem hkey hc, if_pos (hnil.mpr hc)]

/-- What is kept and what is derived again are together what is derived from scratch. -/
structure Merges (O P N : List (AreaRow γ)) (stale : List ℤ) : Prop where
  old : Distinct AreaRow.id O
  placed : Distinct AreaRow.id P
  full : Distinct AreaRow.id N
  again : ∀ a ∈ P, a.id ∈ stale
  mem : ∀ a, a ∈ N ↔ a ∈ O ∧ a.id ∉ stale ∨ a ∈ P

variable (h : Merges O P N stale)

include h

/-- Kept rows and new rows have different ids. -/
lemma Merges.distinct (hsub : ∀ a ∈ rows, a.id ∉ stale) (hu : Distinct AreaRow.id rows)
    (p : AreaRow γ → Bool) : Distinct AreaRow.id (rows ++ P.filter p) := by
  refine distinct_append hu (h.placed.filter p) fun x hx hx' => ?_
  obtain ⟨a, ha, rfl⟩ := List.mem_map.mp hx
  obtain ⟨a', ha', he⟩ := List.mem_map.mp hx'
  exact hsub a' ha' (he ▸ h.again a (List.mem_filter.mp ha).1)

lemma Merges.index_eq :
    sortIndex (((sortIndex (O.map AreaRow.indexRow)).filter fun a => a.id ∉ stale) ++
      P.map AreaRow.indexRow) = sortIndex (N.map AreaRow.indexRow) := by
  have hperm := List.perm_insertionSort (fun a b : AreaRow Unit => a.id ≤ b.id)
    (O.map AreaRow.indexRow)
  have hmap : ∀ {l : List (AreaRow γ)}, Distinct AreaRow.id (l.map AreaRow.indexRow) ↔
      Distinct AreaRow.id l := distinct_map fun _ => rfl
  have hold : Distinct AreaRow.id (sortIndex (O.map AreaRow.indexRow)) :=
    ((hperm.map AreaRow.id).nodup_iff).mpr (hmap.mpr h.old)
  have hu : Distinct AreaRow.id (((sortIndex (O.map AreaRow.indexRow)).filter fun a =>
      a.id ∉ stale) ++ P.map AreaRow.indexRow) := by
    refine distinct_append (hold.filter _) (hmap.mpr h.placed) fun x hx hx' => ?_
    obtain ⟨b, hb, rfl⟩ := List.mem_map.mp hx
    obtain ⟨a, ha, rfl⟩ := List.mem_map.mp hb
    obtain ⟨b', hb', he⟩ := List.mem_map.mp hx'
    have hnot : b'.id ∉ stale := of_decide_eq_true (List.mem_filter.mp hb').2
    exact hnot (he ▸ h.again a ha)
  refine hu.sort_eq AreaRow.id (hmap.mpr h.full)
    (fun x hx y hy he => hu.eq_of_key hx hy he) fun b => ?_
  simp only [List.mem_append, List.mem_filter, sortIndex, hperm.mem_iff, List.mem_map,
    decide_eq_true_eq]
  constructor
  · rintro (⟨⟨a, ha, rfl⟩, hn⟩ | ⟨a, ha, rfl⟩)
    · exact ⟨a, (h.mem a).mpr (.inl ⟨ha, hn⟩), rfl⟩
    · exact ⟨a, (h.mem a).mpr (.inr ha), rfl⟩
  · rintro ⟨a, ha, rfl⟩
    rcases (h.mem a).mp ha with ⟨ha, hn⟩ | ha
    · exact .inl ⟨⟨a, ha, rfl⟩, hn⟩
    · exact .inr ⟨a, ha, rfl⟩

/-- A cell that is written anew. -/
lemma Merges.touched_eq :
    cellEntry c ((((lookup AreaCell.cell c (areaCells O)).elim [] AreaCell.rows).filter
      fun a => a.id ∉ stale) ++ P.filter fun a => a.cell = c) =
    cellEntry c (N.filter fun a => a.cell = c) := by
  rw [lookup_areaCells]
  have hkept : ∀ a, a ∈ (cellEntry c (O.filter fun a => a.cell = c)).elim [] AreaCell.rows ↔
      a ∈ O ∧ a.cell = c := fun a => mem_cellEntry.trans (by simp)
  have hu :
      Distinct AreaRow.id ((cellEntry c (O.filter fun a => a.cell = c)).elim [] AreaCell.rows) := by
    unfold cellEntry
    split
    · exact distinct_nil
    · exact distinct_sortCell.mpr (h.old.filter _)
  refine cellEntry_congr (h.distinct (fun a ha => ?_) (hu.filter _) _) (h.full.filter _) fun a => ?_
  · exact of_decide_eq_true (List.mem_filter.mp ha).2
  · simp only [List.mem_append, List.mem_filter, hkept, decide_eq_true_eq, h.mem]
    tauto

/-- A cell that is kept as it is. -/
lemma Merges.kept_eq (hO : ∀ a ∈ O, a.cell = c → a.id ∉ stale) (hP : ∀ a ∈ P, a.cell ≠ c) :
    lookup AreaCell.cell c (areaCells O) = cellEntry c (N.filter fun a => a.cell = c) := by
  rw [lookup_areaCells]
  refine cellEntry_congr (h.old.filter _) (h.full.filter _) fun a => ?_
  simp only [List.mem_filter, decide_eq_true_eq, h.mem]
  constructor
  · rintro ⟨ha, hc⟩
    exact ⟨.inl ⟨ha, hO a ha hc⟩, hc⟩
  · rintro ⟨⟨ha, -⟩ | ha, hc⟩
    · exact ⟨ha, hc⟩
    · exact absurd hc (hP a ha)

/-- **Every cell has the areas it has from scratch**, be it written anew or kept. -/
lemma Merges.cells_eq {old : AreaTables γ} (hindex : old.index = sortIndex (O.map AreaRow.indexRow))
    (hcells : old.cells = areaCells O) :
    lookup AreaCell.cell c
        ((old.cells.map AreaCell.cell ++ touchedAreaCells old stale P).dedup.filterMap
        (compactAreaCell old stale P)) = lookup AreaCell.cell c (areaCells N) := by
  have hkey : ∀ c e, compactAreaCell old stale P c = some e → e.cell = c := by
    intro c e he
    unfold compactAreaCell cellEntry at he
    simp only at he
    split_ifs at he
    · cases he
      rfl
    · exact key_of_lookup he
  have hcell : compactAreaCell old stale P c = lookup AreaCell.cell c (areaCells N) := by
    rw [lookup_areaCells]
    by_cases ht : c ∈ touchedAreaCells old stale P
    · simp only [compactAreaCell, ht, not_true_eq_false, if_false, hcells]
      exact h.touched_eq
    · simp only [compactAreaCell, ht, not_false_eq_true, if_true, hcells]
      refine h.kept_eq (fun a ha hc hst => ht ?_) fun a ha hc => ht ?_
      · refine List.mem_append_left _ (hc ▸ List.mem_map_of_mem (f := AreaRow.cell)
          (a := a.indexRow) (List.mem_filter.mpr ⟨?_, decide_eq_true hst⟩))
        rw [hindex]
        exact (List.perm_insertionSort _ _).mem_iff.mpr (List.mem_map_of_mem ha)
      · exact List.mem_append_right _ (hc ▸ List.mem_map_of_mem ha)
  by_cases hin : c ∈ (old.cells.map AreaCell.cell ++ touchedAreaCells old stale P).dedup
  · rw [lookup_filterMap_of_mem hkey hin, hcell]
  · -- a cell that is not looked at has no file
    rw [lookup_filterMap_of_not_mem hkey hin, ← hcell]
    rw [List.mem_dedup, List.mem_append, not_or] at hin
    simp only [compactAreaCell, hin.2, not_false_eq_true, if_true]
    exact (lookup_eq_none.mpr hin.1).symm

end Merge

section Compacted

variable {assemble : List (Option (List Point)) → List (Option (List Point)) → Option (γ × BBox)}
  {maxCellFraction : ℚ} {groups groups' : RowGroupIndex} {s : Root}

/-- **The areas that are kept and those that are derived again** are those derived from scratch. -/
lemma merges_compacted (hg : Good s.deltas) (ha : BaseAgrees s.base) (hw : WaysFollow s)
    (hp : Preserves s (compact s)) (hk : CoversWays (fresh s.base) groups)
    (hk' : CoversWays (compacted s) groups') :
    Merges (deriveRelationAreas assemble maxCellFraction groups (fresh s.base) none)
      (deriveRelationAreas assemble maxCellFraction groups' (compacted s)
        (some ((rawView s.deltas .relation).map DeltaRow.id)))
      (deriveRelationAreas assemble maxCellFraction groups' (compacted s) none)
      (((rawView s.deltas .relation).map DeltaRow.id).map (· + relationIdOffset)) := by
  have ha' : BaseAgrees (compacted s).base := hp.agrees
  have hmem : ∀ ids (a : AreaRow γ),
      a ∈ deriveRelationAreas assemble maxCellFraction groups' (compacted s) ids ↔
        areaAt assemble (compacted s) a.pivotId = some a ∧
          ids.all (fun l => decide (a.pivotId ∈ l)) = true := fun ids a => mem_derive ha' hk'
  have hid : ∀ (r : Root) (a : AreaRow γ), areaAt assemble r a.pivotId = some a →
      a.id = a.pivotId + relationIdOffset := by
    intro r a h
    obtain ⟨x, -, hx⟩ := Option.bind_eq_some_iff.mp h
    obtain ⟨h1, h2⟩ := pivot_of_relationArea hx
    rw [h1, h2]
  refine ⟨distinct_derive ha none, distinct_derive (b := (compacted s).base) ha' _,
    distinct_derive (b := (compacted s).base) ha' none, fun a h => ?_, fun a => ?_⟩
  · obtain ⟨hat, hin⟩ := (hmem _ a).mp h
    exact (mem_stale (hid _ a hat)).mpr (of_decide_eq_true hin)
  · rw [hmem, hmem, mem_derive ha hk]
    simp only [Option.all_none, Option.all_some, and_true, decide_eq_true_eq]
    constructor
    · intro hat
      by_cases htouched : a.pivotId ∈ (rawView s.deltas .relation).map DeltaRow.id
      · exact .inr ⟨hat, htouched⟩
      · refine .inl ⟨?_, fun hst => htouched ((mem_stale (hid _ a hat)).mp hst)⟩
        have hno : tierRows s.deltas .relation a.pivotId = [] := by
          rw [mem_touched hg] at htouched
          exact not_not.mp htouched
        rw [← areaAt_of_no_rows ha hw hno, ← areaAt_compacted hp, hat]
    · rintro (⟨hat, hst⟩ | ⟨hat, -⟩)
      · have hno : tierRows s.deltas .relation a.pivotId = [] := by
          by_contra hne
          exact hst ((mem_stale (hid _ a hat)).mpr ((mem_touched hg).mpr hne))
        rw [areaAt_compacted hp, areaAt_of_no_rows ha hw hno, hat]
      · exact hat

/-- The two copies of the ways give the same index. -/
lemma wayIndex_eq {b : Base} (ha : BaseAgrees b) :
    buildWayAreaIndexFromFiles b = buildWayAreaIndex (fresh b) := by
  have hu : Distinct WayAreaRow.id (((b.byid .way).rows.filter wayQualifying).map
      (wayAreaRow b.promotedKeys)) :=
    (distinct_map fun _ => rfl).mpr ((distinct_rows (b.byid .way)).filter _)
  have hread := distinct_readAll (b := b) ha (t := .way) fun r => wayQualifying (r.map byidCols)
  have hu' : Distinct WayAreaRow.id (((currentRows (t := .way) (fresh b).deltas
      (cellsForBbox (catalogOf (fresh b)) .way none)
      (filesOf (b.spatial .way) (cellsForBbox (catalogOf (fresh b)) .way none)) fun r =>
        wayQualifying (r.map byidCols)).map (Row.map byidCols)).map
          (wayAreaRow b.promotedKeys)) :=
    (distinct_map fun _ => rfl).mpr ((distinct_map fun _ => rfl).mpr hread)
  refine hu.sort_eq WayAreaRow.id hu' (fun x hx y hy he => hu.eq_of_key hx hy he)
    fun x => ?_
  constructor
  · intro hx
    obtain ⟨r, hr, rfl⟩ := List.mem_map.mp hx
    obtain ⟨hmem, hq⟩ := List.mem_filter.mp hr
    have hlook := (distinct_rows (b.byid .way)).lookup_of_mem hmem
    have hsame := (ha .way).same r.id
    simp only [byId] at hsame
    rw [hlook] at hsame
    obtain ⟨z, hz, rfl⟩ := Option.map_eq_some_iff.mp hsame.symm
    exact List.mem_map_of_mem (List.mem_map_of_mem ((mem_readAll ha).mpr ⟨hz, hq⟩))
  · intro hx
    obtain ⟨r, hr, rfl⟩ := List.mem_map.mp hx
    obtain ⟨z, hz, rfl⟩ := List.mem_map.mp hr
    obtain ⟨hcur, hq⟩ := (mem_readAll ha).mp hz
    have hsame := (ha .way).same z.id
    have hcur' : byId z.id ((b.spatial .way).flatMap CellFiles.rows) = some z := hcur
    rw [hcur', Option.map_some] at hsame
    exact List.mem_map_of_mem (List.mem_filter.mpr ⟨mem_of_lookup hsame, hq⟩)

/-- **Areas after compaction are those derived from scratch**, where compaction keeps the data. -/
lemma sameAreas_of_preserves (hg : Good s.deltas) (ha : BaseAgrees s.base) (hw : WaysFollow s)
    (hp : Preserves s (compact s)) (hk : CoversWays (fresh s.base) groups)
    (hk' : CoversWays (compacted s) groups') :
    SameAreas (compactAreas assemble maxCellFraction groups'
        (buildAreas assemble maxCellFraction groups (fresh s.base)) s)
      (buildAreas assemble maxCellFraction groups' (compacted s)) := by
  have hm :
      Merges (deriveRelationAreas assemble maxCellFraction groups (fresh s.base) none) _ _ _ :=
    merges_compacted hg ha hw hp hk hk'
  constructor
  · simp only [compactAreas, buildAreas]
    exact hm.index_eq
  · intro c
    simp only [compactAreas]
    rw [hm.cells_eq rfl rfl]
    simp only [buildAreas]
  · simp only [compactAreas, buildAreas]
    exact wayIndex_eq (b := (compacted s).base) hp.agrees

end Compacted

def parkTags : Tags := [("name", "Park"), ("type", "multipolygon")]

def parkRing : List Point := [⟨0, 0⟩, ⟨0, 100⟩, ⟨100, 0⟩, ⟨0, 0⟩]

/-- A park with its outline, which has a name too. -/
def park : World where
  rows
    | .node => [node 10 ⟨0, 0⟩, node 11 ⟨0, 100⟩, node 12 ⟨100, 0⟩]
    | .way => [{ way 1 [10, 11, 12, 10] parkRing with
        cols.byid.attrs.tags := some [("name", "Fence")] }]
    | .relation => [{ relation 5 [⟨.way, 1, "outer"⟩] (wayBBox parkRing) with
        cols.byid.attrs.tags := some parkTags }]
  once t := by cases t <;> simp [Distinct, node, way, relation]
  placed t := by cases t <;> simp [node, way, relation]
  refs := by simp [way]

/-- The polygon of one outer way, given by its ring. -/
def soleRing (outer inner : List (Option (List Point))) : Option (List Point × BBox) :=
  match outer, inner with
  | [some ring], [] =>
    if 4 ≤ ring.length ∧ ring.head? = ring.getLast? then (wayBBox ring).map fun b =>
      (ring, b) else none
  | _, _ => none

/-- A corner of the park moves. -/
def cornerMoves : List Fetched := [⟨[diff 1 [change 11 2 (some ⟨0, 50⟩)] [] []], some 10⟩]

/-- The index of its files, each with one row group, and that of the files after compaction. -/
def parkIndex : RowGroupIndex := wayRowGroups (fun rows => [rows]) park.base

def movedIndex : RowGroupIndex :=
  wayRowGroups (fun rows => [rows]) (compacted (runs (fresh park.base) cornerMoves)).base

/-- A closed way that turns on the node of `oneNode`. -/
def plaza : Row WaySpatialCols :=
  let p : Point := ⟨450000000, -900000000⟩
  { way 7 [1, 1, 1, 1] [p, p, p, p] with
    cell := some [0]
    cols.byid.attrs.tags := some [("name", "Plaza")] }

def onePlaza : Base :=
  { oneNode with
    byid := fun
      | .node => oneNode.byid .node
      | .way => ⟨[⟨7, 7, [plaza.map byidCols], by simp, by simp, by simp [plaza, way]⟩], by simp⟩
      | .relation => oneNode.byid .relation
    spatial := fun
      | .node => oneNode.spatial .node
      | .way => [⟨[0], [[plaza]]⟩]
      | .relation => []
    nodeWay := [⟨1, 1, [(1, 7)], by simp⟩] }

lemma baseAgrees_onePlaza : BaseAgrees onePlaza := by
  intro t
  cases t with
  | node => exact baseAgrees_oneNode .node
  | way => exact agrees_single (t := .way) (r := plaza) rfl rfl
  | relation => exact baseAgrees_oneNode .relation

end OsmParquet.Areas
