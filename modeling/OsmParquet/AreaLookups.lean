import OsmParquet.AreaStatements
import OsmParquet.CoveredPositions

/-!
What the statements about areas look up.

Over a dataset without tiers, whose areas were derived from it, an area filter and `is_in` go by the
same plain meaning: an element is in an area if one of its vertices is strictly within the shape of
the area. Both read only the cells around a box. What is missing from these cells has no vertex in
the box, since a leaf covers every vertex of the dataset.
-/

namespace OsmParquet.AreaLookups

open OsmParquet.KeyedList OsmParquet.Layers OsmParquet.Rows OsmParquet.Tiers OsmParquet.TierSteps
open OsmParquet.ByidReads OsmParquet.Cells OsmParquet.CellTree OsmParquet.Updater
  OsmParquet.Resolves
open OsmParquet.PrevCells OsmParquet.SpatialReads OsmParquet.RunSteps OsmParquet.Findable
  OsmParquet.RelationQuery
open OsmParquet.MemberGeometry OsmParquet.Areas OsmParquet.CoveredPositions
  OsmParquet.AreaStatements
open OsmParquet.RowGroups (RowGroupIndex)
open OsmParquet.Recurse (Contains contains_boxAround meets_of_point toE7_intCast)
open OsmParquet.RecurseTransitive (mem_buildByidSelect mem_hydrateViaBbox hydrateViaBbox)

variable {γ : Type}

/-! ### The plain meaning -/

section Meaning

variable (assemble : List (Option (List Point)) → List (Option (List Point)) → Option (γ × BBox))
variable (G : Shapes γ) (b : Base)

/-- The shape of an area, from the rows of the dataset. -/
def shapeOf : SetRow → Option γ
  | .element .way r =>
    if isClosed r.cols.byid.refs then (r.cols.geometry.filter fun g => 4 ≤ g.length).map
      G.wayPolygon else none
  | .element _ _ => none
  | .area a => (areaAt assemble (fresh b) a.pivotId).map AreaRow.geometry

def memberPoints (m : Member) : Option (List Point) :=
  match m.type with
  | .node => (curCoord (fresh b) m.ref).map fun p => [p]
  | .way => currentLine (fresh b) m.ref
  | .relation => none

/-- The vertices of an element: those of a relation are the ones of its members. -/
def vertices : SetRow → List Point
  | .element .node r => r.cols.coord.toList
  | .element .way r => r.cols.geometry.getD []
  | .element .relation r => (r.cols.byid.members.filterMap (memberPoints b)).flatten
  | .area _ => []

/-- **An element is in an area**: a vertex is strictly within the shape. -/
def Inside (x a : SetRow) : Prop :=
  ∃ g, shapeOf assemble G b a = some g ∧ ∃ p ∈ vertices b x, G.within p.lat p.lon g

/-- A row of the dataset, or an area derived from it. -/
def Stored : SetRow → Prop
  | .element t r => curSpatial (fresh b) t r.id = some r
  | .area a => ∃ full, areaAt assemble (fresh b) a.pivotId = some full ∧ a = full.indexRow

/-- A way whose line is known. -/
def Drawn : SetRow → Prop
  | .element .way r => r.cols.geometry.isSome
  | _ => True

/-- A row is of one of the types. -/
def OfType (types : List Typ) : SetRow → Prop
  | .element t _ => t ∈ types
  | .area _ => False

/-- The id that an area filter has for an area. Those of ways end where those of relations begin. -/
def HasAreaId (i : ℤ) : SetRow → Prop
  | .element .way r => isClosed r.cols.byid.refs ∧ i = r.id + wayIdOffset ∧ wayIdOffset ≤ i ∧
    i < relationIdOffset
  | .element _ _ => False
  | .area a => i = a.id ∧ relationIdOffset ≤ i

/-- A row of a set is of the element or area: the type and the id are the same. -/
def IsOf : NamedRow → SetRow → Prop
  | .element t i _ _, .element t' r => t = t' ∧ i = r.id
  | .area i _, .area a => i = a.id
  | _, _ => False

/-- The areas that an area filter names. -/
def Names : AreaRef → SetRow → Prop
  | .set rows, a => Stored assemble b a ∧ ∃ x ∈ rows, IsOf x a
  | .id i, a => Stored assemble b a ∧ HasAreaId i a

/-- A row of a set has the refs and the cell of the row of the dataset, and the cell is the text of
its key. Only ways and areas of relations are looked up. -/
def UpToDate : NamedRow → Prop
  | .element .way i cell refs => ∃ r, curSpatial (fresh b) .way i = some r ∧
    refs = r.cols.byid.refs ∧
      cell = r.cell.map .text
  | .element _ _ _ _ => True
  | .area i cell => ∃ a, Stored assemble b (.area a) ∧ i = a.id ∧ cell = some (.text a.cell)

/-- The rows of the set that a filter names. -/
def namedRows : AreaRef → List NamedRow
  | .set rows => rows
  | .id _ => []

end Meaning

/-- What is known of the shapes: they lie in the boxes around what they are made of, and a line
meets a box that has one of its vertices. -/
structure ShapesOk (G : Shapes γ)
    (assemble : List (Option (List Point)) → List (Option (List Point)) → Option (γ × BBox)) :
    Prop where
  ring : ∀ ring lat lon, G.within lat lon (G.polygon ring) →
    ∃ box ∈ wayBBox ring, (boxOf box).Holds lat lon
  assembled : ∀ outer inner g box, assemble outer inner = some (g, box) →
    ∀ lat lon, G.within lat lon g → (boxOf box).Holds lat lon
  line : ∀ (line : List Point) (q : Box), ∀ p ∈ line, q.Holds p.lat p.lon → G.meetsBox line q

/-- What a build makes: the copies agree, the rows are in their cells, the boxes are around the
vertices, and a leaf covers every vertex. -/
structure Built (b : Base) : Prop where
  agrees : BaseAgrees b
  laid : Laid b
  wayBox : ∀ i (r : Row WaySpatialCols), curSpatial (fresh b) .way i = some r →
    ∀ line ∈ r.cols.geometry, line ≠ [] ∧ r.cols.byid.bbox = wayBBox line
  closed : ∀ i (r : Row WaySpatialCols), curSpatial (fresh b) .way i = some r →
    r.cols.byid.isClosed = isClosed r.cols.byid.refs
  relationBox : ∀ i (r : Row RelationSpatialCols), curSpatial (fresh b) .relation i = some r →
    ∀ p ∈ vertices b (.element .relation r), ∃ box ∈ r.cols.byid.bbox, (boxOf box).Holds p.lat p.lon
  covered : ∀ t i (r : Row (SpatialCols t)), curSpatial (fresh b) t i = some r →
    ∀ p ∈ vertices b (.element t r), InWorld p ∧ Covered b.leafCells p

/-! ### Vertices and shapes -/

section Vertices

variable {assemble : List (Option (List Point)) → List (Option (List Point)) → Option (γ × BBox)}
variable {G : Shapes γ} {b : Base}

lemma anyVertexWithin_iff {pts : List Point} {g : γ} :
    G.anyVertexWithin pts g ↔ ∃ p ∈ pts, G.within p.lat p.lon g := by
  unfold Shapes.anyVertexWithin Shapes.within
  simp only [Bool.and_eq_true]
  split_ifs with h
  · rw [List.any_filter]
    simp only [List.any_eq_true, Bool.and_eq_true]
    exact exists_congr fun p => and_congr_right fun _ => and_comm
  · refine iff_of_false not_false ?_
    rintro ⟨p, hp, hcovers, -⟩
    exact h (List.any_eq_true.mpr ⟨p, hp, hcovers⟩)

/-! ### Boxes around vertices -/

lemma holds_of_contains {c box : BBox} (h : Contains c box) {lat lon : ℚ}
    (hbox : (boxOf box).Holds lat lon) : (boxOf c).Holds lat lon := by
  obtain ⟨h1, h2, h3, h4⟩ := h
  obtain ⟨b1, b2, b3, b4⟩ := hbox
  exact ⟨(Int.cast_le.mpr h1).trans b1, b2.trans (Int.cast_le.mpr h3),
    (Int.cast_le.mpr h2).trans b3, b4.trans (Int.cast_le.mpr h4)⟩

lemma contains_ofPoint {c : BBox} {p : Point} :
    Contains c (BBox.ofPoint p) ↔ (boxOf c).Holds p.lat p.lon := by
  simp only [Contains, BBox.ofPoint, Box.Holds, boxOf, Int.cast_le]
  tauto

/-- The box around boxes lies in every box that they lie in. -/
lemma boxAround_le {bs : List BBox} {c box : BBox} (hbox : boxAround bs = some box)
    (h : ∀ x ∈ bs, Contains c x) : Contains c box := by
  have hfold : ∀ (bs : List BBox) (a : BBox), Contains c a → (∀ x ∈ bs, Contains c x) →
      Contains c (bs.foldl BBox.union a) := by
    intro bs
    induction bs with
    | nil => exact fun a ha _ => ha
    | cons x bs ih =>
      intro a ha hall
      refine ih _ ?_ fun y hy => hall y (List.mem_cons_of_mem x hy)
      obtain ⟨a1, a2, a3, a4⟩ := ha
      obtain ⟨x1, x2, x3, x4⟩ := hall x List.mem_cons_self
      exact ⟨le_min a1 x1, le_min a2 x2, max_le a3 x3, max_le a4 x4⟩
  cases bs with
  | nil => cases hbox
  | cons a bs =>
    cases hbox
    exact hfold bs a (h a List.mem_cons_self) fun x hx => h x (List.mem_cons_of_mem a hx)

/-- A way's box holds its vertices. -/
lemma holds_wayBBox {line : List Point} {p : Point} (hp : p ∈ line) :
    ∃ box, wayBBox line = some box ∧ (boxOf box).Holds p.lat p.lon := by
  obtain ⟨box, hbox, hcontains⟩ := contains_boxAround
    (List.mem_map_of_mem hp : BBox.ofPoint p ∈ line.map BBox.ofPoint)
  exact ⟨box, hbox, contains_ofPoint.mp hcontains⟩

/-- What is within the polygon of a way is in its box. -/
lemma holds_of_wayPolygon (hG : ShapesOk G assemble) {line : List Point} {lat lon : ℚ}
    (h : G.within lat lon (G.wayPolygon line)) : ∃ box, wayBBox line = some box ∧
    (boxOf box).Holds lat lon := by
  obtain ⟨ring, hring, hholds⟩ := hG.ring _ _ _ h
  have hsub : ∀ p ∈ closedRing line, p ∈ line := by
    intro p hp
    rcases List.mem_append.mp hp with hp | hp
    · exact List.dropLast_subset _ hp
    · exact List.mem_of_head? (Option.mem_toList.mp hp)
  cases hline : line with
  | nil =>
    rw [hline] at hring
    cases hring
  | cons first rest =>
    obtain ⟨box, hbox, -⟩ := holds_wayBBox (List.mem_cons_self : first ∈ first :: rest)
    refine ⟨box, hbox, holds_of_contains (boxAround_le hring fun x hx => ?_) hholds⟩
    obtain ⟨p, hp, rfl⟩ := List.mem_map.mp hx
    obtain ⟨box', hbox', hp'⟩ := holds_wayBBox (hline ▸ hsub p hp)
    obtain rfl : box' = box := Option.some.inj (hbox'.symm.trans hbox)
    exact contains_ofPoint.mpr hp'

/-! ### Rows around a box -/

lemma touches_of_vertex (hb : Built b) {t : Typ} {i : ℤ} {r : Row (SpatialCols t)}
    (hr : curSpatial (fresh b) t i = some r) {p : Point} (hp : p ∈ vertices b (.element t r)) :
    Touches p r.cols := by
  cases t with
  | node => exact Option.mem_toList.mp hp
  | way =>
    cases hline : r.cols.geometry with
    | none =>
      rw [vertices, hline] at hp
      cases hp
    | some line =>
      rw [vertices, hline] at hp
      obtain ⟨box, hbox, hholds⟩ := holds_wayBBox hp
      exact ⟨box, (hb.wayBox i r hr line hline).2.trans hbox, hholds⟩
  | relation => exact hb.relationBox i r hr p hp

lemma inside_of_holds {box : BBox} {p : Point} (h : (boxOf box).Holds p.lat p.lon) :
    inside (boxOf box) (some p) := by
  obtain ⟨h1, h2, h3, h4⟩ := h
  simp only [inside, Option.any_some, boxOf, toE7_intCast, Bool.and_eq_true, decide_eq_true_eq]
  exact ⟨⟨Int.cast_le.mp h1, Int.cast_le.mp h2⟩, Int.cast_le.mp h3, Int.cast_le.mp h4⟩

lemma meets_of_holds {box c : BBox} {p : Point} (h : (boxOf box).Holds p.lat p.lon)
    (hc : (boxOf c).Holds p.lat p.lon) : meets (boxOf box) (some c) :=
  meets_of_point (contains_ofPoint.mpr h) (contains_ofPoint.mpr hc)

/-- A member with a vertex in a box is hit by it. -/
lemma hit_of_vertex (hG : ShapesOk G assemble) {box : BBox} {m : Member} {pts : List Point}
    (hm : memberPoints b m = some pts) {p : Point} (hp : p ∈ pts)
    (h : (boxOf box).Holds p.lat p.lon) :
    hit G.meetsBox (tableCoord b.toTables) (tableLine b.toTables) (boxOf box) m := by
  unfold memberPoints at hm
  unfold hit
  cases ht : m.type with
  | node =>
    rw [ht] at hm
    obtain ⟨x, hx, rfl⟩ := Option.map_eq_some_iff.mp hm
    obtain rfl := List.mem_singleton.mp hp
    have hcoord : tableCoord b.toTables m.ref = some p := hx
    rw [hcoord]
    exact inside_of_holds h
  | way =>
    rw [ht] at hm
    have hline : tableLine b.toTables m.ref = some pts := hm
    rw [hline]
    exact hG.line pts _ p hp h
  | relation =>
    rw [ht] at hm
    cases hm

/-- **An element with a vertex in a box is among the rows for the box.** -/
lemma mem_spatialRows (hb : Built b) (hG : ShapesOk G assemble) {t : Typ} {r : Row (SpatialCols t)}
    (hr : curSpatial (fresh b) t r.id = some r) {p : Point}
    (hp : p ∈ vertices b (.element t r)) {box : BBox} (h : (boxOf box).Holds p.lat p.lon) :
    SetRow.element t r ∈ spatialRows G (fresh b) (some (boxOf box)) t := by
  have htouch := touches_of_vertex hb hr hp
  obtain ⟨hw, hcov⟩ := hb.covered t r.id r hr p hp
  have hin := inCells_of_covered (s := fresh b) hb.agrees hb.laid
    (allPlaced_fresh hb.laid) hr hw htouch hcov h
  have hread : ∀ {P : Row (SpatialCols t) → Bool}, P r →
      r ∈ currentRows (fresh b).deltas (cellsForBbox (catalogOf (fresh b)) t (some (boxOf box)))
        (filesOf ((fresh b).base.spatial t) (cellsForBbox (catalogOf (fresh b)) t
          (some (boxOf box)))) P := fun hP =>
    (mem_currentRows (good_fresh b) (tiersRemember_fresh b) hb.agrees (not_exposed_fresh b t)
      (nodup_cellsForBbox _ _ _)).mpr ⟨hr, hin, hP⟩
  cases t with
  | node =>
    refine List.mem_map.mpr ⟨r, hread ?_, rfl⟩
    have hcoord : r.cols.coord = some p := htouch
    rw [Option.all_some, hcoord, inside_of_holds h]
    rfl
  | way =>
    obtain ⟨c, hc, hholds⟩ := htouch
    have hc : r.cols.byid.bbox = some c := hc
    refine List.mem_map.mpr ⟨r, hread ?_, rfl⟩
    rw [Option.all_some, hc, meets_of_holds h hholds]
    cases hline : r.cols.geometry with
    | none =>
      rw [vertices, hline] at hp
      cases hp
    | some line =>
      rw [vertices, hline] at hp
      rw [Option.any_some, hG.line line _ p hp h]
      rfl
  | relation =>
    obtain ⟨c, hc, hholds⟩ := htouch
    have hc : r.cols.byid.bbox = some c := hc
    refine List.mem_map.mpr ⟨r,
      (mem_relationSpatialSelect (good_fresh b) (tiersRemember_fresh b) hb.agrees
      (not_exposed_fresh b .relation)).mpr ⟨hr, hin, ?_, ?_⟩, rfl⟩
    · rw [hc, meets_of_holds h hholds]
      rfl
    · obtain ⟨pts, hpts, hp⟩ := List.mem_flatten.mp hp
      obtain ⟨m, hm, hmem⟩ := List.mem_filterMap.mp hpts
      exact List.any_eq_true.mpr ⟨m, hm, hit_of_vertex hG hmem hp h⟩

/-- The rows around a box are of the dataset, and the lines of their ways are known. -/
lemma stored_of_mem_spatialRows (hb : Built b) {t : Typ} {bbox : Option Box} {x : SetRow}
    (hx : x ∈ spatialRows G (fresh b) bbox t) :
    ∃ r, x = .element t r ∧ curSpatial (fresh b) t r.id = some r ∧ (bbox.isSome → Drawn x) := by
  have hread : ∀ {t : Typ} {P : Row (SpatialCols t) → Bool} {r},
      r ∈ currentRows (fresh b).deltas (cellsForBbox (catalogOf (fresh b)) t bbox)
        (filesOf ((fresh b).base.spatial t) (cellsForBbox (catalogOf (fresh b)) t bbox)) P →
      curSpatial (fresh b) t r.id = some r ∧ P r := fun hr => by
    obtain ⟨h1, -, h2⟩ := (mem_currentRows (good_fresh b) (tiersRemember_fresh b) hb.agrees
      (not_exposed_fresh b _) (nodup_cellsForBbox _ _ _)).mp hr
    exact ⟨h1, h2⟩
  cases t with
  | node =>
    obtain ⟨r, hr, rfl⟩ := List.mem_map.mp hx
    exact ⟨r, rfl, (hread hr).1, fun _ => trivial⟩
  | way =>
    obtain ⟨r, hr, rfl⟩ := List.mem_map.mp hx
    obtain ⟨hcur, hP⟩ := hread hr
    refine ⟨r, rfl, hcur, fun hsome => ?_⟩
    obtain ⟨q, rfl⟩ := Option.isSome_iff_exists.mp hsome
    simp only [Option.all_some, Bool.and_true, Bool.and_eq_true] at hP
    cases hline : r.cols.geometry with
    | none =>
      rw [hline] at hP
      cases hP.2
    | some line => exact Option.isSome_iff_exists.mpr ⟨line, hline⟩
  | relation =>
    obtain ⟨r, hr, rfl⟩ := List.mem_map.mp hx
    unfold relationSpatialSelect at hr
    cases bbox with
    | none => exact ⟨r, rfl, (hread hr).1, fun _ => trivial⟩
    | some q => exact ⟨r, rfl, (hread ((mem_exactFilter (hb.agrees .way)).mp hr).1).1,
      fun _ => trivial⟩

/-- The rows that a query reads for its types. -/
lemma stored_of_mem_flatMap_spatialRows (hb : Built b) {types : List Typ} {bbox : Option Box}
    {x : SetRow} (hx : x ∈ types.flatMap (spatialRows G (fresh b) bbox)) :
    OfType types x ∧ Stored assemble b x ∧ (bbox.isSome → Drawn x) := by
  obtain ⟨t, ht, hx⟩ := List.mem_flatMap.mp hx
  obtain ⟨r, rfl, hr, hdrawn⟩ := stored_of_mem_spatialRows hb hx
  exact ⟨ht, hr, hdrawn⟩

end Vertices

/-! ### Stored areas -/

section Stored

variable {assemble : List (Option (List Point)) → List (Option (List Point)) → Option (γ × BBox)}
variable {G : Shapes γ} {b : Base} {f : ℚ} {groups : RowGroupIndex}

lemma areaAt_spec {i : ℤ} {a : AreaRow γ} (h : areaAt assemble (fresh b) i = some a) :
    (a.pivotId = i ∧ a.id = i + relationIdOffset) ∧
      a.cell = containingCellV2 b.leafCells b.ancestorDepths b.maxDepth a.bbox ∧
      ∃ outer inner, assemble outer inner = some (a.geometry, a.bbox) := by
  obtain ⟨r, hr, harea⟩ := Option.bind_eq_some_iff.mp h
  have hid : r.id = i := id_of_curSpatial (Option.filter_eq_some_iff.mp hr).1
  refine ⟨hid ▸ pivot_of_relationArea harea, ?_⟩
  unfold relationArea at harea
  dsimp only at harea
  split_ifs at harea
  obtain ⟨x, hx, rfl⟩ := Option.map_eq_some_iff.mp harea
  exact ⟨rfl, _, _, hx⟩

/-- The areas that are derived. -/
lemma mem_placed (hb : Built b) (hk : CoversWays (fresh b) groups) {a : AreaRow γ} :
    a ∈ deriveRelationAreas assemble f groups (fresh b) none ↔
      areaAt assemble (fresh b) a.pivotId = some a :=
  (mem_derive hb.agrees hk).trans (and_iff_left rfl)

lemma mem_index (hb : Built b) (hk : CoversWays (fresh b) groups) {a : AreaRow Unit} :
    a ∈ (buildAreas assemble f groups (fresh b)).index ↔ Stored assemble b (.area a) := by
  unfold buildAreas sortIndex
  rw [List.mem_insertionSort, List.mem_map]
  constructor
  · rintro ⟨full, hfull, rfl⟩
    exact ⟨full, (mem_placed hb hk).mp hfull, rfl⟩
  · rintro ⟨full, hfull, rfl⟩
    have hpivot : full.pivotId = full.indexRow.pivotId := rfl
    exact ⟨full, (mem_placed hb hk).mpr (hpivot ▸ hfull), rfl⟩

/-- Every area is in the file of its cell. -/
lemma mem_areaFiles (hb : Built b) (hk : CoversWays (fresh b) groups) {cells : List Cell}
    {a : AreaRow γ} : a ∈ areaFiles (buildAreas assemble f groups (fresh b)) cells ↔
      a.cell ∈ cells ∧ areaAt assemble (fresh b) a.pivotId = some a := by
  have hcell : ∀ c, a ∈ ((lookup AreaCell.cell c (buildAreas assemble f groups (fresh b)).cells).map
      AreaCell.rows).getD [] ↔ a.cell = c ∧ areaAt assemble (fresh b) a.pivotId = some a := by
    intro c
    have helim : ∀ o : Option (AreaCell γ), (o.map AreaCell.rows).getD [] =
        o.elim [] AreaCell.rows := by
      rintro (_ | x)
      · rfl
      · rfl
    rw [buildAreas, lookup_areaCells, helim, mem_cellEntry, List.mem_filter, mem_placed hb hk,
      decide_eq_true_iff, and_comm]
  unfold areaFiles
  rw [List.mem_flatMap]
  constructor
  · rintro ⟨c, hc, ha⟩
    obtain ⟨rfl, harea⟩ := (hcell c).mp ha
    exact ⟨hc, harea⟩
  · rintro ⟨hc, harea⟩
    exact ⟨a.cell, hc, (hcell _).mpr ⟨rfl, harea⟩⟩

/-- Ways are in the file of their cell. -/
lemma mem_wayFiles (hb : Built b) {cells : List Cell} {r : Row WaySpatialCols} :
    r ∈ filesOf (b.spatial .way) cells ↔
      curSpatial (fresh b) .way r.id = some r ∧ inCells cells r.cell := by
  refine (mem_filesOf (hb.agrees .way)).trans (and_congr_left fun _ => ?_)
  exact ((hb.agrees .way).once.lookup_eq_some.trans (and_iff_left rfl)).symm

/-! ### Polygons -/

variable {ref : AreaRef}

lemma mem_splitAreaIds {ids : List ℤ} {i : ℤ} :
    (i ∈ (splitAreaIds ids).1 ↔ i ∈ ids ∧ relationIdOffset ≤ i) ∧
      (i ∈ (splitAreaIds ids).2 ↔ i + wayIdOffset ∈ ids ∧ wayIdOffset ≤ i + wayIdOffset ∧
        i + wayIdOffset < relationIdOffset) := by
  simp only [splitAreaIds, List.mem_filter, List.mem_map, Bool.and_eq_true,
    decide_eq_true_eq, true_and]
  constructor
  · rintro ⟨j, h, rfl⟩
    rwa [sub_add_cancel]
  · intro h
    exact ⟨_, h, add_sub_cancel_right _ _⟩

/-- The ids of areas tell them apart. -/
lemma eq_of_area_id {a x : AreaRow Unit} (ha : Stored assemble b (.area a))
    (hx : Stored assemble b (.area x)) (hid : a.id = x.id) : a = x := by
  obtain ⟨full, hfull, rfl⟩ := ha
  obtain ⟨full', hfull', rfl⟩ := hx
  obtain ⟨⟨hp, hi⟩, -⟩ := areaAt_spec hfull
  obtain ⟨⟨hp', hi'⟩, -⟩ := areaAt_spec hfull'
  have hpivot : full.indexRow.pivotId = full'.indexRow.pivotId := by
    have h1 : full.indexRow.id = full.id := rfl
    have h2 : full'.indexRow.id = full'.id := rfl
    omega
  rw [hpivot, hfull'] at hfull
  rw [Option.some.inj hfull]

lemma mem_relationAreaGeomRows (hb : Built b) (hk : CoversWays (fresh b) groups)
    (href : ∀ x ∈ namedRows ref, UpToDate assemble b x) {v : CellValue} {i : ℤ} :
    (v, i) ∈ relationAreaGeomRows (buildAreas assemble f groups (fresh b)) ref ↔
      ∃ a, Names assemble b ref (.area a) ∧ .text a.cell = v ∧ a.id = i := by
  cases ref with
  | set rows =>
    refine List.mem_filterMap.trans ?_
    constructor
    · rintro ⟨x, hx, hpair⟩
      cases x with
      | element t j cell refs => cases hpair
      | area j cell =>
        obtain ⟨a, ha, hid, rfl⟩ := href _ hx
        cases hpair
        exact ⟨a, ⟨ha, _, hx, hid⟩, rfl, hid.symm⟩
    · rintro ⟨a, ⟨ha, x, hx, hof⟩, rfl, rfl⟩
      cases x with
      | element t j cell refs => cases hof
      | area j cell =>
        obtain ⟨a', ha', hid, rfl⟩ := href _ hx
        obtain rfl : j = a.id := hof
        rw [eq_of_area_id ha ha' hid]
        exact ⟨_, hx, congrArg some (Prod.ext rfl hid)⟩
  | id j =>
    have hsplit : ∀ a : AreaRow Unit, a.id ∈ (splitAreaIds [j]).1 ↔ HasAreaId j (.area a) := by
      intro a
      rw [mem_splitAreaIds.1, List.mem_singleton, HasAreaId, eq_comm]
      exact and_congr_right fun h => h ▸ Iff.rfl
    simp only [relationAreaGeomRows, List.mem_map, List.mem_filter, decide_eq_true_iff, hsplit,
      mem_index hb hk, Prod.mk.injEq, Names]

lemma mem_wayAreaGeomRows (hb : Built b) (href : ∀ x ∈ namedRows ref, UpToDate assemble b x)
    {v : CellValue} {i : ℤ} : (v, i) ∈ wayAreaGeomRows (fresh b) ref ↔
      ∃ r, Names assemble b ref (.element .way r) ∧ isClosed r.cols.byid.refs ∧
        r.cell.map .text = some v ∧ r.id = i := by
  cases ref with
  | set rows =>
    refine List.mem_filterMap.trans ?_
    constructor
    · rintro ⟨x, hx, hpair⟩
      cases x with
      | area j cell => cases hpair
      | element t j cell refs =>
        cases t with
        | node => cases hpair
        | relation => cases hpair
        | way =>
          obtain ⟨r, hr, rfl, rfl⟩ := href _ hx
          dsimp only at hpair
          split_ifs at hpair with hclosed
          obtain ⟨v', hv, heq⟩ := Option.map_eq_some_iff.mp hpair
          cases heq
          obtain rfl : r.id = i := id_of_curSpatial hr
          exact ⟨r, ⟨hr, _, hx, rfl, rfl⟩, hclosed, hv, rfl⟩
    · rintro ⟨r, ⟨hr, x, hx, hof⟩, hclosed, hv, rfl⟩
      cases x with
      | area j cell => cases hof
      | element t j cell refs =>
        obtain ⟨rfl, rfl⟩ := hof
        obtain ⟨r', hr', rfl, rfl⟩ := href _ hx
        have hstored : curSpatial (fresh b) .way r.id = some r := hr
        obtain rfl : r = r' := Option.some.inj (hstored.symm.trans hr')
        refine ⟨_, hx, ?_⟩
        dsimp only
        rw [if_pos hclosed, hv]
        rfl
  | id j =>
    have hsplit : ∀ i : ℤ, i ∈ (splitAreaIds [j]).2 ↔
        j = i + wayIdOffset ∧ wayIdOffset ≤ j ∧ j < relationIdOffset := by
      intro i
      rw [mem_splitAreaIds.2, List.mem_singleton, eq_comm]
      exact and_congr_right fun h => h ▸ Iff.rfl
    simp only [wayAreaGeomRows, List.mem_filterMap, List.mem_filter,
      mem_buildByidSelect (good_fresh b), and_true, Option.map_eq_some_iff, Prod.mk.injEq]
    constructor
    · rintro ⟨x, ⟨⟨hid, hcur⟩, hclosed⟩, c, hc, rfl, rfl⟩
      rw [cur_eq_curSpatial (s := fresh b) hb.agrees] at hcur
      obtain ⟨r, hr, rfl⟩ := Option.map_eq_some_iff.mp hcur
      exact ⟨r, ⟨hr, hclosed, (hsplit _).mp hid⟩, hclosed, ⟨c, hc, rfl⟩, rfl⟩
    · rintro ⟨r, ⟨hr, hclosed, hid⟩, -, ⟨c, hc, rfl⟩, rfl⟩
      refine ⟨r.map byidCols, ⟨⟨(hsplit _).mpr hid, ?_⟩, hclosed⟩, c, hc, rfl, rfl⟩
      rw [cur_eq_curSpatial (s := fresh b) hb.agrees]
      exact Option.map_eq_some_iff.mpr ⟨r, hr, rfl⟩

/-- The cell of a pair is needed. -/
lemma mem_neededCells {pairs : List (CellValue × ℤ)} {c : Cell} {i : ℤ} (h : (.text c, i) ∈ pairs) :
    c ∈ neededCells pairs :=
  List.mem_dedup.mpr (List.mem_filterMap.mpr ⟨_, h, rfl⟩)

/-- Every area that a filter names is one of the dataset. -/
lemma stored_of_names {a : SetRow} (h : Names assemble b ref a) : Stored assemble b a := by
  cases ref with
  | set rows => exact h.1
  | id i => exact h.1

lemma shapeOf_area {a : AreaRow Unit} {full : AreaRow γ}
    (h : areaAt assemble (fresh b) a.pivotId = some full) :
    shapeOf assemble G b (.area a) = some full.geometry := by
  rw [shapeOf, h]
  rfl

lemma shapeOf_way {r : Row WaySpatialCols} {g : γ} :
    shapeOf assemble G b (.element .way r) = some g ↔
    isClosed r.cols.byid.refs ∧ ∃ line, r.cols.geometry = some line ∧ 4 ≤ line.length ∧
      G.wayPolygon line = g := by
  rw [shapeOf]
  split_ifs with hclosed
  · simp only [Option.map_eq_some_iff, Option.filter_eq_some_iff, decide_eq_true_eq, and_assoc,
      hclosed, true_and]
  · exact iff_of_false (by simp) fun h => hclosed h.1

/-- An area with a shape is a closed way or the area of a relation. -/
lemma shapeOf_cases {a : SetRow} {g : γ} (h : shapeOf assemble G b a = some g) :
    (∃ r, a = .element .way r) ∨ ∃ x, a = .area x := by
  cases a with
  | area x => exact Or.inr ⟨x, rfl⟩
  | element t r =>
    cases t with
    | way => exact Or.inl ⟨r, rfl⟩
    | node => cases h
    | relation => cases h

/-- What is within a shape is in the box of the area. -/
def Bounds (G : Shapes γ) (g : γ) (bbox : Option BBox) : Prop :=
  ∀ lat lon, G.within lat lon g → ∃ box, bbox = some box ∧ (boxOf box).Holds lat lon

lemma bounds_way (hb : Built b) (hG : ShapesOk G assemble) {i : ℤ} {r : Row WaySpatialCols}
    (hr : curSpatial (fresh b) .way i = some r) {line : List Point}
    (hline : r.cols.geometry = some line) : Bounds G (G.wayPolygon line) r.cols.byid.bbox := by
  intro lat lon h
  obtain ⟨box, hbox, hholds⟩ := holds_of_wayPolygon hG h
  exact ⟨box, (hb.wayBox i r hr line hline).2.trans hbox, hholds⟩

lemma bounds_area (hG : ShapesOk G assemble) {i : ℤ} {a : AreaRow γ}
    (ha : areaAt assemble (fresh b) i = some a) : Bounds G a.geometry (some a.bbox) := by
  intro lat lon h
  obtain ⟨outer, inner, hassemble⟩ := (areaAt_spec ha).2.2
  exact ⟨a.bbox, rfl, hG.assembled _ _ _ _ hassemble lat lon h⟩

/-- Every polygon is the shape of an area that is named. -/
lemma named_of_mem_polygons (hb : Built b) (hG : ShapesOk G assemble)
    (hk : CoversWays (fresh b) groups) (href : ∀ x ∈ namedRows ref, UpToDate assemble b x)
    {g : Polygon γ} (hg : g ∈ areaPolygonTable G (fresh b)
      (buildAreas assemble f groups (fresh b)) ref) :
    (∃ a, Names assemble b ref a ∧ shapeOf assemble G b a = some g.geometry) ∧
      Bounds G g.geometry g.bbox := by
  rcases List.mem_append.mp hg with hg | hg
  · obtain ⟨a, ha, rfl⟩ := List.mem_map.mp hg
    obtain ⟨hfile, hpair⟩ := List.mem_filter.mp ha
    have harea := ((mem_areaFiles hb hk).mp hfile).2
    obtain ⟨x, hx, -, hid⟩ :=
      (mem_relationAreaGeomRows hb hk href).mp (List.contains_iff_mem.mp hpair)
    obtain ⟨full, hfull, rfl⟩ := stored_of_names hx
    -- the ids tell that it is the same area
    have hpivot : full.indexRow.pivotId = a.pivotId := by
      have h1 := (areaAt_spec hfull).1
      have h2 := (areaAt_spec harea).1
      have h3 : full.indexRow.id = full.id := rfl
      omega
    refine ⟨⟨_, hx, ?_⟩, bounds_area hG harea⟩
    exact shapeOf_area (hpivot.symm ▸ harea)
  · obtain ⟨r, hr, hpoly⟩ := List.mem_filterMap.mp hg
    obtain ⟨hfile, hpair⟩ := List.mem_filter.mp hr
    obtain ⟨hcur, -⟩ := (mem_wayFiles hb).mp hfile
    obtain ⟨line, hfilter, rfl⟩ := Option.map_eq_some_iff.mp hpoly
    obtain ⟨hline, hlen⟩ := Option.filter_eq_some_iff.mp hfilter
    refine ⟨?_, bounds_way hb hG hcur hline⟩
    cases hc : r.cell with
    | none =>
      rw [hc] at hpair
      cases hpair
    | some c =>
      rw [hc] at hpair
      obtain ⟨x, hx, hclosed, -, hid⟩ :=
        (mem_wayAreaGeomRows hb href).mp (List.contains_iff_mem.mp hpair)
      have hstored : curSpatial (fresh b) .way x.id = some x := stored_of_names hx
      obtain rfl : x = r := Option.some.inj (hstored.symm.trans (hid ▸ hcur))
      exact ⟨_, hx, shapeOf_way.mpr ⟨hclosed, line, hline, of_decide_eq_true hlen, rfl⟩⟩

/-- Every area that is named has its shape among the polygons. -/
lemma exists_polygon (hb : Built b) (hk : CoversWays (fresh b) groups)
    (href : ∀ x ∈ namedRows ref, UpToDate assemble b x) {a : SetRow}
    (ha : Names assemble b ref a) {g : γ} (hg : shapeOf assemble G b a = some g) :
    ∃ x ∈ areaPolygonTable G (fresh b) (buildAreas assemble f groups (fresh b)) ref,
      x.geometry = g := by
  rcases shapeOf_cases hg with ⟨r, rfl⟩ | ⟨x, rfl⟩
  · obtain ⟨hclosed, line, hline, hlen, rfl⟩ := shapeOf_way.mp hg
    have hcur : curSpatial (fresh b) .way r.id = some r := stored_of_names ha
    have hcell : r.cell = some (cellFor b (t := .way) r.cols) :=
      allPlaced_fresh hb.laid .way r.id r hcur
    have hpair : (.text (cellFor b (t := .way) r.cols), r.id) ∈ wayAreaGeomRows (fresh b) ref :=
      (mem_wayAreaGeomRows hb href).mpr ⟨r, ha, hclosed, by rw [hcell]; rfl, rfl⟩
    refine ⟨⟨r.id, G.wayPolygon line, r.cols.byid.bbox⟩,
      List.mem_append_right _ (List.mem_filterMap.mpr
      ⟨r, List.mem_filter.mpr ⟨(mem_wayFiles hb).mpr ⟨hcur, ?_⟩, ?_⟩, ?_⟩), rfl⟩
    · rw [hcell]
      exact decide_eq_true (mem_neededCells hpair)
    · rw [hcell]
      exact List.contains_iff_mem.mpr hpair
    · unfold wayPolygonRow
      rw [hline, Option.filter_some, if_pos (decide_eq_true hlen)]
      rfl
  · obtain ⟨full, hfull, hrow⟩ := stored_of_names ha
    have hshape := shapeOf_area (G := G) hfull
    rw [hshape] at hg
    have hpair : (.text full.cell, full.id) ∈
        relationAreaGeomRows (buildAreas assemble f groups (fresh b)) ref :=
      (mem_relationAreaGeomRows hb hk href).mpr ⟨x, ha, hrow ▸ rfl, hrow ▸ rfl⟩
    refine ⟨⟨full.id, full.geometry, some full.bbox⟩, List.mem_append_left _ (List.mem_map.mpr
      ⟨full, List.mem_filter.mpr ⟨(mem_areaFiles hb hk).mpr ⟨?_, ?_⟩,
        List.contains_iff_mem.mpr hpair⟩, rfl⟩), Option.some.inj hg⟩
    · exact mem_neededCells hpair
    · rw [(areaAt_spec hfull).1.1]
      exact hfull

end Stored

/-! ### Members -/

section Members

variable {b : Base} {f : ℚ} {groups : RowGroupIndex} {i : ℤ} {ids : List ℤ}

/-- Rows fetched by id are looked up as they are now. -/
lemma byId_fetched {t : Typ} {rows : List (Row (ByidCols t))}
    (h : ∀ r, r ∈ rows ↔ r.id ∈ ids ∧ cur (fresh b) t r.id = some r) (hi : i ∈ ids) :
    byId i rows = cur (fresh b) t i := by
  cases hl : byId i rows with
  | some r =>
    have hid : r.id = i := key_of_lookup hl
    exact (hid ▸ ((h r).mp (mem_of_lookup hl)).2).symm
  | none =>
    cases hc : cur (fresh b) t i with
    | none => rfl
    | some r =>
      obtain rfl : r.id = i := id_of_cur (good_fresh b) hc
      exact absurd (List.mem_map_of_mem ((h r).mpr ⟨hi, hc⟩)) (lookup_eq_none.mp hl)

/-- The ways found around boxes are as they are now. -/
lemma byId_found (hb : Built b) (hk : CoversWays (fresh b) groups) {hints : List BBox}
    (hi : i ∈ ids) {r : Row WaySpatialCols} (hr :
      byId i ((boxAround hints).elim [] (waysInBox (fresh b) f groups ids)) = some r) :
    curSpatial (fresh b) .way i = some r := by
  cases hbox : boxAround hints with
  | none =>
    rw [hbox] at hr
    cases hr
  | some box =>
    rw [hbox, Option.elim_some, byId_waysInBox hb.agrees hk hi] at hr
    obtain ⟨cells, hcells, hr⟩ := Option.bind_eq_some_iff.mp hr
    have hread := (Option.filter_eq_some_iff.mp hr).1
    rw [byId_readCells_of_not_exposed (good_fresh b) (tiersRemember_fresh b) hb.agrees
      (not_exposed_fresh b .way) (nodup_cellsAround hcells)] at hread
    exact (Option.filter_eq_some_iff.mp hread).1

lemma distinct_found (hb : Built b) (hk : CoversWays (fresh b) groups) (hints : List BBox) :
    Distinct Row.id ((boxAround hints).elim [] (waysInBox (fresh b) f groups ids)) := by
  cases boxAround hints with
  | none => exact distinct_nil
  | some box =>
    rw [Option.elim_some, waysInBox]
    cases hcells : cellsAround (fresh b) f box with
    | none => exact distinct_nil
    | some cells =>
      rw [Option.elim_some, currentRows_congr (filter_keptFiles hk), currentRows_where]
      exact (distinct_readCells (s := fresh b) (t := .way) hb.agrees
        (nodup_cellsAround hcells)).filter _

/-- What is missing is looked up in the base files. -/
lemma lineIn_missing (hb : Built b) {rows : List (Row WayCols)} :
    lineIn (hydrateWayGeometry (fresh b) rows) i =
      ((byId i ((b.spatial .way).flatMap CellFiles.rows)).filter fun r => r.cell.any fun c =>
        decide (∃ x ∈ rows, x.cell = some c ∧ x.id = i)).bind fun r => r.cols.geometry := by
  have hpairs : ∀ c, (c, i) ∈ ((rows.filter fun r => r.cell.isSome).filterMap fun r =>
      r.cell.map fun c => (c, r.id)) ↔ ∃ x ∈ rows, x.cell = some c ∧ x.id = i := by
    intro c
    rw [List.mem_filterMap]
    constructor
    · rintro ⟨x, hx, hpair⟩
      obtain ⟨c', hc', heq⟩ := Option.map_eq_some_iff.mp hpair
      cases heq
      exact ⟨x, (List.mem_filter.mp hx).1, hc', rfl⟩
    · rintro ⟨x, hx, hc, rfl⟩
      exact ⟨x, List.mem_filter.mpr ⟨hx, hc ▸ rfl⟩, Option.map_eq_some_iff.mpr ⟨c, hc, rfl⟩⟩
  have htiers : hydrateWayGeometry (fresh b) rows = baseJoin (b.spatial .way)
      ((rows.filter fun r => r.cell.isSome).filterMap fun r => r.cell.map fun c => (c, r.id)) := rfl
  rw [htiers, lineIn_baseJoin (hb.agrees .way)]
  simp only [hpairs]

/-- **The lines of member ways** are those of the dataset. -/
lemma lineIn_memberLines (hb : Built b) (hk : CoversWays (fresh b) groups) {hints : List BBox}
    (hi : i ∈ ids) :
    lineIn (memberLines (fresh b) f groups hints ids) i = currentLine (fresh b) i := by
  unfold memberLines
  dsimp only
  set found := (boxAround hints).elim [] (waysInBox (fresh b) f groups ids) with hfound
  have hu : Distinct Row.id found := distinct_found hb hk hints
  have hcur : ∀ r, lookup Row.id i found = some r →
      curSpatial (fresh b) .way i = some r := fun r hr =>
    byId_found hb hk hi hr
  rw [lineIn_append, lineIn_filterMap Row.id (fun r : Row WaySpatialCols => r.cols.geometry) hu,
    lineIn_missing hb]
  have hbase : byId i ((b.spatial .way).flatMap CellFiles.rows) = curSpatial (fresh b) .way i := rfl
  rw [hbase, currentLine]
  cases hc : curSpatial (fresh b) .way i with
  | none =>
    cases hl : lookup Row.id i found with
    | none => rfl
    | some r => cases hc.symm.trans (hcur r hl)
  | some r =>
    have hid : r.id = i := id_of_curSpatial hc
    have hcell : r.cell = some (cellFor b (t := .way) r.cols) := allPlaced_fresh hb.laid .way i r hc
    cases hl : lookup Row.id i found with
    | some x =>
      obtain rfl : r = x := Option.some.inj (hc.symm.trans (hcur x hl))
      cases hline : r.cols.geometry with
      | some line => rw [Option.bind_some, hline, Option.some_or]
      | none =>
        rw [Option.bind_some, hline, Option.none_or, Option.bind_eq_none_iff]
        intro y hy
        obtain rfl := Option.some.inj (Option.filter_eq_some_iff.mp hy).1
        exact hline
    | none =>
      -- it was not found around the boxes, and is fetched by id
      have hrow : r.map byidCols ∈ buildByidSelect ((fresh b).base.byid .way) (fresh b).deltas
          (ids.filter fun i => i ∉ found.map Row.id) fun _ => true := by
        rw [mem_buildByidSelect (good_fresh b), cur_eq_curSpatial (s := fresh b) hb.agrees]
        have hnot : i ∉ found.map Row.id := lookup_eq_none.mp hl
        rw [Row.map_id, hid, hc]
        exact ⟨List.mem_filter.mpr ⟨hi, decide_eq_true hnot⟩, rfl, rfl⟩
      have hpair : ∃ x ∈ (found.filter fun r => r.cols.geometry.isNone).map
          (Row.map (byidCols (t := .way))) ++ buildByidSelect ((fresh b).base.byid .way)
          (fresh b).deltas
            (ids.filter fun i => i ∉ found.map Row.id) fun _ => true,
          x.cell = some (cellFor b (t := .way) r.cols) ∧ x.id = i :=
        ⟨_, List.mem_append_right _ hrow, hcell, hid⟩
      have hkeep :
          (r.cell.any fun c => decide (∃ x ∈ (found.filter fun r => r.cols.geometry.isNone).map
          (Row.map (byidCols (t := .way))) ++ buildByidSelect ((fresh b).base.byid .way)
          (fresh b).deltas
            (ids.filter fun i => i ∉ found.map Row.id) (fun _ => true), x.cell = some c ∧
              x.id = i)) = true := by
        rw [hcell]
        exact decide_eq_true hpair
      rw [Option.bind_none, Option.none_or, Option.filter_some, if_pos hkeep]

/-- The vertices of members are those of the dataset. -/
lemma memberVertices_eq (hb : Built b) (hk : CoversWays (fresh b) groups)
    {cands : List (Row RelationSpatialCols)} {r : Row RelationSpatialCols}
    (hr : r ∈ cands) {m : Member} (hm : m ∈ r.cols.byid.members) :
    memberVertices (hydrateViaBbox (fresh b) .node f (memberRefs .node cands).dedup
        (boxAround (cands.filterMap fun r => r.cols.byid.bbox)) (fun _ _ => true) fun _ => true)
      (memberLines (fresh b) f groups (cands.filterMap fun r => r.cols.byid.bbox)
        (memberRefs .way cands).dedup) m =
      memberPoints b m := by
  have href : ∀ {t : Typ}, m.type = t → m.ref ∈ (memberRefs t cands).dedup := fun ht =>
    List.mem_dedup.mpr (List.mem_flatMap.mpr
      ⟨r, hr, List.mem_map_of_mem (List.mem_filter.mpr ⟨hm, decide_eq_true ht⟩)⟩)
  unfold memberVertices memberPoints
  cases ht : m.type with
  | node =>
    have hfetched : ∀ r : Row NodeCols, r ∈ hydrateViaBbox (fresh b) .node f
        (memberRefs .node cands).dedup (boxAround (cands.filterMap fun r => r.cols.byid.bbox))
        (fun _ _ => true) (fun _ => true) ↔
          r.id ∈ (memberRefs .node cands).dedup ∧ cur (fresh b) .node r.id = some r := by
      intro r
      rw [mem_hydrateViaBbox (t := .node) (good_fresh b) (tiersRemember_fresh b) hb.agrees
        (not_exposed_fresh b .node), and_iff_left rfl]
    dsimp only
    rw [byId_fetched (t := .node) hfetched (href ht)]
    rfl
  | way => exact lineIn_memberLines hb hk (href ht)
  | relation => rfl

/-- **The table of relations** has the vertices of those that have some member. -/
lemma mem_relationGeometryTable (hb : Built b) (hk : CoversWays (fresh b) groups)
    {cands : List (Row RelationSpatialCols)} {x : ℤ × List Point} :
    x ∈ relationGeometryTable (fresh b) f groups cands ↔ ∃ r ∈ cands, r.id = x.1 ∧
      r.cols.byid.members.filterMap (memberPoints b) ≠ [] ∧
        vertices b (.element .relation r) = x.2 := by
  unfold relationGeometryTable
  dsimp only
  rw [List.mem_filterMap]
  refine exists_congr fun r => and_congr_right fun hr => ?_
  have hparts := List.filterMap_congr fun m hm => memberVertices_eq (f := f) hb hk hr hm
  rw [hparts]
  split_ifs with hnil
  · exact iff_of_false (by simp) fun h => h.2.1 hnil
  · rw [Option.some.injEq, Prod.ext_iff]
    exact ⟨fun h => ⟨h.1, hnil, h.2⟩, fun h => ⟨h.1, h.2.2⟩⟩

end Members

end OsmParquet.AreaLookups
