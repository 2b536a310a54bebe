import OsmParquet.Areas
import OsmParquet.RecurseTransitive

/-!
Statements about areas.

An area is a closed way, or what was derived from a relation. A closed way stands in a set as the
row that it is, and its polygon is made of its line when a statement needs it; the area of a
relation stands there without its polygon, which is read from the file of its cell. Polygons and
lines are looked up in the base files by cell and id.

An element is in an area if one of its vertices is strictly within the polygon. The functions of the
database for single positions are parameters.
-/

namespace OsmParquet.AreaStatements

open OsmParquet.KeyedList OsmParquet.Layers OsmParquet.Rows OsmParquet.Tiers OsmParquet.TierSteps
open OsmParquet.ByidReads OsmParquet.CellTree OsmParquet.Updater OsmParquet.Resolves
  OsmParquet.PrevCells
open OsmParquet.SpatialReads OsmParquet.Findable OsmParquet.RelationQuery OsmParquet.MemberGeometry
open OsmParquet.Areas OsmParquet.RowGroups OsmParquet.RecurseTransitive

variable {γ : Type}

/-! ### Rows and shapes -/

/-- A row of a set: an element, with the line of a way where it is known, or the area of a
relation. -/
inductive SetRow
  | element (t : Typ) (r : Row (SpatialCols t))
  | area (a : AreaRow Unit)

/-- What the database says of polygons and lines. -/
structure Shapes (γ : Type) where
  /-- The polygon with the given ring. -/
  polygon : List Point → γ
  covers : γ → ℚ → ℚ → Bool
  onBorder : γ → ℚ → ℚ → Bool
  /-- Whether a line meets the box of a query. -/
  meetsBox : List Point → Box → Bool

def wayIdOffset : ℤ := 2400000000

section Statements

variable (G : Shapes γ)

/-- Strictly within: the border is not. -/
def Shapes.within (lat lon : ℚ) (g : γ) : Bool := G.covers g lat lon && !G.onBorder g lat lon

/-- The line of a way with its last vertex replaced by the first. -/
def closedRing (line : List Point) : List Point := line.dropLast ++ line.head?.toList

def Shapes.wayPolygon (line : List Point) : γ := G.polygon (closedRing line)

/-- The vertices on the border are taken out once some vertex touches the polygon. -/
def Shapes.anyVertexWithin (pts : List Point) (g : γ) : Bool :=
  if pts.any fun p => G.covers g p.lat p.lon then
    (pts.filter fun p => !G.onBorder g p.lat p.lon).any fun p => G.covers g p.lat p.lon
  else false

/-- Two boxes overlap; without one of them they do not. -/
def overlaps (a b : Option BBox) : Bool :=
  a.any fun a => b.any fun b =>
    decide (b.xmin ≤ a.xmax ∧ a.xmin ≤ b.xmax ∧ b.ymin ≤ a.ymax ∧ a.ymin ≤ b.ymax)

/-- Whether a row is an element. -/
def isElement : SetRow → Bool
  | .element _ _ => true
  | .area _ => false

/-- Whether a row is a closed way. -/
def isClosedWay : SetRow → Bool
  | .element .way r => isClosed r.cols.byid.refs
  | _ => false

/-- A way given by id has no line. -/
def byidRow (r : Row WayCols) : SetRow := .element .way (r.map fun c => ⟨c, none, none⟩)

variable (s : Root) (A : AreaTables γ)

/-! ### Queries for areas -/

/-- The ids of relation areas, and those of ways. Other ids are the id of nothing. -/
def splitAreaIds (ids : List ℤ) : List ℤ × List ℤ :=
  (ids.filter fun i => relationIdOffset ≤ i,
    (ids.filter fun i => wayIdOffset ≤ i && i < relationIdOffset).map (· - wayIdOffset))

section Query

variable (tagHolds : Attrs → Bool)

def relationAreaRawSelect (ids : Option (List ℤ)) : List SetRow :=
  (A.index.filter fun a => ids.all (fun ids => decide (a.id ∈ (splitAreaIds ids).1)) &&
    tagHolds a.attrs).map .area

/-- The ways with the given ids and cells, from the files of these cells. -/
def hydrateWayRowsSelect (rows : List (ℤ × Option Cell)) : List SetRow :=
  let pairs := rows.filterMap fun x => x.2.map fun c => (c, x.1)
  ((filesOf (s.base.spatial .way) (pairs.map Prod.fst).dedup).filter fun r =>
    r.cell.any fun c => pairs.contains (c, r.id)).map (.element .way)

/-- Without ids: the closed ways of the index. -/
def wayAreaIndexSelect : List SetRow :=
  hydrateWayRowsSelect s ((A.wayIndex.filter fun w => tagHolds w.attrs).map fun w => (w.id, w.cell))

/-- With ids: any ways, as they are by id. -/
def wayLookupSelect (wayIds : List ℤ) : List SetRow :=
  (buildByidSelect (s.base.byid .way) s.deltas wayIds fun c => tagHolds c.attrs).map byidRow

def areaQuery (ids : Option (List ℤ)) : List SetRow :=
  relationAreaRawSelect A tagHolds ids ++ match ids with
    | none => wayAreaIndexSelect s A tagHolds
    | some ids => wayLookupSelect s tagHolds (splitAreaIds ids).2

end Query

/-! ### Polygons -/

/-- What an area filter reads of a row of a set. -/
inductive NamedRow
  | element (t : Typ) (id : ℤ) (cell : Option CellValue) (refs : List ℤ)
  | area (id : ℤ) (cell : Option CellValue)

/-- What an area filter names: a set, or the id of an area. -/
inductive AreaRef
  | set (rows : List NamedRow)
  | id (id : ℤ)

/-- The cells and ids of areas of relations. -/
def relationAreaGeomRows : AreaRef → List (CellValue × ℤ)
  | .set rows => rows.filterMap fun | .area i cell => cell.map fun c => (c, i) | _ => none
  | .id id => (A.index.filter fun a => decide (a.id ∈ (splitAreaIds [id]).1)).map fun a =>
    (.text a.cell, a.id)

/-- The cells and ids of closed ways. -/
def wayAreaGeomRows : AreaRef → List (CellValue × ℤ)
  | .set rows => rows.filterMap fun
    | .element .way i cell refs => if isClosed refs then cell.map fun c => (c, i) else none
    | _ => none
  | .id id =>
    ((buildByidSelect (s.base.byid .way) s.deltas
      (splitAreaIds [id]).2 fun _ => true).filter fun r =>
      isClosed r.cols.refs).filterMap fun r => r.cell.map fun c => (.text c, r.id)

/-- The cells of pairs that have files. -/
def neededCells (pairs : List (CellValue × ℤ)) : List Cell :=
  (pairs.filterMap fun x => x.1.key).dedup

structure Polygon (γ : Type) where
  id : ℤ
  geometry : γ
  bbox : Option BBox

/-- The rows of the area files of some cells. -/
def areaFiles (cells : List Cell) : List (AreaRow γ) :=
  cells.flatMap fun c => ((lookup AreaCell.cell c A.cells).map AreaCell.rows).getD []

/-- The polygon of a closed way with a line that is long enough. -/
def wayPolygonRow (r : Row WaySpatialCols) : Option (Polygon γ) :=
  (r.cols.geometry.filter fun g => 4 ≤ g.length).map fun g =>
    ⟨r.id, G.wayPolygon g, r.cols.byid.bbox⟩

def areaPolygonTable (ref : AreaRef) : List (Polygon γ) :=
  let relPairs := relationAreaGeomRows A ref
  let wayPairs := wayAreaGeomRows s ref
  ((areaFiles A (neededCells relPairs)).filter fun a => relPairs.contains (.text a.cell, a.id)).map
      (fun a => ⟨a.id, a.geometry, some a.bbox⟩) ++
    ((filesOf (s.base.spatial .way) (neededCells wayPairs)).filter fun r =>
      r.cell.any fun c => wayPairs.contains (.text c, r.id)).filterMap (wayPolygonRow G)

def polygonsBbox (polygons : List (Polygon γ)) : Option BBox :=
  boxAround (polygons.filterMap Polygon.bbox)

/-! ### The vertices of relations -/

variable (maxCellFraction : ℚ) (groups : RowGroupIndex)

/-- The lines of ways from the cells around the boxes, and by cell and id where they are missing. -/
def memberLines (hints : List BBox) (ids : List ℤ) : List (ℤ × List Point) :=
  let found := (boxAround hints).elim [] (waysInBox s maxCellFraction groups ids)
  let remainder := ids.filter fun i => i ∉ found.map Row.id
  let byid := buildByidSelect (s.base.byid .way) s.deltas remainder fun _ => true
  found.filterMap (fun r => r.cols.geometry.map fun g => (r.id, g)) ++ hydrateWayGeometry s
    ((found.filter fun r => r.cols.geometry.isNone).map (Row.map (byidCols (t := .way))) ++ byid)

/-- The vertices of a member, if it is a node or way that is known. -/
def memberVertices (nodes : List (Row NodeCols)) (lines : List (ℤ × List Point)) (m : Member) :
    Option (List Point) :=
  match m.type with
  | .node => ((byId m.ref nodes).bind fun r => r.cols.coord).map fun p => [p]
  | .way => lineIn lines m.ref
  | .relation => none

/-- The vertices of all members, for the relations that have such a member. -/
def relationGeometryTable (cands : List (Row RelationSpatialCols)) : List (ℤ × List Point) :=
  let hints := cands.filterMap fun r => r.cols.byid.bbox
  let nodes := hydrateViaBbox s .node maxCellFraction (memberRefs .node cands).dedup
    (boxAround hints) (fun _ _ => true) fun _ => true
  let lines := memberLines s maxCellFraction groups hints (memberRefs .way cands).dedup
  cands.filterMap fun r =>
    let parts := r.cols.byid.members.filterMap (memberVertices nodes lines)
    if parts = [] then none else some (r.id, parts.flatten)

/-! ### The filter for areas -/

def nodeMatch (polygons : List (Polygon γ)) (r : Row NodeCols) : Bool :=
  r.cols.coord.any fun p => polygons.any fun g => G.within p.lat p.lon g.geometry

/-- Without a line the boxes are compared. -/
def wayMatch (polygons : List (Polygon γ)) (r : Row WaySpatialCols) : Bool :=
  polygons.any fun g => match r.cols.geometry with
    | some line => G.anyVertexWithin line g.geometry
    | none => overlaps r.cols.byid.bbox g.bbox

def relationMatch (polygons : List (Polygon γ)) (geometry : Option (List (ℤ × List Point)))
    (r : Row RelationSpatialCols) : Bool :=
  match geometry with
  | some table => table.any fun x => decide (x.1 = r.id) && polygons.any fun g =>
    G.anyVertexWithin x.2 g.geometry
  | none => polygons.any fun g => overlaps r.cols.byid.bbox g.bbox

/-- The elements of a type among rows. -/
def rowsOfType (t : Typ) (rows : List SetRow) : List (Row (SpatialCols t)) :=
  rows.filterMap fun
    | .element t' r => if h : t' = t then some (h ▸ r) else none
    | .area _ => none

/-- The condition of an area filter on the rows of a query. -/
def areaPredicate (polygons : List (Polygon γ)) (base : List SetRow) : SetRow → Bool :=
  let geometry := (polygonsBbox polygons).map fun _ =>
    relationGeometryTable s maxCellFraction groups (rowsOfType .relation base)
  fun
    | .element .node r => nodeMatch G polygons r
    | .element .way r => wayMatch G polygons r
    | .element .relation r => relationMatch G polygons geometry r
    | .area _ => false

/-- The elements of a type in a box. -/
def spatialRows (bbox : Option Box) : Typ → List SetRow
  | .node => (SetFilter.nodeSpatialSelect s (fun _ => true) bbox).map (.element .node)
  | .way => (SetFilter.waySpatialSelect G.meetsBox s (fun _ => true) bbox).map (.element .way)
  | .relation => (relationSpatialSelect G.meetsBox s (fun _ => true) bbox).map (.element .relation)

/-- A query whose only filter is an area filter. -/
def areaFilterQuery (types : List Typ) (ref : AreaRef) : List SetRow :=
  let polygons := areaPolygonTable G s A ref
  let base := types.flatMap (spatialRows G s ((polygonsBbox polygons).map boxOf))
  if polygons = [] then [] else base.filter (areaPredicate G s maxCellFraction groups polygons base)

/-! ### The filter for pivots -/

def bboxOf : SetRow → Option BBox
  | .element .node r => r.cols.coord.map BBox.ofPoint
  | .element .way r => r.cols.byid.bbox
  | .element .relation r => r.cols.byid.bbox
  | .area a => some a.bbox

/-- Whether a row is an area or a way, closed or not. -/
def isAreaOrWay : SetRow → Bool
  | .element .way _ => true
  | .element _ _ => false
  | .area _ => true

def pivotBbox (rows : List SetRow) : Option BBox :=
  boxAround ((rows.filter isAreaOrWay).filterMap bboxOf)

/-- The closed ways of the set, and the relations of its areas. -/
def pivotPredicate (rows : List SetRow) : SetRow → Bool
  | .element .way r => (rows.filter isClosedWay).any fun
    | .element .way x => decide (x.id = r.id)
    | _ => false
  | .element .relation r => rows.any fun
    | .area a => decide (r.id + relationIdOffset = a.id)
    | _ => false
  | _ => false

/-- A query whose only filter is a pivot filter. -/
def pivotQuery (types : List Typ) (rows : List SetRow) : List SetRow :=
  (types.flatMap (spatialRows G s ((pivotBbox rows).map boxOf))).filter (pivotPredicate rows)

/-! ### is_in -/

/-- The cells of areas for a box. -/
def areaCellsForBbox (q : Box) : List Cell :=
  (((leavesIntersecting (catalogOf s) q).flatMap
    (allowedAncestors s.base.ancestorDepths)).filter fun c =>
    c ∈ A.cells.map AreaCell.cell).dedup

/-- The closed ways of the files for a box. -/
def isInWays (q : Box) : List (Row WaySpatialCols) :=
  (filesOf (s.base.spatial .way) (cellsForBbox (catalogOf s) .way (some q))).filter fun r =>
    r.cols.byid.isClosed && r.cols.geometry.any fun g => 4 ≤ g.length

/-- The areas for a box that have a polygon with a property. -/
def isInRows (q : Box) (holds : γ → Option BBox → Bool) : List SetRow :=
  ((areaFiles A (areaCellsForBbox s A q)).filter fun a => holds a.geometry (some a.bbox)).map
      (fun a => .area a.indexRow) ++
    ((isInWays s q).filter fun r => r.cols.geometry.any fun g =>
      holds (G.wayPolygon g) r.cols.byid.bbox).map (.element .way)

/-- The areas of a position. -/
def isInPoint (lat lon : ℚ) : List SetRow :=
  isInRows G s A ⟨lat, lon, lat, lon⟩ fun g _ => G.within lat lon g

/-- A row of the set is in a polygon. -/
def isInMatch (geometry : Option (List (ℤ × List Point))) (g : γ) (bbox : Option BBox) :
    SetRow → Bool
  | .element .node r => r.cols.coord.any fun p => G.within p.lat p.lon g
  | .element .way r => match r.cols.geometry with
    | some line => G.anyVertexWithin line g
    | none => overlaps r.cols.byid.bbox bbox
  | .element .relation r => (geometry.getD []).any fun x =>
    decide (x.1 = r.id) && G.anyVertexWithin x.2 g
  | .area _ => false

/-- The areas of the elements of a set. -/
def isInSet (rows : List SetRow) : List SetRow :=
  match boxAround ((rows.filter isElement).filterMap bboxOf) with
  | none => []
  | some b =>
    let relBbox := boxAround ((rowsOfType .relation rows).filterMap fun r => r.cols.byid.bbox)
    let geometry := relBbox.map fun b => relationGeometryTable s maxCellFraction groups
      (relationSpatialSelect G.meetsBox s (fun _ => true) (some (boxOf b)))
    isInRows G s A (boxOf b) fun g bbox => rows.any (isInMatch G geometry g bbox)

/-! ### map_to_area -/

/-- The closed ways of a set, and the areas of its relations. -/
def mapToArea (rows : List SetRow) : List SetRow :=
  rows.filter isClosedWay ++ (A.index.filter fun a => rows.any fun
    | .element .relation r => decide (r.id + relationIdOffset = a.id)
    | _ => false).map .area

end Statements

end OsmParquet.AreaStatements
