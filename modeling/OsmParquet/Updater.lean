import Mathlib.Data.Option.NAry
import OsmParquet.ByidReads
import OsmParquet.Cells

/-!
One run of the updater, from the diffs to the rows it resolves.

A batch of replication diffs is collapsed to the last occurrence of every element. What the
dataset already has in this or a newer version is dropped, and so is what lies outside its
extent. The ways and relations that have a changed element among their refs or members are
touched too, and every touched element is resolved again: its geometry, its bounding box
and the cell it belongs in.

The updater does all of this in SQL over temporary tables. A join to a table with one row
an id is a lookup here, and an aggregate over a group a fold. Sets of ids are lists.
-/

namespace OsmParquet.Updater

open OsmParquet.KeyedList OsmParquet.Rows OsmParquet.Tiers OsmParquet.TierSteps
open OsmParquet.ByidReads OsmParquet.Cells

/-! ### Diffs -/

/-- What an element of a diff says beside its attributes. -/
@[reducible] def Body : Typ → Type
  | .node => Option Point
  | .way => List ℤ
  | .relation => List Member

/-- An element of a diff: a new version of it, or its deletion. -/
structure Change (β : Type) where
  id : ℤ
  deleted : Bool
  version : ℤ
  timestamp : Option ℤ
  changeset : ℤ
  uid : Option ℤ
  user : String
  tags : Option Tags
  body : β
  seq : ℤ

/-- A replication diff. The reader gives the elements the sequence number of their file. -/
structure Diff where
  seq : ℤ
  changes : (t : Typ) → List (Change (Body t))

abbrev Batch := (t : Typ) → List (Change (Body t))

def changeById {β : Type} (i : ℤ) (l : List (Change β)) : Option (Change β) := lookup Change.id i l

/-- Every occurrence of every element, in the order of the diffs. -/
def allChanges (diffs : List Diff) (t : Typ) : List (Change (Body t)) :=
  diffs.flatMap fun d => (d.changes t).map fun c => { c with seq := d.seq }

/-- The last occurrence of every element. -/
def parseBatch (diffs : List Diff) : Batch := fun t =>
  firstPerKey Change.id (allChanges diffs t).reverse

/-! ### The dataset -/

/-- The extent of the dataset. -/
structure Extent where
  south : ℤ
  west : ℤ
  north : ℤ
  east : ℤ

/-- A part of the node to way index, with the range of its node ids. -/
structure IndexPart where
  minId : ℤ
  maxId : ℤ
  rows : List (ℤ × ℤ)
  inRange : ∀ r ∈ rows, minId ≤ r.1 ∧ r.1 ≤ maxId

/-- A row of the member index. -/
structure MemberRow where
  memberType : Typ
  memberId : ℤ
  parentId : ℤ
  role : String
  parentCell : Option Cell
  deriving DecidableEq

/-- The two copies of the elements. -/
structure Tables where
  byid : (t : Typ) → ByidTable (ByidCols t)
  spatial : (t : Typ) → List (CellFiles (SpatialCols t))

/-- What the manifest says of the base generation, and the files it names. -/
structure Base extends Tables where
  leafCells : List Cell
  ancestorDepths : List ℕ
  maxDepth : ℕ
  extent : Extent
  promotedKeys : List String
  nodeWay : List IndexPart
  member : List MemberRow

/-- A base and the tiers over it. -/
structure Root where
  base : Base
  deltas : Deltas

/-- The current rows of `ids`. -/
def Root.fetch (s : Root) (t : Typ) (ids : List ℤ) : List (Row (ByidCols t)) :=
  fetchCurrent (s.base.byid t) s.deltas ids

def Root.alive (s : Root) (t : Typ) : List (Row (ByidCols t)) := aliveView s.deltas t

/-- The attributes among the columns of a row. -/
def attrs : {t : Typ} → ByidCols t → Attrs
  | .node, c => c.attrs
  | .way, c => c.attrs
  | .relation, c => c.attrs

/-! ### Stale versions and the extent -/

/-- Keeps what is newer than the current row, or has none. -/
def dropStaleVersions (s : Root) (batch : Batch) : Batch := fun t =>
  let prior := s.fetch t ((batch t).map Change.id)
  (batch t).filter fun b =>
    match byId b.id prior with
    | none => true
    | some p => b.version > (attrs p.cols).version

/-- The members of one type in a batch of relations. -/
def memberIds (t : Typ) (rels : List (Change (List Member))) : List ℤ :=
  rels.flatMap fun r => (r.body.filter fun m => m.type = t).map Member.ref

def Extent.contains (e : Extent) (p : Point) : Bool :=
  e.south ≤ p.lat && p.lat ≤ e.north && (e.west ≤ p.lon && p.lon ≤ e.east)

/-- The current rows the extent filter looks at. -/
def existsNode (s : Root) (batch : Batch) : List (Row NodeCols) :=
  s.fetch .node ((batch .node).map Change.id ++ (batch .way).flatMap Change.body ++
    memberIds .node (batch .relation))

def existsWay (s : Root) (batch : Batch) : List (Row WayCols) :=
  s.fetch .way ((batch .way).map Change.id ++ memberIds .way (batch .relation))

def existsRelation (s : Root) (batch : Batch) : List (Row RelationCols) :=
  s.fetch .relation ((batch .relation).map Change.id ++ memberIds .relation (batch .relation))

def keptNode (s : Root) (batch : Batch) : List (Change (Option Point)) :=
  (batch .node).filter fun b =>
    decide (b.id ∈ (existsNode s batch).map Row.id) ||
      (!b.deleted && b.body.any fun p => s.base.extent.contains p)

def knownNodeIds (s : Root) (batch : Batch) : List ℤ :=
  (existsNode s batch).map Row.id ++ (keptNode s batch).map Change.id

def keptWay (s : Root) (batch : Batch) : List (Change (List ℤ)) :=
  (batch .way).filter fun b =>
    decide (b.id ∈ (existsWay s batch).map Row.id) ||
      (!b.deleted && b.body.any fun ref => decide (ref ∈ knownNodeIds s batch))

/-- Whether a member exists before the batch. -/
def memberExists (s : Root) (batch : Batch) (m : Member) : Bool :=
  match m.type with
  | .node => decide (m.ref ∈ (existsNode s batch).map Row.id)
  | .way => decide (m.ref ∈ (existsWay s batch).map Row.id)
  | .relation => decide (m.ref ∈ (existsRelation s batch).map Row.id)

def keptRelation (s : Root) (batch : Batch) : List (Change (List Member)) :=
  (batch .relation).filter fun b =>
    decide (b.id ∈ (existsRelation s batch).map Row.id) ||
      (!b.deleted && b.body.any (memberExists s batch))

def extentFilter (s : Root) (batch : Batch) : Batch
  | .node => keptNode s batch
  | .way => keptWay s batch
  | .relation => keptRelation s batch

/-! ### The touched set -/

/-- The pairs of the index parts whose range meets that of `ids`, for these ids. -/
def baseParentWays (s : Root) (ids : List ℤ) : List ℤ :=
  match ids.min?, ids.max? with
  | some lo, some hi =>
    ((s.base.nodeWay.filter fun p => ¬ (p.maxId < lo ∨ p.minId > hi)).flatMap
      IndexPart.rows).filterMap fun r => if r.1 ∈ ids then some r.2 else none
  | _, _ => []

/-- The ways of the tiers that have one of `ids` among their refs. -/
def deltaParentWays (s : Root) (ids : List ℤ) : List ℤ :=
  ((s.alive .way).filter fun r => r.cols.refs.any fun ref => decide (ref ∈ ids)).map Row.id

/-- The relations that have a member with one of `ids`, of whatever type. -/
def parentRelations (s : Root) (ids : List ℤ) : List ℤ :=
  (s.base.member.filter fun r => r.memberId ∈ ids).map MemberRow.parentId ++
    ((s.alive .relation).filter fun r => r.cols.members.any fun m => decide
      (m.ref ∈ ids)).map Row.id

/-- The kept ways and the existing parent ways of kept nodes. -/
def touchedWayIds (s : Root) (kept : Batch) : List ℤ :=
  let nodeIds := (kept .node).map Change.id
  let wayIds := (kept .way).map Change.id
  let parents := baseParentWays s nodeIds ++ deltaParentWays s nodeIds
  let notInBatch := parents.filter fun i => i ∉ wayIds
  (wayIds ++ (s.fetch .way notInBatch).map Row.id).dedup

/-- Adding the parents of the relations, at most `fuel` times and until there are none to add. -/
def closeRelations (s : Root) : ℕ → List ℤ → List ℤ
  | 0, ids => ids
  | fuel + 1, ids =>
    let combined := (ids ++ parentRelations s ids).dedup
    if combined.length = ids.length then ids else closeRelations s fuel combined

/-- The kept relations and the existing ones above a kept or touched element. -/
def touchedRelationIds (s : Root) (kept : Batch) (touchedWays : List ℤ) : List ℤ :=
  let relIds := (kept .relation).map Change.id
  let seed := (relIds ++ parentRelations s ((kept .node).map Change.id) ++
    parentRelations s touchedWays).dedup
  let closed := closeRelations s 8 seed
  let notInBatch := closed.filter fun i => i ∉ relIds
  (relIds ++ (s.fetch .relation notInBatch).map Row.id).dedup

/-! ### Resolving -/

/-- A value of the tags map. -/
def tagValue (tags : Option Tags) (k : String) : Option String :=
  tags.bind fun l => (l.find? fun kv => kv.1 = k).map Prod.snd

/-- The attributes of a new version: the promoted columns are taken out of its tags. -/
def changeAttrs {β : Type} (s : Root) (c : Change β) : Attrs :=
  ⟨c.tags, s.base.promotedKeys.map (tagValue c.tags), c.version, c.changeset, c.timestamp, c.uid,
    c.user⟩

/-- A way or relation to resolve: from the batch, or as it is. -/
structure Touched (β : Type) where
  id : ℤ
  body : β
  attrs : Attrs
  deleted : Bool
  seq : ℤ
  prevCell : Option Cell

def Touched.ofChange {α β : Type} (s : Root) (prior : List (Row α)) (c : Change β) : Touched β :=
  ⟨c.id, c.body, changeAttrs s c, c.deleted, c.seq, (byId c.id prior).bind Row.cell⟩

/-- What all steps of a resolve share. -/
structure Work where
  root : Root
  kept : Batch
  lastSeq : ℤ

variable (w : Work)

def Work.wayIds : List ℤ := touchedWayIds w.root w.kept

def Work.relationIds : List ℤ := touchedRelationIds w.root w.kept w.wayIds

def Work.touchedWays : List (Touched (List ℤ)) :=
  let prior := w.root.fetch .way w.wayIds
  (w.kept .way).map (Touched.ofChange w.root prior) ++
    (prior.filter fun p => p.id ∉ (w.kept .way).map Change.id).map fun p =>
      ⟨p.id, p.cols.refs, p.cols.attrs, false, w.lastSeq, p.cell⟩

def Work.touchedRelations : List (Touched (List Member)) :=
  let prior := w.root.fetch .relation w.relationIds
  (w.kept .relation).map (Touched.ofChange w.root prior) ++
    (prior.filter fun p => p.id ∉ (w.kept .relation).map Change.id).map fun p =>
      ⟨p.id, p.cols.members, p.cols.attrs, false, w.lastSeq, p.cell⟩

/-- The members of one type in the touched relations. -/
def Work.members (t : Typ) : List ℤ :=
  (w.touchedRelations.filter fun r => !r.deleted).flatMap fun r =>
    (r.body.filter fun m => m.type = t).map Member.ref

/-- The coordinates of the nodes that are needed: the batch's, and the current ones. -/
def Work.nodeCoords : List (ℤ × Option Point) :=
  let needed := (w.kept .node).map Change.id ++
    (w.touchedWays.filter fun t => !t.deleted).flatMap Touched.body ++ w.members .node
  ((w.kept .node).filter fun c => !c.deleted).map (fun c => (c.id, c.body)) ++
    ((w.root.fetch .node needed).filter fun r => r.id ∉ (w.kept .node).map Change.id).map
      fun r => (r.id, r.cols.coord)

/-- The position of an existing node. -/
def coordOf (coords : List (ℤ × Option Point)) (i : ℤ) : Option Point :=
  (lookup Prod.fst i coords).bind Prod.snd

/-- The positions of the nodes of a way that exist and have one, in the order of the refs. -/
def wayPts (coords : List (ℤ × Option Point)) (refs : List ℤ) : List Point :=
  refs.filterMap (coordOf coords)

def BBox.union (a b : BBox) : BBox :=
  ⟨min a.ymin b.ymin, min a.xmin b.xmin, max a.ymax b.ymax, max a.xmax b.xmax⟩

def BBox.ofPoint (p : Point) : BBox := ⟨p.lat, p.lon, p.lat, p.lon⟩

/-- The box around some boxes. -/
def boxAround : List BBox → Option BBox
  | [] => none
  | b :: bs => some (bs.foldl BBox.union b)

def wayBBox (pts : List Point) : Option BBox := boxAround (pts.map BBox.ofPoint)

def wayGeometry (pts : List Point) : Option (List Point) :=
  if 2 ≤ pts.length then some pts else none

def isClosed (refs : List ℤ) : Bool := 4 ≤ refs.length && refs.head? == refs.getLast?

def isArea (closed : Bool) (tags : Option Tags) : Bool :=
  closed && (tagValue tags "area").getD "" != "no" &&
    !(((tagValue tags "highway").isSome || (tagValue tags "barrier").isSome) &&
      (tagValue tags "area").getD "" != "yes")

/-- The cell of a way or relation; without a box it is stored at the root. -/
def boxCell (base : Base) (b : Option BBox) : Cell :=
  b.elim [] (containingCellV2 base.leafCells base.ancestorDepths base.maxDepth)

def boxHilbert (b : Option BBox) : ℕ := b.elim 0 fun b => hilbertKey (bboxCentroid b)

/-- The row that deletes an element. -/
def deletedRow {α β : Type} (t : Touched β) : DeltaRow α :=
  ⟨t.id, none, t.prevCell, true, t.prevCell, t.seq⟩

def resolveWay (base : Base) (coords : List (ℤ × Option Point)) (t : Touched (List ℤ)) :
    DeltaRow WaySpatialCols :=
  if t.deleted then deletedRow t
  else
    let pts := wayPts coords t.body
    let bbox := wayBBox pts
    let closed := isClosed t.body
    let cols : WayCols := ⟨t.body, t.attrs, bbox, closed, isArea closed t.attrs.tags,
      boxHilbert bbox⟩
    ⟨t.id, some ⟨cols, wayGeometry pts, bbox.map bboxCentroid⟩, some (boxCell base bbox), false,
      t.prevCell, t.seq⟩

def Work.resolvedWays : List (DeltaRow WaySpatialCols) :=
  w.touchedWays.map (resolveWay w.root.base w.nodeCoords)

/-- The boxes of the member ways: of the resolved ones, and of the others that exist. -/
def Work.wayBoxes : List (ℤ × BBox) :=
  (w.resolvedWays.filterMap fun r =>
    if r.deleted then none else (r.cols.bind fun c => c.byid.bbox).map fun b => (r.id, b)) ++
  (w.root.fetch .way ((w.members .way).filter fun i => i ∉ w.wayIds)).filterMap fun r =>
    r.cols.bbox.map fun b => (r.id, b)

/-- The box of a member node or way. -/
def memberBox (coords : List (ℤ × Option Point)) (ways : List (ℤ × BBox)) (m : Member) :
    Option BBox :=
  match m.type with
  | .node => (coordOf coords m.ref).map BBox.ofPoint
  | .way => (lookup Prod.fst m.ref ways).map Prod.snd
  | .relation => none

/-- The box around the member nodes and ways of a relation. -/
def ownBox (coords : List (ℤ × Option Point)) (ways : List (ℤ × BBox)) (ms : List Member) :
    Option BBox := boxAround (ms.filterMap (memberBox coords ways))

/-- The box of a relation: its own box and those of its member relations. -/
def nestedBox (own : Option BBox) (rels : List (ℤ × BBox)) (ms : List Member) : Option BBox :=
  boxAround (own.toList ++ (ms.filter fun m => m.type = .relation).filterMap fun m =>
    (lookup Prod.fst m.ref rels).map Prod.snd)

/-- The own boxes of the touched relations, and the stored ones of other members. -/
def Work.relationBoxes : List (ℤ × BBox) :=
  ((w.touchedRelations.filter fun r => !r.deleted).filterMap fun r =>
    (ownBox w.nodeCoords w.wayBoxes r.body).map fun b => (r.id, b)) ++
  (w.root.fetch .relation ((w.members .relation).filter fun i => i ∉ w.relationIds)).filterMap
    fun r => r.cols.bbox.map fun b => (r.id, b)

def resolveRelation (base : Base) (coords : List (ℤ × Option Point)) (ways rels : List (ℤ × BBox))
    (t : Touched (List Member)) : DeltaRow RelationSpatialCols :=
  if t.deleted then deletedRow t
  else
    let bbox := nestedBox (ownBox coords ways t.body) rels t.body
    ⟨t.id, some ⟨⟨t.body, t.attrs, bbox⟩, bbox.map bboxCentroid, boxHilbert bbox⟩,
      some (boxCell base bbox), false, t.prevCell, t.seq⟩

def Work.resolvedRelations : List (DeltaRow RelationSpatialCols) :=
  w.touchedRelations.map (resolveRelation w.root.base w.nodeCoords w.wayBoxes w.relationBoxes)

/-- A node keeps its cell as `prev_cell`. One without a position is placed at zero. -/
def resolveNode (s : Root) (exist : List (Row NodeCols)) (c : Change (Option Point)) :
    DeltaRow NodeCols :=
  let prev := (byId c.id exist).bind Row.cell
  if c.deleted then ⟨c.id, none, prev, true, prev, c.seq⟩
  else
    let p := c.body.getD ⟨0, 0⟩
    ⟨c.id, some ⟨c.body, changeAttrs s c, hilbertKey p⟩, some (pointCell s.base.leafCells p), false,
      prev, c.seq⟩

def Work.resolve (existNodes : List (Row NodeCols)) : Resolved
  | .node => (w.kept .node).map (resolveNode w.root existNodes)
  | .way => w.resolvedWays
  | .relation => w.resolvedRelations

/-! ### The run -/

/-- What a run fetches: the diffs, and the timestamp of the newest. -/
structure Fetched where
  diffs : List Diff
  timestamp : Option ℤ

/-- The rows a run resolves. -/
def resolvedOf (s : Root) (f : Fetched) : Resolved :=
  let batch := dropStaleVersions s (parseBatch f.diffs)
  let lastSeq := (f.diffs.getLast?.map Diff.seq).getD 0
  Work.resolve ⟨s, extentFilter s batch, lastSeq⟩ (existsNode s batch)

/-- What a run writes the tiers from. -/
def tierRun (s : Root) (f : Fetched) : TierRun :=
  ⟨resolvedOf s f, (f.diffs.head?.map Diff.seq).getD 0, (f.diffs.getLast?.map Diff.seq).getD 0,
    f.timestamp⟩

/-- A run of the updater. Without a diff it does nothing. -/
def runOnce (s : Root) (f : Fetched) : Root :=
  if f.diffs = [] then s else { s with deltas := runTiers s.deltas (tierRun s f) }

def runs (s : Root) (fs : List Fetched) : Root := fs.foldl runOnce s

end OsmParquet.Updater
