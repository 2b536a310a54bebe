import Mathlib.Data.Prod.Lex
import Mathlib.Data.Rat.Defs
import Mathlib.Algebra.Order.Ring.Rat
import OsmParquet.KeyedList
import OsmParquet.Rows

/-!
The elements that an `out` prints.

A row of a set becomes an element with the fields that the options ask for. The lines of ways and
the positions of members are looked up before, and what is not found is left out. A box given with
`geom` drops the points of a line that are neither in it nor next to a point in it.

Numbers with a fraction are whatever the host has for them.
-/

namespace OsmParquet.Elements

open OsmParquet.KeyedList OsmParquet.Rows

variable {F : Type}

/-! ### The host -/

/-- The numbers with a fraction and the texts of times. -/
structure Host (F : Type) where
  ofE7 : ℤ → F
  /-- The middle of two coordinates, rounded. -/
  middle : ℤ → ℤ → F
  round7 : F → F
  le : F → F → Bool
  text : F → String
  strftime : ℤ → String

def Host.min (host : Host F) (a b : F) : F := if host.le a b then a else b

def Host.max (host : Host F) (a b : F) : F := if host.le a b then b else a

/-- Exact numbers, and times as seconds. -/
def exactHost : Host ℚ where
  ofE7 z := z / 10000000
  middle a b := (a + b) / 2 / 10000000
  round7 q := q
  le a b := a ≤ b
  text q := toString q.num ++ "/" ++ toString q.den
  strftime := toString

/-! ### Rows, options and elements -/

inductive ElType
  | node | way | relation | area | timeline | count
  deriving DecidableEq, Repr

structure LatLon (F : Type) where
  lat : F
  lon : F
  deriving DecidableEq

structure Bounds (F : Type) where
  minlat : F
  minlon : F
  maxlat : F
  maxlon : F
  deriving DecidableEq

/-- A row of a set. The line is a list of longitudes and latitudes. -/
structure OutRow (F : Type) where
  type : ElType
  id : ℤ
  cell : Option Cell
  latE7 : Option ℤ
  lonE7 : Option ℤ
  refs : Option (List ℤ)
  members : Option (List Member)
  tags : Option Tags
  version : Option ℤ
  changeset : Option ℤ
  timestamp : Option ℤ
  uid : Option ℤ
  user : Option String
  xmin : Option ℤ
  ymin : Option ℤ
  xmax : Option ℤ
  ymax : Option ℤ
  geometry : Option (List (F × F))
  hilbert : Option ℕ

/-- A row with nothing but its key. -/
def bareRow (type : ElType) (id : ℤ) : OutRow F :=
  ⟨type, id, none, none, none, none, none, none, none, none, none, none, none, none, none,
    none, none, none, none⟩

inductive Verbosity
  | ids | skel | body | tags | withMeta
  deriving DecidableEq, Repr

inductive Geometry
  | none | geom | bb | center
  deriving DecidableEq, Repr

inductive Order
  | asc | qt
  deriving DecidableEq, Repr

structure ClipBox (F : Type) where
  south : F
  west : F
  north : F
  east : F

structure Out (F : Type) where
  verbosity : Verbosity := .body
  geometry : Geometry := .none
  geomBbox : Option (ClipBox F) := Option.none
  order : Order := .asc
  limit : Option ℕ := Option.none
  noids : Bool := false
  count : Bool := false

structure OutMember (F : Type) where
  type : Typ
  ref : ℤ
  role : String
  coord : Option (Option F × Option F) := none
  geometry : Option (List (LatLon F)) := none
  deriving DecidableEq

/-- An element as it is printed. A field that is not there is `none`; a node without a position has
the fields for it, with nothing in them. -/
structure Element (F : Type) where
  type : ElType
  id : ℤ
  coord : Option (Option F × Option F) := none
  bounds : Option (Bounds F) := none
  nodes : Option (List ℤ) := none
  geometry : Option (List (Option (LatLon F))) := none
  center : Option (LatLon F) := none
  members : Option (List (OutMember F)) := none
  timestamp : Option String := none
  version : Option ℤ := none
  changeset : Option ℤ := none
  user : Option String := none
  uid : Option ℤ := none
  visible : Option Bool := none
  tags : Option Tags := none
  deriving DecidableEq

/-- What the lookups of lines and positions find. -/
structure Resolved (F : Type) where
  wayLine : ℤ → Option (List (F × F))
  nodeCoords : ℤ → Option (Option ℤ × Option ℤ)
  wayGeoms : ℤ → Option (List (F × F))

/-- Nothing is found. -/
def Resolved.nothing : Resolved F := ⟨fun _ => none, fun _ => none, fun _ => none⟩

/-! ### Rendering a row -/

section Rendering

variable (host : Host F)

def boundsDict (row : OutRow F) : Option (Bounds F) :=
  match row.xmin, row.ymin, row.xmax, row.ymax with
  | some xmin, some ymin, some xmax, some ymax =>
    some ⟨host.ofE7 ymin, host.ofE7 xmin, host.ofE7 ymax, host.ofE7 xmax⟩
  | _, _, _, _ => none

def centerDict (row : OutRow F) : Option (LatLon F) :=
  match row.xmin, row.ymin, row.xmax, row.ymax with
  | some xmin, some ymin, some xmax, some ymax =>
    some ⟨host.middle ymin ymax, host.middle xmin xmax⟩
  | _, _, _, _ => none

def pointInBbox (bbox : ClipBox F) (p : F × F) : Bool :=
  host.le bbox.south p.2 && host.le p.2 bbox.north &&
    (host.le bbox.west p.1 && host.le p.1 bbox.east)

/-- A point stays if it or one next to it is in the box. -/
def clipWayGeometry (pts : List (F × F)) (bbox : ClipBox F) : List (Option (F × F)) :=
  let inside := pts.map (pointInBbox host bbox)
  pts.mapIdx fun i p =>
    if inside.getD i false || (decide (0 < i) && inside.getD (i - 1) false) ||
        (decide (i + 1 < pts.length) && inside.getD (i + 1) false) then some p else none

def clippedBounds (points : List (Option (F × F))) : Option (Bounds F) :=
  match points.filterMap id with
  | [] => none
  | p :: kept => some
      { minlat := host.round7 ((kept.map Prod.snd).foldl host.min p.2)
        minlon := host.round7 ((kept.map Prod.fst).foldl host.min p.1)
        maxlat := host.round7 ((kept.map Prod.snd).foldl host.max p.2)
        maxlon := host.round7 ((kept.map Prod.fst).foldl host.max p.1) }

def pointToJson (p : F × F) : LatLon F := ⟨host.round7 p.2, host.round7 p.1⟩

def geometryPointsToJson (points : List (Option (F × F))) : List (Option (LatLon F)) :=
  points.map (Option.map (pointToJson host))

/-- Neither `ids` nor `tags` asks for positions, refs or members. -/
def Verbosity.showsBody : Verbosity → Bool
  | .ids | .tags => false
  | _ => true

def nodeFields (row : OutRow F) (out : Out F) (el : Element F) : Element F :=
  if out.verbosity.showsBody then { el with coord := some (row.latE7.map host.ofE7,
    row.lonE7.map host.ofE7) }
  else el

/-- The line of a way, if lines are asked for. -/
def shownLine (row : OutRow F) (out : Out F) : Option (List (F × F)) :=
  if out.geometry = .geom then row.geometry else none

def clippedLine (row : OutRow F) (out : Out F) : Option (List (Option (F × F))) :=
  (shownLine row out).bind fun pts => out.geomBbox.map fun bbox => clipWayGeometry host pts bbox

def wayFields (row : OutRow F) (out : Out F) (el : Element F) : Element F :=
  let clipped := clippedLine host row out
  { el with
    bounds := if out.geometry = .bb ∨ out.geometry = .geom then
        match clipped with
        | some points => clippedBounds host points
        | none => boundsDict host row
      else none
    nodes := if out.verbosity.showsBody && !out.noids then some (row.refs.getD []) else none
    geometry := (shownLine row out).map fun pts =>
      geometryPointsToJson host (clipped.getD (pts.map some))
    center := if out.geometry = .center then centerDict host row else none }

/-- The points of the line of a member. Those that are dropped leave no gap. -/
def memberLine (out : Out F) (pts : List (F × F)) : List (F × F) :=
  match out.geomBbox with
  | some bbox => (clipWayGeometry host pts bbox).filterMap id
  | none => pts

def memberFields (out : Out F) (found : Resolved F) (m : Member) : OutMember F :=
  let md : OutMember F := { type := m.type, ref := m.ref, role := m.role }
  if out.geometry = .geom then
    match m.type with
    | .node => { md with coord := (found.nodeCoords m.ref).map fun c =>
        (c.1.map host.ofE7, c.2.map host.ofE7) }
    | .way => { md with geometry := (found.wayGeoms m.ref).map fun pts =>
        (memberLine host out pts).map (pointToJson host) }
    | .relation => md
  else md

def relationFields (row : OutRow F) (out : Out F) (found : Resolved F) (el : Element F) :
    Element F :=
  { el with
    bounds := if out.geometry = .bb ∨ out.geometry = .geom then boundsDict host row else none
    members := if out.verbosity.showsBody then
        some ((row.members.getD []).map (memberFields host out found)) else none
    center := if out.geometry = .center then centerDict host row else none }

def metaFields (row : OutRow F) (out : Out F) (el : Element F) : Element F :=
  if out.verbosity = .withMeta then
    { el with
      timestamp := row.timestamp.map host.strftime
      version := row.version
      changeset := row.changeset
      user := row.user
      uid := row.uid }
  else el

def tagFields (row : OutRow F) (out : Out F) (el : Element F) : Element F :=
  if out.verbosity = .body ∨ out.verbosity = .tags ∨ out.verbosity = .withMeta then
    { el with tags := row.tags.filter fun tags => !tags.isEmpty }
  else el

def rowToElement (row : OutRow F) (out : Out F) (found : Resolved F) : Element F :=
  let el : Element F := { type := row.type, id := row.id }
  let el := match row.type with
    | .node => nodeFields host row out el
    | .way => wayFields host row out el
    | .relation => relationFields host row out found el
    | _ => el
  tagFields row out (metaFields host row out el)

end Rendering

section Fields

variable {host : Host F} {row : OutRow F} {out : Out F} {found : Resolved F} {el : Element F}

@[simp] lemma metaFields_type : (metaFields host row out el).type = el.type := by
  unfold metaFields
  split_ifs <;> rfl

@[simp] lemma metaFields_nodes : (metaFields host row out el).nodes = el.nodes := by
  unfold metaFields
  split_ifs <;> rfl

@[simp] lemma metaFields_geometry : (metaFields host row out el).geometry = el.geometry := by
  unfold metaFields
  split_ifs <;> rfl

@[simp] lemma tagFields_type : (tagFields row out el).type = el.type := by
  unfold tagFields
  split_ifs <;> rfl

@[simp] lemma tagFields_nodes : (tagFields row out el).nodes = el.nodes := by
  unfold tagFields
  split_ifs <;> rfl

@[simp] lemma tagFields_geometry : (tagFields row out el).geometry = el.geometry := by
  unfold tagFields
  split_ifs <;> rfl

lemma rowToElement_type : (rowToElement host row out found).type = row.type := by
  unfold rowToElement
  cases ht : row.type with
  | node =>
    simp only [tagFields_type, metaFields_type, nodeFields]
    split_ifs <;> rfl
  | way => simp [wayFields]
  | relation => simp [relationFields]
  | area => simp
  | timeline => simp
  | count => simp

lemma rowToElement_way (hway : row.type = .way) : rowToElement host row out found =
    tagFields row out (metaFields host row out
      (wayFields host row out { type := .way, id := row.id })) := by
  simp only [rowToElement, hway]

end Fields

/-! ### The elements of a set -/

def typeRank : ElType → ℕ
  | .node => 0
  | .way => 1
  | _ => 2

/-- Rows are ordered by type and id, or along the curve with those that have no place on it last. -/
def outBefore (order : Order) (a b : OutRow F) : Bool :=
  match order with
  | .asc => toLex (typeRank a.type, a.id) ≤ toLex (typeRank b.type, b.id)
  | .qt => toLex (a.hilbert.isNone, toLex (a.hilbert.getD 0, a.id)) ≤
      toLex (b.hilbert.isNone, toLex (b.hilbert.getD 0, b.id))

def fetchOutRows (set : List (OutRow F)) (order : Order) (limit : Option ℕ) : List (OutRow F) :=
  let rows := set.insertionSort fun a b => outBefore order a b = true
  match limit with
  | some n => rows.take n
  | none => rows

def countOf (set : List (OutRow F)) (p : ElType → Bool) : String :=
  toString (set.filter fun r => p r.type).length

/-- The element that `out count` prints. -/
def countElement (set : List (OutRow F)) (includeAreasCount : Bool) : Element F :=
  let areas := (set.filter fun r => r.type = .area).length
  { type := .count
    id := 0
    tags := some ([("nodes", countOf set fun t => t = .node),
      ("ways", countOf set fun t => t = .way), ("relations", countOf set fun t => t = .relation)] ++
      (if includeAreasCount || areas ≠ 0 then [("areas", toString areas)] else []) ++
      [("total", toString set.length)]) }

/-- A way without a line but with a cell has its line looked up. -/
def hydrate (found : Resolved F) (row : OutRow F) : OutRow F :=
  if row.type = .way ∧ row.geometry = none ∧ row.cell.isSome then
    { row with geometry := found.wayLine row.id } else row

/-- The rows that an `out` prints, with the lines that it looks up. -/
def rowsToPrint (set : List (OutRow F)) (out : Out F) (found : Resolved F) : List (OutRow F) :=
  let rows := fetchOutRows set out.order out.limit
  if out.geometry = .geom then rows.map (hydrate found) else rows

abbrev Key := ElType × ℤ

def Element.key (el : Element F) : Key := (el.type, el.id)

def OutRow.key (row : OutRow F) : Key := (row.type, row.id)

/-- The elements and the versions that the rows have, which a comparison of two runs needs. -/
def buildElements (host : Host F) (set : List (OutRow F)) (out : Out F) (found : Resolved F)
    (includeAreasCount : Bool) : List (Element F) × List (Key × Option ℤ) :=
  if out.count then ([countElement set includeAreasCount], [])
  else
    let rows := rowsToPrint set out found
    (rows.map fun row => rowToElement host row out found,
      rows.map fun row => (row.key, row.version))

end OsmParquet.Elements
