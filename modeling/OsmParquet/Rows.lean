import Mathlib.Data.Int.Notation
import OsmParquet.KeyedList

/-!
The rows of the dataset.

Nodes, ways and relations are stored twice: by id, and by the quadtree cell they are
placed in. The spatial copy of a row has every column of the by-id copy and a few more (a
way's geometry, the centroid). A delta file has the columns of the base file it changes
and three more: whether the row deletes the element, the cell the element was stored in
before, and the replication sequence that last touched it. A row that deletes has no
payload.

Coordinates are integers, in units of `1e-7` degrees. A column that may be NULL is an
`Option`.
-/

namespace OsmParquet.Rows

open OsmParquet.KeyedList

/-- The three element types. -/
inductive Typ
  | node | way | relation
  deriving DecidableEq, Repr

/-- A quadkey digit: `0` north-west, `1` north-east, `2` south-west, `3` south-east. -/
abbrev Digit := Fin 4

instance neZeroDigits : @NeZero ℕ Zero.ofOfNat0 4 := ⟨Nat.succ_ne_zero 3⟩

/-- A cell of the quadtree, as its quadkey digits from the root. The root is `[]`. -/
abbrev Cell := List Digit

instance lawfulBEqCell : LawfulBEq Cell := inferInstance

instance lawfulBEqKey : LawfulBEq (Typ × ℤ) := inferInstance

structure Point where
  lat : ℤ
  lon : ℤ
  deriving DecidableEq, Repr

structure BBox where
  ymin : ℤ
  xmin : ℤ
  ymax : ℤ
  xmax : ℤ
  deriving DecidableEq, Repr

abbrev Tags := List (String × String)

/-- The columns an element has whatever its type: its tags, the promoted ones once more as
columns of their own, and what the edit that made this version says of itself. -/
structure Attrs where
  tags : Option Tags
  promoted : List (Option String)
  version : ℤ
  changeset : ℤ
  timestamp : Option ℤ
  uid : Option ℤ
  user : String
  deriving DecidableEq, Repr

structure Member where
  type : Typ
  ref : ℤ
  role : String
  deriving DecidableEq, Repr

structure NodeCols where
  coord : Option Point
  attrs : Attrs
  hilbert : ℕ
  deriving DecidableEq, Repr

structure WayCols where
  refs : List ℤ
  attrs : Attrs
  bbox : Option BBox
  isClosed : Bool
  isArea : Bool
  hilbert : ℕ
  deriving DecidableEq, Repr

structure WaySpatialCols where
  byid : WayCols
  geometry : Option (List Point)
  centroid : Option Point
  deriving DecidableEq, Repr

structure RelationCols where
  members : List Member
  attrs : Attrs
  bbox : Option BBox
  deriving DecidableEq, Repr

/-- The stored geometry of a relation is always NULL and is left out. -/
structure RelationSpatialCols where
  byid : RelationCols
  centroid : Option Point
  hilbert : ℕ
  deriving DecidableEq, Repr

/-- The payload of a by-id row. -/
@[reducible] def ByidCols : Typ → Type
  | .node => NodeCols
  | .way => WayCols
  | .relation => RelationCols

/-- The payload of a spatial row. -/
@[reducible] def SpatialCols : Typ → Type
  | .node => NodeCols
  | .way => WaySpatialCols
  | .relation => RelationSpatialCols

instance : (t : Typ) → DecidableEq (ByidCols t)
  | .node => inferInstanceAs (DecidableEq NodeCols)
  | .way => inferInstanceAs (DecidableEq WayCols)
  | .relation => inferInstanceAs (DecidableEq RelationCols)

instance : (t : Typ) → DecidableEq (SpatialCols t)
  | .node => inferInstanceAs (DecidableEq NodeCols)
  | .way => inferInstanceAs (DecidableEq WaySpatialCols)
  | .relation => inferInstanceAs (DecidableEq RelationSpatialCols)

/-- The by-id columns of a spatial payload. -/
def byidCols : {t : Typ} → SpatialCols t → ByidCols t
  | .node, c => c
  | .way, c => c.byid
  | .relation, c => c.byid

variable {α β : Type}

/-- An element as a reader sees it: its id, the cell it is stored in, its payload. -/
structure Row (α : Type) where
  id : ℤ
  cell : Option Cell
  cols : α
  deriving DecidableEq, Repr

/-- A row of a delta file. -/
structure DeltaRow (α : Type) where
  id : ℤ
  cols : Option α
  cell : Option Cell
  deleted : Bool
  prevCell : Option Cell
  seq : ℤ
  deriving DecidableEq, Repr

/-- The same element with its payload mapped, as by a projection to fewer columns. -/
def Row.map (f : α → β) (r : Row α) : Row β := ⟨r.id, r.cell, f r.cols⟩

def DeltaRow.map (f : α → β) (r : DeltaRow α) : DeltaRow β := { r with cols := r.cols.map f }

@[simp] lemma Row.map_id (f : α → β) (r : Row α) : (r.map f).id = r.id := rfl
@[simp] lemma Row.map_cell (f : α → β) (r : Row α) : (r.map f).cell = r.cell := rfl
@[simp] lemma DeltaRow.map_id (f : α → β) (r : DeltaRow α) : (r.map f).id = r.id := rfl
@[simp] lemma DeltaRow.map_cell (f : α → β) (r : DeltaRow α) : (r.map f).cell = r.cell := rfl
@[simp] lemma DeltaRow.map_deleted (f : α → β) (r : DeltaRow α) :
    (r.map f).deleted = r.deleted := rfl
@[simp] lemma DeltaRow.map_prevCell (f : α → β) (r : DeltaRow α) :
    (r.map f).prevCell = r.prevCell := rfl

/-- The element a delta row gives, when it does not delete it. -/
def DeltaRow.alive (r : DeltaRow α) : Option (Row α) :=
  if r.deleted then none else r.cols.map fun c => ⟨r.id, r.cell, c⟩

/-- The rows of a delta file `WHERE NOT deleted`, with the columns of the base schema. -/
def aliveRows (l : List (DeltaRow α)) : List (Row α) := l.filterMap DeltaRow.alive

lemma DeltaRow.alive_id {r : DeltaRow α} {x : Row α} (h : r.alive = some x) : x.id = r.id := by
  unfold DeltaRow.alive at h
  split at h
  · cases h
  · obtain ⟨c, -, rfl⟩ := Option.map_eq_some_iff.mp h; rfl

lemma DeltaRow.alive_cell {r : DeltaRow α} {x : Row α} (h : r.alive = some x) :
    x.cell = r.cell := by
  unfold DeltaRow.alive at h
  split at h
  · cases h
  · obtain ⟨c, -, rfl⟩ := Option.map_eq_some_iff.mp h; rfl

lemma DeltaRow.alive_map (f : α → β) (r : DeltaRow α) :
    (r.map f).alive = r.alive.map (Row.map f) := by
  unfold DeltaRow.alive
  rcases hd : r.deleted with _ | _ <;> rcases hc : r.cols with _ | c <;>
    simp [DeltaRow.map, hd, hc, Row.map]

/-- The spatial files of one cell: for nodes the tagged and the untagged ones, else one file. -/
structure CellFiles (α : Type) where
  cell : Cell
  files : List (List (Row α))

def CellFiles.rows (e : CellFiles α) : List (Row α) := e.files.flatten

/-- Lookups in these tables are always by id. -/
abbrev byId (i : ℤ) (l : List (Row α)) : Option (Row α) := lookup Row.id i l

abbrev deltaById (i : ℤ) (l : List (DeltaRow α)) : Option (DeltaRow α) := lookup DeltaRow.id i l

lemma byId_aliveRows {l : List (DeltaRow α)} (hu : Distinct DeltaRow.id l) (i : ℤ) :
    byId i (aliveRows l) = (deltaById i l).bind DeltaRow.alive :=
  hu.lookup_filterMap fun _ _ h => DeltaRow.alive_id h

lemma distinct_aliveRows {l : List (DeltaRow α)} (hu : Distinct DeltaRow.id l) :
    Distinct Row.id (aliveRows l) :=
  hu.filterMap fun _ _ h => DeltaRow.alive_id h

end OsmParquet.Rows
