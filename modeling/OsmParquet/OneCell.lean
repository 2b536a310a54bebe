import OsmParquet.RunSteps

/-!
Datasets of a single cell.

With few nodes the only leaf is the root, and every element is stored there. All such bases are
made the same way from their rows: one part by id, one file of the cell, and the indexes that
the refs and members give.
-/

namespace OsmParquet.OneCell

open OsmParquet.KeyedList OsmParquet.Rows OsmParquet.Tiers OsmParquet.ByidReads OsmParquet.Updater
open OsmParquet.Resolves OsmParquet.PrevCells OsmParquet.SpatialReads OsmParquet.RunSteps

/-- The rows of a dataset with one cell, and with ids below `100`. -/
structure World where
  rows : (t : Typ) → List (Row (SpatialCols t))
  once : ∀ t, Distinct Row.id (rows t)
  placed : ∀ t, ∀ r ∈ rows t, r.cell = some [] ∧ 0 ≤ r.id ∧ r.id ≤ 99
  refs : ∀ r ∈ rows .way, ∀ n ∈ r.cols.byid.refs, 0 ≤ n ∧ n ≤ 99

/-- Without ways there are no refs. -/
lemma no_refs : ∀ r ∈ ([] : List (Row (SpatialCols .way))), ∀ n ∈ r.cols.byid.refs,
    0 ≤ n ∧ n ≤ 99 :=
  fun _ hr => (List.not_mem_nil hr).elim

variable (w : World)

def World.byid (t : Typ) : ByidTable (ByidCols t) where
  parts := [{
    minId := 0
    maxId := 99
    rows := (w.rows t).map (Row.map byidCols)
    le := by decide
    unique := (distinct_map fun _ => rfl).mpr (w.once t)
    inRange := by
      intro r hr
      obtain ⟨x, hx, rfl⟩ := List.mem_map.mp hr
      exact (w.placed t x hx).2 }]
  sorted := by simp

def World.nodeWay : IndexPart where
  minId := 0
  maxId := 99
  rows := (w.rows .way).flatMap fun r => r.cols.byid.refs.map fun n => (n, r.id)
  inRange := by
    intro p hp
    obtain ⟨r, hr, hp⟩ := List.mem_flatMap.mp hp
    obtain ⟨n, hn, rfl⟩ := List.mem_map.mp hp
    exact w.refs r hr n hn

/-- The dataset of the rows. -/
def World.base : Base where
  byid := w.byid
  spatial t := [⟨[], [w.rows t]⟩]
  leafCells := [[]]
  ancestorDepths := [0, 3, 6, 9, 12]
  maxDepth := 13
  extent := ⟨-900000000, -1800000000, 900000000, 1800000000⟩
  promotedKeys := []
  nodeWay := [w.nodeWay]
  member := (w.rows .relation).flatMap fun r =>
    r.cols.byid.members.map fun m => ⟨m.type, m.ref, r.id, m.role, r.cell⟩

@[simp] lemma rows_byid (t : Typ) : (w.base.byid t).rows = (w.rows t).map (Row.map byidCols) := by
  simp [World.base, World.byid, ByidTable.rows]

@[simp] lemma rows_spatial (t : Typ) : (w.base.spatial t).flatMap CellFiles.rows = w.rows t := by
  simp [World.base, CellFiles.rows]

/-- The two copies agree. -/
lemma baseAgrees : BaseAgrees w.base := by
  intro t
  refine ⟨by simp [World.base], by simpa using w.once t, ?_, fun i => ?_⟩
  · intro e he r hr
    simp only [World.base, List.mem_singleton] at he
    subst he
    exact (w.placed t r (by simpa [CellFiles.rows] using hr)).1
  · rw [rows_byid, rows_spatial]
    exact lookup_map fun _ => rfl

lemma nodeWayCovers : NodeWayCovers w.base := by
  intro r hr n hn
  rw [rows_byid] at hr
  obtain ⟨x, hx, rfl⟩ := List.mem_map.mp hr
  refine ⟨w.nodeWay, by simp [World.base], ?_⟩
  exact List.mem_flatMap.mpr ⟨x, hx, List.mem_map_of_mem hn⟩

lemma memberCovers : MemberCovers w.base := by
  intro r hr m hm
  rw [rows_byid] at hr
  obtain ⟨x, hx, rfl⟩ := List.mem_map.mp hr
  exact List.mem_flatMap.mpr ⟨x, hx, List.mem_map.mpr ⟨m, hm, rfl⟩⟩

/-- Before the first run the current rows are those of the base. -/
lemma mem_of_cur {t : Typ} {i : ℤ} {r : Row (ByidCols t)} (h : cur (fresh w.base) t i = some r) :
    r ∈ (w.rows t).map (Row.map byidCols) ∧ r.id = i := by
  have hl : byId i (w.base.byid t).rows = some r := h
  rw [rows_byid] at hl
  exact ⟨mem_of_lookup hl, key_of_lookup hl⟩

lemma mem_of_curSpatial {t : Typ} {i : ℤ} {r : Row (SpatialCols t)}
    (h : curSpatial (fresh w.base) t i = some r) : r ∈ w.rows t := by
  have hl : byId i ((w.base.spatial t).flatMap CellFiles.rows) = some r := h
  rw [rows_spatial] at hl
  exact mem_of_lookup hl

/-! ### Rows and diffs to write down -/

/-- The attributes of a first version without tags. -/
def plain : Attrs := ⟨none, [], 1, 1, none, none, ""⟩

def node (i : ℤ) (p : Point) : Row NodeCols := ⟨i, some [], ⟨some p, plain, Cells.hilbertKey p⟩⟩

/-- A way as the builder stores it, given the positions of its nodes. -/
def way (i : ℤ) (refs : List ℤ) (pts : List Point) : Row WaySpatialCols :=
  ⟨i, some [], ⟨⟨refs, plain, wayBBox pts, isClosed refs, isArea (isClosed refs) none,
    boxHilbert (wayBBox pts)⟩, wayGeometry pts, (wayBBox pts).map Cells.bboxCentroid⟩⟩

/-- A relation as the builder stores it, given its box. -/
def relation (i : ℤ) (ms : List Member) (b : Option BBox) : Row RelationSpatialCols :=
  ⟨i, some [], ⟨⟨ms, plain, b⟩, b.map Cells.bboxCentroid, boxHilbert b⟩⟩

/-- A change of a diff without tags. -/
def change {β : Type} (i version : ℤ) (body : β) : Change β :=
  ⟨i, false, version, none, 1, none, "", none, body, 0⟩

def deletion {β : Type} (i version : ℤ) (body : β) : Change β :=
  ⟨i, true, version, none, 1, none, "", none, body, 0⟩

/-- A diff of some nodes, ways and relations. -/
def diff (seq : ℤ) (ns : List (Change (Option Point))) (ws : List (Change (List ℤ)))
    (rs : List (Change (List Member))) : Diff :=
  ⟨seq, fun
    | .node => ns
    | .way => ws
    | .relation => rs⟩

end OsmParquet.OneCell
