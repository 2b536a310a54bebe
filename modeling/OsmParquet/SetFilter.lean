import OsmParquet.RelationQuery

/-!
A set narrowed down to a box, against the same box asked of the dataset.

The rows of a set carry the columns that reads by id and reads of cells have in common, and a
query on a set has nothing else to go by: it keeps the ways and relations whose stored box meets
that of the query. The same query on the dataset takes this for the first test only. It looks at
the line of a way and at the members of a relation afterwards, and it looks only at the rows of
the cells it reads.
-/

namespace OsmParquet.SetFilter

open OsmParquet.KeyedList OsmParquet.Layers OsmParquet.Rows OsmParquet.Tiers OsmParquet.TierSteps
open OsmParquet.ByidReads OsmParquet.CellTree OsmParquet.Updater OsmParquet.Resolves
open OsmParquet.PrevCells OsmParquet.SpatialReads OsmParquet.RunSteps OsmParquet.OneCell
open OsmParquet.Findable OsmParquet.RelationQuery

/-! ### Queries on sets -/

/-- A row of a set. -/
abbrev SetRow := (t : Typ) × Row (ByidCols t)

def SetRow.key (x : SetRow) : Typ × ℤ := (x.1, x.2.id)

/-- The test for a box that the columns of a row allow. -/
def colsInBox (q : Box) : {t : Typ} → ByidCols t → Bool
  | .node, c => inside q c.coord
  | .way, c => meets q c.bbox
  | .relation, c => meets q c.bbox

/-- The rows of the first set that are in all others and pass the filters. -/
def fromSetSelect (set : List SetRow) (others : List (List SetRow)) (types : List Typ)
    (tagWhere : SetRow → Bool) (ids : Option (List ℤ)) (bbox : Option Box) : List SetRow :=
  set.filter fun x => others.all (fun o => o.any fun y => decide (y.key = x.key)) &&
    decide (x.1 ∈ types) && ids.all (fun ids => ids.isEmpty || decide (x.2.id ∈ ids)) &&
    bbox.all (fun q => colsInBox q x.2.cols) && tagWhere x

/-! ### Queries on the dataset -/

section Direct

variable (intersects : List Point → Box → Bool)

def nodeSpatialSelect (s : Root) (tagWhere : Row NodeCols → Bool) (bbox : Option Box) :
    List (Row NodeCols) :=
  let cells := cellsForBbox (catalogOf s) .node bbox
  currentRows (t := .node) s.deltas cells (filesOf (s.base.spatial .node) cells) fun r =>
    bbox.all (fun q => inside q r.cols.coord) && tagWhere r

/-- The box of a way is only the first test, its line is the second. A way without a line is in
no box. -/
def waySpatialSelect (s : Root) (tagWhere : Row WaySpatialCols → Bool) (bbox : Option Box) :
    List (Row WaySpatialCols) :=
  let cells := cellsForBbox (catalogOf s) .way bbox
  currentRows (t := .way) s.deltas cells (filesOf (s.base.spatial .way) cells) fun r =>
    bbox.all (fun q => meets q r.cols.byid.bbox && r.cols.geometry.any fun g => intersects g q) &&
      tagWhere r

/-- The ids of the elements of a type in a box. -/
def idsInBox (s : Root) (q : Box) : Typ → List ℤ
  | .node => (nodeSpatialSelect s (fun _ => true) (some q)).map Row.id
  | .way => (waySpatialSelect intersects s (fun _ => true) (some q)).map Row.id
  | .relation => (relationSpatialSelect intersects s (fun _ => true) (some q)).map Row.id

/-- Both tests of a row: the second one goes by the line of a way and, in the base, by the
members of a relation. -/
def rowInBox (s : Root) (q : Box) : {t : Typ} → SpatialCols t → Bool
  | .node, c => inside q c.coord
  | .way, c => meets q c.byid.bbox && c.geometry.any fun g => intersects g q
  | .relation, c => meets q c.byid.bbox && c.byid.members.any
      (hit intersects (tableCoord s.base.toTables) (tableLine s.base.toTables) q)

end Direct

/-- The rows of a set are current. -/
def Existing (s : Root) (set : List SetRow) : Prop := ∀ x ∈ set, cur s x.1 x.2.id = some x.2

/-! ### The rows a query reads -/

section Reads

variable {intersects : List Point → Box → Bool} {s : Root} {t : Typ} {cells : List Cell} {q : Box}

/-- **What a query for a box finds**: the rows it reads that pass both tests. -/
lemma mem_idsInBox (ha : BaseAgrees s.base) {i : ℤ} : i ∈ idsInBox intersects s q t ↔
    ∃ r, byId i (readCells s t (cellsForBbox (catalogOf s) t (some q))) = some r ∧
      rowInBox intersects s q r.cols := by
  have hc := nodup_cellsForBbox (catalogOf s) t (some q)
  have hpick : ∀ {rows : List (Row (SpatialCols t))} {p : Row (SpatialCols t) → Prop},
      (∀ r, r ∈ rows ↔ byId r.id (readCells s t (cellsForBbox (catalogOf s) t (some q))) = some r ∧
        p r) →
      (i ∈ rows.map Row.id ↔
        ∃ r, byId i (readCells s t (cellsForBbox (catalogOf s) t (some q))) = some r ∧ p r) := by
    intro rows p hrows
    rw [List.mem_map]
    constructor
    · rintro ⟨r, hr, rfl⟩
      exact ⟨r, (hrows r).mp hr⟩
    · rintro ⟨r, hr, hp⟩
      have hid : r.id = i := key_of_lookup hr
      exact ⟨r, (hrows r).mpr ⟨by rw [hid]; exact hr, hp⟩, hid⟩
  cases t with
  | node =>
    refine hpick fun r => ?_
    rw [nodeSpatialSelect, mem_currentRows_iff ha hc]
    simp only [Option.all_some, Bool.and_true, rowInBox]
  | way =>
    refine hpick fun r => ?_
    rw [waySpatialSelect, mem_currentRows_iff ha hc]
    simp only [Option.all_some, Bool.and_true, rowInBox]
  | relation =>
    refine hpick fun r => ?_
    unfold relationSpatialSelect
    simp only
    rw [mem_exactFilter (ha .way), mem_currentRows_iff ha hc, and_assoc]
    simp only [Option.elim_some, Bool.and_true, rowInBox, Bool.and_eq_true]

end Reads

/-! ### Both queries -/

/-- When a set gives the elements that the dataset gives.

An element in one of the cells that the query reads: if its columns are in the box then so are
its line or its members. Any other element: its columns are in the box exactly when an older
tier still has the element in one of the cells and in the box. -/
structure SameAsQuery (intersects : List Point → Box → Bool) (s : Root) (set : List SetRow)
    (q : Box) : Prop where
  near : ∀ x ∈ set, ∀ r, curSpatial s x.1 x.2.id = some r →
    inCells (cellsForBbox (catalogOf s) x.1 (some q)) r.cell → colsInBox q x.2.cols →
    rowInBox intersects s q r.cols
  away : ∀ x ∈ set, ¬ inCells (cellsForBbox (catalogOf s) x.1 (some q)) x.2.cell →
    (colsInBox q x.2.cols ↔ ∃ d r, (tierRows s.deltas x.1 x.2.id).find?
      (fun d => inCells (cellsForBbox (catalogOf s) x.1 (some q)) d.cell) = some d ∧
      DeltaRow.alive d = some r ∧ rowInBox intersects s q r.cols)

section Both

variable {intersects : List Point → Box → Bool} {s : Root} {set : List SetRow} {q : Box}

/-- The first test of the dataset is the test of the set. -/
lemma colsInBox_of_rowInBox {t : Typ} {c : SpatialCols t} (h : rowInBox intersects s q c) :
    colsInBox q (byidCols c) := by
  cases t with
  | node => exact h
  | way => exact (Bool.and_eq_true_iff.mp h).1
  | relation => exact (Bool.and_eq_true_iff.mp h).1

lemma mem_fromSet {x : SetRow} (hx : x ∈ set) :
    x ∈ fromSetSelect set [] [x.1] (fun _ => true) none (some q) ↔ colsInBox q x.2.cols := by
  simp [fromSetSelect, hx]

lemma same_element_iff (hg : Good s.deltas) (hm : TiersRemember s) (ha : BaseAgrees s.base)
    {x : SetRow} (hx : cur s x.1 x.2.id = some x.2) :
    (colsInBox q x.2.cols ↔ x.2.id ∈ idsInBox intersects s q x.1) ↔
      (∀ r, curSpatial s x.1 x.2.id = some r →
        inCells (cellsForBbox (catalogOf s) x.1 (some q)) r.cell → colsInBox q x.2.cols →
        rowInBox intersects s q r.cols) ∧
      (¬ inCells (cellsForBbox (catalogOf s) x.1 (some q)) x.2.cell →
        (colsInBox q x.2.cols ↔ ∃ d r, (tierRows s.deltas x.1 x.2.id).find?
          (fun d => inCells (cellsForBbox (catalogOf s) x.1 (some q)) d.cell) = some d ∧
          DeltaRow.alive d = some r ∧ rowInBox intersects s q r.cols)) := by
  have hc := nodup_cellsForBbox (catalogOf s) x.1 (some q)
  rw [cur_eq_curSpatial ha] at hx
  obtain ⟨r, hr, hrx⟩ := Option.map_eq_some_iff.mp hx
  have hcell : x.2.cell = r.cell := by rw [← hrx, Row.map_cell]
  have hcols : x.2.cols = byidCols r.cols := by rw [← hrx]; rfl
  rw [mem_idsInBox ha]
  by_cases hin : inCells (cellsForBbox (catalogOf s) x.1 (some q)) r.cell
  · rw [byId_readCells_own hg ha hc hr hin]
    constructor
    · intro h
      refine ⟨fun r' hr' _ hbox => ?_, fun hout => absurd (hcell ▸ hin) hout⟩
      obtain ⟨r₀, h₀, hrow⟩ := h.mp hbox
      cases hr.symm.trans hr'
      cases h₀
      exact hrow
    · rintro ⟨h, -⟩
      refine ⟨fun hbox => ⟨r, rfl, h r hr hin hbox⟩, ?_⟩
      rintro ⟨r₀, h₀, hrow⟩
      cases h₀
      rw [hcols]
      exact colsInBox_of_rowInBox hrow
  · rw [byId_readCells_away hg hm ha hc fun x hx => by
      rw [← Option.some.inj (hr.symm.trans hx)]; exact hin]
    have hbind : (∃ r₀, ((tierRows s.deltas x.1 x.2.id).find?
        (fun d => inCells (cellsForBbox (catalogOf s) x.1 (some q)) d.cell)).bind DeltaRow.alive =
          some r₀ ∧ rowInBox intersects s q r₀.cols) ↔
        ∃ d r₀, (tierRows s.deltas x.1 x.2.id).find?
          (fun d => inCells (cellsForBbox (catalogOf s) x.1 (some q)) d.cell) = some d ∧
          DeltaRow.alive d = some r₀ ∧ rowInBox intersects s q r₀.cols := by
      simp only [Option.bind_eq_some_iff]
      constructor
      · rintro ⟨r₀, ⟨d, h1, h2⟩, h3⟩
        exact ⟨d, r₀, h1, h2, h3⟩
      · rintro ⟨d, r₀, h1, h2, h3⟩
        exact ⟨r₀, ⟨d, h1, h2⟩, h3⟩
    rw [hbind]
    constructor
    · intro h
      refine ⟨fun r' hr' hin' _ => ?_, fun _ => h⟩
      cases hr.symm.trans hr'
      exact absurd hin' hin
    · rintro ⟨-, h⟩
      exact h (by rw [hcell]; exact hin)

end Both

/-- **A set in a box.** After any runs over a base whose copies agree, for every set of existing
elements and every box: the set keeps exactly the elements that the dataset gives for the same
box under the condition above. -/
theorem from_set_same_iff (intersects : List Point → Box → Bool) (b : Base) (ha : BaseAgrees b)
    (fs : List Fetched) (set : List SetRow) (hset : Existing (runs (fresh b) fs) set) (q : Box) :
    (∀ x ∈ set, x ∈ fromSetSelect set [] [x.1] (fun _ => true) none (some q) ↔
      x.2.id ∈ idsInBox intersects (runs (fresh b) fs) q x.1) ↔
      SameAsQuery intersects (runs (fresh b) fs) set q := by
  have hg := good_runs (good_fresh b) fs
  have hm := tiersRemember_runs b fs
  have ha' := baseAgrees_runs ha fs
  constructor
  · intro h
    have hone := fun x hx => (same_element_iff hg hm ha' (hset x hx)).mp
      ((mem_fromSet hx).symm.trans (h x hx))
    exact ⟨fun x hx => (hone x hx).1, fun x hx => (hone x hx).2⟩
  · intro h x hx
    exact (mem_fromSet hx).trans
      ((same_element_iff hg hm ha' (hset x hx)).mpr ⟨h.near x hx, h.away x hx⟩)

/-! ### A way across a square -/

/-- A way from the south-western to the north-eastern corner of a square. -/
def diagonal : World where
  rows
    | .node => [node 10 ⟨0, 0⟩, node 11 ⟨100, 100⟩]
    | .way => [way 1 [10, 11] [⟨0, 0⟩, ⟨100, 100⟩]]
    | .relation => []
  once t := by cases t <;> simp [Distinct, node, way]
  placed t := by cases t <;> simp [node, way]
  refs := by simp [way]

/-- The set with the way. -/
def diagonalSet : List SetRow := [⟨.way, (way 1 [10, 11] [⟨0, 0⟩, ⟨100, 100⟩]).map byidCols⟩]

lemma existing_diagonalSet : Existing (runs (fresh diagonal.base) []) diagonalSet := by
  intro x hx
  obtain rfl := List.mem_singleton.mp hx
  rfl

/-- A box around one end of the way. -/
theorem diagonal_same : Existing (runs (fresh diagonal.base) []) diagonalSet ∧
    SameAsQuery cornerInside (runs (fresh diagonal.base) []) diagonalSet ⟨-10, -10, 10, 10⟩ :=
  ⟨existing_diagonalSet, (from_set_same_iff cornerInside diagonal.base (baseAgrees diagonal) []
    diagonalSet existing_diagonalSet _).mp (by decide +kernel)⟩

/-- A box in the north-western corner, which the way does not enter: the set keeps the way, the
dataset does not give it. -/
theorem diagonal_differs : BaseAgrees diagonal.base ∧
    Existing (runs (fresh diagonal.base) []) diagonalSet ∧
    ¬ ∀ x ∈ diagonalSet,
      x ∈ fromSetSelect diagonalSet [] [x.1] (fun _ => true) none (some ⟨60, 10, 90, 40⟩) ↔
        x.2.id ∈ idsInBox cornerInside (runs (fresh diagonal.base) []) ⟨60, 10, 90, 40⟩ x.1 :=
  ⟨baseAgrees diagonal, existing_diagonalSet, by decide +kernel⟩

end OsmParquet.SetFilter
