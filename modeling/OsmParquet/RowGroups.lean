import OsmParquet.Recurse

/-!
The row groups of the files of a table.

With the files an index is written that has a box for every row group: the smallest and the largest
values of its columns, taken from the statistics of the file. A query does not read the files in
which no row group has a box that meets its own. A file that the index has no boxes of is read.
-/

namespace OsmParquet.RowGroups

open OsmParquet.KeyedList OsmParquet.Rows OsmParquet.CellTree OsmParquet.Updater
open OsmParquet.RelationQuery OsmParquet.Recurse

variable {α : Type} (box : α → Option BBox)

/-! ### The index -/

/-- The box of a row group. Where no row has values there are no statistics. -/
def rowGroupBbox (rows : List α) : Option BBox := boxAround (rows.filterMap box)

/-- The boxes that the index has of a file. -/
def rowGroupRowsForFile (groups : List (List α)) : List BBox := groups.filterMap (rowGroupBbox box)

/-- What the index has of the file of each cell. -/
abbrev RowGroupIndex := Cell → List BBox

/-- The index that is written with the files, by how they are cut into row groups. -/
def writeRowgroupIndex (box : Row α → Option BBox) (cut : List (Row α) → List (List (Row α)))
    (table : List (CellFiles α)) : RowGroupIndex := fun c =>
  ((lookup CellFiles.cell c table).map fun e => rowGroupRowsForFile box (cut e.rows)).getD []

/-- There is no index, and so nothing is known of any file. -/
def noIndex : RowGroupIndex := fun _ => []

/-- Whether a file is read for a query, by the boxes that the index has of it. -/
def keepsFile (boxes : List BBox) (q : Box) : Bool :=
  boxes.isEmpty || boxes.any fun g =>
    g.xmin ≤ toE7 q.east && g.ymin ≤ toE7 q.north && g.xmax ≥ toE7 q.west && g.ymax ≥ toE7 q.south

/-- Where the index has boxes of a file, the boxes of all its rows are within them. -/
def Covers (boxes : List BBox) (rows : List α) : Prop :=
  boxes ≠ [] → ∀ r ∈ rows, ∀ b, box r = some b → ∃ g ∈ boxes, Contains g b

def CoversFiles (box : Row α → Option BBox) (table : List (CellFiles α)) (index : RowGroupIndex) :
    Prop :=
  ∀ e ∈ table, Covers box (index e.cell) e.rows

/-! ### What is read -/

section Kept

variable {box} {boxes : List BBox} {rows : List α}

/-- Of a file that the index does not know nothing is asked. -/
lemma covers_nil : Covers box [] rows := fun h => absurd rfl h

/-- The boxes that are written cover the rows, however the rows are cut into groups. -/
lemma covers_rowGroupRowsForFile (groups : List (List α)) :
    Covers box (rowGroupRowsForFile box groups) groups.flatten := by
  intro _ r hr b hb
  obtain ⟨group, hgroup, hr⟩ := List.mem_flatten.mp hr
  obtain ⟨g, hg, hcontains⟩ := contains_boxAround (List.mem_filterMap.mpr ⟨r, hr, hb⟩)
  exact ⟨g, List.mem_filterMap.mpr ⟨group, hgroup, hg⟩, hcontains⟩

lemma coversFiles_noIndex {box : Row α → Option BBox} {table : List (CellFiles α)} :
    CoversFiles box table noIndex := fun _ _ => covers_nil

/-- The index that is written covers the files. -/
lemma coversFiles_writeRowgroupIndex {box : Row α → Option BBox}
    {cut : List (Row α) → List (List (Row α))}
    (hcut : ∀ rows, (cut rows).flatten = rows) {table : List (CellFiles α)}
    (hu : Distinct CellFiles.cell table) : CoversFiles box table
    (writeRowgroupIndex box cut table) := by
  intro e he
  have hlook : lookup CellFiles.cell e.cell table = some e := hu.lookup_of_mem he
  have hcovers : Covers box (rowGroupRowsForFile box (cut e.rows)) (cut e.rows).flatten :=
    covers_rowGroupRowsForFile _
  rw [hcut] at hcovers
  rw [writeRowgroupIndex, hlook]
  exact hcovers

/-- **No file is left out that has a row which meets the query.** -/
lemma keepsFile_of_covers (hc : Covers box boxes rows) {r : α} (hr : r ∈ rows) {q : Box}
    (hq : meets q (box r) = true) : keepsFile boxes q = true := by
  obtain ⟨b, hb, hmeets⟩ := (Option.any_eq_true _ _).mp hq
  unfold keepsFile
  by_cases hnone : boxes = []
  · simp [hnone]
  · obtain ⟨g, hg, h1, h2, h3, h4⟩ := hc hnone r hr b hb
    refine Bool.or_eq_true_iff.mpr (.inr (List.any_eq_true.mpr ⟨g, hg, ?_⟩))
    simp only [Bool.and_eq_true, decide_eq_true_eq] at hmeets ⊢
    omega

end Kept

end OsmParquet.RowGroups
