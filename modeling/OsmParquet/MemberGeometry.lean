import OsmParquet.HistoryBuild
import OsmParquet.RowGroups
import OsmParquet.SetFilter
import OsmParquet.SpatialSnapshots

/-!
The lines of ways for output with geometry.

Only the copy by cell has the lines. The ways that relations have as members are looked for in the
cells around the relations, and what is not found there is looked up by id. The rows by id have no
line but a cell, and a last pass takes the line from the file of that cell, which is a file of the
base: for a way that a tier has changed within its cell this is the line it had before. For the
ways of the set itself the lines of the tiers are read too, and under a snapshot those of the
history. For the members they are not.
-/

namespace OsmParquet.MemberGeometry

open OsmParquet.KeyedList OsmParquet.Layers OsmParquet.Rows OsmParquet.Tiers OsmParquet.TierSteps
open OsmParquet.ByidReads OsmParquet.CellTree OsmParquet.Updater OsmParquet.Resolves
open OsmParquet.PrevCells OsmParquet.SpatialReads OsmParquet.RunSteps OsmParquet.OneCell
open OsmParquet.Findable OsmParquet.RelationQuery OsmParquet.SetFilter OsmParquet.Recurse
open OsmParquet.HistoryTiers OsmParquet.Timeline OsmParquet.SplitCopies OsmParquet.Snapshots
open OsmParquet.HistoryBuild OsmParquet.SpatialSnapshots OsmParquet.RowGroups

/-! ### The last pass -/

/-- A way that the first passes give: with its line, or by id without. -/
structure FoundWay where
  id : ℤ
  cell : Option Cell
  line : Option (List Point)

/-- The lines that the base files have for some cells and ids. -/
def baseJoin (table : List (CellFiles WaySpatialCols)) (pairs : List (Cell × ℤ)) :
    List (ℤ × List Point) :=
  let needed := ((pairs.map Prod.fst).filter fun c => c ∈ table.map CellFiles.cell).dedup
  ((filesOf table needed).filter fun r => r.cell.any fun c => decide ((c, r.id) ∈ pairs)).filterMap
    fun r => r.cols.geometry.map fun g => (r.id, g)

/-- The lines of the ways found, and those of the base files for the others; the last write of an
id counts. -/
def linesOf (table : List (CellFiles WaySpatialCols)) (rows : List FoundWay) :
    List (ℤ × List Point) :=
  baseJoin table (rows.filterMap fun x => if x.line.isSome then none else x.cell.map
    fun c => (c, x.id)) ++ rows.filterMap fun x => x.line.map fun g => (x.id, g)

def lineIn (out : List (ℤ × List Point)) (i : ℤ) : Option (List Point) :=
  (lookup Prod.fst i out).map Prod.snd

/-- The line that the base has of a way in a cell. -/
def baseLine (table : List (CellFiles WaySpatialCols)) (c : Option Cell) (i : ℤ) :
    Option (List Point) :=
  ((byId i (table.flatMap CellFiles.rows)).filter fun r => decide (r.cell = c)).bind
    fun r => r.cols.geometry

section LastPass

variable {byid : ByidTable (ByidCols .way)} {table : List (CellFiles (SpatialCols .way))}

lemma lineIn_filterMap {α : Type} (key : α → ℤ) (line : α → Option (List Point)) {l : List α}
    (hu : Distinct key l) (i : ℤ) :
    lineIn (l.filterMap fun x => (line x).map fun g => (key x, g)) i =
      (lookup key i l).bind line := by
  have hkey : ∀ a b, (line a).map (fun g => (key a, g)) = some b → b.1 = key a := by
    intro a b hab
    obtain ⟨g, -, rfl⟩ := Option.map_eq_some_iff.mp hab
    rfl
  rw [lineIn, hu.lookup_filterMap hkey]
  rcases lookup key i l with _ | x
  · rfl
  · rw [Option.bind_some, Option.bind_some, Option.map_map]
    exact Option.map_id'

/-- **What the join finds**: the line of the base, if the cell and the id are asked for. -/
lemma lineIn_baseJoin (ha : Agrees (t := .way) byid table) {pairs : List (Cell × ℤ)} {i : ℤ} :
    lineIn (baseJoin table pairs) i =
      ((byId i (table.flatMap CellFiles.rows)).filter fun r =>
        r.cell.any fun c => decide ((c, i) ∈ pairs)).bind fun r => r.cols.geometry := by
  have hc : (((pairs.map Prod.fst).filter fun c => c ∈ table.map CellFiles.cell).dedup).Nodup :=
    List.nodup_dedup _
  have hu := distinct_filesOf ha hc
  unfold baseJoin
  simp only
  rw [lineIn_filterMap Row.id (fun r : Row WaySpatialCols => r.cols.geometry) (hu.filter _)]
  have hlook := hu.lookup_filter (k := i) fun r => r.cell.any fun c => decide ((c, r.id) ∈ pairs)
  have hfile := byId_filesOf ha hc i
  simp only [byId] at hfile ⊢
  rw [hlook, hfile]
  rcases hr : lookup Row.id i (table.flatMap CellFiles.rows) with _ | r
  · rfl
  have hid : r.id = i := key_of_lookup hr
  obtain ⟨e, he, hre⟩ := List.mem_flatMap.mp (mem_of_lookup hr)
  have hcell := ha.own e he r hre
  have hmem : e.cell ∈ table.map CellFiles.cell := List.mem_map_of_mem he
  congr 1
  simp only [Option.filter, hcell, inCells, Option.any_some, List.mem_dedup, List.mem_filter,
    decide_eq_true_eq, hmem, and_true]
  by_cases hp : (e.cell, i) ∈ pairs
  · have hfst : e.cell ∈ pairs.map Prod.fst := List.mem_map.mpr ⟨_, hp, rfl⟩
    simp [hp, hfst, hcell, hid]
  · by_cases hfst : e.cell ∈ pairs.map Prod.fst
    · simp only [hfst, if_true, hp]
      simp [hp, hcell, hid]
    · simp only [hfst, if_false, hp]

lemma lineIn_append (a b : List (ℤ × List Point)) (i : ℤ) :
    lineIn (a ++ b) i = (lineIn a i).or (lineIn b i) := by
  rw [lineIn, lookup_append, Option.map_or, lineIn, lineIn]

/-- The cells and ids that the last pass asks for. -/
lemma mem_pairs {rows : List FoundWay} (hu : Distinct FoundWay.id rows) {c : Cell} {i : ℤ} :
    (c, i) ∈ (rows.filterMap fun x => if x.line.isSome then none else x.cell.map
      fun c => (c, x.id)) ↔
      ∃ x, lookup FoundWay.id i rows = some x ∧ x.line = none ∧ x.cell = some c := by
  rw [List.mem_filterMap]
  constructor
  · rintro ⟨x, hx, hpair⟩
    split at hpair
    · cases hpair
    · rename_i hline
      obtain ⟨c', hc', heq⟩ := Option.map_eq_some_iff.mp hpair
      cases heq
      exact ⟨x, hu.lookup_of_mem hx, by simpa using hline, hc'⟩
  · rintro ⟨x, hx, hline, hc⟩
    obtain ⟨hmem, rfl⟩ := hu.lookup_eq_some.mp hx
    exact ⟨x, hmem, by simp [hline, hc]⟩

/-- The base row of a way has a cell, so that it is enough to compare that. -/
lemma baseLine_of_cell (ha : Agrees (t := .way) byid table) {i : ℤ} {c : Option Cell} :
    ((byId i (table.flatMap CellFiles.rows)).filter fun r => r.cell.any fun d => decide
      (c = some d)).bind (fun r => r.cols.geometry) = baseLine table c i := by
  unfold baseLine
  rcases hr : byId i (table.flatMap CellFiles.rows) with _ | r
  · rfl
  obtain ⟨e, he, hre⟩ := List.mem_flatMap.mp (mem_of_lookup hr)
  have hcell := ha.own e he r hre
  simp only [Option.filter, hcell, Option.any_some, eq_comm]

/-- **The lines of the ways found**: their own, else that of the base in their cell. -/
lemma lineIn_linesOf (ha : Agrees (t := .way) byid table) {rows : List FoundWay}
    (hu : Distinct FoundWay.id rows) (i : ℤ) : lineIn (linesOf table rows) i =
      (lookup FoundWay.id i rows).bind fun x => x.line.or (baseLine table x.cell i) := by
  rw [linesOf, lineIn_append, lineIn_baseJoin ha, lineIn_filterMap FoundWay.id FoundWay.line hu]
  simp only [mem_pairs hu]
  rcases lookup FoundWay.id i rows with _ | x
  · simp
  rcases hline : x.line with _ | g
  · simp only [Option.some.injEq, exists_eq_left', hline, true_and, Option.bind_some,
      Option.none_or, Option.or_none]
    exact baseLine_of_cell ha
  · simp [hline]

end LastPass

/-! ### The passes over the dataset -/

section Current

variable (s : Root) (maxCellFraction : ℚ) (groups : RowGroupIndex)

/-- The cells around a box, if there are any and not too many. -/
def cellsAround (b : BBox) : Option (List Cell) :=
  let cells := cellsForBbox (catalogOf s) .way (some (boxOf b))
  if cells = [] ∨ maxCellFraction * (max s.base.leafCells.length 1 : ℕ) < cells.length then none
  else some cells

/-- The cells whose base files the index of row groups keeps for a box. -/
def keptFiles (b : BBox) (cells : List Cell) : List Cell :=
  cells.filter fun c => decide (c ∈ (catalogOf s).tableCells .way) && keepsFile (groups c) (boxOf b)

/-- The ways of the cells around a box. -/
def waysInBox (ids : List ℤ) (b : BBox) : List (Row WaySpatialCols) :=
  (cellsAround s maxCellFraction b).elim [] fun cells =>
    currentRows (t := .way) s.deltas cells
      (filesOf (s.base.spatial .way) (keptFiles s groups b cells)) fun r =>
        meets (boxOf b) r.cols.byid.bbox && decide (r.id ∈ ids)

/-- The ways from the cells around the boxes, and by id what is not found there. -/
def buildWayHydrateViaBbox (hints : List BBox) (ids : List ℤ) : List FoundWay :=
  let found := (boxAround hints).elim [] (waysInBox s maxCellFraction groups ids)
  let remainder := ids.filter fun i => i ∉ found.map Row.id
  found.map (fun r => ⟨r.id, r.cell, r.cols.geometry⟩) ++
    (buildByidSelect (s.base.byid .way) s.deltas remainder fun _ => true).map
      fun r => ⟨r.id, r.cell, none⟩

/-- The lines of member ways. -/
def resolveWayGeometries (hints : List BBox) (ids : List ℤ) : List (ℤ × List Point) :=
  linesOf (s.base.spatial .way) (buildWayHydrateViaBbox s maxCellFraction groups hints ids)

/-- The newest rows of the tiers. -/
def tierBest (ids : List ℤ) : List (DeltaRow WaySpatialCols) :=
  firstPerKey DeltaRow.id
    ((deltaTiers s.deltas).flatMap fun m => (m.files .way).spatial.filter fun r =>
      decide (r.id ∈ ids))

/-- The lines of the ways of a set, given by id: those of the tiers count before those of the
base. -/
def hydrateWayGeometry (rows : List (Row WayCols)) : List (ℤ × List Point) :=
  let missing := rows.filter fun r => r.cell.isSome
  (aliveRows (tierBest s (missing.map Row.id))).filterMap
      (fun r => r.cols.geometry.map fun g => (r.id, g)) ++
    baseJoin (s.base.spatial .way) (missing.filterMap fun r => r.cell.map fun c => (c, r.id))

end Current

/-- The index of the files of ways, by how they are cut into row groups. -/
def wayRowGroups (cut : List (Row WaySpatialCols) → List (List (Row WaySpatialCols))) (b : Base) :
    RowGroupIndex :=
  writeRowgroupIndex (fun r => r.cols.byid.bbox) cut (b.spatial .way)

/-- The index of row groups covers the files of ways. -/
def CoversWays (s : Root) (groups : RowGroupIndex) : Prop :=
  CoversFiles (fun r : Row WaySpatialCols => r.cols.byid.bbox) (s.base.spatial .way) groups

lemma coversWays_wayRowGroups {s : Root} (hu : Distinct CellFiles.cell (s.base.spatial .way))
    {cut : List (Row WaySpatialCols) → List (List (Row WaySpatialCols))}
    (hcut : ∀ rows, (cut rows).flatten = rows) : CoversWays s (wayRowGroups cut s.base) :=
  coversFiles_writeRowgroupIndex hcut hu

section Pruned

variable {s : Root} {maxCellFraction : ℚ} {groups : RowGroupIndex}

/-- Only the rows that pass the filter matter to a read. -/
lemma currentRows_congr {t : Typ} {d : Deltas} {cells : List Cell}
    {a b : List (Row (SpatialCols t))} {p : Row (SpatialCols t) → Bool}
    (h : a.filter p = b.filter p) : currentRows d cells a p = currentRows d cells b p := by
  have hand : ∀ (l : List (Row (SpatialCols t))) (q : Row (SpatialCols t) → Bool),
      (l.filter fun r => p r && q r) = (l.filter p).filter q := by
    intro l q
    rw [List.filter_filter]
    exact List.filter_congr fun r _ => Bool.and_comm _ _
  unfold currentRows
  split
  · exact h
  · rw [hand, hand, h]

/-- A file that is dropped has no row that passes. -/
lemma filter_keptFiles (hk : CoversWays s groups) {b : BBox} {cells : List Cell} {ids : List ℤ} :
    (filesOf (s.base.spatial .way) (keptFiles s groups b cells)).filter
        (fun r => meets (boxOf b) r.cols.byid.bbox && decide (r.id ∈ ids)) =
      (filesOf (s.base.spatial .way) cells).filter
        fun r => meets (boxOf b) r.cols.byid.bbox && decide (r.id ∈ ids) := by
  induction cells with
  | nil => rfl
  | cons c cells ih =>
    have hcons : filesOf (s.base.spatial .way) (c :: cells) =
        ((lookup CellFiles.cell c (s.base.spatial .way)).map CellFiles.rows).getD [] ++
          filesOf (s.base.spatial .way) cells := List.flatMap_cons
    rw [keptFiles, List.filter_cons, hcons, List.filter_append, ← ih]
    split
    · have hkept : filesOf (s.base.spatial .way) (c :: keptFiles s groups b cells) =
          ((lookup CellFiles.cell c (s.base.spatial .way)).map CellFiles.rows).getD [] ++
            filesOf (s.base.spatial .way) (keptFiles s groups b cells) := List.flatMap_cons
      rw [← keptFiles, hkept, List.filter_append]
    · rename_i hdrop
      have hnil :
          (((lookup CellFiles.cell c (s.base.spatial .way)).map CellFiles.rows).getD []).filter
          (fun r => meets (boxOf b) r.cols.byid.bbox && decide (r.id ∈ ids)) = [] := by
        refine List.filter_eq_nil_iff.mpr fun r hr hpass => hdrop ?_
        rcases he : lookup CellFiles.cell c (s.base.spatial .way) with _ | e
        · rw [he] at hr
          cases hr
        rw [he, Option.map_some, Option.getD_some] at hr
        have hmem := mem_of_lookup he
        obtain rfl : e.cell = c := key_of_lookup he
        have hcell : e.cell ∈ (catalogOf s).tableCells .way := List.mem_map_of_mem hmem
        have hkeeps := keepsFile_of_covers (hk e hmem) hr (Bool.and_eq_true_iff.mp hpass).1
        simp [hcell, hkeeps]
      rw [hnil, List.nil_append, ← keptFiles]

lemma nodup_cellsAround {b : BBox} {cells : List Cell}
    (h : cellsAround s maxCellFraction b = some cells) : cells.Nodup := by
  unfold cellsAround at h
  simp only at h
  split at h
  · cases h
  · cases h
    exact nodup_cellsForBbox _ _ _

/-- What the first pass reads of a way. -/
lemma byId_waysInBox (ha : BaseAgrees s.base) (hk : CoversWays s groups) {ids : List ℤ} {b : BBox}
    {i : ℤ} (hi : i ∈ ids) : byId i (waysInBox s maxCellFraction groups ids b) =
      (cellsAround s maxCellFraction b).bind fun cells =>
        (byId i (readCells s .way cells)).filter fun r => meets (boxOf b) r.cols.byid.bbox := by
  unfold waysInBox
  rcases hcells : cellsAround s maxCellFraction b with _ | cells
  · rfl
  have hnodup := nodup_cellsAround hcells
  rw [Option.elim_some, Option.bind_some, currentRows_congr (filter_keptFiles hk),
    currentRows_where]
  have hlook := (distinct_readCells (s := s) (t := .way) ha hnodup).lookup_filter (k := i)
    fun r => meets (boxOf b) r.cols.byid.bbox && decide (r.id ∈ ids)
  simp only [byId]
  change lookup Row.id i ((readCells s .way cells).filter _) = _
  rw [hlook]
  rcases hr : lookup Row.id i (readCells s .way cells) with _ | r
  · rfl
  · have hid : r.id = i := key_of_lookup hr
    simp [Option.filter, hid, hi]

end Pruned

/-! ### When the lines are current -/

/-- The newest row of a way in some cells, if that does not delete it: from the tiers if they have
any row of the way, else from the base. -/
def newestIn (s : Root) (cells : List Cell) (i : ℤ) : Option (Row WaySpatialCols) :=
  if tierRows s.deltas .way i = [] then
    (byId i ((s.base.spatial .way).flatMap CellFiles.rows)).filter fun r => inCells cells r.cell
  else ((tierRows s.deltas .way i).find? fun r => inCells cells r.cell).bind DeltaRow.alive

/-- The row of a way that lies around the boxes. -/
def rowAround (s : Root) (maxCellFraction : ℚ) (hints : List BBox) (i : ℤ) :
    Option (Row WaySpatialCols) :=
  (boxAround hints).bind fun b => (cellsAround s maxCellFraction b).bind fun cells =>
    (newestIn s cells i).filter fun r => meets (boxOf b) r.cols.byid.bbox

/-- The line of a member way is the current one.

If there is a row of the way around the boxes: it has the current line, and if it has none then
the base has none in its cell. Else: the base has the current line in the cell of the way. -/
structure LineKnown (s : Root) (maxCellFraction : ℚ) (hints : List BBox) (i : ℤ) : Prop where
  around : ∀ x, rowAround s maxCellFraction hints i = some x →
    x.cols.geometry.or (baseLine (s.base.spatial .way) x.cell i) = currentLine s i
  apart : rowAround s maxCellFraction hints i = none → ∀ r, curSpatial s .way i = some r →
    baseLine (s.base.spatial .way) r.cell i = r.cols.geometry

section Lines

variable {s : Root} {maxCellFraction : ℚ} {groups : RowGroupIndex} {hints : List BBox} {i : ℤ}

lemma byId_readCells_newestIn (hg : Good s.deltas) (hm : TiersRemember s) (ha : BaseAgrees s.base)
    {cells : List Cell} (hc : cells.Nodup) : byId i (readCells s .way cells) =
      newestIn s cells i := by
  unfold newestIn
  by_cases hrows : tierRows s.deltas .way i = []
  · have hf : (tierRows s.deltas .way i).find? (fun r => inCells cells r.cell) = none := by
      rw [hrows]
      rfl
    have hnt : i ∉ tombIds s.deltas .way cells := by
      rw [mem_tombIds hg, hrows]
      simp
    rw [if_pos hrows, byId_readCells_none hg hf, if_neg hnt, byId_filesOf (ha .way) hc]
  · rw [if_neg hrows]
    rcases hf : (tierRows s.deltas .way i).find? fun r => inCells cells r.cell with _ | d
    · rw [byId_readCells_none hg hf, hf, Option.bind_none]
      split
      · rfl
      · rename_i hnt
        exact base_shadowed hg hm ha hc hrows hf hnt
    · rw [byId_readCells_some hg hf, hf, Option.bind_some]

/-- **The first two passes** give a way with the line of its row around the boxes, else without. -/
lemma lookup_hydrate (hg : Good s.deltas) (hm : TiersRemember s) (ha : BaseAgrees s.base)
    (hk : CoversWays s groups) {ids : List ℤ} (hi : i ∈ ids) :
    lookup FoundWay.id i (buildWayHydrateViaBbox s maxCellFraction groups hints ids) =
      ((rowAround s maxCellFraction hints i).map fun r => ⟨r.id, r.cell, r.cols.geometry⟩).or
        ((cur s .way i).map fun r => ⟨r.id, r.cell, none⟩) := by
  have hfound : byId i ((boxAround hints).elim [] (waysInBox s maxCellFraction groups ids)) =
      rowAround s maxCellFraction hints i := by
    unfold rowAround
    rcases boxAround hints with _ | b
    · rfl
    rw [Option.elim_some, Option.bind_some, byId_waysInBox ha hk hi]
    rcases hcells : cellsAround s maxCellFraction b with _ | cells
    · rfl
    · rw [Option.bind_some, Option.bind_some,
        byId_readCells_newestIn hg hm ha (nodup_cellsAround hcells)]
  unfold buildWayHydrateViaBbox
  simp only
  rw [lookup_append, lookup_map (f := fun r : Row WaySpatialCols =>
      (⟨r.id, r.cell, r.cols.geometry⟩ : FoundWay)) fun _ => rfl,
    lookup_map (f := fun r : Row WayCols => (⟨r.id, r.cell, none⟩ : FoundWay)) fun _ => rfl]
  simp only [byId] at hfound
  rw [hfound]
  rcases hrow : rowAround s maxCellFraction hints i with _ | x
  · have hrem : i ∈ ids.filter fun i =>
        i ∉ ((boxAround hints).elim [] (waysInBox s maxCellFraction groups ids)).map Row.id := by
      rw [hrow] at hfound
      exact List.mem_filter.mpr ⟨hi, by simpa using lookup_eq_none.mp hfound⟩
    have hbyid := byId_buildByidSelect (s.base.byid .way) hg (ids.filter fun i =>
        i ∉ ((boxAround hints).elim [] (waysInBox s maxCellFraction groups ids)).map Row.id)
      (fun _ => true) i
    rw [if_pos hrem] at hbyid
    simp only [byId] at hbyid
    rw [Option.map_none, Option.none_or, Option.none_or, hbyid]
    change Option.map _ ((cur s .way i).filter fun _ => true) = _
    cases cur s .way i <;> rfl
  · rfl

lemma distinct_hydrate (hg : Good s.deltas) (ha : BaseAgrees s.base) (hk : CoversWays s groups)
    (ids : List ℤ) :
    Distinct FoundWay.id (buildWayHydrateViaBbox s maxCellFraction groups hints ids) := by
  have hfound :
      Distinct Row.id ((boxAround hints).elim [] (waysInBox s maxCellFraction groups ids)) := by
    rcases boxAround hints with _ | b
    · exact distinct_nil
    rw [Option.elim_some, waysInBox]
    rcases hcells : cellsAround s maxCellFraction b with _ | cells
    · exact distinct_nil
    rw [Option.elim_some, currentRows_congr (filter_keptFiles hk), currentRows_where]
    exact (distinct_readCells (s := s) (t := .way) ha (nodup_cellsAround hcells)).filter _
  unfold buildWayHydrateViaBbox
  simp only
  refine distinct_append ((distinct_map fun _ => rfl).mpr hfound)
    ((distinct_map fun _ => rfl).mpr (distinct_buildByidSelect _ _ _ _)) fun x hx hx' => ?_
  -- what is looked up by id was not found
  rw [List.map_map] at hx hx'
  obtain ⟨r, hr, hrx⟩ := List.mem_map.mp hx
  have hlook := (distinct_buildByidSelect (s.base.byid .way) s.deltas _ _).lookup_of_mem hr
  have hbyid := byId_buildByidSelect (s.base.byid .way) hg (ids.filter fun i =>
      i ∉ ((boxAround hints).elim [] (waysInBox s maxCellFraction groups ids)).map Row.id)
    (fun _ => true) r.id
  simp only [byId] at hbyid
  rw [hlook] at hbyid
  split at hbyid
  · rename_i hin
    have hnot := (List.mem_filter.mp hin).2
    rw [decide_eq_true_iff] at hnot
    have hrx' : r.id = x := hrx
    exact hnot (hrx' ▸ hx')
  · cases hbyid

/-- **The line that is given for a member way.** -/
lemma lineIn_resolve (hg : Good s.deltas) (hm : TiersRemember s) (ha : BaseAgrees s.base)
    (hk : CoversWays s groups) {ids : List ℤ} (hi : i ∈ ids) :
    lineIn (resolveWayGeometries s maxCellFraction groups hints ids) i =
      (rowAround s maxCellFraction hints i).elim
        ((curSpatial s .way i).bind fun r => baseLine (s.base.spatial .way) r.cell i)
        fun x => x.cols.geometry.or (baseLine (s.base.spatial .way) x.cell i) := by
  rw [resolveWayGeometries, lineIn_linesOf (ha .way) (distinct_hydrate hg ha hk ids),
    lookup_hydrate hg hm ha hk hi]
  rcases rowAround s maxCellFraction hints i with _ | x
  · rw [cur_eq_curSpatial ha]
    cases curSpatial s .way i <;> rfl
  · rfl

/-- **When the line of a member way is current.** -/
lemma resolve_iff (hg : Good s.deltas) (hm : TiersRemember s) (ha : BaseAgrees s.base)
    (hk : CoversWays s groups) {ids : List ℤ} (hi : i ∈ ids) :
    lineIn (resolveWayGeometries s maxCellFraction groups hints ids) i = currentLine s i ↔
      LineKnown s maxCellFraction hints i := by
  rw [lineIn_resolve hg hm ha hk hi]
  rcases hrow : rowAround s maxCellFraction hints i with _ | x
  · rw [Option.elim_none, currentLine]
    constructor
    · refine fun h => ⟨fun x hx => (by rw [hrow] at hx; cases hx), fun _ r hr => ?_⟩
      simpa only [hr, Option.bind_some] using h
    · intro h
      have hapart := h.apart hrow
      rcases hr : curSpatial s .way i with _ | r
      · rfl
      · exact hapart r hr
  · rw [Option.elim_some]
    constructor
    · refine fun h => ⟨fun y hy => ?_, fun hnone => (by rw [hrow] at hnone; cases hnone)⟩
      rw [hrow] at hy
      cases hy
      exact h
    · exact fun h => h.around x hrow

/-- A way that no tier has a row of gets its line. -/
lemma lineKnown_of_no_rows (hrows : tierRows s.deltas .way i = []) :
    LineKnown s maxCellFraction hints i := by
  have hcur := curSpatial_of_no_rows hrows
  have hbase : ∀ r, byId i ((s.base.spatial .way).flatMap CellFiles.rows) = some r →
      baseLine (s.base.spatial .way) r.cell i = r.cols.geometry := by
    intro r hr
    simp [baseLine, hr, Option.filter]
  refine ⟨fun x hx => ?_, fun _ r hr => hbase r (hcur ▸ hr)⟩
  obtain ⟨b, -, hx⟩ := Option.bind_eq_some_iff.mp hx
  obtain ⟨cells, -, hx⟩ := Option.bind_eq_some_iff.mp hx
  obtain ⟨hx, -⟩ := Option.filter_eq_some_iff.mp hx
  rw [newestIn, if_pos hrows] at hx
  obtain ⟨hx, -⟩ := Option.filter_eq_some_iff.mp hx
  rw [currentLine, hcur, hx, Option.bind_some, hbase x hx, Option.or_self]

/-- The newest row of a way in the tiers. -/
lemma deltaById_tierBest (hg : Good s.deltas) {ids : List ℤ} (hi : i ∈ ids) :
    deltaById i (tierBest s ids) = (tierRows s.deltas .way i).head? := by
  have hslot : ∀ {m : Option TierMeta}, (∀ x, m = some x → MetaGood x) →
      (m.bind fun m => deltaById i ((m.files .way).spatial.filter fun r => decide (r.id ∈ ids))) =
        slot m .way i := by
    intro m hm
    cases m with
    | none => rfl
    | some m =>
      have h := @Distinct.lookup_filter _ _ _ DeltaRow.id i _ ((hm m rfl).inStep .way).spatial
        fun r => decide (r.id ∈ ids)
      rw [Option.bind_some, slot_some]
      simp only [deltaById] at h ⊢
      rw [h]
      rcases hr : lookup DeltaRow.id i (m.files .way).spatial with _ | r
      · rfl
      · have hid : r.id = i := key_of_lookup hr
        simp [Option.filter, hid, hi]
  simp only [deltaById] at hslot ⊢
  rw [tierBest, lookup_firstPerKey, lookup_deltaTiers, hslot hg.hour, hslot hg.day, hslot hg.week,
    head_tierRows]
  rfl

lemma cell_of_curSpatial (hm : TiersRemember s) (ha : BaseAgrees s.base) {x : Row WaySpatialCols}
    (hx : curSpatial s .way i = some x) : x.cell.isSome := by
  rcases hrows : tierRows s.deltas .way i with _ | ⟨w, rest⟩
  · rw [curSpatial_of_no_rows hrows] at hx
    obtain ⟨e, he, hxe⟩ := List.mem_flatMap.mp (mem_of_lookup hx)
    rw [(ha .way).own e he x hxe]
    rfl
  · rw [curSpatial_of_rows hrows] at hx
    have hw : w ∈ tierRows s.deltas .way i := by
      rw [hrows]
      exact List.mem_cons_self
    have hlive : w.deleted = false := by
      by_contra hd
      rw [DeltaRow.alive, if_pos (by simpa using hd)] at hx
      cases hx
    rw [DeltaRow.alive_cell hx]
    exact ((hm .way i).placed w hw hlive).2

/-- A row is looked up in its own cell. -/
lemma mem_cellPairs {rows : List (Row WayCols)} (hu : Distinct Row.id rows) {r : Row WayCols}
    (hr : r ∈ rows) {c : Cell} :
    (c, r.id) ∈ ((rows.filter fun r => r.cell.isSome).filterMap fun r =>
      r.cell.map fun c => (c, r.id)) ↔ r.cell = some c := by
  rw [List.mem_filterMap]
  constructor
  · rintro ⟨y, hy, hpair⟩
    obtain ⟨d, hd, heq⟩ := Option.map_eq_some_iff.mp hpair
    obtain ⟨rfl, hyid⟩ := Prod.mk.inj heq
    cases hu.eq_of_key (List.mem_filter.mp hy).1 hr hyid
    exact hd
  · intro hrc
    exact ⟨r, List.mem_filter.mpr ⟨hr, by rw [hrc]; rfl⟩, by rw [hrc]; rfl⟩

/-- **The line that is given for a way of the set**: the current one, else that of the base in the
cell of the way. -/
lemma lineIn_hydrate (hg : Good s.deltas) (hm : TiersRemember s) (ha : BaseAgrees s.base)
    {rows : List (Row WayCols)} (hu : Distinct Row.id rows) {r : Row WayCols} (hr : r ∈ rows)
    (hcur : cur s .way i = some r) : lineIn (hydrateWayGeometry s rows) i =
      (currentLine s i).or (baseLine (s.base.spatial .way) r.cell i) := by
  rw [cur_eq_curSpatial ha] at hcur
  obtain ⟨x, hx, rfl⟩ := Option.map_eq_some_iff.mp hcur
  have hid : x.id = i := id_of_curSpatial hx
  obtain ⟨c, hc⟩ := Option.isSome_iff_exists.mp (cell_of_curSpatial hm ha hx)
  have hmissing : x.map byidCols ∈ rows.filter fun r => r.cell.isSome :=
    List.mem_filter.mpr ⟨hr, by rw [Row.map_cell, hc]; rfl⟩
  have hi : i ∈ (rows.filter fun r => r.cell.isSome).map Row.id := by
    rw [← hid]
    exact List.mem_map_of_mem hmissing
  have hpairs : ∀ c', (c', i) ∈ ((rows.filter fun r => r.cell.isSome).filterMap fun r =>
      r.cell.map fun c => (c, r.id)) ↔ x.cell = some c' := fun c' => by
    rw [← hid]
    exact mem_cellPairs hu hr
  have hbest :
      Distinct DeltaRow.id (tierBest s ((rows.filter fun r => r.cell.isSome).map Row.id)) :=
    distinct_firstPerKey
  have htier := byId_aliveRows hbest i
  rw [deltaById_tierBest hg hi] at htier
  simp only [byId] at htier
  unfold hydrateWayGeometry
  simp only
  rw [lineIn_append, lineIn_filterMap Row.id (fun r : Row WaySpatialCols => r.cols.geometry)
    (distinct_aliveRows hbest), htier, lineIn_baseJoin (ha .way)]
  simp only [hpairs]
  rw [baseLine_of_cell (ha .way), Row.map_cell]
  rcases hrows : tierRows s.deltas .way i with _ | ⟨w, rest⟩
  · -- no tier has the way, and the base has its line
    have hbase := curSpatial_of_no_rows hrows
    rw [hx] at hbase
    have hline : baseLine (s.base.spatial .way) x.cell i = x.cols.geometry := by
      simp [baseLine, ← hbase, Option.filter]
    rw [currentLine, hx, Option.bind_some, hline, Option.or_self]
    rfl
  · have hw := curSpatial_of_rows hrows
    rw [currentLine, hw]
    rfl

/-- **When the line of a way of the set is current**: it has one, or the base has none in the cell
of the way. -/
lemma hydrate_iff (hg : Good s.deltas) (hm : TiersRemember s) (ha : BaseAgrees s.base)
    {rows : List (Row WayCols)} (hu : Distinct Row.id rows) {r : Row WayCols} (hr : r ∈ rows)
    (hcur : cur s .way i = some r) : lineIn (hydrateWayGeometry s rows) i = currentLine s i ↔
      (currentLine s i = none → baseLine (s.base.spatial .way) r.cell i = none) := by
  rw [lineIn_hydrate hg hm ha hu hr hcur]
  rcases currentLine s i with _ | g
  · simp
  · simp

end Lines

/-! ### Under a snapshot -/

section Snapshot

variable (pick : {α : Type} → List (HistoryRow α) → Option (HistoryRow α))
variable (s : Root) (h : HistoryRoot) (maxCellFraction : ℚ) (groups : RowGroupIndex) (t : ℤ)

/-- The state of a way in the cells around a box. The cells are those of the dataset, and nothing
is read if no file of the dataset would be. -/
def stateInBox (b : BBox) (i : ℤ) : Option (HistoryRow WaySpatialCols) :=
  (cellsAround s maxCellFraction b).bind fun cells =>
    if keptFiles s groups b cells = [] ∧ (deltaTiers s.deltas).isEmpty then none
    else (pick (spatialCandidates h .way cells t i)).filter fun z =>
      z.visible && z.cols.any fun c => meets (boxOf b) c.byid.bbox

def stateAround (hints : List BBox) (i : ℤ) : Option (HistoryRow WaySpatialCols) :=
  (boxAround hints).bind fun b => stateInBox pick s h maxCellFraction groups t b i

/-- The state by id. -/
def byidState (i : ℤ) : Option (HistoryRow WayCols) :=
  (pick (byidCandidates h .way t i)).filter fun r => r.visible

/-- The same two passes, over the history. -/
def buildWayHydrateAt (hints : List BBox) (ids : List ℤ) : List FoundWay :=
  let found : List FoundWay := ids.dedup.filterMap fun i =>
    (stateAround pick s h maxCellFraction groups t hints i).map fun z =>
      ⟨i, z.cell, z.cols.bind fun c => c.geometry⟩
  let remainder := ids.dedup.filter fun i => i ∉ found.map FoundWay.id
  found ++ remainder.filterMap fun i => (byidState pick h t i).map fun r => ⟨i, r.cell, none⟩

/-- The lines of member ways: the last pass reads the dataset. -/
def resolveWayGeometriesAt (hints : List BBox) (ids : List ℤ) : List (ℤ × List Point) :=
  linesOf (s.base.spatial .way) (buildWayHydrateAt pick s h maxCellFraction groups t hints ids)

/-- What all cells of the history have of a way. -/
def wayCandidates (i : ℤ) : List (HistoryRow WaySpatialCols) :=
  candidates t i ((historyCellsForBbox s h .way none).flatMap (h.spatial .way).rowsOf)
    (tierSpatialRows h.tiers .way)

/-- The line of a way at a time. -/
def lineAt (i : ℤ) : Option (List Point) :=
  ((pick (wayCandidates s h t i)).filter fun z => z.visible).bind
    fun z => z.cols.bind fun c => c.geometry

def historyWayGeometryById (ids : List ℤ) : List (ℤ × List Point) :=
  ids.dedup.filterMap fun i => (lineAt pick s h t i).map fun g => (i, g)

/-- The lines of the ways of a set. -/
def hydrateWayGeometryAt (rows : List (Row WayCols)) : List (ℤ × List Point) :=
  historyWayGeometryById pick s h t ((rows.filter fun r => r.cell.isSome).map Row.id)

/-- The line of a member way is the one at the time.

If there is a state of the way around the boxes: it has the line, and if it has none then the base
of the dataset has none in its cell. Else: the base has, in the cell of the state by id, the line
that the way had at the time. -/
structure LineKnownAt (hints : List BBox) (i : ℤ) : Prop where
  around : ∀ z, stateAround pick s h maxCellFraction groups t hints i = some z →
    (z.cols.bind fun c => c.geometry).or (baseLine (s.base.spatial .way) z.cell i) =
      lineAt pick s h t i
  apart : stateAround pick s h maxCellFraction groups t hints i = none →
    ((byidState pick h t i).bind fun r => baseLine (s.base.spatial .way) r.cell i) =
      lineAt pick s h t i

end Snapshot

section LinesAt

variable {pick : {α : Type} → List (HistoryRow α) → Option (HistoryRow α)}
variable {s : Root} {h : HistoryRoot} {maxCellFraction : ℚ} {groups : RowGroupIndex} {t : ℤ}
  {hints : List BBox} {i : ℤ}

/-- A table with one row for some of the ids. -/
lemma lookup_ids {α : Type} (key : α → ℤ) {ids : List ℤ} {f : ℤ → Option α}
    (hf : ∀ i x, f i = some x → key x = i) (hu : ids.Nodup) :
    Distinct key (ids.filterMap f) ∧
      ∀ i, lookup key i (ids.filterMap f) = if i ∈ ids then f i else none := by
  have hd : Distinct (fun i : ℤ => i) ids := by simpa [Distinct] using hu
  refine ⟨hd.filterMap hf, fun i => ?_⟩
  rw [hd.lookup_filterMap hf]
  by_cases hi : i ∈ ids
  · rw [if_pos hi, hd.lookup_of_mem hi, Option.bind_some]
  · have hnone : lookup (fun i : ℤ => i) i ids = none := lookup_eq_none.mpr (by simpa using hi)
    rw [if_neg hi, hnone, Option.bind_none]

/-- What the two passes give over the history. -/
lemma lookup_hydrateAt {ids : List ℤ} (hi : i ∈ ids) :
    Distinct FoundWay.id (buildWayHydrateAt pick s h maxCellFraction groups t hints ids) ∧
    lookup FoundWay.id i (buildWayHydrateAt pick s h maxCellFraction groups t hints ids) =
      ((stateAround pick s h maxCellFraction groups t hints i).map fun z =>
        ⟨i, z.cell, z.cols.bind fun c => c.geometry⟩).or
        ((byidState pick h t i).map fun r => ⟨i, r.cell, none⟩) := by
  have hkey : ∀ {α : Type} (o : ℤ → Option α) (g : ℤ → α → FoundWay), (∀ i a, (g i a).id = i) →
      ∀ i x, (o i).map (g i) = some x → x.id = i := by
    intro α o g hg i x hx
    obtain ⟨a, -, rfl⟩ := Option.map_eq_some_iff.mp hx
    exact hg i a
  obtain ⟨hu1, hl1⟩ := lookup_ids FoundWay.id (hkey
    (fun i => stateAround pick s h maxCellFraction groups t hints i)
    (fun i z => ⟨i, z.cell, z.cols.bind fun c => c.geometry⟩) fun _ _ => rfl) (List.nodup_dedup ids)
  have hrem := (List.nodup_dedup ids).filter fun i => decide (i ∉ (ids.dedup.filterMap fun i =>
    (stateAround pick s h maxCellFraction groups t hints i).map fun z =>
      (⟨i, z.cell, z.cols.bind fun c => c.geometry⟩ : FoundWay)).map FoundWay.id)
  obtain ⟨hu2, hl2⟩ := lookup_ids FoundWay.id (hkey (fun i => byidState pick h t i)
    (fun i r => ⟨i, r.cell, none⟩) fun _ _ => rfl) hrem
  constructor
  · refine distinct_append hu1 hu2 fun x hx hx' => ?_
    obtain ⟨y, hy, rfl⟩ := List.mem_map.mp hx
    obtain ⟨j, hj, hyj⟩ := List.mem_filterMap.mp hy
    obtain ⟨r, -, rfl⟩ := Option.map_eq_some_iff.mp hyj
    have hnot := (List.mem_filter.mp hj).2
    rw [decide_eq_true_iff] at hnot
    exact hnot hx'
  · unfold buildWayHydrateAt
    simp only
    rw [lookup_append, hl1 i, hl2 i, if_pos (List.mem_dedup.mpr hi)]
    rcases hz : stateAround pick s h maxCellFraction groups t hints i with _ | z
    · have hin : i ∈ ids.dedup.filter fun i => decide (i ∉ (ids.dedup.filterMap fun i =>
          (stateAround pick s h maxCellFraction groups t hints i).map fun z =>
            (⟨i, z.cell, z.cols.bind fun c => c.geometry⟩ : FoundWay)).map FoundWay.id) := by
        have hnone := hl1 i
        rw [if_pos (List.mem_dedup.mpr hi), hz, Option.map_none] at hnone
        exact List.mem_filter.mpr ⟨List.mem_dedup.mpr hi, by simpa using lookup_eq_none.mp hnone⟩
      rw [if_pos hin]
    · rfl

/-- **When the line of a member way is the one at the time.** -/
lemma resolveAt_iff (ha : BaseAgrees s.base) {ids : List ℤ} (hi : i ∈ ids) :
    lineIn (resolveWayGeometriesAt pick s h maxCellFraction groups t hints ids) i =
      lineAt pick s h t i ↔
      LineKnownAt pick s h maxCellFraction groups t hints i := by
  obtain ⟨hu, hl⟩ := @lookup_hydrateAt pick s h maxCellFraction groups t hints i ids hi
  rw [resolveWayGeometriesAt, lineIn_linesOf (ha .way) hu, hl]
  rcases hz : stateAround pick s h maxCellFraction groups t hints i with _ | z
  · have hby : (((byidState pick h t i).map fun r => (⟨i, r.cell, none⟩ : FoundWay)).bind fun x =>
        x.line.or (baseLine (s.base.spatial .way) x.cell i)) =
        (byidState pick h t i).bind fun r => baseLine (s.base.spatial .way) r.cell i := by
      cases byidState pick h t i <;> rfl
    rw [Option.map_none, Option.none_or, hby]
    exact ⟨fun he => ⟨fun x hx => (by rw [hz] at hx; cases hx), fun _ => he⟩, fun hk => hk.apart hz⟩
  · rw [Option.map_some, Option.some_or, Option.bind_some]
    constructor
    · refine fun he => ⟨fun y hy => ?_, fun hnone => (by rw [hz] at hnone; cases hnone)⟩
      rw [hz] at hy
      cases hy
      exact he
    · exact fun hk => hk.around z hz

/-- **The ways of a set get their lines at the time.** -/
lemma lineIn_hydrateAt {rows : List (Row WayCols)} {r : Row WayCols} (hr : r ∈ rows)
    (hc : r.cell.isSome) : lineIn (hydrateWayGeometryAt pick s h t rows) r.id =
      lineAt pick s h t r.id := by
  have hi : r.id ∈ ((rows.filter fun r => r.cell.isSome).map Row.id) :=
    List.mem_map_of_mem (List.mem_filter.mpr ⟨hr, hc⟩)
  obtain ⟨-, hl⟩ := lookup_ids Prod.fst (f := fun i => (lineAt pick s h t i).map fun g => (i, g))
    (fun i x hx => by obtain ⟨g, -, rfl⟩ := Option.map_eq_some_iff.mp hx; rfl)
    (List.nodup_dedup ((rows.filter fun r => r.cell.isSome).map Row.id))
  rw [hydrateWayGeometryAt, historyWayGeometryById, lineIn, hl, if_pos (List.mem_dedup.mpr hi),
    Option.map_map]
  exact Option.map_id'

/-- Every cell of the base history is read. -/
lemma mem_wayCandidates {z : HistoryRow WaySpatialCols} : z ∈ wayCandidates s h t i ↔
    z ∈ candidates t i (baseSpatial h .way) (tierSpatialRows h.tiers .way) := by
  have hcells : ∀ e ∈ (h.spatial .way).cells, e.cell ∈ historyCellsForBbox s h .way none := by
    intro e he
    refine List.mem_dedup.mpr (List.mem_append_left _ ?_)
    exact List.mem_map_of_mem he
  rw [wayCandidates, mem_candidates, mem_candidates]
  have hbase : z ∈ (historyCellsForBbox s h .way none).flatMap (h.spatial .way).rowsOf ↔
      z ∈ baseSpatial h .way := by
    rw [List.mem_flatMap]
    constructor
    · rintro ⟨c, -, hz⟩
      exact (mem_rowsOf_iff.mp hz).1
    · intro hz
      obtain ⟨e, he, hze⟩ := List.mem_flatMap.mp hz
      exact ⟨e.cell, hcells e he, mem_rowsOf_iff.mpr ⟨hz, e.placed z hze⟩⟩
  rw [hbase]

/-- The choice of the database: one of the best rows, if there are any. -/
structure Picks (pick : {α : Type} → List (HistoryRow α) → Option (HistoryRow α)) : Prop where
  best : ∀ {α : Type} {l : List (HistoryRow α)} {r}, pick l = some r → StateAt l r
  some : ∀ {α : Type} {l : List (HistoryRow α)}, l ≠ [] → (pick l).isSome

lemma visible_of_stateKey {α : Type} {a b : HistoryRow α} (hk : stateKey a = stateKey b) :
    a.visible = b.visible :=
  congrArg (fun k : StateKey => (ofLex (ofLex k).2).1) hk

/-- **The state whose line is given is the state by id**, where the copies show the same. -/
lemma state_eq_byidState (hp : Picks pick) (hm : Mirrored h .way t i) :
    ((pick (wayCandidates s h t i)).filter fun z => z.visible).map
      (HistoryRow.map (byidCols (t := .way))) = byidState pick h t i := by
  -- the best rows of the copy that are visible are those of the table
  have hbest : ∀ r : HistoryRow (ByidCols .way), r.visible = true →
      ((∃ z, StateAt (wayCandidates s h t i) z ∧ z.map (byidCols (t := .way)) = r) ↔
        StateAt (byidCandidates h .way t i) r) := by
    intro r hvis
    have hiff := hm.best_iff (r := r)
    rw [and_iff_left hvis, and_iff_left hvis] at hiff
    refine Iff.trans ?_ hiff
    refine Iff.trans ?_ (best_map stateKey (HistoryRow.map (byidCols (t := .way)))).symm
    exact exists_congr fun z => and_congr_left fun _ => best_congr fun x => mem_wayCandidates
  have huniq : ∀ r r' : HistoryRow (ByidCols .way), StateAt (byidCandidates h .way t i) r →
      StateAt (byidCandidates h .way t i) r' → r = r' := fun r r' h1 h2 =>
    hm.unique r h1.1 r' h2.1 (le_antisymm (h2.2 r h1.1) (h1.2 r' h2.1))
  ext r
  simp only [byidState, Option.map_eq_some_iff, Option.filter_eq_some_iff]
  constructor
  · rintro ⟨z, ⟨hz, hvis⟩, rfl⟩
    have hstate := (hbest (z.map (byidCols (t := .way))) hvis).mp ⟨z, hp.best hz, rfl⟩
    obtain ⟨r', hr'⟩ := Option.isSome_iff_exists.mp (hp.some (List.ne_nil_of_mem hstate.1))
    rw [huniq _ _ hstate (hp.best hr')]
    refine ⟨hr', ?_⟩
    rw [← huniq _ _ hstate (hp.best hr')]
    exact hvis
  · rintro ⟨hr, hvis⟩
    obtain ⟨z, hz, rfl⟩ := (hbest r hvis).mpr (hp.best hr)
    obtain ⟨z', hz'⟩ := Option.isSome_iff_exists.mp (hp.some (List.ne_nil_of_mem hz.1))
    have hkey : stateKey z' = stateKey z :=
      le_antisymm (hz.2 z' (hp.best hz').1) ((hp.best hz').2 z hz.1)
    have hvis' : z'.visible = true := (visible_of_stateKey hkey).trans hvis
    have hstate := (hbest (z'.map (byidCols (t := .way))) hvis').mp ⟨z', hp.best hz', rfl⟩
    exact ⟨z', ⟨hz', hvis'⟩, huniq _ _ hstate (hp.best hr)⟩

end LinesAt

/-! ### All of them -/

/-- **The lines for output with geometry.** After any runs over a base whose copies agree, for
every way that is asked for and every guard on the number of cells: a member way gets its current
line, or none if it does not exist, exactly if the line is known in the above sense, and a way of
the set exactly if it has a line or the base has none in its cell. Under a snapshot at any time a
member way gets its line at the time exactly if that is known, and a way of the set always. -/
theorem member_lines_iff (b : Base) (ha : BaseAgrees b) (fs : List Fetched) (f : ℚ)
    (groups : RowGroupIndex) (hk : CoversWays (runs (fresh b) fs) groups) (hints : List BBox)
    (ids : List ℤ) (i : ℤ) (hi : i ∈ ids) :
    (lineIn (resolveWayGeometries (runs (fresh b) fs) f groups hints ids) i =
        currentLine (runs (fresh b) fs) i ↔ LineKnown (runs (fresh b) fs) f hints i) ∧
    (∀ rows : List (Row WayCols), Distinct Row.id rows → ∀ r ∈ rows,
      cur (runs (fresh b) fs) .way i = some r →
        (lineIn (hydrateWayGeometry (runs (fresh b) fs) rows) i = currentLine
          (runs (fresh b) fs) i ↔
          (currentLine (runs (fresh b) fs) i = none → baseLine (b.spatial .way) r.cell i = none))) ∧
    ∀ (pick : {α : Type} → List (HistoryRow α) → Option (HistoryRow α)) (h : HistoryRoot) (t : ℤ),
      (lineIn (resolveWayGeometriesAt pick (runs (fresh b) fs) h f groups t hints ids) i =
          lineAt pick (runs (fresh b) fs) h t i ↔
        LineKnownAt pick (runs (fresh b) fs) h f groups t hints i) ∧
      ∀ rows : List (Row WayCols), ∀ r ∈ rows, r.id = i → r.cell.isSome →
        lineIn (hydrateWayGeometryAt pick (runs (fresh b) fs) h t rows) i =
          lineAt pick (runs (fresh b) fs) h t i := by
  have hg := good_runs (good_fresh b) fs
  have hm := tiersRemember_runs b fs
  have hbase : (runs (fresh b) fs).base = b := base_runs (fresh b) fs
  have ha' := baseAgrees_runs ha fs
  refine ⟨resolve_iff hg hm ha' hk hi, fun rows hu r hr hcur => ?_, fun pick h t =>
    ⟨resolveAt_iff ha' hi, fun rows r hr hid hc => ?_⟩⟩
  · have hiff := hydrate_iff hg hm ha' hu hr hcur
    rw [hbase] at hiff
    exact hiff
  · rw [← hid]
    exact lineIn_hydrateAt hr hc

/-! ### A way that bends -/

/-- A route along a way. -/
def route : World where
  rows
    | .node => [node 20 ⟨0, 0⟩, node 21 ⟨100, 100⟩]
    | .way => [way 1 [20, 21] [⟨0, 0⟩, ⟨100, 100⟩]]
    | .relation => [relation 5 [⟨.way, 1, ""⟩] (some ⟨0, 0, 100, 100⟩)]
  once t := by cases t <;> simp [Distinct, node, way, relation]
  placed t := by cases t <;> simp [node, way, relation]
  refs := by simp [way]

/-- The index of its files, each with one row group. -/
def routeIndex : RowGroupIndex := wayRowGroups (fun rows => [rows]) route.base

lemma coversWays_routeIndex (fs : List Fetched) :
    CoversWays (runs (fresh route.base) fs) routeIndex := by
  have hcovers : CoversWays (fresh route.base) routeIndex :=
    coversWays_wayRowGroups (baseAgrees route .way).cells fun _ => List.flatten_singleton
  unfold CoversWays
  rw [base_runs]
  exact hcovers

/-- One end of the way moves. -/
def bent : Root :=
  runs (fresh route.base) [⟨[diff 1 [change 21 2 (some ⟨50, 100⟩)] [] []], some 10⟩]

/-- Before that the route has the line of its way. -/
theorem route_line : BaseAgrees route.base ∧ CoversWays (runs (fresh route.base) []) routeIndex ∧
    lineIn (resolveWayGeometries (runs (fresh route.base) []) (1 / 2) routeIndex
      [⟨0, 0, 100, 100⟩] [1]) 1 = currentLine (runs (fresh route.base) []) 1 := by
  have hk : CoversWays (runs (fresh route.base) []) routeIndex := coversWays_routeIndex []
  have hrows : tierRows (runs (fresh route.base) []).deltas .way 1 = [] := rfl
  exact ⟨baseAgrees route, hk,
    (member_lines_iff route.base (baseAgrees route) [] (1 / 2) _ hk _ [1] 1
    (by simp)).1.mpr (lineKnown_of_no_rows hrows)⟩

/-- Afterwards it has the line of before. -/
theorem bent_line_stale : BaseAgrees route.base ∧ CoversWays bent routeIndex ∧
    (∃ r, cur bent .relation 5 = some r ∧ (∃ m ∈ r.cols.members, m.type = .way ∧ m.ref = 1) ∧
      lineIn (resolveWayGeometries bent (1 / 2) routeIndex r.cols.bbox.toList [1]) 1 =
        some [⟨0, 0⟩, ⟨100, 100⟩] ∧
      lineIn (resolveWayGeometries bent (1 / 2) routeIndex r.cols.bbox.toList [1]) 1 ≠
        currentLine bent 1) ∧
    currentLine bent 1 = some [⟨0, 0⟩, ⟨50, 100⟩] := by
  have hs : (cur bent .relation 5).any (fun r => decide ((∃ m ∈ r.cols.members, m.type = .way ∧
      m.ref = 1) ∧ lineIn (resolveWayGeometries bent (1 / 2) routeIndex r.cols.bbox.toList [1]) 1 =
        some [⟨0, 0⟩, ⟨100, 100⟩] ∧
      lineIn (resolveWayGeometries bent (1 / 2) routeIndex r.cols.bbox.toList [1]) 1 ≠
        currentLine bent 1)) = true := by
    decide +kernel
  obtain ⟨r, hr, hr'⟩ := (Option.any_eq_true _ _).mp hs
  exact ⟨baseAgrees route, coversWays_routeIndex _, ⟨r, hr, of_decide_eq_true hr'⟩, by decide⟩

end OsmParquet.MemberGeometry
