import OsmParquet.Findable
import OsmParquet.FoldedTiers
import OsmParquet.OneCell

/-!
Relations in a box, before and after compaction.

A relation is in a box when one of its member nodes or ways is. The engine first takes the
relations whose stored box meets that of the query, from the base and the tiers, and then tests
the members of these. The nodes and ways for this second test are read from the base files alone.
What a tier says of a member is not seen until compaction has moved it into the base.

Whether the line of a way meets a box is decided by the spatial extension of the database, which
is a parameter here. The files of a cell may be skipped when the row-group statistics rule out
that a row in them meets the box, which leaves the rows that are found as they are.
-/

namespace OsmParquet.RelationQuery

open OsmParquet.KeyedList OsmParquet.Layers OsmParquet.Rows OsmParquet.Tiers OsmParquet.TierSteps
open OsmParquet.ByidReads OsmParquet.CellTree OsmParquet.Updater OsmParquet.Resolves
open OsmParquet.PrevCells OsmParquet.SpatialReads OsmParquet.Compact OsmParquet.FoldedTiers
open OsmParquet.RunSteps OsmParquet.OneCell OsmParquet.Findable

/-! ### The query -/

/-- A side of a query box in whole units, halves to even. -/
def toE7 (x : ℚ) : ℤ :=
  if 2 * (x - x.floor) < 1 ∨ (2 * (x - x.floor) = 1 ∧ x.floor % 2 = 0) then x.floor else x.floor + 1

/-- Whether a stored box meets the query box. Without a stored box it does not. -/
def meets (q : Box) (b : Option BBox) : Bool :=
  b.any fun b => toE7 q.west ≤ b.xmax && b.xmin ≤ toE7 q.east &&
    (toE7 q.south ≤ b.ymax && b.ymin ≤ toE7 q.north)

/-- Whether a node is in the query box. -/
def inside (q : Box) (p : Option Point) : Bool :=
  p.any fun p => toE7 q.south ≤ p.lat && p.lat ≤ toE7 q.north &&
    (toE7 q.west ≤ p.lon && p.lon ≤ toE7 q.east)

/-- The members of one type of the candidates. -/
def memberRefs (t : Typ) (cand : List (Row RelationSpatialCols)) : List ℤ :=
  cand.flatMap fun c => (c.cols.byid.members.filter fun m => m.type = t).map Member.ref

/-- The nodes of `ids` that the base has in the query box. -/
def nodeHits (T : Tables) (q : Box) (ids : List ℤ) : List ℤ :=
  ((partsForIds (T.byid .node).parts ids).filter fun r =>
    decide (r.id ∈ ids) && inside q r.cols.coord).map Row.id

/-- The ways of `ids` with the cells the base has them in. -/
def wayCells (T : Tables) (ids : List ℤ) : List (ℤ × Cell) :=
  ((partsForIds (T.byid .way).parts ids).filter fun r => decide (r.id ∈ ids)).filterMap fun r =>
    r.cell.map fun c => (r.id, c)

section Query

variable (intersects : List Point → Box → Bool)

/-- The ways of `ids` whose line in the base files meets the query box. -/
def wayHits (T : Tables) (q : Box) (ids : List ℤ) : List ℤ :=
  ((filesOf (T.spatial .way) ((wayCells T ids).map Prod.snd).dedup).filter fun r =>
    ((wayCells T ids).any fun wc => decide (r.cell = some wc.2) && decide (r.id = wc.1)) &&
      r.cols.geometry.any fun g => intersects g q).map Row.id

/-- The candidates that have a member in the query box, by the base files. -/
def relationBboxExactFilter (T : Tables) (cand : List (Row RelationSpatialCols)) (q : Box) :
    List (Row RelationSpatialCols) :=
  cand.filter fun c => c.cols.byid.members.any fun m =>
    match m.type with
    | .node => decide (m.ref ∈ nodeHits T q (memberRefs .node cand))
    | .way => decide (m.ref ∈ wayHits intersects T q (memberRefs .way cand))
    | .relation => false

/-- The relations of a query; `tagWhere` stands for its filters by tag and id. -/
def relationSpatialSelect (s : Root) (tagWhere : Row RelationSpatialCols → Bool)
    (bbox : Option Box) : List (Row RelationSpatialCols) :=
  let cells := cellsForBbox (catalogOf s) .relation bbox
  let cand := currentRows (t := .relation) s.deltas cells (filesOf (s.base.spatial .relation) cells)
    fun r => (bbox.elim true fun q => meets q r.cols.byid.bbox) && tagWhere r
  match bbox with
  | none => cand
  | some q => relationBboxExactFilter intersects s.base.toTables cand q

end Query

/-- The dataset after compaction, without tiers. -/
def compacted (s : Root) : Root := ⟨{ s.base with toTables := compact s }, Deltas.empty⟩

/-! ### The members of a table -/

/-- Whether a member is in the query box, given where nodes are and what lines ways have. -/
def hit (intersects : List Point → Box → Bool) (coord : ℤ → Option Point)
    (line : ℤ → Option (List Point)) (q : Box) (m : Member) : Bool :=
  match m.type with
  | .node => inside q (coord m.ref)
  | .way => (line m.ref).any fun g => intersects g q
  | .relation => false

/-- The positions of the nodes in a table, and the lines of its ways. -/
def tableCoord (T : Tables) (i : ℤ) : Option Point :=
  (byId i (T.byid .node).rows).bind fun r => r.cols.coord

def tableLine (T : Tables) (i : ℤ) : Option (List Point) :=
  (byId i ((T.spatial .way).flatMap CellFiles.rows)).bind fun r => r.cols.geometry

section Members

variable {intersects : List Point → Box → Bool} {T : Tables} {q : Box} {ids : List ℤ} {i : ℤ}

lemma mem_nodeHits (hi : i ∈ ids) : i ∈ nodeHits T q ids ↔ inside q (tableCoord T i) := by
  have hu := distinct_partsForIds (T.byid .node) ids
  have hl : lookup Row.id i (partsForIds (T.byid .node).parts ids) = byId i (T.byid .node).rows :=
    byId_partsForIds _ hi
  rw [nodeHits, ← lookup_isSome, hu.lookup_filter, hl, tableCoord]
  rcases hr : byId i (T.byid .node).rows with _ | r
  · simp [inside]
  · have hid : r.id = i := key_of_lookup hr
    by_cases hin : inside q r.cols.coord <;> simp [Option.filter, hid, hi, hin]

/-- The by-id copy names the cell of every way. -/
lemma mem_wayCells (ha : Agrees (T.byid .way) (T.spatial .way)) {r : Row WaySpatialCols}
    (hr : r ∈ (T.spatial .way).flatMap CellFiles.rows) (hi : r.id ∈ ids) :
    ∃ c, r.cell = some c ∧ (r.id, c) ∈ wayCells T ids := by
  obtain ⟨e, he, hre⟩ := List.mem_flatMap.mp hr
  refine ⟨e.cell, ha.own e he r hre, ?_⟩
  have hs : byId r.id ((T.spatial .way).flatMap CellFiles.rows) = some r := ha.once.lookup_of_mem hr
  have hp : byId r.id (partsForIds (T.byid .way).parts ids) =
      some (Row.map (byidCols (t := .way)) r) := by
    rw [byId_partsForIds _ hi, ha.same, hs]
    rfl
  refine List.mem_filterMap.mpr ⟨_, List.mem_filter.mpr ⟨mem_of_lookup hp, decide_eq_true hi⟩, ?_⟩
  rw [Row.map_cell, ha.own e he r hre]
  rfl

/-- A way is looked up in the file of the cell its by-id row names. -/
lemma mem_wayHits (ha : Agrees (T.byid .way) (T.spatial .way)) (hi : i ∈ ids) :
    i ∈ wayHits intersects T q ids ↔ (tableLine T i).any fun g => intersects g q := by
  have hrow : ∀ r, byId i ((T.spatial .way).flatMap CellFiles.rows) = some r ↔
      r ∈ (T.spatial .way).flatMap CellFiles.rows ∧ r.id = i := fun r => ha.once.lookup_eq_some
  constructor
  · intro h
    obtain ⟨r, hr, hid⟩ := List.mem_map.mp h
    obtain ⟨hfile, hp⟩ := List.mem_filter.mp hr
    rw [tableLine, (hrow r).mpr ⟨((mem_filesOf ha).mp hfile).1, hid⟩]
    exact (Bool.and_eq_true_iff.mp hp).2
  · intro h
    rw [tableLine] at h
    rcases hr : byId i ((T.spatial .way).flatMap CellFiles.rows) with _ | r
    · rw [hr] at h
      cases h
    · rw [hr] at h
      obtain ⟨hmemr, hid⟩ := (hrow r).mp hr
      obtain ⟨c, hc, hin⟩ := mem_wayCells ha hmemr (hid ▸ hi)
      refine List.mem_map.mpr ⟨r, List.mem_filter.mpr ⟨(mem_filesOf ha).mpr ⟨hmemr, ?_⟩, ?_⟩, hid⟩
      · rw [hc]
        simp only [inCells, Option.any_some, decide_eq_true_eq, List.mem_dedup]
        exact List.mem_map.mpr ⟨_, hin, rfl⟩
      · refine Bool.and_eq_true_iff.mpr ⟨List.any_eq_true.mpr ⟨_, hin, ?_⟩, h⟩
        simp [hc]

/-- **The second test** keeps the candidates with a member that is in the box by the tables. -/
lemma mem_exactFilter (ha : Agrees (T.byid .way) (T.spatial .way))
    {cand : List (Row RelationSpatialCols)} {c : Row RelationSpatialCols} :
    c ∈ relationBboxExactFilter intersects T cand q ↔ c ∈ cand ∧
      c.cols.byid.members.any (hit intersects (tableCoord T) (tableLine T) q) := by
  unfold relationBboxExactFilter
  rw [List.mem_filter]
  refine and_congr_right fun hc => ?_
  have href : ∀ {m : Member} {t : Typ}, m ∈ c.cols.byid.members → m.type = t →
      m.ref ∈ memberRefs t cand := fun hm ht =>
    List.mem_flatMap.mpr ⟨c, hc, List.mem_map_of_mem (List.mem_filter.mpr ⟨hm, by simp [ht]⟩)⟩
  simp only [List.any_eq_true]
  refine exists_congr fun m => and_congr_right fun hm => ?_
  unfold hit
  rcases ht : m.type with _ | _ | _
  · simp only [decide_eq_true_eq]
    exact mem_nodeHits (href hm ht)
  · simp only [decide_eq_true_eq]
    exact mem_wayHits ha (href hm ht)
  · exact Iff.rfl

end Members

/-! ### The candidates -/

section Candidates

variable {s : Root} {t : Typ} {cells : List Cell}

/-- The filters of a query apply to all rows alike. -/
lemma currentRows_where (d : Deltas) (baseRows : List (Row (SpatialCols t)))
    (p : Row (SpatialCols t) → Bool) : currentRows d cells baseRows p =
      (currentRows d cells baseRows fun _ => true).filter p := by
  unfold currentRows
  split
  · simp
  · rw [List.filter_append, List.filter_filter, List.filter_filter]
    simp [Bool.and_comm]

/-- The filters of a query pick among the rows it reads. -/
lemma mem_currentRows_iff (ha : BaseAgrees s.base) (hc : cells.Nodup)
    {p : Row (SpatialCols t) → Bool} {r : Row (SpatialCols t)} :
    r ∈ currentRows s.deltas cells (filesOf (s.base.spatial t) cells) p ↔
      byId r.id (readCells s t cells) = some r ∧ p r := by
  have hu := distinct_readCells (s := s) (t := t) ha hc
  rw [currentRows_where]
  change r ∈ (readCells s t cells).filter p ↔ _
  rw [List.mem_filter, byId, hu.lookup_eq_some, and_iff_left (rfl : r.id = r.id)]

/-- They pick among the current rows in the cells and the rows of older tiers. -/
lemma mem_currentRows_stale (hg : Good s.deltas) (hm : TiersRemember s) (ha : BaseAgrees s.base)
    (hc : cells.Nodup) {p : Row (SpatialCols t) → Bool} {r : Row (SpatialCols t)} :
    r ∈ currentRows s.deltas cells (filesOf (s.base.spatial t) cells) p ↔
      (curSpatial s t r.id = some r ∧ inCells cells r.cell ∨ StaleRow s t cells r.id r) ∧ p r := by
  rw [mem_currentRows_iff ha hc, byId_readCells_iff hg hm ha hc]

/-- Where no tier row is exposed the candidates are the current rows in the cells. -/
lemma mem_currentRows (hg : Good s.deltas) (hm : TiersRemember s) (ha : BaseAgrees s.base)
    (hx : ∀ i, ¬ Exposed (tierRows s.deltas t i)) (hc : cells.Nodup)
    {p : Row (SpatialCols t) → Bool} {r : Row (SpatialCols t)} :
    r ∈ currentRows s.deltas cells (filesOf (s.base.spatial t) cells) p ↔
      curSpatial s t r.id = some r ∧ inCells cells r.cell ∧ p r := by
  rw [mem_currentRows_stale hg hm ha hc, or_iff_left (not_staleRow hg hm ha hx hc), and_assoc]

end Candidates

/-! ### Before and after -/

section Compaction

variable {intersects : List Point → Box → Bool} {s : Root} {q : Box}
variable {tagWhere : Row RelationSpatialCols → Bool}

lemma nodup_cellsForBbox (cat : Catalog) (t : Typ) (bbox : Option Box) :
    (cellsForBbox cat t bbox).Nodup := by
  unfold cellsForBbox
  cases bbox <;> exact List.nodup_dedup _

/-- What the query finds. -/
lemma mem_relationSpatialSelect (hg : Good s.deltas) (hm : TiersRemember s) (ha : BaseAgrees s.base)
    (hx : ∀ i, ¬ Exposed (tierRows s.deltas .relation i)) {r : Row RelationSpatialCols} :
    r ∈ relationSpatialSelect intersects s tagWhere (some q) ↔
      curSpatial s .relation r.id = some r ∧
        inCells (cellsForBbox (catalogOf s) .relation (some q)) r.cell ∧
          (meets q r.cols.byid.bbox && tagWhere r) ∧ r.cols.byid.members.any
            (hit intersects (tableCoord s.base.toTables) (tableLine s.base.toTables) q) := by
  unfold relationSpatialSelect
  simp only [Option.elim_some]
  rw [mem_exactFilter (ha .way), mem_currentRows hg hm ha hx (nodup_cellsForBbox _ _ _)]
  simp only [and_assoc]

lemma curSpatial_compacted (hp : Preserves s (compact s)) (t : Typ) (i : ℤ) :
    curSpatial (compacted s) t i = curSpatial s t i := hp.spatial t i

/-- Every current relation whose box meets that of the query is in a cell the query reads. -/
def Reads (s : Root) (cat : Catalog) (q : Box) : Prop :=
  ∀ i r, curSpatial s .relation i = some r → meets q r.cols.byid.bbox →
    inCells (cellsForBbox cat .relation (some q)) r.cell

/-- The current line of a way. -/
def currentLine (s : Root) (i : ℤ) : Option (List Point) :=
  (curSpatial s .way i).bind fun r => r.cols.geometry

/-- The base and the current state agree on whether a relation has a member in the box. -/
def MembersAgree (intersects : List Point → Box → Bool) (s : Root) (q : Box)
    (r : Row RelationSpatialCols) : Prop :=
  r.cols.byid.members.any
      (hit intersects (tableCoord s.base.toTables) (tableLine s.base.toTables) q) =
    r.cols.byid.members.any (hit intersects (curCoord s) (currentLine s) q)

/-- Where the query reads the cells of all relations it should find, it finds by both tests. -/
lemma mem_selected (hg : Good s.deltas) (hm : TiersRemember s) (ha : BaseAgrees s.base)
    (hx : ∀ i, ¬ Exposed (tierRows s.deltas .relation i))
    (hreads : Reads s (catalogOf s) q) {i : ℤ} :
    i ∈ (relationSpatialSelect intersects s tagWhere (some q)).map Row.id ↔
      ∃ r, curSpatial s .relation i = some r ∧ (meets q r.cols.byid.bbox && tagWhere r) ∧
        r.cols.byid.members.any
          (hit intersects (tableCoord s.base.toTables) (tableLine s.base.toTables) q) := by
  rw [List.mem_map]
  constructor
  · rintro ⟨r, hr, rfl⟩
    obtain ⟨h1, -, h2, h3⟩ := (mem_relationSpatialSelect hg hm ha hx).mp hr
    exact ⟨r, h1, h2, h3⟩
  · rintro ⟨r, h1, h2, h3⟩
    have hid : r.id = i := id_of_curSpatial h1
    have hcell := hreads i r h1 (Bool.and_eq_true_iff.mp h2).1
    exact ⟨r, (mem_relationSpatialSelect hg hm ha hx).mpr ⟨by rw [hid]; exact h1,
      hcell, h2, h3⟩, hid⟩

/-- After compaction the base has the current positions and lines. -/
lemma tableCoord_compacted (hp : Preserves s (compact s)) :
    tableCoord (compacted s).base.toTables = curCoord s := by
  funext i
  exact congrArg (fun o => o.bind fun r : Row NodeCols => r.cols.coord) (hp.byid .node i)

lemma tableLine_compacted (hp : Preserves s (compact s)) :
    tableLine (compacted s).base.toTables = currentLine s := by
  funext i
  exact congrArg (fun o => o.bind fun r : Row WaySpatialCols => r.cols.geometry) (hp.spatial .way i)

/-- The same query after compaction. -/
lemma mem_selected_compacted (hp : Preserves s (compact s))
    (hreads : Reads s (catalogOf (compacted s)) q) {i : ℤ} :
    i ∈ (relationSpatialSelect intersects (compacted s) tagWhere (some q)).map Row.id ↔
      ∃ r, curSpatial s .relation i = some r ∧ (meets q r.cols.byid.bbox && tagWhere r) ∧
        r.cols.byid.members.any (hit intersects (curCoord s) (currentLine s) q) := by
  have hx : ∀ i, ¬ Exposed (tierRows (compacted s).deltas .relation i) := by
    rintro i ⟨newer, r, older, h, -⟩
    cases newer <;> cases h
  have hreads' : Reads (compacted s) (catalogOf (compacted s)) q := by
    intro i r hr
    rw [curSpatial_compacted hp] at hr
    exact hreads i r hr
  have hg : Good (compacted s).deltas := good_empty
  have hm : TiersRemember (compacted s) := tiersRemember_fresh _
  have ha : BaseAgrees (compacted s).base := hp.agrees
  rw [mem_selected hg hm ha hx hreads', tableCoord_compacted hp, tableLine_compacted hp]
  simp only [curSpatial_compacted hp]

/-- The same query before and after compaction. -/
lemma same_iff (hg : Good s.deltas) (hm : TiersRemember s) (ha : BaseAgrees s.base)
    (hx : ∀ i, ¬ Exposed (tierRows s.deltas .relation i)) (hp : Preserves s (compact s))
    (hr1 : Reads s (catalogOf s) q) (hr2 : Reads s (catalogOf (compacted s)) q) :
    (∀ i, i ∈ (relationSpatialSelect intersects s tagWhere (some q)).map Row.id ↔
        i ∈ (relationSpatialSelect intersects (compacted s) tagWhere (some q)).map Row.id) ↔
      ∀ i r, curSpatial s .relation i = some r → meets q r.cols.byid.bbox → tagWhere r →
        MembersAgree intersects s q r := by
  simp only [mem_selected hg hm ha hx hr1, mem_selected_compacted hp hr2]
  constructor
  · intro h i r hr h1 h2
    have hi := h i
    simp only [hr, Option.some.injEq, exists_eq_left', h1, h2, Bool.and_self, true_and] at hi
    exact Bool.eq_iff_iff.mpr hi
  · intro h i
    refine exists_congr fun r => and_congr_right fun hr => and_congr_right fun h12 => ?_
    obtain ⟨h1, h2⟩ := Bool.and_eq_true_iff.mp h12
    rw [h i r hr h1 h2]

end Compaction

/-- **When a query for relations does not see compaction.** After any runs over a base whose
copies agree, given that compaction keeps the current data, that no tier row of a relation is
exposed, and that the query reads the cells of the relations it should find: exactly when for
every relation that passes the first test the base and the current state agree on whether a
member is in the box. -/
theorem relations_same_iff (intersects : List Point → Box → Bool) (b : Base) (ha : BaseAgrees b)
    (fs : List Fetched) (q : Box) (tagWhere : Row RelationSpatialCols → Bool)
    (hx : ∀ i, ¬ Exposed (tierRows (runs (fresh b) fs).deltas .relation i))
    (hp : Preserves (runs (fresh b) fs) (compact (runs (fresh b) fs)))
    (hr1 : Reads (runs (fresh b) fs) (catalogOf (runs (fresh b) fs)) q)
    (hr2 : Reads (runs (fresh b) fs) (catalogOf (compacted (runs (fresh b) fs))) q) :
    (∀ i, i ∈ (relationSpatialSelect intersects (runs (fresh b) fs) tagWhere (some q)).map Row.id ↔
        i ∈ (relationSpatialSelect intersects (compacted (runs (fresh b) fs)) tagWhere
          (some q)).map Row.id) ↔
      ∀ i r, curSpatial (runs (fresh b) fs) .relation i = some r → meets q r.cols.byid.bbox →
        tagWhere r → MembersAgree intersects (runs (fresh b) fs) q r := by
  have ha' := baseAgrees_runs ha fs
  exact same_iff (good_runs (good_fresh b) fs) (tiersRemember_runs b fs) ha' hx hp hr1 hr2

/-! ### A relation whose only node moves -/

/-- A node and a relation it is the member of. -/
def station : World where
  rows
    | .node => [node 10 ⟨0, 0⟩]
    | .way => []
    | .relation => [relation 1 [⟨.node, 10, ""⟩] (some ⟨0, 0, 0, 0⟩)]
  once t := by cases t <;> simp [Distinct, node, relation]
  placed t := by cases t <;> simp [node, relation]
  refs := no_refs

/-- The dataset after the node has moved. -/
def stationMoved : Root :=
  runs (fresh station.base) [⟨[diff 1 [change 10 2 (some ⟨30, 40⟩)] [] []], some 0⟩]

lemma preserves_stationMoved : Preserves stationMoved (compact stationMoved) :=
  preserves_of_allTimely _ (baseAgrees _) _ ⟨Or.inr (Or.inr (Or.inl rfl)), trivial⟩

/-- The rows of the tiers are in one tier only. -/
lemma not_exposed_stationMoved (i : ℤ) : ¬ Exposed (tierRows stationMoved.deltas .relation i) := by
  refine not_exposed_of_length_le ?_
  have hday : stationMoved.deltas.day = none := rfl
  have hweek : stationMoved.deltas.week = none := rfl
  rw [tierRows, hday, hweek, rowsOf]
  cases slot stationMoved.deltas.hour .relation i <;> simp

lemma mem_effective {s : Root} {t : Typ} {i : ℤ} {r : Row (SpatialCols t)}
    (h : curSpatial s t i = some r) : r ∈ effective s t := by
  have hl : byId i (effective s t) = some r := by rw [byId_effective]; exact h
  exact mem_of_lookup hl

/-- A line of a single point or with a corner in the box meets it. -/
def cornerInside (g : List Point) (q : Box) : Bool := g.any fun p => inside q (some p)

/-- A box that has the node before and after: the query does not see compaction. -/
theorem station_same : Preserves stationMoved (compact stationMoved) ∧
    ∀ i, i ∈ (relationSpatialSelect cornerInside stationMoved (fun _ => true)
        (some ⟨0, 0, 50, 50⟩)).map Row.id ↔
      i ∈ (relationSpatialSelect cornerInside (compacted stationMoved) (fun _ => true)
        (some ⟨0, 0, 50, 50⟩)).map Row.id := by
  have hr1 : ∀ r ∈ effective stationMoved .relation,
      inCells (cellsForBbox (catalogOf stationMoved) .relation (some ⟨0, 0, 50, 50⟩)) r.cell := by
    decide
  have hr2 : ∀ r ∈ effective stationMoved .relation,
      inCells (cellsForBbox (catalogOf (compacted stationMoved)) .relation (some ⟨0, 0, 50, 50⟩))
        r.cell := by
    decide
  have hmem : ∀ r ∈ effective stationMoved .relation,
      MembersAgree cornerInside stationMoved ⟨0, 0, 50, 50⟩ r := by
    unfold MembersAgree
    decide +kernel
  refine ⟨preserves_stationMoved, (relations_same_iff _ _ (baseAgrees station) _ _ _
    not_exposed_stationMoved preserves_stationMoved (fun i r h _ => hr1 r (mem_effective h))
    (fun i r h _ => hr2 r (mem_effective h))).mpr fun i r h _ _ => hmem r (mem_effective h)⟩

/-- A box around the new position: before compaction the relation is not found. -/
theorem station_not_found : Preserves stationMoved (compact stationMoved) ∧
    1 ∉ (relationSpatialSelect cornerInside stationMoved (fun _ => true)
      (some ⟨20, 30, 40, 50⟩)).map Row.id ∧
    1 ∈ (relationSpatialSelect cornerInside (compacted stationMoved) (fun _ => true)
      (some ⟨20, 30, 40, 50⟩)).map Row.id :=
  ⟨preserves_stationMoved, by decide +kernel, by decide +kernel⟩

end OsmParquet.RelationQuery
