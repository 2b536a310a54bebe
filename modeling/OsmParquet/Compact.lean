import OsmParquet.CompactByid
import OsmParquet.SpatialReads

/-!
Compaction: a new generation with the tiers folded into the base.

The spatial files are rewritten only in the cells that the newest tier rows and the tombstones
name; all others are linked as they are. So an element that the tiers changed must have its
base cell among the rewritten ones. The oldest tier row of the element remembers this cell,
and each newer row remembers where the element was when its tier began, so that some row always
names it. This chain breaks when a run with changes is merged into a tier that an earlier run
without changes had already folded into the tier below.
-/

namespace OsmParquet.Compact

open OsmParquet.KeyedList OsmParquet.Layers OsmParquet.Rows OsmParquet.Tiers OsmParquet.TierSteps
open OsmParquet.ByidReads OsmParquet.Updater OsmParquet.Resolves OsmParquet.PrevCells
open OsmParquet.SpatialReads OsmParquet.CompactByid

/-! ### The rewrite -/

/-- The newest tier row of every element, in the columns of the spatial schema. -/
def spatialWinners (d : Deltas) (t : Typ) : List (DeltaRow (SpatialCols t)) :=
  firstPerKey DeltaRow.id ((deltaTiers d).flatMap fun m => (m.files t).spatial)

/-- The cells to rewrite. -/
def touchedCells (d : Deltas) (t : Typ) : List Cell :=
  ((spatialWinners d t).filterMap DeltaRow.cell ++
    (spatialWinners d t).filterMap DeltaRow.prevCell ++
    (deltaTiers d).flatMap fun m => (tombstones m t).filterMap DeltaRow.prevCell).dedup

/-- The files of a rewritten cell: nodes with tags and nodes without, or one file. A file
without rows is not written. -/
def splitFiles : {t : Typ} → List (Row (SpatialCols t)) → List (List (Row (SpatialCols t)))
  | .node, rows => [rows.filter fun r => r.cols.attrs.tags.isSome,
      rows.filter fun r => r.cols.attrs.tags.isNone].filter fun f => !f.isEmpty
  | .way, rows => [rows].filter fun f => !f.isEmpty
  | .relation, rows => [rows].filter fun f => !f.isEmpty

/-- The rows of a rewritten cell. -/
def cellRows {t : Typ} (old : List (CellFiles (SpatialCols t))) (d : Deltas) (c : Cell) :
    List (Row (SpatialCols t)) :=
  (filesOf old [c]).filter (fun r => r.id ∉ (spatialWinners d t).map DeltaRow.id) ++
    aliveRows ((spatialWinners d t).filter fun w => w.cell = some c)

def compactSpatial {t : Typ} (old : List (CellFiles (SpatialCols t))) (d : Deltas) :
    List (CellFiles (SpatialCols t)) :=
  (old.map CellFiles.cell ++ touchedCells d t).dedup.filterMap fun c =>
    if c ∈ touchedCells d t then
      let files := splitFiles (cellRows old d c)
      if files.isEmpty then none else some ⟨c, files⟩
    else lookup CellFiles.cell c old

lemma distinct_rawView (d : Deltas) (t : Typ) : Distinct DeltaRow.id (rawView d t) :=
  distinct_firstPerKey

/-- The tables of the new generation. -/
def compact (s : Root) : Tables where
  byid t := compactByidTable (s.base.byid t) (rawView s.deltas t) (distinct_rawView _ _)
  spatial t := compactSpatial (s.base.spatial t) s.deltas

/-- The new generation holds every current row once in each copy, in the file of its cell,
and nothing else. -/
structure Preserves (s : Root) (T : Tables) : Prop where
  byid : ∀ t i, byId i (T.byid t).rows = cur s t i
  spatial : ∀ t i, byId i ((T.spatial t).flatMap CellFiles.rows) = curSpatial s t i
  agrees : ∀ t, Agrees (T.byid t) (T.spatial t)

/-! ### What the rewritten files hold -/

section Spatial

variable {d : Deltas} {t : Typ} {old : List (CellFiles (SpatialCols t))}

lemma deltaById_spatialWinners (d : Deltas) (t : Typ) (i : ℤ) :
    deltaById i (spatialWinners d t) = winner d t i := by
  have h := @lookup_deltaTiers (DeltaRow (SpatialCols t)) DeltaRow.id d
    (fun m => (m.files t).spatial) i
  simp only [spatialWinners, deltaById]
  rw [lookup_firstPerKey, h]
  rfl

lemma distinct_spatialWinners (d : Deltas) (t : Typ) : Distinct DeltaRow.id (spatialWinners d t) :=
  distinct_firstPerKey

/-- The tagged nodes and then the others are all the nodes. -/
lemma splitFiles_flatten_perm (rows : List (Row (SpatialCols t))) :
    (splitFiles rows).flatten.Perm rows := by
  cases t with
  | node =>
    have h := List.filter_append_perm (fun r : Row NodeCols => r.cols.attrs.tags.isSome) rows
    have hnot : ∀ r : Row NodeCols, (!decide (r.cols.attrs.tags.isSome = true)) =
        r.cols.attrs.tags.isNone := by
      intro r; cases r.cols.attrs.tags <;> rfl
    rw [splitFiles, List.flatten_filter_not_isEmpty]
    simpa [hnot] using h
  | way => rw [splitFiles, List.flatten_filter_not_isEmpty]; simp
  | relation => rw [splitFiles, List.flatten_filter_not_isEmpty]; simp

lemma mem_splitFiles {rows : List (Row (SpatialCols t))} {r : Row (SpatialCols t)} :
    r ∈ (splitFiles rows).flatten ↔ r ∈ rows := (splitFiles_flatten_perm rows).mem_iff

lemma distinct_splitFiles {rows : List (Row (SpatialCols t))} (hu : Distinct Row.id rows) :
    Distinct Row.id (splitFiles rows).flatten :=
  ((splitFiles_flatten_perm rows).map Row.id).nodup_iff.mpr hu

lemma mem_filesOf_singleton {c : Cell} {r : Row (SpatialCols t)} :
    r ∈ filesOf old [c] ↔ ∃ e, lookup CellFiles.cell c old = some e ∧ r ∈ e.rows := by
  rcases h : lookup CellFiles.cell c old with _ | e
  · simp [filesOf, h]
  · simp [filesOf, h]

/-- What a cell holds after the rewrite, whether it was rewritten or linked. -/
def newRows (old : List (CellFiles (SpatialCols t))) (d : Deltas) (c : Cell) :
    List (Row (SpatialCols t)) :=
  if c ∈ touchedCells d t then (splitFiles (cellRows old d c)).flatten else filesOf old [c]

lemma compactSpatial_flatMap (old : List (CellFiles (SpatialCols t))) (d : Deltas) :
    (compactSpatial old d).flatMap CellFiles.rows =
      (old.map CellFiles.cell ++ touchedCells d t).dedup.flatMap (newRows old d) := by
  unfold compactSpatial
  induction (old.map CellFiles.cell ++ touchedCells d t).dedup with
  | nil => rfl
  | cons c cs ih =>
    rw [List.flatMap_cons, ← ih, List.filterMap_cons]
    by_cases hc : c ∈ touchedCells d t
    · by_cases hf : (splitFiles (cellRows old d c)).isEmpty
      · have h0 := List.isEmpty_iff.mp hf
        simp [hc, newRows, h0]
      · simp [hc, hf, newRows, CellFiles.rows]
    · rcases hl : lookup CellFiles.cell c old with _ | e
      · simp [hc, hl, newRows, filesOf]
      · simp [hc, hl, newRows, filesOf]

lemma cell_of_mem_compactSpatial (hcell : ∀ c, ∀ e, lookup CellFiles.cell c old =
    some e → e.cell = c) {e : CellFiles (SpatialCols t)} (he : e ∈ compactSpatial old d) :
    ∀ r ∈ e.rows, r ∈ newRows old d e.cell := by
  unfold compactSpatial at he
  obtain ⟨c, -, hce⟩ := List.mem_filterMap.mp he
  split at hce
  · rename_i hc
    simp only at hce
    split at hce
    · cases hce
    · cases hce
      intro r hr
      simpa [newRows, hc, CellFiles.rows] using hr
  · rename_i hc
    have := hcell c e hce
    subst this
    intro r hr
    rw [newRows, if_neg hc]
    exact mem_filesOf_singleton.mpr ⟨e, hce, hr⟩

lemma distinct_cells_compactSpatial :
    Distinct CellFiles.cell (compactSpatial old d) := by
  have hcells : ∀ l : List Cell, l.Nodup → Distinct id l := by
    intro l h
    rwa [Distinct, List.map_id]
  refine (hcells _ (List.nodup_dedup _)).filterMap ?_
  intro c e he
  split at he
  · simp only at he
    split at he
    · cases he
    · cases he; rfl
  · exact key_of_lookup he

end Spatial

section Rewrite

variable {s : Root} {t : Typ}

/-- Every element that the tiers changed has its base cell rewritten. -/
def Covered (s : Root) (t : Typ) : Prop :=
  ∀ i, tierRows s.deltas t i ≠ [] → ∀ c, baseCell s.base t i = some c → c ∈ touchedCells s.deltas t

lemma mem_winners_iff {i : ℤ} :
    i ∈ (spatialWinners s.deltas t).map DeltaRow.id ↔ tierRows s.deltas t i ≠ [] := by
  rw [← lookup_isSome]
  have h := deltaById_spatialWinners s.deltas t i
  simp only [deltaById] at h
  rw [h, ← Option.ne_none_iff_isSome, Ne, winner_eq_none]

lemma baseCell_of_mem (ha : BaseAgrees s.base) {r : Row (SpatialCols t)}
    (hr : r ∈ (s.base.spatial t).flatMap CellFiles.rows) : baseCell s.base t r.id = r.cell := by
  have hl : byId r.id ((s.base.spatial t).flatMap CellFiles.rows) = some r :=
    (ha t).once.lookup_of_mem hr
  rw [baseCell, (ha t).same, hl]
  rfl

/-- A cell holds the unchanged base rows and the newest tier rows that lie in it. -/
lemma mem_newRows (ha : BaseAgrees s.base) (hcov : Covered s t) {c : Cell}
    {r : Row (SpatialCols t)} : r ∈ newRows (s.base.spatial t) s.deltas c ↔ r.cell = some c ∧
      r ∈ ((s.base.spatial t).flatMap CellFiles.rows).filter
          (fun r => r.id ∉ (spatialWinners s.deltas t).map DeltaRow.id) ++
        aliveRows (spatialWinners s.deltas t) := by
  have hfile : ∀ {r : Row (SpatialCols t)}, r ∈ filesOf (s.base.spatial t) [c] ↔
      r ∈ (s.base.spatial t).flatMap CellFiles.rows ∧ r.cell = some c := by
    intro r
    rw [mem_filesOf (ha t)]
    refine and_congr_right fun _ => ?_
    cases r.cell <;> simp [inCells]
  have halive : ∀ {l : List (DeltaRow (SpatialCols t))}, r ∈ aliveRows l ↔
      ∃ w ∈ l, w.alive = some r := List.mem_filterMap
  rw [List.mem_append, List.mem_filter, newRows]
  by_cases hc : c ∈ touchedCells s.deltas t
  · rw [if_pos hc, mem_splitFiles, cellRows, List.mem_append, List.mem_filter, hfile,
      halive, halive]
    constructor
    · rintro (⟨⟨h1, h2⟩, h3⟩ | ⟨w, hw, hwr⟩)
      · exact ⟨h2, Or.inl ⟨h1, h3⟩⟩
      · obtain ⟨hw1, hw2⟩ := List.mem_filter.mp hw
        have hwc : w.cell = some c := by simpa using hw2
        exact ⟨by rw [DeltaRow.alive_cell hwr, hwc], Or.inr ⟨w, hw1, hwr⟩⟩
    · rintro ⟨h2, ⟨h1, h3⟩ | ⟨w, hw, hwr⟩⟩
      · exact Or.inl ⟨⟨h1, h2⟩, h3⟩
      · refine Or.inr ⟨w, List.mem_filter.mpr ⟨hw, ?_⟩, hwr⟩
        rw [DeltaRow.alive_cell hwr] at h2
        simpa using h2
  · rw [if_neg hc, hfile, halive]
    constructor
    · rintro ⟨h1, h2⟩
      refine ⟨h2, Or.inl ⟨h1, ?_⟩⟩
      simp only [decide_eq_true_eq]
      intro hm
      exact hc (hcov r.id (mem_winners_iff.mp hm) c (by rw [baseCell_of_mem ha h1, h2]))
    · rintro ⟨h2, ⟨h1, -⟩ | ⟨w, hw, hwr⟩⟩
      · exact ⟨h1, h2⟩
      · -- the cell of a newest row is always rewritten
        rw [DeltaRow.alive_cell hwr] at h2
        refine absurd ?_ hc
        simp only [touchedCells, List.mem_dedup, List.mem_append, List.mem_filterMap]
        exact Or.inl (Or.inl ⟨w, hw, h2⟩)

lemma distinct_newRows (ha : BaseAgrees s.base) (c : Cell) :
    Distinct Row.id (newRows (s.base.spatial t) s.deltas c) := by
  have hbase : Distinct Row.id (filesOf (s.base.spatial t) [c]) := distinct_filesOf (ha t) (by simp)
  unfold newRows
  split
  · refine distinct_splitFiles (distinct_append (hbase.filter _)
      (distinct_aliveRows ((distinct_spatialWinners _ _).filter _)) fun x hx hx' => ?_)
    obtain ⟨a, ha', rfl⟩ := List.mem_map.mp hx
    obtain ⟨w, hw, hwa⟩ := List.mem_filterMap.mp ha'
    have hnot := (mem_map_without.mp hx').2
    rw [DeltaRow.alive_id hwa] at hnot
    exact hnot (List.mem_map_of_mem (List.mem_filter.mp hw).1)
  · exact hbase

/-- All rows after compaction, in one list. -/
def effective (s : Root) (t : Typ) : List (Row (SpatialCols t)) :=
  ((s.base.spatial t).flatMap CellFiles.rows).filter
      (fun r => r.id ∉ (spatialWinners s.deltas t).map DeltaRow.id) ++
    aliveRows (spatialWinners s.deltas t)

lemma distinct_effective (ha : BaseAgrees s.base) : Distinct Row.id (effective s t) := by
  refine distinct_append ((ha t).once.filter _) (distinct_aliveRows (distinct_spatialWinners _ _))
    fun x hx hx' => ?_
  obtain ⟨a, ha', rfl⟩ := List.mem_map.mp hx
  obtain ⟨w, hw, hwa⟩ := List.mem_filterMap.mp ha'
  have hnot := (mem_map_without.mp hx').2
  rw [DeltaRow.alive_id hwa] at hnot
  exact hnot (List.mem_map_of_mem hw)

lemma byId_effective (s : Root) (t : Typ) (i : ℤ) : byId i (effective s t) = curSpatial s t i := by
  have hbase : byId i (((s.base.spatial t).flatMap CellFiles.rows).filter fun r =>
      r.id ∉ (spatialWinners s.deltas t).map DeltaRow.id) =
        if i ∈ (spatialWinners s.deltas t).map DeltaRow.id then none
        else byId i ((s.base.spatial t).flatMap CellFiles.rows) := lookup_without _
  have halive := byId_aliveRows (distinct_spatialWinners s.deltas t) i
  rw [deltaById_spatialWinners] at halive
  unfold effective
  rw [curSpatial, read_apply, changes]
  simp only [byId] at hbase halive ⊢
  rw [lookup_append, hbase, halive]
  rcases hw : winner s.deltas t i with _ | w
  · have hnot : i ∉ (spatialWinners s.deltas t).map DeltaRow.id := by
      rw [mem_winners_iff, not_not]
      exact winner_eq_none.mp hw
    simp [hnot]
  · have hmem : i ∈ (spatialWinners s.deltas t).map DeltaRow.id := by
      rw [mem_winners_iff, Ne, ← winner_eq_none, hw]
      simp
    simp [hmem]

/-- An effective row lies in a cell that is looked at. -/
lemma cell_of_effective (hm : TiersRemember s) (ha : BaseAgrees s.base) {r : Row (SpatialCols t)}
    (hr : r ∈ effective s t) : ∃ c ∈ ((s.base.spatial t).map CellFiles.cell ++
      touchedCells s.deltas t).dedup, r.cell = some c := by
  simp only [List.mem_dedup, List.mem_append]
  rcases List.mem_append.mp hr with h | h
  · obtain ⟨e, he, hre⟩ := List.mem_flatMap.mp (List.mem_filter.mp h).1
    exact ⟨e.cell, Or.inl (List.mem_map_of_mem he), (ha t).own e he r hre⟩
  · obtain ⟨w, hw, hwa⟩ := List.mem_filterMap.mp h
    have hwin := (distinct_spatialWinners s.deltas t).lookup_of_mem hw
    have hdel := deltaById_spatialWinners s.deltas t w.id
    simp only [deltaById] at hdel
    rw [hdel, ← head_tierRows] at hwin
    have hmem : w ∈ tierRows s.deltas t w.id := List.mem_of_mem_head? hwin
    have hd : w.deleted = false := by
      by_contra hd
      simp [DeltaRow.alive, hd] at hwa
    obtain ⟨c, hc⟩ := Option.isSome_iff_exists.mp ((hm t w.id).placed w hmem hd).2
    refine ⟨c, Or.inr ?_, by rw [DeltaRow.alive_cell hwa, hc]⟩
    simp only [touchedCells, List.mem_dedup, List.mem_append, List.mem_filterMap]
    exact Or.inl (Or.inl ⟨w, hw, hc⟩)

/-- The parts of the new generation have the current rows. -/
lemma byId_compact (hg : Good s.deltas) (t : Typ) (i : ℤ) :
    byId i ((compact s).byid t).rows = cur s t i := by
  rw [compact, byId_compactByidTable, deltaById_rawView hg, cur, current_eq, Option.map_map]
  rfl

/-- **Compaction preserves the current rows where every base cell is covered.** -/
theorem preserves_of_covered (hg : Good s.deltas) (hm : TiersRemember s) (ha : BaseAgrees s.base)
    (hcov : ∀ t, Covered s t) : Preserves s (compact s) := by
  have huniq : ∀ t, Distinct Row.id (((compact s).spatial t).flatMap CellFiles.rows) := by
    intro t
    rw [compact, compactSpatial_flatMap]
    refine distinct_flatMap (List.nodup_dedup _) (fun c _ => distinct_newRows ha c) ?_
    intro c _ c' _ x hx y hy he
    obtain ⟨hxc, hxe⟩ := (mem_newRows ha (hcov t)).mp hx
    obtain ⟨hyc, hye⟩ := (mem_newRows ha (hcov t)).mp hy
    rw [← (distinct_effective ha).eq_of_key hxe hye he, hxc] at hyc
    simpa using hyc
  have hmem : ∀ t r, r ∈ ((compact s).spatial t).flatMap CellFiles.rows ↔ r ∈ effective s t := by
    intro t r
    rw [compact, compactSpatial_flatMap, List.mem_flatMap]
    constructor
    · rintro ⟨c, -, hr⟩
      exact ((mem_newRows ha (hcov t)).mp hr).2
    · intro hr
      obtain ⟨c, hc, hrc⟩ := cell_of_effective hm ha hr
      exact ⟨c, hc, (mem_newRows ha (hcov t)).mpr ⟨hrc, hr⟩⟩
  have hspatial : ∀ t i, byId i (((compact s).spatial t).flatMap CellFiles.rows) =
      curSpatial s t i := by
    intro t i
    rw [← byId_effective]
    exact (huniq t).lookup_congr (distinct_effective ha) (hmem t)
  refine ⟨byId_compact hg, hspatial, fun t => ⟨distinct_cells_compactSpatial, huniq t, ?_,
    fun i => ?_⟩⟩
  · intro e he r hr
    have hnew := cell_of_mem_compactSpatial (fun c e h => key_of_lookup h) he r hr
    exact ((mem_newRows ha (hcov t)).mp hnew).1
  · rw [byId_compact hg, hspatial, cur_eq_curSpatial ha]

end Rewrite

end OsmParquet.Compact
