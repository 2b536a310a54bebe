import OsmParquet.PrevCells

/-!
Reading the rows of some cells: the base files of the cells with the tiers over them.

The engine takes from every tier the rows in the wanted cells, keeps the newest of each
element, and shadows the base rows of these elements and of the elements a tombstone names.
A tier row that was moved out of a wanted cell by a newer tier is not among the wanted ones,
so nothing shadows the older row that still has the element in the cell. Reads of cells and
reads by id agree exactly when the tiers have no such row.
-/

namespace OsmParquet.SpatialReads

open OsmParquet.KeyedList OsmParquet.Layers OsmParquet.Rows OsmParquet.Tiers OsmParquet.TierSteps
open OsmParquet.ByidReads OsmParquet.Updater OsmParquet.Resolves OsmParquet.PrevCells

/-! ### The read -/

/-- The rows of the base files of `cells`. -/
def filesOf {α : Type} (table : List (CellFiles α)) (cells : List Cell) : List (Row α) :=
  cells.flatMap fun c => ((lookup CellFiles.cell c table).map CellFiles.rows).getD []

/-- Whether a cell column is one of `cells`. -/
def inCells (cells : List Cell) (c : Option Cell) : Bool := c.any fun c => decide (c ∈ cells)

/-- The delta candidates of some cells and the ids they shadow. -/
structure DeltaLayer (t : Typ) where
  cand : List (DeltaRow (SpatialCols t))
  shadow : List ℤ

def spatialDeltaLayer (d : Deltas) (t : Typ) (cells : List Cell) : Option (DeltaLayer t) :=
  if (deltaTiers d).isEmpty || cells.isEmpty then none
  else
    let cand := firstPerKey DeltaRow.id
      ((deltaTiers d).flatMap fun m => (m.files t).spatial.filter fun r => inCells cells r.cell)
    let tomb := (deltaTiers d).flatMap fun m =>
      ((tombstones m t).filter fun r => inCells cells r.prevCell).map DeltaRow.id
    some ⟨cand, (cand.map DeltaRow.id ++ tomb).dedup⟩

/-- The current rows in `cells` that pass `whereSql`. -/
def currentRows {t : Typ} (d : Deltas) (cells : List Cell) (baseRows : List (Row (SpatialCols t)))
    (whereSql : Row (SpatialCols t) → Bool) : List (Row (SpatialCols t)) :=
  match spatialDeltaLayer d t cells with
  | none => baseRows.filter whereSql
  | some layer =>
    (baseRows.filter fun r => whereSql r && decide (r.id ∉ layer.shadow)) ++
      (aliveRows layer.cand).filter whereSql

/-- The whole rows of `cells`. -/
def readCells (s : Root) (t : Typ) (cells : List Cell) : List (Row (SpatialCols t)) :=
  currentRows s.deltas cells (filesOf (s.base.spatial t) cells) fun _ => true

/-- All current rows by id. -/
def readByid (s : Root) (t : Typ) : List (Row (ByidCols t)) :=
  byidCurrentRows s.deltas (s.base.byid t).rows (fun _ => true) fun _ => true

/-- The two copies of a base agree: each element is stored once, in the file of its own cell,
and its by-id row has the columns of its spatial row. -/
structure Agrees {t : Typ} (byid : ByidTable (ByidCols t))
    (spatial : List (CellFiles (SpatialCols t))) : Prop where
  cells : Distinct CellFiles.cell spatial
  once : Distinct Row.id (spatial.flatMap CellFiles.rows)
  own : ∀ e ∈ spatial, ∀ r ∈ e.rows, r.cell = some e.cell
  same : ∀ i, byId i byid.rows = (byId i (spatial.flatMap CellFiles.rows)).map (Row.map byidCols)

def BaseAgrees (b : Base) : Prop := ∀ t, Agrees (b.byid t) (b.spatial t)

/-- The read of `cells` gives exactly the elements whose current row lies in them, each once
and with the columns of that row. -/
structure Coherent (s : Root) (t : Typ) (cells : List Cell) : Prop where
  once : Distinct Row.id (readCells s t cells)
  same : ∀ i, byId i ((readCells s t cells).map (Row.map byidCols)) =
    (byId i (readByid s t)).filter fun r => inCells cells r.cell

/-- A row of an older tier that still gives an element a cell, while every newer row of the
element is elsewhere. -/
def Exposed {α : Type} (rows : List (DeltaRow α)) : Prop :=
  ∃ newer r older, rows = newer ++ r :: older ∧ newer ≠ [] ∧ r.deleted = false ∧
    ∀ r' ∈ newer, r'.cell ≠ r.cell

/-- The current row of an element in the columns of the spatial schema. -/
def curSpatial (s : Root) (t : Typ) : ℤ → Option (Row (SpatialCols t)) :=
  read (changes s.deltas t) fun i => byId i ((s.base.spatial t).flatMap CellFiles.rows)

/-- Over a base whose copies agree the current rows agree too. -/
lemma cur_eq_curSpatial {s : Root} {t : Typ} (ha : BaseAgrees s.base) (i : ℤ) :
    cur s t i = (curSpatial s t i).map (Row.map byidCols) := by
  rw [cur, current_eq, curSpatial, read_apply, changes, (ha t).same]
  rcases winner s.deltas t i with _ | w
  · rfl
  · simp [DeltaRow.alive_map]

lemma id_of_curSpatial {s : Root} {t : Typ} {i : ℤ} {r : Row (SpatialCols t)}
    (h : curSpatial s t i = some r) : r.id = i := by
  rw [curSpatial, read_apply, changes] at h
  rcases hw : winner s.deltas t i with _ | w
  · rw [hw] at h
    exact key_of_lookup h
  · rw [hw] at h
    have hslot : ∀ {m : Option TierMeta}, slot m t i = some w → w.id = i := by
      intro m hm
      obtain ⟨x, -, hx⟩ := Option.bind_eq_some_iff.mp hm
      exact key_of_lookup hx
    rw [DeltaRow.alive_id h]
    rcases Option.or_eq_some_iff.mp hw with h1 | ⟨-, h1⟩
    · exact hslot h1
    · rcases Option.or_eq_some_iff.mp h1 with h2 | ⟨-, h2⟩
      · exact hslot h2
      · exact hslot h2

/-! ### The base files -/

section Base

variable {t : Typ} {byid : ByidTable (ByidCols t)} {spatial : List (CellFiles (SpatialCols t))}

lemma mem_filesOf (ha : Agrees byid spatial) {cells : List Cell} {r : Row (SpatialCols t)} :
    r ∈ filesOf spatial cells ↔ r ∈ spatial.flatMap CellFiles.rows ∧ inCells cells r.cell := by
  simp only [filesOf, List.mem_flatMap]
  constructor
  · rintro ⟨c, hc, hr⟩
    rcases he : lookup CellFiles.cell c spatial with _ | e
    · simp [he] at hr
    · rw [he, Option.map_some, Option.getD_some] at hr
      have hmem := mem_of_lookup he
      have hcell : e.cell = c := key_of_lookup he
      refine ⟨⟨e, hmem, hr⟩, ?_⟩
      rw [ha.own e hmem r hr, hcell]
      simpa [inCells] using hc
  · rintro ⟨⟨e, he, hr⟩, hc⟩
    rw [ha.own e he r hr] at hc
    refine ⟨e.cell, by simpa [inCells] using hc, ?_⟩
    rw [ha.cells.lookup_of_mem he]
    exact hr

/-- A cell's file holds nothing of another cell. -/
lemma distinct_filesOf (ha : Agrees byid spatial) {cells : List Cell} (hc : cells.Nodup) :
    Distinct Row.id (filesOf spatial cells) := by
  induction cells with
  | nil => exact distinct_nil
  | cons c cells ih =>
    obtain ⟨hnot, hcs⟩ := List.nodup_cons.mp hc
    rw [filesOf, List.flatMap_cons, ← filesOf]
    have hall : ∀ {cs : List Cell} {r : Row (SpatialCols t)}, r ∈ filesOf spatial cs →
        lookup Row.id r.id (spatial.flatMap CellFiles.rows) = some r := fun hr =>
      ha.once.lookup_of_mem ((mem_filesOf ha).mp hr).1
    have hone : ∀ {r : Row (SpatialCols t)},
        r ∈ ((lookup CellFiles.cell c spatial).map CellFiles.rows).getD [] ↔
          r ∈ filesOf spatial [c] := by
      intro r; simp [filesOf]
    refine distinct_append ?_ (ih hcs) fun x hx hx' => ?_
    · rcases he : lookup CellFiles.cell c spatial with _ | e
      · exact distinct_nil
      · have hsub : e.rows.Sublist (spatial.flatMap CellFiles.rows) := by
          rw [List.flatMap_def]
          exact List.sublist_flatten_of_mem (List.mem_map_of_mem (mem_of_lookup he))
        exact ha.once.sublist hsub
    · obtain ⟨r, hr, rfl⟩ := List.mem_map.mp hx
      obtain ⟨r', hr', he⟩ := List.mem_map.mp hx'
      rw [hone] at hr'
      have h1 := hall hr
      have h2 := hall hr'
      rw [he, h1] at h2
      cases h2
      -- the row would lie in two different cells
      have hin := ((mem_filesOf ha).mp hr).2
      have hin' := ((mem_filesOf ha).mp hr').2
      rcases hrc : r.cell with _ | c'
      · rw [hrc] at hin; simp [inCells] at hin
      · rw [hrc] at hin hin'
        simp only [inCells, Option.any_some, decide_eq_true_eq, List.mem_singleton] at hin hin'
        exact hnot (hin' ▸ hin)

lemma byId_filesOf (ha : Agrees byid spatial) {cells : List Cell} (hc : cells.Nodup) (i : ℤ) :
    byId i (filesOf spatial cells) =
      (byId i (spatial.flatMap CellFiles.rows)).filter fun r => inCells cells r.cell := by
  ext r
  rw [(distinct_filesOf ha hc).lookup_eq_some, mem_filesOf ha, Option.filter_eq_some_iff,
    ha.once.lookup_eq_some]
  tauto

/-- The by-id rows of the base that lie in `cells` are those of its files. -/
lemma byId_filesOf_map (ha : Agrees byid spatial) {cells : List Cell} (hc : cells.Nodup) (i : ℤ) :
    (byId i (filesOf spatial cells)).map (Row.map byidCols) =
      (byId i byid.rows).filter fun r => inCells cells r.cell := by
  rw [byId_filesOf ha hc, ha.same]
  rcases byId i (spatial.flatMap CellFiles.rows) with _ | r
  · rfl
  · by_cases hr : inCells cells r.cell <;> simp [Option.filter, hr]

end Base

/-! ### The tiers -/

section Tiers

variable {d : Deltas} {t : Typ} {cells : List Cell}

/-- The candidate rows of a read. -/
def spatialCand (d : Deltas) (t : Typ) (cells : List Cell) : List (DeltaRow (SpatialCols t)) :=
  firstPerKey DeltaRow.id
    ((deltaTiers d).flatMap fun m => (m.files t).spatial.filter fun r => inCells cells r.cell)

/-- Of the rows of an element the candidate is the newest in the cells. -/
lemma deltaById_spatialCand (hg : Good d) (i : ℤ) : deltaById i (spatialCand d t cells) =
    (tierRows d t i).find? fun r => inCells cells r.cell := by
  have hslot : ∀ {m : Option TierMeta}, (∀ x, m = some x → MetaGood x) →
      (m.bind fun m => deltaById i ((m.files t).spatial.filter fun r => inCells cells r.cell)) =
        (slot m t i).toList.find? fun r => inCells cells r.cell := by
    intro m hm
    cases m with
    | none => rfl
    | some m =>
      have h := @Distinct.lookup_filter _ _ _ DeltaRow.id i _ ((hm m rfl).inStep t).spatial
        fun r => inCells cells r.cell
      rw [Option.bind_some, slot_some]
      simp only [deltaById] at h ⊢
      rw [h]
      rcases lookup DeltaRow.id i (m.files t).spatial with _ | r
      · rfl
      · by_cases hr : inCells cells r.cell <;> simp [Option.filter, hr]
  simp only [deltaById] at hslot ⊢
  rw [spatialCand, lookup_firstPerKey, lookup_deltaTiers, hslot hg.hour, hslot hg.day,
    hslot hg.week, tierRows, rowsOf, List.find?_append, List.find?_append]

/-- Whether a row of an element in the tiers is also in the tombstones file. -/
def isTombstone {α : Type} (r : DeltaRow α) : Bool :=
  r.prevCell.isSome && ((r.cell.isSome && r.prevCell != r.cell) || r.deleted)

/-- The ids the tombstones name for some cells. -/
def tombIds (d : Deltas) (t : Typ) (cells : List Cell) : List ℤ :=
  (deltaTiers d).flatMap fun m =>
    ((tombstones m t).filter fun r => inCells cells r.prevCell).map DeltaRow.id

lemma mem_tierRows_iff {i : ℤ} {r : DeltaRow (SpatialCols t)} :
    r ∈ tierRows d t i ↔ ∃ m ∈ deltaTiers d, deltaById i (m.files t).spatial = some r := by
  have hs : ∀ m : Option TierMeta, slot m t i = some r ↔
      ∃ x, m = some x ∧ deltaById i (x.files t).spatial = some r := by
    intro m; cases m <;> simp
  have hm : ∀ x, x ∈ deltaTiers d ↔ d.hour = some x ∨ d.day = some x ∨ d.week = some x := by
    intro x
    simp [deltaTiers, eq_comm]
  simp only [tierRows, mem_rowsOf, hs, hm]
  constructor
  · rintro (⟨x, h1, h2⟩ | ⟨x, h1, h2⟩ | ⟨x, h1, h2⟩)
    · exact ⟨x, Or.inl h1, h2⟩
    · exact ⟨x, Or.inr (Or.inl h1), h2⟩
    · exact ⟨x, Or.inr (Or.inr h1), h2⟩
  · rintro ⟨x, h1 | h1 | h1, h2⟩
    · exact Or.inl ⟨x, h1, h2⟩
    · exact Or.inr (Or.inl ⟨x, h1, h2⟩)
    · exact Or.inr (Or.inr ⟨x, h1, h2⟩)

lemma metaGood_of_mem (hg : Good d) {m : TierMeta} (hm : m ∈ deltaTiers d) : MetaGood m := by
  simp only [deltaTiers, List.mem_filterMap, id, List.mem_cons, List.not_mem_nil, or_false] at hm
  obtain ⟨x, rfl | rfl | rfl, hx⟩ := hm
  · exact hg.hour m hx
  · exact hg.day m hx
  · exact hg.week m hx

lemma mem_tombIds (hg : Good d) {i : ℤ} : i ∈ tombIds d t cells ↔
    ∃ r ∈ tierRows d t i, isTombstone r ∧ inCells cells r.prevCell := by
  simp only [tombIds, List.mem_flatMap, List.mem_map, List.mem_filter, tombstones, mem_tierRows_iff]
  constructor
  · rintro ⟨m, hm, rb, ⟨⟨hrb, h1⟩, h2⟩, rfl⟩
    have hin := (metaGood_of_mem hg hm).inStep t
    have hl := hin.byid.lookup_of_mem hrb
    have hsame := hin.same rb.id
    simp only [deltaById] at hsame
    rw [hl] at hsame
    obtain ⟨r, hr, rfl⟩ := Option.map_eq_some_iff.mp hsame.symm
    exact ⟨r, ⟨m, hm, hr⟩, h1, h2⟩
  · rintro ⟨r, ⟨m, hm, hr⟩, h1, h2⟩
    have hin := (metaGood_of_mem hg hm).inStep t
    have hsame := hin.same i
    rw [hr, Option.map_some] at hsame
    have hid : r.id = i := key_of_lookup hr
    exact ⟨m, hm, r.map byidCols, ⟨⟨mem_of_lookup hsame, h1⟩, h2⟩, hid⟩

/-- Without tiers or without cells there are no candidates. -/
lemma spatialCand_eq_nil (h : ((deltaTiers d).isEmpty || cells.isEmpty) = true) :
    spatialCand d t cells = [] := by
  rcases Bool.or_eq_true_iff.mp h with h | h
  · have h0 : deltaTiers d = [] := List.isEmpty_iff.mp h
    simp [spatialCand, h0, firstPerKey]
  · obtain rfl : cells = [] := List.isEmpty_iff.mp h
    have hin : ∀ c : Option Cell, inCells [] c = false := by intro c; cases c <;> rfl
    have hflat : (deltaTiers d).flatMap (fun m => (m.files t).spatial.filter fun r =>
        inCells [] r.cell) = [] := by
      simp [hin]
    rw [spatialCand, hflat]
    rfl

/-- With nothing to add the general form of the read is the plain one. -/
lemma currentRows_eq (baseRows : List (Row (SpatialCols t))) (hb : cells = [] → baseRows = []) :
    currentRows d cells baseRows (fun _ => true) =
      (baseRows.filter fun r => decide (r.id ∉ (spatialCand d t cells).map DeltaRow.id ∧
        r.id ∉ tombIds d t cells)) ++ aliveRows (spatialCand d t cells) := by
  unfold currentRows spatialDeltaLayer
  by_cases h : (deltaTiers d).isEmpty || cells.isEmpty
  · rw [if_pos h, spatialCand_eq_nil h]
    rcases Bool.or_eq_true_iff.mp h with h | h
    · have h0 : deltaTiers d = [] := List.isEmpty_iff.mp h
      simp [tombIds, h0, aliveRows]
    · obtain rfl : cells = [] := List.isEmpty_iff.mp h
      rw [hb rfl]
      rfl
  · rw [if_neg h]
    simp [spatialCand, tombIds, List.mem_dedup]

end Tiers

/-! ### Reads of cells against reads by id -/

section Coherence

variable {s : Root} {t : Typ} {cells : List Cell}

lemma readCells_eq (s : Root) (t : Typ) (cells : List Cell) : readCells s t cells =
    ((filesOf (s.base.spatial t) cells).filter fun r =>
      decide (r.id ∉ (spatialCand s.deltas t cells).map DeltaRow.id ∧
        r.id ∉ tombIds s.deltas t cells)) ++ aliveRows (spatialCand s.deltas t cells) :=
  currentRows_eq _ fun h => by rw [h]; rfl

lemma distinct_readCells (ha : BaseAgrees s.base) (hc : cells.Nodup) :
    Distinct Row.id (readCells s t cells) := by
  have hcu : Distinct DeltaRow.id (spatialCand s.deltas t cells) := distinct_firstPerKey
  rw [readCells_eq]
  refine distinct_append ((distinct_filesOf (ha t) hc).filter _) (distinct_aliveRows hcu)
    fun x hx hx' => ?_
  obtain ⟨a, ha', rfl⟩ := List.mem_map.mp hx
  obtain ⟨c, hcand, hca⟩ := List.mem_filterMap.mp ha'
  obtain ⟨r, hr, hre⟩ := List.mem_map.mp hx'
  have h2 := (List.mem_filter.mp hr).2
  simp only [decide_eq_true_eq] at h2
  refine h2.1 ?_
  rw [hre, DeltaRow.alive_id hca]
  exact List.mem_map_of_mem hcand

/-- What a read of cells finds, in the tiers or in the base. -/
lemma byId_readCells (hg : Good s.deltas) (i : ℤ) : byId i (readCells s t cells) =
    (if ((tierRows s.deltas t i).find? fun r => inCells cells r.cell).isSome ∨
        i ∈ tombIds s.deltas t cells then none
      else byId i (filesOf (s.base.spatial t) cells)).or
    (((tierRows s.deltas t i).find? fun r => inCells cells r.cell).bind DeltaRow.alive) := by
  have hcand := @deltaById_spatialCand s.deltas t cells hg i
  have hcu : Distinct DeltaRow.id (spatialCand s.deltas t cells) := distinct_firstPerKey
  have halive := byId_aliveRows hcu i
  have hbase := @lookup_filter_key _ _ _ Row.id i (filesOf (s.base.spatial t) cells)
    fun x => decide (x ∉ (spatialCand s.deltas t cells).map DeltaRow.id ∧
      x ∉ tombIds s.deltas t cells)
  have hmem : i ∈ (spatialCand s.deltas t cells).map DeltaRow.id ↔
      ((tierRows s.deltas t i).find? fun r => inCells cells r.cell).isSome := by
    rw [← lookup_isSome, ← hcand]
  rw [readCells_eq]
  simp only [byId] at halive hbase ⊢
  rw [lookup_append, hbase, halive, hcand]
  congr 1
  simp only [← hmem, decide_eq_true_eq, ← not_or, ite_not]

/-- The newest tier row in the cells decides. -/
lemma byId_readCells_some (hg : Good s.deltas) {i : ℤ} {r : DeltaRow (SpatialCols t)}
    (hf : (tierRows s.deltas t i).find? (fun r => inCells cells r.cell) = some r) :
    byId i (readCells s t cells) = r.alive := by
  rw [byId_readCells hg, hf]
  simp

/-- Without one the base does, unless a tombstone names one of the cells. -/
lemma byId_readCells_none (hg : Good s.deltas) {i : ℤ}
    (hf : (tierRows s.deltas t i).find? (fun r => inCells cells r.cell) = none) :
    byId i (readCells s t cells) = if i ∈ tombIds s.deltas t cells then none
      else byId i (filesOf (s.base.spatial t) cells) := by
  rw [byId_readCells hg, hf]
  simp

lemma byId_readByid (hg : Good s.deltas) (i : ℤ) : byId i (readByid s t) = cur s t i := by
  rw [readByid, byId_byidCurrentRows hg (distinct_rows _), if_pos rfl, cur, current_eq]
  cases ((winner s.deltas t i).map fun r => (r.map byidCols).alive).getD
    (byId i (s.base.byid t).rows) <;> simp [Option.filter]

/-- The current row of an element that has tier rows is that of the newest. -/
lemma cur_of_rows {i : ℤ} {r : DeltaRow (SpatialCols t)} {rest : List (DeltaRow (SpatialCols t))}
    (h : tierRows s.deltas t i = r :: rest) : cur s t i = r.alive.map (Row.map byidCols) := by
  have hw : winner s.deltas t i = some r := by rw [← head_tierRows, h]; rfl
  rw [cur, current_eq, hw, Option.map_some, Option.getD_some, DeltaRow.alive_map]

/-- The base row of an element that has tier rows is shadowed. -/
lemma base_shadowed (hg : Good s.deltas) (hm : TiersRemember s) (ha : BaseAgrees s.base)
    (hc : cells.Nodup) {i : ℤ} (hrows : tierRows s.deltas t i ≠ [])
    (hnone : (tierRows s.deltas t i).find? (fun r => inCells cells r.cell) = none)
    (hnt : i ∉ tombIds s.deltas t cells) : byId i (filesOf (s.base.spatial t) cells) = none := by
  have hl := List.getLast?_eq_some_getLast hrows
  set l := (tierRows s.deltas t i).getLast hrows
  have hmem : l ∈ tierRows s.deltas t i := List.getLast_mem hrows
  have hprev := (hm t i).oldest l hl
  rcases hb : byId i (filesOf (s.base.spatial t) cells) with _ | r
  · rfl
  exfalso
  have hmap := byId_filesOf_map (ha t) hc i
  rw [hb, Option.map_some] at hmap
  obtain ⟨hbase, hin⟩ := Option.filter_eq_some_iff.mp hmap.symm
  have hcell : l.prevCell = r.cell := by rw [hprev, baseCell, hbase]; rfl
  rw [Row.map_cell] at hin
  -- its oldest tier row is in none of the cells, so it is a tombstone for the base cell
  have hl2 : inCells cells l.cell = false := by simpa using List.find?_eq_none.mp hnone l hmem
  refine hnt ((mem_tombIds hg).mpr ⟨l, hmem, ?_, by rw [hcell]; exact hin⟩)
  have hne : l.prevCell ≠ l.cell := by
    intro e; rw [hcell] at e; rw [← e, hin] at hl2; cases hl2
  have hsome : l.prevCell.isSome := by
    rw [hcell]
    rcases hrc : r.cell with _ | c
    · rw [hrc] at hin; simp [inCells] at hin
    · rfl
  rcases hd : l.deleted with _ | _
  · have hcs := ((hm t i).placed l hmem hd).2
    simp [isTombstone, hsome, hcs, hne]
  · simp [isTombstone, hsome, hd]

/-- In the columns of the spatial schema, too, the newest tier row decides. -/
lemma curSpatial_of_rows {i : ℤ} {r : DeltaRow (SpatialCols t)}
    {rest : List (DeltaRow (SpatialCols t))} (h : tierRows s.deltas t i = r :: rest) :
    curSpatial s t i = r.alive := by
  have hw : winner s.deltas t i = some r := by rw [← head_tierRows, h]; rfl
  rw [curSpatial, read_apply, changes, hw]
  rfl

lemma curSpatial_of_no_rows {i : ℤ} (h : tierRows s.deltas t i = []) :
    curSpatial s t i = byId i ((s.base.spatial t).flatMap CellFiles.rows) := by
  have hw : winner s.deltas t i = none := winner_eq_none.mpr h
  rw [curSpatial, read_apply, changes, hw]
  rfl

/-- A row that lies in none of the cells is not among the current rows of the cells. -/
lemma filter_alive_eq_none {r : DeltaRow (SpatialCols t)} (h : inCells cells r.cell = false) :
    r.alive.filter (fun r => inCells cells r.cell) = none := by
  rw [Option.filter_eq_none_iff]
  intro x hx
  rw [DeltaRow.alive_cell hx, h]
  exact Bool.false_ne_true

/-- **Where no tier row is exposed a read of cells gives the current rows that lie in them.** -/
theorem byId_readCells_of_not_exposed (hg : Good s.deltas) (hm : TiersRemember s)
    (ha : BaseAgrees s.base) (hx : ∀ i, ¬ Exposed (tierRows s.deltas t i))
    (hc : cells.Nodup) (i : ℤ) :
    byId i (readCells s t cells) = (curSpatial s t i).filter fun r => inCells cells r.cell := by
  rcases hf : (tierRows s.deltas t i).find? fun r => inCells cells r.cell with _ | r
  · rw [byId_readCells_none hg hf]
    rcases hrows : tierRows s.deltas t i with _ | ⟨w, rest⟩
    · have hnt : i ∉ tombIds s.deltas t cells := by
        rw [mem_tombIds hg, hrows]; simp
      rw [if_neg hnt, byId_filesOf (ha t) hc, curSpatial_of_no_rows hrows]
    · have hw : inCells cells w.cell = false := by
        rw [hrows] at hf
        simpa using List.find?_eq_none.mp hf w (by simp)
      rw [curSpatial_of_rows hrows, filter_alive_eq_none hw]
      by_cases hnt : i ∈ tombIds s.deltas t cells
      · rw [if_pos hnt]
      · rw [if_neg hnt, base_shadowed hg hm ha hc (by simp [hrows]) hf hnt]
  · rw [byId_readCells_some hg hf]
    obtain ⟨hin, newer, older, hrows, hnew⟩ := List.find?_eq_some_iff_append.mp hf
    rcases hne : newer with _ | ⟨w, rest⟩
    · rw [hne, List.nil_append] at hrows
      rw [curSpatial_of_rows hrows]
      rcases hal : r.alive with _ | x
      · rfl
      · have hxc : inCells cells x.cell := by rw [DeltaRow.alive_cell hal]; exact hin
        simp [hxc, Option.filter]
    · have hw : inCells cells w.cell = false := by simpa using hnew w (by simp [hne])
      -- only a row that deletes may stay behind in a cell the element has left
      have hdel : r.alive = none := by
        rcases hd : r.deleted with _ | _
        · exfalso
          refine hx i ⟨newer, r, older, hrows, by simp [hne], hd, fun r' hr' e => ?_⟩
          have h1 := hnew r' hr'
          rw [e, hin] at h1
          simp at h1
        · simp [DeltaRow.alive, hd]
      rw [hne, List.cons_append] at hrows
      rw [curSpatial_of_rows hrows, filter_alive_eq_none hw, hdel]

/-- A current row is read in its own cell. -/
lemma byId_readCells_own (hg : Good s.deltas) (ha : BaseAgrees s.base) (hc : cells.Nodup) {i : ℤ}
    {r : Row (SpatialCols t)} (hr : curSpatial s t i = some r) (hin : inCells cells r.cell) :
    byId i (readCells s t cells) = some r := by
  rcases hrows : tierRows s.deltas t i with _ | ⟨w, rest⟩
  · have hf : (tierRows s.deltas t i).find? (fun r => inCells cells r.cell) =
        none := by rw [hrows]; rfl
    have hnt : i ∉ tombIds s.deltas t cells := by
      rw [mem_tombIds hg, hrows]; simp
    rw [curSpatial_of_no_rows hrows] at hr
    rw [byId_readCells_none hg hf, if_neg hnt, byId_filesOf (ha t) hc, hr]
    simp [Option.filter, hin]
  · rw [curSpatial_of_rows hrows] at hr
    have hw : inCells cells w.cell := by rw [← DeltaRow.alive_cell hr]; exact hin
    have hf : (tierRows s.deltas t i).find? (fun r => inCells cells r.cell) = some w := by
      rw [hrows, List.find?_cons, hw]
    rw [byId_readCells_some hg hf, hr]

/-- An element without a current row in the cells is read only by what an older tier says of it. -/
lemma byId_readCells_away (hg : Good s.deltas) (hm : TiersRemember s) (ha : BaseAgrees s.base)
    (hc : cells.Nodup) {i : ℤ} (hout : ∀ r, curSpatial s t i = some r → ¬ inCells cells r.cell) :
    byId i (readCells s t cells) =
      ((tierRows s.deltas t i).find? fun r => inCells cells r.cell).bind DeltaRow.alive := by
  rcases hf : (tierRows s.deltas t i).find? fun r => inCells cells r.cell with _ | d
  · rw [byId_readCells_none hg hf, hf, Option.bind_none]
    by_cases hnt : i ∈ tombIds s.deltas t cells
    · rw [if_pos hnt]
    rw [if_neg hnt]
    by_cases hrows : tierRows s.deltas t i = []
    · rw [byId_filesOf (ha t) hc, ← curSpatial_of_no_rows hrows, Option.filter_eq_none_iff]
      exact hout
    · exact base_shadowed hg hm ha hc hrows hf hnt
  · rw [byId_readCells_some hg hf, hf, Option.bind_some]

/-- A row that a read of cells gives although the element has no current row there: an older tier
has it. -/
def StaleRow (s : Root) (t : Typ) (cells : List Cell) (i : ℤ) (r : Row (SpatialCols t)) : Prop :=
  (∀ x, curSpatial s t i = some x → ¬ inCells cells x.cell) ∧
    ((tierRows s.deltas t i).find? fun d => inCells cells d.cell).bind DeltaRow.alive = some r

/-- **What a read of cells gives of an element**: its current row if that is in the cells, and else
what an older tier has there. -/
lemma byId_readCells_iff (hg : Good s.deltas) (hm : TiersRemember s) (ha : BaseAgrees s.base)
    (hc : cells.Nodup) {i : ℤ} {r : Row (SpatialCols t)} : byId i (readCells s t cells) = some r ↔
      curSpatial s t i = some r ∧ inCells cells r.cell ∨ StaleRow s t cells i r := by
  by_cases h : ∃ x, curSpatial s t i = some x ∧ inCells cells x.cell
  · obtain ⟨x, hx, hin⟩ := h
    rw [byId_readCells_own hg ha hc hx hin, hx]
    constructor
    · rintro ⟨⟩
      exact .inl ⟨rfl, hin⟩
    · rintro (⟨h, -⟩ | ⟨hout, -⟩)
      · exact h
      · exact absurd hin (hout x hx)
  · have hout : ∀ x, curSpatial s t i = some x → ¬ inCells cells x.cell :=
      fun x hx hin => h ⟨x, hx, hin⟩
    rw [byId_readCells_away hg hm ha hc hout]
    constructor
    · exact fun hr => .inr ⟨hout, hr⟩
    · rintro (⟨hr, hin⟩ | ⟨-, hr⟩)
      · exact absurd hin (hout r hr)
      · exact hr

lemma not_staleRow (hg : Good s.deltas) (hm : TiersRemember s) (ha : BaseAgrees s.base)
    (hx : ∀ i, ¬ Exposed (tierRows s.deltas t i)) (hc : cells.Nodup) {i : ℤ}
    {r : Row (SpatialCols t)} : ¬ StaleRow s t cells i r := by
  intro h
  have hread := (byId_readCells_iff hg hm ha hc).mpr (.inr h)
  rw [byId_readCells_of_not_exposed hg hm ha hx hc] at hread
  obtain ⟨hr, hin⟩ := Option.filter_eq_some_iff.mp hread
  exact h.1 r hr hin

lemma StaleRow.id_eq {i : ℤ} {r : Row (SpatialCols t)} (h : StaleRow s t cells i r) : r.id = i := by
  obtain ⟨d, hd, halive⟩ := Option.bind_eq_some_iff.mp h.2
  obtain ⟨m, -, hm⟩ := mem_tierRows_iff.mp (List.mem_of_find?_eq_some hd)
  have hid : d.id = i := key_of_lookup hm
  rw [DeltaRow.alive_id halive, hid]

lemma not_staleRow_nil {i : ℤ} {r : Row (SpatialCols t)} : ¬ StaleRow s t [] i r := by
  intro h
  obtain ⟨d, hd, -⟩ := Option.bind_eq_some_iff.mp h.2
  have hin := List.find?_some hd
  cases hcell : d.cell <;> simp [hcell, inCells] at hin

/-- **Reads of cells are coherent where no tier row is exposed.** -/
theorem coherent_of_not_exposed (hg : Good s.deltas) (hm : TiersRemember s)
    (ha : BaseAgrees s.base) (hx : ∀ i, ¬ Exposed (tierRows s.deltas t i)) (hc : cells.Nodup) :
    Coherent s t cells := by
  refine ⟨distinct_readCells ha hc, fun i => ?_⟩
  have hmap : byId i ((readCells s t cells).map (Row.map byidCols)) =
      (byId i (readCells s t cells)).map (Row.map byidCols) := lookup_map fun _ => rfl
  rw [hmap, byId_readByid hg, byId_readCells_of_not_exposed hg hm ha hx hc, cur_eq_curSpatial ha]
  rcases curSpatial s t i with _ | r
  · rfl
  · by_cases hr : inCells cells r.cell <;> simp [Option.filter, hr]

/-- **An exposed tier row is read in the cell it was moved out of.** -/
theorem not_exposed_of_coherent (hg : Good s.deltas) (hm : TiersRemember s)
    (hcoh : ∀ cells : List Cell, cells.Nodup → Coherent s t cells) (i : ℤ) :
    ¬ Exposed (tierRows s.deltas t i) := by
  rintro ⟨newer, r, older, hrows, hne, hd, hdiff⟩
  have hmem : r ∈ tierRows s.deltas t i := by rw [hrows]; simp
  obtain ⟨hcols, hcell⟩ := (hm t i).placed r hmem hd
  obtain ⟨c, hc⟩ := Option.isSome_iff_exists.mp hcell
  obtain ⟨cols, hcols⟩ := Option.isSome_iff_exists.mp hcols
  have hnd : [c].Nodup := by simp
  have hin : inCells [c] r.cell := by simp [inCells, hc]
  have hfind : (tierRows s.deltas t i).find? (fun r => inCells [c] r.cell) = some r := by
    rw [List.find?_eq_some_iff_append]
    refine ⟨hin, newer, older, hrows, fun r' hr' => ?_⟩
    have hne' := hdiff r' hr'
    rw [hc] at hne'
    rcases hrc : r'.cell with _ | c'
    · rfl
    · rw [hrc] at hne'
      simpa [inCells] using fun e : c' = c => hne' (by rw [e])
  have hread := byId_readCells_some hg hfind
  have hal : r.alive = some ⟨r.id, r.cell, cols⟩ := by simp [DeltaRow.alive, hd, hcols]
  have hsame := (hcoh [c] hnd).same i
  have hmap : byId i ((readCells s t [c]).map (Row.map byidCols)) =
      (byId i (readCells s t [c])).map (Row.map byidCols) := lookup_map fun _ => rfl
  rw [hmap, hread, hal, byId_readByid hg, Option.map_some] at hsame
  obtain ⟨hcur, hcin⟩ := Option.filter_eq_some_iff.mp hsame.symm
  obtain ⟨w, rest, hw⟩ := List.exists_cons_of_ne_nil hne
  rw [hw, List.cons_append] at hrows
  rw [cur_of_rows hrows] at hcur
  obtain ⟨x, hx, hxe⟩ := Option.map_eq_some_iff.mp hcur
  have hxc : x.cell = r.cell := by
    have := congrArg Row.cell hxe
    simpa using this
  refine hdiff w (by simp [hw]) ?_
  rw [← hxc, DeltaRow.alive_cell hx]

end Coherence

lemma tierRows_fresh (b : Base) (t : Typ) (i : ℤ) : tierRows (fresh b).deltas t i = [] := rfl

lemma not_exposed_fresh (b : Base) (t : Typ) (i : ℤ) :
    ¬ Exposed (tierRows (fresh b).deltas t i) := by
  rw [tierRows_fresh]
  simp [Exposed]

lemma baseAgrees_runs {b : Base} (ha : BaseAgrees b) (fs : List Fetched) :
    BaseAgrees (runs (fresh b) fs).base := by
  rw [base_runs]
  exact ha

/-- **When reads of cells agree with reads by id**: along every sequence of runs over a base
whose two copies agree, exactly while no tier has a row in the open that a newer tier moved
elsewhere. -/
theorem coherent_iff_not_exposed (b : Base) (ha : BaseAgrees b) (fs : List Fetched) (t : Typ) :
    (∀ cells : List Cell, cells.Nodup → Coherent (runs (fresh b) fs) t cells) ↔
      ∀ i, ¬ Exposed (tierRows (runs (fresh b) fs).deltas t i) := by
  have hg := good_runs (good_fresh b) fs
  have hm := tiersRemember_runs b fs
  have ha' := baseAgrees_runs ha fs
  constructor
  · intro h i
    exact not_exposed_of_coherent hg hm h i
  · intro h cells hc
    exact coherent_of_not_exposed hg hm ha' h hc

/-! ### A node that moves twice -/

def nodeRow : Row (SpatialCols .node) :=
  ⟨1, some [0], ⟨some ⟨450000000, -900000000⟩, ⟨none, [], 1, 1, none, none, ""⟩, 0⟩⟩

/-- A dataset over the four quadrants of the world with one node, in the north-western one. -/
def oneNode : Base where
  leafCells := [[0], [1], [2], [3]]
  ancestorDepths := [0, 3, 6, 9, 12]
  maxDepth := 13
  extent := ⟨-900000000, -1800000000, 900000000, 1800000000⟩
  promotedKeys := []
  byid
    | .node => ⟨[⟨1, 1, [nodeRow.map byidCols], by simp, by simp, by simp [nodeRow]⟩], by simp⟩
    | .way => ⟨[], by simp⟩
    | .relation => ⟨[], by simp⟩
  spatial
    | .node => [⟨[0], [[nodeRow]]⟩]
    | .way => []
    | .relation => []
  nodeWay := []
  member := []

/-- A diff with a new version of the node. -/
def moveNode (seq version : ℤ) (p : Point) (timestamp : ℤ) : Fetched where
  diffs := [⟨seq, fun
    | .node => [⟨1, false, version, none, 1, none, "", none, some p, seq⟩]
    | .way => []
    | .relation => []⟩]
  timestamp := some timestamp

/-- The two copies of a single row. -/
lemma agrees_single {t : Typ} {r : Row (SpatialCols t)} {c : Cell} {byid : ByidTable (ByidCols t)}
    (hrows : byid.rows = [r.map byidCols]) (hc : r.cell = some c) : Agrees byid [⟨c, [[r]]⟩] := by
  refine ⟨by simp, by simp [CellFiles.rows], by simp [CellFiles.rows, hc], fun i => ?_⟩
  rw [hrows]
  simp only [CellFiles.rows, List.flatMap_cons, List.flatMap_nil, List.append_nil,
    List.flatten_cons, List.flatten_nil, byId, lookup_cons, lookup_nil, Row.map_id]
  by_cases h : r.id = i <;> simp [h]

lemma baseAgrees_oneNode : BaseAgrees oneNode := by
  intro t
  cases t with
  | node => exact agrees_single (r := nodeRow) rfl rfl
  | way => exact ⟨by simp [oneNode], by simp [oneNode], by simp [oneNode], fun i => rfl⟩
  | relation => exact ⟨by simp [oneNode], by simp [oneNode], by simp [oneNode], fun i => rfl⟩

/-- With rows in one tier only nothing can be exposed. -/
lemma not_exposed_of_length_le {α : Type} {rows : List (DeltaRow α)} (h : rows.length ≤ 1) :
    ¬ Exposed rows := by
  rintro ⟨newer, r, older, rfl, hne, -⟩
  have := List.length_pos_iff.mpr hne
  simp only [List.length_append, List.length_cons] at h
  omega

/-- After one move the reads agree. -/
theorem coherent_after_one_move : BaseAgrees oneNode ∧ ∀ cells : List Cell, cells.Nodup →
    Coherent (runs (fresh oneNode) [moveNode 1 2 ⟨450000000, 900000000⟩ 0]) .node cells := by
  refine ⟨baseAgrees_oneNode, (coherent_iff_not_exposed oneNode baseAgrees_oneNode _ .node).mpr ?_⟩
  intro i
  refine not_exposed_of_length_le ?_
  have hday : (runs (fresh oneNode) [moveNode 1 2 ⟨450000000, 900000000⟩ 0]).deltas.day = none :=
    rfl
  have hweek : (runs (fresh oneNode) [moveNode 1 2 ⟨450000000, 900000000⟩ 0]).deltas.week = none :=
    rfl
  rw [tierRows, hday, hweek, rowsOf]
  cases slot (runs (fresh oneNode) [moveNode 1 2 ⟨450000000, 900000000⟩ 0]).deltas.hour .node i <;>
    simp

/-- After a second move in the next hour the node is still read in the cell between. -/
theorem incoherent_after_two_moves : BaseAgrees oneNode ∧
    ¬ Coherent (runs (fresh oneNode) [moveNode 1 2 ⟨450000000, 900000000⟩ 0,
      moveNode 2 3 ⟨-450000000, -900000000⟩ 3600]) .node [[1]] := by
  refine ⟨baseAgrees_oneNode, fun h => ?_⟩
  have h1 := h.same 1
  revert h1
  decide

end OsmParquet.SpatialReads
