import OsmParquet.EndOfTime
import OsmParquet.Findable
import OsmParquet.HistoryBuild

/-!
Snapshots by cell beside snapshots by id.

A query with a box at a time reads the history of the cells that `history_cells_for_bbox` names. An
element that has left a cell leaves a move tombstone there, and a deletion stays in the last cell,
so the read finds an element exactly if its state at the time is in one of the cells. These are
cells of the base history only. What the updater has placed in a cell that the base history does
not have is in no such list, though `cells_for_bbox` has the cells of the delta tiers in its own.
-/

namespace OsmParquet.SpatialSnapshots

open OsmParquet.KeyedList OsmParquet.Rows OsmParquet.Tiers OsmParquet.TierSteps
open OsmParquet.ByidReads OsmParquet.Cells OsmParquet.Updater OsmParquet.Resolves
open OsmParquet.PrevCells OsmParquet.SpatialReads OsmParquet.RunSteps OsmParquet.Batching
open OsmParquet.CellTree OsmParquet.Findable OsmParquet.HistoryTiers OsmParquet.Timeline
open OsmParquet.SplitCopies OsmParquet.Snapshots OsmParquet.HistoryBatch OsmParquet.Traces
open OsmParquet.Datasets OsmParquet.EndOfTime OsmParquet.HistoryBuild

/-! ### The read of a box -/

/-- What the manifest says of the cells of the base history. -/
def historyCatalog (s : Root) (h : HistoryRoot) : Catalog where
  leafCells := s.base.leafCells
  ancestorDepths := s.base.ancestorDepths
  tableCells t := (h.spatial t).cells.map HistoryCell.cell
  deltaPresentCells _ := []

def historyCellsForBbox (s : Root) (h : HistoryRoot) (t : Typ) (bbox : Option Box) : List Cell :=
  cellsForBbox (historyCatalog s h) t bbox

/-- The point or the bounding box of an element. -/
def colsBox : {t : Typ} → ByidCols t → Option BBox
  | .node, c => c.coord.map BBox.ofPoint
  | .way, c => c.bbox
  | .relation, c => c.bbox

def stateBox {t : Typ} (r : HistoryRow (ByidCols t)) : Option BBox := r.cols.bind colsBox

/-- The element intersects the box of the query. -/
def Meets (q : Box) {t : Typ} (r : HistoryRow (ByidCols t)) : Prop :=
  ∃ b ∈ stateBox r, bboxIntersects q (boxOf b) = true

/-- At all times and for every box, the elements that the snapshot read over the cells of the box
may return and that intersect the box are those whose by-id state may be visible and intersects
the box, and they are returned in that state. -/
def SameElements (s : Root) (h : HistoryRoot) : Prop :=
  ∀ typ t q, Box.Proper q → ∀ r : HistoryRow (ByidCols typ),
    (∃ z, StateAt (spatialCandidates h typ (historyCellsForBbox s h typ (some q)) t r.id) z ∧
        z.map byidCols = r) ∧ r.visible = true ∧ Meets q r ↔
      StateAt (byidCandidates h typ t r.id) r ∧ r.visible = true ∧ Meets q r

/-! ### When the runs are orderly -/

/-- The base history has the cell, and every position of the box is in a leaf for which the cell
is read. -/
structure Reached (cat : Catalog) (t : Typ) (b : BBox) (c : Cell) : Prop where
  listed : c ∈ cat.tableCells t
  proper : Box.Proper (boxOf b)
  leaf : ∀ lat lon, (boxOf b).Holds lat lon →
    ∃ leaf ∈ cat.leafCells, c ∈ above cat t leaf ∧ (cellBBox leaf).Holds lat lon

/-- The run has at most one version of an element and is timely; a state that leaves a cell starts
after all that are stored of its element; and every visible state is reached from its box. -/
structure Orderly (s : Root) (h : HistoryRoot) (f : Fetched) : Prop where
  single : ∀ t, Distinct Change.id (allChanges f.diffs t)
  timely : Timely s h f
  moves : ∀ t, ∀ x ∈ buildHistoryBatch s h f t, x.row.visible = true → x.prevCell.isSome →
    x.prevCell ≠ x.row.cell → ∀ r ∈ byidRows h t, r.id = x.row.id →
      ∀ y ∈ r.validFrom, ∀ z ∈ x.row.validFrom, y < z
  reached : ∀ t, ∀ x ∈ buildHistoryBatch s h f t, x.row.visible = true →
    ∀ b ∈ stateBox (x.row.map byidCols), ∀ c ∈ x.row.cell, Reached (historyCatalog s h) t b c

/-- What an orderly run keeps wherever its states are. -/
structure Tidy (s : Root) (h : HistoryRoot) (f : Fetched) : Prop where
  single : ∀ t, Distinct Change.id (allChanges f.diffs t)
  timely : Timely s h f
  moves : ∀ t, ∀ x ∈ buildHistoryBatch s h f t, x.row.visible = true → x.prevCell.isSome →
    x.prevCell ≠ x.row.cell → ∀ r ∈ byidRows h t, r.id = x.row.id →
      ∀ y ∈ r.validFrom, ∀ z ∈ x.row.validFrom, y < z

lemma Orderly.tidy {s : Root} {h : HistoryRoot} {f : Fetched} (ho : Orderly s h f) : Tidy s h f :=
  ⟨ho.single, ho.timely, ho.moves⟩

/-! ### What the cells show -/

section Read

variable {s : Root} {h : HistoryRoot} {typ : Typ} {t i : ℤ} {cells : List Cell}

lemma mem_rowsOf_iff {c : Cell} {z : HistoryRow (SpatialCols typ)} :
    z ∈ (h.spatial typ).rowsOf c ↔ z ∈ baseSpatial h typ ∧ z.cell = some c := by
  rw [baseSpatial, List.mem_flatMap]
  constructor
  · intro hz
    refine ⟨?_, HistoryCompact.rowsOf_placed _ hz⟩
    unfold HistoryCells.rowsOf at hz
    cases he : lookup HistoryCell.cell c (h.spatial typ).cells with
    | none =>
      rw [he] at hz
      cases hz
    | some e =>
      rw [he] at hz
      exact ⟨e, mem_of_lookup he, hz⟩
  · rintro ⟨⟨e, he, hz⟩, hc⟩
    have hec : e.cell = c := Option.some.inj ((e.placed z hz).symm.trans hc)
    rw [HistoryCells.rowsOf, ← hec, (h.spatial typ).once.lookup_of_mem he]
    exact hz

/-- A read of some cells chooses from what all cells have, as far as it is in these cells. -/
lemma mem_spatialCandidates {z : HistoryRow (SpatialCols typ)} :
    z ∈ spatialCandidates h typ cells t i ↔
      z ∈ candidates t i (baseSpatial h typ) (tierSpatialRows h.tiers typ) ∧
        z.cell.any (fun c => decide (c ∈ cells)) = true := by
  have hbase : z ∈ cells.flatMap (h.spatial typ).rowsOf ↔
      z ∈ baseSpatial h typ ∧ z.cell.any (fun c => decide (c ∈ cells)) = true := by
    simp only [List.mem_flatMap, mem_rowsOf_iff, Option.any_eq_true, decide_eq_true_eq]
    constructor
    · rintro ⟨c, hc, hz, hzc⟩
      exact ⟨hz, c, hzc, hc⟩
    · rintro ⟨hz, c, hzc, hc⟩
      exact ⟨c, hc, hz, hzc⟩
  rw [spatialCandidates, mem_candidates, mem_candidates, hbase, List.mem_filter]
  tauto

/-- **A read of some cells returns an element exactly if its by-id state is in one of them.** -/
theorem spatial_read_iff (cells : List Cell) (hm : Mirrored h typ t i)
    {r : HistoryRow (ByidCols typ)} :
    (∃ z, StateAt (spatialCandidates h typ cells t i) z ∧ z.map byidCols = r) ∧ r.visible = true ↔
      (StateAt (byidCandidates h typ t i) r ∧ r.visible = true) ∧
        r.cell.any (fun c => decide (c ∈ cells)) = true := by
  have hmap : (∃ z, StateAt (spatialCandidates h typ cells t i) z ∧ z.map byidCols = r) ↔
      Best stateKey ((spatialCandidates h typ cells t i).map (HistoryRow.map byidCols)) r :=
    (best_map stateKey (HistoryRow.map byidCols)).symm
  rw [hmap, ← hm.seen_iff]
  refine and_congr_left fun _ => best_congr fun x => ?_
  simp only [mem_seen, List.mem_map, mem_spatialCandidates]
  constructor
  · rintro ⟨z, ⟨hz, hc⟩, rfl⟩
    exact ⟨⟨z, hz, rfl⟩, hc⟩
  · rintro ⟨⟨z, hz, rfl⟩, hc⟩
    exact ⟨z, ⟨hz, hc⟩, rfl⟩

/-- A cell that is reached from a box is read by every query that meets the box. -/
lemma mem_historyCells {b : BBox} {c : Cell} (hr : Reached (historyCatalog s h) typ b c) {q : Box}
    (hq : Box.Proper q) (hmeet : bboxIntersects q (boxOf b) = true) :
    c ∈ historyCellsForBbox s h typ (some q) := by
  have hpresent : c ∈ present (historyCatalog s h) typ := List.mem_append_left _ hr.listed
  refine (found_iff hpresent hr.proper).mpr (fun lat lon hin => .inl ?_) q hq hmeet
  exact hr.leaf lat lon hin

end Read

/-- The two copies show the same of every element, and every visible state is reached. -/
structure Split (s : Root) (h : HistoryRoot) : Prop where
  valid : Valid s h
  mirrored : ∀ typ t i, Mirrored h typ t i
  reached : ∀ t, ∀ r ∈ byidRows h t, r.visible = true → ∀ b ∈ stateBox r, ∀ c ∈ r.cell,
    Reached (historyCatalog s h) t b c

/-- **Where the copies show the same, a box finds what the by-id copy shows in it.** -/
theorem sameElements_of_split {s : Root} {h : HistoryRoot} (hs : Split s h) : SameElements s h := by
  intro typ t q hq r
  have hread := spatial_read_iff (historyCellsForBbox s h typ (some q)) (hs.mirrored typ t r.id)
    (r := r)
  constructor
  · rintro ⟨hz, hv, hmeet⟩
    obtain ⟨⟨hbest, -⟩, -⟩ := hread.mp ⟨hz, hv⟩
    exact ⟨hbest, hv, hmeet⟩
  · rintro ⟨hbest, hv, b, hb, hmeet⟩
    have hin : r ∈ byidRows h typ := (mem_startedRows.mp (startedRows_of_candidates hbest.1)).1
    obtain ⟨c, hc⟩ := Option.isSome_iff_exists.mp ((hs.mirrored typ t r.id).placed r hbest.1 hv)
    have hcell := mem_historyCells (hs.reached typ r hin hv b hb c hc) hq hmeet
    have hany : r.cell.any (fun c => decide (c ∈ historyCellsForBbox s h typ (some q))) = true := by
      rw [hc, Option.any_some]
      exact decide_eq_true hcell
    exact ⟨(hread.mpr ⟨⟨hbest, hv⟩, hany⟩).1, hv, b, hb, hmeet⟩

/-! ### One orderly run -/

section Run

variable {s : Root} {h h' : HistoryRoot} {f : Fetched} {typ : Typ} {t i : ℤ}
  {x : HistoryState (SpatialCols typ)}

/-- The one state that a run adds of an element: it comes after what is stored, and tells the cell
that the element was in. -/
structure Follows (s : Root) (h : HistoryRoot) (f : Fetched) (x : HistoryState (SpatialCols typ)) :
    Prop where
  only : ∀ y ∈ buildHistoryBatch s h f typ, y.row.id = x.row.id → y = x
  start : ∃ w, x.row.validFrom = some w ∧
    ∀ q ∈ byidRows h typ, q.id = x.row.id → ∀ y ∈ q.validFrom, y ≤ w
  wins : ∀ q ∈ byidRows h typ, q.id = x.row.id → q.validFrom.isSome →
    stateKey q < stateKey (x.row.map byidCols)
  here : x.row.visible = true →
    x.row.cell.isSome ∧ x.prevCell = (cur s typ x.row.id).bind Row.cell
  gone : x.row.visible = false →
    x.prevCell = none ∧ x.row.cell = (cur s typ x.row.id).bind Row.cell

/-- A later start decides. -/
lemma stateKey_lt_of_start {α : Type} {a b : HistoryRow α} {y w : ℤ} (ha : a.validFrom = some y)
    (hb : b.validFrom = some w) (hlt : y < w) : stateKey a < stateKey b := by
  refine Prod.Lex.toLex_lt_toLex.mpr (.inl ?_)
  rw [ha, hb]
  exact WithBot.coe_lt_coe.mpr hlt

/-- The state of a kept change. -/
lemma follows_of_kept (hv : Valid s h) (ho : Tidy s h f) {c : Change (Body typ)}
    (hc : changeById i (keptOf s f typ) = some c) (hx : x ∈ buildHistoryBatch s h f typ)
    (hid : x.row.id = i) : Follows s h f x := by
  have hagree := (agreesAtEnd_iff hv.good hv.ends).mp hv.agrees
  have hcid : c.id = i := key_of_lookup hc
  obtain ⟨r, hr, hrid, hrd, hcols⟩ := row_of_kept hv.good hc
  have hmem : r ∈ resolvedOf s f typ := (mem_resolved hr).1
  have hprev := (resolvedFor_resolvedOf hv.good f).prev typ r hmem
  rw [hrid] at hprev
  -- there is no other version in the batch
  have hall : c ∈ allChanges f.diffs typ :=
    ((mem_historyAll hv.good).mp (mem_historyAll_of_kept hv.good (mem_of_lookup hc))).1
  have hown : ∀ y ∈ buildHistoryBatch s h f typ, y.row.id = i → ownState s r c = y := by
    intro y hy hyid
    obtain ⟨b, hb, hbid, -, rfl⟩ := state_of_kept hv.good hc hr hy hyid
    rw [(ho.single typ).eq_of_key hb hall (hbid.trans hcid.symm)]
  obtain ⟨w, hw, hstored, -⟩ := ho.timely.kept typ c (mem_of_lookup hc)
  rw [hcid] at hstored
  obtain rfl := hown x hx hid
  refine ⟨fun y hy hyid => (hown y hy (hyid.trans hid)).symm, ⟨w, hw, fun q hq hqid y hy => ?_⟩,
    fun q hq hqid hqs => ?_, fun hvis => ?_, fun hvis => ?_⟩
  · exact (hstored q hq (hqid.trans hid) y hy).1
  · obtain ⟨y, hy⟩ := Option.isSome_iff_exists.mp hqs
    cases hd : c.deleted with
    | true => exact stateKey_lt_of_start hy hw ((hstored q hq (hqid.trans hid) y hy).2 hd)
    | false => exact not_le.mp (stored_loses hv.good (hagree typ i).1 hc hw hd hstored hq
        (hqid.trans hid) hy)
  · have hd : c.deleted = false := by simpa [ownState] using hvis
    obtain ⟨a, hra, hself⟩ := hcols hd
    have hver : colsVersion a = c.version := by
      rw [colsVersion, ← hself, attrs_ownCols]
      rfl
    have hlive := (resolvedFor_resolvedOf hv.good f).live typ r hmem (hrd.trans hd)
    refine ⟨?_, ?_⟩
    · simpa [ownState, hd] using hlive.2
    · rw [hid, ← hprev]
      simp [ownState, hra, hver]
  · have hd : c.deleted = true := by simpa [ownState] using hvis
    have hnone := ((resolvedFor_resolvedOf hv.good f).deleted typ r hmem (hrd.trans hd)).1
    refine ⟨by simp [ownState, hnone], ?_⟩
    rw [hid, ← hprev]
    simp [ownState, hd]

/-- The state of an element that is only touched. -/
lemma follows_of_touched (hv : Valid s h) (ho : Tidy s h f)
    (hk : changeById i (keptOf s f typ) = none) (hx : x ∈ buildHistoryBatch s h f typ)
    (hid : x.row.id = i) : Follows s h f x := by
  have hagree := (agreesAtEnd_iff hv.good hv.ends).mp hv.agrees
  obtain ⟨r, a, hr, ha, rfl⟩ := state_of_touched hv.good hk hx hid
  have hmem : r ∈ resolvedOf s f typ := (mem_resolved hr).1
  -- what is resolved and not kept is touched and exists
  obtain ⟨hi, p, hp⟩ : i ∈ touchedIds s f typ ∧ ∃ p, cur s typ i = some p := by
    by_contra hn
    have hnone := row_eq_none hv.good hk fun hin =>
      Option.eq_none_iff_forall_ne_some.mpr fun p hp => hn ⟨hin, p, hp⟩
    rw [hnone] at hr
    cases hr
  obtain ⟨r', a', hr', hrid, hrd, hra, hattrs, htime⟩ := row_of_touched hv.good hk hi hp
  obtain rfl := Option.some.inj (hr'.symm.trans hr)
  obtain rfl := Option.some.inj (hra.symm.trans ha)
  obtain ⟨w, hw, hstored⟩ := ho.timely.touched typ i hi hk p hp
  have hstart : (touchState s h f r' a').row.validFrom = some w := (htime _ _).trans hw
  have hprev := (resolvedFor_resolvedOf hv.good f).prev typ r' hmem
  have hlive := (resolvedFor_resolvedOf hv.good f).live typ r' hmem hrd
  refine ⟨fun y hy hyid => ?_, ⟨w, hstart, fun q hq hqid => hstored q hq (hqid.trans hid)⟩,
    fun q hq hqid hqs => ?_, fun _ => ⟨hlive.2, hprev⟩, fun hvis => by cases hvis⟩
  · obtain ⟨r, a, hr2, ha2, rfl⟩ := state_of_touched hv.good hk hy (hyid.trans hid)
    obtain rfl := Option.some.inj (hr2.symm.trans hr)
    obtain rfl := Option.some.inj (ha2.symm.trans ha)
    rfl
  · obtain ⟨y, hy⟩ := Option.isSome_iff_exists.mp hqs
    exact not_le.mp (stored_loses_touched (hagree typ i).1 hk hi hp hrid hattrs hstart hstored hq
      (hqid.trans hid) hy)

lemma follows_of_mem (hv : Valid s h) (ho : Tidy s h f) (hx : x ∈ buildHistoryBatch s h f typ) :
    Follows s h f x := by
  cases hk : changeById x.row.id (keptOf s f typ) with
  | some c => exact follows_of_kept hv ho hk hx rfl
  | none => exact follows_of_touched hv ho hk hx rfl

/-- What a read by id chooses from after the run. -/
lemma mem_byidCandidates_appended (ha : Appended s h f h') {r : HistoryRow (ByidCols typ)} :
    r ∈ byidCandidates h' typ t i ↔ r ∈ byidCandidates h typ t i ∨
      ∃ x ∈ buildHistoryBatch s h f typ, x.row.id = i ∧ validityPredicate t false x.row = true ∧
        x.row.map byidCols = r := by
  have hnew : r ∈ (finalizeHistoryBatch (buildHistoryBatch s h f typ)).byid ↔
      ∃ x ∈ buildHistoryBatch s h f typ, x.row.map byidCols = r := List.mem_map
  rw [byidCandidates, byidCandidates, mem_candidates, mem_candidates, ha.byidBase, ha.byid, hnew]
  constructor
  · rintro ⟨hid, hb | ⟨ht | ⟨x, hx, rfl⟩, hs⟩⟩
    · exact .inl ⟨hid, .inl hb⟩
    · exact .inl ⟨hid, .inr ⟨ht, hs⟩⟩
    · exact .inr ⟨x, hx, hid, hs, rfl⟩
  · rintro (⟨hid, hb | ⟨ht, hs⟩⟩ | ⟨x, hx, hid, hs, rfl⟩)
    · exact ⟨hid, .inl hb⟩
    · exact ⟨hid, .inr ⟨.inl ht, hs⟩⟩
    · exact ⟨hid, .inr ⟨.inr ⟨x, hx, rfl⟩, hs⟩⟩

/-- The state leaves a cell. -/
def Leaves (x : HistoryState (SpatialCols typ)) : Prop :=
  x.prevCell.isSome ∧ x.row.cell.isSome ∧ x.prevCell ≠ x.row.cell

/-- What all cells have after the run: also the states, and the move tombstones of those that leave
a cell. -/
lemma mem_copy_appended (ha : Appended s h f h') {r : HistoryRow (ByidCols typ)} :
    r ∈ (candidates t i (baseSpatial h' typ) (tierSpatialRows h'.tiers typ)).map
        (HistoryRow.map byidCols) ↔
      r ∈ (candidates t i (baseSpatial h typ) (tierSpatialRows h.tiers typ)).map
          (HistoryRow.map byidCols) ∨
        ∃ x ∈ buildHistoryBatch s h f typ, x.row.id = i ∧ validityPredicate t false x.row = true ∧
          (x.row.map byidCols = r ∨ Leaves x ∧ (moveTombstone x).map byidCols = r) := by
  have hnew : ∀ z, z ∈ (finalizeHistoryBatch (buildHistoryBatch s h f typ)).spatial ↔
      ∃ x ∈ buildHistoryBatch s h f typ, x.row = z ∨ Leaves x ∧ moveTombstone x = z := by
    intro z
    simp only [finalizeHistoryBatch, List.mem_append, List.mem_map, List.mem_filter,
      Bool.and_eq_true, bne_iff_ne, and_assoc, Leaves]
    rw [← exists_or]
    exact exists_congr fun x => and_or_left.symm
  simp only [List.mem_map, mem_candidates, baseSpatial, ha.spatialBase, ha.spatial, hnew]
  constructor
  · rintro ⟨z, ⟨hid, hb | ⟨ht | ⟨x, hx, rfl | ⟨hl, rfl⟩⟩, hs⟩⟩, rfl⟩
    · exact .inl ⟨z, ⟨hid, .inl hb⟩, rfl⟩
    · exact .inl ⟨z, ⟨hid, .inr ⟨ht, hs⟩⟩, rfl⟩
    · exact .inr ⟨x, hx, hid, hs, .inl rfl⟩
    · exact .inr ⟨x, hx, hid, hs, .inr ⟨hl, rfl⟩⟩
  · rintro (⟨z, ⟨hid, hb | ⟨ht, hs⟩⟩, rfl⟩ | ⟨x, hx, hid, hs, rfl | ⟨hl, rfl⟩⟩)
    · exact ⟨z, ⟨hid, .inl hb⟩, rfl⟩
    · exact ⟨z, ⟨hid, .inr ⟨.inl ht, hs⟩⟩, rfl⟩
    · exact ⟨x.row, ⟨hid, .inr ⟨.inr ⟨x, hx, .inl rfl⟩, hs⟩⟩, rfl⟩
    · exact ⟨moveTombstone x, ⟨hid, .inr ⟨.inr ⟨x, hx, .inr ⟨hl, rfl⟩⟩, hs⟩⟩, rfl⟩

/-- The state that was shown so far is in the cell of the new one, or has left a tombstone. -/
lemma last_guarded (hv : Valid s h) (ho : Tidy s h f) (ha : Appended s h f h')
    (hm : Mirrored h typ t i) (hx : x ∈ buildHistoryBatch s h f typ) (hid : x.row.id = i)
    (hs : validityPredicate t false x.row = true) {l : HistoryRow (ByidCols typ)}
    (hl : StateAt (byidCandidates h typ t i) l) (hlv : l.visible = true) :
    l.cell = x.row.cell ∨
      ∃ z ∈ (candidates t i (baseSpatial h' typ) (tierSpatialRows h'.tiers typ)).map
        (HistoryRow.map byidCols), z.cell = l.cell ∧
          ∀ y ∈ byidCandidates h typ t i, y.visible = true → stateKey y < stateKey z := by
  have hfol := follows_of_mem hv ho hx
  obtain ⟨w, hw, hstored⟩ := hfol.start
  obtain ⟨w', hw', hwt⟩ := validityPredicate_false.mp hs
  obtain rfl := Option.some.inj (hw'.symm.trans hw)
  -- all that is stored has started, so that what is shown is the current row
  have hshow := (hv.agrees typ i t fun r hr hrid y hy =>
    (hstored r hr (hrid.trans hid.symm) y hy).trans hwt).1 l hl
  rw [currentRead_eq hv.good] at hshow
  have hcell : l.cell = (cur s typ i).bind Row.cell := by
    cases hc : cur s typ i with
    | none =>
      rw [hc] at hshow
      exact (Bool.false_ne_true (hshow.symm.trans hlv)).elim
    | some p =>
      rw [hc] at hshow
      exact hshow.2.2.2.1
  cases hvis : x.row.visible with
  | false => exact .inl (by rw [hcell, (hfol.gone hvis).2, hid])
  | true =>
    obtain ⟨hsome, hprev⟩ := hfol.here hvis
    rw [hid, ← hcell] at hprev
    by_cases heq : l.cell = x.row.cell
    · exact .inl heq
    · have hpsome : x.prevCell.isSome := hprev ▸ hm.placed l hl.1 hlv
      have hleaves : Leaves x := ⟨hpsome, hsome, hprev ▸ heq⟩
      refine .inr ⟨(moveTombstone x).map byidCols,
        (mem_copy_appended ha).mpr (.inr ⟨x, hx, hid, hs, .inr ⟨hleaves, rfl⟩⟩), hprev,
          fun y hy _ => ?_⟩
      obtain ⟨hyin, hyid, hys⟩ := mem_startedRows.mp (startedRows_of_candidates hy)
      obtain ⟨v, hyv, -⟩ := validityPredicate_false.mp hys
      have hlt := ho.moves typ x hx hvis hpsome hleaves.2.2 y hyin (hyid.trans hid.symm) v hyv _ hw
      exact stateKey_lt_of_start hyv hw hlt

/-- **A run keeps the copies beside each other.** -/
theorem mirrored_appended (hv : Valid s h) (ho : Tidy s h f) (ha : Appended s h f h')
    (hm : Mirrored h typ t i) : Mirrored h' typ t i := by
  by_cases hex : ∃ x ∈ buildHistoryBatch s h f typ, x.row.id = i ∧
      validityPredicate t false x.row = true
  · obtain ⟨x, hx, hid, hs⟩ := hex
    have hfol := follows_of_mem hv ho hx
    have honly : ∀ y ∈ buildHistoryBatch s h f typ, y.row.id = i → y = x := fun y hy hyid =>
      hfol.only y hy (hyid.trans hid.symm)
    refine hm.insert (n := x.row.map byidCols) (fun r => ?_) (fun y hy => ?_)
      (fun hvis => (hfol.here hvis).1)
      (fun _ => (mem_copy_appended ha).mpr (.inr ⟨x, hx, hid, hs, .inl rfl⟩))
      (fun r hr => (mem_copy_appended ha).mpr (.inl hr)) (fun r hr => ?_)
      fun l hl hlv => last_guarded hv ho ha hm hx hid hs hl hlv
    · rw [mem_byidCandidates_appended ha]
      refine or_congr_right ⟨?_, ?_⟩
      · rintro ⟨y, hy, hyid, -, rfl⟩
        rw [honly y hy hyid]
      · rintro rfl
        exact ⟨x, hx, hid, hs, rfl⟩
    · obtain ⟨hyin, hyid, hys⟩ := mem_startedRows.mp (startedRows_of_candidates hy)
      obtain ⟨v, hyv, -⟩ := validityPredicate_false.mp hys
      exact hfol.wins y hyin (hyid.trans hid.symm) (by rw [hyv]; rfl)
    · rcases (mem_copy_appended ha).mp hr with hold | ⟨y, hy, hyid, -, rfl | ⟨hl, rfl⟩⟩
      · exact .inl hold
      · exact .inr (.inl (by rw [honly y hy hyid]))
      · -- only a visible state has a tombstone, and wins against it
        obtain rfl := honly y hy hyid
        have hvis : y.row.visible = true := by
          by_contra hn
          have hnone := (hfol.gone (Bool.eq_false_iff.mpr hn)).1
          rw [Leaves, hnone] at hl
          exact Bool.false_ne_true hl.1
        exact .inr (.inr ⟨Bool.false_ne_true, HistoryWindows.lt_of_visible rfl rfl hvis⟩)
  · refine hm.congr (fun r => ?_) fun r => ?_
    · rw [mem_byidCandidates_appended ha]
      refine or_iff_left ?_
      rintro ⟨x, hx, hid, hs, -⟩
      exact hex ⟨x, hx, hid, hs⟩
    · rw [mem_copy_appended ha]
      refine or_iff_left ?_
      rintro ⟨x, hx, hid, hs, -⟩
      exact hex ⟨x, hx, hid, hs⟩

lemma split_update {d' : Dataset} (hs : Split s h) (ho : Orderly s h f)
    (hu : update ⟨s, some h⟩ f = some d') : ∃ h', d'.history = some h' ∧ Split d'.root h' := by
  obtain ⟨h', hh', hvalid⟩ := valid_update hs.valid ho.timely hu
  refine ⟨h', hh', ?_⟩
  by_cases hf : f.diffs = []
  · simp only [update, hf, if_true] at hu
    cases hu
    cases hh'
    exact hs
  · obtain ⟨h1, rfl, happ⟩ := update_appended hs.valid.matched hf hu
    cases hh'
    refine ⟨hvalid, fun typ t i => mirrored_appended hs.valid ho.tidy happ (hs.mirrored typ t i),
      ?_⟩
    have hcat : historyCatalog (runOnce s f) h' = historyCatalog s h := by
      unfold historyCatalog
      rw [base_runOnce, happ.spatialBase]
    intro t r hr hv
    show ∀ b ∈ stateBox r, ∀ c ∈ r.cell, Reached (historyCatalog (runOnce s f) h') t b c
    rw [hcat]
    rcases (happ.added t r).mp hr with hold | ⟨x, hx, rfl⟩
    · exact hs.reached t r hold hv
    · exact ho.reached t x hx hv

end Run

/-! ### Any orderly runs -/

/-- **Snapshots by cell are snapshots by id.** From a base history that `history build` has made of
states that are reached, in every sequence of orderly runs, the read of the cells of a box finds at
all times what the by-id copy shows in the box. -/
theorem spatial_snapshot_eq_byid {s : Root} {h : HistoryRoot} {states : (t : Typ) → States t}
    (hb : Built states h) (hv : Valid s h)
    (hr : ∀ t, ∀ r ∈ (states t).rows, r.visible = true → ∀ b ∈ stateBox (r.map byidCols),
      ∀ c ∈ r.cell, Reached (historyCatalog s h) t b c)
    {fs : List Fetched} {d' : Dataset}
    (ho : Along update (fun d f => ∀ h ∈ d.history, Orderly d.root h f) ⟨s, some h⟩ fs)
    (hp : play update ⟨s, some h⟩ fs = some d') :
    ∃ h', d'.history = some h' ∧ SameElements d'.root h' := by
  have hstart : Split s h := by
    refine ⟨hv, fun typ t i => mirrored_built hb, fun t r hin hvis b hbox c hc => ?_⟩
    have hnil : tierByidRows h.tiers t = [] := by
      rw [hb.tiers]
      rfl
    rw [byidRows, hnil, List.append_nil, hb.byid] at hin
    obtain ⟨x, hx, rfl⟩ := mem_finalById.mp hin
    obtain ⟨q, hq, hstrip⟩ := HistoryWindows.strip_mem_of_lead hx
    have hcell : q.cell = x.cell := congrArg (fun r => r.cell) hstrip
    have hcols : q.cols = x.cols := congrArg (fun r => r.cols) hstrip
    have hqv : q.visible = true := (congrArg (fun r => r.visible) hstrip).trans hvis
    refine hr t q hq hqv b ?_ c (hcell ▸ hc)
    simp only [stateBox, HistoryRow.map, hcols] at hbox ⊢
    exact hbox
  have hinv : ∃ h', d'.history = some h' ∧ Split d'.root h' := by
    refine play_keeps (I := fun d => ∃ h', d.history = some h' ∧ Split d.root h') ?_
      ⟨h, rfl, hstart⟩ ho hp
    rintro ⟨s, o⟩ f d' ⟨h, rfl, hs⟩ ho hu
    exact split_update hs (ho h rfl) hu
  obtain ⟨h', hh, hs'⟩ := hinv
  exact ⟨h', hh, sameElements_of_split hs'⟩

/-! ### Two nodes that share two cells -/

/-- The box is within one leaf for which the cell is read. -/
def InOneLeaf (cat : Catalog) (t : Typ) (b : BBox) (c : Cell) : Prop :=
  c ∈ cat.tableCells t ∧ (b.ymin ≤ b.ymax ∧ b.xmin ≤ b.xmax) ∧
    ∃ leaf ∈ cat.leafCells, c ∈ above cat t leaf ∧
      (cellBBox leaf).Holds b.ymin b.xmin ∧ (cellBBox leaf).Holds b.ymax b.xmax

instance (cat : Catalog) (t : Typ) (b : BBox) (c : Cell) : Decidable (InOneLeaf cat t b c) :=
  inferInstanceAs (Decidable (_ ∧ _ ∧ _))

lemma reached_of_inOneLeaf {cat : Catalog} {t : Typ} {b : BBox} {c : Cell}
    (h : InOneLeaf cat t b c) : Reached cat t b c := by
  obtain ⟨hc, ⟨hy, hx⟩, leaf, hleaf, habove, ⟨h1, -, h3, -⟩, -, g2, -, g4⟩ := h
  refine ⟨hc, ⟨Int.cast_le.mpr hy, Int.cast_le.mpr hx⟩,
    fun lat lon hin => ⟨leaf, hleaf, habove, ?_⟩⟩
  obtain ⟨b1, b2, b3, b4⟩ := hin
  exact ⟨h1.trans b1, b2.trans g2, h3.trans b3, b4.trans g4⟩

/-- The run is orderly, and its visible states are in one leaf each. -/
def Nearby (s : Root) (h : HistoryRoot) (f : Fetched) : Prop :=
  (∀ t, Distinct Change.id (allChanges f.diffs t)) ∧ Timely s h f ∧
    (∀ t, ∀ x ∈ buildHistoryBatch s h f t, x.row.visible = true → x.prevCell.isSome →
      x.prevCell ≠ x.row.cell → ∀ r ∈ byidRows h t, r.id = x.row.id →
        ∀ y ∈ r.validFrom, ∀ z ∈ x.row.validFrom, y < z) ∧
    ∀ t, ∀ x ∈ buildHistoryBatch s h f t, x.row.visible = true →
      ∀ b ∈ stateBox (x.row.map byidCols), ∀ c ∈ x.row.cell, InOneLeaf (historyCatalog s h) t b c

instance (s : Root) (h : HistoryRoot) (f : Fetched) : Decidable (Nearby s h f) :=
  inferInstanceAs (Decidable (_ ∧ _ ∧ _ ∧ _))

lemma orderly_of_nearby {s : Root} {h : HistoryRoot} {f : Fetched} (hn : Nearby s h f) :
    Orderly s h f := by
  obtain ⟨hsingle, htimely, hmoves, hleaf⟩ := hn
  exact ⟨hsingle, htimely, hmoves, fun t x hx hv b hb c hc =>
    reached_of_inOneLeaf (hleaf t x hx hv b hb c hc)⟩

/-- A node of the fifth second. -/
def nodeAt (i : ℤ) (c : Cell) (p : Point) : Row NodeCols :=
  ⟨i, some c, ⟨some p, ⟨none, [], 1, 1, some 5, none, ""⟩, hilbertKey p⟩⟩

def northWest : Row NodeCols := nodeAt 1 [0] ⟨450000000, -900000000⟩

def northEast : Row NodeCols := nodeAt 2 [1] ⟨450000000, 900000000⟩

def twoNodes : Base :=
  { oneNode with
    byid := fun
      | .node => ⟨[⟨1, 2, [northWest, northEast], by decide, by decide, by decide⟩], by simp⟩
      | .way => oneNode.byid .way
      | .relation => oneNode.byid .relation
    spatial := fun
      | .node => [⟨[0], [[northWest]]⟩, ⟨[1], [[northEast]]⟩]
      | .way => []
      | .relation => [] }

/-- Their first states. -/
def twoStates : (t : Typ) → States t
  | .node =>
    ⟨[initRow (t := .node) 5 northWest, initRow (t := .node) 5 northEast], by decide, by decide⟩
  | .way => ⟨[], distinct_nil, by simp⟩
  | .relation => ⟨[], distinct_nil, by simp⟩

def twoHistory : HistoryRoot := historyBuild twoStates

lemma valid_twoNodes : Valid (fresh twoNodes) twoHistory := by
  have hb : Built twoStates twoHistory := built_historyBuild twoStates
  have hrows : ∀ t, finalById (twoStates t) = ((twoNodes.byid t).rows).map (initRow 5) := by
    decide
  refine @valid_of_current twoNodes 5 twoHistory rfl (fun t r => ?_) (fun t => soundEnds_built hb)
    fun t i p hp => ?_
  · rw [hb.byid, hrows, List.mem_map]
  · have hpro : ∀ t, ∀ p ∈ (twoNodes.byid t).rows, (attrs p.cols).promoted =
        twoNodes.promotedKeys.map (tagValue (attrs p.cols).tags) := by decide
    exact hpro t p (mem_of_lookup hp)

/-- A run that moves the first node. -/
def moveAt (seq version : ℤ) (p : Point) (timestamp : ℤ) : Fetched where
  diffs := [⟨seq, fun
    | .node => [⟨1, false, version, some timestamp, 1, none, "", none, some p, seq⟩]
    | .way => []
    | .relation => []⟩]
  timestamp := some timestamp

/-- It moves to the cell of the other node, and back. -/
def backAndForth : List Fetched :=
  [moveAt 1 2 ⟨450000000, 900000000⟩ 20, moveAt 2 3 ⟨450000000, -900000000⟩ 30]

/-- It moves to a cell that the base history does not have. -/
def elsewhere : Fetched := moveAt 1 2 ⟨-450000000, 900000000⟩ 20

theorem spatial_snapshot_back_and_forth : ∃ d' h',
    play update ⟨fresh twoNodes, some twoHistory⟩ backAndForth = some d' ∧
      d'.history = some h' ∧ SameElements d'.root h' := by
  have hs : (play update ⟨fresh twoNodes, some twoHistory⟩ backAndForth).isSome = true := by
    decide
  obtain ⟨d', hd⟩ := Option.isSome_iff_exists.mp hs
  have hnear : Along update (fun d f => ∀ h ∈ d.history, Nearby d.root h f)
      ⟨fresh twoNodes, some twoHistory⟩ backAndForth := by decide +kernel
  have horderly : Along update (fun d f => ∀ h ∈ d.history, Orderly d.root h f)
      ⟨fresh twoNodes, some twoHistory⟩ backAndForth :=
    along_keeps (I := fun _ => True) (fun _ _ _ _ _ _ => trivial)
      (fun _ _ _ hn h hh => orderly_of_nearby (hn h hh)) trivial hnear
  have hbase : ∀ t, ∀ r ∈ (twoStates t).rows, r.visible = true → ∀ b ∈ stateBox (r.map byidCols),
      ∀ c ∈ r.cell, InOneLeaf (historyCatalog (fresh twoNodes) twoHistory) t b c := by
    decide +kernel
  obtain ⟨h', hh, hsame⟩ := spatial_snapshot_eq_byid (built_historyBuild twoStates) valid_twoNodes
    (fun t r hr hv b hb c hc => reached_of_inOneLeaf (hbase t r hr hv b hb c hc)) horderly hd
  exact ⟨d', h', hd, hh, hsame⟩

/-- The by-id state of the node is found at the place it moved to, and a query there reads no cell
of the history. -/
theorem spatial_snapshot_misses_new_cell : Built twoStates twoHistory ∧
    Valid (fresh twoNodes) twoHistory ∧ (∀ t, Distinct Change.id (allChanges elsewhere.diffs t)) ∧
    ∃ d' h', play update ⟨fresh twoNodes, some twoHistory⟩ [elsewhere] = some d' ∧
      d'.history = some h' ∧ ¬ SameElements d'.root h' := by
  have hs : (play update ⟨fresh twoNodes, some twoHistory⟩ [elsewhere]).any (fun d' =>
      d'.history.any fun h' => decide (
        historyCellsForBbox d'.root h' .node
          (some ⟨-450000000, 900000000, -450000000, 900000000⟩) = [] ∧
        ∃ r ∈ byidCandidates h' .node 20 1, (∀ x ∈
          byidCandidates h' .node 20 1, stateKey x ≤ stateKey r) ∧ r.id = 1 ∧ r.visible = true ∧
            ∃ b ∈ stateBox r, bboxIntersects ⟨-450000000, 900000000, -450000000, 900000000⟩
              (boxOf b) = true)) = true := by
    decide +kernel
  obtain ⟨d', hd, hd'⟩ := (Option.any_eq_true _ _).mp hs
  obtain ⟨h', hh, hh'⟩ := (Option.any_eq_true _ _).mp hd'
  obtain ⟨hcells, r, hr, hbest, hid, hv, hmeet⟩ := of_decide_eq_true hh'
  refine ⟨built_historyBuild twoStates, valid_twoNodes, by decide, d', h', hd, hh, fun hsame => ?_⟩
  have hq : Box.Proper ⟨-450000000, 900000000, -450000000, 900000000⟩ := ⟨le_rfl, le_rfl⟩
  obtain ⟨⟨z, hz, -⟩, -⟩ := (hsame .node 20 _ hq r).mpr ⟨hid.symm ▸ ⟨hr, hbest⟩, hv, hmeet⟩
  have hin := (mem_spatialCandidates.mp hz.1).2
  rw [hcells] at hin
  simp at hin

end OsmParquet.SpatialSnapshots
