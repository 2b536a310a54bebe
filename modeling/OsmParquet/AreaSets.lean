import OsmParquet.AreaSearch

/-!
Sets of areas.

A query for areas goes through their indexes, or looks them up by id. `map_to_area` makes the areas
of the elements of a set, and a pivot filter goes back from areas to the elements they are of.
-/

namespace OsmParquet.AreaSets

open OsmParquet.KeyedList OsmParquet.Rows OsmParquet.Tiers OsmParquet.TierSteps OsmParquet.ByidReads
open OsmParquet.Cells OsmParquet.CellTree OsmParquet.Updater OsmParquet.Resolves
  OsmParquet.PrevCells
open OsmParquet.SpatialReads OsmParquet.RunSteps OsmParquet.Findable OsmParquet.MemberGeometry
  OsmParquet.Areas
open OsmParquet.CoveredPositions OsmParquet.AreaStatements OsmParquet.AreaLookups
  OsmParquet.AreaSearch
open OsmParquet.OneCell OsmParquet.RowGroups

variable {γ : Type} {assemble : List (Option (List Point)) → List (Option (List Point)) →
  Option (γ × BBox)}
variable {G : Shapes γ} {b : Base} {f : ℚ} {groups : RowGroupIndex}

/-! ### Queries for areas -/

section Queries

variable {tagHolds : Attrs → Bool}

/-- What a query for areas without ids goes through: all areas of relations, and the closed ways
with a tag that makes them one of the index. -/
def Indexed (b : Base) (tagHolds : Attrs → Bool) : SetRow → Prop
  | .area a => tagHolds a.attrs
  | .element .way r => wayQualifying (r.map byidCols) ∧
    tagHolds (repromote b.promotedKeys r.cols.byid.attrs)
  | _ => False

/-- What a query for areas with ids finds for one of them. A way is looked up whether it is closed
or not. -/
def FoundById (assemble : List (Option (List Point)) → List (Option (List Point)) →
    Option (γ × BBox)) (b : Base) (tagHolds : Attrs → Bool) (i : ℤ) (y : SetRow) : Prop :=
  (relationIdOffset ≤ i ∧ ∃ a, y = .area a ∧ Stored assemble b y ∧ a.id = i ∧ tagHolds a.attrs) ∨
    (wayIdOffset ≤ i ∧ i < relationIdOffset ∧ ∃ r, y = byidRow r ∧ r.id + wayIdOffset = i ∧
      cur (fresh b) .way r.id = some r ∧ tagHolds r.cols.attrs)

lemma mem_wayIndex (hb : Built b) {w : WayAreaRow} :
    w ∈ (buildAreas assemble f groups (fresh b)).wayIndex ↔
    ∃ r, curSpatial (fresh b) .way r.id = some r ∧ wayQualifying (r.map byidCols) ∧
      wayAreaRow b.promotedKeys (r.map byidCols) = w := by
  unfold buildAreas buildWayAreaIndex
  dsimp only
  rw [List.mem_insertionSort, List.mem_map]
  constructor
  · rintro ⟨x, hx, rfl⟩
    obtain ⟨r, hr, rfl⟩ := List.mem_map.mp hx
    obtain ⟨hcur, hq⟩ := (mem_readAll hb.agrees).mp hr
    exact ⟨r, hcur, hq, rfl⟩
  · rintro ⟨r, hcur, hq, rfl⟩
    exact ⟨_, List.mem_map_of_mem ((mem_readAll hb.agrees).mpr ⟨hcur, hq⟩), rfl⟩

lemma mem_hydrateWayRowsSelect (hb : Built b) {rows : List (ℤ × Option Cell)} {y : SetRow} :
    y ∈ hydrateWayRowsSelect (fresh b) rows ↔ ∃ r : Row WaySpatialCols, SetRow.element .way r = y ∧
      curSpatial (fresh b) .way r.id = some r ∧ ∃ c, r.cell = some c ∧ (r.id, some c) ∈ rows := by
  have hpairs : ∀ c i, (c, i) ∈ (rows.filterMap fun x => x.2.map fun c => (c, x.1)) ↔
      (i, some c) ∈ rows := by
    intro c i
    rw [List.mem_filterMap]
    constructor
    · rintro ⟨⟨j, o⟩, hx, h⟩
      obtain ⟨c', rfl, heq⟩ := Option.map_eq_some_iff.mp h
      cases heq
      exact hx
    · intro h
      exact ⟨_, h, rfl⟩
  unfold hydrateWayRowsSelect
  dsimp only
  rw [List.mem_map]
  refine exists_congr fun r => ?_
  rw [List.mem_filter, and_comm]
  refine and_congr_right fun _ => ?_
  constructor
  · rintro ⟨hfile, hpair⟩
    refine ⟨((mem_wayFiles hb).mp hfile).1, ?_⟩
    obtain ⟨c, hc, h⟩ := (Option.any_eq_true _ _).mp hpair
    exact ⟨c, hc, (hpairs c r.id).mp (List.contains_iff_mem.mp h)⟩
  · rintro ⟨hcur, c, hc, h⟩
    have hpair := (hpairs c r.id).mpr h
    refine ⟨(mem_wayFiles hb).mpr ⟨hcur, ?_⟩, ?_⟩
    · rw [hc]
      exact decide_eq_true (List.mem_dedup.mpr (List.mem_map_of_mem hpair))
    · rw [hc]
      exact List.contains_iff_mem.mpr hpair

lemma mem_relationAreaRawSelect (hb : Built b) (hk : CoversWays (fresh b) groups)
    {ids : Option (List ℤ)} {y : SetRow} :
    y ∈ relationAreaRawSelect (buildAreas assemble f groups (fresh b)) tagHolds ids ↔
      ∃ a, SetRow.area a = y ∧ Stored assemble b (.area a) ∧
        (∀ l ∈ ids, a.id ∈ (splitAreaIds l).1) ∧
        tagHolds a.attrs := by
  unfold relationAreaRawSelect
  rw [List.mem_map]
  refine exists_congr fun a => ?_
  rw [List.mem_filter, mem_index hb hk, Bool.and_eq_true, Option.all_eq_true, and_comm]
  simp only [decide_eq_true_iff, Option.mem_def]

lemma mem_wayLookupSelect {wayIds : List ℤ} {y : SetRow} :
    y ∈ wayLookupSelect (fresh b) tagHolds wayIds ↔
    ∃ r, byidRow r = y ∧ r.id ∈ wayIds ∧ cur (fresh b) .way r.id = some r ∧
      tagHolds r.cols.attrs := by
  unfold wayLookupSelect
  rw [List.mem_map]
  refine exists_congr fun r => and_comm.trans (and_congr_right fun _ => ?_)
  have hu :
      Distinct Row.id (buildByidSelect ((fresh b).base.byid .way) (fresh b).deltas wayIds fun c =>
      tagHolds c.attrs) := distinct_buildByidSelect _ _ wayIds _
  have hlook : lookup Row.id r.id (buildByidSelect ((fresh b).base.byid .way)
      (fresh b).deltas wayIds fun c =>
      tagHolds c.attrs) = if r.id ∈ wayIds then (cur (fresh b) .way r.id).filter fun r =>
        tagHolds r.cols.attrs
        else none := byId_buildByidSelect _ (good_fresh b) wayIds _ r.id
  have hmem := hu.lookup_eq_some (a := r) (k := r.id)
  rw [and_iff_left rfl, hlook] at hmem
  rw [← hmem]
  split_ifs with hid
  · rw [Option.filter_eq_some_iff, and_iff_right hid]
  · exact iff_of_false (by simp) fun h => hid h.1

lemma mem_areaQuery_none (hb : Built b) (hk : CoversWays (fresh b) groups) {y : SetRow} :
    y ∈ areaQuery (fresh b) (buildAreas assemble f groups (fresh b)) tagHolds none ↔
      Stored assemble b y ∧ Indexed b tagHolds y := by
  unfold areaQuery
  rw [List.mem_append, mem_relationAreaRawSelect hb hk, wayAreaIndexSelect,
    mem_hydrateWayRowsSelect hb]
  constructor
  · rintro (⟨a, rfl, hstored, -, htags⟩ | ⟨r, rfl, hcur, c, hc, hpair⟩)
    · exact ⟨hstored, htags⟩
    · obtain ⟨w, hw, heq⟩ := List.mem_map.mp hpair
      obtain ⟨hindex, htags⟩ := List.mem_filter.mp hw
      obtain ⟨x, hx, hq, rfl⟩ := (mem_wayIndex hb).mp hindex
      have hid : x.id = r.id := congrArg Prod.fst heq
      rw [hid, hcur] at hx
      obtain rfl := Option.some.inj hx
      exact ⟨hcur, hq, htags⟩
  · rintro ⟨hstored, hindexed⟩
    cases y with
    | area a =>
      exact Or.inl ⟨a, rfl, hstored, fun l hl => absurd hl (Option.not_mem_none l), hindexed⟩
    | element t r =>
      cases t with
      | node => exact hindexed.elim
      | relation => exact hindexed.elim
      | way =>
        obtain ⟨hq, htags⟩ := hindexed
        have hcell : r.cell = some (cellFor b (t := .way) r.cols) :=
          allPlaced_fresh hb.laid .way r.id r hstored
        have hw : wayAreaRow b.promotedKeys (r.map byidCols) ∈
            (buildAreas assemble f groups (fresh b)).wayIndex :=
          (mem_wayIndex hb).mpr ⟨r, hstored, hq, rfl⟩
        refine Or.inr ⟨r, rfl, hstored, _, hcell,
          List.mem_map.mpr ⟨_, List.mem_filter.mpr ⟨hw, htags⟩, ?_⟩⟩
        exact Prod.ext rfl hcell

lemma mem_areaQuery_some (hb : Built b) (hk : CoversWays (fresh b) groups) {ids : List ℤ}
    {y : SetRow} :
    y ∈ areaQuery (fresh b) (buildAreas assemble f groups (fresh b)) tagHolds (some ids) ↔
      ∃ i ∈ ids, FoundById assemble b tagHolds i y := by
  unfold areaQuery
  rw [List.mem_append, mem_relationAreaRawSelect hb hk, mem_wayLookupSelect]
  constructor
  · rintro (⟨a, rfl, hstored, hids, htags⟩ | ⟨r, rfl, hid, hcur, htags⟩)
    · obtain ⟨hi, hle⟩ := mem_splitAreaIds.1.mp (hids ids rfl)
      exact ⟨a.id, hi, Or.inl ⟨hle, a, rfl, hstored, rfl, htags⟩⟩
    · obtain ⟨hi, hle, hlt⟩ := mem_splitAreaIds.2.mp hid
      exact ⟨_, hi, Or.inr ⟨hle, hlt, r, rfl, rfl, hcur, htags⟩⟩
  · rintro ⟨i, hi, ⟨hle, a, rfl, hstored, rfl, htags⟩ | ⟨hle, hlt, r, rfl, rfl, hcur, htags⟩⟩
    · refine Or.inl ⟨a, rfl, hstored, fun l hl => ?_, htags⟩
      obtain rfl := Option.some.inj hl
      exact mem_splitAreaIds.1.mpr ⟨hi, hle⟩
    · exact Or.inr ⟨r, rfl, mem_splitAreaIds.2.mpr ⟨hi, hle, hlt⟩, hcur, htags⟩

end Queries

/-! ### Pivots -/

section Pivots

/-- The elements that have an area: closed ways, and relations that an area could be derived
from. -/
def HasArea (assemble : List (Option (List Point)) → List (Option (List Point)) →
    Option (γ × BBox)) (b : Base) : SetRow → Prop
  | .element .way r => isClosed r.cols.byid.refs
  | .element .relation r => (areaAt assemble (fresh b) r.id).isSome
  | _ => False

/-- Some vertex of a relation is in the box of its area. Holes can cut off all of them. -/
def Anchored (assemble : List (Option (List Point)) → List (Option (List Point)) →
    Option (γ × BBox)) (b : Base) : SetRow → Prop
  | .element .relation r => ∀ a, areaAt assemble (fresh b) r.id = some a →
      ∃ p ∈ vertices b (.element .relation r), (boxOf a.bbox).Holds p.lat p.lon
  | _ => True

/-- Two rows are of one element: type and id are the same. -/
def SameElement : SetRow → SetRow → Prop
  | .element t r, .element t' r' => t = t' ∧ r.id = r'.id
  | _, _ => False

/-- A way of a set has the columns by id that it has in the dataset, its cell apart, and its line is
known there if it is closed. -/
def WayUpToDate (b : Base) : SetRow → Prop
  | .element .way r => ∃ x, curSpatial (fresh b) .way r.id = some x ∧ x.cols.byid = r.cols.byid ∧
      (isClosed r.cols.byid.refs → x.cols.geometry.isSome)
  | _ => True

lemma element_mem_mapToArea {A : AreaTables γ} {rows : List SetRow} {t : Typ}
    {r : Row (SpatialCols t)} :
    SetRow.element t r ∈ mapToArea A rows ↔ SetRow.element t r ∈ rows ∧
      isClosedWay (.element t r) := by
  unfold mapToArea
  rw [List.mem_append, List.mem_filter]
  refine or_iff_left fun h => ?_
  obtain ⟨a, -, ha⟩ := List.mem_map.mp h
  cases ha

lemma area_mem_mapToArea (hb : Built b) (hk : CoversWays (fresh b) groups) {rows : List SetRow}
    {a : AreaRow Unit} : SetRow.area a ∈ mapToArea (buildAreas assemble f groups (fresh b)) rows ↔
      Stored assemble b (.area a) ∧ ∃ r, SetRow.element .relation r ∈ rows ∧ r.id = a.pivotId := by
  have hid : Stored assemble b (.area a) → a.id = a.pivotId + relationIdOffset := by
    rintro ⟨full, hfull, rfl⟩
    exact (areaAt_spec hfull).1.2
  unfold mapToArea
  rw [List.mem_append, List.mem_map]
  constructor
  · rintro (h | ⟨x, hx, heq⟩)
    · cases (List.mem_filter.mp h).2
    · cases heq
      obtain ⟨hindex, hany⟩ := List.mem_filter.mp hx
      have hstored := (mem_index hb hk).mp hindex
      obtain ⟨y, hy, h⟩ := List.any_eq_true.mp hany
      refine ⟨hstored, ?_⟩
      cases y with
      | area y => cases h
      | element t r =>
        cases t with
        | node => cases h
        | way => cases h
        | relation =>
          have hsum : r.id + relationIdOffset = a.id := of_decide_eq_true h
          exact ⟨r, hy, by have := hid hstored; omega⟩
  · rintro ⟨hstored, r, hr, hpivot⟩
    have hsum : r.id + relationIdOffset = a.id := by rw [hpivot, hid hstored]
    exact Or.inr ⟨a, List.mem_filter.mpr ⟨(mem_index hb hk).mpr hstored, List.any_eq_true.mpr
      ⟨_, hr, decide_eq_true hsum⟩⟩, rfl⟩

lemma pivotPredicate_way {rows : List SetRow} {r : Row WaySpatialCols} :
    pivotPredicate rows (.element .way r) ↔
    ∃ x : Row WaySpatialCols, SetRow.element .way x ∈ rows ∧ isClosed x.cols.byid.refs ∧
      x.id = r.id := by
  unfold pivotPredicate
  rw [List.any_eq_true]
  constructor
  · rintro ⟨x, hx, h⟩
    obtain ⟨hx, hclosed⟩ := List.mem_filter.mp hx
    cases x with
    | area a => cases h
    | element t x =>
      cases t with
      | node => cases h
      | relation => cases h
      | way => exact ⟨x, hx, hclosed, of_decide_eq_true h⟩
  · rintro ⟨x, hx, hclosed, hid⟩
    exact ⟨_, List.mem_filter.mpr ⟨hx, hclosed⟩, decide_eq_true hid⟩

lemma pivotPredicate_relation {rows : List SetRow} {r : Row RelationSpatialCols} :
    pivotPredicate rows (.element .relation r) ↔
      ∃ a, SetRow.area a ∈ rows ∧ r.id + relationIdOffset = a.id := by
  unfold pivotPredicate
  rw [List.any_eq_true]
  constructor
  · rintro ⟨x, hx, h⟩
    cases x with
    | element t x => cases h
    | area a => exact ⟨a, hx, of_decide_eq_true h⟩
  · rintro ⟨a, ha, hid⟩
    exact ⟨_, ha, decide_eq_true hid⟩

lemma of_mem_pivotQuery (hb : Built b) {types : List Typ} {rows : List SetRow} {x : SetRow}
    (hx : x ∈ pivotQuery G (fresh b) types rows) :
    OfType types x ∧ Stored assemble b x ∧ pivotPredicate rows x := by
  obtain ⟨hx, hpred⟩ := List.mem_filter.mp hx
  obtain ⟨ht, hstored, -⟩ := stored_of_mem_flatMap_spatialRows hb hx
  exact ⟨ht, hstored, hpred⟩

/-- The rows around the box of the set are read, so those with a vertex in the box of one of its
ways and areas are. -/
lemma mem_pivotQuery_of_vertex (hb : Built b) (hG : ShapesOk G assemble) {types : List Typ}
    {rows : List SetRow} {t : Typ} {r : Row (SpatialCols t)} (ht : t ∈ types)
    (hr : curSpatial (fresh b) t r.id = some r) (hpred : pivotPredicate rows (.element t r))
    {z : SetRow} (hz : z ∈ rows) (hkind : isAreaOrWay z) {box : BBox} (hbox : bboxOf z = some box)
    {p : Point} (hp : p ∈ vertices b (.element t r)) (hholds : (boxOf box).Holds p.lat p.lon) :
    SetRow.element t r ∈ pivotQuery G (fresh b) types rows := by
  obtain ⟨c, hc, hholds⟩ := holds_around hz hkind hbox hholds
  have hc : pivotBbox rows = some c := hc
  refine List.mem_filter.mpr ⟨List.mem_flatMap.mpr ⟨t, ht, ?_⟩, hpred⟩
  rw [hc]
  exact mem_spatialRows hb hG hr hp hholds

/-- What the predicate keeps, for the areas made of a set, are elements of the set that have one. -/
lemma of_pivotPredicate_mapToArea (hb : Built b) (hk : CoversWays (fresh b) groups)
    {rows : List SetRow} (hrows : ∀ y ∈ rows, WayUpToDate b y) {x : SetRow}
    (hx : Stored assemble b x)
    (hpred : pivotPredicate (mapToArea (buildAreas assemble f groups (fresh b)) rows) x) :
    HasArea assemble b x ∧ ∃ y ∈ rows, SameElement y x := by
  cases x with
  | area a => cases hpred
  | element t r =>
    cases t with
    | node => cases hpred
    | way =>
      have hr : curSpatial (fresh b) .way r.id = some r := hx
      obtain ⟨y, hy, hclosed, hid⟩ := pivotPredicate_way.mp hpred
      obtain ⟨hy, -⟩ := element_mem_mapToArea.mp hy
      obtain ⟨z, hz, hcols, -⟩ := hrows _ hy
      rw [hid, hr] at hz
      obtain rfl := Option.some.inj hz
      refine ⟨?_, _, hy, rfl, hid⟩
      show isClosed r.cols.byid.refs
      rwa [hcols]
    | relation =>
      obtain ⟨a, ha, hid⟩ := pivotPredicate_relation.mp hpred
      obtain ⟨⟨full, hfull, rfl⟩, y, hy, hpivot⟩ := (area_mem_mapToArea hb hk).mp ha
      have hsum := (areaAt_spec hfull).1.2
      have hindex : full.indexRow.id = full.id := rfl
      have hsame : y.id = r.id := by omega
      refine ⟨?_, _, hy, rfl, hsame⟩
      show (areaAt assemble (fresh b) r.id).isSome
      rw [← hsame, hpivot, hfull]
      rfl

/-- The row of the set has the box and the refs of the way, and the line of the way is in the
dataset. -/
lemma way_mem_pivotQuery (hb : Built b) (hG : ShapesOk G assemble) {A : AreaTables γ}
    {types : List Typ} {rows : List SetRow} {r y : Row WaySpatialCols} (ht : .way ∈ types)
    (hr : curSpatial (fresh b) .way r.id = some r) (hclosed : isClosed r.cols.byid.refs)
    (hy : SetRow.element .way y ∈ rows) (hup : WayUpToDate b (.element .way y))
    (hid : y.id = r.id) :
    SetRow.element .way r ∈ pivotQuery G (fresh b) types (mapToArea A rows) := by
  obtain ⟨z, hz, hcols, hdrawn⟩ := hup
  rw [hid, hr] at hz
  obtain rfl := Option.some.inj hz
  have hclosed : isClosed y.cols.byid.refs := hcols ▸ hclosed
  have hmem : SetRow.element .way y ∈ mapToArea A rows :=
    element_mem_mapToArea.mpr ⟨hy, hclosed⟩
  obtain ⟨line, hline⟩ := Option.isSome_iff_exists.mp (hdrawn hclosed)
  obtain ⟨hne, -⟩ := hb.wayBox r.id r hr line hline
  obtain ⟨p, hp⟩ := List.exists_mem_of_ne_nil line hne
  have hp : p ∈ vertices b (.element .way r) := by
    rw [vertices, hline]
    exact hp
  obtain ⟨box, hbox, hholds⟩ := holds_bboxOf hb hr hp
  have hbox : bboxOf (.element .way y) = some box := by
    rw [bboxOf, ← hcols]
    exact hbox
  exact mem_pivotQuery_of_vertex hb hG ht hr (pivotPredicate_way.mpr ⟨y, hmem, hclosed, hid⟩) hmem
    rfl hbox hp hholds

lemma relation_mem_pivotQuery (hb : Built b) (hG : ShapesOk G assemble)
    (hk : CoversWays (fresh b) groups) {types : List Typ} {rows : List SetRow}
    {r y : Row RelationSpatialCols} (ht : .relation ∈ types)
    (hr : curSpatial (fresh b) .relation r.id = some r)
    (hanchored : Anchored assemble b (.element .relation r))
    (harea : HasArea assemble b (.element .relation r))
    (hy : SetRow.element .relation y ∈ rows) (hid : y.id = r.id) :
    SetRow.element .relation r ∈
      pivotQuery G (fresh b) types (mapToArea (buildAreas assemble f groups (fresh b)) rows) := by
  obtain ⟨full, hfull⟩ := Option.isSome_iff_exists.mp harea
  obtain ⟨hpivot, hsum⟩ := (areaAt_spec hfull).1
  obtain ⟨p, hp, hholds⟩ := hanchored full hfull
  have hmem : SetRow.area full.indexRow ∈ mapToArea (buildAreas assemble f groups (fresh b)) rows :=
    (area_mem_mapToArea hb hk).mpr ⟨⟨full, hpivot.symm ▸ hfull, rfl⟩, y, hy,
      hid.trans hpivot.symm⟩
  exact mem_pivotQuery_of_vertex hb hG ht hr (pivotPredicate_relation.mpr ⟨_, hmem, hsum.symm⟩) hmem
    rfl rfl hp hholds

/-- **`pivot` undoes `map_to_area`.** What a pivot filter finds for the areas that `map_to_area`
makes of a set are the elements of the set, by type and id, that have an area. -/
theorem pivot_of_map_to_area (hb : Built b) (hG : ShapesOk G assemble)
    (hk : CoversWays (fresh b) groups) (types : List Typ) (rows : List SetRow)
    (hrows : ∀ y ∈ rows, WayUpToDate b y) (hanchored : ∀ y ∈ rows, ∀ x, Stored assemble b x →
      SameElement y x → Anchored assemble b x)
    (x : SetRow) :
    x ∈ pivotQuery G (fresh b) types (mapToArea (buildAreas assemble f groups (fresh b)) rows) ↔
      OfType types x ∧ Stored assemble b x ∧ HasArea assemble b x ∧
        ∃ y ∈ rows, SameElement y x := by
  constructor
  · intro hx
    obtain ⟨ht, hstored, hpred⟩ := of_mem_pivotQuery hb hx
    exact ⟨ht, hstored, of_pivotPredicate_mapToArea hb hk hrows hstored hpred⟩
  · rintro ⟨ht, hstored, harea, y, hy, hsame⟩
    cases x with
    | area a => exact ht.elim
    | element t r =>
      cases y with
      | area a => exact hsame.elim
      | element t' r' =>
        have hx : Anchored assemble b (.element t r) := hanchored _ hy _ hstored hsame
        obtain ⟨rfl, hid⟩ := hsame
        cases t' with
        | node => exact harea.elim
        | way => exact way_mem_pivotQuery hb hG ht hstored harea hy (hrows _ hy) hid
        | relation => exact relation_mem_pivotQuery hb hG hk ht hstored hx harea hy hid

/-- The hedge and the relation are found again from their areas, although the hedge was given by
id. -/
theorem pivot_of_map_to_area_garden : [.element .way hedge, .element .relation lawn] ⊆
    pivotQuery boxShapes (fresh garden.base) [.way, .relation]
      (mapToArea (buildAreas soleBox (1 / 2) gardenIndex (fresh garden.base))
        [byidRow (hedge.map (byidCols (t := .way))), .element .relation lawn]) := by
  have hrows : ∀ y ∈ [byidRow (hedge.map (byidCols (t := .way))), .element .relation lawn],
      WayUpToDate garden.base y :=
    List.forall_mem_cons.mpr ⟨⟨hedge, stored_hedge, rfl, fun _ => rfl⟩,
      List.forall_mem_singleton.mpr trivial⟩
  have hanchored : ∀ y ∈ [byidRow (hedge.map (byidCols (t := .way))), .element .relation lawn],
      ∀ x, Stored soleBox garden.base x → SameElement y x → Anchored soleBox garden.base x := by
    refine List.forall_mem_cons.mpr ⟨?_, List.forall_mem_singleton.mpr ?_⟩
    · rintro (⟨t, r⟩ | a) - hsame
      · obtain ⟨rfl, -⟩ := hsame
        trivial
      · exact hsame.elim
    · rintro (⟨t, r⟩ | a) hstored hsame
      · obtain ⟨rfl, hid⟩ := hsame
        have hlawn : curSpatial (fresh garden.base) .relation r.id = some lawn := hid ▸ stored_lawn
        obtain rfl : lawn = r := Option.some.inj (hlawn.symm.trans hstored)
        intro a ha
        obtain rfl : gardenArea = a := Option.some.inj (areaAt_garden.symm.trans ha)
        exact ⟨⟨0, 0⟩, by decide, by decide⟩
      · exact hsame.elim
  have hhedge : HasArea soleBox garden.base (.element .way hedge) :=
    (by decide : isClosed hedge.cols.byid.refs = true)
  have hlawn : HasArea soleBox garden.base (.element .relation lawn) :=
    Option.isSome_iff_exists.mpr ⟨gardenArea, areaAt_garden⟩
  refine List.cons_subset.mpr ⟨?_, List.cons_subset.mpr ⟨?_, List.nil_subset _⟩⟩
  · exact (pivot_of_map_to_area built_garden shapesOk_boxes coversWays_garden _ _ hrows
      hanchored _).mpr ⟨List.mem_cons_self, stored_hedge, hhedge, _, List.mem_cons_self, rfl, rfl⟩
  · exact (pivot_of_map_to_area built_garden shapesOk_boxes coversWays_garden _ _ hrows
      hanchored _).mpr ⟨List.mem_cons_of_mem _ List.mem_cons_self, stored_lawn, hlawn, _,
        List.mem_cons_of_mem _ List.mem_cons_self, rfl, rfl⟩

end Pivots

end OsmParquet.AreaSets
