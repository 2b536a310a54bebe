import OsmParquet.AreaLookups

/-!
Searching for areas, and by areas.

An area filter finds the elements of an area, and `is_in` the areas of an element. Both are exact
over a dataset without tiers, and so each finds what the other one would: an element passes the
filter for an area exactly if `is_in` finds the area for the element.
-/

namespace OsmParquet.AreaSearch

open OsmParquet.KeyedList OsmParquet.Rows OsmParquet.Tiers OsmParquet.TierSteps OsmParquet.ByidReads
open OsmParquet.Cells OsmParquet.CellTree OsmParquet.Updater OsmParquet.Resolves
  OsmParquet.PrevCells
open OsmParquet.SpatialReads OsmParquet.RunSteps OsmParquet.Findable OsmParquet.RelationQuery
open OsmParquet.MemberGeometry OsmParquet.Areas OsmParquet.CoveredPositions
  OsmParquet.AreaStatements
open OsmParquet.AreaLookups OsmParquet.OneCell OsmParquet.RowGroups
open OsmParquet.Recurse (Contains contains_boxAround)

variable {γ : Type} {assemble : List (Option (List Point)) → List (Option (List Point)) →
  Option (γ × BBox)}
variable {G : Shapes γ} {b : Base} {f f' : ℚ} {groups groups' : RowGroupIndex}

/-! ### The area filter -/

section Filter

lemma mem_rowsOfType {t : Typ} {rows : List SetRow} {r : Row (SpatialCols t)} :
    r ∈ rowsOfType t rows ↔ SetRow.element t r ∈ rows := by
  refine List.mem_filterMap.trans ?_
  constructor
  · rintro ⟨x, hx, heq⟩
    cases x with
    | area a => cases heq
    | element t' r' =>
      dsimp only at heq
      split_ifs at heq with ht
      subst ht
      cases heq
      exact hx
  · intro h
    refine ⟨_, h, ?_⟩
    dsimp only
    rw [dif_pos rfl]

/-- The box of polygons holds what is within one of them. -/
lemma holds_polygonsBbox {polygons : List (Polygon γ)} {g : Polygon γ} (hg : g ∈ polygons)
    (hbounds : Bounds G g.geometry g.bbox) {lat lon : ℚ} (h : G.within lat lon g.geometry) :
    ∃ box, polygonsBbox polygons = some box ∧ (boxOf box).Holds lat lon := by
  obtain ⟨c, hc, hholds⟩ := hbounds lat lon h
  obtain ⟨box, hbox, hcontains⟩ := contains_boxAround (List.mem_filterMap.mpr ⟨g, hg, hc⟩)
  exact ⟨box, hbox, holds_of_contains hcontains hholds⟩

/-- A relation that is in the table is there with its own vertices. -/
lemma any_table_eq (hb : Built b) (hk : CoversWays (fresh b) groups)
    {cands : List (Row RelationSpatialCols)}
    (hcands : ∀ r ∈ cands, curSpatial (fresh b) .relation r.id = some r)
    {r : Row RelationSpatialCols} (hr : curSpatial (fresh b) .relation r.id = some r)
    (hin : vertices b (.element .relation r) ≠ [] → r ∈ cands) {P : List Point → Bool}
    (hP : P [] = false) :
    ((relationGeometryTable (fresh b) f groups cands).any fun x => decide (x.1 = r.id) && P x.2) =
      P (vertices b (.element .relation r)) := by
  rw [Bool.eq_iff_iff, List.any_eq_true]
  constructor
  · rintro ⟨x, hx, hxP⟩
    obtain ⟨hid, hxP⟩ := Bool.and_eq_true_iff.mp hxP
    obtain ⟨r', hr', hid', -, hv⟩ := (mem_relationGeometryTable hb hk).mp hx
    have hsame : r'.id = r.id := hid'.trans (of_decide_eq_true hid)
    obtain rfl : r' = r := Option.some.inj ((hsame ▸ hcands r' hr').symm.trans hr)
    rwa [hv]
  · intro h
    have hne : vertices b (.element .relation r) ≠ [] := by
      intro hnil
      rw [hnil, hP] at h
      cases h
    have hparts : r.cols.byid.members.filterMap (memberPoints b) ≠ [] := by
      intro hnil
      exact hne (congrArg List.flatten hnil)
    refine ⟨(r.id, vertices b (.element .relation r)), (mem_relationGeometryTable hb hk).mpr
      ⟨r, hin hne, rfl, hparts, rfl⟩, ?_⟩
    rw [h]
    exact Bool.and_eq_true_iff.mpr ⟨decide_eq_true rfl, rfl⟩

lemma overlaps_none (a : Option BBox) : overlaps a none = false := by
  cases a with
  | none => rfl
  | some a => rfl

/-- **The condition of an area filter**: a vertex is within one of the polygons. -/
lemma areaPredicate_iff (hb : Built b) (hk : CoversWays (fresh b) groups)
    {polygons : List (Polygon γ)} (hbounds : ∀ g ∈ polygons, Bounds G g.geometry g.bbox)
    {base : List SetRow} (hbase : ∀ x ∈ base, Stored assemble b x ∧
      ((polygonsBbox polygons).isSome → Drawn x)) {t : Typ}
    {r : Row (SpatialCols t)} (hx : SetRow.element t r ∈ base) :
    areaPredicate G (fresh b) f groups polygons base (.element t r) ↔
      ∃ g ∈ polygons, ∃ p ∈ vertices b (.element t r), G.within p.lat p.lon g.geometry := by
  have hnone : polygonsBbox polygons = none → ∀ g ∈ polygons, g.bbox = none := by
    intro hnone g hg
    cases hc : g.bbox with
    | none => rfl
    | some c =>
      obtain ⟨box, hbox, -⟩ := contains_boxAround (List.mem_filterMap.mpr ⟨g, hg, hc⟩)
      cases hnone.symm.trans hbox
  have hwithin : polygonsBbox polygons = none →
      ∀ g ∈ polygons, ∀ lat lon, ¬ G.within lat lon g.geometry := by
    intro hn g hg lat lon h
    obtain ⟨box, hbox, -⟩ := holds_polygonsBbox hg (hbounds g hg) h
    cases hn.symm.trans hbox
  cases t with
  | node =>
    simp only [areaPredicate, nodeMatch, vertices, Option.any_eq_true, List.any_eq_true,
      Option.mem_toList]
    constructor
    · rintro ⟨p, hp, g, hg, h⟩
      exact ⟨g, hg, p, hp, h⟩
    · rintro ⟨g, hg, p, hp, h⟩
      exact ⟨p, hp, g, hg, h⟩
  | way =>
    simp only [areaPredicate, wayMatch, vertices, List.any_eq_true]
    cases hline : r.cols.geometry with
    | some line => simp only [anyVertexWithin_iff, Option.getD_some]
    | none =>
      cases hbox : polygonsBbox polygons with
      | none =>
        refine iff_of_false ?_ ?_
        · rintro ⟨g, hg, h⟩
          rw [hnone hbox g hg, overlaps_none] at h
          cases h
        · rintro ⟨g, hg, p, hp, h⟩
          exact hwithin hbox g hg _ _ h
      | some box =>
        have hdrawn : r.cols.geometry.isSome := (hbase _ hx).2 (hbox ▸ rfl)
        rw [hline] at hdrawn
        cases hdrawn
  | relation =>
    simp only [areaPredicate]
    cases hbox : polygonsBbox polygons with
    | none =>
      refine iff_of_false ?_ ?_
      · intro h
        obtain ⟨g, hg, h⟩ := List.any_eq_true.mp h
        rw [hnone hbox g hg, overlaps_none] at h
        cases h
      · rintro ⟨g, hg, p, hp, h⟩
        exact hwithin hbox g hg _ _ h
    | some box =>
      have hcands : ∀ r ∈ rowsOfType .relation base, curSpatial (fresh b) .relation r.id =
          some r := fun r hr =>
        (hbase _ (mem_rowsOfType.mp hr)).1
      have hmem := mem_rowsOfType.mpr hx
      rw [Option.map_some, relationMatch]
      rw [any_table_eq (P := fun pts => polygons.any fun g =>
        G.anyVertexWithin pts g.geometry) hb hk hcands
        (hcands r hmem) (fun _ => hmem) (List.any_eq_false.mpr fun g _ => Bool.not_eq_true _ ▸ rfl)]
      simp only [List.any_eq_true, anyVertexWithin_iff]

/-- **The area filter is exact.** A query with an area filter finds the elements of its types that
have a vertex strictly within an area that the filter names: an area of the set, or the one with the
id. Of the rows of the set only ids, refs and cells have to be those of the dataset, the cells as
text. -/
theorem area_filter_exact (hb : Built b) (hG : ShapesOk G assemble)
    (hk : CoversWays (fresh b) groups) (hk' : CoversWays (fresh b) groups') (types : List Typ)
    (ref : AreaRef) (href : ∀ x ∈ namedRows ref, UpToDate assemble b x) (x : SetRow) :
    x ∈ areaFilterQuery G (fresh b) (buildAreas assemble f groups (fresh b)) f' groups' types ref ↔
      OfType types x ∧ Stored assemble b x ∧ ∃ a, Names assemble b ref a ∧
        Inside assemble G b x a := by
  unfold areaFilterQuery
  dsimp only
  set polygons := areaPolygonTable G (fresh b) (buildAreas assemble f groups (fresh b))
    ref with hpolygons
  have hnamed : ∀ g ∈ polygons, (∃ a, Names assemble b ref a ∧
      shapeOf assemble G b a = some g.geometry) ∧
      Bounds G g.geometry g.bbox := fun g hg => named_of_mem_polygons hb hG hk href hg
  have hbase : ∀ x ∈ types.flatMap (spatialRows G (fresh b) ((polygonsBbox polygons).map boxOf)),
      Stored assemble b x ∧ ((polygonsBbox polygons).isSome → Drawn x) := by
    intro x hx
    obtain ⟨-, hstored, hdrawn⟩ := stored_of_mem_flatMap_spatialRows hb hx
    exact ⟨hstored, fun h => hdrawn (by rwa [Option.isSome_map])⟩
  constructor
  · intro hx
    split_ifs at hx
    · cases hx
    obtain ⟨hx, hpred⟩ := List.mem_filter.mp hx
    obtain ⟨ht, hstored, -⟩ := stored_of_mem_flatMap_spatialRows hb hx
    cases x with
    | area a => exact ht.elim
    | element t r =>
      obtain ⟨g, hg, p, hp, h⟩ := (areaPredicate_iff hb hk' (fun g hg => (hnamed g hg).2)
        hbase hx).mp hpred
      obtain ⟨⟨a, ha, hshape⟩, -⟩ := hnamed g hg
      exact ⟨ht, hstored, a, ha, g.geometry, hshape, p, hp, h⟩
  · rintro ⟨ht, hstored, a, ha, shape, hshape, p, hp, h⟩
    cases x with
    | area a => exact ht.elim
    | element t r =>
      obtain ⟨g, hg, rfl⟩ := exists_polygon hb hk href ha hshape
      obtain ⟨box, hbox, hholds⟩ := holds_polygonsBbox hg (hnamed g hg).2 h
      have hmem : SetRow.element t r ∈ types.flatMap
          (spatialRows G (fresh b) ((polygonsBbox polygons).map boxOf)) := by
        refine List.mem_flatMap.mpr ⟨t, ht, ?_⟩
        rw [hbox]
        exact mem_spatialRows hb hG hstored hp hholds
      rw [if_neg (List.ne_nil_of_mem hg)]
      exact List.mem_filter.mpr ⟨hmem, (areaPredicate_iff hb hk' (fun g hg => (hnamed g hg).2)
        hbase hmem).mpr ⟨g, hg, p, hp, h⟩⟩

end Filter

/-! ### is_in -/

section IsIn

/-- A property that an area has at a position: it is within the shape, and the query is there
too. -/
def FoundAt (G : Shapes γ) (b : Base) (q : Box) (g : γ) : Prop :=
  ∃ p : Point, (InWorld p ∧ Covered b.leafCells p) ∧ q.Holds p.lat p.lon ∧ G.within p.lat p.lon g

/-- The cell of an area is read for a covered position within it. -/
lemma mem_areaCells (hb : Built b) (hG : ShapesOk G assemble)
    (hk : CoversWays (fresh b) groups) {i : ℤ}
    {a : AreaRow γ} (ha : areaAt assemble (fresh b) i = some a) {q : Box}
    (h : FoundAt G b q a.geometry) :
    a.cell ∈ areaCellsForBbox (fresh b) (buildAreas assemble f groups (fresh b)) q := by
  obtain ⟨p, ⟨hw, leaf, hleaf, hpre⟩, hq, hwithin⟩ := h
  obtain ⟨box, hsome, hholds⟩ := bounds_area hG ha _ _ hwithin
  obtain rfl := Option.some.inj hsome
  have hbox : (cellBBox leaf).Holds p.lat p.lon := holds_of_prefix hw hpre
  have hmeets : bboxIntersects q (cellBBox leaf) := intersects_of_holds hq hbox
  have habove : a.cell ∈ allowedAncestors b.ancestorDepths leaf := by
    rw [(areaAt_spec ha).2.1]
    exact mem_allowedAncestors hb.laid.leaves hb.laid.depth hb.laid.root hholds hleaf hpre
  have hcells : a.cell ∈ (buildAreas assemble f groups (fresh b)).cells.map AreaCell.cell := by
    have hplaced := (mem_placed (f := f) hb hk).mpr ((areaAt_spec ha).1.1.symm ▸ ha)
    refine List.mem_map.mpr ⟨_, List.mem_map.mpr ⟨a.cell, ?_, rfl⟩, rfl⟩
    exact List.mem_dedup.mpr (List.mem_map_of_mem hplaced)
  refine List.mem_dedup.mpr (List.mem_filter.mpr ⟨List.mem_flatMap.mpr ⟨leaf, ?_, habove⟩,
    decide_eq_true hcells⟩)
  exact List.mem_filter.mpr ⟨hleaf, hmeets⟩

/-- **What `is_in` finds**: the areas whose shape has the property, if they have it at some covered
position. -/
lemma mem_isInRows (hb : Built b) (hG : ShapesOk G assemble)
    (hk : CoversWays (fresh b) groups) {q : Box}
    {holds : γ → Option BBox → Bool} {P : γ → Prop} (hP : ∀ g bbox, holds g bbox ↔ P g)
    (hfound : ∀ g, P g → FoundAt G b q g) {y : SetRow} :
    y ∈ isInRows G (fresh b) (buildAreas assemble f groups (fresh b)) q holds ↔
      Stored assemble b y ∧ ∃ g, shapeOf assemble G b y = some g ∧ P g := by
  unfold isInRows
  rw [List.mem_append, List.mem_map, List.mem_map]
  constructor
  · rintro (⟨a, ha, rfl⟩ | ⟨r, hr, rfl⟩)
    · obtain ⟨hfile, hholds⟩ := List.mem_filter.mp ha
      have harea := ((mem_areaFiles hb hk).mp hfile).2
      exact ⟨⟨a, harea, rfl⟩, a.geometry, shapeOf_area harea, (hP _ _).mp hholds⟩
    · obtain ⟨hfile, hholds⟩ := List.mem_filter.mp hr
      obtain ⟨hfile, hclosed⟩ := List.mem_filter.mp hfile
      obtain ⟨hclosed, hlen⟩ := Bool.and_eq_true_iff.mp hclosed
      have hcur := ((mem_wayFiles hb).mp hfile).1
      rw [hb.closed _ _ hcur] at hclosed
      cases hline : r.cols.geometry with
      | none =>
        rw [hline] at hlen
        cases hlen
      | some line =>
        rw [hline] at hlen hholds
        exact ⟨hcur, G.wayPolygon line, shapeOf_way.mpr ⟨hclosed, line, hline,
          of_decide_eq_true hlen, rfl⟩, (hP _ _).mp hholds⟩
  · rintro ⟨hstored, g, hshape, hg⟩
    rcases shapeOf_cases hshape with ⟨r, rfl⟩ | ⟨x, rfl⟩
    · obtain ⟨hclosed, line, hline, hlen, rfl⟩ := shapeOf_way.mp hshape
      have hcur : curSpatial (fresh b) .way r.id = some r := hstored
      obtain ⟨p, ⟨hw, hcov⟩, hq, hwithin⟩ := hfound _ hg
      have htouch : Touches (t := .way) p r.cols := bounds_way hb hG hcur hline _ _ hwithin
      have hin := inCells_of_covered (s := fresh b) hb.agrees hb.laid
        (allPlaced_fresh hb.laid) hcur hw htouch hcov hq
      refine Or.inr ⟨r,
        List.mem_filter.mpr ⟨List.mem_filter.mpr ⟨(mem_wayFiles hb).mpr ⟨hcur, hin⟩, ?_⟩, ?_⟩, rfl⟩
      · rw [hb.closed _ _ hcur, hclosed, hline]
        exact decide_eq_true hlen
      · rw [hline]
        exact (hP _ _).mpr hg
    · obtain ⟨full, hfull, rfl⟩ := hstored
      rw [shapeOf_area hfull] at hshape
      obtain rfl := Option.some.inj hshape
      have hcell := mem_areaCells (f := f) hb hG hk hfull (hfound _ hg)
      have hpivot : full.pivotId = full.indexRow.pivotId := rfl
      exact Or.inl ⟨full, List.mem_filter.mpr ⟨(mem_areaFiles hb hk).mpr ⟨hcell, hpivot ▸ hfull⟩,
        (hP _ _).mpr hg⟩, rfl⟩

/-- A vertex of a row is in its box. -/
lemma holds_bboxOf (hb : Built b) {t : Typ} {r : Row (SpatialCols t)}
    (hr : curSpatial (fresh b) t r.id = some r) {p : Point} (hp : p ∈ vertices b (.element t r)) :
    ∃ box, bboxOf (.element t r) = some box ∧ (boxOf box).Holds p.lat p.lon := by
  have htouch := touches_of_vertex hb hr hp
  cases t with
  | node =>
    have hcoord : r.cols.coord = some p := htouch
    refine ⟨BBox.ofPoint p, ?_, ⟨le_rfl, le_rfl, le_rfl, le_rfl⟩⟩
    rw [bboxOf, hcoord]
    rfl
  | way => exact htouch
  | relation => exact htouch

/-- The boxes of the rows of a kind lie in the box around them. -/
lemma holds_around {rows : List SetRow} {kind : SetRow → Bool} {x : SetRow} (hx : x ∈ rows)
    (hkind : kind x) {box : BBox} (hbox : bboxOf x = some box) {lat lon : ℚ}
    (h : (boxOf box).Holds lat lon) :
    ∃ c, boxAround ((rows.filter kind).filterMap bboxOf) = some c ∧ (boxOf c).Holds lat lon := by
  have hmem : x ∈ rows.filter kind := List.mem_filter.mpr ⟨hx, hkind⟩
  obtain ⟨c, hc, hcontains⟩ := contains_boxAround (List.mem_filterMap.mpr ⟨_, hmem, hbox⟩)
  exact ⟨c, hc, holds_of_contains hcontains h⟩

/-- The candidates among relations: those around the relations of the set. -/
lemma any_candidates_eq (hb : Built b) (hG : ShapesOk G assemble) (hk : CoversWays (fresh b) groups)
    {rows : List SetRow} {r : Row RelationSpatialCols} (hx : SetRow.element .relation r ∈ rows)
    (hr : curSpatial (fresh b) .relation r.id = some r) {P : List Point → Bool}
    (hP : P [] = false) :
    (((boxAround ((rowsOfType .relation rows).filterMap fun r => r.cols.byid.bbox)).map fun c =>
        relationGeometryTable (fresh b) f groups
          (relationSpatialSelect G.meetsBox (fresh b) (fun _ => true) (some (boxOf c)))).getD []).any
        (fun x => decide (x.1 = r.id) && P x.2) = P (vertices b (.element .relation r)) := by
  have haround : ∀ p ∈ vertices b (.element .relation r), ∃ c,
      boxAround ((rowsOfType .relation rows).filterMap fun r => r.cols.byid.bbox) = some c ∧
        (boxOf c).Holds p.lat p.lon := by
    intro p hp
    obtain ⟨box, hbox, hholds⟩ := hb.relationBox _ r hr p hp
    have hmem : box ∈ (rowsOfType .relation rows).filterMap fun r => r.cols.byid.bbox :=
      List.mem_filterMap.mpr ⟨r, mem_rowsOfType.mpr hx, hbox⟩
    obtain ⟨c, hc, hcontains⟩ := contains_boxAround hmem
    exact ⟨c, hc, holds_of_contains hcontains hholds⟩
  cases hbox : boxAround ((rowsOfType .relation rows).filterMap fun r => r.cols.byid.bbox) with
  | none =>
    have hnil : vertices b (.element .relation r) = [] := by
      refine List.eq_nil_iff_forall_not_mem.mpr fun p hp => ?_
      obtain ⟨c, hc, -⟩ := haround p hp
      cases hbox.symm.trans hc
    rw [hnil, hP]
    rfl
  | some c =>
    rw [Option.map_some, Option.getD_some]
    refine any_table_eq hb hk (fun r' hr' => ?_) hr (fun hne => ?_) hP
    · have hmem : SetRow.element .relation r' ∈
          spatialRows G (fresh b) (some (boxOf c)) .relation :=
        List.mem_map_of_mem hr'
      obtain ⟨x, heq, hcur, -⟩ := stored_of_mem_spatialRows hb hmem
      cases heq
      exact hcur
    · obtain ⟨p, hp⟩ := List.exists_mem_of_ne_nil _ hne
      obtain ⟨c', hc', hholds⟩ := haround p hp
      obtain rfl := Option.some.inj (hbox.symm.trans hc')
      obtain ⟨x, hx, heq⟩ := List.mem_map.mp (mem_spatialRows hb hG hr hp hholds)
      cases heq
      exact hx

/-- **A row of a set is in a polygon** if one of its vertices is. -/
lemma isInMatch_iff (hb : Built b) (hG : ShapesOk G assemble) (hk : CoversWays (fresh b) groups)
    {rows : List SetRow} {x : SetRow} (hx : x ∈ rows) (hstored : Stored assemble b x)
    (hdrawn : Drawn x) {g : γ} {bbox : Option BBox} :
    isInMatch G
      ((boxAround ((rowsOfType .relation rows).filterMap fun r => r.cols.byid.bbox)).map fun c =>
        relationGeometryTable (fresh b) f groups
          (relationSpatialSelect G.meetsBox (fresh b) (fun _ => true) (some (boxOf c)))) g bbox x ↔
      ∃ p ∈ vertices b x, G.within p.lat p.lon g := by
  cases x with
  | area a => exact iff_of_false Bool.false_ne_true fun ⟨_, hp, _⟩ => List.not_mem_nil hp
  | element t r =>
    cases t with
    | node => simp only [isInMatch, vertices, Option.any_eq_true, Option.mem_toList]
    | way =>
      obtain ⟨line, hline⟩ := Option.isSome_iff_exists.mp hdrawn
      simp only [isInMatch, vertices, hline, Option.getD_some, anyVertexWithin_iff]
    | relation =>
      rw [isInMatch, any_candidates_eq (P := fun pts => G.anyVertexWithin pts g) hb hG hk
        hx hstored rfl]
      exact anyVertexWithin_iff

/-- A row with a vertex is an element, and its box is in the one around the elements of the set. -/
lemma around_of_vertex (hb : Built b) {rows : List SetRow} {x : SetRow} (hx : x ∈ rows)
    (hstored : Stored assemble b x) {p : Point} (hp : p ∈ vertices b x) :
    (InWorld p ∧ Covered b.leafCells p) ∧
      ∃ c, boxAround ((rows.filter isElement).filterMap bboxOf) = some c ∧
        (boxOf c).Holds p.lat p.lon := by
  cases x with
  | area a => cases hp
  | element t r =>
    obtain ⟨box, hbox, hholds⟩ := holds_bboxOf hb hstored hp
    exact ⟨hb.covered t r.id r hstored p hp, holds_around hx rfl hbox hholds⟩

/-- **`is_in` is exact.** For a set of elements as they are now, `is_in` finds the areas that one of
them has a vertex strictly within. -/
theorem is_in_exact (hb : Built b) (hG : ShapesOk G assemble) (hk : CoversWays (fresh b) groups)
    (hk' : CoversWays (fresh b) groups') (rows : List SetRow)
    (hrows : ∀ x ∈ rows, Stored assemble b x ∧ Drawn x) (y : SetRow) :
    y ∈ isInSet G (fresh b) (buildAreas assemble f groups (fresh b)) f' groups' rows ↔
      Stored assemble b y ∧ ∃ x ∈ rows, Inside assemble G b x y := by
  have haround : ∀ x ∈ rows, ∀ p ∈ vertices b x, (InWorld p ∧ Covered b.leafCells p) ∧
      ∃ c, boxAround ((rows.filter isElement).filterMap bboxOf) = some c ∧
        (boxOf c).Holds p.lat p.lon := fun x hx p hp => around_of_vertex hb hx (hrows x hx).1 hp
  unfold isInSet
  cases hbox : boxAround ((rows.filter isElement).filterMap bboxOf) with
  | none =>
    refine iff_of_false (fun h => List.not_mem_nil h) ?_
    rintro ⟨-, x, hx, g, -, p, hp, -⟩
    obtain ⟨-, c, hc, -⟩ := haround x hx p hp
    cases hbox.symm.trans hc
  | some c =>
    dsimp only
    rw [mem_isInRows (P := fun g => ∃ x ∈ rows, ∃ p ∈
      vertices b x, G.within p.lat p.lon g) hb hG hk]
    · refine and_congr_right fun _ => ?_
      constructor
      · rintro ⟨g, hg, x, hx, p, hp, h⟩
        exact ⟨x, hx, g, hg, p, hp, h⟩
      · rintro ⟨x, hx, g, hg, p, hp, h⟩
        exact ⟨g, hg, x, hx, p, hp, h⟩
    · intro g bbox
      rw [List.any_eq_true]
      exact exists_congr fun x => and_congr_right fun hx =>
        isInMatch_iff hb hG hk' hx (hrows x hx).1 (hrows x hx).2
    · rintro g ⟨x, hx, p, hp, h⟩
      obtain ⟨hcov, c', hc', hholds⟩ := haround x hx p hp
      obtain rfl := Option.some.inj (hbox.symm.trans hc')
      exact ⟨p, hcov, hholds, h⟩

/-- **`is_in` for a position.** Where a leaf covers it, `is_in` finds the areas that it is strictly
within. -/
theorem is_in_point_exact (hb : Built b) (hG : ShapesOk G assemble)
    (hk : CoversWays (fresh b) groups) {p : Point}
    (hw : InWorld p) (hcov : Covered b.leafCells p) (y : SetRow) :
    y ∈ isInPoint G (fresh b) (buildAreas assemble f groups (fresh b)) p.lat p.lon ↔
      Stored assemble b y ∧ ∃ g, shapeOf assemble G b y = some g ∧ G.within p.lat p.lon g :=
  mem_isInRows (P := fun g => G.within p.lat p.lon g) hb hG hk (fun _ _ => Iff.rfl) fun _ h =>
    ⟨p, ⟨hw, hcov⟩, ⟨le_rfl, le_rfl, le_rfl, le_rfl⟩, h⟩

end IsIn

/-! ### A bench in a garden -/

section Garden

def gardenRing : List Point := [⟨0, 0⟩, ⟨0, 100⟩, ⟨100, 100⟩, ⟨100, 0⟩, ⟨0, 0⟩]

def bench : Row NodeCols := node 5 ⟨50, 50⟩

def hedge : Row WaySpatialCols := way 6 [1, 2, 3, 4, 1] gardenRing

def lawn : Row RelationSpatialCols :=
  { relation 7 [⟨.way, 6, "outer"⟩] (wayBBox gardenRing) with
    cols.byid.attrs.tags := some [("name", "Garden"), ("type", "multipolygon")] }

/-- A garden with its hedge around it, and a bench. -/
def garden : World where
  rows
    | .node => [node 1 ⟨0, 0⟩, node 2 ⟨0, 100⟩, node 3 ⟨100, 100⟩, node 4 ⟨100, 0⟩, bench]
    | .way => [hedge]
    | .relation => [lawn]
  once t := by cases t <;> simp [Distinct, node, bench, hedge, way, lawn, relation]
  placed t := by cases t <;> simp [node, bench, hedge, way, lawn, relation]
  refs := by simp [hedge, way]

/-- The index of its files, each with one row group. -/
def gardenIndex : RowGroupIndex := wayRowGroups (fun rows => [rows]) garden.base

/-- Polygons whose sides follow the axes are given by their boxes. -/
def boxShapes : Shapes (Option BBox) where
  polygon := wayBBox
  covers g lat lon := g.any fun b => decide ((boxOf b).Holds lat lon)
  onBorder g lat lon := g.any fun b =>
    decide ((boxOf b).Holds lat lon) && decide
      (lat = b.ymin ∨ lat = b.ymax ∨ lon = b.xmin ∨ lon = b.xmax)
  meetsBox line q := line.any fun p => decide (q.Holds p.lat p.lon)

def soleBox (outer inner : List (Option (List Point))) : Option (Option BBox × BBox) :=
  (soleRing outer inner).map fun x => (some x.2, x.2)

lemma shapesOk_boxes : ShapesOk boxShapes soleBox := by
  have hcovers : ∀ {g : Option BBox} {lat lon : ℚ}, boxShapes.within lat lon g →
      ∃ box, g = some box ∧ (boxOf box).Holds lat lon := fun h => by
    obtain ⟨hcovers, -⟩ := Bool.and_eq_true_iff.mp h
    obtain ⟨box, hbox, hholds⟩ := (Option.any_eq_true _ _).mp hcovers
    exact ⟨box, hbox, of_decide_eq_true hholds⟩
  refine ⟨fun ring lat lon h => hcovers h, fun outer inner g box hsole lat lon h => ?_,
    fun line q p hp h => ?_⟩
  · obtain ⟨x, -, heq⟩ := Option.map_eq_some_iff.mp hsole
    cases heq
    obtain ⟨c, hc, hholds⟩ := hcovers h
    cases hc
    exact hholds
  · exact List.any_eq_true.mpr ⟨p, hp, decide_eq_true h⟩

lemma built_garden : Built garden.base := by
  have hrows : ∀ {t : Typ} {i : ℤ} {r : Row (SpatialCols t)},
      curSpatial (fresh garden.base) t i = some r →
      r ∈ garden.rows t := fun hr => mem_of_curSpatial garden hr
  have hclosed : ∀ r ∈ garden.rows .way, r.cols.byid.isClosed =
      isClosed r.cols.byid.refs := by decide
  have hline : ∀ r ∈ garden.rows .way, ∀ line ∈ r.cols.geometry, line ≠ [] ∧
      r.cols.byid.bbox = wayBBox line := by
    decide
  have hrelation : ∀ r ∈ garden.rows .relation, ∀ p ∈ vertices garden.base (.element .relation r),
      ∃ box ∈ r.cols.byid.bbox, (boxOf box).Holds p.lat p.lon := by
    decide
  have hworld : ∀ t, ∀ r ∈ garden.rows t, ∀ p ∈ vertices garden.base (.element t r), InWorld p := by
    intro t
    cases t <;> decide
  have hplaced : ∀ t, ∀ r ∈ garden.rows t, r.cell = some (cellFor garden.base r.cols) := by
    intro t
    cases t <;> decide
  have hleaves : LeavesOk garden.base.leafCells garden.base.maxDepth := by
    refine ⟨fun a ha c hc _ => ?_, by decide, by decide⟩
    exact (List.mem_singleton.mp ha).trans (List.mem_singleton.mp hc).symm
  refine ⟨baseAgrees garden, ⟨hleaves, by decide, by decide, fun t r hr => ?_⟩,
    fun i r hr => hline r (hrows hr), fun i r hr => hclosed r (hrows hr),
      fun i r hr => hrelation r (hrows hr), fun t i r hr p hp => ?_⟩
  · rw [rows_spatial] at hr
    exact hplaced t r hr
  · exact ⟨hworld t r (hrows hr) p hp, [], List.mem_singleton_self _, List.nil_prefix⟩

/-- The area of the garden. -/
def gardenArea : AreaRow (Option BBox) :=
  placeArea garden.base 7 { plain with tags := some [("name", "Garden"), ("type", "multipolygon")] }
    ⟨0, 0, 100, 100⟩ (some ⟨0, 0, 100, 100⟩)

lemma areaAt_garden : areaAt soleBox (fresh garden.base) 7 = some gardenArea := rfl

lemma within_middle : boxShapes.within ((50 : ℤ) : ℚ) ((50 : ℤ) : ℚ)
    (some ⟨0, 0, 100, 100⟩) := by decide

lemma inside_garden : Inside soleBox boxShapes garden.base (.element .node bench)
    (.area gardenArea.indexRow) :=
  ⟨gardenArea.geometry, shapeOf_area areaAt_garden,
    ⟨50, 50⟩, List.mem_singleton_self _, within_middle⟩

lemma inside_hedge : Inside soleBox boxShapes garden.base (.element .node bench)
    (.element .way hedge) :=
  ⟨some ⟨0, 0, 100, 100⟩, rfl, ⟨50, 50⟩, List.mem_singleton_self _, within_middle⟩

lemma stored_bench : Stored soleBox garden.base (.element .node bench) := by
  show curSpatial (fresh garden.base) .node 5 = some bench
  rfl

lemma stored_hedge : Stored soleBox garden.base (.element .way hedge) := by
  show curSpatial (fresh garden.base) .way 6 = some hedge
  rfl

lemma stored_lawn : Stored soleBox garden.base (.element .relation lawn) := by
  show curSpatial (fresh garden.base) .relation 7 = some lawn
  rfl

lemma stored_gardenArea : Stored soleBox garden.base (.area gardenArea.indexRow) :=
  ⟨gardenArea, areaAt_garden, rfl⟩

lemma coversWays_garden : CoversWays (fresh garden.base) gardenIndex :=
  coversWays_wayRowGroups (baseAgrees garden .way).cells fun _ => List.flatten_singleton

/-- The filter for the garden by its id finds the bench, and so does the one for a set with the
hedge as it is by id. -/
theorem area_filter_garden :
    SetRow.element .node bench ∈ areaFilterQuery boxShapes (fresh garden.base)
      (buildAreas soleBox (1 / 2) gardenIndex (fresh garden.base)) (1 / 2) gardenIndex [.node]
      (.id 3600000007) ∧
    SetRow.element .node bench ∈ areaFilterQuery boxShapes (fresh garden.base)
      (buildAreas soleBox (1 / 2) gardenIndex (fresh garden.base)) (1 / 2) gardenIndex [.node]
      (.set [.element .way 6 (some (.text [])) [1, 2, 3, 4, 1]]) := by
  have hhedge : UpToDate soleBox garden.base (.element .way 6 (some (.text [])) [1, 2, 3, 4, 1]) :=
    ⟨hedge, stored_hedge, rfl, rfl⟩
  constructor
  · refine (area_filter_exact built_garden shapesOk_boxes coversWays_garden
      coversWays_garden [.node] _ (List.forall_mem_nil _) _).mpr ⟨List.mem_singleton_self _,
        stored_bench, _, ⟨stored_gardenArea, ?_⟩, inside_garden⟩
    exact ⟨rfl, by decide⟩
  · exact (area_filter_exact built_garden shapesOk_boxes coversWays_garden coversWays_garden
      [.node] (.set _) (List.forall_mem_singleton.mpr hhedge) _).mpr ⟨List.mem_singleton_self _,
        stored_bench, _, ⟨stored_hedge, _, List.mem_singleton_self _, rfl, rfl⟩, inside_hedge⟩

/-- The bench is in the garden and within the hedge. -/
theorem is_in_garden : [.area gardenArea.indexRow, .element .way hedge] ⊆
    isInSet boxShapes (fresh garden.base) (buildAreas soleBox (1 / 2) gardenIndex
      (fresh garden.base)) (1 / 2) gardenIndex [.element .node bench] := by
  have hrows : ∀ x ∈ [SetRow.element .node bench], Stored soleBox garden.base x ∧ Drawn x := by
    intro x hx
    obtain rfl := List.mem_singleton.mp hx
    exact ⟨stored_bench, trivial⟩
  refine List.cons_subset.mpr ⟨?_, List.cons_subset.mpr ⟨?_, List.nil_subset _⟩⟩
  · exact (is_in_exact built_garden shapesOk_boxes coversWays_garden coversWays_garden
      _ hrows _).mpr ⟨stored_gardenArea, _, List.mem_singleton_self _, inside_garden⟩
  · exact (is_in_exact built_garden shapesOk_boxes coversWays_garden coversWays_garden
      _ hrows _).mpr ⟨stored_hedge, _, List.mem_singleton_self _, inside_hedge⟩

/-- So is the middle of the garden. -/
theorem is_in_point_garden : SetRow.area gardenArea.indexRow ∈
    isInPoint boxShapes (fresh garden.base) (buildAreas soleBox (1 / 2) gardenIndex
      (fresh garden.base)) 50 50 :=
  (is_in_point_exact (p := ⟨50, 50⟩) built_garden shapesOk_boxes coversWays_garden (by decide)
    ⟨[], List.mem_singleton_self _, List.nil_prefix⟩ _).mpr
      ⟨stored_gardenArea, _, shapeOf_area areaAt_garden, within_middle⟩

end Garden

end OsmParquet.AreaSearch
