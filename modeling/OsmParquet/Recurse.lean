import OsmParquet.RelationBoxes
import OsmParquet.RelationQuery

/-!
Backward recursion: from elements to the ways and relations they are part of.

The ways of some nodes are found in the way files of the cells around the nodes, or, when those
would be too many, in the index of the base and among the rows of the tiers. Relations are always
found in the index of the base and in the tiers. What is found is then fetched by id, and nobody
asks again whether it still has the element it was found by: a way or relation that has dropped a
node or a member in a tier is still in the index of the base.
-/

namespace OsmParquet.Recurse

open OsmParquet.KeyedList OsmParquet.Layers OsmParquet.Rows OsmParquet.Tiers OsmParquet.TierSteps
open OsmParquet.ByidReads OsmParquet.CellTree OsmParquet.Updater OsmParquet.Resolves
open OsmParquet.PrevCells OsmParquet.SpatialReads OsmParquet.RunSteps OsmParquet.OneCell
open OsmParquet.Findable OsmParquet.RelationQuery OsmParquet.WayGeometry OsmParquet.RelationBoxes

/-! ### One hop -/

/-- An element of a set. Only nodes have a position. -/
structure Elem where
  type : Typ
  id : ℤ
  coord : Option Point

/-- An element that a hop finds, with the cell if it is known. -/
structure Hop where
  type : Typ
  id : ℤ
  cell : Option Cell

def idsOf (t : Typ) (src : List Elem) : List ℤ := (src.filter fun e => e.type = t).map Elem.id

/-- The box around the nodes of a set. -/
def bboxFromPoints (src : List Elem) : Option BBox :=
  boxAround ((src.filter fun e => e.type = .node).filterMap fun e => e.coord.map BBox.ofPoint)

/-- The ways of the cells around a box that have one of the nodes; nothing when the cells are
none, or more than a fraction of all leaves. -/
def wayBboxSemijoin (s : Root) (maxCellFraction : ℚ) (nodeIds : List ℤ) (b : BBox) :
    Option (List (Row WaySpatialCols)) :=
  let cells := cellsForBbox (catalogOf s) .way (some (boxOf b))
  if cells = [] ∨ maxCellFraction * (max s.base.leafCells.length 1 : ℕ) < cells.length then none
  else
    let cand := currentRows (t := .way) s.deltas cells
      (filesOf (s.base.spatial .way) cells) fun r =>
      meets (boxOf b) r.cols.byid.bbox
    some (cand.filter fun r => r.cols.byid.refs.any fun n => decide (n ∈ nodeIds))

/-- The ways of the tiers that have one of the nodes. -/
def deltaWayIdsByRef (s : Root) (nodeIds : List ℤ) : List ℤ := deltaParentWays s nodeIds

def roleOk (role : Option String) (r : String) : Bool := role.all fun x => decide (x = r)

/-- The relations of the tiers that have a member of type `t` among `ids`. -/
def deltaRelationIdsByMember (s : Root) (t : Typ) (ids : List ℤ) (role : Option String) :
    List Hop :=
  ((s.alive .relation).filter fun r => r.cols.members.any fun m =>
    decide (m.type = t ∧ m.ref ∈ ids) && roleOk role m.role).map fun r => ⟨.relation, r.id, r.cell⟩

/-- The ways a hop finds from nodes. -/
def backwardWays (s : Root) (src : List Elem) (maxCellFraction : ℚ) : List Hop :=
  match (bboxFromPoints src).bind (wayBboxSemijoin s maxCellFraction (idsOf .node src)) with
  | some rows => rows.map fun r => ⟨.way, r.id, r.cell⟩
  | none => (baseParentWays s (idsOf .node src) ++ deltaWayIdsByRef s (idsOf .node src)).map
      fun i => ⟨.way, i, none⟩

/-- The relations a hop finds from elements of the types `restrict`. -/
def backwardRelations (s : Root) (src : List Elem) (restrict : List Typ) (role : Option String) :
    List Hop :=
  (s.base.member.filter fun x => decide (x.memberType ∈ restrict ∧
      x.memberId ∈ idsOf x.memberType src) && roleOk role x.role).map
    (fun x => ⟨.relation, x.parentId, x.parentCell⟩) ++
  ([.node, .way, .relation].filter fun t => t ∈ restrict).flatMap fun t =>
    deltaRelationIdsByMember s t (idsOf t src) role

/-- One hop back. -/
def backwardNewIds (s : Root) (src : List Elem) (restrict : List Typ) (role : Option String)
    (maxCellFraction : ℚ) : List Hop :=
  (if .node ∈ restrict then backwardWays s src maxCellFraction else []) ++
    backwardRelations s src restrict role

/-! ### Fetching what a hop found -/

/-- The cells that hops know of and that there are files of. -/
def neededCells (s : Root) (t : Typ) (hops : List Hop) : List Cell :=
  (hops.filterMap Hop.cell).dedup.filter fun c => c ∈ (catalogOf s).tableCells t

/-- The rows of ways or relations, from the files of the cells that are known, and by id for what
is not found there. -/
def spatialHydrateViaCell (s : Root) (t : Typ) (tagWhere : ByidCols t → Bool) (hops : List Hop) :
    List ℤ :=
  let needed := neededCells s t hops
  let ids := (hops.filter fun h => h.cell.isSome).map Hop.id
  let found := (currentRows s.deltas needed (filesOf (s.base.spatial t) needed) fun r =>
    decide (r.id ∈ ids) && tagWhere (byidCols r.cols)).map Row.id
  let remainder := (hops.filter fun h => h.cell.isNone || decide (h.id ∉ found)).map Hop.id
  found ++ (buildByidSelect (s.base.byid t) s.deltas remainder tagWhere).map Row.id

/-- The elements of one type among those a hop found. Nodes are fetched by id. -/
def hydrateType (s : Root) (tagWhere : {t : Typ} → ByidCols t → Bool) (hops : List Hop) :
    Typ → List ℤ
  | .node => (buildByidSelect (s.base.byid .node) s.deltas (hops.map Hop.id) tagWhere).map Row.id
  | .way => spatialHydrateViaCell s .way tagWhere hops
  | .relation => spatialHydrateViaCell s .relation tagWhere hops

/-- The elements of the types `only` among those a hop found that pass the tag filters. -/
def hydrateIds (s : Root) (tagWhere : {t : Typ} → ByidCols t → Bool) (hops : List Hop)
    (only : List Typ) : List (Typ × ℤ) :=
  ([.node, .way, .relation].filter fun t => t ∈ only).flatMap fun t =>
    (hydrateType s tagWhere (hops.filter fun h => h.type = t) t).map fun i => (t, i)

/-- The filters by nodes, ways or relations: `kind` is the type of the elements asked for. -/
def recurseFilter (s : Root) (src : List Elem) (kind : Typ) (role : Option String)
    (types : List Typ) (maxCellFraction : ℚ) : List (Typ × ℤ) :=
  hydrateIds s (fun _ => true) (backwardNewIds s src [kind] role maxCellFraction) types

/-- All parents: one hop from the set, and one more from the ways that it finds. -/
def backwardOneHop (s : Root) (src : List Elem) (maxCellFraction : ℚ) : List (Typ × ℤ) :=
  let hops := backwardNewIds s src [.node, .way, .relation] none maxCellFraction
  let extra := backwardNewIds s (hops.map fun h => ⟨h.type, h.id, none⟩) [.way] none maxCellFraction
  hydrateIds s (fun _ => true) (hops ++ extra) [.node, .way, .relation]

/-! ### What should be found -/

/-- A way that exists and has one of the nodes. -/
def HasRef (s : Root) (nodeIds : List ℤ) (i : ℤ) : Prop :=
  ∃ r, cur s .way i = some r ∧ ∃ n ∈ r.cols.refs, n ∈ nodeIds

/-- A relation that exists and has a member of type `t` among `ids`, in the role if one is given. -/
def HasMember (s : Root) (t : Typ) (ids : List ℤ) (role : Option String) (i : ℤ) : Prop :=
  ∃ r, cur s .relation i = some r ∧ ∃ m ∈ r.cols.members, m.type = t ∧ m.ref ∈ ids ∧
    roleOk role m.role

instance (s : Root) (nodeIds : List ℤ) (i : ℤ) : Decidable (HasRef s nodeIds i) :=
  match h : cur s .way i with
  | none => isFalse fun ⟨r, hr, _⟩ => by rw [h] at hr; cases hr
  | some r => decidable_of_iff (∃ n ∈ r.cols.refs, n ∈ nodeIds)
      ⟨fun hn => ⟨r, h, hn⟩, fun ⟨r', hr', hn⟩ => by rw [h] at hr'; cases hr'; exact hn⟩

instance (s : Root) (t : Typ) (ids : List ℤ) (role : Option String) (i : ℤ) :
    Decidable (HasMember s t ids role i) :=
  match h : cur s .relation i with
  | none => isFalse fun ⟨r, hr, _⟩ => by rw [h] at hr; cases hr
  | some r => decidable_of_iff (∃ m ∈ r.cols.members, m.type = t ∧ m.ref ∈ ids ∧ roleOk role m.role)
      ⟨fun hn => ⟨r, h, hn⟩, fun ⟨r', hr', hn⟩ => by rw [h] at hr'; cases hr'; exact hn⟩

/-! ### Fetching -/

section Hydrate

variable {s : Root} {t : Typ} {hops : List Hop} {i : ℤ}

/-- Fetching by id finds what exists and passes the tag filters. -/
lemma mem_byidSelect (hg : Good s.deltas) {ids : List ℤ} {tagWhere : ByidCols t → Bool} :
    i ∈ (buildByidSelect (s.base.byid t) s.deltas ids tagWhere).map Row.id ↔
      i ∈ ids ∧ ∃ r, cur s t i = some r ∧ tagWhere r.cols = true := by
  have h : lookup Row.id i (buildByidSelect (s.base.byid t) s.deltas ids tagWhere) =
      if i ∈ ids then (cur s t i).filter fun r => tagWhere r.cols else none :=
    byId_buildByidSelect _ hg ids _ i
  rw [← lookup_isSome, h]
  by_cases hi : i ∈ ids
  · rw [if_pos hi, Option.isSome_iff_exists]
    simp only [Option.filter_eq_some_iff, hi, true_and]
  · simp [hi]

/-- Of what a hop found everything that exists and passes the tag filters is fetched, wherever it is
looked for, and besides only what an older tier has in one of the cells. -/
lemma mem_spatialHydrate (hg : Good s.deltas) (hm : TiersRemember s) (ha : BaseAgrees s.base)
    {tagWhere : ByidCols t → Bool} :
    i ∈ spatialHydrateViaCell s t tagWhere hops ↔ i ∈ hops.map Hop.id ∧
      ((∃ r, cur s t i = some r ∧ tagWhere r.cols = true) ∨ (∃ h ∈ hops, h.id = i ∧ h.cell.isSome) ∧
        ∃ r, StaleRow s t (neededCells s t hops) i r ∧ tagWhere (byidCols r.cols) = true) := by
  unfold spatialHydrateViaCell
  simp only
  set ids := (hops.filter fun h => h.cell.isSome).map Hop.id with hids
  set found := (currentRows s.deltas (neededCells s t hops)
    (filesOf (s.base.spatial t) (neededCells s t hops)) fun r =>
      decide (r.id ∈ ids) && tagWhere (byidCols r.cols)).map Row.id with hfound
  have hnd : (neededCells s t hops).Nodup := (List.nodup_dedup _).filter _
  have hmem : ∀ {i}, i ∈ ids ↔ ∃ h ∈ hops, h.id = i ∧ h.cell.isSome := by
    intro i
    simp only [hids, List.mem_map, List.mem_filter, and_right_comm, and_assoc]
  have hin : i ∈ found → i ∈ hops.map Hop.id ∧ ((∃ r, cur s t i = some r ∧ tagWhere r.cols = true) ∨
      (∃ h ∈ hops, h.id = i ∧ h.cell.isSome) ∧
        ∃ r, StaleRow s t (neededCells s t hops) i r ∧ tagWhere (byidCols r.cols) = true) := by
    intro h
    obtain ⟨r, hr, rfl⟩ := List.mem_map.mp h
    obtain ⟨hrow, htest⟩ := (mem_currentRows_stale hg hm ha hnd).mp hr
    obtain ⟨hid, htags⟩ := Bool.and_eq_true_iff.mp htest
    have hhop := hmem.mp (of_decide_eq_true hid)
    have ⟨h, hh, hid, _⟩ := hhop
    refine ⟨List.mem_map.mpr ⟨h, hh, hid⟩, ?_⟩
    rcases hrow with ⟨hr, -⟩ | hr
    · refine .inl ⟨r.map byidCols, ?_, htags⟩
      rw [cur_eq_curSpatial ha, hr]
      rfl
    · exact .inr ⟨hhop, r, hr, htags⟩
  have hstale : (∃ h ∈ hops, h.id = i ∧ h.cell.isSome) →
      (∃ r, StaleRow s t (neededCells s t hops) i r ∧ tagWhere (byidCols r.cols) = true) →
        i ∈ found := by
    rintro hhop ⟨r, hr, htags⟩
    obtain rfl := hr.id_eq
    exact List.mem_map.mpr ⟨r, (mem_currentRows_stale hg hm ha hnd).mpr
      ⟨.inr hr, Bool.and_eq_true_iff.mpr ⟨decide_eq_true (hmem.mpr hhop), htags⟩⟩, rfl⟩
  rw [List.mem_append, mem_byidSelect hg]
  constructor
  · rintro (h | ⟨h, hex⟩)
    · exact hin h
    · obtain ⟨x, hx', hid⟩ := List.mem_map.mp h
      exact ⟨List.mem_map.mpr ⟨x, (List.mem_filter.mp hx').1, hid⟩, .inl hex⟩
  · rintro ⟨h, hex | ⟨hhop, hrow⟩⟩
    · by_cases hf : i ∈ found
      · exact .inl hf
      · obtain ⟨x, hx', hid⟩ := List.mem_map.mp h
        refine .inr ⟨List.mem_map.mpr ⟨x, List.mem_filter.mpr ⟨hx', ?_⟩, hid⟩, hex⟩
        rw [hid]
        simp [hf]
    · exact .inl (hstale hhop hrow)

/-- What an older tier has of an element in the cells that hops to its type know. No file of nodes
is read. -/
def StaleHop (s : Root) (tagWhere : {t : Typ} → ByidCols t → Bool) (hops : List Hop)
    (t : Typ) (i : ℤ) : Prop :=
  t ≠ .node ∧ (∃ h ∈ hops, h.type = t ∧ h.id = i ∧ h.cell.isSome) ∧
    ∃ r, StaleRow s t (neededCells s t (hops.filter fun h => h.type = t)) i r ∧
      tagWhere (byidCols r.cols) = true

/-- The same for all types. -/
lemma mem_hydrateIds_stale (hg : Good s.deltas) (hm : TiersRemember s) (ha : BaseAgrees s.base)
    {tagWhere : {t : Typ} → ByidCols t → Bool} {only : List Typ} :
    (t, i) ∈ hydrateIds s tagWhere hops only ↔ t ∈ only ∧ (∃ h ∈ hops, h.type = t ∧ h.id = i) ∧
      ((∃ r, cur s t i = some r ∧ tagWhere r.cols = true) ∨ StaleHop s tagWhere hops t i) := by
  have hmine : i ∈ (hops.filter fun h => h.type = t).map Hop.id ↔ ∃ h ∈ hops, h.type = t ∧
      h.id = i := by
    simp only [List.mem_map, List.mem_filter, decide_eq_true_eq, and_assoc]
  have hknown : (∃ h ∈ hops.filter fun h => h.type = t, h.id = i ∧ h.cell.isSome) ↔
      ∃ h ∈ hops, h.type = t ∧ h.id = i ∧ h.cell.isSome := by
    simp only [List.mem_filter, decide_eq_true_eq, and_assoc]
  have hall : t ∈ [Typ.node, .way, .relation] := by cases t <;> simp
  have hone : (t, i) ∈ hydrateIds s tagWhere hops only ↔
      t ∈ only ∧ i ∈ hydrateType s tagWhere (hops.filter fun h => h.type = t) t := by
    unfold hydrateIds
    constructor
    · intro h
      obtain ⟨t', ht', hp⟩ := List.mem_flatMap.mp h
      obtain ⟨i', hi', he⟩ := List.mem_map.mp hp
      cases he
      exact ⟨of_decide_eq_true (List.mem_filter.mp ht').2, hi'⟩
    · rintro ⟨honly, hi⟩
      exact List.mem_flatMap.mpr ⟨t, List.mem_filter.mpr ⟨hall, decide_eq_true honly⟩,
        List.mem_map.mpr ⟨i, hi, rfl⟩⟩
  rw [hone, ← hmine, StaleHop, ← hknown]
  refine and_congr_right fun _ => ?_
  cases t with
  | node =>
    rw [or_iff_left fun h => h.1 rfl]
    exact mem_byidSelect hg
  | way =>
    rw [and_iff_right (by decide : Typ.way ≠ .node)]
    exact mem_spatialHydrate hg hm ha
  | relation =>
    rw [and_iff_right (by decide : Typ.relation ≠ .node)]
    exact mem_spatialHydrate hg hm ha

lemma not_staleHop (hg : Good s.deltas) (hm : TiersRemember s) (ha : BaseAgrees s.base)
    {tagWhere : {t : Typ} → ByidCols t → Bool}
    (hx : t ≠ .node → ∀ i, ¬ Exposed (tierRows s.deltas t i)) : ¬ StaleHop s tagWhere hops t i := by
  rintro ⟨ht, -, r, hr, -⟩
  exact not_staleRow hg hm ha (hx ht) ((List.nodup_dedup _).filter _) hr

/-- **Of what a hop found exactly what exists is fetched** where no tier row is exposed. -/
lemma mem_hydrateIds (hg : Good s.deltas) (hm : TiersRemember s) (ha : BaseAgrees s.base)
    (hw : ∀ i, ¬ Exposed (tierRows s.deltas .way i))
    (hr : ∀ i, ¬ Exposed (tierRows s.deltas .relation i)) {only : List Typ} :
    (t, i) ∈ hydrateIds s (fun _ => true) hops only ↔
      t ∈ only ∧ (∃ h ∈ hops, h.type = t ∧ h.id = i) ∧ (cur s t i).isSome := by
  have hx : t ≠ .node → ∀ i, ¬ Exposed (tierRows s.deltas t i) := by
    intro ht
    cases t with
    | node => exact absurd rfl ht
    | way => exact hw
    | relation => exact hr
  rw [mem_hydrateIds_stale hg hm ha, or_iff_left (not_staleHop hg hm ha hx),
    Option.isSome_iff_exists]
  simp only [and_true]

end Hydrate

/-! ### Boxes around nodes -/

/-- A box that has another one in it. -/
def Contains (a b : BBox) : Prop :=
  a.ymin ≤ b.ymin ∧ a.xmin ≤ b.xmin ∧ b.ymax ≤ a.ymax ∧ b.xmax ≤ a.xmax

lemma contains_foldl (b : BBox) (bs : List BBox) : Contains (bs.foldl BBox.union b) b ∧
    ∀ x ∈ bs, Contains (bs.foldl BBox.union b) x := by
  induction bs generalizing b with
  | nil => exact ⟨⟨le_rfl, le_rfl, le_rfl, le_rfl⟩, by simp⟩
  | cons a bs ih =>
    obtain ⟨⟨h1, h2, h3, h4⟩, hrest⟩ := ih (BBox.union b a)
    simp only [BBox.union, le_min_iff, max_le_iff] at h1 h2 h3 h4
    refine ⟨⟨h1.1, h2.1, h3.1, h4.1⟩, fun x hx => ?_⟩
    rcases List.mem_cons.mp hx with rfl | hx
    · exact ⟨h1.2, h2.2, h3.2, h4.2⟩
    · exact hrest x hx

lemma contains_boxAround {bs : List BBox} {x : BBox} (hx : x ∈ bs) :
    ∃ b, boxAround bs = some b ∧ Contains b x := by
  rcases bs with _ | ⟨a, bs⟩
  · cases hx
  obtain ⟨h1, h2⟩ := contains_foldl a bs
  refine ⟨_, rfl, ?_⟩
  rcases List.mem_cons.mp hx with rfl | hx
  · exact h1
  · exact h2 x hx

lemma toE7_intCast (n : ℤ) : toE7 n = n := by
  simp [toE7]

/-- Two boxes around one point meet. -/
lemma meets_of_point {a b : BBox} {p : Point} (ha : Contains a (BBox.ofPoint p))
    (hb : Contains b (BBox.ofPoint p)) : meets (boxOf a) (some b) := by
  obtain ⟨a1, a2, a3, a4⟩ := ha
  obtain ⟨b1, b2, b3, b4⟩ := hb
  simp only [BBox.ofPoint] at a1 a2 a3 a4 b1 b2 b3 b4
  simp only [meets, boxOf, Option.any_some, toE7_intCast, Bool.and_eq_true, decide_eq_true_eq]
  omega

/-! ### What a hop finds -/

/-- The base's index gives a way for one of the nodes. -/
def IndexWay (s : Root) (nodeIds : List ℤ) (i : ℤ) : Prop :=
  ∃ p ∈ s.base.nodeWay, ∃ n ∈ nodeIds, (n, i) ∈ p.rows

/-- The nodes of a set as they are now, each with a position. -/
def NodesCurrent (s : Root) (src : List Elem) : Prop :=
  ∀ e ∈ src, e.type = .node → e.coord = curCoord s e.id ∧ e.coord.isSome

/-- The cells around the nodes include those of all ways that have one of them. -/
def WaysReached (s : Root) (src : List Elem) : Prop :=
  ∀ b, bboxFromPoints src = some b → ∀ i r, curSpatial s .way i = some r →
    (∃ n ∈ r.cols.byid.refs, n ∈ idsOf .node src) →
      inCells (cellsForBbox (catalogOf s) .way (some (boxOf b))) r.cell

/-- No row of a way or relation in an older tier is exposed. -/
def NoneExposed (s : Root) : Prop :=
  (∀ i, ¬ Exposed (tierRows s.deltas .way i)) ∧ ∀ i, ¬ Exposed (tierRows s.deltas .relation i)

/-- What the runs keep of a base the builder made, as far as it is needed here. -/
structure Kept (s : Root) : Prop where
  good : Good s.deltas
  remember : TiersRemember s
  agrees : BaseAgrees s.base
  nodeWay : NodeWayCovers s.base
  member : MemberCovers s.base
  ways : WaysCurrent s

section Ways

variable {s : Root} {src : List Elem} {f : ℚ} {i : ℤ}

lemma mem_wayBboxSemijoin (hk : Kept s) (hx : NoneExposed s) {b : BBox} {ids : List ℤ}
    {rows : List (Row WaySpatialCols)} (h : wayBboxSemijoin s f ids b = some rows)
    {r : Row WaySpatialCols} : r ∈ rows ↔ (curSpatial s .way r.id = some r ∧
      inCells (cellsForBbox (catalogOf s) .way (some (boxOf b))) r.cell ∧
        meets (boxOf b) r.cols.byid.bbox) ∧ ∃ n ∈ r.cols.byid.refs, n ∈ ids := by
  unfold wayBboxSemijoin at h
  simp only at h
  split at h
  · cases h
  · cases h
    rw [List.mem_filter, mem_currentRows hk.good hk.remember hk.agrees hx.1
      (nodup_cellsForBbox _ _ _)]
    simp only [List.any_eq_true, decide_eq_true_eq]

/-- A way with a node of the set has its box around the node. -/
lemma meets_of_ref (hk : Kept s) (hsrc : NodesCurrent s src) {r : Row WaySpatialCols}
    (hr : curSpatial s .way i = some r) {n : ℤ} (hn : n ∈ r.cols.byid.refs)
    (hin : n ∈ idsOf .node src) {b : BBox} (hb : bboxFromPoints src = some b) :
    meets (boxOf b) r.cols.byid.bbox := by
  obtain ⟨e, he, hid⟩ := List.mem_map.mp hin
  obtain ⟨hes, het⟩ := List.mem_filter.mp he
  obtain ⟨hcoord, hsome⟩ := hsrc e hes (of_decide_eq_true het)
  obtain ⟨p, hp⟩ := Option.isSome_iff_exists.mp hsome
  have hpt : p ∈ curPts s r.cols.byid.refs :=
    List.mem_filterMap.mpr ⟨n, hn, by rw [← hid, ← hcoord, hp]⟩
  obtain ⟨bb, hbb, hc1⟩ := contains_boxAround (List.mem_map_of_mem (f := BBox.ofPoint) hpt)
  have hset : BBox.ofPoint p ∈ (src.filter fun e => e.type = .node).filterMap fun e =>
      e.coord.map BBox.ofPoint := List.mem_filterMap.mpr ⟨e, he, by rw [hp]; rfl⟩
  obtain ⟨b', hb', hc2⟩ := contains_boxAround hset
  have hbeq : b' = b := Option.some.inj (hb'.symm.trans hb)
  rw [(hk.ways i r hr).bbox, wayBBox, hbb]
  exact meets_of_point (hbeq ▸ hc2) hc1

/-- **Every way that has a node of the set is found**, on either path. -/
lemma hop_of_hasRef (hk : Kept s) (hx : NoneExposed s) (hsrc : NodesCurrent s src)
    (hreach : WaysReached s src) (h : HasRef s (idsOf .node src) i) :
    ∃ h ∈ backwardWays s src f, h.type = .way ∧ h.id = i := by
  obtain ⟨rb, hcur, n, hn, hin⟩ := h
  unfold backwardWays
  split
  · rename_i rows hrows
    obtain ⟨b, hb, hjoin⟩ := Option.bind_eq_some_iff.mp hrows
    rw [cur_eq_curSpatial hk.agrees] at hcur
    obtain ⟨r, hr, rfl⟩ := Option.map_eq_some_iff.mp hcur
    have hid : r.id = i := id_of_curSpatial hr
    have hmem : r ∈ rows := (mem_wayBboxSemijoin hk hx hjoin).mpr
      ⟨⟨by rw [hid]; exact hr, hreach b hb i r hr ⟨n, hn, hin⟩, meets_of_ref hk hsrc hr hn hin hb⟩,
        n, hn, hin⟩
    exact ⟨_, List.mem_map_of_mem hmem, rfl, hid⟩
  · have hp : i ∈ baseParentWays s (idsOf .node src) ++ deltaParentWays s (idsOf .node src) :=
      mem_parentWays hk.good hk.nodeWay hcur hn hin
    exact ⟨_, List.mem_map_of_mem hp, rfl, rfl⟩

lemma indexWay_of_mem {ids : List ℤ} (h : i ∈ baseParentWays s ids) : IndexWay s ids i := by
  unfold baseParentWays at h
  split at h
  · obtain ⟨p, hp, hpi⟩ := List.mem_filterMap.mp h
    obtain ⟨part, hpart, hrow⟩ := List.mem_flatMap.mp hp
    split at hpi
    · rename_i hmem
      cases hpi
      exact ⟨part, (List.mem_filter.mp hpart).1, p.1, hmem, hrow⟩
    · cases hpi
  · cases h

/-- What is found as a way has a node of the set, or the index of the base says so. -/
lemma hasRef_of_hop (hk : Kept s) (hx : NoneExposed s) {x : Hop} (h : x ∈ backwardWays s src f) :
    x.type = .way ∧ (HasRef s (idsOf .node src) x.id ∨ IndexWay s (idsOf .node src) x.id) := by
  unfold backwardWays at h
  split at h
  · rename_i rows hrows
    obtain ⟨b, -, hjoin⟩ := Option.bind_eq_some_iff.mp hrows
    obtain ⟨r, hr, rfl⟩ := List.mem_map.mp h
    obtain ⟨⟨hcur, -⟩, n, hn, hin⟩ := (mem_wayBboxSemijoin hk hx hjoin).mp hr
    refine ⟨rfl, Or.inl ⟨r.map byidCols, ?_, n, hn, hin⟩⟩
    rw [cur_eq_curSpatial hk.agrees]
    exact congrArg (Option.map (Row.map byidCols)) hcur
  · obtain ⟨j, hj, rfl⟩ := List.mem_map.mp h
    refine ⟨rfl, ?_⟩
    rcases List.mem_append.mp hj with hb | hd
    · exact Or.inr (indexWay_of_mem hb)
    · obtain ⟨r, hr, rfl⟩ := List.mem_map.mp hd
      obtain ⟨hal, hany⟩ := List.mem_filter.mp hr
      obtain ⟨n, hn, hin⟩ := List.any_eq_true.mp hany
      exact Or.inl ⟨r, cur_of_mem_alive hk.good hal, n, hn, of_decide_eq_true hin⟩

end Ways

section Relations

variable {s : Root} {src : List Elem} {restrict : List Typ} {role : Option String} {i : ℤ}

/-- The base's index gives a relation for a member of the set. -/
def IndexRelation (s : Root) (src : List Elem) (restrict : List Typ) (role : Option String)
    (i : ℤ) : Prop :=
  ∃ x ∈ s.base.member, x.parentId = i ∧ x.memberType ∈ restrict ∧
    x.memberId ∈ idsOf x.memberType src ∧ roleOk role x.role

/-- **Every relation that has a member of the set is found.** -/
lemma hop_of_hasMember (restrict : List Typ) (hk : Kept s) {t : Typ} (ht : t ∈ restrict)
    (h : HasMember s t (idsOf t src) role i) :
    ∃ h ∈ backwardRelations s src restrict role, h.type = .relation ∧ h.id = i := by
  obtain ⟨r, hcur, m, hm, rfl, hin, hrole⟩ := h
  have hid : r.id = i := id_of_cur hk.good hcur
  unfold backwardRelations
  rcases cur_cases hk.good hcur with ha | hb
  · refine ⟨⟨.relation, r.id, r.cell⟩, List.mem_append_right _ (List.mem_flatMap.mpr
      ⟨m.type, List.mem_filter.mpr ⟨by cases m.type <;> simp, decide_eq_true ht⟩, ?_⟩), rfl, hid⟩
    refine List.mem_map.mpr ⟨r, List.mem_filter.mpr ⟨ha, ?_⟩, rfl⟩
    exact List.any_eq_true.mpr ⟨m, hm, by simp [hin, hrole]⟩
  · have hrow := hk.member r hb m hm
    refine ⟨_, List.mem_append_left _ (List.mem_map.mpr ⟨_, List.mem_filter.mpr ⟨hrow, ?_⟩, rfl⟩),
      rfl, hid⟩
    simp [ht, hin, hrole]

/-- What is found as a relation has a member of the set, or the index of the base says so. -/
lemma hasMember_of_hop (hk : Kept s) {x : Hop} (h : x ∈ backwardRelations s src restrict role) :
    x.type = .relation ∧ ((∃ t ∈ restrict, HasMember s t (idsOf t src) role x.id) ∨
      IndexRelation s src restrict role x.id) := by
  unfold backwardRelations at h
  rcases List.mem_append.mp h with h | h
  · obtain ⟨y, hy, rfl⟩ := List.mem_map.mp h
    obtain ⟨hmem, hp⟩ := List.mem_filter.mp hy
    obtain ⟨h1, h2⟩ := Bool.and_eq_true_iff.mp hp
    exact ⟨rfl, Or.inr ⟨y, hmem, rfl, (of_decide_eq_true h1).1, (of_decide_eq_true h1).2, h2⟩⟩
  · obtain ⟨t, ht, h⟩ := List.mem_flatMap.mp h
    obtain ⟨r, hr, rfl⟩ := List.mem_map.mp h
    obtain ⟨hal, hany⟩ := List.mem_filter.mp hr
    obtain ⟨m, hm, hp⟩ := List.any_eq_true.mp hany
    obtain ⟨h1, h2⟩ := Bool.and_eq_true_iff.mp hp
    obtain ⟨h3, h4⟩ := of_decide_eq_true h1
    exact ⟨rfl, Or.inl ⟨t, of_decide_eq_true (List.mem_filter.mp ht).2, r,
      cur_of_mem_alive hk.good hal, m, hm, h3, h4, h2⟩⟩

end Relations

/-! ### The filters and the full hop -/

/-- Of the ways the base's index gives for the nodes those that exist still have one of them. -/
def WaysFresh (s : Root) (nodeIds : List ℤ) : Prop :=
  ∀ i, IndexWay s nodeIds i → (cur s .way i).isSome → HasRef s nodeIds i

/-- Of the relations the base's index gives for the set those that exist still have a member of
it, in the role if one is given. -/
def RelationsFresh (s : Root) (src : List Elem) (restrict : List Typ) (role : Option String) :
    Prop :=
  ∀ i, IndexRelation s src restrict role i → (cur s .relation i).isSome →
    ∃ t ∈ restrict, HasMember s t (idsOf t src) role i

/-- The same for both steps of the full hop: from the set, and from the ways that are found. A way
that does not exist any more is no member of a relation that does. -/
structure AllFresh (s : Root) (src : List Elem) : Prop where
  ways : WaysFresh s (idsOf .node src)
  relations : RelationsFresh s src [.node, .way, .relation] none
  second : ∀ x ∈ s.base.member, x.memberType = .way →
    (HasRef s (idsOf .node src) x.memberId ∨ IndexWay s (idsOf .node src) x.memberId) →
      (cur s .relation x.parentId).isSome →
        ∃ w, HasRef s (idsOf .node src) w ∧ HasMember s .way [w] none x.parentId
  gone : ∀ w, IndexWay s (idsOf .node src) w → cur s .way w = none →
    ∀ i, ¬ HasMember s .way [w] none i

section Exact

variable {s : Root} {src : List Elem} {f : ℚ} {t : Typ} {i : ℤ}

lemma isSome_of_hasMember {ids : List ℤ} {role : Option String} (h : HasMember s t ids role i) :
    (cur s .relation i).isSome := by
  obtain ⟨r, hr, -⟩ := h
  exact Option.isSome_of_eq_some hr

lemma isSome_of_hasRef {ids : List ℤ} (h : HasRef s ids i) : (cur s .way i).isSome := by
  obtain ⟨r, hr, -⟩ := h
  exact Option.isSome_of_eq_some hr

/-- **Of what exists a hop leads to the current parents** where the index is fresh. -/
lemma exists_hop_iff (hk : Kept s) (hx : NoneExposed s) {kind : Typ} {role : Option String}
    (hnodes : kind = .node → NodesCurrent s src ∧ WaysReached s src ∧ WaysFresh s (idsOf .node src))
    (hrels : RelationsFresh s src [kind] role) (hex : (cur s t i).isSome) :
    (∃ h ∈ backwardNewIds s src [kind] role f, h.type = t ∧ h.id = i) ↔
      t = .way ∧ kind = .node ∧ HasRef s (idsOf .node src) i ∨
        t = .relation ∧ HasMember s kind (idsOf kind src) role i := by
  constructor
  · rintro ⟨x, hmem, rfl, rfl⟩
    unfold backwardNewIds at hmem
    rcases List.mem_append.mp hmem with h | h
    · split at h
      · rename_i hkind
        have hkind : kind = .node := (List.mem_singleton.mp hkind).symm
        obtain ⟨hty, hr⟩ := hasRef_of_hop hk hx h
        rw [hty] at hex
        exact Or.inl ⟨hty, hkind, hr.elim id fun hi => (hnodes hkind).2.2 _ hi hex⟩
      · cases h
    · obtain ⟨hty, hr⟩ := hasMember_of_hop hk h
      rw [hty] at hex
      obtain ⟨t, ht, hm⟩ := hr.elim id fun hi => hrels _ hi hex
      rw [List.mem_singleton.mp ht] at hm
      exact Or.inr ⟨hty, hm⟩
  · rintro (⟨rfl, rfl, h⟩ | ⟨rfl, h⟩)
    · obtain ⟨hsrc, hreach, -⟩ := hnodes rfl
      obtain ⟨x, hx', hty, hid⟩ := hop_of_hasRef (f := f) hk hx hsrc hreach h
      exact ⟨x, List.mem_append_left _ (by simpa using hx'), hty, hid⟩
    · obtain ⟨x, hx', hty, hid⟩ := hop_of_hasMember [kind] hk (by simp) h
      exact ⟨x, List.mem_append_right _ hx', hty, hid⟩

/-- **The filters give the current parents** where the index is fresh. -/
lemma mem_recurseFilter (hk : Kept s) (hx : NoneExposed s) (hsrc : NodesCurrent s src)
    (hreach : WaysReached s src) {kind : Typ} {role : Option String} {types : List Typ}
    (hways : kind = .node → WaysFresh s (idsOf .node src))
    (hrels : RelationsFresh s src [kind] role) :
    (t, i) ∈ recurseFilter s src kind role types f ↔ t ∈ types ∧
      (t = .way ∧ kind = .node ∧ HasRef s (idsOf .node src) i ∨
        t = .relation ∧ HasMember s kind (idsOf kind src) role i) := by
  unfold recurseFilter
  rw [mem_hydrateIds hk.good hk.remember hk.agrees hx.1 hx.2]
  have hhop : (cur s t i).isSome → _ :=
    exists_hop_iff (f := f) hk hx (fun h => ⟨hsrc, hreach, hways h⟩) hrels
  refine and_congr_right fun _ => ⟨fun ⟨h, hex⟩ => (hhop hex).mp h, fun h => ?_⟩
  have hex : (cur s t i).isSome := by
    rcases h with ⟨rfl, -, h⟩ | ⟨rfl, h⟩
    · exact isSome_of_hasRef h
    · exact isSome_of_hasMember h
  exact ⟨(hhop hex).mpr h, hex⟩

/-- The ways a full hop goes on from. -/
lemma mem_idsOf_hops (hk : Kept s) (hx : NoneExposed s) {w : ℤ}
    (h : w ∈ idsOf .way ((backwardNewIds s src [.node, .way, .relation] none f).map
      fun h => ⟨h.type, h.id, none⟩)) :
    HasRef s (idsOf .node src) w ∨ IndexWay s (idsOf .node src) w := by
  obtain ⟨e, he, rfl⟩ := List.mem_map.mp h
  obtain ⟨he, hty⟩ := List.mem_filter.mp he
  obtain ⟨x, hmem, rfl⟩ := List.mem_map.mp he
  have hty : x.type = .way := of_decide_eq_true hty
  unfold backwardNewIds at hmem
  rcases List.mem_append.mp hmem with h | h
  · exact (hasRef_of_hop hk hx (by simpa using h)).2
  · have hrel := (hasMember_of_hop hk h).1
    rw [hty] at hrel
    cases hrel

/-- What is found from a way that was found: the way has a node of the set, or it is gone. -/
lemma hasRef_of_second_hop (hk : Kept s) (hx : NoneExposed s) (hfresh : AllFresh s src) {x : Hop}
    (h : x ∈ backwardNewIds s ((backwardNewIds s src [.node, .way, .relation] none f).map
      fun h => ⟨h.type, h.id, none⟩) [.way] none f) (hex : (cur s x.type x.id).isSome) :
    x.type = .relation ∧ ∃ w, HasRef s (idsOf .node src) w ∧ HasMember s .way [w] none x.id := by
  rw [backwardNewIds, List.mem_append] at h
  rcases h with h | h
  · simp at h
  obtain ⟨hty, hr⟩ := hasMember_of_hop hk h
  rw [hty] at hex
  refine ⟨hty, ?_⟩
  rcases hr with ⟨k, hkm, hm⟩ | ⟨y, hy, hyp, hyt, hyid, -⟩
  · rw [List.mem_singleton.mp hkm] at hm
    obtain ⟨r, hcur, m, hm, hmt, hin, hrole⟩ := hm
    have hone : HasMember s .way [m.ref] none x.id := ⟨r, hcur, m, hm, hmt, by simp, hrole⟩
    rcases mem_idsOf_hops hk hx hin with hw | hw
    · exact ⟨m.ref, hw, hone⟩
    · rcases hc : cur s .way m.ref with _ | r'
      · exact absurd hone (hfresh.gone _ hw hc _)
      · exact ⟨m.ref, hfresh.ways _ hw (Option.isSome_of_eq_some hc), hone⟩
  · have hyt := List.mem_singleton.mp hyt
    rw [hyt] at hyid
    rw [← hyp] at hex ⊢
    exact hfresh.second y hy hyt (mem_idsOf_hops hk hx hyid) hex

/-- The relations of a way that has a node of the set are found from it. -/
lemma second_hop_of_hasRef (hk : Kept s) (hx : NoneExposed s) (hsrc : NodesCurrent s src)
    (hreach : WaysReached s src) {w : ℤ} (hw : HasRef s (idsOf .node src) w)
    (h : HasMember s .way [w] none i) :
    ∃ x ∈ backwardNewIds s ((backwardNewIds s src [.node, .way, .relation] none f).map
      fun h => ⟨h.type, h.id, none⟩) [.way] none f, x.type = .relation ∧ x.id = i := by
  obtain ⟨y, hy, hyty, hyid⟩ := hop_of_hasRef (f := f) hk hx hsrc hreach hw
  have hwin : w ∈ idsOf .way ((backwardNewIds s src [.node, .way, .relation] none f).map
      fun h => (⟨h.type, h.id, none⟩ : Elem)) := by
    refine List.mem_map.mpr ⟨⟨y.type, y.id, none⟩, List.mem_filter.mpr ⟨?_, by simp [hyty]⟩, hyid⟩
    exact List.mem_map.mpr ⟨y, List.mem_append_left _ (by simpa using hy), rfl⟩
  obtain ⟨r, hcur, m, hm, hmt, hmr, hrole⟩ := h
  have hmem :
      HasMember s .way (idsOf .way ((backwardNewIds s src [.node, .way, .relation] none f).map
      fun h => (⟨h.type, h.id, none⟩ : Elem))) none i :=
    ⟨r, hcur, m, hm, hmt, by rw [List.mem_singleton.mp hmr]; exact hwin, hrole⟩
  obtain ⟨x, hx', hty, hid⟩ := hop_of_hasMember [.way] hk (by simp) hmem
  exact ⟨x, List.mem_append_right _ hx', hty, hid⟩

/-- **The full hop gives the current parents, and the relations of the ways among them.** -/
lemma mem_backwardOneHop (hk : Kept s) (hx : NoneExposed s) (hsrc : NodesCurrent s src)
    (hreach : WaysReached s src) (hfresh : AllFresh s src) :
    (t, i) ∈ backwardOneHop s src f ↔ t = .way ∧ HasRef s (idsOf .node src) i ∨
      t = .relation ∧ ((∃ k, HasMember s k (idsOf k src) none i) ∨
        ∃ w, HasRef s (idsOf .node src) w ∧ HasMember s .way [w] none i) := by
  have hall : ∀ k : Typ, k ∈ [Typ.node, .way, .relation] := by intro k; cases k <;> simp
  unfold backwardOneHop
  simp only
  rw [mem_hydrateIds hk.good hk.remember hk.agrees hx.1 hx.2]
  constructor
  · rintro ⟨-, ⟨x, hmem, rfl, rfl⟩, hex⟩
    rcases List.mem_append.mp hmem with h | h
    · rcases List.mem_append.mp h with h | h
      · obtain ⟨hty, hr⟩ := hasRef_of_hop hk hx (by simpa using h)
        rw [hty] at hex
        exact Or.inl ⟨hty, hr.elim id fun hi => hfresh.ways _ hi hex⟩
      · obtain ⟨hty, hr⟩ := hasMember_of_hop hk h
        rw [hty] at hex
        obtain ⟨k, -, hm⟩ := hr.elim id fun hi => hfresh.relations _ hi hex
        exact Or.inr ⟨hty, Or.inl ⟨k, hm⟩⟩
    · obtain ⟨hty, hw⟩ := hasRef_of_second_hop hk hx hfresh h hex
      exact Or.inr ⟨hty, Or.inr hw⟩
  · rintro (⟨rfl, h⟩ | ⟨rfl, ⟨k, h⟩ | ⟨w, hw, h⟩⟩)
    · obtain ⟨x, hx', hty, hid⟩ := hop_of_hasRef (f := f) hk hx hsrc hreach h
      exact ⟨by simp, ⟨x, List.mem_append_left _ (List.mem_append_left _ (by simpa using hx')), hty,
        hid⟩, isSome_of_hasRef h⟩
    · obtain ⟨x, hx', hty, hid⟩ := hop_of_hasMember _ hk (hall k) h
      exact ⟨by simp, ⟨x, List.mem_append_left _ (List.mem_append_right _ hx'), hty, hid⟩,
        isSome_of_hasMember h⟩
    · obtain ⟨x, hx', hty, hid⟩ := second_hop_of_hasRef (f := f) hk hx hsrc hreach hw h
      exact ⟨by simp, ⟨x, List.mem_append_right _ hx', hty, hid⟩, isSome_of_hasMember h⟩

end Exact

lemma kept_runs {b : Base} (ha : BaseAgrees b) (hn : NodeWayCovers b) (hm : MemberCovers b)
    (hw : WaysCurrent (fresh b)) (fs : List Fetched) : Kept (runs (fresh b) fs) := by
  have hb := base_runs (fresh b) fs
  exact ⟨good_runs (good_fresh b) fs, tiersRemember_runs b fs, hb ▸ ha, hb ▸ hn, hb ▸ hm,
    waysCurrent_runs (good_fresh b) ha hn hw fs⟩

/-- **When backward recursion is exact**: after any runs over a base the builder made, and for
every guard on the number of cells, hence on both paths from nodes to ways, when the base's index
is fresh for the elements asked for, no tier row is exposed, and the cells around the nodes
include those of their ways. -/
theorem backward_exact (b : Base) (ha : BaseAgrees b) (hn : NodeWayCovers b) (hm : MemberCovers b)
    (hw : WaysCurrent (fresh b)) (fs : List Fetched) (src : List Elem)
    (hsrc : NodesCurrent (runs (fresh b) fs) src) (hx : NoneExposed (runs (fresh b) fs))
    (hreach : WaysReached (runs (fresh b) fs) src) (f : ℚ) :
    (∀ kind role types, (kind = .node → WaysFresh (runs (fresh b) fs) (idsOf .node src)) →
      RelationsFresh (runs (fresh b) fs) src [kind] role → ∀ t i,
        ((t, i) ∈ recurseFilter (runs (fresh b) fs) src kind role types f ↔ t ∈ types ∧
          (t = .way ∧ kind = .node ∧ HasRef (runs (fresh b) fs) (idsOf .node src) i ∨
            t = .relation ∧ HasMember (runs (fresh b) fs) kind (idsOf kind src) role i))) ∧
    (AllFresh (runs (fresh b) fs) src → ∀ t i,
      ((t, i) ∈ backwardOneHop (runs (fresh b) fs) src f ↔
        t = .way ∧ HasRef (runs (fresh b) fs) (idsOf .node src) i ∨
        t = .relation ∧ ((∃ k, HasMember (runs (fresh b) fs) k (idsOf k src) none i) ∨
          ∃ w, HasRef (runs (fresh b) fs) (idsOf .node src) w ∧
            HasMember (runs (fresh b) fs) .way [w] none i))) := by
  have hk := kept_runs ha hn hm hw fs
  exact ⟨fun _ _ _ h1 h2 _ _ => mem_recurseFilter hk hx hsrc hreach h1 h2,
    fun h _ _ => mem_backwardOneHop hk hx hsrc hreach h⟩

/-! ### A way and a relation that drop a node -/

/-- Three nodes, a way over the first two, and a relation with the first. -/
def path : World where
  rows
    | .node => [node 10 ⟨0, 0⟩, node 20 ⟨10, 20⟩, node 30 ⟨30, 40⟩]
    | .way => [way 1 [10, 20] [⟨0, 0⟩, ⟨10, 20⟩]]
    | .relation => [relation 2 [⟨.node, 10, ""⟩] (some ⟨0, 0, 0, 0⟩)]
  once t := by cases t <;> simp [Distinct, node, way, relation]
  placed t := by cases t <;> simp [node, way, relation]
  refs := by simp [way]

lemma waysCurrent_path : WaysCurrent (fresh path.base) := by
  intro i r hr
  have hmem := mem_of_curSpatial _ hr
  simp only [path, List.mem_singleton] at hmem
  subst hmem
  exact ⟨by decide, by decide⟩

/-- The way now goes over the last two nodes, and the relation has the second one. -/
def rerouted : Root := runs (fresh path.base)
  [⟨[diff 1 [] [change 1 2 [20, 30]] [change 2 2 [⟨.node, 20, ""⟩]]], some 0⟩]

lemma not_exposed_rerouted (t : Typ) (i : ℤ) : ¬ Exposed (tierRows rerouted.deltas t i) := by
  have hday : rerouted.deltas.day = none := rfl
  have hweek : rerouted.deltas.week = none := rfl
  refine not_exposed_of_length_le ?_
  rw [tierRows, hday, hweek, rowsOf]
  cases slot rerouted.deltas.hour t i <;> simp

lemma noneExposed_rerouted : NoneExposed rerouted :=
  ⟨not_exposed_rerouted .way, not_exposed_rerouted .relation⟩

lemma nodesCurrent_rerouted : NodesCurrent rerouted [⟨.node, 20, some ⟨10, 20⟩⟩] := by
  intro e he _
  rw [List.mem_singleton.mp he]
  exact ⟨by decide, rfl⟩

lemma waysReached_rerouted : WaysReached rerouted [⟨.node, 20, some ⟨10, 20⟩⟩] := by
  have hcells : ∀ r ∈ Compact.effective rerouted .way,
      inCells (cellsForBbox (catalogOf rerouted) .way (some (boxOf ⟨10, 20, 10, 20⟩))) r.cell := by
    decide
  intro b hb i r hr _
  have hb' : b = ⟨10, 20, 10, 20⟩ := (Option.some.inj hb).symm
  rw [hb']
  exact hcells r (mem_effective hr)

/-- For the second node, which the way has kept, the index is fresh. -/
lemma allFresh_rerouted : AllFresh rerouted [⟨.node, 20, some ⟨10, 20⟩⟩] := by
  have hways : ∀ p ∈ rerouted.base.nodeWay, ∀ x ∈ p.rows, x.1 ∈ [(20 : ℤ)] →
      HasRef rerouted [20] x.2 := by
    decide
  have hrels : ∀ x ∈ rerouted.base.member,
      x.memberType ≠ .way ∧ x.memberId ∉ idsOf x.memberType [⟨.node, 20, some ⟨10, 20⟩⟩] := by
    decide
  constructor
  · rintro i ⟨p, hp, n, hn, hrow⟩ -
    exact hways p hp (n, i) hrow hn
  · rintro i ⟨x, hx, -, -, hid, -⟩
    exact absurd hid (hrels x hx).2
  · intro x hx ht
    exact absurd ht (hrels x hx).1
  · rintro w ⟨p, hp, n, hn, hrow⟩ hnone
    have hex := isSome_of_hasRef (hways p hp (n, w) hrow hn)
    rw [hnone] at hex
    cases hex

/-- From the second node the way and the relation are found, and nothing else, on both paths. -/
theorem rerouted_exact : AllFresh rerouted [⟨.node, 20, some ⟨10, 20⟩⟩] ∧ ∀ f t i,
    ((t, i) ∈ backwardOneHop rerouted [⟨.node, 20, some ⟨10, 20⟩⟩] f ↔
      t = .way ∧ HasRef rerouted [20] i ∨
      t = .relation ∧ ((∃ k, HasMember rerouted k (idsOf k [⟨.node, 20, some ⟨10, 20⟩⟩]) none i) ∨
        ∃ w, HasRef rerouted [20] w ∧ HasMember rerouted .way [w] none i)) := by
  refine ⟨allFresh_rerouted, fun f t i => ?_⟩
  exact (backward_exact path.base (baseAgrees _) (nodeWayCovers _)
    (memberCovers _) waysCurrent_path _ _ nodesCurrent_rerouted noneExposed_rerouted
      waysReached_rerouted f).2 allFresh_rerouted t i

/-- From the first node the relation is still found that has dropped it, and so is the way, but
only by the index: when the files around the node are read it is not. -/
theorem rerouted_stale :
    (.relation, 2) ∈ backwardOneHop rerouted [⟨.node, 10, some ⟨0, 0⟩⟩] (1 / 2) ∧
    (∀ k, ¬ HasMember rerouted k (idsOf k [⟨.node, 10, some ⟨0, 0⟩⟩]) none 2) ∧
    (¬ ∃ w, HasMember rerouted .way [w] none 2) ∧
    (.way, 1) ∈ backwardOneHop rerouted [⟨.node, 10, some ⟨0, 0⟩⟩] (1 / 2) ∧
    (.way, 1) ∉ backwardOneHop rerouted [⟨.node, 10, some ⟨0, 0⟩⟩] 1 := by
  refine ⟨by decide +kernel, fun k => ?_, ?_, by decide +kernel, by decide +kernel⟩
  · cases k <;> decide
  · rintro ⟨w, r, hr, m, hm, ht, -⟩
    have hmem : (cur rerouted .relation 2).map (fun r => r.cols.members) =
        some [⟨.node, 20, ""⟩] := by
      decide
    rw [hr] at hmem
    have hm' : m ∈ [(⟨.node, 20, ""⟩ : Member)] := Option.some.inj hmem ▸ hm
    rw [List.mem_singleton.mp hm'] at ht
    cases ht

end OsmParquet.Recurse
