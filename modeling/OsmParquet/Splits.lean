import OsmParquet.Batching

/-!
The rows after a sequence of diffs, however it was cut into runs.

What the diffs say of the elements does not depend on the cuts. What is derived from it does not
either as long as it is what the current data give: the positions of the nodes of a way, and the
boxes of the member nodes and ways of a relation. The box of a relation over other relations
depends on what was touched together, so nothing is said about it.
-/

namespace OsmParquet.Splits

open OsmParquet.KeyedList OsmParquet.Layers OsmParquet.Rows OsmParquet.Tiers OsmParquet.TierSteps
open OsmParquet.ByidReads OsmParquet.Cells OsmParquet.Updater OsmParquet.Resolves
open OsmParquet.PrevCells OsmParquet.SpatialReads OsmParquet.RunSteps OsmParquet.OneCell
open OsmParquet.WayGeometry OsmParquet.RelationBoxes OsmParquet.Batching

/-! ### Derived columns -/

/-- The by-id row of a way, given its refs and attributes. -/
def wayRow (s : Root) (i : ℤ) (refs : List ℤ) (a : Attrs) : Row WayCols :=
  let bbox := wayBBox (curPts s refs)
  ⟨i, some (boxCell s.base bbox),
    ⟨refs, a, bbox, isClosed refs, isArea (isClosed refs) a.tags, boxHilbert bbox⟩⟩

/-- The by-id row of a relation over nodes and ways, given its members and attributes. -/
def relationRow (s : Root) (i : ℤ) (ms : List Member) (a : Attrs) : Row RelationCols :=
  let bbox := curOwnBox s ms
  ⟨i, some (boxCell s.base bbox), ⟨ms, a, bbox⟩⟩

/-- A relation with member nodes and ways only. -/
def Plain (ms : List Member) : Prop := ∀ m ∈ ms, m.type ≠ .relation

/-- The rows of the ways, and of the relations over nodes and ways, are those their nodes and
members give, and the indexes of the base have all of them. -/
structure Stored (s : Root) : Prop where
  nodeWay : NodeWayCovers s.base
  member : MemberCovers s.base
  ways : ∀ i r, cur s .way i = some r → r = wayRow s i r.cols.refs r.cols.attrs
  relations : ∀ i r, cur s .relation i = some r → Plain r.cols.members →
    r = relationRow s i r.cols.members r.cols.attrs

section Step

variable {s : Root} {f : Fetched}

lemma wayRow_congr {s' : Root} (hb : s'.base = s.base) {refs : List ℤ}
    (h : curPts s' refs = curPts s refs) (i : ℤ) (a : Attrs) :
    wayRow s' i refs a = wayRow s i refs a := by
  simp only [wayRow, h, hb]

lemma relationRow_congr {s' : Root} (hb : s'.base = s.base) {ms : List Member}
    (h : curOwnBox s' ms = curOwnBox s ms) (i : ℤ) (a : Attrs) :
    relationRow s' i ms a = relationRow s i ms a := by
  simp only [relationRow, h, hb]

lemma ways_runOnce (hg : Good s.deltas) (h : f.diffs ≠ []) (hs : Stored s) {i : ℤ} {r : Row WayCols}
    (hr : cur (runOnce s f) .way i = some r) :
    r = wayRow (runOnce s f) i r.cols.refs r.cols.attrs := by
  have hb := base_runOnce s f
  rw [cur_runOnce hg h] at hr
  rcases row_way_cases hg h hs.nodeWay i with ⟨hrow, hpts⟩ | ⟨t, hid, hrow, hpts⟩
  · rw [hrow] at hr
    have hcur : cur s .way i = some r := hr
    rw [wayRow_congr hb (hpts r hcur)]
    exact hs.ways i r hcur
  · rw [hrow] at hr
    rcases hd : t.deleted with _ | _
    · have hrow' :
          ((resolveWay s.base (workOf s f).nodeCoords t).map (byidCols (t := .way))).alive =
          some (wayRow (runOnce s f) i t.body t.attrs) := by
        simp [resolveWay, hd, DeltaRow.map, DeltaRow.alive, byidCols, hpts hd, wayRow, hb, hid]
      cases hrow'.symm.trans hr
      rfl
    · simp [resolveWay, hd, deletedRow, DeltaRow.map, DeltaRow.alive] at hr

/-- The box of a relation over nodes and ways is its own box. -/
lemma nestedBox_of_plain {ms : List Member} (h : Plain ms) (own : Option BBox)
    (rels : List (ℤ × BBox)) : nestedBox own rels ms = own := by
  have hnil : (ms.filter fun m => m.type = .relation) = [] :=
    List.filter_eq_nil_iff.mpr fun m hm => by simpa using h m hm
  rw [nestedBox, hnil]
  cases own <;> rfl

lemma relations_runOnce (hg : Good s.deltas) (h : f.diffs ≠ []) (hs : Stored s)
    (hw : WayBoxesCurrent (runOnce s f)) {i : ℤ} {r : Row RelationCols}
    (hr : cur (runOnce s f) .relation i = some r) (hp : Plain r.cols.members) :
    r = relationRow (runOnce s f) i r.cols.members r.cols.attrs := by
  have hb := base_runOnce s f
  rw [cur_relation_runOnce hg h] at hr
  rcases hx : touchedRelation s f i with _ | t
  · rw [hx] at hr
    have hcur : cur s .relation i = some r := hr
    have hseed : i ∉ Work.seed (workOf s f) := by
      intro hin
      have hmem := relationIds_of_seed (w := workOf s f) hg hin (Option.isSome_of_eq_some hcur)
      have hnone := eq_none_of_touchedRow hx hmem
      rw [hcur] at hnone
      cases hnone
    rw [relationRow_congr hb (curOwnBox_of_not_seed hg h hs.nodeWay hs.member hcur hseed)]
    exact hs.relations i r hcur hp
  · rw [hx] at hr
    have hmem := mem_touchedRelations hg hx
    have hlook := lookup_touchedRelations (w := workOf s f) hg i
    have hid : t.id = i := key_of_lookup (hlook.trans hx)
    rcases hd : t.deleted with _ | _
    · have hown := ownBox_eq hg h hw hmem hd
      have hbody : Plain t.body := by
        simp only [resolveRelation, hd] at hr
        cases hr
        exact hp
      have hrow : ((resolveRelation s.base (workOf s f).nodeCoords (workOf s f).wayBoxes
          (workOf s f).relationBoxes t).map (byidCols (t := .relation))).alive =
            some (relationRow (runOnce s f) i t.body t.attrs) := by
        simp [resolveRelation, hd, DeltaRow.map, DeltaRow.alive, byidCols, nestedBox_of_plain hbody,
          hown, relationRow, hb, hid]
      cases hrow.symm.trans hr
      rfl
    · simp [resolveRelation, hd, deletedRow, DeltaRow.map, DeltaRow.alive] at hr

/-- **A run keeps the derived columns current.** -/
theorem stored_runOnce (hg : Good s.deltas) (hs : Stored s) : Stored (runOnce s f) := by
  by_cases h : f.diffs = []
  · rwa [runOnce_of_nil h]
  have hb := base_runOnce s f
  have hw : WayBoxesCurrent (runOnce s f) := by
    intro i r hr
    rw [ways_runOnce hg h hs hr]
    rfl
  exact ⟨by rw [hb]; exact hs.nodeWay, by rw [hb]; exact hs.member,
    fun i r hr => ways_runOnce hg h hs hr, fun i r hr => relations_runOnce hg h hs hw hr⟩

end Step

lemma stored_runs {s : Root} (hg : Good s.deltas) (hs : Stored s) (fs : List Fetched) :
    Stored (runs s fs) := by
  induction fs generalizing s with
  | nil => exact hs
  | cons f fs ih => exact ih (good_runOnce hg f) (stored_runOnce hg hs)

/-! ### Datasets with the same content -/

/-- Two datasets over one base that have the same from the diffs, and the rest current. -/
structure Alike (s s' : Root) : Prop where
  base : s'.base = s.base
  left : Stored s
  right : Stored s'
  content : ∀ t i, curContent s t i = curContent s' t i

section Alike

variable {s s' : Root} {i : ℤ}

lemma Alike.symm (h : Alike s s') : Alike s' s :=
  ⟨h.base.symm, h.right, h.left, fun t i => (h.content t i).symm⟩

lemma cur_node (s : Root) (i : ℤ) : cur s .node i = curContent s .node i := by
  unfold curContent
  cases cur s .node i <;> rfl

lemma Alike.node (h : Alike s s') (i : ℤ) : cur s .node i = cur s' .node i := by
  rw [cur_node, cur_node, h.content]

lemma Alike.curCoord (h : Alike s s') (i : ℤ) : curCoord s i = curCoord s' i := by
  rw [RunSteps.curCoord, RunSteps.curCoord, h.node]

lemma Alike.curPts (h : Alike s s') (refs : List ℤ) : curPts s refs = curPts s' refs :=
  List.filterMap_congr fun n _ => h.curCoord n

lemma Alike.way_of_some (h : Alike s s') {r : Row WayCols} (hr : cur s .way i = some r) :
    cur s' .way i = some r := by
  have hx : curContent s' .way i = some (r.cols.refs, r.cols.attrs) := by
    rw [← h.content, curContent, hr]; rfl
  obtain ⟨r', hr', he⟩ := Option.map_eq_some_iff.mp hx
  obtain ⟨hrefs, hattrs⟩ := Prod.mk.inj he
  rw [hr']
  congr 1
  calc r' = wayRow s' i r'.cols.refs r'.cols.attrs := h.right.ways i r' hr'
    _ = wayRow s' i r.cols.refs r.cols.attrs := by rw [hrefs, hattrs]
    _ = wayRow s i r.cols.refs r.cols.attrs := wayRow_congr h.base (h.curPts _).symm i _
    _ = r := (h.left.ways i r hr).symm

lemma Alike.way (h : Alike s s') (i : ℤ) : cur s .way i = cur s' .way i :=
  Option.ext fun _ => ⟨h.way_of_some, h.symm.way_of_some⟩

lemma Alike.curOwnBox (h : Alike s s') (ms : List Member) : curOwnBox s ms = curOwnBox s' ms := by
  unfold RelationBoxes.curOwnBox
  congr 1
  refine List.filterMap_congr fun m _ => ?_
  unfold curMemberBox
  rcases m.type with _ | _ | _
  · simp only [h.curCoord]
  · simp only [curWayBox, h.way, h.curPts]
  · rfl

lemma Alike.relation_of_some (h : Alike s s') {r : Row RelationCols} (hp : Plain r.cols.members)
    (hr : cur s .relation i = some r) : cur s' .relation i = some r := by
  have hx : curContent s' .relation i = some (r.cols.members, r.cols.attrs) := by
    rw [← h.content, curContent, hr]; rfl
  obtain ⟨r', hr', he⟩ := Option.map_eq_some_iff.mp hx
  obtain ⟨hms, hattrs⟩ := Prod.mk.inj he
  rw [hr']
  congr 1
  calc r' = relationRow s' i r'.cols.members r'.cols.attrs :=
        h.right.relations i r' hr' (by rw [hms]; exact hp)
    _ = relationRow s' i r.cols.members r.cols.attrs := by rw [hms, hattrs]
    _ = relationRow s i r.cols.members r.cols.attrs :=
        relationRow_congr h.base (h.curOwnBox _).symm i _
    _ = r := (h.left.relations i r hr hp).symm

end Alike

/-! ### Two ways to cut the same diffs -/

section Cut

variable {s : Root} {away : Typ → Set ℤ} {fs gs : List Fetched}

lemma alike_cut (hg : Good s.deltas) (hs : Stored s)
    (hcut : fs.flatMap Fetched.diffs = gs.flatMap Fetched.diffs)
    (hd : Steady s away (fs.flatMap Fetched.diffs)) : Alike (runs s fs) (runs s gs) := by
  refine ⟨?_, stored_runs hg hs fs, stored_runs hg hs gs, fun t i => ?_⟩
  · exact (base_runs s gs).trans (base_runs s fs).symm
  · rw [(follows_runs hg fs hd).content, hcut, (follows_runs hg gs (hcut ▸ hd)).content]

/-- **The rows do not depend on how the diffs are cut into runs**, for steady diffs that come
after any runs over a base the builder made. Nodes and ways have the same rows, relations the
same members and attributes, and relations over nodes and ways the same rows. -/
theorem same_rows_however_cut (b : Base) (hb : Stored (fresh b)) (hs fs gs : List Fetched)
    (away : Typ → Set ℤ) (hcut : fs.flatMap Fetched.diffs = gs.flatMap Fetched.diffs)
    (hd : Steady (runs (fresh b) hs) away (fs.flatMap Fetched.diffs)) (i : ℤ) :
    cur (runs (fresh b) (hs ++ fs)) .node i = cur (runs (fresh b) (hs ++ gs)) .node i ∧
      cur (runs (fresh b) (hs ++ fs)) .way i = cur (runs (fresh b) (hs ++ gs)) .way i ∧
      curContent (runs (fresh b) (hs ++ fs)) .relation i =
        curContent (runs (fresh b) (hs ++ gs)) .relation i ∧
      ∀ r, Plain r.cols.members → (cur (runs (fresh b) (hs ++ fs)) .relation i = some r ↔
        cur (runs (fresh b) (hs ++ gs)) .relation i = some r) := by
  have hst := stored_runs (good_fresh b) hb hs
  have h := alike_cut (good_runs (good_fresh b) hs) hst hcut hd
  rw [runs_append, runs_append]
  exact ⟨h.node i, h.way i, h.content .relation i,
    fun r hp => ⟨h.relation_of_some hp, h.symm.relation_of_some hp⟩⟩

end Cut

/-! ### A block of two streets -/

/-- Two nodes, the way between them and a relation of the way. -/
def block : World where
  rows
    | .node => [node 1 ⟨0, 0⟩, node 2 ⟨10, 20⟩]
    | .way => [way 1 [1, 2] [⟨0, 0⟩, ⟨10, 20⟩]]
    | .relation => [relation 1 [⟨.way, 1, ""⟩] (some ⟨0, 0, 10, 20⟩)]
  once t := by cases t <;> simp [Distinct, node, way, relation]
  placed t := by cases t <;> simp [node, way, relation]
  refs := WayGeometry.street.refs

lemma stored_block : Stored (fresh block.base) := by
  refine ⟨nodeWayCovers _, memberCovers _, fun i r hr => ?_, fun i r hr _ => ?_⟩
  · obtain ⟨hmem, rfl⟩ := mem_of_cur _ hr
    have hall : ∀ r ∈ (block.rows .way).map (Row.map byidCols),
        r = wayRow (fresh block.base) r.id r.cols.refs r.cols.attrs := by decide
    exact hall r hmem
  · obtain ⟨hmem, rfl⟩ := mem_of_cur _ hr
    have hall : ∀ r ∈ (block.rows .relation).map (Row.map byidCols),
        r = relationRow (fresh block.base) r.id r.cols.members r.cols.attrs := by decide
    exact hall r hmem

/-- A second way, to a new node, and a relation of both ways. -/
def extend : Diff :=
  diff 1 [change 3 1 (some ⟨30, 40⟩)] [change 2 1 [2, 3]]
    [change 2 1 [⟨.way, 1, ""⟩, ⟨.way, 2, ""⟩]]

/-- The new node moves, the first way is changed, and the first relation goes. -/
def rework : Diff :=
  diff 2 [change 3 2 (some ⟨50, 60⟩)] [change 1 2 [2, 1]] [deletion 1 2 []]

lemma steady_rework : Steady (fresh block.base) (fun _ => ∅) [extend, rework] := by
  have hn : Standing (fresh block.base) [extend, rework] .node 2 :=
    ⟨by decide, by decide⟩
  have hw : Standing (fresh block.base) [extend, rework] .way 1 :=
    ⟨by decide, by decide⟩
  have haway : Away (fresh block.base) (fun _ => ∅) [extend, rework] := by
    refine ⟨?_, ?_, ?_, ?_⟩ <;> simp
  refine ⟨fun t => by cases t <;> decide, haway, ?_, ?_, ?_⟩
  · intro es hp c hc _ _
    have hall : ∀ c ∈ allChanges [extend, rework] .node,
        c.body.any (fresh block.base).base.extent.contains = true := by decide
    exact Or.inr (Option.any_eq_true _ _ |>.mp (hall c (mem_allChanges_of_initial hc hp)))
  · intro es hp c hc _ _
    have hall : ∀ c ∈ allChanges [extend, rework] .way, 2 ∈ c.body := by decide
    exact Or.inr ⟨2, hall c (mem_allChanges_of_initial hc hp), (hn.of_initial hp).settled haway⟩
  · intro es hp c hc hdel _
    have hall : ∀ c ∈ allChanges [extend, rework] .relation, c.deleted = false →
        ⟨.way, 1, ""⟩ ∈ c.body := by decide
    exact Or.inr ⟨_, hall c (mem_allChanges_of_initial hc hp) hdel, hw.of_initial hp⟩

/-- In one run or in two, the streets are the same. -/
theorem block_however_cut : Stored (fresh block.base) ∧
    Steady (runs (fresh block.base) []) (fun _ => ∅) [extend, rework] ∧
    (∀ i, cur (runs (fresh block.base) [⟨[extend, rework], some 60⟩]) .node i =
        cur (runs (fresh block.base) [⟨[extend], some 0⟩, ⟨[rework], some 60⟩]) .node i ∧
      cur (runs (fresh block.base) [⟨[extend, rework], some 60⟩]) .way i =
        cur (runs (fresh block.base) [⟨[extend], some 0⟩, ⟨[rework], some 60⟩]) .way i ∧
      curContent (runs (fresh block.base) [⟨[extend, rework], some 60⟩]) .relation i =
        curContent (runs (fresh block.base) [⟨[extend], some 0⟩, ⟨[rework], some 60⟩]) .relation i ∧
      ∀ r, Plain r.cols.members →
        (cur (runs (fresh block.base) [⟨[extend, rework], some 60⟩]) .relation i = some r ↔
          cur (runs (fresh block.base) [⟨[extend], some 0⟩, ⟨[rework], some 60⟩]) .relation i =
            some r)) ∧
    ((cur (runs (fresh block.base) [⟨[extend, rework], some 60⟩]) .relation 2).bind fun r =>
      r.cols.bbox) = some ⟨0, 0, 50, 60⟩ := by
  refine ⟨stored_block, steady_rework, fun i => ?_, by decide⟩
  exact same_rows_however_cut _ stored_block [] [⟨[extend, rework], some 60⟩]
    [⟨[extend], some 0⟩, ⟨[rework], some 60⟩] (fun _ => ∅) rfl steady_rework i

/-! ### Diffs that are not steady -/

/-- Two diffs give an element another row in one run than in two. -/
def CutMatters (b : Base) (d e : Diff) (t : Typ) (i : ℤ) : Prop :=
  cur (runs (fresh b) [⟨[d, e], some 60⟩]) t i ≠
    cur (runs (fresh b) [⟨[d], some 0⟩, ⟨[e], some 60⟩]) t i

/-- The block, as a dataset of a small extent. -/
def town : Base := { block.base with extent := ⟨0, 0, 100, 100⟩ }

lemma stored_town : Stored (fresh town) := by
  refine ⟨nodeWayCovers block, memberCovers block, fun i r hr => ?_, fun i r hr hp => ?_⟩
  · exact stored_block.ways i r hr
  · exact stored_block.relations i r hr hp

/-- A new node inside the extent. -/
def arrive : Diff := diff 1 [change 3 1 (some ⟨30, 40⟩)] [] []

/-- The rows depend on the cut: of a node that comes into the extent and leaves it, of a way that
comes before its node, of a relation that comes after its only member, and of a relation over
relations. -/
theorem rows_depend_on_cut : Stored (fresh town) ∧
    CutMatters town arrive (diff 2 [change 3 2 (some ⟨300, 400⟩)] [] []) .node 3 ∧
    CutMatters town (diff 0 [] [change 2 1 [3, 4]] []) arrive .way 2 ∧
    CutMatters town arrive (diff 2 [] [] [change 2 1 [⟨.node, 3, ""⟩]]) .relation 2 ∧
    CutMatters threeDeep.base (diff 1 [change 10 2 (some ⟨30, 40⟩)] [] [])
      (diff 2 [] [] [change 1 2 [⟨.relation, 2, ""⟩]]) .relation 1 := by
  refine ⟨stored_town, ?_, ?_, ?_, ?_⟩
  all_goals
    unfold CutMatters
    decide

end OsmParquet.Splits
