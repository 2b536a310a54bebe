import OsmParquet.WayGeometry

/-!
The stored box of a relation against the box the builder gives it.

The builder takes the box around the member nodes and ways of every relation, and in a second
pass the boxes of the member relations as the first pass left them. The updater does the same
with the relations it touches. For a member relation that it does not touch it takes the stored
box, and that is the result of both passes: what lies two levels down is counted or not
depending on what is touched together.
-/

namespace OsmParquet.RelationBoxes

open OsmParquet.KeyedList OsmParquet.Layers OsmParquet.Rows OsmParquet.Tiers OsmParquet.TierSteps
open OsmParquet.ByidReads OsmParquet.Updater OsmParquet.Resolves OsmParquet.PrevCells
open OsmParquet.SpatialReads OsmParquet.RunSteps OsmParquet.OneCell OsmParquet.WayGeometry

/-! ### The builder -/

/-- The boxes of the ways, from the positions of their nodes. -/
def buildWays (nodes : List (Row NodeCols)) (ways : List (Row WayCols)) : List (ℤ × BBox) :=
  let coords := nodes.map fun r => (r.id, r.cols.coord)
  ways.filterMap fun r => (wayBBox (wayPts coords r.cols.refs)).map fun b => (r.id, b)

/-- The boxes of all relations, in two passes. -/
def buildRelations (nodes : List (Row NodeCols)) (ways : List (Row WayCols))
    (rels : List (Row RelationCols)) : List (ℤ × Option BBox) :=
  let coords := nodes.map fun r => (r.id, r.cols.coord)
  let wayBoxes := buildWays nodes ways
  let bbox0 := rels.filterMap fun r =>
    (ownBox coords wayBoxes r.cols.members).map fun b => (r.id, b)
  rels.map fun r => (r.id, nestedBox (ownBox coords wayBoxes r.cols.members) bbox0 r.cols.members)

/-- What the builder makes of the current data. -/
def rebuilt (s : Root) : List (ℤ × Option BBox) :=
  buildRelations (readByid s .node) (readByid s .way) (readByid s .relation)

/-- Every relation has the box the builder would give it now. -/
def RelationsCurrent (s : Root) : Prop := ∀ i r, cur s .relation i = some r →
  lookup Prod.fst i (rebuilt s) = some (i, r.cols.bbox)

/-! ### The boxes of the current data, one id at a time -/

def curWayBox (s : Root) (i : ℤ) : Option BBox :=
  (cur s .way i).bind fun r => wayBBox (curPts s r.cols.refs)

def curMemberBox (s : Root) (m : Member) : Option BBox :=
  match m.type with
  | .node => (curCoord s m.ref).map BBox.ofPoint
  | .way => curWayBox s m.ref
  | .relation => none

def curOwnBox (s : Root) (ms : List Member) : Option BBox :=
  boxAround (ms.filterMap (curMemberBox s))

/-- The box of an existing relation after the first pass. -/
def curRelOwn (s : Root) (i : ℤ) : Option BBox :=
  (cur s .relation i).bind fun r => curOwnBox s r.cols.members

/-- The box after the second pass. -/
def curBox (s : Root) (ms : List Member) : Option BBox :=
  boxAround ((curOwnBox s ms).toList ++
    (ms.filter fun m => m.type = .relation).filterMap fun m => curRelOwn s m.ref)

section Rebuilt

variable {s : Root}

lemma distinct_readByid (s : Root) (t : Typ) : Distinct Row.id (readByid s t) :=
  distinct_byidCurrentRows (distinct_rows _)

lemma coordOf_readByid (hg : Good s.deltas) (i : ℤ) :
    coordOf ((readByid s .node).map fun r => (r.id, r.cols.coord)) i = curCoord s i := by
  have h : lookup Prod.fst i ((readByid s .node).map fun r => (r.id, r.cols.coord)) =
      (byId i (readByid s .node)).map fun r => (r.id, r.cols.coord) := lookup_map fun _ => rfl
  rw [coordOf, h, byId_readByid hg, curCoord]
  cases cur s .node i <;> rfl

/-- A table of boxes made from rows, by id. -/
lemma lookup_boxes {α : Type} {key : α → ℤ} {l : List α} (hu : Distinct key l) (g : α → Option BBox)
    (i : ℤ) :
    (lookup Prod.fst i (l.filterMap fun r => (g r).map fun b => (key r, b))).map Prod.snd =
      (lookup key i l).bind g := by
  have h : lookup Prod.fst i (l.filterMap fun r => (g r).map fun b => (key r, b)) =
      (lookup key i l).bind fun r => (g r).map fun b => (key r, b) := by
    refine hu.lookup_filterMap fun r x hx => ?_
    obtain ⟨b, -, rfl⟩ := Option.map_eq_some_iff.mp hx
    rfl
  rw [h]
  rcases lookup key i l with _ | r
  · rfl
  · cases hb : g r <;> simp [hb]

lemma lookup_buildWays (hg : Good s.deltas) (i : ℤ) :
    (lookup Prod.fst i (buildWays (readByid s .node) (readByid s .way))).map Prod.snd =
      curWayBox s i := by
  have hpts : ∀ refs, wayPts ((readByid s .node).map fun r => (r.id, r.cols.coord)) refs =
      curPts s refs := fun refs => List.filterMap_congr fun n _ => coordOf_readByid hg n
  have h := lookup_boxes (distinct_readByid s .way)
    (fun r => wayBBox (wayPts ((readByid s .node).map fun r => (r.id, r.cols.coord)) r.cols.refs)) i
  have hcur : lookup Row.id i (readByid s .way) = cur s .way i := byId_readByid hg i
  rw [hcur] at h
  refine h.trans ?_
  simp only [hpts]
  rfl

lemma ownBox_rebuilt (hg : Good s.deltas) (ms : List Member) :
    ownBox ((readByid s .node).map fun r => (r.id, r.cols.coord))
      (buildWays (readByid s .node) (readByid s .way)) ms = curOwnBox s ms := by
  unfold ownBox curOwnBox
  congr 1
  refine List.filterMap_congr fun m _ => ?_
  unfold memberBox curMemberBox
  rcases m.type with _ | _ | _
  · simp only [coordOf_readByid hg]
  · exact lookup_buildWays hg m.ref
  · rfl

/-- **The builder on the current data** gives every relation `curBox` of its members. -/
lemma lookup_rebuilt (hg : Good s.deltas) (i : ℤ) : lookup Prod.fst i (rebuilt s) =
    (cur s .relation i).map fun r => (i, curBox s r.cols.members) := by
  have hnest : ∀ i, (lookup Prod.fst i ((readByid s .relation).filterMap fun r =>
      (curOwnBox s r.cols.members).map fun b => (r.id, b))).map Prod.snd = curRelOwn s i := by
    intro i
    have hcur : lookup Row.id i (readByid s .relation) = cur s .relation i := byId_readByid hg i
    rw [lookup_boxes (distinct_readByid s .relation) (fun r => curOwnBox s r.cols.members), hcur]
    rfl
  have hmap : rebuilt s = (readByid s .relation).map fun r => (r.id, curBox s r.cols.members) := by
    unfold rebuilt buildRelations
    simp only [ownBox_rebuilt hg, nestedBox, hnest]
    rfl
  have hl : lookup Prod.fst i ((readByid s .relation).map fun r =>
      (r.id, curBox s r.cols.members)) =
      (byId i (readByid s .relation)).map fun r => (r.id, curBox s r.cols.members) :=
    lookup_map fun _ => rfl
  rw [hmap, hl, byId_readByid hg]
  rcases hr : cur s .relation i with _ | r
  · rfl
  · rw [Option.map_some, Option.map_some, id_of_cur hg hr]

lemma relationsCurrent_iff (hg : Good s.deltas) : RelationsCurrent s ↔
    ∀ i r, cur s .relation i = some r → r.cols.bbox = curBox s r.cols.members := by
  refine forall_congr' fun i => forall_congr' fun r => forall_congr' fun h => ?_
  rw [lookup_rebuilt hg, h]
  simp [eq_comm]

end Rebuilt

/-! ### The touched relations -/

section Parents

variable {s : Root} {ids : List ℤ} {i : ℤ}

/-- **A relation that exists is found from each of its members.** -/
lemma mem_parentRelations (hg : Good s.deltas) (hm : MemberCovers s.base) {r : Row RelationCols}
    (h : cur s .relation i = some r) {m : Member} (hmem : m ∈ r.cols.members) (hids : m.ref ∈ ids) :
    i ∈ parentRelations s ids := by
  have hid : r.id = i := id_of_cur hg h
  rw [parentRelations, List.mem_append]
  rcases cur_cases hg h with ha | hb
  · refine Or.inr (hid ▸ List.mem_map_of_mem (List.mem_filter.mpr ⟨ha, ?_⟩))
    exact List.any_eq_true.mpr ⟨m, hmem, decide_eq_true hids⟩
  · have hrow := hm r hb m hmem
    refine Or.inl (hid ▸ ?_)
    exact List.mem_map.mpr ⟨_, List.mem_filter.mpr ⟨hrow, decide_eq_true hids⟩, rfl⟩

lemma subset_closeRelations (s : Root) (n : ℕ) (ids : List ℤ) : ids ⊆ closeRelations s n ids := by
  induction n generalizing ids with
  | zero => exact fun _ h => h
  | succ n ih =>
    unfold closeRelations
    simp only
    split
    · exact fun _ h => h
    · exact fun x hx => ih _ (List.mem_dedup.mpr (List.mem_append_left _ hx))

/-- The parents of the seed are added in the first round, if they are not there already. -/
lemma parents_subset_closeRelations (n : ℕ) (hd : ids.Nodup) :
    parentRelations s ids ⊆ closeRelations s (n + 1) ids := by
  intro x hx
  have hcomb : x ∈ (ids ++ parentRelations s ids).dedup :=
    List.mem_dedup.mpr (List.mem_append_right _ hx)
  unfold closeRelations
  simp only
  split
  · rename_i hlen
    -- nothing was added, so the combined ids are the seed
    have hsub : ids ⊆ (ids ++ parentRelations s ids).dedup := fun y hy =>
      List.mem_dedup.mpr (List.mem_append_left _ hy)
    have hperm := (List.subperm_of_subset hd hsub).perm_of_length_le hlen.le
    exact hperm.mem_iff.mpr hcomb
  · exact subset_closeRelations s n _ hcomb

end Parents

/-- The relations a run starts from: the kept ones and the parents of kept nodes and touched
ways. -/
def Work.seed (w : Work) : List ℤ :=
  ((w.kept .relation).map Change.id ++ parentRelations w.root ((w.kept .node).map Change.id) ++
    parentRelations w.root w.wayIds).dedup

section Seed

variable {w : Work} {i : ℤ}

lemma mem_relationIds (hg : Good w.root.deltas) : i ∈ w.relationIds ↔
    i ∈ (w.kept .relation).map Change.id ∨
      i ∈ closeRelations w.root 8 (Work.seed w) ∧ (cur w.root .relation i).isSome := by
  simp only [Work.relationIds, touchedRelationIds]
  rw [List.mem_dedup, List.mem_append, mem_fetch_ids hg, List.mem_filter, decide_eq_true_eq]
  unfold Work.seed
  tauto

lemma relationIds_of_seed (hg : Good w.root.deltas) (h : i ∈ Work.seed w)
    (hex : (cur w.root .relation i).isSome) : i ∈ w.relationIds :=
  (mem_relationIds hg).mpr (Or.inr ⟨subset_closeRelations _ _ _ h, hex⟩)

/-- A relation above the seed is touched. -/
lemma relationIds_of_parent (hg : Good w.root.deltas) (hm : MemberCovers w.root.base)
    {r : Row RelationCols} (h : cur w.root .relation i = some r) {m : Member}
    (hmem : m ∈ r.cols.members) (hseed : m.ref ∈ Work.seed w) : i ∈ w.relationIds := by
  have hpar := mem_parentRelations hg hm h hmem hseed
  refine (mem_relationIds hg).mpr (Or.inr ⟨?_, Option.isSome_of_eq_some h⟩)
  exact parents_subset_closeRelations 7 (List.nodup_dedup _) hpar

end Seed

/-! ### One run -/

section Step

variable {s : Root} {f : Fetched} {i : ℤ}

/-- The stored boxes of the members that are not in the touched set. -/
lemma lookup_fetchBoxes (hg : Good s.deltas) {t : Typ} (g : Row (ByidCols t) → Option BBox)
    {members : List ℤ} (ids : List ℤ) (hi : i ∈ members) :
    (lookup Prod.fst i ((s.fetch t (members.filter fun i => i ∉ ids)).filterMap fun r =>
      (g r).map fun b => (r.id, b))).map Prod.snd = if i ∉ ids then (cur s t i).bind g
        else none := by
  have hf : lookup Row.id i (s.fetch t (members.filter fun i => i ∉ ids)) =
      if i ∈ members.filter (fun i => i ∉ ids) then cur s t i else none := byId_fetch hg _
  have hmem : i ∈ members.filter (fun i => i ∉ ids) ↔ i ∉ ids := by simp [List.mem_filter, hi]
  rw [lookup_boxes (distinct_fetch s t _), hf]
  simp only [hmem]
  split <;> rfl

/-- The way boxes a run takes for the members are those of the ways after it. -/
lemma lookup_wayBoxes (hg : Good s.deltas) (h : f.diffs ≠ []) (hi : i ∈ (workOf s f).members .way) :
    (lookup Prod.fst i (workOf s f).wayBoxes).map Prod.snd =
      (cur (runOnce s f) .way i).bind fun r => r.cols.bbox := by
  have hR : Distinct DeltaRow.id (workOf s f).resolvedWays := oneRow_tierRun hg f .way
  have h1 : lookup Prod.fst i ((workOf s f).resolvedWays.filterMap fun r =>
      if r.deleted then none else (r.cols.bind fun c => c.byid.bbox).map fun b => (r.id, b)) =
      ((tierRun s f).row .way i).bind fun r =>
        if r.deleted then none else (r.cols.bind fun c => c.byid.bbox).map fun b => (r.id, b) := by
    refine hR.lookup_filterMap fun r x hx => ?_
    split at hx
    · cases hx
    · obtain ⟨b, -, rfl⟩ := Option.map_eq_some_iff.mp hx
      rfl
  have h2 := lookup_fetchBoxes (t := .way) hg (fun r => r.cols.bbox) (workOf s f).wayIds hi
  rw [Work.wayBoxes, lookup_append, h1, Option.map_or]
  rw [show (workOf s f).root = s from rfl, h2, cur_runOnce hg h]
  rcases hrow : (tierRun s f).row .way i with _ | x
  · simp only [Option.bind_none, Option.map_none, Option.none_or, Option.getD_none]
    split
    · rfl
    · -- a touched way without a row does not exist
      rename_i hin
      rw [row_way hg, Option.map_eq_none_iff] at hrow
      rw [eq_none_of_touchedRow hrow (not_not.mp hin)]
      rfl
  · have hin : i ∈ (workOf s f).wayIds := by
      have hx := row_way (f := f) hg i
      rw [hrow] at hx
      obtain ⟨t, ht, -⟩ := Option.map_eq_some_iff.mp hx.symm
      exact mem_of_touchedRow (fun _ => keptIds_subset_wayIds) ht
    rcases hd : x.deleted with _ | _ <;> rcases hc : x.cols with _ | c <;>
      simp [hin, hd, hc, DeltaRow.map, DeltaRow.alive, byidCols]

/-- A member node or way of a relation that is resolved has the box it has after the run. -/
lemma memberBox_eq (hg : Good s.deltas) (h : f.diffs ≠ []) (hw : WayBoxesCurrent (runOnce s f))
    {t : Touched (List Member)}
    (ht : t ∈ (workOf s f).touchedRelations) (hd : t.deleted = false) {m : Member}
    (hm : m ∈ t.body) :
    memberBox (workOf s f).nodeCoords (workOf s f).wayBoxes m = curMemberBox (runOnce s f) m := by
  have hmem : ∀ {k : Typ}, m.type = k → m.ref ∈ (workOf s f).members k := fun hk =>
    List.mem_flatMap.mpr ⟨t, List.mem_filter.mpr ⟨ht, by simp [hd]⟩,
      List.mem_map_of_mem (List.mem_filter.mpr ⟨hm, by simp [hk]⟩)⟩
  unfold memberBox curMemberBox
  rcases hk : m.type with _ | _ | _
  · have hneed : m.ref ∈ Work.needed (workOf s f) := List.mem_append_right _ (hmem hk)
    simp only [curCoord_runOnce hg h]
    rw [coordOf_nodeCoords (w := workOf s f) hg (oneChange_keptOf s f) hneed]
    rfl
  · refine (lookup_wayBoxes hg h (hmem hk)).trans ?_
    rw [curWayBox]
    rcases hc : cur (runOnce s f) .way m.ref with _ | r
    · rfl
    · exact hw m.ref r hc
  · rfl

lemma ownBox_eq (hg : Good s.deltas) (h : f.diffs ≠ []) (hw : WayBoxesCurrent (runOnce s f))
    {t : Touched (List Member)}
    (ht : t ∈ (workOf s f).touchedRelations) (hd : t.deleted = false) :
    ownBox (workOf s f).nodeCoords (workOf s f).wayBoxes t.body =
      curOwnBox (runOnce s f) t.body := by
  unfold ownBox curOwnBox
  congr 1
  exact List.filterMap_congr fun m hm => memberBox_eq hg h hw ht hd hm

/-- A way outside the touched set keeps its box. -/
lemma curWayBox_of_untouched (hg : Good s.deltas) (h : f.diffs ≠ []) (hn : NodeWayCovers s.base)
    (hi : i ∉ (workOf s f).wayIds) : curWayBox (runOnce s f) i = curWayBox s i := by
  have hrow : (tierRun s f).row .way i = none := by
    rw [row_way hg, Option.map_eq_none_iff]
    rcases ht : touchedRow s (keptOf s f .way) (workOf s f).wayIds (cur s .way)
      (asIsWay (workOf s f).lastSeq) i with _ | t
    · rfl
    · exact absurd (mem_of_touchedRow (fun _ => keptIds_subset_wayIds) ht) hi
  have hcur : cur (runOnce s f) .way i = cur s .way i := by rw [cur_runOnce hg h, hrow]; rfl
  rw [curWayBox, curWayBox, hcur]
  rcases hc : cur s .way i with _ | r
  · rfl
  · rw [Option.bind_some, Option.bind_some, curPts_of_untouched hg h hn hc hrow]

/-- A relation outside the seed has the same nodes and ways as before, where they were. -/
lemma curOwnBox_of_not_seed (hg : Good s.deltas) (h : f.diffs ≠ []) (hn : NodeWayCovers s.base)
    (hm : MemberCovers s.base) {r : Row RelationCols} (hcur : cur s .relation i = some r)
    (hi : i ∉ Work.seed (workOf s f)) :
    curOwnBox (runOnce s f) r.cols.members = curOwnBox s r.cols.members := by
  have hseed : ∀ m ∈ r.cols.members, m.ref ∉ ((workOf s f).kept .node).map Change.id ∧
      m.ref ∉ (workOf s f).wayIds := by
    intro m hmem
    refine ⟨fun hin => hi ?_, fun hin => hi ?_⟩
    · have hp := mem_parentRelations hg hm hcur hmem hin
      exact List.mem_dedup.mpr (List.mem_append_left _ (List.mem_append_right _ hp))
    · have hp := mem_parentRelations hg hm hcur hmem hin
      exact List.mem_dedup.mpr (List.mem_append_right _ hp)
  unfold curOwnBox
  congr 1
  refine List.filterMap_congr fun m hmem => ?_
  obtain ⟨hnode, hway⟩ := hseed m hmem
  unfold curMemberBox
  rcases m.type with _ | _ | _
  · have hc : changeById m.ref (keptOf s f .node) = none := lookup_eq_none.mpr hnode
    simp only [curCoord_runOnce hg h, coordAfter, hc]
  · exact curWayBox_of_untouched hg h hn hway
  · rfl

/-- The relations a run resolves, one id at a time. -/
def touchedRelation (s : Root) (f : Fetched) (i : ℤ) : Option (Touched (List Member)) :=
  touchedRow s (keptOf s f .relation) (workOf s f).relationIds (cur s .relation)
    (asIsRelation (workOf s f).lastSeq) i

lemma mem_touchedRelations (hg : Good s.deltas) {t : Touched (List Member)}
    (h : touchedRelation s f i = some t) : t ∈ (workOf s f).touchedRelations := by
  have hl := lookup_touchedRelations (w := workOf s f) hg i
  exact mem_of_lookup (hl.trans h)

/-- A relation after a run: resolved again, or as it was. -/
lemma cur_relation_runOnce (hg : Good s.deltas) (h : f.diffs ≠ []) :
    cur (runOnce s f) .relation i = match touchedRelation s f i with
      | some t => ((resolveRelation s.base (workOf s f).nodeCoords (workOf s f).wayBoxes
          (workOf s f).relationBoxes t).map (byidCols (t := .relation))).alive
      | none => cur s .relation i := by
  rw [cur_runOnce hg h, row_relation hg]
  show ((Option.map _ (touchedRelation s f i)).map _).getD _ = _
  cases touchedRelation s f i <;> rfl

/-- The first pass over a relation that is resolved. -/
lemma curRelOwn_touched (hg : Good s.deltas) (h : f.diffs ≠ []) {t : Touched (List Member)}
    (ht : touchedRelation s f i = some t) : curRelOwn (runOnce s f) i =
      if t.deleted then none else curOwnBox (runOnce s f) t.body := by
  rw [curRelOwn, cur_relation_runOnce hg h, ht]
  rcases hd : t.deleted with _ | _
  · simp [resolveRelation, hd, DeltaRow.map, DeltaRow.alive, byidCols]
  · simp [resolveRelation, hd, DeltaRow.map, DeltaRow.alive, deletedRow]

/-- The boxes a run takes for the member relations: of the touched ones after the first pass, of
the others as they are stored. -/
lemma lookup_relationBoxes (hg : Good s.deltas) (h : f.diffs ≠ [])
    (hw : WayBoxesCurrent (runOnce s f)) (hi : i ∈ (workOf s f).members .relation) :
    (lookup Prod.fst i (workOf s f).relationBoxes).map Prod.snd = match touchedRelation s f i with
      | some t => if t.deleted then none else curOwnBox (runOnce s f) t.body
      | none => (cur s .relation i).bind fun r => r.cols.bbox := by
  have hR := distinct_touchedRelations (w := workOf s f) (oneChange_keptOf s f)
  have hl : lookup Touched.id i (workOf s f).touchedRelations = touchedRelation s f i :=
    lookup_touchedRelations (w := workOf s f) hg i
  have h1 := lookup_boxes (hR.filter fun r => !r.deleted)
    (fun r => ownBox (workOf s f).nodeCoords (workOf s f).wayBoxes r.body) i
  rw [hR.lookup_filter, hl] at h1
  have h2 := lookup_fetchBoxes (t := .relation) hg (fun r => r.cols.bbox)
    (workOf s f).relationIds hi
  rw [Work.relationBoxes, lookup_append, Option.map_or, h1]
  rw [show (workOf s f).root = s from rfl, h2]
  rcases ht : touchedRelation s f i with _ | t
  · show Option.or none _ = _
    rw [Option.none_or]
    split
    · rfl
    · rename_i hin
      rw [eq_none_of_touchedRow ht (not_not.mp hin)]
      rfl
  · have hin : i ∈ (workOf s f).relationIds :=
      mem_of_touchedRow (fun _ => keptIds_subset_relationIds) ht
    rcases hd : t.deleted with _ | _
    · have hown := ownBox_eq hg h hw (mem_touchedRelations hg ht) hd
      simp [hin, hd, hown, Option.filter]
    · simp [hin, hd, Option.filter]

/-- The run resolves no relation over a member relation that it does not resolve and whose own
member relations reach out of the box of its nodes and ways. -/
def Flat (s : Root) (f : Fetched) : Prop :=
  ∀ t ∈ (workOf s f).touchedRelations, t.deleted = false → ∀ m ∈ t.body, m.type = .relation →
    m.ref ∉ (workOf s f).relationIds → ∀ r, cur s .relation m.ref = some r →
      curBox s r.cols.members = curOwnBox s r.cols.members

/-- What holds of a base the builder made, and is kept by the runs. -/
structure Derived (s : Root) : Prop where
  agrees : BaseAgrees s.base
  nodeWay : NodeWayCovers s.base
  member : MemberCovers s.base
  ways : WaysCurrent s
  relations : RelationsCurrent s

/-- For a flat run the member relations have the boxes of the first pass. -/
lemma relationBox_eq (hg : Good s.deltas) (h : f.diffs ≠ []) (hs : Derived s)
    (hw : WayBoxesCurrent (runOnce s f)) (hflat : Flat s f) {t : Touched (List Member)}
    (ht : t ∈ (workOf s f).touchedRelations) (hd : t.deleted = false) {m : Member} (hm : m ∈ t.body)
    (hk : m.type = .relation) : (lookup Prod.fst m.ref (workOf s f).relationBoxes).map Prod.snd =
      curRelOwn (runOnce s f) m.ref := by
  have hmem : m.ref ∈ (workOf s f).members .relation :=
    List.mem_flatMap.mpr ⟨t, List.mem_filter.mpr ⟨ht, by simp [hd]⟩,
      List.mem_map_of_mem (List.mem_filter.mpr ⟨hm, by simp [hk]⟩)⟩
  rw [lookup_relationBoxes hg h hw hmem]
  rcases hx : touchedRelation s f m.ref with _ | x
  · rw [curRelOwn, cur_relation_runOnce hg h, hx]
    show _ = (cur s .relation m.ref).bind _
    rcases hc : cur s .relation m.ref with _ | r
    · rfl
    · have hin : m.ref ∉ (workOf s f).relationIds := by
        intro hin
        have hnone := eq_none_of_touchedRow hx hin
        rw [hc] at hnone
        cases hnone
      have hseed : m.ref ∉ Work.seed (workOf s f) := fun hin' =>
        hin (relationIds_of_seed (w := workOf s f) hg hin' (Option.isSome_of_eq_some hc))
      have hbox := (relationsCurrent_iff hg).mp hs.relations m.ref r hc
      calc r.cols.bbox = curBox s r.cols.members := hbox
        _ = curOwnBox s r.cols.members := hflat t ht hd m hm hk hin r hc
        _ = curOwnBox (runOnce s f) r.cols.members :=
          (curOwnBox_of_not_seed hg h hs.nodeWay hs.member hc hseed).symm
  · rw [curRelOwn_touched hg h hx]

/-- A relation that is not resolved again has the same box in both passes. -/
lemma curBox_of_untouched (hg : Good s.deltas) (h : f.diffs ≠ []) (hs : Derived s)
    {r : Row RelationCols} (hcur : cur s .relation i = some r) (hx : touchedRelation s f i = none) :
    curBox (runOnce s f) r.cols.members = curBox s r.cols.members := by
  have hin : i ∉ (workOf s f).relationIds := by
    intro hin
    have hnone := eq_none_of_touchedRow hx hin
    rw [hcur] at hnone
    cases hnone
  have hseed : i ∉ Work.seed (workOf s f) := fun hin' =>
    hin (relationIds_of_seed (w := workOf s f) hg hin' (Option.isSome_of_eq_some hcur))
  have hnest : ∀ m ∈ r.cols.members, curRelOwn (runOnce s f) m.ref = curRelOwn s m.ref := by
    intro m hmem
    have hms : m.ref ∉ Work.seed (workOf s f) := fun hin' =>
      hin (relationIds_of_parent (w := workOf s f) hg hs.member hcur hmem hin')
    have hkept : changeById m.ref (keptOf s f .relation) = none :=
      lookup_eq_none.mpr fun hk => hms (List.mem_dedup.mpr
        (List.mem_append_left _ (List.mem_append_left _ hk)))
    -- the member is not in the batch: resolved again or not, its members stay
    rcases ht : touchedRelation s f m.ref with _ | t
    · rw [curRelOwn, curRelOwn, cur_relation_runOnce hg h, ht]
      show (cur s .relation m.ref).bind _ = _
      rcases hc : cur s .relation m.ref with _ | x
      · rfl
      · exact curOwnBox_of_not_seed hg h hs.nodeWay hs.member hc hms
    · rw [curRelOwn_touched hg h ht, curRelOwn]
      rw [touchedRelation, touchedRow, hkept] at ht
      simp only at ht
      split at ht
      · obtain ⟨x, hc, rfl⟩ := Option.map_eq_some_iff.mp ht
        rw [hc]
        exact curOwnBox_of_not_seed hg h hs.nodeWay hs.member hc hms
      · cases ht
  unfold curBox
  rw [curOwnBox_of_not_seed hg h hs.nodeWay hs.member hcur hseed]
  congr 2
  exact List.filterMap_congr fun m hm => hnest m (List.mem_filter.mp hm).1

/-- **A flat run keeps the boxes of all relations as the builder would make them.** -/
theorem derived_runOnce (hg : Good s.deltas) (hs : Derived s) (hflat : f.diffs ≠ [] → Flat s f) :
    Derived (runOnce s f) := by
  by_cases h : f.diffs = []
  · rwa [runOnce_of_nil h]
  have hw : WaysCurrent (runOnce s f) := waysCurrent_runOnce hg hs.agrees hs.nodeWay hs.ways
  have hb := base_runOnce s f
  have hbox : WayBoxesCurrent (runOnce s f) := wayBoxesCurrent (by rw [hb]; exact hs.agrees) hw
  refine ⟨by rw [hb]; exact hs.agrees, by rw [hb]; exact hs.nodeWay, by rw [hb]; exact hs.member,
    hw, (relationsCurrent_iff (good_runOnce hg f)).mpr fun i r hr => ?_⟩
  rcases hx : touchedRelation s f i with _ | t
  · rw [cur_relation_runOnce hg h, hx] at hr
    rw [(relationsCurrent_iff hg).mp hs.relations i r hr, curBox_of_untouched hg h hs hr hx]
  · rw [cur_relation_runOnce hg h, hx] at hr
    have ht := mem_touchedRelations hg hx
    rcases hd : t.deleted with _ | _
    · simp only [resolveRelation, hd] at hr
      cases hr
      have hown := ownBox_eq hg h hbox ht hd
      show nestedBox (ownBox _ _ t.body) _ t.body = curBox _ t.body
      unfold nestedBox curBox
      rw [hown]
      congr 2
      refine List.filterMap_congr fun m hm => ?_
      obtain ⟨hm, hk⟩ := List.mem_filter.mp hm
      exact relationBox_eq hg h hs hbox (hflat h) ht hd hm (of_decide_eq_true hk)
    · simp [resolveRelation, hd, deletedRow, DeltaRow.map, DeltaRow.alive] at hr

end Step

/-! ### All runs -/

/-- All runs with a diff are flat. -/
def AllFlat : Root → List Fetched → Prop
  | _, [] => True
  | s, f :: fs => (f.diffs ≠ [] → Flat s f) ∧ AllFlat (runOnce s f) fs

lemma derived_runs {s : Root} (hg : Good s.deltas) (hs : Derived s) {fs : List Fetched}
    (hflat : AllFlat s fs) : Derived (runs s fs) := by
  induction fs generalizing s with
  | nil => exact hs
  | cons f fs ih => exact ih (good_runOnce hg f) (derived_runOnce hg hs hflat.1) hflat.2

/-- **The box of a relation is a matter of the current data** along every sequence of flat runs
over a base the builder made: it is the box that the builder gives the relation when it starts
over from the current nodes, ways and relations. -/
theorem relation_box_rebuilt (b : Base) (hb : Derived (fresh b)) (fs : List Fetched)
    (hflat : AllFlat (fresh b) fs) (i : ℤ) (r : Row RelationCols)
    (hr : cur (runs (fresh b) fs) .relation i = some r) :
    lookup Prod.fst i (rebuilt (runs (fresh b) fs)) = some (i, r.cols.bbox) :=
  (derived_runs (good_fresh b) hb hflat).relations i r hr

/-! ### Relations three deep -/

/-- A node in a relation, in a relation, in a relation. The outer one has no box, as the builder
does not look two levels down. -/
def threeDeep : World where
  rows
    | .node => [node 10 ⟨0, 0⟩]
    | .way => []
    | .relation => [relation 1 [⟨.relation, 2, ""⟩] none,
        relation 2 [⟨.relation, 3, ""⟩] (some ⟨0, 0, 0, 0⟩),
        relation 3 [⟨.node, 10, ""⟩] (some ⟨0, 0, 0, 0⟩)]
  once t := by cases t <;> simp [Distinct, node, relation]
  placed t := by cases t <;> simp [node, relation]
  refs := no_refs

lemma derived_threeDeep : Derived (fresh threeDeep.base) := by
  refine ⟨baseAgrees _, nodeWayCovers _, memberCovers _, ?_, ?_⟩
  · intro i r hr
    have hmem := mem_of_curSpatial _ hr
    cases hmem
  · intro i r hr
    obtain ⟨hmem, rfl⟩ := mem_of_cur _ hr
    have hall : ∀ r ∈ (threeDeep.rows .relation).map (Row.map byidCols),
        lookup Prod.fst r.id (rebuilt (fresh threeDeep.base)) = some (r.id, r.cols.bbox) := by
      decide
    exact hall r hmem

/-- A new position of the node. -/
def moveInner : Fetched := ⟨[diff 1 [change 10 2 (some ⟨30, 40⟩)] [] []], some 0⟩

/-- A new version of the outer relation, with the member it has. -/
def touchOuter : Fetched := ⟨[diff 2 [] [] [change 1 2 [⟨.relation, 2, ""⟩]]], some 10⟩

lemma allFlat_moveInner : AllFlat (fresh threeDeep.base) [moveInner] := by
  have hall : ∀ t ∈ (workOf (fresh threeDeep.base) moveInner).touchedRelations, ∀ m ∈ t.body,
      m.type = .relation → m.ref ∈ (workOf (fresh threeDeep.base) moveInner).relationIds := by
    decide
  exact ⟨fun _ t ht _ m hm hk hnot => absurd (hall t ht m hm hk) hnot, trivial⟩

/-- When the node moves, all relations above it are resolved, and the boxes are the builder's. -/
theorem rebuilt_after_move : Derived (fresh threeDeep.base) ∧
    AllFlat (fresh threeDeep.base) [moveInner] ∧
    ∀ i r, cur (runs (fresh threeDeep.base) [moveInner]) .relation i = some r →
      lookup Prod.fst i (rebuilt (runs (fresh threeDeep.base) [moveInner])) =
        some (i, r.cols.bbox) :=
  ⟨derived_threeDeep, allFlat_moveInner,
    relation_box_rebuilt _ derived_threeDeep _ allFlat_moveInner⟩

/-- When the outer relation is resolved alone it gets the stored box of the middle one, and with
it the node two levels down. -/
theorem outer_box_reaches_down : Derived (fresh threeDeep.base) ∧
    ∃ r, cur (runs (fresh threeDeep.base) [touchOuter]) .relation 1 = some r ∧
      lookup Prod.fst 1 (rebuilt (runs (fresh threeDeep.base) [touchOuter])) ≠
        some (1, r.cols.bbox) := by
  refine ⟨derived_threeDeep, _, rfl, ?_⟩
  decide

end OsmParquet.RelationBoxes
