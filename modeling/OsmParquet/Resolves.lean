import OsmParquet.Updater

/-!
What a run resolves, one id at a time.

Every table the updater makes on the way is found by id, and what is found depends only on
the batch and on the current rows of the dataset. From these lemmas follows what every batch
of resolved rows is like: one row an id, `prev_cell` the cell of the current row, and a
deleting row only for an element that exists.
-/

namespace OsmParquet.Resolves

open OsmParquet.KeyedList OsmParquet.Rows OsmParquet.Tiers OsmParquet.TierSteps
open OsmParquet.ByidReads OsmParquet.Updater

/-- The current row of an element. -/
def cur (s : Root) (t : Typ) (i : ℤ) : Option (Row (ByidCols t)) :=
  current (s.base.byid t) s.deltas i

/-- The columns of the promoted keys are filled in from the tags. -/
def Promoted (s : Root) : Prop :=
  ∀ t i p, cur s t i = some p →
    (attrs p.cols).promoted = s.base.promotedKeys.map (tagValue (attrs p.cols).tags)

section Fetch

variable {s : Root} {t : Typ} {i : ℤ}

lemma id_of_cur (hg : Good s.deltas) {r : Row (ByidCols t)} (h : cur s t i = some r) : r.id = i :=
  id_of_current hg h

lemma byId_fetch (hg : Good s.deltas) (ids : List ℤ) :
    byId i (s.fetch t ids) = if i ∈ ids then cur s t i else none := byId_fetchCurrent _ hg ids i

lemma distinct_fetch (s : Root) (t : Typ) (ids : List ℤ) : Distinct Row.id (s.fetch t ids) :=
  distinct_fetchCurrent _ _ _

lemma mem_fetch_ids (hg : Good s.deltas) {ids : List ℤ} :
    i ∈ (s.fetch t ids).map Row.id ↔ i ∈ ids ∧ (cur s t i).isSome := by
  rw [← lookup_isSome]
  have h := @byId_fetch s t i hg ids
  simp only [byId] at h
  rw [h]
  by_cases hi : i ∈ ids <;> simp [hi]

end Fetch

/-! ### The kept batch -/

section Kept

variable {s : Root} {batch : Batch}

/-- The batch has at most one change an element. -/
def OneChange (batch : Batch) : Prop := ∀ t, Distinct Change.id (batch t)

lemma oneChange_parseBatch (diffs : List Diff) : OneChange (parseBatch diffs) := fun _ =>
  distinct_firstPerKey

lemma oneChange_dropStaleVersions (h : OneChange batch) : OneChange (dropStaleVersions s batch) :=
  fun t => (h t).filter _

lemma oneChange_extentFilter (h : OneChange batch) : OneChange (extentFilter s batch) := by
  intro t
  cases t with
  | node => exact (h .node).filter _
  | way => exact (h .way).filter _
  | relation => exact (h .relation).filter _

/-- Whether a change is newer than the current row. -/
def newer {t : Typ} (s : Root) (c : Change (Body t)) : Bool :=
  match cur s t c.id with
  | none => true
  | some p => c.version > (attrs p.cols).version

lemma dropStaleVersions_eq (hg : Good s.deltas) (t : Typ) :
    dropStaleVersions s batch t = (batch t).filter (newer s) := by
  refine List.filter_congr fun b hb => ?_
  rw [byId_fetch hg, if_pos (List.mem_map_of_mem hb)]
  rfl

lemma mem_existsNode (hg : Good s.deltas) {i : ℤ} : i ∈ (existsNode s batch).map Row.id ↔
    (i ∈ (batch .node).map Change.id ∨ i ∈ (batch .way).flatMap Change.body ∨
      i ∈ memberIds .node (batch .relation)) ∧ (cur s .node i).isSome := by
  refine (mem_fetch_ids (t := .node) hg).trans ?_
  simp only [List.mem_append, or_assoc]

lemma mem_existsWay (hg : Good s.deltas) {i : ℤ} : i ∈ (existsWay s batch).map Row.id ↔
    (i ∈ (batch .way).map Change.id ∨ i ∈ memberIds .way (batch .relation)) ∧
      (cur s .way i).isSome := by
  refine (mem_fetch_ids (t := .way) hg).trans ?_
  rw [List.mem_append]

lemma mem_existsRelation (hg : Good s.deltas) {i : ℤ} : i ∈ (existsRelation s batch).map Row.id ↔
    (i ∈ (batch .relation).map Change.id ∨ i ∈ memberIds .relation (batch .relation)) ∧
      (cur s .relation i).isSome := by
  refine (mem_fetch_ids (t := .relation) hg).trans ?_
  rw [List.mem_append]

/-- A deletion is kept only of an element that exists. -/
lemma exists_of_kept_deleted (hg : Good s.deltas) {t : Typ} {c : Change (Body t)}
    (hc : c ∈ extentFilter s batch t) (hd : c.deleted = true) : (cur s t c.id).isSome := by
  cases t with
  | node =>
    have h := (List.mem_filter.mp hc).2
    simp only [hd, Bool.not_true, Bool.false_and, Bool.or_false, decide_eq_true_eq] at h
    exact ((mem_existsNode hg).mp h).2
  | way =>
    have h := (List.mem_filter.mp hc).2
    simp only [hd, Bool.not_true, Bool.false_and, Bool.or_false, decide_eq_true_eq] at h
    exact ((mem_existsWay hg).mp h).2
  | relation =>
    have h := (List.mem_filter.mp hc).2
    simp only [hd, Bool.not_true, Bool.false_and, Bool.or_false, decide_eq_true_eq] at h
    exact ((mem_existsRelation hg).mp h).2

lemma mem_of_kept {t : Typ} {c : Change (Body t)} (hc : c ∈ extentFilter s batch t) :
    c ∈ batch t := by
  cases t <;> exact (List.mem_filter.mp hc).1

end Kept

/-! ### The touched elements -/

section Touched

variable {w : Work}

lemma keptIds_subset_wayIds {i : ℤ} (h : i ∈ (w.kept .way).map Change.id) : i ∈ w.wayIds := by
  simp only [Work.wayIds, touchedWayIds, List.mem_dedup, List.mem_append]
  exact Or.inl h

lemma keptIds_subset_relationIds {i : ℤ} (h : i ∈ (w.kept .relation).map Change.id) :
    i ∈ w.relationIds := by
  simp only [Work.relationIds, touchedRelationIds, List.mem_dedup, List.mem_append]
  exact Or.inl h

/-- A touched element: from the kept batch, or as it is stored. -/
def touchedRow {α β : Type} (s : Root) (kept : List (Change β)) (ids : List ℤ)
    (f : ℤ → Option (Row α)) (asIs : Row α → Touched β) (i : ℤ) : Option (Touched β) :=
  match changeById i kept with
  | some c => some ⟨c.id, c.body, changeAttrs s c, c.deleted, c.seq, (f i).bind Row.cell⟩
  | none => if i ∈ ids then (f i).map asIs else none

/-- The rows that `touchedWays` and `touchedRelations` are made of, in general. -/
lemma lookup_touched {α β : Type} {s : Root} {kept : List (Change β)} {ids : List ℤ}
    {prior : List (Row α)} {f : ℤ → Option (Row α)} {asIs : Row α → Touched β}
    (hsub : ∀ i ∈ kept.map Change.id, i ∈ ids)
    (hp : ∀ i, byId i prior = if i ∈ ids then f i else none) (has : ∀ r, (asIs r).id = r.id)
    (i : ℤ) :
    lookup Touched.id i (kept.map (Touched.ofChange s prior) ++
      (prior.filter fun p => p.id ∉ kept.map Change.id).map asIs) =
        touchedRow s kept ids f asIs i := by
  have h1 : lookup Touched.id i (kept.map (Touched.ofChange s prior)) =
      (changeById i kept).map (Touched.ofChange s prior) := lookup_map fun _ => rfl
  have h2 : lookup Touched.id i ((prior.filter fun p => p.id ∉ kept.map Change.id).map asIs) =
      (byId i (prior.filter fun p => p.id ∉ kept.map Change.id)).map asIs := lookup_map has
  have h3 : byId i (prior.filter fun p => p.id ∉ kept.map Change.id) =
      if i ∈ kept.map Change.id then none else byId i prior := lookup_without _
  rw [lookup_append, h1, h2, h3, touchedRow]
  rcases hc : changeById i kept with _ | c
  · rw [if_neg (lookup_eq_none.mp hc), hp]
    by_cases hi : i ∈ ids <;> simp [hi]
  · have hid : c.id = i := key_of_lookup hc
    have hmem : i ∈ kept.map Change.id := hid ▸ List.mem_map_of_mem (mem_of_lookup hc)
    have hpi := hp i
    rw [if_pos (hsub i hmem)] at hpi
    simp only [Option.map_some, Option.some_or, Touched.ofChange, hid, hpi]

lemma distinct_touched {α β : Type} {s : Root} {kept : List (Change β)} {prior : List (Row α)}
    {asIs : Row α → Touched β} (hk : Distinct Change.id kept) (hu : Distinct Row.id prior)
    (has : ∀ r, (asIs r).id = r.id) :
    Distinct Touched.id (kept.map (Touched.ofChange s prior) ++
      (prior.filter fun p => p.id ∉ kept.map Change.id).map asIs) := by
  refine distinct_append ((distinct_map fun _ => rfl).mpr hk)
    ((distinct_map has).mpr (hu.filter _)) fun x hx hx' => ?_
  simp only [List.map_map, Function.comp_def, has, Touched.ofChange] at hx hx'
  exact (mem_map_without.mp hx).2 hx'

def asIsWay (seq : ℤ) (p : Row WayCols) : Touched (List ℤ) :=
  ⟨p.id, p.cols.refs, p.cols.attrs, false, seq, p.cell⟩

def asIsRelation (seq : ℤ) (p : Row RelationCols) : Touched (List Member) :=
  ⟨p.id, p.cols.members, p.cols.attrs, false, seq, p.cell⟩

/-- **The touched ways**, one id at a time. -/
lemma lookup_touchedWays (hg : Good w.root.deltas) (i : ℤ) :
    lookup Touched.id i w.touchedWays = touchedRow w.root (w.kept .way) w.wayIds (cur w.root .way)
      (asIsWay w.lastSeq) i :=
  lookup_touched (fun _ h => keptIds_subset_wayIds h)
    (fun _ => byId_fetch hg _) (fun _ => rfl) i

/-- **The touched relations**, one id at a time. -/
lemma lookup_touchedRelations (hg : Good w.root.deltas) (i : ℤ) :
    lookup Touched.id i w.touchedRelations = touchedRow w.root (w.kept .relation) w.relationIds
      (cur w.root .relation) (asIsRelation w.lastSeq) i :=
  lookup_touched (fun _ h => keptIds_subset_relationIds h)
    (fun _ => byId_fetch hg _) (fun _ => rfl) i

lemma distinct_touchedWays (hk : OneChange w.kept) : Distinct Touched.id w.touchedWays :=
  distinct_touched (hk .way) (distinct_fetch _ _ _) fun _ => rfl

lemma distinct_touchedRelations (hk : OneChange w.kept) : Distinct Touched.id w.touchedRelations :=
  distinct_touched (hk .relation) (distinct_fetch _ _ _) fun _ => rfl

lemma mem_of_touchedRow {α β : Type} {s : Root} {kept : List (Change β)} {ids : List ℤ}
    {f : ℤ → Option (Row α)} {asIs : Row α → Touched β} {i : ℤ} {x : Touched β}
    (hsub : ∀ i ∈ kept.map Change.id, i ∈ ids) (h : touchedRow s kept ids f asIs i = some x) :
    i ∈ ids := by
  unfold touchedRow at h
  split at h
  · rename_i c hc
    have hid : c.id = i := key_of_lookup hc
    exact hsub i (hid ▸ List.mem_map_of_mem (mem_of_lookup hc))
  · split at h
    · assumption
    · cases h

/-- Of the touched ids only those of no element are without a row. -/
lemma eq_none_of_touchedRow {α β : Type} {s : Root} {kept : List (Change β)} {ids : List ℤ}
    {f : ℤ → Option (Row α)} {asIs : Row α → Touched β} {i : ℤ}
    (h : touchedRow s kept ids f asIs i = none) (hi : i ∈ ids) : f i = none := by
  unfold touchedRow at h
  split at h
  · cases h
  · rw [if_pos hi] at h
    exact Option.map_eq_none_iff.mp h

/-- What is touched keeps the current cell, and deletes only what is kept as deleted. -/
lemma touchedRow_spec {α β : Type} {s : Root} {kept : List (Change β)} {ids : List ℤ}
    {f : ℤ → Option (Row α)} {asIs : Row α → Touched β}
    (has : ∀ r, (asIs r).prevCell = r.cell ∧ (asIs r).deleted = false) {i : ℤ} {x : Touched β}
    (h : touchedRow s kept ids f asIs i = some x) :
    x.prevCell = (f i).bind Row.cell ∧
      (x.deleted = true → ∃ c ∈ kept, c.id = i ∧ c.deleted = true) := by
  unfold touchedRow at h
  split at h
  · rename_i c hc
    cases h
    exact ⟨rfl, fun hd => ⟨c, mem_of_lookup hc, key_of_lookup hc, hd⟩⟩
  · split at h
    · obtain ⟨r, hr, rfl⟩ := Option.map_eq_some_iff.mp h
      rw [hr]
      refine ⟨(has r).1, fun hd => ?_⟩
      rw [(has r).2] at hd
      cases hd
    · cases h

end Touched

/-! ### The resolved rows -/

/-- What a batch of resolved rows is like over the current rows it was resolved from. -/
structure ResolvedFor (s : Root) (R : Resolved) : Prop where
  once : ∀ t, Distinct DeltaRow.id (R t)
  prev : ∀ t, ∀ r ∈ R t, r.prevCell = (cur s t r.id).bind Row.cell
  deleted : ∀ t, ∀ r ∈ R t, r.deleted = true →
    r.cols = none ∧ r.cell = r.prevCell ∧ (cur s t r.id).isSome
  live : ∀ t, ∀ r ∈ R t, r.deleted = false → r.cols.isSome ∧ r.cell.isSome

section Resolve

variable {base : Base} {coords : List (ℤ × Option Point)} {ways rels : List (ℤ × BBox)}

@[simp] lemma resolveWay_id (t : Touched (List ℤ)) : (resolveWay base coords t).id = t.id := by
  unfold resolveWay; split <;> rfl

@[simp] lemma resolveWay_prevCell (t : Touched (List ℤ)) :
    (resolveWay base coords t).prevCell = t.prevCell := by
  unfold resolveWay; split <;> rfl

@[simp] lemma resolveWay_deleted (t : Touched (List ℤ)) :
    (resolveWay base coords t).deleted = t.deleted := by
  unfold resolveWay; split
  · rename_i h; exact h.symm
  · rename_i h; simpa using h

@[simp] lemma resolveRelation_id (t : Touched (List Member)) :
    (resolveRelation base coords ways rels t).id = t.id := by
  unfold resolveRelation; split <;> rfl

@[simp] lemma resolveRelation_prevCell (t : Touched (List Member)) :
    (resolveRelation base coords ways rels t).prevCell = t.prevCell := by
  unfold resolveRelation; split <;> rfl

@[simp] lemma resolveRelation_deleted (t : Touched (List Member)) :
    (resolveRelation base coords ways rels t).deleted = t.deleted := by
  unfold resolveRelation; split
  · rename_i h; exact h.symm
  · rename_i h; simpa using h

@[simp] lemma resolveNode_id (s : Root) (exist : List (Row NodeCols)) (c : Change (Option Point)) :
    (resolveNode s exist c).id = c.id := by
  unfold resolveNode; simp only; split <;> rfl

@[simp] lemma resolveNode_deleted (s : Root) (exist : List (Row NodeCols))
    (c : Change (Option Point)) : (resolveNode s exist c).deleted = c.deleted := by
  unfold resolveNode; simp only; split
  · rename_i h; exact h.symm
  · rename_i h; simpa using h

@[simp] lemma resolveNode_prevCell (s : Root) (exist : List (Row NodeCols))
    (c : Change (Option Point)) :
    (resolveNode s exist c).prevCell = (byId c.id exist).bind Row.cell := by
  unfold resolveNode; simp only; split <;> rfl

end Resolve

section Spec

variable {s : Root} {batch : Batch} {seq : ℤ}

/-- The current row of a node of the batch, as the extent filter fetched it. -/
lemma byId_existsNode (hg : Good s.deltas) {c : Change (Option Point)} (hc : c ∈ batch .node) :
    byId c.id (existsNode s batch) = cur s .node c.id := by
  rw [existsNode, byId_fetch hg, if_pos]
  simp only [List.mem_append]
  exact Or.inl (Or.inl (List.mem_map_of_mem hc))

lemma once_resolve (hb : OneChange batch) (t : Typ) : Distinct DeltaRow.id
    (Work.resolve ⟨s, extentFilter s batch, seq⟩ (existsNode s batch) t) := by
  have hk : OneChange (extentFilter s batch) := oneChange_extentFilter hb
  cases t with
  | node => exact (distinct_map fun _ => resolveNode_id _ _ _).mpr (hk .node)
  | way => exact (distinct_map fun _ => resolveWay_id _).mpr (distinct_touchedWays hk)
  | relation =>
    exact (distinct_map fun _ => resolveRelation_id _).mpr (distinct_touchedRelations hk)

/-- The rows that are touched have the cell of the current row, and if deleted one to delete. -/
lemma touchedRow_of_mem {t : Typ} {kept : List (Change (Body t))} {l : List (Touched (Body t))}
    {ids : List ℤ} {asIs : Row (ByidCols t) → Touched (Body t)} (hu : Distinct Touched.id l)
    (has : ∀ r, (asIs r).prevCell = r.cell ∧ (asIs r).deleted = false)
    (hl : ∀ i, lookup Touched.id i l = touchedRow s kept ids (cur s t) asIs i)
    (hex : ∀ c ∈ kept, c.deleted = true → (cur s t c.id).isSome) {x : Touched (Body t)}
    (hx : x ∈ l) :
    x.prevCell = (cur s t x.id).bind Row.cell ∧ (x.deleted = true → (cur s t x.id).isSome) := by
  have h := hu.lookup_of_mem hx
  rw [hl] at h
  obtain ⟨hprev, hdel⟩ := touchedRow_spec has h
  refine ⟨hprev, fun hd => ?_⟩
  obtain ⟨c, hc, hid, hcd⟩ := hdel hd
  rw [← hid]
  exact hex c hc hcd

/-- What a resolved row is like, given the current row of its element. -/
structure RowFor {t : Typ} (s : Root) (r : DeltaRow (SpatialCols t)) : Prop where
  prev : r.prevCell = (cur s t r.id).bind Row.cell
  deleted : r.deleted = true → r.cols = none ∧ r.cell = r.prevCell ∧ (cur s t r.id).isSome
  live : r.deleted = false → r.cols.isSome ∧ r.cell.isSome

lemma rowFor_node (hg : Good s.deltas) {c : Change (Option Point)}
    (hc : c ∈ extentFilter s batch .node) : RowFor (t := .node) s
    (resolveNode s (existsNode s batch) c) := by
  refine ⟨?_, fun hd => ?_, fun hd => ?_⟩
  · rw [resolveNode_prevCell, resolveNode_id, byId_existsNode hg (mem_of_kept hc)]
  · rw [resolveNode_deleted] at hd
    have hex := exists_of_kept_deleted (t := .node) hg hc hd
    refine ⟨?_, ?_, by rwa [resolveNode_id]⟩
    · simp [resolveNode, hd]
    · simp [resolveNode, hd]
  · rw [resolveNode_deleted] at hd
    simp [resolveNode, hd]

lemma rowFor_way {base : Base} {coords : List (ℤ × Option Point)} {x : Touched (List ℤ)}
    (h : x.prevCell = (cur s .way x.id).bind Row.cell ∧
      (x.deleted = true → (cur s .way x.id).isSome)) :
    RowFor (t := .way) s (resolveWay base coords x) := by
  refine ⟨?_, fun hd => ?_, fun hd => ?_⟩
  · rw [resolveWay_prevCell, resolveWay_id]
    exact h.1
  · rw [resolveWay_deleted] at hd
    refine ⟨?_, ?_, by rw [resolveWay_id]; exact h.2 hd⟩
    · simp [resolveWay, hd, deletedRow]
    · simp [resolveWay, hd, deletedRow]
  · rw [resolveWay_deleted] at hd
    simp [resolveWay, hd]

lemma rowFor_relation {base : Base} {coords : List (ℤ × Option Point)} {ways rels : List (ℤ × BBox)}
    {x : Touched (List Member)} (h : x.prevCell = (cur s .relation x.id).bind Row.cell ∧
      (x.deleted = true → (cur s .relation x.id).isSome)) :
    RowFor (t := .relation) s (resolveRelation base coords ways rels x) := by
  refine ⟨?_, fun hd => ?_, fun hd => ?_⟩
  · rw [resolveRelation_prevCell, resolveRelation_id]
    exact h.1
  · rw [resolveRelation_deleted] at hd
    refine ⟨?_, ?_, by rw [resolveRelation_id]; exact h.2 hd⟩
    · simp [resolveRelation, hd, deletedRow]
    · simp [resolveRelation, hd, deletedRow]
  · rw [resolveRelation_deleted] at hd
    simp [resolveRelation, hd]

lemma rowFor_resolve (hg : Good s.deltas) (hb : OneChange batch) {t : Typ}
    {r : DeltaRow (SpatialCols t)}
    (hr : r ∈ Work.resolve ⟨s, extentFilter s batch, seq⟩ (existsNode s batch) t) : RowFor s r := by
  have hk : OneChange (extentFilter s batch) := oneChange_extentFilter hb
  cases t with
  | node =>
    obtain ⟨c, hc, rfl⟩ := List.mem_map.mp hr
    exact rowFor_node hg hc
  | way =>
    obtain ⟨x, hx, rfl⟩ := List.mem_map.mp hr
    exact rowFor_way (touchedRow_of_mem (t := .way) (distinct_touchedWays hk) (fun _ => ⟨rfl, rfl⟩)
      (lookup_touchedWays hg) (fun c hc => exists_of_kept_deleted hg hc) hx)
  | relation =>
    obtain ⟨x, hx, rfl⟩ := List.mem_map.mp hr
    exact rowFor_relation (touchedRow_of_mem (t := .relation) (distinct_touchedRelations hk)
      (fun _ => ⟨rfl, rfl⟩) (lookup_touchedRelations hg)
      (fun c hc => exists_of_kept_deleted hg hc) hx)

/-- **Every batch of resolved rows is one for the dataset it was resolved from.** -/
theorem resolvedFor_resolve (hg : Good s.deltas) (hb : OneChange batch) :
    ResolvedFor s (Work.resolve ⟨s, extentFilter s batch, seq⟩ (existsNode s batch)) where
  once := once_resolve hb
  prev _ _ hr := (rowFor_resolve hg hb hr).prev
  deleted _ _ hr := (rowFor_resolve hg hb hr).deleted
  live _ _ hr := (rowFor_resolve hg hb hr).live

end Spec

/-! ### Runs -/

/-- The batch a run applies, after the filters. -/
def keptOf (s : Root) (f : Fetched) : Batch :=
  extentFilter s (dropStaleVersions s (parseBatch f.diffs))

lemma resolvedFor_resolvedOf {s : Root} (hg : Good s.deltas) (f : Fetched) :
    ResolvedFor s (resolvedOf s f) :=
  resolvedFor_resolve hg (oneChange_dropStaleVersions (oneChange_parseBatch _))

lemma oneRow_tierRun {s : Root} (hg : Good s.deltas) (f : Fetched) : (tierRun s f).OneRow :=
  (resolvedFor_resolvedOf hg f).once

/-- What a run does is nothing, or what the tiers do with a batch resolved for the dataset. -/
lemma runOnce_cases {s : Root} (hg : Good s.deltas) (f : Fetched) : runOnce s f = s ∨
    ResolvedFor s (tierRun s f).resolved ∧
      runOnce s f = { s with deltas := runTiers s.deltas (tierRun s f) } := by
  unfold runOnce
  split
  · exact Or.inl rfl
  · exact Or.inr ⟨resolvedFor_resolvedOf hg f, rfl⟩

lemma good_runOnce {s : Root} (hg : Good s.deltas) (f : Fetched) : Good (runOnce s f).deltas := by
  rcases runOnce_cases hg f with h | ⟨hR, h⟩
  · rw [h]; exact hg
  · rw [h]; exact good_runTiers hg hR.once

lemma base_runOnce (s : Root) (f : Fetched) : (runOnce s f).base = s.base := by
  unfold runOnce; split <;> rfl

lemma good_runs {s : Root} (hg : Good s.deltas) (fs : List Fetched) : Good (runs s fs).deltas := by
  induction fs generalizing s with
  | nil => exact hg
  | cons f fs ih => exact ih (good_runOnce hg f)

lemma base_runs (s : Root) (fs : List Fetched) : (runs s fs).base = s.base := by
  induction fs generalizing s with
  | nil => rfl
  | cons f fs ih => exact (ih (runOnce s f)).trans (base_runOnce s f)

lemma runs_append (s : Root) (fs gs : List Fetched) : runs s (fs ++ gs) = runs (runs s fs) gs := by
  simp [runs, List.foldl_append]

@[simp] lemma runs_singleton (s : Root) (f : Fetched) : runs s [f] = runOnce s f := rfl

end OsmParquet.Resolves
