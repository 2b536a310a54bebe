import OsmParquet.MemberGeometry

/-!
The parent relations of a set at a time.

There is no index of the members of past relations, so the lookup reads the relation history of the
cells of the set and of the cells above them, and looks into the members. It finds a parent exactly
if the cell that the parent had at the time is at or above the cell of some row of the set. That is
meant to hold because the box of a relation has the boxes of its members. For a relation in a
relation the box of the outer one is made with the box that the inner one has now, though.

The rows of the set have their cells as the column of a table has them. Where the database has made
numbers of the keys the lookup cannot take them apart.
-/

namespace OsmParquet.SnapshotParents

open OsmParquet.KeyedList OsmParquet.Rows OsmParquet.Tiers OsmParquet.Cells OsmParquet.Updater
open OsmParquet.Findable OsmParquet.HistoryTiers OsmParquet.Timeline OsmParquet.SplitCopies
open OsmParquet.Snapshots OsmParquet.HistoryWindows OsmParquet.HistoryCompact
  OsmParquet.HistoryBatch
open OsmParquet.Traces OsmParquet.Datasets OsmParquet.EndOfTime OsmParquet.HistoryBuild
open OsmParquet.SpatialSnapshots OsmParquet.Recurse OsmParquet.RunSteps OsmParquet.SpatialReads
open OsmParquet.MemberGeometry OsmParquet.PrevCells

/-! ### The states of relations that the build computes -/

/-- A version of a relation in the extract with history. -/
structure RelationVersion where
  id : ℤ
  version : ℤ
  tags : Option Tags
  members : List Member
  changeset : ℤ
  timestamp : ℤ
  uid : Option ℤ
  user : String
  visible : Bool

/-- What the build knows when it comes to the relations: the layout of the cells, the states of
nodes and ways, and the boxes that relations have now. -/
structure RelationInput where
  leafCells : List Cell
  ancestorDepths : List ℕ
  maxDepth : ℕ
  promotedKeys : List String
  nodes : List (HistoryRow NodeCols)
  ways : List (HistoryRow WaySpatialCols)
  currentBox : ℤ → Option BBox

section Compute

variable (e : RelationInput)

/-- A version as a state without box and cell. -/
def ownRow (v : RelationVersion) : HistoryRow RelationSpatialCols where
  id := v.id
  version := some v.version
  minor := 0
  timestamp := some v.timestamp
  validFrom := some v.timestamp
  validTo := none
  visible := v.visible
  cell := none
  cols := some ⟨⟨v.members, ⟨v.tags, e.promotedKeys.map (tagValue v.tags), v.version, v.changeset,
    some v.timestamp, v.uid, v.user⟩, none⟩, none, 0⟩

/-- The versions, each until the next one. -/
def relationOwn (versions : List RelationVersion) : List (HistoryRow RelationSpatialCols) :=
  leadValidTo startOf (versions.map (ownRow e))

def membersOf (r : HistoryRow RelationCols) : List Member := r.cols.elim [] RelationCols.members

def memberRows (r : HistoryRow RelationSpatialCols) : List Member :=
  membersOf (r.map (byidCols (t := .relation)))

/-- The starts of the states of an element while a version of a relation holds. -/
def eventsIn {α : Type} (states : List (HistoryRow α))
    (r : HistoryRow RelationSpatialCols) (i : ℤ) : List ℤ :=
  ((states.filter fun x => x.id = i).filterMap HistoryRow.validFrom).filter fun x =>
    r.validFrom.any (· < x) && r.validTo.all (x < ·)

/-- A node with one state has no event. -/
def nodeEvents (r : HistoryRow RelationSpatialCols) : List ℤ :=
  ((memberRows r).flatMap fun m =>
    if m.type = .node ∧ 1 < (e.nodes.filter fun x => x.id = m.ref).length then
      eventsIn e.nodes r m.ref else []).dedup

def wayEvents (r : HistoryRow RelationSpatialCols) : List ℤ :=
  ((memberRows r).flatMap fun m => if m.type = .way then eventsIn e.ways r m.ref else []).dedup

/-- The minor states of a version, one for each event of a member. An event of a node and one of a
way at the same time make two. -/
def minorStates (r : HistoryRow RelationSpatialCols) : List (HistoryRow RelationSpatialCols) :=
  (((nodeEvents e r ++ wayEvents e r).insertionSort (· ≤ ·)).zipIdx 1).map fun x =>
    { r with minor := x.2, validFrom := some x.1, validTo := none }

def statesMeta (versions : List RelationVersion) : List (HistoryRow RelationSpatialCols) :=
  let own := relationOwn e versions
  own.map strip ++ (own.filter HistoryRow.visible).flatMap (minorStates e)

/-- The box of a member at a time: of nodes and ways as they were then, of relations as they are
now. -/
def memberBBox (ts : ℤ) (m : Member) : Option BBox :=
  match m.type with
  | .node =>
    ((survivor startOf ts m.ref e.nodes).filter HistoryRow.visible).bind (stateBox (t := .node))
  | .way => ((survivor startOf ts m.ref e.ways).filter HistoryRow.visible).bind fun r =>
      stateBox (r.map (byidCols (t := .way)))
  | .relation => e.currentBox m.ref

def relationBBox (r : HistoryRow RelationSpatialCols) : Option BBox :=
  if r.visible then
    r.validFrom.bind fun ts => boxAround ((memberRows r).filterMap (memberBBox e ts))
  else none

/-- A state with its box, and with the place that a box gives it. Without a box no Hilbert key is
stored. -/
def placeRow (r : HistoryRow RelationSpatialCols) (place : Option BBox) :
    HistoryRow RelationSpatialCols :=
  { r with cols := r.cols.map fun c =>
      ⟨{ c.byid with bbox := relationBBox e r }, place.map bboxCentroid,
        if (relationBBox e r).isSome then boxHilbert place else 0⟩ }

/-- The states of a relation in their order, each in the cell of its box, or in the last cell there
was, or at the root. -/
def fillCells (last : Option Cell) :
    List (HistoryRow RelationSpatialCols × Option BBox) → List (HistoryRow RelationSpatialCols)
  | [] => []
  | (r, place) :: l =>
    let filled := (place.map (containingCellV2 e.leafCells e.ancestorDepths e.maxDepth)).or last
    { placeRow e r place with cell := some (filled.getD []) } :: fillCells filled l

/-- The places are joined by id and start. -/
def computeRelationStates (versions : List RelationVersion) :
    List (HistoryRow RelationSpatialCols) :=
  let states := statesMeta e versions
  (states.map HistoryRow.id).dedup.flatMap fun i =>
    let mine := (states.filter fun r => r.id = i).insertionSort fun a b => startOf a ≤ startOf b
    fillCells e none (mine.flatMap fun r =>
      (mine.filter fun a => a.validFrom = r.validFrom).map fun a => (r, relationBBox e a))

variable {e}

/-- Every state has a cell. -/
lemma placed_computeRelationStates {versions : List RelationVersion}
    {r : HistoryRow RelationSpatialCols} (hr : r ∈ computeRelationStates e versions) :
    r.cell.isSome := by
  have hfill : ∀ (l : List (HistoryRow RelationSpatialCols × Option BBox)) (last : Option Cell),
      r ∈ fillCells e last l → r.cell.isSome := by
    intro l
    induction l with
    | nil => simp [fillCells]
    | cons p l ih =>
      intro last hr
      rcases List.mem_cons.mp hr with rfl | hr
      · rfl
      · exact ih _ hr
  obtain ⟨i, -, hr⟩ := List.mem_flatMap.mp hr
  exact hfill _ _ hr

end Compute

/-! ### The lookup -/

/-- The types of members that are looked at; none given means all. -/
def wantedTypes (restrict : Option (List Typ)) : List Typ :=
  [.node, .way, .relation].filter fun t => restrict.getD [] = [] ∨ t ∈ restrict.getD []

/-- A row of the set, with its cell as the column has it. -/
structure SourceRow where
  type : Typ
  id : ℤ
  cell : Option CellValue
  deriving DecidableEq

inductive Raised
  | typeError
  deriving DecidableEq

/-- The member is a row of the set. -/
def isSource (src : List SourceRow) (restrict : Option (List Typ)) (role : Option String)
    (m : Member) : Bool :=
  decide (m.type ∈ wantedTypes restrict) && roleOk role m.role &&
    src.any fun s => decide (s.type = m.type ∧ s.id = m.ref)

/-- `ancestors_and_self` of what is in the column. A number has no length. -/
def ancestorsOf : CellValue → Except Raised (List Cell)
  | .text c => .ok (ancestorsAndSelf c)
  | .number _ => .error .typeError

/-- The cells of the set and all above them. -/
def sourceCells (src : List SourceRow) : Except Raised (List Cell) := do
  let keys ← (src.filterMap SourceRow.cell).dedup.mapM ancestorsOf
  return keys.flatten.dedup

section Lookup

variable (pick : {α : Type} → List (HistoryRow α) → Option (HistoryRow α)) (h : HistoryRoot)
  (src : List SourceRow) (t : ℤ) (restrict : Option (List Typ)) (role : Option String)

/-- The cells of which files are read. -/
def baseFiles (cells : List Cell) : List (HistoryCell RelationSpatialCols) :=
  (h.spatial .relation).cells.filter fun e => e.cell ∈ cells && e.files ≠ []

def tierFiles : List HistoryMeta :=
  (historyTiers h.tiers).filter fun m => (m.files .relation).spatial ≠ []

/-- The cell of a row of the base as the select has it: a number becomes text again where rows of
tiers, whose cells are text, are read with it. -/
def baseCell (cells : List Cell) (c : Cell) : CellValue :=
  match hiveCell ((baseFiles h cells).map HistoryCell.cell) c with
  | .number n => if tierFiles h = [] then .number n else .text (numberText c)
  | .text c => .text c

/-- A row with its cell as the select has it. -/
def withCell (f : Cell → CellValue) (r : HistoryRow RelationSpatialCols) :
    HistoryRow (Option CellValue × RelationSpatialCols) := r.map fun c => (r.cell.map f, c)

/-- What the state of a relation is chosen from, in some cells. -/
def relationRows (cells : List Cell) (i : ℤ) :
    List (HistoryRow (Option CellValue × RelationSpatialCols)) :=
  candidates t i ((cells.flatMap (h.spatial .relation).rowsOf).map (withCell (baseCell h cells)))
    (((tierSpatialRows h.tiers .relation).filter fun r => r.cell.any fun c => c ∈ cells).map
      (withCell .text))

/-- The states of the relations in some cells; `pick` is the choice of the database among rows that
tie. -/
def relationStatesIn (cells : List Cell) :
    List (HistoryRow (Option CellValue × RelationSpatialCols)) :=
  ((cells.flatMap (h.spatial .relation).rowsOf ++ tierSpatialRows h.tiers .relation).map
      HistoryRow.id).dedup.filterMap fun i => pick (relationRows h t cells i)

/-- There is no table when no row of the set has a cell, or no file is to be read. -/
def backwardRelationIdsSnapshot : Except Raised (Option (List SourceRow)) := do
  let cells ← sourceCells src
  if cells = [] ∨ baseFiles h cells = [] ∧ tierFiles h = [] then return none
  return some (((relationStatesIn pick h t cells).filter fun z => z.visible &&
    (memberRows (z.map Prod.snd)).any (isSource src restrict role)).map fun z =>
      ⟨.relation, z.id, z.cols.bind Prod.fst⟩)

/-- The relation is in the table. -/
def FoundParent (i : ℤ) : Prop :=
  ∃ l, backwardRelationIdsSnapshot pick h src t restrict role = .ok (some l) ∧
    i ∈ l.map SourceRow.id

/-- The by-id state of the relation at the time is visible and has a row of the set as a member. -/
def ParentAt (i : ℤ) : Prop :=
  ∃ r, StateAt (byidCandidates h .relation t i) r ∧ r.visible = true ∧
    (membersOf r).any (isSource src restrict role) = true

/-- The lookup returns, and finds the parents and nothing else. -/
def FindsParents : Prop :=
  (∃ o, backwardRelationIdsSnapshot pick h src t restrict role = .ok o) ∧
    ∀ i, FoundParent pick h src t restrict role i ↔ ParentAt h src t restrict role i

/-- No row of the set has a number as its cell. -/
def CellsAreText : Prop := ∀ s ∈ src, ∀ n, s.cell ≠ some (.number n)

/-- Every parent was at the time in a cell at or above the cell of some row of the set. -/
def ParentsAbove : Prop :=
  ∀ i r, StateAt (byidCandidates h .relation t i) r → r.visible = true →
    (membersOf r).any (isSource src restrict role) = true →
      ∃ k ∈ r.cell, ∃ s ∈ src, ∃ c, s.cell = some (.text c) ∧ k <+: c

end Lookup

/-- At the time the by-id copy has one state of every relation, up to its end, and a read of some
cells shows the relation exactly if this state is visible and in one of the cells. -/
structure CopiesAgree (h : HistoryRoot) (t : ℤ) : Prop where
  one : ∀ i r r', StateAt (byidCandidates h .relation t i) r →
    StateAt (byidCandidates h .relation t i) r' → strip r = strip r'
  shown : ∀ i cells (x : HistoryRow RelationCols), x.visible = true →
    ((∃ z, StateAt (spatialCandidates h .relation cells t i) z ∧
        strip (z.map (byidCols (t := .relation))) = strip x) ↔
      (∃ r, StateAt (byidCandidates h .relation t i) r ∧ strip r = strip x) ∧
        x.cell.any (fun c => decide (c ∈ cells)) = true)

section Exact

variable {pick : {α : Type} → List (HistoryRow α) → Option (HistoryRow α)} {h : HistoryRoot}
  {src : List SourceRow} {t i : ℤ} {restrict : Option (List Typ)} {role : Option String}
  {cells : List Cell}

lemma mem_ancestorsAndSelf {k c : Cell} : k ∈ ancestorsAndSelf c ↔ k <+: c := by
  simp only [ancestorsAndSelf, List.mem_map, List.mem_range]
  constructor
  · rintro ⟨n, -, rfl⟩
    exact List.take_prefix n c
  · intro hk
    exact ⟨k.length, Nat.lt_succ_of_le hk.length_le, (List.prefix_iff_eq_take.mp hk).symm⟩

/-- The keys of a column of text, all taken apart. -/
lemma mapM_ancestorsOf {vs : List CellValue} (htext : ∀ v ∈ vs, ∀ n, v ≠ .number n) :
    vs.mapM ancestorsOf = .ok ((vs.filterMap CellValue.key).map ancestorsAndSelf) := by
  induction vs with
  | nil => rfl
  | cons v vs ih =>
    rw [List.mapM_cons, ih fun w hw => htext w (List.mem_cons_of_mem _ hw)]
    cases v with
    | text c => rfl
    | number n => exact absurd rfl (htext _ List.mem_cons_self n)

lemma mapM_ancestorsOf_number {vs : List CellValue} {n : ℕ} (hn : .number n ∈ vs) :
    vs.mapM ancestorsOf = .error .typeError := by
  induction vs with
  | nil => cases hn
  | cons v vs ih =>
    rw [List.mapM_cons]
    cases v with
    | number m => rfl
    | text c =>
      rcases List.mem_cons.mp hn with heq | hn
      · cases heq
      · rw [ih hn]
        rfl

lemma cellsAreText_iff : CellsAreText src ↔ ∀ v ∈ (src.filterMap SourceRow.cell).dedup, ∀ n, v ≠
    .number n := by
  simp only [CellsAreText, List.mem_dedup, List.mem_filterMap]
  constructor
  · rintro htext v ⟨s, hs, hv⟩ n rfl
    exact htext s hs n hv
  · intro htext s hs n hn
    exact htext _ ⟨s, hs, hn⟩ n rfl

/-- **The cells of a set whose cells are text.** -/
lemma sourceCells_text (htext : CellsAreText src) : ∃ cells, sourceCells src = .ok cells ∧
    ∀ k, k ∈ cells ↔ ∃ s ∈ src, ∃ c, s.cell = some (.text c) ∧ k <+: c := by
  refine ⟨(((src.filterMap SourceRow.cell).dedup.filterMap CellValue.key).map
    ancestorsAndSelf).flatten.dedup, ?_, fun k => ?_⟩
  · rw [sourceCells, mapM_ancestorsOf (cellsAreText_iff.mp htext)]
    rfl
  · simp only [List.mem_dedup, List.mem_flatten, List.mem_map, List.mem_filterMap]
    constructor
    · rintro ⟨l, ⟨c, ⟨v, ⟨s, hs, hv⟩, hc⟩, rfl⟩, hk⟩
      cases v with
      | number n => cases hc
      | text c' =>
        cases hc
        exact ⟨s, hs, c, hv, mem_ancestorsAndSelf.mp hk⟩
    · rintro ⟨s, hs, c, hc, hk⟩
      exact ⟨_, ⟨c, ⟨_, ⟨s, hs, hc⟩, rfl⟩, rfl⟩, mem_ancestorsAndSelf.mpr hk⟩

/-- One number is enough for the lookup to raise. -/
lemma lookup_raises (htext : ¬ CellsAreText src) :
    backwardRelationIdsSnapshot pick h src t restrict role = .error .typeError := by
  rw [cellsAreText_iff] at htext
  push Not at htext
  obtain ⟨v, hv, n, rfl⟩ := htext
  rw [backwardRelationIdsSnapshot, sourceCells, mapM_ancestorsOf_number hv]
  rfl

/-- The members are the same whatever the ends. -/
lemma membersOf_strip {r x : HistoryRow RelationCols} (he : strip r = strip x) :
    membersOf r = membersOf x := by
  have hcols : r.cols = x.cols := congrArg (fun r => r.cols) he
  rw [membersOf, membersOf, hcols]

/-- The column beside the rows changes nothing in the choice. -/
lemma map_relationRows :
    (relationRows h t cells i).map (HistoryRow.map Prod.snd) =
      spatialCandidates h .relation cells t i := by
  have hback : ∀ f (r : HistoryRow RelationSpatialCols), (withCell f r).map Prod.snd = r := by
    intro f r
    simp only [withCell, HistoryRow.map, Option.map_map, Function.comp_def, Option.map_id']
  have hfilter : ∀ f b (l : List (HistoryRow RelationSpatialCols)),
      ((l.map (withCell f)).filter fun r => r.id = i && validityPredicate t b r).map
          (HistoryRow.map Prod.snd) = l.filter fun r => r.id = i && validityPredicate t b r := by
    intro f b l
    have hsame : ((fun r : HistoryRow (Option CellValue × RelationSpatialCols) =>
        decide (r.id = i) && validityPredicate t b r) ∘ withCell f) =
          fun r => decide (r.id = i) && validityPredicate t b r := rfl
    rw [List.filter_map, hsame, List.map_map]
    calc (l.filter fun r => r.id = i && validityPredicate t b r).map
          (HistoryRow.map Prod.snd ∘ withCell f)
        = (l.filter fun r => r.id = i && validityPredicate t b r).map id :=
          List.map_congr_left fun r _ => hback f r
      _ = _ := List.map_id _
  rw [relationRows, spatialCandidates, candidates, candidates, List.map_append, hfilter, hfilter]

/-- The best rows with the column are the best rows without it. -/
lemma stateAt_relationRows {z : HistoryRow RelationSpatialCols} :
    StateAt (spatialCandidates h .relation cells t i) z ↔
      ∃ y, StateAt (relationRows h t cells i) y ∧ y.map Prod.snd = z := by
  rw [← map_relationRows]
  constructor
  · rintro ⟨hz, hbest⟩
    obtain ⟨y, hy, rfl⟩ := List.mem_map.mp hz
    exact ⟨y, ⟨hy, fun x hx => hbest _ (List.mem_map_of_mem hx)⟩, rfl⟩
  · rintro ⟨y, ⟨hy, hbest⟩, rfl⟩
    refine ⟨List.mem_map_of_mem hy, fun x hx => ?_⟩
    obtain ⟨w, hw, rfl⟩ := List.mem_map.mp hx
    exact hbest w hw

/-- A row of the cells is a row of a file. -/
lemma id_mem_relationIds {z : HistoryRow (Option CellValue × RelationSpatialCols)}
    (hz : z ∈ relationRows h t cells i) :
    z.id = i ∧ i ∈ ((cells.flatMap (h.spatial .relation).rowsOf ++
      tierSpatialRows h.tiers .relation).map HistoryRow.id).dedup := by
  have hmem : z.map Prod.snd ∈ spatialCandidates h .relation cells t i :=
    map_relationRows ▸ List.mem_map_of_mem hz
  obtain ⟨hid, hmem⟩ := mem_candidates.mp hmem
  refine ⟨hid, List.mem_dedup.mpr (List.mem_map.mpr ⟨z.map Prod.snd, ?_, hid⟩)⟩
  rcases hmem with ⟨hmem, -⟩ | ⟨hmem, -⟩
  · exact List.mem_append_left _ hmem
  · exact List.mem_append_right _ (List.mem_filter.mp hmem).1

/-- Where there is a row there is a file. -/
lemma files_of_candidate {z : HistoryRow RelationSpatialCols}
    (hz : z ∈ spatialCandidates h .relation cells t i) :
    ¬ (cells = [] ∨ baseFiles h cells = [] ∧ tierFiles h = []) := by
  obtain ⟨-, hz⟩ := mem_candidates.mp hz
  rintro (rfl | ⟨hbase, htier⟩)
  · rcases hz with ⟨hz, -⟩ | ⟨hz, -⟩
    · cases hz
    · simp at hz
  · rcases hz with ⟨hz, -⟩ | ⟨hz, -⟩
    · obtain ⟨c, hc, hz⟩ := List.mem_flatMap.mp hz
      have hzc := HistoryCompact.rowsOf_placed _ hz
      obtain ⟨e, he, hze⟩ := List.mem_flatMap.mp (mem_rowsOf_iff.mp hz).1
      have hec : e.cell = c := Option.some.inj ((e.placed z hze).symm.trans hzc)
      obtain ⟨file, hfile, -⟩ := List.mem_flatten.mp hze
      have hmem : e ∈ baseFiles h cells := by
        refine List.mem_filter.mpr ⟨he, ?_⟩
        rw [Bool.and_eq_true, decide_eq_true_eq, decide_eq_true_eq]
        exact ⟨hec ▸ hc, List.ne_nil_of_mem hfile⟩
      rw [hbase] at hmem
      cases hmem
    · obtain ⟨m, hm, hzm⟩ := List.mem_flatMap.mp (List.mem_filter.mp hz).1
      have hmem : m ∈ tierFiles h :=
        List.mem_filter.mpr ⟨hm, decide_eq_true (List.ne_nil_of_mem hzm)⟩
      rw [htier] at hmem
      cases hmem

/-- Where the cells are text the lookup returns. -/
lemma lookup_returns (hcells : sourceCells src = .ok cells) :
    backwardRelationIdsSnapshot pick h src t restrict role =
      .ok (if cells = [] ∨ baseFiles h cells = [] ∧ tierFiles h = [] then none
        else some (((relationStatesIn pick h t cells).filter fun z => z.visible &&
          (memberRows (z.map Prod.snd)).any (isSource src restrict role)).map fun z =>
            ⟨.relation, z.id, z.cols.bind Prod.fst⟩)) := by
  rw [backwardRelationIdsSnapshot, hcells]
  split <;> simp_all [bind, Except.bind, pure, Except.pure]

/-- The table has the relations of which the state that is chosen has a row of the set. -/
lemma foundParent_iff (hp : Picks pick) (hcells : sourceCells src = .ok cells) :
    FoundParent pick h src t restrict role i ↔
      ∃ z, pick (relationRows h t cells i) = some z ∧ z.visible = true ∧
        (memberRows (z.map Prod.snd)).any (isSource src restrict role) = true := by
  rw [FoundParent, lookup_returns hcells]
  constructor
  · rintro ⟨l, hl, hi⟩
    have hl := Except.ok.inj hl
    split at hl
    · cases hl
    · obtain rfl := Option.some.inj hl
      simp only [List.map_map, List.mem_map, List.mem_filter, relationStatesIn,
        List.mem_filterMap, Bool.and_eq_true] at hi
      obtain ⟨z, ⟨⟨j, -, hz⟩, hv, hm⟩, hid⟩ := hi
      have hj : z.id = j := (id_mem_relationIds (hp.best hz).1).1
      obtain rfl : j = i := hj.symm.trans hid
      exact ⟨z, hz, hv, hm⟩
  · rintro ⟨z, hz, hv, hm⟩
    have hmem := (hp.best hz).1
    obtain ⟨hid, hin⟩ := id_mem_relationIds hmem
    have hfiles := files_of_candidate (map_relationRows ▸ List.mem_map_of_mem hmem)
    refine ⟨_, congrArg Except.ok (if_neg hfiles), ?_⟩
    simp only [List.map_map, List.mem_map, List.mem_filter, relationStatesIn,
      List.mem_filterMap, Bool.and_eq_true]
    exact ⟨z, ⟨⟨i, hin, hz⟩, hv, hm⟩, hid⟩

/-- **What is found**: the parents that were in the cells that are read. -/
lemma foundParent_iff_read (hp : Picks pick) (ha : CopiesAgree h t)
    (hcells : sourceCells src = .ok cells) :
    FoundParent pick h src t restrict role i ↔
      ∃ r, StateAt (byidCandidates h .relation t i) r ∧ r.visible = true ∧
        (membersOf r).any (isSource src restrict role) = true ∧
          r.cell.any (fun c => decide (c ∈ cells)) = true := by
  rw [foundParent_iff hp hcells]
  constructor
  · rintro ⟨z, hz, hv, hm⟩
    have hbest := stateAt_relationRows.mpr ⟨z, hp.best hz, rfl⟩
    obtain ⟨⟨r, hr, hstrip⟩, hcell⟩ := (ha.shown i cells
      ((z.map Prod.snd).map (byidCols (t := .relation))) hv).mp ⟨_, hbest, rfl⟩
    have hrv : r.visible = true := (congrArg (fun r => r.visible) hstrip).trans hv
    have hrc : r.cell = z.cell := congrArg (fun r => r.cell) hstrip
    refine ⟨r, hr, hrv, ?_, by rw [hrc]; exact hcell⟩
    rw [membersOf_strip hstrip]
    exact hm
  · rintro ⟨r, hr, hv, hm, hcell⟩
    obtain ⟨z, hz, hzr⟩ := (ha.shown i cells r hv).mpr ⟨⟨r, hr, rfl⟩, hcell⟩
    obtain ⟨w, hw, rfl⟩ := stateAt_relationRows.mp hz
    obtain ⟨y, hy⟩ := Option.isSome_iff_exists.mp (hp.some (List.ne_nil_of_mem hw.1))
    -- what is chosen ties with the state, so it is visible and shows the same
    have hyb := hp.best hy
    have hkey : stateKey y = stateKey w := le_antisymm (hw.2 y hyb.1) (hyb.2 w hw.1)
    have hwv : w.visible = true := (congrArg (fun r => r.visible) hzr).trans hv
    have hyv : y.visible = true := (visible_of_stateKey hkey).trans hwv
    obtain ⟨⟨r', hr', hstrip⟩, -⟩ := (ha.shown i cells
      ((y.map Prod.snd).map (byidCols (t := .relation))) hyv).mp
        ⟨_, stateAt_relationRows.mpr ⟨y, hyb, rfl⟩, rfl⟩
    refine ⟨y, hy, hyv, ?_⟩
    rw [memberRows, ← membersOf_strip hstrip, membersOf_strip (ha.one i r' r hr' hr)]
    exact hm

/-- **When the parents are found.** -/
lemma findsParents_iff (hp : Picks pick) (ha : CopiesAgree h t) :
    FindsParents pick h src t restrict role ↔
      CellsAreText src ∧ ParentsAbove h src t restrict role := by
  by_cases htext : CellsAreText src
  · obtain ⟨cells, hcells, hmem⟩ := sourceCells_text htext
    have hany : ∀ o : Option Cell, o.any (fun c => decide (c ∈ cells)) = true ↔
        ∃ k ∈ o, ∃ s ∈ src, ∃ c, s.cell = some (.text c) ∧ k <+: c := by
      intro o
      simp only [Option.any_eq_true, decide_eq_true_eq, hmem, Option.mem_def]
    constructor
    · rintro ⟨-, hf⟩
      refine ⟨htext, fun i r hr hv hm => ?_⟩
      obtain ⟨r', hr', -, -, hcell⟩ :=
        (foundParent_iff_read hp ha hcells).mp ((hf i).mpr ⟨r, hr, hv, hm⟩)
      have hrc : r'.cell = r.cell := congrArg (fun r => r.cell) (ha.one i r' r hr' hr)
      exact (hany _).mp (hrc ▸ hcell)
    · rintro ⟨-, habove⟩
      refine ⟨⟨_, lookup_returns hcells⟩, fun i => ?_⟩
      rw [foundParent_iff_read hp ha hcells]
      constructor
      · rintro ⟨r, hr, hv, hm, -⟩
        exact ⟨r, hr, hv, hm⟩
      · rintro ⟨r, hr, hv, hm⟩
        exact ⟨r, hr, hv, hm, (hany _).mpr (habove i r hr hv hm)⟩
  · constructor
    · rintro ⟨⟨o, ho⟩, -⟩
      rw [lookup_raises htext] at ho
      cases ho
    · rintro ⟨h1, -⟩
      exact absurd h1 htext

end Exact

/-! ### Where the copies agree -/

section Agree

variable {s : Root} {h h' : HistoryRoot} {f : Fetched} {t : ℤ}

/-- Copies that mirror each other agree. -/
lemma copiesAgree_of_mirrored (hm : ∀ i, Mirrored h .relation t i) : CopiesAgree h t where
  one i r r' hr hr' := by
    have hkey : stateKey r = stateKey r' := le_antisymm (hr'.2 r hr.1) (hr.2 r' hr'.1)
    rw [(hm i).unique r hr.1 r' hr'.1 hkey]
  shown i cells x hx := by
    constructor
    · rintro ⟨z, hz, hzx⟩
      have hzv : z.visible = true := (congrArg (fun r => r.visible) hzx).trans hx
      have hzc : z.cell = x.cell := congrArg (fun r => r.cell) hzx
      obtain ⟨⟨hr, -⟩, hcell⟩ := (spatial_read_iff cells (hm i)).mp ⟨⟨z, hz, rfl⟩, hzv⟩
      exact ⟨⟨_, hr, hzx⟩, hzc ▸ hcell⟩
    · rintro ⟨⟨r, hr, hrx⟩, hcell⟩
      have hrv : r.visible = true := (congrArg (fun r => r.visible) hrx).trans hx
      have hrc : r.cell = x.cell := congrArg (fun r => r.cell) hrx
      obtain ⟨⟨z, hz, hzr⟩, -⟩ := (spatial_read_iff cells (hm i)).mpr ⟨⟨hr, hrv⟩, hrc ▸ hcell⟩
      exact ⟨z, hz, by rw [hzr, hrx]⟩

/-- A table that gives the same answers has a best row for every best row, up to its end, if these
are one. -/
lemma exists_of_sameAnswers {α : Type} {a b : List (HistoryRow α)} (hs : SameAnswers a b)
    {x : HistoryRow α} (hx : StateAt a x) :
    ∃ r y, StateAt b r ∧ StateAt a y ∧ strip y = strip r ∧ stateKey y = stateKey x := by
  obtain ⟨r, hr⟩ := stateAt_of_ne_nil (hs.found (List.ne_nil_of_mem hx.1))
  obtain ⟨y, hy, hyr⟩ := hs.chosen r hr
  exact ⟨r, y, hr, hy, hyr, le_antisymm (hx.2 y hy.1) (hy.2 x hx.1)⟩

/-- A compaction that keeps the answers keeps the copies in agreement. -/
lemma copiesAgree_of_sameAnswers (ha : CopiesAgree h t)
    (hb : ∀ i, SameAnswers (byidCandidates h .relation t i) (byidCandidates h' .relation t i))
    (hc : ∀ cells i, SameAnswers (spatialCandidates h .relation cells t i)
      (spatialCandidates h' .relation cells t i)) : CopiesAgree h' t where
  one i r r' hr hr' := by
    obtain ⟨x, hx, hxr⟩ := (hb i).chosen r hr
    obtain ⟨x', hx', hxr'⟩ := (hb i).chosen r' hr'
    rw [← hxr, ← hxr']
    exact ha.one i x x' hx hx'
  shown i cells x hx := by
    have hmap : ∀ z y : HistoryRow RelationSpatialCols, strip z = strip y →
        strip (z.map (byidCols (t := .relation))) = strip (y.map (byidCols (t := .relation))) :=
      fun z y hzy => congrArg (HistoryRow.map (byidCols (t := .relation))) hzy
    have hbyid : (∃ r, StateAt (byidCandidates h' .relation t i) r ∧ strip r = strip x) ↔
        ∃ r, StateAt (byidCandidates h .relation t i) r ∧ strip r = strip x := by
      constructor
      · rintro ⟨r, hr, hrx⟩
        obtain ⟨y, hy, hyr⟩ := (hb i).chosen r hr
        exact ⟨y, hy, hyr.trans hrx⟩
      · rintro ⟨y, hy, hyx⟩
        obtain ⟨r, y', hr, hy', hyr, -⟩ := exists_of_sameAnswers (hb i) hy
        exact ⟨r, hr, hyr.symm.trans ((ha.one i y' y hy' hy).trans hyx)⟩
    rw [hbyid, ← ha.shown i cells x hx]
    constructor
    · rintro ⟨z, hz, hzx⟩
      obtain ⟨y, hy, hyz⟩ := (hc cells i).chosen z hz
      exact ⟨y, hy, (hmap y z hyz).trans hzx⟩
    · rintro ⟨z, hz, hzx⟩
      obtain ⟨r, y, hr, hy, hyr, hkey⟩ := exists_of_sameAnswers (hc cells i) hz
      -- the row that ties is visible too, so both are the by-id state
      have hzv : z.visible = true := (congrArg (fun r => r.visible) hzx).trans hx
      have hyv : y.visible = true := (visible_of_stateKey hkey).trans hzv
      obtain ⟨⟨r1, hr1, hs1⟩, -⟩ := (ha.shown i cells _ hyv).mp ⟨y, hy, rfl⟩
      obtain ⟨⟨r2, hr2, hs2⟩, -⟩ := (ha.shown i cells _ hzv).mp ⟨z, hz, rfl⟩
      exact ⟨r, hr, (hmap r y hyr.symm).trans
        (hs1.symm.trans ((ha.one i r1 r2 hr1 hr2).trans (hs2.trans hzx)))⟩

/-- A tidy run keeps the copies beside each other. -/
lemma mirrored_update {d' : Dataset} (hv : Valid s h) (hm : ∀ typ t i, Mirrored h typ t i)
    (ho : Tidy s h f) (hu : update ⟨s, some h⟩ f = some d') :
    ∃ h', d'.history = some h' ∧ Valid d'.root h' ∧ ∀ typ t i, Mirrored h' typ t i := by
  obtain ⟨h', hh', hvalid⟩ := valid_update hv ho.timely hu
  refine ⟨h', hh', hvalid, ?_⟩
  by_cases hf : f.diffs = []
  · simp only [update, hf, if_true] at hu
    cases hu
    cases hh'
    exact hm
  · obtain ⟨h1, rfl, happ⟩ := update_appended hv.matched hf hu
    cases hh'
    exact fun typ t i => mirrored_appended hv ho happ (hm typ t i)

/-- From a base history that `history build` has made, any tidy runs keep the copies in agreement at
all times. -/
lemma copiesAgree_runs {states : (t : Typ) → States t} (hb : Built states h) (hv : Valid s h)
    {fs : List Fetched} {d' : Dataset}
    (ho : Along update (fun d f => ∀ h ∈ d.history, Tidy d.root h f) ⟨s, some h⟩ fs)
    (hp : play update ⟨s, some h⟩ fs = some d') :
    ∃ h', d'.history = some h' ∧ ∀ t, CopiesAgree h' t := by
  have hinv : ∃ h', d'.history = some h' ∧ Valid d'.root h' ∧ ∀ typ t i, Mirrored h' typ t i := by
    refine play_keeps (I := fun d => ∃ h', d.history = some h' ∧ Valid d.root h' ∧
      ∀ typ t i, Mirrored h' typ t i) ?_ ⟨h, rfl, hv, fun typ t i => mirrored_built hb⟩ ho hp
    rintro ⟨s, o⟩ f d' ⟨h, rfl, hv, hm⟩ ho hu
    exact mirrored_update hv hm (ho h rfl) hu
  obtain ⟨h', hh, -, hm⟩ := hinv
  exact ⟨h', hh, fun t => copiesAgree_of_mirrored fun i => hm .relation t i⟩

end Agree

/-- Of a relation over the first of the two nodes and another relation, and of this one, which is
over the second node first and over the first one later. -/
def lineVersions : List RelationVersion :=
  [⟨5, 1, none, [⟨.node, 1, "stop"⟩, ⟨.relation, 6, ""⟩], 1, 5, none, "", true⟩,
    ⟨6, 1, none, [⟨.node, 2, ""⟩], 1, 5, none, "", true⟩,
    ⟨6, 2, none, [⟨.node, 1, ""⟩], 1, 8, none, "", true⟩]

/-- The box of the first node. -/
def stopBox : BBox := ⟨450000000, -900000000, 450000000, -900000000⟩

/-- The current relations, both in the cell of the first node. -/
def outerRow : Row RelationSpatialCols :=
  ⟨5, some [0], ⟨[⟨.node, 1, "stop"⟩, ⟨.relation, 6, ""⟩], ⟨none, [], 1, 1, some 5, none, ""⟩,
    some stopBox⟩, some ⟨450000000, -900000000⟩, hilbertKey ⟨450000000, -900000000⟩⟩

def innerRow : Row RelationSpatialCols :=
  ⟨6, some [0], ⟨[⟨.node, 1, ""⟩], ⟨none, [], 2, 1, some 8, none, ""⟩, some stopBox⟩,
    some ⟨450000000, -900000000⟩, hilbertKey ⟨450000000, -900000000⟩⟩

def lineBase : Base :=
  { twoNodes with
    byid := fun
      | .node => twoNodes.byid .node
      | .way => twoNodes.byid .way
      | .relation => ⟨[⟨5, 6, [outerRow.map RelationSpatialCols.byid,
          innerRow.map RelationSpatialCols.byid], by decide, by decide, by decide⟩], by simp⟩
    spatial := fun
      | .node => twoNodes.spatial .node
      | .way => twoNodes.spatial .way
      | .relation => [⟨[0], [[outerRow, innerRow]]⟩]
    member := [⟨.node, 1, 5, "stop", some [0]⟩, ⟨.relation, 6, 5, "", some [0]⟩,
      ⟨.node, 1, 6, "", some [0]⟩] }

def lineInput : RelationInput where
  leafCells := twoNodes.leafCells
  ancestorDepths := twoNodes.ancestorDepths
  maxDepth := twoNodes.maxDepth
  promotedKeys := twoNodes.promotedKeys
  nodes := (twoStates .node).rows
  ways := []
  currentBox i := (byId i (lineBase.byid .relation).rows).bind fun p => p.cols.bbox

def lineStates : (t : Typ) → States t
  | .node => twoStates .node
  | .way => twoStates .way
  | .relation => ⟨computeRelationStates lineInput lineVersions, by decide +kernel,
      fun _ hr _ => placed_computeRelationStates hr⟩

def lineHistory : HistoryRoot := historyBuild lineStates

lemma valid_lineBase : Valid (fresh lineBase) lineHistory := by
  have hb : Built lineStates lineHistory := built_historyBuild lineStates
  have hlast : ∀ t, ∀ r ∈ finalById (lineStates t),
      (∀ x ∈ finalById (lineStates t), x.id = r.id → stateKey x ≤ stateKey r) →
        ∃ p ∈ (lineBase.byid t).rows, r.visible = true ∧
          r.version = some (attrs p.cols).version ∧ r.id = p.id ∧ r.cell = p.cell ∧
            r.cols = some p.cols := by decide +kernel
  have hrows : ∀ t, ∀ p ∈ (lineBase.byid t).rows, ∃ r ∈ finalById (lineStates t),
      r.id = p.id ∧ r.validFrom.isSome = true := by decide +kernel
  have hdated : ∀ t, ∀ r ∈ finalById (lineStates t), r.validFrom.isSome = true := by decide +kernel
  refine @valid_of_last lineBase lineHistory rfl (fun t r hr hbest => ?_) (fun t p hp => ?_)
    (fun t => soundEnds_built hb) fun t i p hp => ?_
  · rw [hb.byid] at hr
    obtain ⟨p, hp, hv, hver, hid, hcell, hcols⟩ := hlast t r hr fun x hx hid =>
      hbest.2 x (mem_dated.mpr ⟨List.mem_append_left _ (by rw [hb.byid]; exact hx), hid,
        Option.isSome_iff_exists.mp (hdated t x hx)⟩)
    have hlook : byId r.id (lineBase.byid t).rows = some p :=
      (ByidReads.distinct_rows (lineBase.byid t)).lookup_eq_some.mpr ⟨hp, hid.symm⟩
    rw [hlook]
    exact ⟨hv, hver, hid, hcell, hcols⟩
  · obtain ⟨r, hr, hid, hsome⟩ := hrows t p hp
    exact ⟨r, by rw [hb.byid]; exact hr, hid, hsome⟩
  · have hpro : ∀ t, ∀ p ∈ (lineBase.byid t).rows, (attrs p.cols).promoted =
        lineBase.promotedKeys.map (tagValue (attrs p.cols).tags) := by decide +kernel
    exact hpro t p (mem_of_lookup hp)

instance (s : Root) (h : HistoryRoot) (f : Fetched) : Decidable (Tidy s h f) :=
  decidable_of_iff ((∀ t, Distinct Change.id (allChanges f.diffs t)) ∧ Timely s h f ∧
    ∀ t, ∀ x ∈ buildHistoryBatch s h f t,
      ¬ (x.row.visible = true ∧ x.prevCell.isSome = true ∧ x.prevCell ≠ x.row.cell) ∨
        ∀ r ∈ byidRows h t, r.id ≠ x.row.id ∨ ∀ y ∈ r.validFrom, ∀ z ∈ x.row.validFrom, y < z)
    ⟨fun hd => ⟨hd.1, hd.2.1, fun t x hx hv hs hne r hr hid =>
        ((hd.2.2 t x hx).resolve_left (not_not.mpr ⟨hv, hs, hne⟩) r hr).resolve_left
          (not_not.mpr hid)⟩,
      fun ht => ⟨ht.single, ht.timely, fun t x hx => or_iff_not_imp_left.mpr fun hm r hr =>
        or_iff_not_imp_left.mpr fun hid =>
          have hm := not_not.mp hm
          ht.moves t x hx hm.1 hm.2.1 hm.2.2 r hr (not_not.mp hid)⟩⟩

lemma mem_key_iff {o : Option CellValue} {c : Cell} :
    c ∈ o.bind CellValue.key ↔ o = some (.text c) := by
  rcases o with - | (c' | n)
  · simp
  · simp [CellValue.key]
  · simp [CellValue.key]

/-- The stored rows decide where the parents are. -/
lemma parentsAbove_of_rows {h : HistoryRoot} {src : List SourceRow} {t : ℤ}
    {restrict : Option (List Typ)} {role : Option String}
    (hrows : ∀ r ∈ byidRows h .relation, (r ∈ byidCandidates h .relation t r.id ∧
        ∀ x ∈ byidCandidates h .relation t r.id, stateKey x ≤ stateKey r) → r.visible = true →
      (membersOf r).any (isSource src restrict role) = true →
        ∃ k ∈ r.cell, ∃ s ∈ src, ∃ c ∈ s.cell.bind CellValue.key, k <+: c) :
    ParentsAbove h src t restrict role := by
  intro i r hr hv hm
  obtain ⟨hmem, hid, -⟩ := mem_startedRows.mp (startedRows_of_candidates hr.1)
  obtain ⟨k, hk, s, hs, c, hc, hpre⟩ := hrows r hmem (hid.symm ▸ hr) hv hm
  exact ⟨k, hk, s, hs, c, mem_key_iff.mp hc, hpre⟩

end OsmParquet.SnapshotParents
