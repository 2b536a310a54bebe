import OsmParquet.SelfJoin
import OsmParquet.SnapshotParents
import OsmParquet.StateIntervals

/-!
The states that `history build` computes of ingested versions.

Every version is a state of its own, and ways and relations have minor states in between for the
changes of their nodes and members. The cells are computed outside of the database and joined back
by id and start. Two versions of an element with the same timestamp then each meet both cells, and
the history has both of them twice.
-/

namespace OsmParquet.HistoryStates

open OsmParquet.KeyedList OsmParquet.Rows OsmParquet.Tiers OsmParquet.Cells OsmParquet.Updater
open OsmParquet.HistoryTiers OsmParquet.Timeline OsmParquet.Snapshots OsmParquet.HistoryWindows
open OsmParquet.HistoryBuild OsmParquet.StateIntervals OsmParquet.SnapshotParents
  OsmParquet.SelfJoin
open List

/-! ### The versions -/

/-- A version of an element in the extract with history. -/
structure Version (t : Typ) where
  id : ℤ
  version : ℤ
  tags : Option Tags
  body : Body t
  changeset : ℤ
  timestamp : ℤ
  uid : Option ℤ
  user : String
  visible : Bool

/-- What `history build` reads: the layout of the cells, the versions that were ingested and the
boxes that relations have now. -/
structure BuildInput where
  leafCells : List Cell
  ancestorDepths : List ℕ
  maxDepth : ℕ
  promotedKeys : List String
  currentBox : ℤ → Option BBox
  versions : (t : Typ) → List (Version t)

def Version.attrs {t : Typ} (keys : List String) (v : Version t) : Attrs :=
  ⟨v.tags, keys.map (tagValue v.tags), v.version, v.changeset, some v.timestamp, v.uid, v.user⟩

/-- A version as a state, with the columns `cols`, still without cell. -/
def ownState {α : Type} {t : Typ} (cols : Version t → α) (v : Version t) : HistoryRow α where
  id := v.id
  version := some v.version
  minor := 0
  timestamp := some v.timestamp
  validFrom := some v.timestamp
  validTo := none
  visible := v.visible
  cell := none
  cols := some (cols v)

/-- The join of the states of an element with their cells, by id and start. -/
def joined {α : Type} (states : List (HistoryRow α)) (i : ℤ) : List (HistoryRow α × HistoryRow α) :=
  let mine := (states.filter fun r => r.id = i).insertionSort fun a b => startOf a ≤ startOf b
  mine.flatMap fun r => (mine.filter fun a => a.validFrom = r.validFrom).map fun a => (r, a)

/-! ### Nodes -/

section Nodes

variable (leafCells : List Cell)

/-- The position that a cell is computed from; NULL is filled with zero. -/
def filledCoord (r : HistoryRow NodeCols) : Point := (r.cols.bind NodeCols.coord).getD ⟨0, 0⟩

def ownCell (r : HistoryRow NodeCols) : Option Cell :=
  if r.visible then some (pointCell leafCells (filledCoord r)) else none

def ownHilbert (r : HistoryRow NodeCols) : ℕ := if r.visible then hilbertKey (filledCoord r) else 0

/-- A state without a cell of its own has that of the row before. -/
def fillNodeCells (lag : Option Cell) :
    List (HistoryRow NodeCols × HistoryRow NodeCols) → List (HistoryRow NodeCols)
  | [] => []
  | (n, a) :: l =>
    { n with
      cell := (ownCell leafCells a).or lag
      cols := n.cols.map fun c => { c with hilbert := if n.visible then ownHilbert a else 0 } } ::
    fillNodeCells (ownCell leafCells a) l

def computeNodeStates (keys : List String) (versions : List (Version .node)) :
    List (HistoryRow NodeCols) :=
  let states := versions.map (ownState fun v => ⟨v.body, v.attrs keys, 0⟩)
  (states.map HistoryRow.id).dedup.flatMap fun i => fillNodeCells leafCells none (joined states i)

end Nodes

/-! ### Ways -/

section Ways

variable (e : BuildInput) (nodes : List (HistoryRow NodeCols))

/-- A version with what does not depend on the nodes. Of a deletion it is not asked whether the way
is closed. -/
def wayCols (keys : List String) (v : Version .way) : WaySpatialCols :=
  let closed := v.visible && isClosed v.body
  ⟨⟨v.body, v.attrs keys, none, closed, isArea closed v.tags, 0⟩, none, none⟩

/-- The versions, each until the next one. -/
def wayOwn (versions : List (Version .way)) : List (HistoryRow WaySpatialCols) :=
  leadValidTo startOf (versions.map (ownState (wayCols e.promotedKeys)))

def refsOf (r : HistoryRow WaySpatialCols) : List ℤ := r.cols.elim [] fun c => c.byid.refs

/-- The changes of a node strictly inside the time of a version. A node with one state has none. -/
def nodeEventsIn (r : HistoryRow WaySpatialCols) (i : ℤ) : List ℤ :=
  if 1 < (nodes.filter fun x => x.id = i).length then
    ((nodes.filter fun x => x.id = i).filterMap HistoryRow.validFrom).filter fun x =>
      r.validFrom.any (· < x) && r.validTo.all (x < ·)
  else []

/-- The minor states of a version, one for each time at which a node changes. -/
def wayMinors (r : HistoryRow WaySpatialCols) : List (HistoryRow WaySpatialCols) :=
  (((((refsOf r).flatMap (nodeEventsIn nodes r)).dedup).insertionSort (· ≤ ·)).zipIdx 1).map
    fun x =>
    { r with minor := x.2, validFrom := some x.1, validTo := none }

def wayStatesMeta (versions : List (Version .way)) : List (HistoryRow WaySpatialCols) :=
  let own := wayOwn e versions
  own.map strip ++ (own.filter HistoryRow.visible).flatMap (wayMinors nodes)

/-- The positions of the nodes of a state when it starts. -/
def ptsAt (r : HistoryRow WaySpatialCols) : List Point :=
  r.validFrom.elim [] fun ts => (refsOf r).filterMap fun i =>
    ((survivor startOf ts i nodes).filter HistoryRow.visible).bind fun n =>
      n.cols.bind NodeCols.coord

def stateBBox (r : HistoryRow WaySpatialCols) : Option BBox :=
  if r.visible then wayBBox (ptsAt nodes r) else none

def stateGeometry (r : HistoryRow WaySpatialCols) : Option (List Point) :=
  if r.visible then wayGeometry (ptsAt nodes r) else none

/-- Each state in the cell that its place gives, or in the last cell there was, or at the root. -/
def fillWayCells (last : Option Cell) :
    List (HistoryRow WaySpatialCols × HistoryRow WaySpatialCols) → List (HistoryRow WaySpatialCols)
  | [] => []
  | (w, a) :: l =>
    let place := stateBBox nodes a
    let filled := (place.map (containingCellV2 e.leafCells e.ancestorDepths e.maxDepth)).or last
    { w with
      cell := some (filled.getD [])
      cols := w.cols.map fun c =>
        ⟨{ c.byid with
            bbox := stateBBox nodes w
            hilbert := if (stateBBox nodes w).isSome then boxHilbert place else 0 },
          stateGeometry nodes w, place.map bboxCentroid⟩ } :: fillWayCells filled l

def computeWayStates (versions : List (Version .way)) : List (HistoryRow WaySpatialCols) :=
  let states := wayStatesMeta e nodes versions
  (states.map HistoryRow.id).dedup.flatMap fun i => fillWayCells e nodes none (joined states i)

end Ways

/-! ### The history -/

def relationVersion (v : Version .relation) : RelationVersion :=
  ⟨v.id, v.version, v.tags, v.body, v.changeset, v.timestamp, v.uid, v.user, v.visible⟩

/-- The states of all types: ways are computed from the states of nodes, and relations from those
of nodes and ways. -/
def computeStates (e : BuildInput) : AllStates
  | .node => computeNodeStates e.leafCells e.promotedKeys (e.versions .node)
  | .way =>
    let nodes := computeNodeStates e.leafCells e.promotedKeys (e.versions .node)
    computeWayStates e nodes (e.versions .way)
  | .relation =>
    let nodes := computeNodeStates e.leafCells e.promotedKeys (e.versions .node)
    let ways := computeWayStates e nodes (e.versions .way)
    computeRelationStates ⟨e.leafCells, e.ancestorDepths, e.maxDepth, e.promotedKeys, nodes, ways,
      e.currentBox⟩ ((e.versions .relation).map relationVersion)

/-- The base history of the versions. -/
def buildHistory (e : BuildInput) : HistoryRoot := writeStates (computeStates e)

/-! ### What should be written -/

def bodyOf : {t : Typ} → ByidCols t → Body t
  | .node, c => c.coord
  | .way, c => c.refs
  | .relation, c => c.members

/-- What a row says of the version it stands for. -/
structure OwnData (t : Typ) where
  id : ℤ
  version : Option ℤ
  visible : Bool
  attrs : Option Attrs
  body : Option (Body t)

def rowData {t : Typ} (r : HistoryRow (ByidCols t)) : OwnData t :=
  ⟨r.id, r.version, r.visible, r.cols.map attrs, r.cols.map bodyOf⟩

def versionData {t : Typ} (keys : List String) (v : Version t) : OwnData t :=
  ⟨v.id, some v.version, v.visible, some (v.attrs keys), some v.body⟩

/-- The rows of own states are the versions that were ingested, each once and with its own data. -/
def OwnStatesOnce (e : BuildInput) : Prop :=
  ∀ t, (((buildHistory e).byid t).rows.filter fun r => r.minor = 0).map rowData ~
    (e.versions t).map (versionData e.promotedKeys)

/-- No two versions of an element have the same timestamp. -/
def TimesDiffer (e : BuildInput) : Prop :=
  ∀ t, ((e.versions t).map fun v => (v.id, v.timestamp)).Nodup

/-! ### Joins and ends -/

section Joins

variable {α β : Type} {rows states : List (HistoryRow α)}

/-- What the cells are joined by. -/
def startKey (r : HistoryRow α) : ℤ × Option ℤ := (r.id, r.validFrom)

/-- The ends do not change which rows there are. -/
lemma leadValidTo_perm (rows : List (HistoryRow α)) {g : HistoryRow α → β}
    (hg : ∀ r e, g { r with validTo := e } = g r) :
    (leadValidTo startOf rows).map g ~ rows.map g := by
  have hwindow : ∀ i, ((leads startOf (window startOf i rows)).map
      fun p => ({ p.1 with validTo := p.2 } : HistoryRow α)).map g =
        (window startOf i rows).map g := by
    intro i
    conv_rhs => rw [← map_fst_leads (window startOf i rows)]
    rw [map_map, map_map]
    exact map_congr_left fun p _ => hg p.1 p.2
  have hperm : ∀ i, window startOf i rows ~ rows.filter fun r => r.id = i :=
    fun i => perm_insertionSort _ _
  have hgroups := flatMap_groups_perm HistoryRow.id (nodup_dedup (rows.map HistoryRow.id))
    (l := rows) fun r hr => mem_dedup.mpr (mem_map_of_mem hr)
  rw [leadValidTo, map_flatMap]
  refine Perm.trans ?_ (hgroups.map g)
  rw [map_flatMap]
  refine Perm.flatMap_left _ fun i _ => ?_
  rw [hwindow]
  exact (hperm i).map g

/-- A version starts outside the time of every other version of the element. -/
lemma not_start_inside {r v : HistoryRow α} (hr : r ∈ leadValidTo startOf rows) {y : ℤ}
    (hfrom : r.validFrom.any (· < y) = true) (hto : r.validTo.all (y < ·) = true) (hv : v ∈ rows)
    (hid : v.id = r.id) : v.validFrom ≠ some y := by
  intro hstart
  obtain ⟨a, ha, hlt⟩ := (Option.any_eq_true _ _).mp hfrom
  have hlt : a < y := of_decide_eq_true hlt
  have hvalid : validityPredicate y true r = true := by
    simp only [validityPredicate, ha, Option.any_some, Bool.not_true, Bool.false_or,
      Bool.and_eq_true]
    exact ⟨decide_eq_true hlt.le, hto⟩
  obtain ⟨x, hx, hstrip⟩ := survivor_of_valid byStart_startOf hr hvalid
  have hxfrom : x.validFrom = some a := (congrArg (fun r => r.validFrom) hstrip).trans ha
  have hvs : validityPredicate y false v = true := validityPredicate_false.mpr ⟨y, hstart, le_rfl⟩
  have hle := (survivor_spec hx).2 v hv hid hvs
  rw [startOf, startOf, nullGreatest, nullGreatest, hstart, hxfrom] at hle
  exact absurd (WithTop.coe_le_coe.mp hle) (not_le.mpr hlt)

/-- **The join gives every state once for each state that starts with it.** -/
lemma joined_perm {fill : List (HistoryRow α × HistoryRow α) → List (HistoryRow α)}
    {g : HistoryRow α → β} (hfill : ∀ l, (fill l).map g = l.map fun p => g p.1) :
    ((states.map HistoryRow.id).dedup.flatMap fun i => fill (joined states i)).map g ~
      repeated g (matchCount startKey states) states := by
  have hmine :
      ∀ i, ((states.filter fun r => r.id = i).insertionSort fun a b => startOf a ≤ startOf b) ~
      states.filter fun r => r.id = i := fun i => perm_insertionSort _ _
  have hone : ∀ i, (fill (joined states i)).map g ~
      (states.filter fun r => r.id = i).flatMap fun r =>
        replicate (matchCount startKey states r) (g r) := by
    intro i
    rw [hfill, joined]
    simp only [map_flatMap, map_map]
    refine Perm.trans (Perm.of_eq (flatMap_congr fun r hr => ?_)) ((hmine i).flatMap_right _)
    have hid : r.id = i := of_decide_eq_true (mem_filter.mp ((hmine i).mem_iff.mp hr)).2
    -- the rows of the element with the same start are the rows with the same key
    have hcount : (((states.filter fun r => r.id = i).insertionSort
        fun a b => startOf a ≤ startOf b).filter fun a => a.validFrom = r.validFrom).length =
        matchCount startKey states r := by
      rw [((hmine i).filter _).length_eq, filter_filter, ← countP_eq_length_filter, matchCount]
      refine countP_congr fun a _ => ?_
      simp only [startKey, Prod.mk.injEq, hid, Bool.and_eq_true, decide_eq_true_eq]
      exact and_comm
    have hconst : ∀ l :
        List (HistoryRow α), (l.map ((fun p : HistoryRow α × HistoryRow α => g p.1) ∘
        fun a => (r, a))) = replicate l.length (g r) := by
      intro l
      induction l with
      | nil => rfl
      | cons a l ih => rw [map_cons, ih, length_cons, replicate_succ]; rfl
    rw [hconst, hcount]
  have hgroups := flatMap_groups_perm HistoryRow.id (nodup_dedup (states.map HistoryRow.id))
    (l := states) fun r hr => mem_dedup.mpr (mem_map_of_mem hr)
  rw [map_flatMap, repeated]
  refine Perm.trans (Perm.flatMap_left _ fun i _ => hone i) ?_
  rw [← flatMap_assoc]
  exact hgroups.flatMap_right _

end Joins

/-! ### Own states -/

section Own

variable {t : Typ}

def spatialData (r : HistoryRow (SpatialCols t)) : OwnData t := rowData (r.map byidCols)

/-- A row with what it stands for, as the minor version it is. -/
def marked (r : HistoryRow (SpatialCols t)) : ℤ × OwnData t := (r.minor, spatialData r)

/-- Of marked rows the data of those that are own states. -/
def ownOnly (l : List (ℤ × OwnData t)) : List (OwnData t) :=
  (l.filter fun x => x.1 = 0).map Prod.snd

lemma ownOnly_perm {a b : List (ℤ × OwnData t)} (h : a ~ b) : ownOnly a ~ ownOnly b :=
  (h.filter _).map _

lemma ownOnly_append (a b : List (ℤ × OwnData t)) : ownOnly (a ++ b) = ownOnly a ++ ownOnly b := by
  rw [ownOnly, filter_append, map_append, ownOnly, ownOnly]

/-- The own states of the by-id copy. -/
lemma byid_ownOnly (e : BuildInput) (t : Typ) :
    (((buildHistory e).byid t).rows.filter fun r => r.minor = 0).map rowData ~
      ownOnly ((computeStates e t).map marked) := by
  have hrows : ((buildHistory e).byid t).rows =
      leadValidTo startOf ((computeStates e t).map (HistoryRow.map byidCols)) := rows_writeById _
  have hends := leadValidTo_perm ((computeStates e t).map (HistoryRow.map byidCols))
    (g := fun r => (r.minor, rowData r)) fun _ _ => rfl
  have hmap : ((computeStates e t).map (HistoryRow.map byidCols)).map
      (fun r => (r.minor, rowData r)) = (computeStates e t).map marked := by
    rw [map_map]
    rfl
  rw [hrows, ← hmap]
  refine Perm.trans (Perm.of_eq ?_) (ownOnly_perm hends)
  rw [ownOnly, filter_map, map_map]
  rfl

variable {own minors : List (HistoryRow (SpatialCols t))} {m : HistoryRow (SpatialCols t) → ℕ}

lemma ownOnly_repeated_own (h0 : ∀ r ∈ own, r.minor = 0) :
    ownOnly (repeated marked m own) = repeated spatialData m own := by
  rw [ownOnly, repeated, repeated, filter_flatMap, map_flatMap]
  refine flatMap_congr fun r hr => ?_
  rw [filter_replicate, if_pos (by simp [marked, h0 r hr]), map_replicate]
  rfl

lemma ownOnly_repeated_minors (hm : ∀ r ∈ minors, r.minor ≠ 0) :
    ownOnly (repeated marked m minors) = [] := by
  rw [ownOnly, repeated, filter_flatMap, map_flatMap, flatMap_eq_nil_iff]
  intro r hr
  rw [filter_replicate, if_neg (by simp [marked, hm r hr])]
  rfl

/-- **Own states come out of the join once exactly if no two of them start together**, whatever the
minor states are, as long as none starts with an own state. -/
lemma ownOnly_perm_iff {result : List (HistoryRow (SpatialCols t))}
    (hjoin : result.map marked ~ repeated marked (matchCount startKey (own ++ minors))
      (own ++ minors))
    (h0 : ∀ r ∈ own, r.minor = 0) (hm : ∀ r ∈ minors, r.minor ≠ 0)
    (hapart : ∀ r ∈ own, ∀ x ∈ minors, startKey x ≠ startKey r) :
    ownOnly (result.map marked) ~ own.map spatialData ↔ (own.map startKey).Nodup := by
  have hcount : ∀ r ∈ own, matchCount startKey (own ++ minors) r = matchCount startKey own r := by
    intro r hr
    have hzero : minors.countP (fun a => startKey a = startKey r) = 0 := by
      refine countP_eq_zero.mpr fun x hx => ?_
      simpa using hapart r hr x hx
    rw [matchCount, countP_append, hzero, matchCount, Nat.add_zero]
  have hown : ownOnly (result.map marked) ~
      repeated spatialData (matchCount startKey (own ++ minors)) own := by
    refine (ownOnly_perm hjoin).trans (Perm.of_eq ?_)
    rw [repeated, flatMap_append, ownOnly_append, ← repeated, ← repeated, ownOnly_repeated_own h0,
      ownOnly_repeated_minors hm, append_nil]
  rw [← repeated_perm_iff hcount]
  exact ⟨hown.symm.trans, hown.trans⟩

/-- The same for versions: their states have their data and their starts. -/
lemma own_iff_timesDiffer {versions : List (Version t)} {keys : List String}
    (hdata : own.map spatialData ~ versions.map (versionData keys))
    (hstart : own.map startKey ~ versions.map fun v => (v.id, some v.timestamp))
    {result : List (HistoryRow (SpatialCols t))}
    (h : ownOnly (result.map marked) ~ own.map spatialData ↔ (own.map startKey).Nodup) :
    ownOnly (result.map marked) ~ versions.map (versionData keys) ↔
      (versions.map fun v => (v.id, v.timestamp)).Nodup := by
  have hleft : ownOnly (result.map marked) ~ versions.map (versionData keys) ↔
      ownOnly (result.map marked) ~ own.map spatialData :=
    ⟨fun hp => hp.trans hdata.symm, fun hp => hp.trans hdata⟩
  have hsome : (versions.map fun v => (v.id, some v.timestamp)) =
      (versions.map fun v => (v.id, v.timestamp)).map fun p => (p.1, some p.2) := by
    rw [map_map]
    rfl
  have hinj : Function.Injective fun p : ℤ × ℤ => (p.1, some p.2) := by
    rintro ⟨a, b⟩ ⟨c, d⟩ hp
    simpa using hp
  rw [hleft, h, hstart.nodup_iff, hsome, nodup_map_iff hinj]

end Own

/-! ### The three types -/

section Types

variable (e : BuildInput)

lemma marked_fillNodeCells (leafCells : List Cell) (lag : Option Cell)
    (l : List (HistoryRow NodeCols × HistoryRow NodeCols)) :
    (fillNodeCells leafCells lag l).map (marked (t := .node)) = l.map fun p =>
      marked (t := .node) p.1 := by
  induction l generalizing lag with
  | nil => rfl
  | cons p l ih =>
    obtain ⟨n, a⟩ := p
    rw [fillNodeCells, map_cons, map_cons, ih]
    refine congrArg (· :: _) ?_
    rcases hc : n.cols with _ | c <;> simp [marked, spatialData, rowData, HistoryRow.map, hc, attrs,
      bodyOf, byidCols]

lemma marked_fillWayCells (nodes : List (HistoryRow NodeCols)) (last : Option Cell)
    (l : List (HistoryRow WaySpatialCols × HistoryRow WaySpatialCols)) :
    (fillWayCells e nodes last l).map (marked (t := .way)) = l.map fun p =>
      marked (t := .way) p.1 := by
  induction l generalizing last with
  | nil => rfl
  | cons p l ih =>
    obtain ⟨w, a⟩ := p
    rw [fillWayCells, map_cons, map_cons, ih]
    refine congrArg (· :: _) ?_
    rcases hc : w.cols with _ | c <;> simp [marked, spatialData, rowData, HistoryRow.map, hc, attrs,
      bodyOf, byidCols]

lemma marked_fillCells (i : RelationInput) (last : Option Cell)
    (l : List (HistoryRow RelationSpatialCols × Option BBox)) :
    (fillCells i last l).map (marked (t := .relation)) = l.map fun p =>
      marked (t := .relation) p.1 := by
  induction l generalizing last with
  | nil => rfl
  | cons p l ih =>
    obtain ⟨r, place⟩ := p
    rw [fillCells, map_cons, map_cons, ih]
    refine congrArg (· :: _) ?_
    rcases hc : r.cols with _ | c <;> simp [marked, spatialData, rowData, HistoryRow.map, hc, attrs,
      bodyOf, byidCols, placeRow]

/-- The states of versions with their ends cut off again. -/
lemma strip_own_perm {α β : Type} (rows : List (HistoryRow α)) {g : HistoryRow α → β}
    (hg : ∀ r x, g { r with validTo := x } = g r) :
    ((leadValidTo startOf rows).map strip).map g ~ rows.map g := by
  have hmap : ((leadValidTo startOf rows).map strip).map g = (leadValidTo startOf rows).map g := by
    rw [map_map]
    exact map_congr_left fun r _ => hg r none
  rw [hmap]
  exact leadValidTo_perm rows hg

lemma nodes_iff : ownOnly ((computeStates e .node).map marked) ~
    (e.versions .node).map (versionData e.promotedKeys) ↔
      ((e.versions .node).map fun v => (v.id, v.timestamp)).Nodup := by
  set own : List (HistoryRow (SpatialCols .node)) :=
    (e.versions .node).map (ownState fun v =>
      (⟨v.body, v.attrs e.promotedKeys, 0⟩ : NodeCols)) with hown
  have hjoin : (computeStates e .node).map marked ~
      repeated marked (matchCount startKey (own ++ [])) (own ++ []) := by
    rw [append_nil]
    exact joined_perm (marked_fillNodeCells e.leafCells none)
  have h0 : ∀ r ∈ own, r.minor = 0 := by
    intro r hr
    obtain ⟨v, -, rfl⟩ := mem_map.mp hr
    rfl
  refine own_iff_timesDiffer ?_ ?_ (ownOnly_perm_iff hjoin h0 (by simp) (by simp))
  · rw [hown, map_map]
    rfl
  · rw [hown, map_map]
    rfl

/-- A minor state starts strictly inside the time of a version of its element. -/
def StartsInside {α : Type} (own : List (HistoryRow α)) (x : HistoryRow α) : Prop :=
  ∃ w ∈ own, x.id = w.id ∧ ∃ y, x.validFrom = some y ∧ w.validFrom.any (· < y) = true ∧
    w.validTo.all (y < ·) = true

lemma apart_of_inside {α : Type} {rows : List (HistoryRow α)} {x r : HistoryRow α}
    (hx : StartsInside (leadValidTo startOf rows) x)
    (hr : r ∈ (leadValidTo startOf rows).map strip) : startKey x ≠ startKey r := by
  intro hkey
  obtain ⟨w, hw, hid, y, hy, hfrom, hto⟩ := hx
  obtain ⟨z, hz, rfl⟩ := mem_map.mp hr
  obtain ⟨v, hv, hstrip⟩ := strip_mem_of_lead hz
  obtain ⟨hkid, hkfrom⟩ := Prod.mk.inj hkey
  have hvid : v.id = z.id := congrArg (fun r => r.id) hstrip
  have hvfrom : v.validFrom = z.validFrom := congrArg (fun r => r.validFrom) hstrip
  refine not_start_inside hw hfrom hto hv ?_ (hvfrom.trans (hkfrom.symm.trans hy))
  rw [hvid, ← hid]
  exact hkid.symm

/-- The argument for ways and relations: own states with ends, and minor states inside. -/
lemma versions_iff {t : Typ} {versions : List (Version t)} {keys : List String}
    {cols : Version t → SpatialCols t} (hcols :
      ∀ v, spatialData (ownState cols v) = versionData keys v)
    {minors : List (HistoryRow (SpatialCols t))} (hminor : ∀ x ∈ minors, x.minor ≠ 0)
    (hinside : ∀ x ∈ minors, StartsInside (leadValidTo startOf (versions.map (ownState cols))) x)
    {result : List (HistoryRow (SpatialCols t))}
    (hjoin : result.map marked ~ repeated marked
      (matchCount startKey
        ((leadValidTo startOf (versions.map (ownState cols))).map strip ++ minors))
      ((leadValidTo startOf (versions.map (ownState cols))).map strip ++ minors)) :
    ownOnly (result.map marked) ~ versions.map (versionData keys) ↔
      (versions.map fun v => (v.id, v.timestamp)).Nodup := by
  refine own_iff_timesDiffer ?_ ?_ (ownOnly_perm_iff hjoin ?_ hminor ?_)
  · refine (strip_own_perm _ fun _ _ => rfl).trans (Perm.of_eq ?_)
    rw [map_map]
    exact map_congr_left fun v _ => hcols v
  · refine (strip_own_perm _ fun _ _ => rfl).trans (Perm.of_eq ?_)
    rw [map_map]
    rfl
  · intro r hr
    obtain ⟨z, hz, rfl⟩ := mem_map.mp hr
    obtain ⟨q, hq, hstrip⟩ := strip_mem_of_lead hz
    obtain ⟨v, -, rfl⟩ := mem_map.mp hq
    exact (congrArg (fun r => r.minor) hstrip).symm
  · intro r hr x hx
    exact apart_of_inside (hinside x hx) hr

/-- Minor states are numbered from one. -/
lemma minor_of_zipIdx {α : Type} {w x : HistoryRow α} {times : List ℤ}
    (h : x ∈ (times.zipIdx 1).map fun p =>
      { w with minor := p.2, validFrom := some p.1, validTo := none }) :
    x.minor ≠ 0 ∧ x.id = w.id ∧ ∃ y ∈ times, x.validFrom = some y := by
  obtain ⟨⟨y, n⟩, hp, rfl⟩ := mem_map.mp h
  have hn : 1 ≤ n := le_snd_of_mem_zipIdx hp
  refine ⟨?_, rfl, y, fst_mem_of_mem_zipIdx hp, rfl⟩
  show (n : ℤ) ≠ 0
  omega

lemma ways_iff : ownOnly ((computeStates e .way).map marked) ~
    (e.versions .way).map (versionData e.promotedKeys) ↔
      ((e.versions .way).map fun v => (v.id, v.timestamp)).Nodup := by
  set nodes := computeNodeStates e.leafCells e.promotedKeys (e.versions .node)
  set minors := ((wayOwn e (e.versions .way)).filter HistoryRow.visible).flatMap (wayMinors nodes)
  have hjoin : (computeStates e .way).map marked ~ repeated (marked (t := .way))
      (matchCount startKey ((wayOwn e (e.versions .way)).map strip ++ minors))
      ((wayOwn e (e.versions .way)).map strip ++ minors) :=
    joined_perm (marked_fillWayCells e nodes none)
  have hinside : ∀ x ∈ minors, x.minor ≠ 0 ∧ StartsInside (wayOwn e (e.versions .way)) x := by
    intro x hx
    obtain ⟨w, hw, hx⟩ := mem_flatMap.mp hx
    obtain ⟨hne, hid, y, hy, hfrom⟩ := minor_of_zipIdx hx
    refine ⟨hne, w, (mem_filter.mp hw).1, hid, y, hfrom, ?_⟩
    obtain ⟨i, -, hy⟩ := mem_flatMap.mp (mem_dedup.mp ((mem_insertionSort _).mp hy))
    unfold nodeEventsIn at hy
    split at hy
    · exact Bool.and_eq_true_iff.mp (mem_filter.mp hy).2
    · cases hy
  exact versions_iff (t := .way) (fun _ => rfl) (fun x hx => (hinside x hx).1)
    (fun x hx => (hinside x hx).2) hjoin

lemma relations_iff : ownOnly ((computeStates e .relation).map marked) ~
    (e.versions .relation).map (versionData e.promotedKeys) ↔
      ((e.versions .relation).map fun v => (v.id, v.timestamp)).Nodup := by
  set nodes := computeNodeStates e.leafCells e.promotedKeys (e.versions .node)
  set i : RelationInput := ⟨e.leafCells, e.ancestorDepths, e.maxDepth, e.promotedKeys, nodes,
    computeWayStates e nodes (e.versions .way), e.currentBox⟩
  have hown : relationOwn i ((e.versions .relation).map relationVersion) =
      leadValidTo startOf ((e.versions .relation).map (ownState fun v =>
        (⟨⟨v.body, v.attrs e.promotedKeys, none⟩, none, 0⟩ : RelationSpatialCols))) := by
    rw [relationOwn, map_map]
    rfl
  have hinside : ∀ x ∈ ((relationOwn i ((e.versions .relation).map relationVersion)).filter
      HistoryRow.visible).flatMap (minorStates i), x.minor ≠ 0 ∧
        StartsInside (relationOwn i ((e.versions .relation).map relationVersion)) x := by
    intro x hx
    obtain ⟨w, hw, hx⟩ := mem_flatMap.mp hx
    obtain ⟨hne, hid, y, hy, hfrom⟩ := minor_of_zipIdx hx
    refine ⟨hne, w, (mem_filter.mp hw).1, hid, y, hfrom, ?_⟩
    rcases mem_append.mp ((mem_insertionSort _).mp hy) with hy | hy
    · obtain ⟨m, -, hy⟩ := mem_flatMap.mp (mem_dedup.mp hy)
      split at hy
      · exact Bool.and_eq_true_iff.mp (mem_filter.mp hy).2
      · cases hy
    · obtain ⟨m, -, hy⟩ := mem_flatMap.mp (mem_dedup.mp hy)
      split at hy
      · exact Bool.and_eq_true_iff.mp (mem_filter.mp hy).2
      · cases hy
  -- the join of relations takes the boxes first and is the same otherwise
  have hjoin : ((computeStates e .relation).map marked) ~ repeated (marked (t := .relation))
      (matchCount startKey (statesMeta i ((e.versions .relation).map relationVersion)))
      (statesMeta i ((e.versions .relation).map relationVersion)) := by
    have hfill : ∀ l : List (HistoryRow RelationSpatialCols × HistoryRow RelationSpatialCols),
        (fillCells i none (l.map fun p => (p.1, relationBBox i p.2))).map
        (marked (t := .relation)) =
          l.map fun p => marked (t := .relation) p.1 := by
      intro l
      rw [marked_fillCells, map_map]
      rfl
    refine Perm.trans (Perm.of_eq ?_) (joined_perm hfill)
    refine congrArg (map marked) (flatMap_congr fun j _ => ?_)
    simp only [joined, map_flatMap, map_map]
    rfl
  rw [statesMeta, hown] at hjoin
  rw [hown] at hinside
  exact versions_iff (t := .relation) (fun _ => rfl) (fun x hx => (hinside x hx).1)
    (fun x hx => (hinside x hx).2) hjoin

end Types

/-- **When the history has every version once**: exactly when no two versions of a node, of a way or
of a relation have the same timestamp. -/
theorem ownStatesOnce_iff (e : BuildInput) : OwnStatesOnce e ↔ TimesDiffer e := by
  have htype : ∀ t, (((buildHistory e).byid t).rows.filter fun r => r.minor = 0).map rowData ~
      (e.versions t).map (versionData e.promotedKeys) ↔
        ((e.versions t).map fun v => (v.id, v.timestamp)).Nodup := by
    intro t
    have hbyid := byid_ownOnly e t
    refine Iff.trans ⟨hbyid.symm.trans, hbyid.trans⟩ ?_
    cases t with
    | node => exact nodes_iff e
    | way => exact ways_iff e
    | relation => exact relations_iff e
  exact forall_congr' htype

/-- Two versions of a node within one second. -/
def twoInOneSecond : BuildInput where
  leafCells := [[]]
  ancestorDepths := [0]
  maxDepth := 13
  promotedKeys := []
  currentBox := fun _ => none
  versions
    | .node => [⟨1, 1, some [("name", "a")], some ⟨0, 0⟩, 1, 5, none, "u", true⟩,
        ⟨1, 2, some [("name", "b")], some ⟨10, 0⟩, 1, 5, none, "u", true⟩]
    | .way => []
    | .relation => []

/-- Each of them is written twice. -/
theorem twoInOneSecond_doubled : ¬ OwnStatesOnce twoInOneSecond ∧
    (((buildHistory twoInOneSecond).byid .node).rows.filter fun r =>
      r.minor = 0 ∧ r.id = 1 ∧ r.version = some 1).length = 2 := by
  refine ⟨fun h => ?_, by decide⟩
  have hlen := (h .node).length_eq
  revert hlen
  decide

end OsmParquet.HistoryStates
