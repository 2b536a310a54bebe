import OsmParquet.SetFilter
import OsmParquet.SpatialSnapshots

/-!
The filter for elements that changed between two times.

An element qualifies if one of its states starts between the times. The filter looks for such
states in the history of the cells of the query, not in the history of the elements that the query
has found. It finds a state that is in one of the cells, and one by which the element has left such
a cell. What an element went through before it came near is in the files of other cells, and what
the updater has placed in a cell that the base history does not have is in the cells of no query.
-/

namespace OsmParquet.ChangedFilter

open OsmParquet.KeyedList OsmParquet.Rows OsmParquet.Tiers OsmParquet.TierSteps
open OsmParquet.ByidReads OsmParquet.Updater OsmParquet.PrevCells OsmParquet.SpatialReads
  OsmParquet.RunSteps
open OsmParquet.CellTree OsmParquet.Findable OsmParquet.HistoryTiers OsmParquet.Timeline
open OsmParquet.Snapshots OsmParquet.HistoryWindows OsmParquet.HistoryCompact
open OsmParquet.HistoryBatch OsmParquet.Traces OsmParquet.Datasets OsmParquet.EndOfTime
open OsmParquet.HistoryBuild OsmParquet.SpatialSnapshots OsmParquet.RelationQuery
  OsmParquet.SetFilter

variable {α : Type}

/-! ### The filter -/

/-- The row starts after the first time and not after the second one. -/
def startsIn (since upTo : ℤ) (r : HistoryRow α) : Bool :=
  r.validFrom.any fun x => decide (since < x ∧ x ≤ upTo)

/-- The elements of a type that have a row of the window in the cells of the query. -/
def changedIds (s : Root) (h : HistoryRoot) (bbox : Option Box) (since upTo : ℤ) (t : Typ) :
    List ℤ :=
  let cells := historyCellsForBbox s h t bbox
  ((cells.flatMap (h.spatial t).rowsOf).filter (startsIn since upTo) ++
    (tierSpatialRows h.tiers t).filter fun r =>
      r.cell.any (fun c => decide (c ∈ cells)) && startsIn since upTo r).map HistoryRow.id

def changedIdsPredicate (s : Root) (h : HistoryRoot) (bbox : Option Box) (since upTo : ℤ) (t : Typ)
    (i : ℤ) : Bool :=
  decide (i ∈ changedIds s h bbox since upTo t)

/-- What the filter is for: a row of the element in the by-id history starts in the window. -/
def Changed (h : HistoryRoot) (since upTo : ℤ) (t : Typ) (i : ℤ) : Prop :=
  ∃ r ∈ byidRows h t, r.id = i ∧ startsIn since upTo r

instance (h : HistoryRoot) (since upTo : ℤ) (t : Typ) (i : ℤ) :
    Decidable (Changed h since upTo t i) :=
  inferInstanceAs (Decidable (∃ r ∈ byidRows h t, r.id = i ∧ startsIn since upTo r))

/-! ### The states a history was made of -/

/-- The states of an element in their order, each visible one with the cell of the one before. -/
def withPrev (l : List (HistoryRow α)) : List (HistoryState α) :=
  ((none :: l.map some).zip l).map fun p =>
    ⟨p.2, if p.2.visible then p.1.bind HistoryRow.cell else none⟩

def builtStates (rows : List (HistoryRow α)) : List (HistoryState α) :=
  (rows.map HistoryRow.id).dedup.flatMap fun i => withPrev (window startOf i rows)

/-- The states that a command adds. -/
def batchOf (d : Dataset) (t : Typ) : Command → List (HistoryState (SpatialCols t))
  | .update f => if f.diffs = [] then [] else d.history.elim [] fun h =>
    buildHistoryBatch d.root h f t
  | _ => []

/-- The states that a sequence of commands adds. -/
def statesAlong (t : Typ) : Dataset → List Command → List (HistoryState (SpatialCols t))
  | _, [] => []
  | d, c :: cs => batchOf d t c ++ (execute d c).elim [] fun d' => statesAlong t d' cs

/-- The state is in the cell, or the element has left the cell by it. -/
def Touches {t : Typ} (x : HistoryState (SpatialCols t)) (c : Cell) : Prop :=
  x.row.cell = some c ∨ Leaves x ∧ x.prevCell = some c

/-- All rows of the copy by cell. -/
def spatialRows (h : HistoryRoot) (t : Typ) : List (HistoryRow (SpatialCols t)) :=
  baseSpatial h t ++ tierSpatialRows h.tiers t

/-- The history has the states `X`: by id with their starts, and in the cells they touch. -/
structure Recorded (h : HistoryRoot) (t : Typ) (X : List (HistoryState (SpatialCols t))) :
    Prop where
  byid : ∀ i v, (∃ r ∈ byidRows h t, r.id = i ∧ r.validFrom = v) ↔
    ∃ x ∈ X, x.row.id = i ∧ x.row.validFrom = v
  spatial : ∀ i v c, (∃ z ∈ spatialRows h t, z.id = i ∧ z.validFrom = v ∧ z.cell = some c) ↔
    ∃ x ∈ X, x.row.id = i ∧ x.row.validFrom = v ∧ Touches x c

/-- A state of the element in the window touches one of the cells. -/
def ChangedNear {t : Typ} (X : List (HistoryState (SpatialCols t))) (cells : List Cell)
    (since upTo i : ℤ) : Prop :=
  ∃ x ∈ X, x.row.id = i ∧ startsIn since upTo x.row ∧ ∃ c ∈ cells, Touches x c

/-! ### Rows with their ends -/

section Leads

variable {κ : Type} [LinearOrder κ] {key : HistoryRow α → κ} {rows : List (HistoryRow α)}
  {r : HistoryRow α}

/-- Every row is there with some end. -/
lemma exists_lead (key : HistoryRow α → κ) (hr : r ∈ rows) :
    ∃ x ∈ leadValidTo key rows, strip x = strip r := by
  have hw : r ∈ window key r.id rows := mem_window.mpr ⟨hr, rfl⟩
  rw [← map_fst_leads (window key r.id rows)] at hw
  obtain ⟨p, hp, rfl⟩ := List.mem_map.mp hw
  exact ⟨{ p.1 with validTo := p.2 }, mem_leadValidTo.mpr ⟨p, hp, rfl⟩, rfl⟩

/-- What does not look at the ends is the same with them. -/
lemma exists_lead_iff {p : HistoryRow α → Prop} (hp : ∀ x y, strip x = strip y → (p x ↔ p y)) :
    (∃ x ∈ leadValidTo key rows, p x) ↔ ∃ x ∈ rows, p x := by
  constructor
  · rintro ⟨x, hx, hpx⟩
    obtain ⟨y, hy, hs⟩ := strip_mem_of_lead hx
    exact ⟨y, hy, (hp y x hs).mpr hpx⟩
  · rintro ⟨y, hy, hpy⟩
    obtain ⟨x, hx, hs⟩ := exists_lead key hy
    exact ⟨x, hx, (hp x y hs).mpr hpy⟩

/-- The same of a group of rows that is rewritten only if there are new ones. -/
lemma exists_rewritten_iff {old new : List (HistoryRow α)} {p : HistoryRow α → Prop}
    (hp : ∀ x y, strip x = strip y → (p x ↔ p y)) :
    (∃ x ∈ (if new = [] then old else leadValidTo windowKey (old ++ new)), p x) ↔
      ∃ x ∈ old ++ new, p x := by
  split
  · rename_i hn
    rw [hn, List.append_nil]
  · exact exists_lead_iff hp

lemma strip_start {x y : HistoryRow α} (h : strip x = strip y) :
    x.id = y.id ∧ x.validFrom = y.validFrom ∧ x.cell = y.cell := by
  cases x
  cases y
  cases h
  exact ⟨rfl, rfl, rfl⟩

end Leads

/-! ### A history that was built -/

section Base

variable {t : Typ} {rows : List (HistoryRow (SpatialCols t))}

lemma map_row_withPrev (l : List (HistoryRow α)) : (withPrev l).map HistoryState.row = l := by
  have h : ((none :: l.map some).zip l).map Prod.snd = l := List.map_snd_zip (by simp)
  rw [withPrev, List.map_map]
  exact h

lemma exists_builtStates {p : HistoryRow (SpatialCols t) → Prop} :
    (∃ x ∈ builtStates rows, p x.row) ↔ ∃ r ∈ rows, p r := by
  simp only [builtStates, List.mem_flatMap, List.mem_dedup, List.mem_map]
  constructor
  · rintro ⟨x, ⟨i, -, hx⟩, hp⟩
    have hmem : x.row ∈ window startOf i rows := by
      rw [← map_row_withPrev (window startOf i rows)]
      exact List.mem_map_of_mem hx
    exact ⟨x.row, (mem_window.mp hmem).1, hp⟩
  · rintro ⟨r, hr, hp⟩
    have hmem : r ∈ (withPrev (window startOf r.id rows)).map HistoryState.row := by
      rw [map_row_withPrev]
      exact mem_window.mpr ⟨hr, rfl⟩
    obtain ⟨x, hx, rfl⟩ := List.mem_map.mp hmem
    exact ⟨x, ⟨x.row.id, ⟨x.row, hr, rfl⟩, hx⟩, hp⟩

/-- The row left behind is that of a state that leaves a cell. -/
lemma leftBehind_iff {prev : Option (HistoryRow (SpatialCols t))} {r : HistoryRow (SpatialCols t)}
    {i : ℤ} {v : Option ℤ} {c : Cell} :
    (∃ z, leftBehind prev r = some z ∧ z.id = i ∧ z.validFrom = v ∧ z.cell = some c) ↔
      r.id = i ∧ r.validFrom = v ∧
        Leaves ⟨r, if r.visible then prev.bind HistoryRow.cell else none⟩ ∧
          (if r.visible then prev.bind HistoryRow.cell else none) = some c := by
  unfold leftBehind Leaves
  by_cases hl : (r.visible && (prev.bind HistoryRow.cell).isSome && r.cell.isSome &&
      r.cell != prev.bind HistoryRow.cell) = true
  · simp only [hl, if_true, Option.some.injEq, exists_eq_left']
    simp only [Bool.and_eq_true, bne_iff_ne] at hl
    obtain ⟨⟨⟨hv, hp⟩, hc⟩, hne⟩ := hl
    simp [hv, hp, hc, hne.symm]
  · simp only [hl, Bool.false_eq_true, if_false, reduceCtorEq, false_and, exists_false, false_iff]
    rintro ⟨-, -, ⟨hp, hc, hne⟩, -⟩
    refine hl ?_
    cases hv : r.visible with
    | false => simp [hv] at hp
    | true =>
      simp only [hv, if_true] at hp hc hne
      simp [hp, hc, Ne.symm hne]

/-- The move tombstones are those of the states that leave a cell. -/
lemma exists_moveTombstone {i : ℤ} {v : Option ℤ} {c : Cell} :
    (∃ z ∈ (rows.map HistoryRow.id).dedup.flatMap fun i => moveTombstones (window startOf i rows),
      z.id = i ∧ z.validFrom = v ∧ z.cell = some c) ↔
      ∃ x ∈ builtStates rows, x.row.id = i ∧ x.row.validFrom = v ∧ Leaves x ∧
        x.prevCell = some c := by
  simp only [builtStates, moveTombstones, withPrev, List.mem_flatMap,
    List.mem_filterMap, List.mem_map]
  constructor
  · rintro ⟨z, ⟨k, hk, p, hp, hz⟩, hproj⟩
    exact ⟨_, ⟨k, hk, p, hp, rfl⟩, leftBehind_iff.mp ⟨z, hz, hproj⟩⟩
  · rintro ⟨x, ⟨k, hk, p, hp, rfl⟩, hproj⟩
    obtain ⟨z, hz, hproj⟩ := leftBehind_iff.mpr hproj
    exact ⟨z, ⟨k, hk, p, hp, hz⟩, hproj⟩

/-- **A built history has the states it was built of.** -/
lemma recorded_built {states : (t : Typ) → States t} {h : HistoryRoot} (hb : Built states h) :
    Recorded h t (builtStates (states t).rows) where
  byid i v := by
    have hnil : tierByidRows h.tiers t = [] := by
      rw [hb.tiers]
      rfl
    have hlead := @exists_lead_iff _ _ _ startOf (states t).rows
      (fun r => r.id = i ∧ r.validFrom = v) fun x y hxy => by
        rw [(strip_start hxy).1, (strip_start hxy).2.1]
    rw [exists_builtStates (p := fun r => r.id = i ∧ r.validFrom = v), ← hlead]
    simp only [byidRows, hnil, List.append_nil, hb.byid, mem_finalById]
    constructor
    · rintro ⟨r, ⟨x, hx, rfl⟩, hr⟩
      exact ⟨x, hx, hr⟩
    · rintro ⟨x, hx, hr⟩
      exact ⟨_, ⟨x, hx, rfl⟩, hr⟩
  spatial i v c := by
    have hnil : tierSpatialRows h.tiers t = [] := by
      rw [hb.tiers]
      rfl
    have hstates : (∃ x ∈ builtStates (states t).rows, x.row.id = i ∧ x.row.validFrom = v ∧
        x.row.cell = some c) ↔
        ∃ z ∈ leadValidTo startOf (states t).rows, z.id = i ∧ z.validFrom = v ∧
          z.cell = some c := by
      rw [exists_builtStates (p := fun r => r.id = i ∧ r.validFrom = v ∧ r.cell = some c)]
      refine (exists_lead_iff fun x y hxy => ?_).symm
      obtain ⟨h1, h2, h3⟩ := strip_start hxy
      rw [h1, h2, h3]
    have hsplit : (∃ x ∈ builtStates (states t).rows, x.row.id = i ∧ x.row.validFrom = v ∧
        Touches x c) ↔
        (∃ x ∈ builtStates (states t).rows, x.row.id = i ∧ x.row.validFrom = v ∧
          x.row.cell = some c) ∨
          ∃ x ∈ builtStates (states t).rows, x.row.id = i ∧ x.row.validFrom = v ∧ Leaves x ∧
            x.prevCell = some c := by
      simp only [Touches, and_or_left, exists_or]
    rw [hsplit, hstates, ← exists_moveTombstone]
    simp only [spatialRows, hnil, List.append_nil, hb.spatial, finalSpatial, finalizeStates,
      List.mem_filter, List.mem_append]
    constructor
    · rintro ⟨z, ⟨hz | hz, -⟩, hproj⟩
      · exact .inl ⟨z, hz, hproj⟩
      · exact .inr ⟨z, hz, hproj⟩
    · rintro (⟨z, hz, hproj⟩ | ⟨z, hz, hproj⟩)
      · exact ⟨z, ⟨.inl hz, by rw [hproj.2.2]; rfl⟩, hproj⟩
      · exact ⟨z, ⟨.inr hz, by rw [hproj.2.2]; rfl⟩, hproj⟩

end Base

/-! ### Runs and compaction -/

section Steps

variable {s : Root} {h h' : HistoryRoot} {t : Typ} {X : List (HistoryState (SpatialCols t))}

/-- **A run adds its states.** -/
lemma recorded_appended {f : Fetched} (hr : Recorded h t X) (ha : Appended s h f h') :
    Recorded h' t (X ++ buildHistoryBatch s h f t) where
  byid i v := by
    have hmem : ∀ r, r ∈ byidRows h' t ↔ r ∈ byidRows h t ∨
        ∃ x ∈ buildHistoryBatch s h f t, x.row.map byidCols = r := ha.added t
    simp only [hmem, or_and_right, exists_or, hr.byid, List.mem_append]
    refine or_congr_right ?_
    constructor
    · rintro ⟨r, ⟨x, hx, rfl⟩, hproj⟩
      exact ⟨x, hx, hproj⟩
    · rintro ⟨x, hx, hproj⟩
      exact ⟨_, ⟨x, hx, rfl⟩, hproj⟩
  spatial i v c := by
    have hmem : ∀ z, z ∈ spatialRows h' t ↔ z ∈ spatialRows h t ∨
        z ∈ (finalizeHistoryBatch (buildHistoryBatch s h f t)).spatial := by
      intro z
      rw [spatialRows, spatialRows, List.mem_append, List.mem_append, ha.spatial, or_assoc,
        baseSpatial, ha.spatialBase]
      rfl
    have hnew : (∃ z ∈ (finalizeHistoryBatch (buildHistoryBatch s h f t)).spatial,
        z.id = i ∧ z.validFrom = v ∧ z.cell = some c) ↔
        ∃ x ∈ buildHistoryBatch s h f t, x.row.id = i ∧ x.row.validFrom = v ∧ Touches x c := by
      simp only [finalizeHistoryBatch, List.mem_append, List.mem_map, List.mem_filter,
        Bool.and_eq_true, bne_iff_ne]
      constructor
      · rintro ⟨z, ⟨x, hx, rfl⟩ | ⟨x, ⟨hx, ⟨h1, h2⟩, h3⟩, rfl⟩, hid, hv, hc⟩
        · exact ⟨x, hx, hid, hv, .inl hc⟩
        · exact ⟨x, hx, hid, hv, .inr ⟨⟨h1, h2, h3⟩, hc⟩⟩
      · rintro ⟨x, hx, hid, hv, hc | ⟨⟨h1, h2, h3⟩, hc⟩⟩
        · exact ⟨x.row, .inl ⟨x, hx, rfl⟩, hid, hv, hc⟩
        · exact ⟨moveTombstone x, .inr ⟨x, ⟨hx, ⟨h1, h2⟩, h3⟩, rfl⟩, hid, hv, hc⟩
    simp only [hmem, or_and_right, exists_or, hr.spatial, hnew, List.mem_append]

/-- What does not look at the ends is the same in the compacted parts. -/
lemma exists_compactHistoryParts {old : HistoryParts α} {new : List (HistoryRow α)}
    {p : HistoryRow α → Prop} (hp : ∀ x y, strip x = strip y → (p x ↔ p y)) :
    (∃ r ∈ (compactHistoryParts old new).rows, p r) ↔ ∃ r ∈ old.rows ++ new, p r := by
  have hgroup : ∀ x : IdRange × Option (HistoryPart α),
      (∃ r ∈ (compactHistoryPart new x).elim [] HistoryPart.rows, p r) ↔
        ∃ r ∈ oldRows x ++ newRows new x, p r := by
    intro x
    rw [rows_compactHistoryPart]
    exact exists_rewritten_iff hp
  constructor
  · rintro ⟨r, hr, hpr⟩
    obtain ⟨x, hx, hrx⟩ := mem_rows_compactHistoryParts.mp hr
    obtain ⟨r', hr', hpr'⟩ := (hgroup x).mp ⟨r, hrx, hpr⟩
    refine ⟨r', ?_, hpr'⟩
    rcases List.mem_append.mp hr' with hold | hnew
    · exact List.mem_append_left _ (mem_rows_iff.mpr ⟨x, hx, hold⟩)
    · exact List.mem_append_right _ (List.mem_filter.mp hnew).1
  · rintro ⟨r, hr, hpr⟩
    obtain ⟨x, hx, hrx⟩ : ∃ x ∈ byidPartRanges old.parts, r ∈ oldRows x ++ newRows new x := by
      rcases List.mem_append.mp hr with hold | hnew
      · obtain ⟨x, hx, hrx⟩ := mem_rows_iff.mp hold
        exact ⟨x, hx, List.mem_append_left _ hrx⟩
      · obtain ⟨x, hx, hin⟩ := exists_owner old r.id
        exact ⟨x, hx, List.mem_append_right _ (List.mem_filter.mpr ⟨hnew, hin⟩)⟩
    obtain ⟨r', hr', hpr'⟩ := (hgroup x).mpr ⟨r, hrx, hpr⟩
    exact ⟨r', mem_rows_compactHistoryParts.mpr ⟨x, hx, hr'⟩, hpr'⟩

/-- **Compaction keeps the states.** -/
lemma recorded_compactHistory (hr : Recorded h t X) : Recorded (compactHistory h) t X where
  byid i v := by
    rw [← hr.byid]
    have hnil : tierByidRows (compactHistory h).tiers t = [] := rfl
    rw [byidRows, hnil, List.append_nil]
    refine exists_compactHistoryParts fun x y hxy => ?_
    rw [(strip_start hxy).1, (strip_start hxy).2.1]
  spatial i v c := by
    rw [← hr.spatial]
    have hnil : tierSpatialRows (compactHistory h).tiers t = [] := rfl
    have hcell : ∀ (h : HistoryRoot), (∃ z ∈ baseSpatial h t, z.id = i ∧ z.validFrom = v ∧
        z.cell = some c) ↔ ∃ z ∈ (h.spatial t).rowsOf c, z.id = i ∧ z.validFrom = v := by
      intro h
      simp only [mem_rowsOf_iff, and_assoc]
      exact exists_congr fun z => by tauto
    have hrows : ((compactHistory h).spatial t).rowsOf c =
        if newIn (tierSpatialRows h.tiers t) c = [] then (h.spatial t).rowsOf c
        else leadValidTo windowKey ((h.spatial t).rowsOf c ++
          newIn (tierSpatialRows h.tiers t) c) :=
      rowsOf_compactHistoryCells _ _ _
    have hp : ∀ x y : HistoryRow (SpatialCols t), strip x = strip y →
        ((x.id = i ∧ x.validFrom = v) ↔ (y.id = i ∧ y.validFrom = v)) := fun x y hxy => by
      rw [(strip_start hxy).1, (strip_start hxy).2.1]
    rw [spatialRows, spatialRows, hnil, List.append_nil, hcell, hrows, exists_rewritten_iff hp]
    simp only [List.mem_append, or_and_right, exists_or, hcell]
    refine or_congr_right (exists_congr fun z => ?_)
    simp only [newIn, List.mem_filter, decide_eq_true_eq]
    tauto

end Steps

/-! ### What the filter finds -/

section Runs

variable {t : Typ} {X : List (HistoryState (SpatialCols t))}

/-- The commands after `history build` that leave a root with its history. -/
def Keeps : Command → Prop
  | .update _ => True
  | .compact _ _ => True
  | _ => False

/-- The dataset has a history, and that has the states. -/
def Holding (t : Typ) (X : List (HistoryState (SpatialCols t))) (d : Dataset) : Prop :=
  ∃ h, d.history = some h ∧ AllMatched h.tiers ∧ Recorded h t X

lemma allMatched_empty : AllMatched History.empty := by
  constructor <;> intro x hx <;> cases hx

lemma holding_step {d d' : Dataset} {c : Command} (hk : Keeps c) (hd : Holding t X d)
    (he : execute d c = some d') : Holding t (X ++ batchOf d t c) d' := by
  obtain ⟨h, hh, hm, hr⟩ := hd
  cases c with
  | build b => exact hk.elim
  | historyBuild byid spatial => exact hk.elim
  | update f =>
    obtain ⟨s, o⟩ := d
    cases hh
    change update ⟨s, some h⟩ f = some d' at he
    by_cases hf : f.diffs = []
    · simp only [update, hf, if_true, Option.some.injEq] at he
      subst he
      simp only [batchOf, hf, if_true, List.append_nil]
      exact ⟨h, rfl, hm, hr⟩
    · obtain ⟨h', rfl, ha⟩ := update_appended hm hf he
      simp only [batchOf, hf, if_false, Option.elim_some]
      exact ⟨h', rfl, ha.matched, recorded_appended hr ha⟩
  | compact nodeWay member =>
    cases he
    have hnone : batchOf d t (.compact nodeWay member) = [] := rfl
    rw [hnone, List.append_nil]
    exact ⟨compactHistory h, by rw [hh]; rfl, allMatched_empty, recorded_compactHistory hr⟩

lemma holding_play {cs : List Command} {d d' : Dataset} (hk : ∀ c ∈ cs, Keeps c)
    (hd : Holding t X d) (hp : play execute d cs = some d') :
    Holding t (X ++ statesAlong t d cs) d' := by
  induction cs generalizing d X with
  | nil =>
    rw [play_nil] at hp
    cases hp
    rw [statesAlong, List.append_nil]
    exact hd
  | cons c cs ih =>
    obtain ⟨m, hm, hp⟩ := play_cons_eq_some.mp hp
    have hstep := holding_step (hk c List.mem_cons_self) hd hm
    have hrest := ih (fun c hc => hk c (List.mem_cons_of_mem _ hc)) hstep hp
    rw [statesAlong, hm, Option.elim_some, ← List.append_assoc]
    exact hrest

end Runs

section Exact

variable {s : Root} {h : HistoryRoot} {t : Typ} {X : List (HistoryState (SpatialCols t))}
  {bbox : Option Box} {since upTo i : ℤ}

lemma startsIn_iff {r : HistoryRow α} : startsIn since upTo r = true ↔
    ∃ v, r.validFrom = some v ∧ since < v ∧ v ≤ upTo := by
  simp [startsIn, Option.any_eq_true]

/-- The filter looks at the rows of the copy by cell in the cells of the query. -/
lemma changedIdsPredicate_iff : changedIdsPredicate s h bbox since upTo t i = true ↔
    ∃ c ∈ historyCellsForBbox s h t bbox, ∃ z ∈ spatialRows h t,
      z.id = i ∧ startsIn since upTo z = true ∧ z.cell = some c := by
  unfold changedIdsPredicate changedIds
  rw [decide_eq_true_iff]
  simp only [List.mem_map, List.mem_append, List.mem_filter, List.mem_flatMap, mem_rowsOf_iff,
    spatialRows, Bool.and_eq_true, Option.any_eq_true, decide_eq_true_eq]
  constructor
  · rintro ⟨z, ⟨⟨c, hc, hz, hzc⟩, hin⟩ | ⟨hz, ⟨c, hzc, hc⟩, hin⟩, hid⟩
    · exact ⟨c, hc, z, .inl hz, hid, hin, hzc⟩
    · exact ⟨c, hc, z, .inr hz, hid, hin, hzc⟩
  · rintro ⟨c, hc, z, hz | hz, hid, hin, hzc⟩
    · exact ⟨z, .inl ⟨⟨c, hc, hz, hzc⟩, hin⟩, hid⟩
    · exact ⟨z, .inr ⟨hz, ⟨c, hzc, hc⟩, hin⟩, hid⟩

/-- **The filter finds the states that touch a cell of the query.** -/
lemma predicate_iff_changedNear (hr : Recorded h t X) :
    changedIdsPredicate s h bbox since upTo t i = true ↔
      ChangedNear X (historyCellsForBbox s h t bbox) since upTo i := by
  rw [changedIdsPredicate_iff]
  constructor
  · rintro ⟨c, hc, z, hz, hid, hin, hzc⟩
    obtain ⟨v, hv, hw⟩ := startsIn_iff.mp hin
    obtain ⟨x, hx, hxid, hxv, htouch⟩ := (hr.spatial i (some v) c).mp ⟨z, hz, hid, hv, hzc⟩
    exact ⟨x, hx, hxid, startsIn_iff.mpr ⟨v, hxv, hw⟩, c, hc, htouch⟩
  · rintro ⟨x, hx, hid, hin, c, hc, htouch⟩
    obtain ⟨v, hv, hw⟩ := startsIn_iff.mp hin
    obtain ⟨z, hz, hzid, hzv, hzc⟩ := (hr.spatial i (some v) c).mpr ⟨x, hx, hid, hv, htouch⟩
    exact ⟨c, hc, z, hz, hzid, startsIn_iff.mpr ⟨v, hzv, hw⟩, hzc⟩

/-- The by-id history has a row of the window for every state in it. -/
lemma changed_iff (hr : Recorded h t X) : Changed h since upTo t i ↔
    ∃ x ∈ X, x.row.id = i ∧ startsIn since upTo x.row = true := by
  constructor
  · rintro ⟨r, hmem, hid, hin⟩
    obtain ⟨v, hv, hw⟩ := startsIn_iff.mp hin
    obtain ⟨x, hx, hxid, hxv⟩ := (hr.byid i (some v)).mp ⟨r, hmem, hid, hv⟩
    exact ⟨x, hx, hxid, startsIn_iff.mpr ⟨v, hxv, hw⟩⟩
  · rintro ⟨x, hx, hid, hin⟩
    obtain ⟨v, hv, hw⟩ := startsIn_iff.mp hin
    obtain ⟨r, hmem, hrid, hrv⟩ := (hr.byid i (some v)).mpr ⟨x, hx, hid, hv⟩
    exact ⟨r, hmem, hrid, startsIn_iff.mpr ⟨v, hrv, hw⟩⟩

end Exact

/-- **When the filter is exact.** For a history that `history build` has made of states, after any
runs and compactions, for every element, box and window: exactly when, if the element has states
that start in the window, one of them is in a cell of the query, or is one by which the element has
left such a cell. -/
theorem changed_exact_iff (states : (t : Typ) → States t) (s : Root) (h : HistoryRoot)
    (hb : Built states h) (cs : List Command) (hk : ∀ c ∈ cs, Keeps c) (d' : Dataset)
    (hp : play execute ⟨s, some h⟩ cs = some d') (h' : HistoryRoot) (hh : d'.history = some h')
    (t : Typ) (i : ℤ) (bbox : Option Box) (since upTo : ℤ) :
    (changedIdsPredicate d'.root h' bbox since upTo t i = true ↔ Changed h' since upTo t i) ↔
      ((∃ x ∈ builtStates (states t).rows ++ statesAlong t ⟨s, some h⟩ cs,
          x.row.id = i ∧ startsIn since upTo x.row = true) →
        ChangedNear (builtStates (states t).rows ++ statesAlong t ⟨s, some h⟩ cs)
          (historyCellsForBbox d'.root h' t bbox) since upTo i) := by
  have hstart : Holding t (builtStates (states t).rows) ⟨s, some h⟩ :=
    ⟨h, rfl, by rw [hb.tiers]; exact allMatched_empty, recorded_built hb⟩
  obtain ⟨h'', hh'', -, hr⟩ := holding_play hk hstart hp
  cases hh.symm.trans hh''
  rw [predicate_iff_changedNear hr, changed_iff hr]
  constructor
  · exact fun hiff => hiff.mpr
  · refine fun himp => ⟨?_, himp⟩
    rintro ⟨x, hx, hid, hin, -⟩
    exact ⟨x, hx, hid, hin⟩

/-! ### A node that comes from elsewhere -/

/-- The first of the two nodes moves to the other one at the second `20`. -/
def comesOver : List Command := [.update (moveAt 1 2 ⟨450000000, 900000000⟩ 20)]

/-- Where it comes to. -/
def atNorthEast : Box := ⟨450000000, 900000000, 450000000, 900000000⟩

/-- The move itself is found. -/
theorem changed_exact_move : ∃ d' h', play execute ⟨fresh twoNodes,
    some twoHistory⟩ comesOver = some d' ∧ d'.history = some h' ∧ Changed h' 10 30 .node 1 ∧
      (changedIdsPredicate d'.root h' (some atNorthEast) 10 30 .node 1 = true ↔
        Changed h' 10 30 .node 1) := by
  have hs : (play execute ⟨fresh twoNodes, some twoHistory⟩ comesOver).any (fun d' =>
      d'.history.any fun h' => decide (Changed h' 10 30 .node 1 ∧
        [1] ∈ historyCellsForBbox d'.root h' .node (some atNorthEast))) = true := by
    decide +kernel
  have hstate : ∃ x ∈ statesAlong .node ⟨fresh twoNodes, some twoHistory⟩ comesOver,
      x.row.id = 1 ∧ startsIn 10 30 x.row = true ∧ x.row.cell = some [1] := by
    decide
  obtain ⟨d', hd, hd'⟩ := (Option.any_eq_true _ _).mp hs
  obtain ⟨h', hh, hh'⟩ := (Option.any_eq_true _ _).mp hd'
  obtain ⟨hchanged, hcell⟩ := of_decide_eq_true hh'
  refine ⟨d', h', hd, hh, hchanged, (changed_exact_iff twoStates (fresh twoNodes) twoHistory
    (built_historyBuild twoStates) comesOver (by simp [comesOver, Keeps]) d' hd h' hh .node 1 _ 10
    30).mpr fun _ => ?_⟩
  obtain ⟨x, hx, hid, hin, hc⟩ := hstate
  exact ⟨x, List.mem_append_right _ hx, hid, hin, [1], hcell, .inl hc⟩

/-- What the node went through where it was before is not: the query returns it and its first
state starts in the window. -/
theorem changed_elsewhere_missed : Built twoStates twoHistory ∧
    ∃ d' h', play execute ⟨fresh twoNodes, some twoHistory⟩ comesOver = some d' ∧
      d'.history = some h' ∧ 1 ∈ idsInBox cornerInside d'.root atNorthEast .node ∧
      ¬ (changedIdsPredicate d'.root h' (some atNorthEast) 0 10 .node 1 = true ↔
        Changed h' 0 10 .node 1) := by
  have hs : (play execute ⟨fresh twoNodes, some twoHistory⟩ comesOver).any (fun d' =>
      d'.history.any fun h' => decide (1 ∈ idsInBox cornerInside d'.root atNorthEast .node ∧
        ¬ (changedIdsPredicate d'.root h' (some atNorthEast) 0 10 .node 1 = true ↔
          Changed h' 0 10 .node 1))) = true := by
    decide +kernel
  obtain ⟨d', hd, hd'⟩ := (Option.any_eq_true _ _).mp hs
  obtain ⟨h', hh, hh'⟩ := (Option.any_eq_true _ _).mp hd'
  exact ⟨built_historyBuild twoStates, d', h', hd, hh, of_decide_eq_true hh'⟩

end OsmParquet.ChangedFilter
