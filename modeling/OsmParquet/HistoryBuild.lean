import OsmParquet.HistoryCompact
import OsmParquet.SplitCopies

/-!
The base history that `history build` writes.

Of every element the states are computed from its versions, and written by id and by cell. Both
copies give a state the start of the next one as its end. The copy by cell also has a row without
end for every visible state that is in another cell than the one before. At a time an element then
has one state that has started and not ended, and what else there is of it in the cells shows
nothing.
-/

namespace OsmParquet.HistoryBuild

open OsmParquet.KeyedList OsmParquet.Rows OsmParquet.Tiers OsmParquet.HistoryTiers
open OsmParquet.Timeline OsmParquet.SplitCopies OsmParquet.Snapshots OsmParquet.HistoryWindows
open OsmParquet.HistoryCompact

variable {α β : Type}

/-! ### The two copies -/

/-- The states of a type, without ends. As `finalizeStates` requires, an element has one for each
start, so that its window has one order only. A visible one has a cell. -/
structure States (t : Typ) where
  rows : List (HistoryRow (SpatialCols t))
  once : Distinct (fun r => (r.id, r.validFrom)) rows
  placed : ∀ r ∈ rows, r.visible = true → r.cell.isSome

/-- The row in the cell that a visible state has left. -/
def leftBehind (prev : Option (HistoryRow α)) (r : HistoryRow α) : Option (HistoryRow α) :=
  let prevCell := prev.bind HistoryRow.cell
  if r.visible && prevCell.isSome && r.cell.isSome && r.cell != prevCell then
    some ⟨r.id, r.version, r.minor, none, r.validFrom, none, false, prevCell, none⟩
  else none

/-- The move tombstones of an element, from its states in the order of their starts. -/
def moveTombstones (l : List (HistoryRow α)) : List (HistoryRow α) :=
  ((none :: l.map some).zip l).filterMap fun p => leftBehind p.1 p.2

/-- The states with their ends, and the move tombstones. The window looks at the start only; states
of an element that start together are in the order they are given in, and all but the last of them
end as they start. -/
def finalizeStates (rows : List (HistoryRow α)) : List (HistoryRow α) :=
  leadValidTo startOf rows ++
    (rows.map HistoryRow.id).dedup.flatMap fun i => moveTombstones (window startOf i rows)

/-- The by-id copy of the states, with their ends. -/
def finalById {t : Typ} (s : States t) : List (HistoryRow (ByidCols t)) :=
  leadValidTo startOf (s.rows.map (HistoryRow.map byidCols))

/-- The copy by cell: what has no cell is not written. -/
def finalSpatial {t : Typ} (s : States t) : List (HistoryRow (SpatialCols t)) :=
  (finalizeStates s.rows).filter fun r => r.cell.isSome

/-- The files of every cell that has rows. -/
def writeSpatial (rows : List (HistoryRow α)) : HistoryCells α where
  cells := (touchedCells rows).map fun c => ⟨c, [newIn rows c], by simp [newIn]⟩
  once := by
    have hmap : ((touchedCells rows).map fun c => (⟨c, [newIn rows c], by simp [newIn]⟩ :
        HistoryCell α)).map HistoryCell.cell = touchedCells rows := by
      rw [List.map_map]
      exact List.map_id _
    rw [Distinct, hmap]
    exact List.nodup_dedup _

/-- One part with all rows, while they are few. -/
def writeById (rows : List (HistoryRow α)) : HistoryParts α where
  parts := (historyPartOf rows).toList
  sorted := by cases historyPartOf rows <;> simp

/-- The history of the states, while no file has to be split. -/
def historyBuild (states : (t : Typ) → States t) : HistoryRoot where
  byid t := writeById (finalById (states t))
  spatial t := writeSpatial (finalizeStates (states t).rows)
  tiers := History.empty

/-- All rows of the copy by cell of the base. -/
def baseSpatial (h : HistoryRoot) (t : Typ) : List (HistoryRow (SpatialCols t)) :=
  (h.spatial t).cells.flatMap HistoryCell.rows

/-- A history that was built of the states, however the files are split. -/
structure Built (states : (t : Typ) → States t) (h : HistoryRoot) : Prop where
  byid : ∀ t r, r ∈ (h.byid t).rows ↔ r ∈ finalById (states t)
  spatial : ∀ t r, r ∈ baseSpatial h t ↔ r ∈ finalSpatial (states t)
  tiers : h.tiers = History.empty

/-! ### The rows that are written -/

section Written

variable {rows : List (HistoryRow α)} {r : HistoryRow α}

lemma rows_writeById (rows : List (HistoryRow α)) : (writeById rows).rows = rows := by
  have h := rows_historyPartOf rows
  show (historyPartOf rows).toList.flatMap HistoryPart.rows = rows
  cases hp : historyPartOf rows with
  | none =>
    rw [hp] at h
    exact h
  | some p =>
    rw [hp] at h
    simpa using h

/-- The cells have the rows that are in a cell. -/
lemma mem_writeSpatial : r ∈ (writeSpatial rows).cells.flatMap HistoryCell.rows ↔
    r ∈ rows ∧ r.cell.isSome := by
  simp only [writeSpatial, List.mem_flatMap, List.mem_map]
  constructor
  · rintro ⟨e, ⟨c, -, rfl⟩, hr⟩
    have hr' : r ∈ newIn rows c := by simpa [HistoryCell.rows] using hr
    obtain ⟨hmem, hc⟩ := List.mem_filter.mp hr'
    rw [decide_eq_true_eq] at hc
    exact ⟨hmem, by rw [hc]; rfl⟩
  · rintro ⟨hmem, hsome⟩
    obtain ⟨c, hc⟩ := Option.isSome_iff_exists.mp hsome
    have hin : r ∈ newIn rows c := List.mem_filter.mpr ⟨hmem, by rw [decide_eq_true_eq]; exact hc⟩
    exact ⟨_, ⟨c, mem_touchedCells.mpr (List.ne_nil_of_mem hin), rfl⟩, by
      simpa [HistoryCell.rows] using hin⟩

lemma built_historyBuild (states : (t : Typ) → States t) : Built states (historyBuild states) where
  byid t r := by
    show r ∈ (writeById _).rows ↔ _
    rw [rows_writeById]
  spatial t r := by
    show r ∈ (writeSpatial _).cells.flatMap HistoryCell.rows ↔ _
    rw [mem_writeSpatial, finalSpatial, List.mem_filter]
  tiers := rfl

/-- What stands for a state that moved is not visible and starts with it. -/
lemma leftBehind_spec {prev : Option (HistoryRow α)} {z : HistoryRow α}
    (h : leftBehind prev r = some z) :
    r.visible = true ∧ z.visible = false ∧ z.id = r.id ∧ z.validFrom = r.validFrom := by
  simp only [leftBehind] at h
  split at h
  · rename_i hc
    simp only [Bool.and_eq_true] at hc
    cases h
    exact ⟨hc.1.1.1, rfl, rfl, rfl⟩
  · cases h

/-- **The rows of the copy by cell**: the states, and rows that stand for a visible state. -/
lemma mem_finalizeStates (h : r ∈ finalizeStates rows) :
    r ∈ leadValidTo startOf rows ∨ r.visible = false ∧
    ∃ q ∈ rows, q.id = r.id ∧ q.validFrom = r.validFrom ∧ q.visible = true := by
  rcases List.mem_append.mp h with h | h
  · exact .inl h
  · obtain ⟨i, -, h⟩ := List.mem_flatMap.mp h
    obtain ⟨⟨prev, q⟩, hp, hz⟩ := List.mem_filterMap.mp h
    obtain ⟨hqv, hzv, hid, hfrom⟩ := leftBehind_spec hz
    have hq : q ∈ rows := (mem_window.mp (List.of_mem_zip hp).2).1
    exact .inr ⟨hzv, q, hq, hid.symm, hfrom.symm, hqv⟩

/-! ### One state at a time -/

/-- **Of an element one state has started and not ended.** -/
lemma lead_unique {t : ℤ} {x y : HistoryRow α} (hx : x ∈ leadValidTo startOf rows)
    (hy : y ∈ leadValidTo startOf rows) (hid : x.id = y.id)
    (hxv : validityPredicate t true x = true)
    (hyv : validityPredicate t true y = true) : x = y := by
  obtain ⟨p, hp, rfl⟩ := mem_leadValidTo.mp hx
  obtain ⟨q, hq, rfl⟩ := mem_leadValidTo.mp hy
  have hq' : q ∈ leads startOf (window startOf p.1.id rows) := by
    have hid' : p.1.id = q.1.id := hid
    rw [hid']
    exact hq
  have hlen : ((leads startOf (window startOf p.1.id rows)).filter fun p =>
      Runs startOf t p).length ≤ 1 := by
    have h := congrArg List.length (@runs_window α _ _ startOf rows p.1.id t byStart_startOf)
    rw [List.length_map] at h
    rw [h]
    cases survivor startOf t p.1.id rows <;> simp
  have hpf := List.mem_filter (p := fun p => Runs startOf t p).mpr
    ⟨hp, decide_eq_true (runs_iff.mpr hxv)⟩
  have hqf := List.mem_filter (p := fun p => Runs startOf t p).mpr
    ⟨hq', decide_eq_true (runs_iff.mpr hyv)⟩
  obtain ⟨a, ha⟩ := List.length_eq_one_iff.mp (le_antisymm hlen (List.length_pos_of_mem hpf))
  rw [ha, List.mem_singleton] at hpf hqf
  rw [hpf, hqf]

/-- The ends do not depend on the other columns. -/
lemma leads_map (f : α → β) (l : List (HistoryRow α)) : leads startOf (l.map (HistoryRow.map f)) =
    (leads startOf l).map fun p => (p.1.map f, p.2) := by
  induction l with
  | nil => rfl
  | cons r l ih =>
    cases l with
    | nil => rfl
    | cons r' l =>
      rw [List.map_cons] at ih
      rw [List.map_cons, List.map_cons, leads, ih, leads, List.map_cons]
      rfl

lemma window_map (f : α → β) (i : ℤ) :
    window startOf i (rows.map (HistoryRow.map f)) =
      (window startOf i rows).map (HistoryRow.map f) := by
  rw [window, List.filter_map]
  exact (List.map_insertionSort (r := fun a b => startOf a ≤ startOf b)
    (s := fun a b => startOf a ≤ startOf b) (HistoryRow.map f) _ fun a _ b _ => Iff.rfl).symm

lemma leadValidTo_map (f : α → β) :
    leadValidTo startOf (rows.map (HistoryRow.map f)) =
      (leadValidTo startOf rows).map (HistoryRow.map f) := by
  have hids : (rows.map (HistoryRow.map f)).map HistoryRow.id = rows.map HistoryRow.id := by
    rw [List.map_map]
    rfl
  unfold leadValidTo
  rw [hids, List.map_flatMap]
  refine List.flatMap_congr fun i _ => ?_
  rw [window_map, leads_map, List.map_map, List.map_map]
  rfl

end Written

/-! ### The copies beside each other -/

/-- The rows of an element that a read by id chooses from, and what all cells have of it, with the
columns of the by-id copy. -/
abbrev Mirrored (h : HistoryRoot) (typ : Typ) (t i : ℤ) : Prop :=
  Mirrors stateKey HistoryRow.cell (fun r : HistoryRow (ByidCols typ) => r.visible = true)
    (byidCandidates h typ t i)
    ((candidates t i (baseSpatial h typ) (tierSpatialRows h.tiers typ)).map
      (HistoryRow.map byidCols))

section Mirror

variable {states : (t : Typ) → States t} {h : HistoryRoot} {typ : Typ} {t i : ℤ}

lemma mem_candidates_byid (hb : Built states h) {r : HistoryRow (ByidCols typ)} :
    r ∈ byidCandidates h typ t i ↔
      r ∈ finalById (states typ) ∧ r.id = i ∧ validityPredicate t true r = true := by
  have hnil : tierByidRows h.tiers typ = [] := by
    rw [hb.tiers]
    rfl
  rw [byidCandidates, mem_candidates, hb.byid, hnil]
  simp only [List.not_mem_nil, false_and, or_false]
  tauto

lemma mem_candidates_cell (hb : Built states h) {z : HistoryRow (SpatialCols typ)} :
    z ∈ candidates t i (baseSpatial h typ) (tierSpatialRows h.tiers typ) ↔
      z ∈ finalSpatial (states typ) ∧ z.id = i ∧ validityPredicate t true z = true := by
  have hnil : tierSpatialRows h.tiers typ = [] := by
    rw [hb.tiers]
    rfl
  rw [mem_candidates, hb.spatial, hnil]
  simp only [List.not_mem_nil, false_and, or_false]
  tauto

lemma mem_finalById {s : States typ} {r : HistoryRow (ByidCols typ)} :
    r ∈ finalById s ↔ ∃ x ∈ leadValidTo startOf s.rows, x.map byidCols = r := by
  rw [finalById, leadValidTo_map, List.mem_map]

/-- What has started is the state that has not ended, or that one starts later. -/
lemma exists_running {rows : List (HistoryRow α)}
    (once : Distinct (fun r => (r.id, r.validFrom)) rows) {q : HistoryRow α} (hq : q ∈ rows)
    (hs : validityPredicate t false q = true) : ∃ x ∈ leadValidTo startOf rows, x.id = q.id ∧
      validityPredicate t true x = true ∧
        (nullLeast q.validFrom < nullLeast x.validFrom ∨ strip x = strip q) := by
  obtain ⟨p, hp⟩ := survivor_of_started startOf hq hs
  obtain ⟨⟨hpin, hpid, hps⟩, hle⟩ := survivor_spec hp
  obtain ⟨x, hx, hxid, hxv, hstrip⟩ := valid_of_survivor byStart_startOf hp
  refine ⟨x, hx, hxid, hxv, ?_⟩
  obtain ⟨a, ha, -⟩ := validityPredicate_false.mp hs
  obtain ⟨b, hb, -⟩ := validityPredicate_false.mp hps
  have hxb : x.validFrom = some b := (congrArg (fun r => r.validFrom) hstrip).trans hb
  have hab : a ≤ b := by
    have hstart := hle q hq rfl hs
    rw [startOf, startOf, nullGreatest, nullGreatest, ha, hb] at hstart
    exact WithTop.coe_le_coe.mp hstart
  rw [hxb, ha]
  rcases hab.eq_or_lt with rfl | hlt
  · have hsame : p = q := once.eq_of_key hpin hq (Prod.ext hpid (hb.trans ha.symm))
    rw [hsame] at hstrip
    exact .inr hstrip
  · exact .inl (WithBot.coe_lt_coe.mpr hlt)

/-- A row that stands for a state loses against the state the element has at the time. -/
lemma standIn_loses {rows : List (HistoryRow α)}
    (once : Distinct (fun r => (r.id, r.validFrom)) rows)
    {z : HistoryRow α} (hz : z.visible = false) {q : HistoryRow α} (hq : q ∈ rows)
    (hid : q.id = z.id) (hfrom : q.validFrom = z.validFrom) (hqv : q.visible = true)
    (hs : validityPredicate t true z = true) : ∃ x ∈ leadValidTo startOf rows, x.id = z.id ∧
      validityPredicate t true x = true ∧ stateKey z < stateKey x := by
  have hstart : validityPredicate t false q = true := by
    rw [validityPredicate_false, hfrom]
    exact validityPredicate_false.mp (validityPredicate_true.mp hs).1
  obtain ⟨x, hx, hxid, hxv, hlater⟩ := exists_running once hq hstart
  refine ⟨x, hx, hxid.trans hid, hxv, ?_⟩
  rw [hfrom] at hlater
  rcases hlater with hlt | hstrip
  · exact Prod.Lex.toLex_lt_toLex.mpr (.inl hlt)
  · have hxfrom : x.validFrom = z.validFrom :=
      (congrArg (fun r => r.validFrom) hstrip).trans hfrom
    have hxvis : x.visible = true := (congrArg (fun r => r.visible) hstrip).trans hqv
    exact lt_of_visible hxfrom.symm hz hxvis

/-- **In a built history the cells show of every element what the by-id copy shows.** -/
theorem mirrored_built (hb : Built states h) : Mirrored h typ t i := by
  refine mirrors_of_subsingleton (fun x hx y hy => ?_) (fun r hr hs => ?_) (fun r hr hp => ?_)
    fun r hr => ?_
  · obtain ⟨hx, hxid, hxv⟩ := (mem_candidates_byid hb).mp hx
    obtain ⟨hy, hyid, hyv⟩ := (mem_candidates_byid hb).mp hy
    exact lead_unique hx hy (hxid.trans hyid.symm) hxv hyv
  · obtain ⟨hr, -, -⟩ := (mem_candidates_byid hb).mp hr
    obtain ⟨x, hx, rfl⟩ := mem_finalById.mp hr
    obtain ⟨q, hq, hstrip⟩ := strip_mem_of_lead hx
    have hcell : x.cell = q.cell := (congrArg HistoryRow.cell hstrip).symm
    have hvis : q.visible = true := (congrArg HistoryRow.visible hstrip).trans hs
    show x.cell.isSome
    rw [hcell]
    exact (states typ).placed q hq hvis
  · obtain ⟨hr, hid, hv⟩ := (mem_candidates_byid hb).mp hr
    obtain ⟨x, hx, rfl⟩ := mem_finalById.mp hr
    refine List.mem_map_of_mem ((mem_candidates_cell hb).mpr ⟨?_, hid, hv⟩)
    exact List.mem_filter.mpr ⟨List.mem_append_left _ hx, hp⟩
  · obtain ⟨z, hz, rfl⟩ := List.mem_map.mp hr
    obtain ⟨hz, hid, hv⟩ := (mem_candidates_cell hb).mp hz
    rcases mem_finalizeStates (List.mem_filter.mp hz).1 with hlead | ⟨hzv, q, hq, hqid, hfrom, hqv⟩
    · exact .inl ((mem_candidates_byid hb).mpr ⟨mem_finalById.mpr ⟨z, hlead, rfl⟩, hid, hv⟩)
    · obtain ⟨x, hx, hxid, hxv, hlt⟩ := standIn_loses (states typ).once hzv hq hqid hfrom hqv hv
      have hnot : ¬ (z.map byidCols).visible = true := fun h =>
        Bool.false_ne_true (hzv.symm.trans h)
      exact .inr ⟨hnot, x.map byidCols, (mem_candidates_byid hb).mpr
        ⟨mem_finalById.mpr ⟨x, hx, rfl⟩, hxid.trans hid, hxv⟩, hlt⟩

/-- **The ends of a built history hide only what loses.** -/
lemma soundEnds_built (hb : Built states h) : SoundEnds (h.byid typ).rows := by
  intro t r hr hs
  obtain ⟨y, hy, rfl⟩ := mem_finalById.mp ((hb.byid typ r).mp hr)
  obtain ⟨q, hq, hstrip⟩ := strip_mem_of_lead hy
  have hid : q.id = y.id := congrArg (fun r => r.id) hstrip
  have hfrom : q.validFrom = y.validFrom := congrArg (fun r => r.validFrom) hstrip
  have hqs : validityPredicate t false q = true := by
    rw [validityPredicate_false, hfrom]
    exact validityPredicate_false.mp hs
  obtain ⟨x, hx, hxid, hxv, hlater⟩ := exists_running (states typ).once hq hqs
  refine ⟨x.map byidCols, (hb.byid typ _).mpr (mem_finalById.mpr ⟨x, hx, rfl⟩), hxid.trans hid, hxv,
    ?_⟩
  rcases hlater with hlt | hsame
  · rw [hfrom] at hlt
    exact .inl (Prod.Lex.toLex_lt_toLex.mpr (.inl hlt))
  · have hyx : strip y = strip x := hstrip.symm.trans hsame.symm
    exact .inr (congrArg (HistoryRow.map byidCols) hyx)

end Mirror

end OsmParquet.HistoryBuild
