import Mathlib.Algebra.Order.Group.Multiset
import Mathlib.Tactic.Abel
import OsmParquet.TierSteps

/-!
The history tiers: rows are only ever appended.

A run of the updater on a root with history also writes history rows: the states its batch
brings, and in the spatial copy a tombstone for every state that left a cell. They go into
tiers of their own that fold when the delta tiers fold. The folds append, and nothing is merged
by id, so after any runs the tiers should hold every row once. When a day is crossed, though,
both the hour tier and the day tier start again from the batch.
-/

namespace OsmParquet.HistoryTiers

open OsmParquet.Rows OsmParquet.Tiers OsmParquet.TierSteps

variable {α β : Type}

/-- A row of the history: a state of an element from `validFrom` on. -/
structure HistoryRow (α : Type) where
  id : ℤ
  version : Option ℤ
  minor : ℤ
  timestamp : Option ℤ
  validFrom : Option ℤ
  validTo : Option ℤ
  visible : Bool
  cell : Option Cell
  cols : Option α
  deriving DecidableEq

def HistoryRow.map (f : α → β) (r : HistoryRow α) : HistoryRow β := { r with cols := r.cols.map f }

/-- A state of the batch with the cell the element was in before. -/
structure HistoryState (α : Type) where
  row : HistoryRow α
  prevCell : Option Cell

/-- The row that ends the stay of an element in the cell it left. -/
def moveTombstone (s : HistoryState α) : HistoryRow α :=
  ⟨s.row.id, s.row.version, s.row.minor, s.row.validFrom, s.row.validFrom, none, false, s.prevCell,
    none⟩

/-- The history rows of one type: the by-id copy and the spatial one. -/
structure HistoryFiles (t : Typ) where
  byid : List (HistoryRow (ByidCols t))
  spatial : List (HistoryRow (SpatialCols t))

/-- What the states of a batch are written as. -/
def finalizeHistoryBatch {t : Typ} (states : List (HistoryState (SpatialCols t))) :
    HistoryFiles t where
  byid := states.map fun s => s.row.map byidCols
  spatial := states.map HistoryState.row ++ (states.filter fun s =>
    s.prevCell.isSome && s.row.cell.isSome && s.prevCell != s.row.cell).map moveTombstone

abbrev HistoryBatch := (t : Typ) → List (HistoryState (SpatialCols t))

structure HistoryMeta where
  version : ℕ
  seqFrom : ℤ
  seqTo : ℤ
  timestamp : Option ℤ
  files : (t : Typ) → HistoryFiles t

/-- The `tiers` of the history. -/
structure History where
  hour : Option HistoryMeta
  day : Option HistoryMeta
  week : Option HistoryMeta

def History.empty : History := ⟨none, none, none⟩

/-- The old rows and then the new ones. -/
def historyAppend {t : Typ} (new : HistoryFiles t) : Option (HistoryFiles t) → HistoryFiles t
  | none => new
  | some old => ⟨old.byid ++ new.byid, old.spatial ++ new.spatial⟩

def totalByid (f : (t : Typ) → HistoryFiles t) : ℕ :=
  (f .node).byid.length + (f .way).byid.length + (f .relation).byid.length

def writeHistoryTierVersion (merged : (t : Typ) → HistoryFiles t) (seqFrom seqTo : ℤ)
    (timestamp : Option ℤ) (version : ℕ) : Option HistoryMeta :=
  if totalByid merged = 0 then none else some ⟨version, seqFrom, seqTo, timestamp, merged⟩

/-- The roll of the history tiers. With an hour crossed there must be an hour tier to fold, or
the run fails. -/
def writeHistoryTiers (h : History) (batch : (t : Typ) → HistoryFiles t) (firstSeq lastSeq : ℤ)
    (batchTimestamp : Option ℤ) (hourCrossed dayCrossed : Bool) : Option History :=
  if !hourCrossed then
    let merged t := historyAppend (batch t) (h.hour.map fun m => m.files t)
    let seqFrom := h.hour.elim firstSeq HistoryMeta.seqFrom
    let version := h.hour.elim 0 HistoryMeta.version + 1
    some { h with
      hour := (writeHistoryTierVersion merged seqFrom lastSeq batchTimestamp version).or h.hour }
  else
    h.hour.map fun hour =>
      let mergedDay t := historyAppend (hour.files t) (h.day.map fun m => m.files t)
      let daySeqFrom := minSeq (h.day.map HistoryMeta.seqFrom) hour.seqFrom
      let dayVersion := h.day.elim 0 HistoryMeta.version + 1
      let hour' := (writeHistoryTierVersion batch firstSeq lastSeq batchTimestamp
        (hour.version + 1)).or h.hour
      if dayCrossed then
        let mergedWeek t := historyAppend (mergedDay t) (h.week.map fun m => m.files t)
        let weekSeqFrom := minSeq (h.week.map HistoryMeta.seqFrom) daySeqFrom
        let weekVersion := h.week.elim 0 HistoryMeta.version + 1
        { hour := hour'
          day := (writeHistoryTierVersion batch firstSeq lastSeq batchTimestamp dayVersion).or h.day
          week := (writeHistoryTierVersion mergedWeek weekSeqFrom hour.seqTo hour.timestamp
            weekVersion).or h.week }
      else
        { hour := hour'
          day := (writeHistoryTierVersion mergedDay daySeqFrom hour.seqTo hour.timestamp
            dayVersion).or h.day
          week := h.week }

/-- A run on a root with history: what it writes the delta tiers from, and the states of its
history batch. -/
structure HistoryRun where
  tiers : TierRun
  states : HistoryBatch

def HistoryRun.files (r : HistoryRun) (t : Typ) : HistoryFiles t :=
  finalizeHistoryBatch (r.states t)

/-- Whether the history batch has rows. -/
def HistoryRun.hasRows (r : HistoryRun) : Bool := totalByid r.files ≠ 0

/-- The crossings of a run, which the delta tiers decide. -/
def HistoryRun.crossings (r : HistoryRun) (d : Deltas) : Bool × Bool :=
  tierCrossings d r.tiers.timestamp

/-- The two tier stacks of a root. -/
structure Stacks where
  deltas : Deltas
  history : History

/-- One run; `none` when it fails and publishes nothing. -/
def runHistory (s : Stacks) (r : HistoryRun) : Option Stacks :=
  if r.hasRows then
    (writeHistoryTiers s.history r.files r.tiers.firstSeq r.tiers.lastSeq r.tiers.timestamp
      (r.crossings s.deltas).1 (r.crossings s.deltas).2).map fun h => ⟨runTiers s.deltas r.tiers, h⟩
  else some ⟨runTiers s.deltas r.tiers, s.history⟩

/-- A sequence of runs that all succeed. -/
def runsHistory (s : Stacks) : List HistoryRun → Option Stacks
  | [] => some s
  | r :: rs => (runHistory s r).bind fun s' => runsHistory s' rs

/-! ### The rows of a stack -/

/-- The by-id rows of a tier. -/
def tierByid (m : Option HistoryMeta) (t : Typ) : Multiset (HistoryRow (ByidCols t)) :=
  m.elim 0 fun m => Multiset.ofList (m.files t).byid

def tierSpatial (m : Option HistoryMeta) (t : Typ) : Multiset (HistoryRow (SpatialCols t)) :=
  m.elim 0 fun m => Multiset.ofList (m.files t).spatial

/-- All by-id rows of the tiers, each as often as it is stored. -/
def historyByid (h : History) (t : Typ) : Multiset (HistoryRow (ByidCols t)) :=
  tierByid h.hour t + tierByid h.day t + tierByid h.week t

def historySpatial (h : History) (t : Typ) : Multiset (HistoryRow (SpatialCols t)) :=
  tierSpatial h.hour t + tierSpatial h.day t + tierSpatial h.week t

/-- The rows the history batches of some runs produced. -/
def producedByid (rs : List HistoryRun) (t : Typ) : Multiset (HistoryRow (ByidCols t)) :=
  (rs.map fun r => Multiset.ofList (r.files t).byid).sum

def producedSpatial (rs : List HistoryRun) (t : Typ) : Multiset (HistoryRow (SpatialCols t)) :=
  (rs.map fun r => Multiset.ofList (r.files t).spatial).sum

/-- The runs of a sequence that have history rows and cross a day. -/
def dayCrossers : Deltas → List HistoryRun → List HistoryRun
  | _, [] => []
  | d, r :: rs => (if r.hasRows && (r.crossings d).2 then [r] else []) ++
      dayCrossers (runTiers d r.tiers) rs

/-- A tier without by-id rows of a type has no spatial rows of it either. -/
def Matched (m : Option HistoryMeta) : Prop :=
  ∀ x, m = some x → ∀ t, (x.files t).byid = [] → (x.files t).spatial = []

/-- The files of a published tier version, or of a batch. -/
def FilesMatched (f : (t : Typ) → HistoryFiles t) : Prop :=
  ∀ t, (f t).byid = [] → (f t).spatial = []

structure AllMatched (h : History) : Prop where
  hour : Matched h.hour
  day : Matched h.day
  week : Matched h.week

section Write

variable {f : (t : Typ) → HistoryFiles t} {a b : ℤ} {ts : Option ℤ} {v : ℕ}
  {old : Option HistoryMeta}

lemma filesMatched_batch (r : HistoryRun) : FilesMatched r.files := by
  intro t h
  have hnil : r.states t = [] := by simpa [HistoryRun.files, finalizeHistoryBatch] using h
  simp [HistoryRun.files, finalizeHistoryBatch, hnil]

lemma byid_nil_of_totalByid (h : totalByid f = 0) (t : Typ) : (f t).byid = [] := by
  unfold totalByid at h
  cases t <;> exact List.eq_nil_of_length_eq_zero (by omega)

/-- The files of an appended tier. -/
lemma filesMatched_append (hf : FilesMatched f) (ho : Matched old) :
    FilesMatched fun t => historyAppend (f t) (old.map fun m => m.files t) := by
  intro t h
  cases old with
  | none => exact hf t h
  | some m =>
    obtain ⟨h1, h2⟩ := List.append_eq_nil_iff.mp h
    exact List.append_eq_nil_iff.mpr ⟨ho m rfl t h1, hf t h2⟩

lemma byid_append (t : Typ) :
    Multiset.ofList (historyAppend (f t) (old.map fun m => m.files t)).byid =
      tierByid old t + Multiset.ofList (f t).byid := by
  cases old with
  | none => simp [historyAppend, tierByid]
  | some m => simp [historyAppend, tierByid]

lemma spatial_append (t : Typ) :
    Multiset.ofList (historyAppend (f t) (old.map fun m => m.files t)).spatial =
      tierSpatial old t + Multiset.ofList (f t).spatial := by
  cases old with
  | none => simp [historyAppend, tierSpatial]
  | some m => simp [historyAppend, tierSpatial]

lemma matched_write (hf : FilesMatched f) (ho : Matched old) :
    Matched ((writeHistoryTierVersion f a b ts v).or old) := by
  intro x hx t
  unfold writeHistoryTierVersion at hx
  split at hx
  · exact ho x hx t
  · cases hx
    exact hf t

/-- A version that is not written would have had no rows, so if the old one has none beyond
these either, nothing is lost. -/
lemma tierByid_write (t : Typ) (ho : tierByid old t ≤ Multiset.ofList (f t).byid) :
    tierByid ((writeHistoryTierVersion f a b ts v).or old) t = Multiset.ofList (f t).byid := by
  unfold writeHistoryTierVersion
  split
  · rename_i h
    have h0 : Multiset.ofList (f t).byid = 0 := by rw [byid_nil_of_totalByid h t]; rfl
    rw [h0] at ho ⊢
    exact Multiset.le_zero.mp ho
  · rfl

lemma tierSpatial_write (hf : FilesMatched f) (t : Typ)
    (ho : tierSpatial old t ≤ Multiset.ofList (f t).spatial) :
    tierSpatial ((writeHistoryTierVersion f a b ts v).or old) t = Multiset.ofList
      (f t).spatial := by
  unfold writeHistoryTierVersion
  split
  · rename_i h
    have h0 : Multiset.ofList (f t).spatial = 0 := by
      rw [hf t (byid_nil_of_totalByid h t)]; rfl
    rw [h0] at ho ⊢
    exact Multiset.le_zero.mp ho
  · rfl

/-- What a tier holds after rows are appended to it. -/
lemma rows_appended (hf : FilesMatched f) (ho : Matched old) (t : Typ) :
    tierByid ((writeHistoryTierVersion (fun t => historyAppend (f t) (old.map fun m => m.files t))
        a b ts v).or old) t = tierByid old t + Multiset.ofList (f t).byid ∧
      tierSpatial
        ((writeHistoryTierVersion (fun t => historyAppend (f t) (old.map fun m => m.files t))
        a b ts v).or old) t = tierSpatial old t + Multiset.ofList (f t).spatial := by
  refine ⟨?_, ?_⟩
  · rw [tierByid_write t (by rw [byid_append]; exact Multiset.le_add_right _ _), byid_append]
  · rw [tierSpatial_write (filesMatched_append hf ho) t
      (by rw [spatial_append]; exact Multiset.le_add_right _ _), spatial_append]

/-- A batch with rows is always written. -/
lemma write_of_rows (h : totalByid f ≠ 0) :
    (writeHistoryTierVersion f a b ts v).or old = some ⟨v, a, b, ts, f⟩ := by
  rw [writeHistoryTierVersion, if_neg h]; rfl

end Write

/-! ### One run -/

section Step

variable {s s' : Stacks} {r : HistoryRun}

lemma runHistory_deltas (h : runHistory s r = some s') : s'.deltas = runTiers s.deltas r.tiers := by
  unfold runHistory at h
  split at h
  · obtain ⟨x, -, rfl⟩ := Option.map_eq_some_iff.mp h; rfl
  · cases h; rfl

/-- The copies a run stores of its batch: one, and a second when it crosses a day. -/
def copies (d : Deltas) (r : HistoryRun) : ℕ := if r.hasRows && (r.crossings d).2 then 2 else 1

lemma tierCrossings_snd {d : Deltas} {ts : Option ℤ} (h : (tierCrossings d ts).1 = false) :
    (tierCrossings d ts).2 = false := by
  have h' : crossed floorHour (d.hour.bind TierMeta.timestamp) ts = false := h
  simp [tierCrossings, h']

/-- The tiers hold what they held, and `k` copies of the batch. -/
structure Grown (h : History) (batch : (t : Typ) → HistoryFiles t) (k : ℕ) (h' : History) :
    Prop where
  matched : AllMatched h'
  byid : ∀ t, historyByid h' t = historyByid h t + k • Multiset.ofList (batch t).byid
  spatial : ∀ t, historySpatial h' t = historySpatial h t + k • Multiset.ofList (batch t).spatial

section Cases

variable {h h' : History} {batch : (t : Typ) → HistoryFiles t} {a b : ℤ} {ts : Option ℤ} {dc : Bool}

/-- No crossing: the hour tier grows. -/
lemma grown_stay (hm : AllMatched h) (hb : FilesMatched batch)
    (hw : writeHistoryTiers h batch a b ts false dc = some h') : Grown h batch 1 h' := by
  simp only [writeHistoryTiers, Bool.not_false, if_true, Option.some.injEq] at hw
  subst hw
  refine ⟨⟨matched_write (filesMatched_append hb hm.hour) hm.hour, hm.day, hm.week⟩, fun t => ?_,
    fun t => ?_⟩
  · simp only [historyByid, one_nsmul]
    rw [(rows_appended hb hm.hour t).1]
    abel
  · simp only [historySpatial, one_nsmul]
    rw [(rows_appended hb hm.hour t).2]
    abel

/-- An hour is crossed: the hour tier moves into the day tier. -/
lemma grown_foldHour (hm : AllMatched h) (hb : FilesMatched batch) (hne : totalByid batch ≠ 0)
    (hw : writeHistoryTiers h batch a b ts true false = some h') : Grown h batch 1 h' := by
  simp only [writeHistoryTiers, Bool.not_true, Bool.false_eq_true, if_false] at hw
  obtain ⟨hour, hhour, rfl⟩ := Option.map_eq_some_iff.mp hw
  have hf : FilesMatched hour.files := fun t ht => hm.hour hour hhour t ht
  refine ⟨⟨matched_write hb hm.hour, matched_write (filesMatched_append hf hm.day) hm.day, hm.week⟩,
    fun t => ?_, fun t => ?_⟩
  · simp only [historyByid, one_nsmul]
    rw [write_of_rows hne, (rows_appended hf hm.day t).1, hhour]
    simp only [tierByid, Option.elim_some]
    abel
  · simp only [historySpatial, one_nsmul]
    rw [write_of_rows hne, (rows_appended hf hm.day t).2, hhour]
    simp only [tierSpatial, Option.elim_some]
    abel

/-- A day is crossed: both tiers move into the week tier, and both start again from the batch. -/
lemma grown_foldDay (hm : AllMatched h) (hb : FilesMatched batch) (hne : totalByid batch ≠ 0)
    (hw : writeHistoryTiers h batch a b ts true true = some h') : Grown h batch 2 h' := by
  simp only [writeHistoryTiers, Bool.not_true, Bool.false_eq_true, if_false, if_true] at hw
  obtain ⟨hour, hhour, rfl⟩ := Option.map_eq_some_iff.mp hw
  have hf : FilesMatched hour.files := fun t ht => hm.hour hour hhour t ht
  have hday := filesMatched_append hf hm.day
  refine ⟨⟨matched_write hb hm.hour, matched_write hb hm.day,
    matched_write (filesMatched_append hday hm.week) hm.week⟩, fun t => ?_, fun t => ?_⟩
  · simp only [historyByid, two_nsmul]
    rw [write_of_rows hne, write_of_rows hne, (rows_appended hday hm.week t).1, byid_append, hhour]
    simp only [tierByid, Option.elim_some]
    abel
  · simp only [historySpatial, two_nsmul]
    rw [write_of_rows hne, write_of_rows hne,
      (rows_appended hday hm.week t).2, spatial_append, hhour]
    simp only [tierSpatial, Option.elim_some]
    abel

end Cases

/-- **What one run does to the rows**: all old ones stay as they are and those of the batch
come once, or twice. -/
theorem runHistory_rows (hm : AllMatched s.history) (h : runHistory s r = some s') :
    Grown s.history r.files (copies s.deltas r) s'.history := by
  have hb := filesMatched_batch r
  unfold runHistory at h
  by_cases hr : r.hasRows = true
  · have hne : totalByid r.files ≠ 0 := by simpa [HistoryRun.hasRows] using hr
    rw [if_pos hr] at h
    obtain ⟨x, hx, rfl⟩ := Option.map_eq_some_iff.mp h
    rcases hc1 : (r.crossings s.deltas).1 with _ | _
    · have hc2 : (r.crossings s.deltas).2 = false := tierCrossings_snd hc1
      rw [hc1] at hx
      rw [copies, hc2, Bool.and_false]
      exact grown_stay hm hb hx
    · rcases hc2 : (r.crossings s.deltas).2 with _ | _
      · rw [hc1, hc2] at hx
        rw [copies, hc2, Bool.and_false]
        exact grown_foldHour hm hb hne hx
      · rw [hc1, hc2] at hx
        rw [copies, hr, hc2]
        exact grown_foldDay hm hb hne hx
  · have hz : totalByid r.files = 0 := by simpa [HistoryRun.hasRows] using hr
    rw [if_neg hr] at h
    cases h
    have h1 := byid_nil_of_totalByid hz
    refine ⟨hm, fun t => ?_, fun t => ?_⟩
    · simp [h1 t]
    · simp [hb t (h1 t)]

end Step

/-! ### Any runs -/

/-- **What the tiers hold after any runs**: the rows of every batch, and once more those of the
batches that crossed a day. -/
theorem runsHistory_rows {s s' : Stacks} {rs : List HistoryRun} (hm : AllMatched s.history)
    (h : runsHistory s rs = some s') (t : Typ) :
    historyByid s'.history t = historyByid s.history t + producedByid rs t +
        producedByid (dayCrossers s.deltas rs) t ∧
      historySpatial s'.history t = historySpatial s.history t + producedSpatial rs t +
        producedSpatial (dayCrossers s.deltas rs) t := by
  induction rs generalizing s with
  | nil =>
    cases h
    simp [producedByid, producedSpatial, dayCrossers]
  | cons r rs ih =>
    obtain ⟨s1, h1, h2⟩ := Option.bind_eq_some_iff.mp h
    have hrows := runHistory_rows hm h1
    obtain ⟨ihb, ihs⟩ := ih hrows.matched h2
    rw [ihb, ihs, hrows.byid t, hrows.spatial t, runHistory_deltas h1]
    by_cases hx : (r.hasRows && (r.crossings s.deltas).2) = true
    · simp only [copies, dayCrossers, if_pos hx, producedByid, producedSpatial, List.map_cons,
        List.sum_cons, List.cons_append, List.nil_append, two_nsmul]
      exact ⟨by abel, by abel⟩
    · simp only [copies, dayCrossers, if_neg hx, producedByid, producedSpatial, List.map_cons,
        List.sum_cons, List.nil_append, one_nsmul]
      exact ⟨by abel, by abel⟩

lemma mem_dayCrossers {d : Deltas} {rs : List HistoryRun} {r : HistoryRun}
    (h : r ∈ dayCrossers d rs) : r.hasRows = true := by
  induction rs generalizing d with
  | nil => cases h
  | cons r' rs ih =>
    rcases List.mem_append.mp h with h | h
    · split at h
      · rename_i hx
        obtain rfl := List.mem_singleton.mp h
        exact (Bool.and_eq_true_iff.mp hx).1
      · cases h
    · exact ih h

lemma eq_nil_of_produced {rs : List HistoryRun} (hr : ∀ r ∈ rs, r.hasRows = true)
    (h : ∀ t, producedByid rs t = 0) : rs = [] := by
  cases rs with
  | nil => rfl
  | cons r rs =>
    exfalso
    have hne : totalByid r.files ≠ 0 := by simpa [HistoryRun.hasRows] using hr r (by simp)
    refine hne ?_
    have hnil : ∀ t, (r.files t).byid = [] := by
      intro t
      have ht := h t
      rw [producedByid, List.map_cons, List.sum_cons] at ht
      have hle : Multiset.ofList (r.files t).byid ≤ 0 := by
        rw [← ht]; exact Multiset.le_add_right _ _
      exact (Multiset.coe_eq_zero _).mp (Multiset.le_zero.mp hle)
    simp [totalByid, hnil]

/-- All by-id history rows that can be reached: of the base and of the tiers. -/
def reachableByid (base : (t : Typ) → HistoryFiles t) (h : History) (t : Typ) :
    Multiset (HistoryRow (ByidCols t)) := Multiset.ofList (base t).byid + historyByid h t

def reachableSpatial (base : (t : Typ) → HistoryFiles t) (h : History) (t : Typ) :
    Multiset (HistoryRow (SpatialCols t)) := Multiset.ofList (base t).spatial + historySpatial h t

/-- **When history rows are neither lost nor doubled**: over any successful runs, exactly when
no run that has history rows crosses a day. -/
theorem history_exact_iff (base : (t : Typ) → HistoryFiles t) (d : Deltas) (rs : List HistoryRun)
    (s' : Stacks) (h : runsHistory ⟨d, History.empty⟩ rs = some s') :
    (∀ t, reachableByid base s'.history t = Multiset.ofList (base t).byid + producedByid rs t ∧
      reachableSpatial base s'.history t = Multiset.ofList (base t).spatial +
        producedSpatial rs t) ↔
    dayCrossers d rs = [] := by
  have hm : AllMatched History.empty := by
    constructor <;> intro x hx <;> cases hx
  have hrows := fun t => runsHistory_rows hm h t
  have h0 : ∀ t, historyByid History.empty t = 0 ∧ historySpatial History.empty t = 0 := by
    intro t; exact ⟨rfl, rfl⟩
  constructor
  · intro hall
    refine eq_nil_of_produced (fun r => mem_dayCrossers) fun t => ?_
    have h1 := (hall t).1
    rw [reachableByid, (hrows t).1, (h0 t).1, zero_add] at h1
    have h2 := add_left_cancel h1
    exact add_eq_left.mp h2
  · intro hnil t
    have hz : producedByid (dayCrossers d rs) t = 0 ∧ producedSpatial (dayCrossers d rs) t = 0 := by
      rw [hnil]; exact ⟨rfl, rfl⟩
    rw [reachableByid, reachableSpatial, (hrows t).1, (hrows t).2, (h0 t).1, (h0 t).2, hz.1, hz.2]
    simp

/-! ### A run on the next day -/

/-- A run with one change of a node and one history row. -/
def nodeRun (seq timestamp : ℤ) : HistoryRun where
  tiers := ⟨fun
    | .node => [⟨1, some ⟨some ⟨0, 0⟩, ⟨none, [], seq, 1, none, none, ""⟩, 0⟩, some [0], false,
        none, seq⟩]
    | .way => []
    | .relation => [], seq, seq, some timestamp⟩
  states := fun
    | .node =>
      [⟨⟨1, some seq, 0, some timestamp, some timestamp, none, true, some [0], none⟩, none⟩]
    | .way => []
    | .relation => []

/-- Three runs, each in another hour of one day. -/
theorem history_exact_in_one_day : ∃ s', runsHistory ⟨Deltas.empty, History.empty⟩
      [nodeRun 1 0, nodeRun 2 3600, nodeRun 3 7200] = some s' ∧
    ∀ t, reachableByid (fun _ => ⟨[], []⟩) s'.history t =
        0 + producedByid [nodeRun 1 0, nodeRun 2 3600, nodeRun 3 7200] t ∧
      reachableSpatial (fun _ => ⟨[], []⟩) s'.history t =
        0 + producedSpatial [nodeRun 1 0, nodeRun 2 3600, nodeRun 3 7200] t :=
  ⟨_, rfl, (history_exact_iff (fun _ => ⟨[], []⟩) Deltas.empty _ _ rfl).mpr rfl⟩

/-- With the third run on the next day its history row is stored twice. -/
theorem history_doubled_on_next_day : ∃ s', runsHistory ⟨Deltas.empty, History.empty⟩
      [nodeRun 1 0, nodeRun 2 3600, nodeRun 3 90000] = some s' ∧
    ¬ reachableByid (fun _ => ⟨[], []⟩) s'.history .node =
      0 + producedByid [nodeRun 1 0, nodeRun 2 3600, nodeRun 3 90000] .node := by
  refine ⟨_, rfl, fun h => ?_⟩
  have hcard := congrArg Multiset.card h
  revert hcard
  decide

end OsmParquet.HistoryTiers
