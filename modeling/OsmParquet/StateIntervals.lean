import OsmParquet.SpatialSnapshots

/-!
The intervals of the base history, and reads of some cells of it.

The states of an element may be in any cells, and each may be visible or not. When no two start at
the same time, the by-id copy has at every time from the first start on exactly one state of the
element, and a read of any cells shows the element exactly when this state is visible and in one of
them: what else the cells have has ended, or shows nothing and loses.
-/

namespace OsmParquet.StateIntervals

open OsmParquet.KeyedList OsmParquet.Rows OsmParquet.Tiers OsmParquet.HistoryTiers
open OsmParquet.Timeline OsmParquet.Snapshots OsmParquet.HistoryWindows OsmParquet.HistoryCompact
open OsmParquet.HistoryBuild OsmParquet.SpatialSnapshots

variable {α : Type}

/-- The states of every type, without ends. -/
abbrev AllStates := (t : Typ) → List (HistoryRow (SpatialCols t))

/-- No two states of an element start at the same time. -/
def StartsDiffer (rows : List (HistoryRow α)) : Prop := Distinct (fun r => (r.id, r.validFrom)) rows

/-- The base history that the states are written as. -/
def writeStates (states : AllStates) : HistoryRoot where
  byid t := writeById (leadValidTo startOf ((states t).map (HistoryRow.map byidCols)))
  spatial t := writeSpatial (finalizeStates (states t))
  tiers := History.empty

/-- The element has a state that has started. -/
def Started (rows : List (HistoryRow α)) (t i : ℤ) : Prop :=
  ∃ r ∈ rows, r.id = i ∧ validityPredicate t false r = true

/-! ### Intervals -/

section Intervals

variable {rows : List (HistoryRow α)} {t i : ℤ}

/-- Of the rows of several keys those of one key are left. -/
lemma flatMap_of_other {β γ : Type} [DecidableEq β] {keys : List β} (hn : keys.Nodup) {k : β}
    {f : β → List γ} (h : ∀ j ∈ keys, j ≠ k → f j = []) :
    keys.flatMap f = if k ∈ keys then f k else [] := by
  induction keys with
  | nil => rfl
  | cons j l ih =>
    obtain ⟨hj, hl⟩ := List.nodup_cons.mp hn
    rw [List.flatMap_cons, ih hl fun x hx => h x (List.mem_cons_of_mem _ hx)]
    by_cases hjk : j = k
    · rw [hjk] at hj ⊢
      simp [hj]
    · rw [h j List.mem_cons_self hjk]
      simp [Ne.symm hjk]

/-- The rows of an element that hold at a time are those of its own window. -/
lemma filter_leadValidTo :
    (leadValidTo startOf rows).filter (fun r => r.id = i && validityPredicate t true r) =
    ((leads startOf (window startOf i rows)).filter fun p => Runs startOf t p).map
      fun p => { p.1 with validTo := p.2 } := by
  have hid : ∀ {j p}, p ∈ leads startOf (window startOf j rows) → p.1.id = j := fun hp =>
    (mem_window.mp (mem_of_mem_leads hp)).2
  have hother : ∀ j ∈ (rows.map HistoryRow.id).dedup, j ≠ i →
      ((leads startOf (window startOf j rows)).map fun p =>
        ({ p.1 with validTo := p.2 } : HistoryRow α)).filter
        (fun r => r.id = i && validityPredicate t true r) = [] := by
    intro j _ hj
    refine List.filter_eq_nil_iff.mpr fun r hr => ?_
    obtain ⟨p, hp, rfl⟩ := List.mem_map.mp hr
    simp [hid hp, hj]
  rw [leadValidTo, List.filter_flatMap, flatMap_of_other (List.nodup_dedup _) hother]
  have hown : ((leads startOf (window startOf i rows)).map
      fun p => ({ p.1 with validTo := p.2 } : HistoryRow α)).filter
        (fun r => r.id = i && validityPredicate t true r) =
      ((leads startOf (window startOf i rows)).filter fun p => Runs startOf t p).map
        fun p => { p.1 with validTo := p.2 } := by
    rw [List.filter_map]
    refine congrArg _ (List.filter_congr fun p hp => ?_)
    rw [Bool.eq_iff_iff]
    simp [hid hp, runs_iff]
  split
  · exact hown
  · rename_i hnone
    have hempty : window startOf i rows = [] := by
      refine List.eq_nil_iff_forall_not_mem.mpr fun x hx => hnone ?_
      obtain ⟨hmem, rfl⟩ := mem_window.mp hx
      exact List.mem_dedup.mpr (List.mem_map_of_mem hmem)
    rw [hempty]
    rfl

lemma isSome_survivor_iff : (survivor startOf t i rows).isSome ↔ Started rows t i := by
  constructor
  · intro h
    obtain ⟨x, hx⟩ := Option.isSome_iff_exists.mp h
    obtain ⟨⟨hmem, hid, hs⟩, -⟩ := survivor_spec hx
    exact ⟨x, hmem, hid, hs⟩
  · rintro ⟨r, hr, rfl, hs⟩
    obtain ⟨x, hx⟩ := survivor_of_started startOf hr hs
    exact Option.isSome_of_eq_some hx

open Classical in
/-- **Once an element has a state, it has exactly one at every time.** -/
lemma length_running :
    ((leadValidTo startOf rows).filter fun r => r.id = i && validityPredicate t true r).length =
    if Started rows t i then 1 else 0 := by
  have hlen := congrArg List.length (@runs_window α _ _ startOf rows i t byStart_startOf)
  rw [List.length_map] at hlen
  rw [filter_leadValidTo, List.length_map, hlen]
  rcases hs : survivor startOf t i rows with _ | x
  · have hnot : ¬ Started rows t i := by
      rw [← isSome_survivor_iff, hs]
      simp
    simp [hnot]
  · have hst : Started rows t i := isSome_survivor_iff.mp (Option.isSome_of_eq_some hs)
    simp [hst]

end Intervals

/-! ### Reads of some cells -/

section Reads

variable {states : AllStates} {typ : Typ} {cells : List Cell} {t i : ℤ}

lemma byidCandidates_eq : byidCandidates (writeStates states) typ t i =
    ((leadValidTo startOf (states typ)).map (HistoryRow.map byidCols)).filter
      fun r => r.id = i && validityPredicate t true r := by
  show candidates t i (writeById _).rows _ = _
  rw [rows_writeById, leadValidTo_map]
  simp [candidates, writeStates, tierByidRows, historyTiers, History.empty]

lemma mem_byid {r : HistoryRow (ByidCols typ)} : r ∈ byidCandidates (writeStates states) typ t i ↔
    ∃ x ∈ leadValidTo startOf (states typ), (x.id = i ∧ validityPredicate t true x = true) ∧
      x.map byidCols = r := by
  rw [byidCandidates_eq, List.mem_filter, List.mem_map]
  constructor
  · rintro ⟨⟨x, hx, rfl⟩, hv⟩
    obtain ⟨h1, h2⟩ := Bool.and_eq_true_iff.mp hv
    exact ⟨x, hx, ⟨of_decide_eq_true h1, h2⟩, rfl⟩
  · rintro ⟨x, hx, ⟨hid, hv⟩, rfl⟩
    exact ⟨⟨x, hx, rfl⟩, Bool.and_eq_true_iff.mpr ⟨decide_eq_true hid, hv⟩⟩

lemma mem_baseSpatial {z : HistoryRow (SpatialCols typ)} :
    z ∈ baseSpatial (writeStates states) typ ↔ z ∈ finalizeStates (states typ) ∧ z.cell.isSome :=
  mem_writeSpatial

lemma mem_cells {z : HistoryRow (SpatialCols typ)} :
    z ∈ spatialCandidates (writeStates states) typ cells t i ↔ z ∈ finalizeStates (states typ) ∧
      (z.id = i ∧ validityPredicate t true z = true) ∧
        z.cell.any (fun c => decide (c ∈ cells)) = true := by
  have htiers : tierSpatialRows (writeStates states).tiers typ = [] := rfl
  rw [mem_spatialCandidates, mem_candidates, mem_baseSpatial, htiers]
  constructor
  · rintro ⟨⟨hid, ⟨⟨hz, -⟩, hv⟩ | ⟨hz, -⟩⟩, hc⟩
    · exact ⟨hz, ⟨hid, hv⟩, hc⟩
    · cases hz
  · rintro ⟨hz, ⟨hid, hv⟩, hc⟩
    obtain ⟨c, hzc, -⟩ := (Option.any_eq_true _ _).mp hc
    exact ⟨⟨hid, .inl ⟨⟨hz, Option.isSome_of_eq_some hzc⟩, hv⟩⟩, hc⟩

/-- What is visible in the cells is a state. -/
lemma lead_of_visible {z : HistoryRow (SpatialCols typ)} (hz : z ∈ finalizeStates (states typ))
    (hv : z.visible = true) : z ∈ leadValidTo startOf (states typ) := by
  rcases mem_finalizeStates hz with h | ⟨hnot, -⟩
  · exact h
  · rw [hv] at hnot
    cases hnot

/-- **A state wins where it stands**: against other rows that hold at the time and against rows
left behind by a move. -/
lemma stateAt_of_lead (hs : StartsDiffer (states typ)) {x : HistoryRow (SpatialCols typ)}
    (hx : x ∈ leadValidTo startOf (states typ)) (hid : x.id = i)
    (hv : validityPredicate t true x = true)
    (hc : x.cell.any (fun c => decide (c ∈ cells)) = true) :
    StateAt (spatialCandidates (writeStates states) typ cells t i) x := by
  refine ⟨mem_cells.mpr ⟨List.mem_append_left _ hx, ⟨hid, hv⟩, hc⟩, fun z hz => ?_⟩
  obtain ⟨hz, ⟨hzid, hzv⟩, -⟩ := mem_cells.mp hz
  rcases mem_finalizeStates hz with hlead | ⟨hnot, q, hq, hqid, hfrom, hqv⟩
  · rw [lead_unique hlead hx (hzid.trans hid.symm) hzv hv]
  · obtain ⟨x', hx', hid', hv', hlt⟩ := standIn_loses hs hnot hq hqid hfrom hqv hzv
    rw [lead_unique hx' hx (hid'.trans (hzid.trans hid.symm)) hv' hv] at hlt
    exact hlt.le

/-- What a read of some cells shows of an element at a time: it shows it exactly if the by-id state
is visible and in one of the cells, what it shows is that state, and there is no choice. -/
structure ShowsExactly (h : HistoryRoot) (typ : Typ) (cells : List Cell) (t i : ℤ) : Prop where
  shown : (∃ z, StateAt (spatialCandidates h typ cells t i) z ∧ z.visible = true) ↔
    ∃ r ∈ byidCandidates h typ t i, r.visible = true ∧
      r.cell.any (fun c => decide (c ∈ cells)) = true
  same : ∀ z, StateAt (spatialCandidates h typ cells t i) z → z.visible = true →
    z.map byidCols ∈ byidCandidates h typ t i
  definite : ∀ z z', StateAt (spatialCandidates h typ cells t i) z → z.visible = true →
    StateAt (spatialCandidates h typ cells t i) z' → z' = z

lemma showsExactly_writeStates (hs : StartsDiffer (states typ)) (cells : List Cell) (t i : ℤ) :
    ShowsExactly (writeStates states) typ cells t i := by
  have hstate : ∀ z, StateAt (spatialCandidates (writeStates states) typ cells t i) z →
      z.visible = true → z ∈ leadValidTo startOf (states typ) ∧
        (z.id = i ∧ validityPredicate t true z = true) ∧
        z.cell.any (fun c => decide (c ∈ cells)) = true := by
    intro z hz hv
    obtain ⟨hmem, hrest⟩ := mem_cells.mp hz.1
    exact ⟨lead_of_visible hmem hv, hrest⟩
  refine ⟨⟨?_, ?_⟩, ?_, ?_⟩
  · rintro ⟨z, hz, hv⟩
    obtain ⟨hlead, hat, hc⟩ := hstate z hz hv
    exact ⟨z.map byidCols, mem_byid.mpr ⟨z, hlead, hat, rfl⟩, hv, hc⟩
  · rintro ⟨r, hr, hv, hc⟩
    obtain ⟨x, hx, ⟨hid, hat⟩, rfl⟩ := mem_byid.mp hr
    exact ⟨x, stateAt_of_lead hs hx hid hat hc, hv⟩
  · intro z hz hv
    obtain ⟨hlead, hat, -⟩ := hstate z hz hv
    exact mem_byid.mpr ⟨z, hlead, hat, rfl⟩
  · -- two rows that are both best have the same key, so the other one is visible too
    intro z z' hz hv hz'
    have hkey : stateKey z' = stateKey z := le_antisymm (hz.2 z' hz'.1) (hz'.2 z hz.1)
    have hv' : z'.visible = true := by
      have hvis : z'.visible = z.visible := congrArg
        (fun k : StateKey => (ofLex (ofLex k).2).1) hkey
      rw [hvis, hv]
    obtain ⟨hlead, ⟨hid, hat⟩, -⟩ := hstate z hz hv
    obtain ⟨hlead', ⟨hid', hat'⟩, -⟩ := hstate z' hz' hv'
    exact lead_unique hlead' hlead (hid'.trans hid.symm) hat' hat

/-- The row that holds at a time is the state that started last. -/
def StartedLast (rows : List (HistoryRow α)) (t i : ℤ) (q : HistoryRow α) : Prop :=
  (q ∈ rows ∧ q.id = i ∧ validityPredicate t false q = true) ∧
    ∀ r ∈ rows, r.id = i → validityPredicate t false r = true → startOf r ≤ startOf q

end Reads

/-- **Intervals and cells of the base history are exact.** For states of any kind that do not start
together: an element has no by-id row before its first state starts and exactly one at every time
from then on, which is the state that started last; and a read of any cells at any time shows
exactly the elements whose by-id state is visible and in one of the cells. -/
theorem base_history_exact (states : AllStates)
    (hs : ∀ typ, StartsDiffer (states typ)) (typ : Typ) :
    (∀ t i, ¬ Started (states typ) t i → byidCandidates (writeStates states) typ t i = []) ∧
    (∀ t i, Started (states typ) t i → ∃ x, byidCandidates (writeStates states) typ t i = [x] ∧
      ∃ q, StartedLast (states typ) t i q ∧ strip x = strip (q.map byidCols)) ∧
    ∀ cells t i, ShowsExactly (writeStates states) typ cells t i := by
  have hlen : ∀ t i, byidCandidates (writeStates states) typ t i =
      ((leadValidTo startOf (states typ)).filter fun r => r.id = i &&
        validityPredicate t true r).map (HistoryRow.map byidCols) := by
    intro t i
    rw [byidCandidates_eq, List.filter_map]
    rfl
  refine ⟨fun t i hnot => ?_, fun t i hst => ?_,
    fun cells t i => showsExactly_writeStates (hs typ) cells t i⟩
  · have h0 := @length_running _ (states typ) t i
    rw [if_neg hnot] at h0
    rw [hlen, List.length_eq_zero_iff.mp h0]
    rfl
  · have h1 := @length_running _ (states typ) t i
    rw [if_pos hst] at h1
    obtain ⟨x, hx⟩ := List.length_eq_one_iff.mp h1
    refine ⟨x.map byidCols, by rw [hlen, hx]; rfl, ?_⟩
    have hmem : x ∈ (leadValidTo startOf (states typ)).filter fun r =>
        r.id = i && validityPredicate t true r := by
      rw [hx]
      exact List.mem_singleton_self x
    obtain ⟨hlead, hat⟩ := List.mem_filter.mp hmem
    obtain ⟨hid, hv⟩ := Bool.and_eq_true_iff.mp hat
    obtain ⟨q, hq, hstrip⟩ := survivor_of_valid byStart_startOf hlead hv
    rw [of_decide_eq_true hid] at hq
    obtain ⟨hspec, hle⟩ := survivor_spec hq
    refine ⟨q, ⟨hspec, hle⟩, ?_⟩
    exact congrArg (HistoryRow.map byidCols) hstrip.symm

/-! ### A node that comes back -/

/-- A node goes to another cell and comes back, and is deleted there. -/
def roaming : AllStates
  | .node => [⟨1, some 1, 0, some 10, some 10, none, true, some [0], none⟩,
      ⟨1, some 2, 0, some 20, some 20, none, true, some [1], none⟩,
      ⟨1, some 3, 0, some 30, some 30, none, true, some [0], none⟩,
      ⟨1, some 4, 0, some 40, some 40, none, false, some [0], none⟩]
  | .way => []
  | .relation => []

lemma startsDiffer_roaming (typ : Typ) : StartsDiffer (roaming typ) := by
  cases typ <;> simp [StartsDiffer, Distinct, roaming]

/-- Back in the first cell the node is shown there, although the row it left behind has no end. -/
theorem base_history_exact_roaming : (∀ typ, StartsDiffer (roaming typ)) ∧
    (∃ z ∈ baseSpatial (writeStates roaming) .node, z.cell = some [0] ∧ z.validFrom = some 20 ∧
      z.visible = false ∧ z.validTo = none) ∧
    (∃ x, byidCandidates (writeStates roaming) .node 35 1 = [x] ∧ x.validFrom = some 30) ∧
    ∀ cells, ShowsExactly (writeStates roaming) .node cells 35 1 := by
  refine ⟨startsDiffer_roaming, by decide, ⟨_, rfl, by decide⟩, fun cells => ?_⟩
  exact (base_history_exact roaming startsDiffer_roaming .node).2.2 cells 35 1

end OsmParquet.StateIntervals
