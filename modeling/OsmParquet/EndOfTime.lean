import OsmParquet.Datasets

/-!
The history at the end of time, beside the current state.

When no stored state starts later, a snapshot read should find what the current read finds. The
current read takes the last version that a run has kept; the snapshot read takes the state that
starts last, and among those that start together a visible one before an invisible one, then the
greater version and minor version. The two agree if every run that changes an element starts its
new state not before the states there are, and a deletion strictly after them.
-/

namespace OsmParquet.EndOfTime

open OsmParquet.KeyedList OsmParquet.Rows OsmParquet.Tiers OsmParquet.TierSteps
open OsmParquet.ByidReads OsmParquet.Updater OsmParquet.Resolves OsmParquet.PrevCells
open OsmParquet.SpatialReads OsmParquet.RunSteps OsmParquet.Batching OsmParquet.HistoryTiers
open OsmParquet.Timeline OsmParquet.Snapshots OsmParquet.HistoryBatch OsmParquet.Traces
open OsmParquet.Datasets

/-! ### The two reads -/

/-- The row that `byid_current_rows` returns of an id. -/
def currentRead (s : Root) (t : Typ) (i : ℤ) : Option (Row (ByidCols t)) :=
  byId i (byidCurrentRows s.deltas (s.base.byid t).rows (fun j => j = i) fun _ => true)

/-- A state shows an element as it is, or that there is none. -/
def Shows {t : Typ} (r : HistoryRow (ByidCols t)) : Option (Row (ByidCols t)) → Prop
  | none => r.visible = false
  | some p => r.visible = true ∧ r.version = some (attrs p.cols).version ∧ r.id = p.id ∧
      r.cell = p.cell ∧ r.cols = some p.cols

/-- All by-id rows of the history of a type. -/
def byidRows (h : HistoryRoot) (t : Typ) : List (HistoryRow (ByidCols t)) :=
  (h.byid t).rows ++ tierByidRows h.tiers t

/-- At a time that no stored state of an element starts after, whatever state the snapshot read
chooses shows what the current read returns. -/
def AgreesAtEnd (s : Root) (h : HistoryRoot) : Prop :=
  ∀ typ i t, (∀ r ∈ byidRows h typ, r.id = i → ∀ x ∈ r.validFrom, x ≤ t) →
    (∀ r, StateAt (byidCandidates h typ t i) r → Shows r (currentRead s typ i)) ∧
      (byidCandidates h typ t i = [] → currentRead s typ i = none)

/-! ### When the runs are timely -/

/-- When the refs or members of an element that are in the kept batch were edited. -/
def depTimes (kept : Batch) : {t : Typ} → ByidCols t → List (Option ℤ)
  | .node, _ => []
  | .way, c => c.refs.filterMap fun ref => (changeById ref (kept .node)).map Change.timestamp
  | .relation, c =>
    c.members.filterMap fun m => (changeById m.ref (kept m.type)).map Change.timestamp

/-- The last of them, or the time of the batch. -/
def touchTime (kept : Batch) (batchTimestamp : Option ℤ) {t : Typ} (c : ByidCols t) : Option ℤ :=
  (depTimes kept c).reduceOption.max?.or batchTimestamp

/-- A version beside the kept one of time `x`: before a deletion nothing visible starts at its
time or later, and nothing starts after a visible version, or with it unless it has a lower
version number or is the same. -/
def Before {t : Typ} (s : Root) (c : Change (Body t)) (x : ℤ) (b : Change (Body t)) : Prop :=
  ∀ z ∈ b.timestamp,
    (c.deleted = true → b.deleted = false → z < x) ∧
      (c.deleted = false → z ≤ x ∧ (b.deleted = false → z = x →
        b.version < c.version ∨ (b.body = c.body ∧ changeAttrs s b = changeAttrs s c)))

/-- Every kept change has a time, not before the states that are stored of its element, and after
them if it is a deletion; the other newer versions in the batch are before it. An element that is
only touched is touched at some time, not before its stored states. -/
structure Timely (s : Root) (h : HistoryRoot) (f : Fetched) : Prop where
  kept : ∀ t, ∀ c ∈ keptOf s f t, ∃ x ∈ c.timestamp,
    (∀ r ∈ byidRows h t, r.id = c.id → ∀ y ∈ r.validFrom, y ≤ x ∧ (c.deleted = true → y < x)) ∧
    ∀ b ∈ allChanges f.diffs t, b.id = c.id → newer s b = true → Before s c x b
  touched : ∀ t, ∀ i ∈ touchedIds s f t, changeById i (keptOf s f t) = none → ∀ p ∈ cur s t i,
    ∃ x ∈ touchTime (keptOf s f) f.timestamp p.cols,
      ∀ r ∈ byidRows h t, r.id = i → ∀ y ∈ r.validFrom, y ≤ x

section Decidable

instance decidableForallTyp {P : Typ → Prop} [DecidablePred P] : Decidable (∀ t, P t) :=
  decidable_of_iff (P .node ∧ P .way ∧ P .relation)
    ⟨fun h t => by cases t <;> simp [h], fun h => ⟨h _, h _, h _⟩⟩

instance decidableEqBody : (t : Typ) → DecidableEq (Body t)
  | .node => inferInstanceAs (DecidableEq (Option Point))
  | .way => inferInstanceAs (DecidableEq (List ℤ))
  | .relation => inferInstanceAs (DecidableEq (List Member))

instance decidableBefore {t : Typ} (s : Root) (c : Change (Body t)) (x : ℤ) (b : Change (Body t)) :
    Decidable (Before s c x b) :=
  inferInstanceAs (Decidable (∀ z ∈ b.timestamp, _ ∧ _))

instance decidableTimely (s : Root) (h : HistoryRoot) (f : Fetched) : Decidable (Timely s h f) :=
  decidable_of_iff ((∀ t, ∀ c ∈ keptOf s f t, ∃ x ∈ c.timestamp,
      (∀ r ∈ byidRows h t, r.id = c.id → ∀ y ∈ r.validFrom, y ≤ x ∧ (c.deleted = true → y < x)) ∧
      ∀ b ∈ allChanges f.diffs t, b.id = c.id → newer s b = true → Before s c x b) ∧
    ∀ t, ∀ i ∈ touchedIds s f t, changeById i (keptOf s f t) = none → ∀ p ∈ cur s t i,
      ∃ x ∈ touchTime (keptOf s f) f.timestamp p.cols,
        ∀ r ∈ byidRows h t, r.id = i → ∀ y ∈ r.validFrom, y ≤ x)
    ⟨fun h => ⟨h.1, h.2⟩, fun h => ⟨h.kept, h.touched⟩⟩

end Decidable

/-! ### The order of the states -/

section Order

variable {α : Type} {a b : HistoryRow α} {x y : ℤ}

lemma start_le (ha : a.validFrom = some x) (hb : b.validFrom = some y)
    (h : stateKey a ≤ stateKey b) : x ≤ y := by
  have hle := (Prod.Lex.toLex_le_toLex.mp h).elim le_of_lt fun h => h.1.le
  rw [nullLeast, nullLeast, ha, hb] at hle
  exact WithBot.coe_le_coe.mp hle

/-- Of the states that start together a visible one wins. -/
lemma visible_of_le (he : a.validFrom = b.validFrom) (h : stateKey a ≤ stateKey b)
    (ha : a.visible = true) : b.visible = true := by
  rcases Prod.Lex.toLex_le_toLex.mp h with hlt | ⟨-, hle⟩
  · simp only [nullLeast, he] at hlt
    exact (lt_irrefl _ hlt).elim
  · have hv := (Prod.Lex.toLex_le_toLex.mp hle).elim le_of_lt fun h => h.1.le
    rw [ha] at hv
    exact top_le_iff.mp hv

/-- Of the visible states that start together the greater version wins, and then the greater
minor version. -/
lemma version_of_le (he : a.validFrom = b.validFrom) (ha : a.visible = b.visible)
    (h : stateKey a ≤ stateKey b) : nullLeast a.version < nullLeast b.version ∨
      a.version = b.version ∧ a.minor ≤ b.minor := by
  rcases Prod.Lex.toLex_le_toLex.mp h with hlt | ⟨-, hle⟩
  · simp only [nullLeast, he] at hlt
    exact (lt_irrefl _ hlt).elim
  · rcases Prod.Lex.toLex_le_toLex.mp hle with hlt | ⟨-, hle⟩
    · simp only [ha] at hlt
      exact (lt_irrefl _ hlt).elim
    · exact Prod.Lex.toLex_le_toLex.mp hle

end Order

/-! ### The states that start at some time -/

/-- The stored states of an element that have a start. -/
def dated (h : HistoryRoot) (t : Typ) (i : ℤ) : List (HistoryRow (ByidCols t)) :=
  (byidRows h t).filter fun r => r.id = i && r.validFrom.isSome

lemma mem_dated {h : HistoryRoot} {t : Typ} {i : ℤ} {r : HistoryRow (ByidCols t)} :
    r ∈ dated h t i ↔ r ∈ byidRows h t ∧ r.id = i ∧ ∃ x, r.validFrom = some x := by
  simp [dated, Option.isSome_iff_exists]

/-- The states that start last show what is current. -/
def Agrees (s : Root) (h : HistoryRoot) : Prop :=
  ∀ t i, (∀ r, StateAt (dated h t i) r → Shows r (cur s t i)) ∧
    (dated h t i = [] → cur s t i = none)

section Reads

variable {s : Root} {h : HistoryRoot}

lemma currentRead_eq (hg : Good s.deltas) (t : Typ) (i : ℤ) : currentRead s t i = cur s t i := by
  rw [currentRead, byId_byidCurrentRows hg (distinct_rows _), if_pos (by simp), cur, current_eq]
  generalize Option.getD _ _ = o
  cases o <;> rfl

/-- When all states of an element have started, those that have a start are the started ones. -/
lemma startedRows_eq_dated {typ : Typ} {i t : ℤ}
    (ht : ∀ r ∈ byidRows h typ, r.id = i → ∀ x ∈ r.validFrom, x ≤ t) :
    startedRows t i (byidRows h typ) = dated h typ i := by
  refine List.filter_congr fun r hr => ?_
  by_cases hid : r.id = i
  · simp only [hid, decide_true, Bool.true_and]
    rcases hv : r.validFrom with _ | x
    · simp [validityPredicate, hv]
    · simp [validityPredicate, hv, ht r hr hid x hv]
  · simp [hid]

lemma shows_strip {t : Typ} {r : HistoryRow (ByidCols t)} {p : Option (Row (ByidCols t))} :
    Shows (strip r) p ↔ Shows r p := by cases p <;> exact Iff.rfl

lemma Shows.of_strip {t : Typ} {r x : HistoryRow (ByidCols t)} {p : Option (Row (ByidCols t))}
    (h : Shows x p) (he : strip x = strip r) : Shows r p := by
  rw [← shows_strip, ← he, shows_strip]
  exact h

/-- A time that no state of an element starts after. -/
lemma exists_late {α : Type} (rows : List (HistoryRow α)) :
    ∃ t : ℤ, ∀ r ∈ rows, ∀ x ∈ r.validFrom, x ≤ t := by
  induction rows with
  | nil => exact ⟨0, fun r hr => (List.not_mem_nil hr).elim⟩
  | cons r rows ih =>
    obtain ⟨t, ht⟩ := ih
    refine ⟨max t (r.validFrom.getD t), fun q hq x hx => ?_⟩
    rcases List.mem_cons.mp hq with rfl | hq
    · rw [Option.mem_def.mp hx, Option.getD_some]
      exact le_max_right _ _
    · exact (ht q hq x hx).trans (le_max_left _ _)

/-- **With sound ends the reads at the end of time are about the states that start last.** -/
lemma agreesAtEnd_iff (hg : Good s.deltas) (hends : ∀ t, SoundEnds (h.byid t).rows) :
    AgreesAtEnd s h ↔ Agrees s h := by
  constructor
  · intro hagree typ i
    obtain ⟨t, ht⟩ := exists_late (byidRows h typ)
    have hlate : ∀ r ∈ byidRows h typ, r.id = i → ∀ x ∈ r.validFrom, x ≤ t := fun r hr _ => ht r hr
    obtain ⟨hshow, hnone⟩ := hagree typ i t hlate
    rw [currentRead_eq hg] at hshow hnone
    rw [← startedRows_eq_dated hlate]
    refine ⟨fun r hr => ?_, fun hnil => hnone ?_⟩
    · obtain ⟨x, hx, he⟩ := (hends typ).stateAt_iff.mpr ⟨r, hr, rfl⟩
      exact (hshow x hx).of_strip he
    · refine List.eq_nil_iff_forall_not_mem.mpr fun r hr => ?_
      have hin := startedRows_of_candidates hr
      rw [byidRows] at hnil
      rw [hnil] at hin
      cases hin
  · intro hagree typ i t hlate
    obtain ⟨hshow, hnone⟩ := hagree typ i
    rw [currentRead_eq hg]
    rw [← startedRows_eq_dated hlate] at hshow hnone
    refine ⟨fun r hr => ?_, fun hnil => hnone ?_⟩
    · obtain ⟨x, hx, he⟩ := (hends typ).stateAt_iff.mp ⟨r, hr, rfl⟩
      exact (hshow x hx).of_strip he
    · refine List.eq_nil_iff_forall_not_mem.mpr fun r hr => ?_
      obtain ⟨x, hx, -⟩ := (hends typ).candidate hr
      have hx' : x ∈ byidCandidates h typ t i := hx
      rw [hnil] at hx'
      cases hx'

end Reads

/-! ### What a run adds -/

section Run

variable {s : Root} {h : HistoryRoot} {f : Fetched} {t : Typ} {i : ℤ}

lemma mem_tierByidRows {h : History} {r : HistoryRow (ByidCols t)} :
    r ∈ tierByidRows h t ↔ r ∈ historyByid h t := by
  obtain ⟨hour, day, week⟩ := h
  cases hour <;> cases day <;> cases week <;>
    simp [tierByidRows, historyTiers, historyByid, tierByid]

lemma mem_tierSpatialRows {h : History} {r : HistoryRow (SpatialCols t)} :
    r ∈ tierSpatialRows h t ↔ r ∈ historySpatial h t := by
  obtain ⟨hour, day, week⟩ := h
  cases hour <;> cases day <;> cases week <;>
    simp [tierSpatialRows, historyTiers, historySpatial, tierSpatial]

/-- What a run has appended to the tiers: once or twice the rows of its states. -/
structure Appended (s : Root) (h : HistoryRoot) (f : Fetched) (h' : HistoryRoot) : Prop where
  byidBase : h'.byid = h.byid
  spatialBase : h'.spatial = h.spatial
  matched : AllMatched h'.tiers
  byid : ∀ t r, r ∈ tierByidRows h'.tiers t ↔ r ∈ tierByidRows h.tiers t ∨
    r ∈ (finalizeHistoryBatch (buildHistoryBatch s h f t)).byid
  spatial : ∀ t r, r ∈ tierSpatialRows h'.tiers t ↔ r ∈ tierSpatialRows h.tiers t ∨
    r ∈ (finalizeHistoryBatch (buildHistoryBatch s h f t)).spatial

/-- **The tiers after a run**: the rows that were there, and those of its states. -/
lemma update_appended {d' : Dataset} (hm : AllMatched h.tiers) (hf : f.diffs ≠ [])
    (hu : update ⟨s, some h⟩ f = some d') :
    ∃ h', d' = ⟨runOnce s f, some h'⟩ ∧ Appended s h f h' := by
  simp only [update, hf, if_false] at hu
  obtain ⟨x, hx, rfl⟩ := Option.map_eq_some_iff.mp hu
  have hgrown := runHistory_rows hm hx
  have hdeltas := runHistory_deltas hx
  have hcopies : copies s.deltas (historyRun s h f) ≠ 0 := by
    unfold copies
    split <;> decide
  refine ⟨{ h with tiers := x.history }, ?_, rfl, rfl, hgrown.matched, fun t r => ?_, fun t r => ?_⟩
  · rw [runOnce_of_diffs hf, hdeltas]
    rfl
  · simp only [mem_tierByidRows, hgrown.byid t, Multiset.mem_add, Multiset.mem_nsmul]
    rw [and_iff_right hcopies]
    rfl
  · simp only [mem_tierSpatialRows, hgrown.spatial t, Multiset.mem_add, Multiset.mem_nsmul]
    rw [and_iff_right hcopies]
    rfl

/-- **The row of a kept change**: nothing of a deletion, and else the columns of the change, with
what is derived of them. -/
lemma row_of_kept (hg : Good s.deltas) {c : Change (Body t)}
    (hc : changeById i (keptOf s f t) = some c) :
    ∃ r, (tierRun s f).row t i = some r ∧ r.id = i ∧ r.deleted = c.deleted ∧
      (c.deleted = false → ∃ x, r.cols = some x ∧ ownCols s (some x) c = x) := by
  have hid : c.id = i := key_of_lookup hc
  cases t with
  | node =>
    refine ⟨_, by rw [row_node, hc]; rfl, ?_, resolveNode_deleted _ _ _, fun hd => ?_⟩
    · rw [resolveNode_id]
      exact hid
    · exact ⟨_, by rw [resolveNode, if_neg (by simp [hd])], rfl⟩
  | way =>
    refine ⟨_, by rw [row_way hg, touchedRow, hc]; rfl, ?_, resolveWay_deleted _, fun hd => ?_⟩
    · rw [resolveWay_id]
      exact hid
    · exact ⟨_, by rw [resolveWay, if_neg (by simp [hd])], rfl⟩
  | relation =>
    refine ⟨_, by rw [row_relation hg, touchedRow, hc]; rfl, ?_, resolveRelation_deleted _,
      fun hd => ?_⟩
    · rw [resolveRelation_id]
      exact hid
    · exact ⟨_, by rw [resolveRelation, if_neg (by simp [hd])], rfl⟩

/-- **The row of an element that is only touched**: its own columns, with what is derived of
them. -/
lemma row_of_touched (hg : Good s.deltas) (hk : changeById i (keptOf s f t) = none)
    (hi : i ∈ touchedIds s f t) {p : Row (ByidCols t)} (hp : cur s t i = some p) :
    ∃ r x, (tierRun s f).row t i = some r ∧ r.id = i ∧ r.deleted = false ∧ r.cols = some x ∧
      attrs (byidCols x) = attrs p.cols ∧
        ∀ kept ts, minorValidFrom kept ts x = touchTime kept ts p.cols := by
  have hid : p.id = i := id_of_cur hg hp
  cases t with
  | node => cases hi
  | way =>
    have hi' : i ∈ (workOf s f).wayIds := hi
    refine ⟨_, _, by rw [row_way hg, touchedRow, hk]; simp only [hi', if_true, hp]; rfl, ?_,
      resolveWay_deleted _, by rw [resolveWay, if_neg (by simp [asIsWay])], rfl, fun _ _ => rfl⟩
    rw [resolveWay_id]
    exact hid
  | relation =>
    have hi' : i ∈ (workOf s f).relationIds := hi
    refine ⟨_, _, by rw [row_relation hg, touchedRow, hk]; simp only [hi', if_true, hp]; rfl, ?_,
      resolveRelation_deleted _, by rw [resolveRelation, if_neg (by simp [asIsRelation])], rfl,
      fun _ _ => rfl⟩
    rw [resolveRelation_id]
    exact hid

lemma cur_of_row (hg : Good s.deltas) (hf : f.diffs ≠ []) {r : DeltaRow (SpatialCols t)}
    (hr : (tierRun s f).row t i = some r) : cur (runOnce s f) t i = (r.map byidCols).alive := by
  rw [cur_runOnce hg hf, hr, Option.map_some, Option.getD_some]

/-- The states of a kept element are those of its newer versions. -/
lemma state_of_kept (hg : Good s.deltas) {c : Change (Body t)}
    (hc : changeById i (keptOf s f t) = some c) {r : DeltaRow (SpatialCols t)}
    (hr : (tierRun s f).row t i = some r) {x : HistoryState (SpatialCols t)}
    (hx : x ∈ buildHistoryBatch s h f t) (hid : x.row.id = i) :
    ∃ b ∈ allChanges f.diffs t, b.id = i ∧ newer s b = true ∧ ownState s r b = x := by
  rw [buildHistoryBatch_eq, List.mem_append] at hx
  rcases hx with hx | hx
  · obtain ⟨b, hb, r', hr', rfl⟩ := mem_historyOwn.mp hx
    obtain ⟨hall, -, hn⟩ := (mem_historyAll hg).mp hb
    have hbid : b.id = i := hid
    rw [hbid, hr] at hr'
    exact ⟨b, hall, hbid, hn, by rw [Option.some.inj hr']⟩
  · obtain ⟨r', c', -, -, -, -, hk, rfl⟩ := (mem_historyMinor hg).mp hx
    have hrid : r'.id = i := hid
    rw [hrid, hc] at hk
    cases hk

lemma own_mem (hg : Good s.deltas) {c : Change (Body t)} (hc : changeById i (keptOf s f t) = some c)
    {r : DeltaRow (SpatialCols t)} (hr : (tierRun s f).row t i = some r) :
    ownState s r c ∈ buildHistoryBatch s h f t := by
  have hid : c.id = i := key_of_lookup hc
  rw [buildHistoryBatch_eq]
  refine List.mem_append_left _ (mem_historyOwn.mpr
    ⟨c, mem_historyAll_of_kept hg (mem_of_lookup hc), r, ?_, rfl⟩)
  rw [hid]
  exact hr

/-- The minor state of an element that is only touched. -/
abbrev touchState (s : Root) (h : HistoryRoot) (f : Fetched) (r : DeltaRow (SpatialCols t))
    (x : SpatialCols t) : HistoryState (SpatialCols t) :=
  minorState s h f (historyTouchedOnlyIds (touchedIds s f t) (keptOf s f t)) r x

/-- The only state of an element that is not kept is its minor state. -/
lemma state_of_touched (hg : Good s.deltas) (hk : changeById i (keptOf s f t) = none)
    {x : HistoryState (SpatialCols t)} (hx : x ∈ buildHistoryBatch s h f t) (hid : x.row.id = i) :
    ∃ r c, (tierRun s f).row t i = some r ∧ r.cols = some c ∧ touchState s h f r c = x := by
  rw [buildHistoryBatch_eq, List.mem_append] at hx
  rcases hx with hx | hx
  · obtain ⟨b, hb, r', hr', rfl⟩ := mem_historyOwn.mp hx
    obtain ⟨-, hin, -⟩ := (mem_historyAll hg).mp hb
    have hbid : b.id = i := hid
    rw [hbid] at hin
    exact (lookup_eq_none.mp hk hin).elim
  · obtain ⟨r', c', hr', -, hc', -, -, rfl⟩ := (mem_historyMinor hg).mp hx
    have hrid : r'.id = i := hid
    rw [hrid] at hr'
    exact ⟨r', c', hr', hc', rfl⟩

lemma touchState_mem (hg : Good s.deltas) (hk : changeById i (keptOf s f t) = none)
    (hi : i ∈ touchedIds s f t) {r : DeltaRow (SpatialCols t)} {x : SpatialCols t}
    (hr : (tierRun s f).row t i = some r) (hid : r.id = i) (hd : r.deleted = false)
    (hc : r.cols = some x) : touchState s h f r x ∈ buildHistoryBatch s h f t := by
  subst hid
  rw [buildHistoryBatch_eq]
  exact List.mem_append_right _ ((mem_historyMinor hg).mpr ⟨r, x, hr, hd, hc, hi, hk, rfl⟩)

/-- **The minor version is greater than any that is stored.** -/
lemma minor_lt {ids : List ℤ} (hi : i ∈ ids) {v : ℤ} {q : HistoryRow (ByidCols t)}
    (hq : q ∈ byidRows h t) (hid : q.id = i) (hv : q.version = some v) :
    q.minor < (historyPrevMinor h t ids i v).getD 0 + 1 := by
  have hselect : q ∈ tierByidRows h.tiers t ++ HistoryBatch.selectParts (h.byid t) ids := by
    rcases List.mem_append.mp hq with hb | ht
    · refine List.mem_append_right _ ?_
      obtain ⟨part, hpart, hqp⟩ := List.mem_flatMap.mp hb
      obtain ⟨hlo, hhi⟩ := part.inRange q hqp
      have hne : ids ≠ [] := List.ne_nil_of_mem hi
      obtain ⟨lo, hmin⟩ := Option.isSome_iff_exists.mp (List.isSome_min?_of_ne_nil hne)
      obtain ⟨hi', hmax⟩ := Option.isSome_iff_exists.mp (List.isSome_max?_of_ne_nil hne)
      have h1 := (List.min?_eq_some_iff.mp hmin).2 i hi
      have h2 := (List.max?_eq_some_iff.mp hmax).2 i hi
      rw [HistoryBatch.selectParts, hmin, hmax]
      refine List.mem_flatMap.mpr ⟨part, List.mem_filter.mpr ⟨hpart, ?_⟩, hqp⟩
      rw [decide_eq_true_eq]
      omega
    · exact List.mem_append_left _ ht
  have hmem : q.minor ∈ (tierByidRows h.tiers t ++
      HistoryBatch.selectParts (h.byid t) ids).filterMap fun r =>
      if r.id = i ∧ r.version = some v then some r.minor else none :=
    List.mem_filterMap.mpr ⟨q, hselect, by rw [if_pos ⟨hid, hv⟩]⟩
  obtain ⟨m, hm⟩ := Option.isSome_iff_exists.mp
    (List.isSome_max?_of_ne_nil (List.ne_nil_of_mem hmem))
  rw [historyPrevMinor, hm, Option.getD_some]
  have hle := (List.max?_eq_some_iff.mp hm).2 _ hmem
  omega

/-- What is visible among the last states is not newer than the current row. -/
lemma version_le_current (hagree : ∀ r, StateAt (dated h t i) r → Shows r (cur s t i))
    {q : HistoryRow (ByidCols t)} (hq : q ∈ byidRows h t) (hid : q.id = i) (hv : q.visible = true)
    {x : ℤ} (hx : q.validFrom = some x)
    (hlate : ∀ r ∈ byidRows h t, r.id = i → ∀ y ∈ r.validFrom, y ≤ x) :
    ∃ p, cur s t i = some p ∧ nullLeast q.version ≤ nullLeast (some (attrs p.cols).version) := by
  have hin : q ∈ dated h t i := mem_dated.mpr ⟨hq, hid, x, hx⟩
  obtain ⟨b, hb⟩ := stateAt_of_ne_nil (List.ne_nil_of_mem hin)
  obtain ⟨hbin, hbid, y, hy⟩ := mem_dated.mp hb.1
  have hle : stateKey q ≤ stateKey b := hb.2 q hin
  have heq : q.validFrom = b.validFrom := by
    rw [hx, hy]
    exact congrArg some (le_antisymm (start_le hx hy hle) (hlate b hbin hbid y hy))
  have hbv : b.visible = true := visible_of_le heq hle hv
  have hshow := hagree b hb
  cases hp : cur s t i with
  | none =>
    rw [hp] at hshow
    exact (Bool.false_ne_true (hshow.symm.trans hbv)).elim
  | some p =>
    rw [hp] at hshow
    refine ⟨p, rfl, ?_⟩
    rw [← hshow.2.1]
    rcases version_of_le heq (hv.trans hbv.symm) hle with hlt | ⟨he, -⟩
    · exact hlt.le
    · rw [he]

/-- The history after a run has the rows it had and those of the states of the run. -/
def Added (s : Root) (h : HistoryRoot) (f : Fetched) (h' : HistoryRoot) : Prop :=
  ∀ t r, r ∈ byidRows h' t ↔ r ∈ byidRows h t ∨
    ∃ x ∈ buildHistoryBatch s h f t, x.row.map byidCols = r

variable {h' : HistoryRoot}

lemma Appended.added (ha : Appended s h f h') : Added s h f h' := by
  intro t r
  rw [byidRows, byidRows, ha.byidBase, List.mem_append, List.mem_append, ha.byid, or_assoc]
  exact or_congr_right (or_congr_right List.mem_map)

lemma ownCols_congr {a b : Change (Body t)} (hbody : a.body = b.body)
    (hattrs : changeAttrs s a = changeAttrs s b) (o : Option (SpatialCols t)) :
    ownCols s o a = ownCols s o b := by
  cases t <;> simp only [ownCols, hbody, hattrs]

lemma attrs_ownCols (o : Option (SpatialCols t)) (c : Change (Body t)) :
    attrs (byidCols (ownCols s o c)) = changeAttrs s c := by cases t <;> rfl

/-- The by-id row of the state of a version. -/
abbrev ownRow (s : Root) (r : DeltaRow (SpatialCols t)) (b : Change (Body t)) :
    HistoryRow (ByidCols t) :=
  (ownState s r b).row.map byidCols

lemma ownRow_visible {r : DeltaRow (SpatialCols t)} {b : Change (Body t)} :
    (ownRow s r b).visible = true ↔ b.deleted = false := by
  simp [ownRow, ownState, HistoryRow.map]

section Kept

variable {c : Change (Body t)} {x : ℤ} {r : DeltaRow (SpatialCols t)}

/-- Beside a deletion nothing visible is found. -/
lemma invisible_of_deletion (hg : Good s.deltas) (ha : Added s h f h')
    (hc : changeById i (keptOf s f t) = some c) (hr : (tierRun s f).row t i = some r)
    (hd : c.deleted = true)
    (hstored : ∀ r ∈ byidRows h t, r.id = i → ∀ y ∈ r.validFrom, y ≤ x ∧ (c.deleted = true → y < x))
    (hothers : ∀ b ∈ allChanges f.diffs t, b.id = i → newer s b = true → Before s c x b)
    {q : HistoryRow (ByidCols t)} (hq : q ∈ byidRows h' t) (hid : q.id = i) {y : ℤ}
    (hy : q.validFrom = some y) (hxy : x ≤ y) : q.visible = false := by
  rcases (ha t q).mp hq with hold | ⟨z, hz, rfl⟩
  · have hlt := (hstored q hold hid y hy).2 hd
    omega
  · obtain ⟨b, hb, hbid, hn, rfl⟩ := state_of_kept hg hc hr hz hid
    by_contra hv
    have hbd : b.deleted = false := ownRow_visible.mp (Bool.eq_true_of_not_eq_false hv)
    have hlt := (hothers b hb hbid hn y hy).1 hd hbd
    omega

/-- A stored state loses against the kept version. -/
lemma stored_loses (hg : Good s.deltas) (hagree : ∀ r, StateAt (dated h t i) r →
    Shows r (cur s t i)) (hc : changeById i (keptOf s f t) = some c) (hx : c.timestamp = some x)
    (hd : c.deleted = false) (hstored : ∀ r ∈ byidRows h t, r.id = i → ∀ y ∈ r.validFrom, y ≤ x ∧
      (c.deleted = true → y < x))
    {q : HistoryRow (ByidCols t)} (hq : q ∈ byidRows h t) (hid : q.id = i) {y : ℤ}
    (hy : q.validFrom = some y) : ¬ stateKey (ownRow s r c) ≤ stateKey q := by
  intro hle
  have hyx : y = x := le_antisymm (hstored q hq hid y hy).1 (start_le (a := ownRow s r c) hx hy hle)
  have heq : (ownRow s r c).validFrom = q.validFrom := hx.trans (hyx ▸ hy.symm)
  have hvis : (ownRow s r c).visible = true := ownRow_visible.mpr hd
  have hqv : q.visible = true := visible_of_le heq hle hvis
  -- it is not newer than the current row, and the change is
  obtain ⟨p, hp, hver⟩ := version_le_current hagree hq hid hqv hy fun r' hr' hid' y' hy' =>
    hyx ▸ (hstored r' hr' hid' y' hy').1
  have hnew := (mem_keptOf hg).mp (mem_of_lookup hc) |>.2.1
  have hcid : c.id = i := key_of_lookup hc
  rw [newer, hcid, hp, decide_eq_true_eq] at hnew
  have hlt : nullLeast q.version < nullLeast (some c.version) :=
    hver.trans_lt (WithBot.coe_lt_coe.mpr hnew)
  rcases version_of_le heq (hvis.trans hqv.symm) hle with hlt' | ⟨he, -⟩
  · exact lt_asymm hlt hlt'
  · rw [← he] at hlt
    exact lt_irrefl _ hlt

/-- Another version that does not lose is the same. -/
lemma same_of_le (hx : c.timestamp = some x) (hd : c.deleted = false) {b : Change (Body t)}
    (hb : Before s c x b) {y : ℤ} (hy : b.timestamp = some y)
    (hle : stateKey (ownRow s r c) ≤ stateKey (ownRow s r b)) :
    b.deleted = false ∧ b.body = c.body ∧ changeAttrs s b = changeAttrs s c := by
  obtain ⟨hyx, hsame⟩ := (hb y hy).2 hd
  have hxy : x ≤ y := start_le (a := ownRow s r c) (b := ownRow s r b) hx hy hle
  have heq : (ownRow s r c).validFrom = (ownRow s r b).validFrom :=
    hx.trans ((congrArg some (le_antisymm hxy hyx)).trans hy.symm)
  have hvis : (ownRow s r c).visible = true := ownRow_visible.mpr hd
  have hbv : (ownRow s r b).visible = true := visible_of_le heq hle hvis
  have hbd : b.deleted = false := ownRow_visible.mp hbv
  refine ⟨hbd, ?_⟩
  rcases hsame hbd (le_antisymm hyx hxy) with hlt | hsame
  · rcases version_of_le heq (hvis.trans hbv.symm) hle with hlt' | ⟨he, -⟩
    · exact (lt_asymm hlt (WithBot.coe_lt_coe.mp hlt')).elim
    · exact (ne_of_gt hlt (Option.some.inj he)).elim
  · exact hsame

/-- **A kept change is what is found.** -/
lemma agrees_of_kept (hg : Good s.deltas) (hf : f.diffs ≠ []) (ha : Added s h f h')
    (hagree : ∀ r, StateAt (dated h t i) r → Shows r (cur s t i))
    (hc : changeById i (keptOf s f t) = some c) (hx : c.timestamp = some x)
    (hstored : ∀ r ∈ byidRows h t, r.id = i → ∀ y ∈ r.validFrom, y ≤ x ∧ (c.deleted = true → y < x))
    (hothers : ∀ b ∈ allChanges f.diffs t, b.id = i → newer s b = true → Before s c x b) :
    (∀ q, StateAt (dated h' t i) q → Shows q (cur (runOnce s f) t i)) ∧ dated h' t i ≠ [] := by
  obtain ⟨r, hr, hrid, hrd, hcols⟩ := row_of_kept hg hc
  have hid : c.id = i := key_of_lookup hc
  have hown : ownRow s r c ∈ dated h' t i :=
    mem_dated.mpr ⟨(ha t _).mpr (.inr ⟨_, own_mem hg hc hr, rfl⟩), hid, x, hx⟩
  refine ⟨fun q hq => ?_, List.ne_nil_of_mem hown⟩
  obtain ⟨hqin, hqid, y, hy⟩ := mem_dated.mp hq.1
  have hle : stateKey (ownRow s r c) ≤ stateKey q := hq.2 _ hown
  rw [cur_of_row hg hf hr]
  cases hd : c.deleted with
  | true =>
    have hnone : (r.map byidCols).alive = none := by simp [DeltaRow.alive, DeltaRow.map, hrd, hd]
    rw [hnone]
    exact invisible_of_deletion hg ha hc hr hd hstored hothers hqin hqid hy
      (start_le (a := ownRow s r c) hx hy hle)
  | false =>
    obtain ⟨a, hra, hself⟩ := hcols hd
    have hsome : (r.map byidCols).alive = some ⟨i, r.cell, byidCols a⟩ := by
      simp [DeltaRow.alive, DeltaRow.map, hrd, hd, hra, hrid]
    rw [hsome]
    rcases (ha t q).mp hqin with hold | ⟨z, hz, rfl⟩
    · exact (stored_loses hg hagree hc hx hd hstored hold hqid hy hle).elim
    · obtain ⟨b, hb, hbid, hn, rfl⟩ := state_of_kept hg hc hr hz hqid
      obtain ⟨hbd, hbody, hattrs⟩ := same_of_le hx hd (hothers b hb hbid hn) hy hle
      have hcols' : ownCols s r.cols b = a := by
        rw [ownCols_congr hbody hattrs, hra]
        exact hself
      have hversion : b.version = (attrs (byidCols a)).version := by
        rw [← hcols', attrs_ownCols]
        rfl
      refine ⟨ownRow_visible.mpr hbd, congrArg some hversion, hqid, ?_, ?_⟩
      · simp [ownState, HistoryRow.map, hbd]
      · simp [ownState, HistoryRow.map, hbd, hcols']

end Kept

lemma repromoteCols_eq {x : SpatialCols t} (h : (attrs (byidCols x)).promoted =
    s.base.promotedKeys.map (tagValue (attrs (byidCols x)).tags)) : repromoteCols s x = x := by
  have hself : repromote s (attrs (byidCols x)) = attrs (byidCols x) := by
    rw [repromote, ← h]
  cases t with
  | node => exact congrArg (fun a => ({ x with attrs := a } : NodeCols)) hself
  | way =>
    exact congrArg (fun a => ({ x with byid := { x.byid with attrs := a } } : WaySpatialCols)) hself
  | relation =>
    exact congrArg (fun a => ({ x with byid := { x.byid with attrs := a } } : RelationSpatialCols))
      hself

/-- A stored state loses against the minor version: of the same version it has a lower one. -/
lemma stored_loses_touched (hagree : ∀ r, StateAt (dated h t i) r → Shows r (cur s t i))
    (hk : changeById i (keptOf s f t) = none) (hi : i ∈ touchedIds s f t) {p : Row (ByidCols t)}
    (hp : cur s t i = some p) {r : DeltaRow (SpatialCols t)} {a : SpatialCols t} (hrid : r.id = i)
    (hattrs : attrs (byidCols a) = attrs p.cols) {x : ℤ}
    (hx : (touchState s h f r a).row.validFrom = some x)
    (hstored : ∀ r ∈ byidRows h t, r.id = i → ∀ y ∈ r.validFrom, y ≤ x)
    {q : HistoryRow (ByidCols t)} (hq : q ∈ byidRows h t) (hid : q.id = i) {y : ℤ}
    (hy : q.validFrom = some y) :
    ¬ stateKey ((touchState s h f r a).row.map byidCols) ≤ stateKey q := by
  intro hle
  have hids : i ∈ historyTouchedOnlyIds (touchedIds s f t) (keptOf s f t) := by
    rw [historyTouchedOnlyIds, List.mem_filter, decide_eq_true_eq]
    exact ⟨hi, lookup_eq_none.mp hk⟩
  let n : HistoryRow (ByidCols t) := (touchState s h f r a).row.map byidCols
  have hyx : y = x := le_antisymm (hstored q hq hid y hy) (start_le (a := n) hx hy hle)
  have heq : n.validFrom = q.validFrom := hx.trans (hyx ▸ hy.symm)
  have hqv : q.visible = true := visible_of_le heq hle rfl
  obtain ⟨p', hp', hver⟩ := version_le_current hagree hq hid hqv hy fun r' hr' hid' y' hy' =>
    hyx ▸ hstored r' hr' hid' y' hy'
  have hv : n.version = some (attrs p'.cols).version := by
    rw [Option.some.inj (hp'.symm.trans hp), ← hattrs]
    rfl
  rw [← hv] at hver
  rcases version_of_le heq (Eq.symm hqv) hle with hlt | ⟨he, hminor⟩
  · exact not_le.mpr hlt hver
  · have hlt := minor_lt hids hq hid he.symm
    have hn :
        n.minor = (historyPrevMinor h t (historyTouchedOnlyIds (touchedIds s f t) (keptOf s f t))
        i (colsVersion a)).getD 0 + 1 := by
      rw [← hrid]
      rfl
    omega

/-- **An element that is only touched is found as it is resolved.** -/
lemma agrees_of_touched (hg : Good s.deltas) (hf : f.diffs ≠ []) (ha : Added s h f h')
    (hagree : ∀ r, StateAt (dated h t i) r → Shows r (cur s t i)) (hpromoted : Promoted s)
    (hk : changeById i (keptOf s f t) = none) (hi : i ∈ touchedIds s f t) {p : Row (ByidCols t)}
    (hp : cur s t i = some p) {x : ℤ} (hx : touchTime (keptOf s f) f.timestamp p.cols = some x)
    (hstored : ∀ r ∈ byidRows h t, r.id = i → ∀ y ∈ r.validFrom, y ≤ x) :
    (∀ q, StateAt (dated h' t i) q → Shows q (cur (runOnce s f) t i)) ∧ dated h' t i ≠ [] := by
  obtain ⟨r, a, hr, hrid, hrd, hra, hattrs, htime⟩ := row_of_touched hg hk hi hp
  have hpro : repromoteCols s a = a := by
    refine repromoteCols_eq ?_
    rw [hattrs]
    exact hpromoted t i p hp
  let n : HistoryRow (ByidCols t) := (touchState s h f r a).row.map byidCols
  have hstart : n.validFrom = some x := (htime _ _).trans hx
  have hnew : n ∈ dated h' t i := mem_dated.mpr
    ⟨(ha t _).mpr (.inr ⟨_, touchState_mem hg hk hi hr hrid hrd hra, rfl⟩), hrid, x, hstart⟩
  refine ⟨fun q hq => ?_, List.ne_nil_of_mem hnew⟩
  obtain ⟨hqin, hqid, y, hy⟩ := mem_dated.mp hq.1
  have hsome : (r.map byidCols).alive = some ⟨i, r.cell, byidCols a⟩ := by
    simp [DeltaRow.alive, DeltaRow.map, hrd, hra, hrid]
  rw [cur_of_row hg hf hr, hsome]
  rcases (ha t q).mp hqin with hold | ⟨z, hz, rfl⟩
  · exact (stored_loses_touched hagree hk hi hp hrid hattrs hstart hstored hold hqid hy
      (hq.2 _ hnew)).elim
  · obtain ⟨r', a', hr', ha', rfl⟩ := state_of_touched hg hk hz hqid
    obtain rfl := Option.some.inj (hr'.symm.trans hr)
    obtain rfl := Option.some.inj (ha'.symm.trans hra)
    refine ⟨rfl, rfl, hqid, rfl, ?_⟩
    simp [touchState, minorState, HistoryRow.map, hpro]

/-- What is neither kept nor touched, and what does not exist, is not resolved. -/
lemma row_eq_none (hg : Good s.deltas) (hk : changeById i (keptOf s f t) = none)
    (hi : i ∈ touchedIds s f t → cur s t i = none) : (tierRun s f).row t i = none := by
  cases t with
  | node => rw [row_node, hk, Option.map_none]
  | way =>
    rw [row_way hg, touchedRow, hk]
    simp only
    split
    · rename_i hin
      rw [hi hin]
      rfl
    · rfl
  | relation =>
    rw [row_relation hg, touchedRow, hk]
    simp only
    split
    · rename_i hin
      rw [hi hin]
      rfl
    · rfl

/-- An element that is not resolved is found as before. -/
lemma agrees_of_unresolved (hg : Good s.deltas) (hf : f.diffs ≠ []) (ha : Added s h f h')
    (hagree : (∀ r, StateAt (dated h t i) r → Shows r (cur s t i)) ∧
      (dated h t i = [] → cur s t i = none))
    (hk : changeById i (keptOf s f t) = none) (hr : (tierRun s f).row t i = none) :
    (∀ q, StateAt (dated h' t i) q → Shows q (cur (runOnce s f) t i)) ∧
      (dated h' t i = [] → cur (runOnce s f) t i = none) := by
  have hmem : ∀ q, q ∈ dated h' t i ↔ q ∈ dated h t i := by
    intro q
    rw [mem_dated, mem_dated, ha t q]
    refine and_congr_left fun hq => ⟨fun hin => hin.resolve_right ?_, .inl⟩
    rintro ⟨x, hx, rfl⟩
    obtain ⟨r, c, hr', -⟩ := state_of_touched hg hk hx hq.1
    rw [hr] at hr'
    cases hr'
  rw [cur_runOnce hg hf, hr, Option.map_none, Option.getD_none]
  refine ⟨fun q hq => hagree.1 q ⟨(hmem q).mp hq.1, fun y hy => hq.2 y ((hmem y).mpr hy)⟩,
    fun hnil => hagree.2 ?_⟩
  refine List.eq_nil_iff_forall_not_mem.mpr fun q hq => ?_
  have hq' := (hmem q).mpr hq
  rw [hnil] at hq'
  cases hq'

lemma promoted_runOnce (hg : Good s.deltas) (hf : f.diffs ≠ []) (hp : Promoted s) :
    Promoted (runOnce s f) := by
  intro t i p hcur
  rw [base_runOnce]
  cases hk : changeById i (keptOf s f t) with
  | some c =>
    obtain ⟨r, hr, -, hrd, hcols⟩ := row_of_kept hg hk
    rw [cur_of_row hg hf hr] at hcur
    cases hd : c.deleted with
    | true => simp [DeltaRow.alive, DeltaRow.map, hrd, hd] at hcur
    | false =>
      obtain ⟨a, hra, hself⟩ := hcols hd
      simp only [DeltaRow.alive, DeltaRow.map, hrd, hd, hra, Option.map_some, Bool.false_eq_true,
        if_false, Option.some.injEq] at hcur
      rw [← hcur, ← hself, attrs_ownCols]
      rfl
  | none =>
    by_cases hi : i ∈ touchedIds s f t ∧ ∃ q, cur s t i = some q
    · obtain ⟨hi, q, hq⟩ := hi
      obtain ⟨r, a, hr, -, hrd, hra, hattrs, -⟩ := row_of_touched hg hk hi hq
      rw [cur_of_row hg hf hr] at hcur
      simp only [DeltaRow.alive, DeltaRow.map, hrd, hra, Option.map_some,
        Bool.false_eq_true, if_false, Option.some.injEq] at hcur
      rw [← hcur, hattrs]
      exact hp t i q hq
    · have hrow : (tierRun s f).row t i = none := row_eq_none hg hk fun hin =>
        Option.eq_none_iff_forall_ne_some.mpr fun q hq => hi ⟨hin, q, hq⟩
      rw [cur_runOnce hg hf, hrow, Option.map_none, Option.getD_none] at hcur
      exact hp t i p hcur

/-- **One timely run.** -/
theorem agrees_update (hg : Good s.deltas) (hf : f.diffs ≠ []) (ha : Added s h f h')
    (hagree : Agrees s h) (hpromoted : Promoted s) (ht : Timely s h f) :
    Agrees (runOnce s f) h' := by
  intro t i
  cases hk : changeById i (keptOf s f t) with
  | some c =>
    have hid : c.id = i := key_of_lookup hk
    obtain ⟨x, hx, hstored, hothers⟩ := ht.kept t c (mem_of_lookup hk)
    rw [hid] at hstored hothers
    obtain ⟨hshow, hne⟩ := agrees_of_kept hg hf ha (hagree t i).1 hk hx hstored hothers
    exact ⟨hshow, fun hnil => (hne hnil).elim⟩
  | none =>
    by_cases hi : i ∈ touchedIds s f t ∧ ∃ p, cur s t i = some p
    · obtain ⟨hi, p, hp⟩ := hi
      obtain ⟨x, hx, hstored⟩ := ht.touched t i hi hk p hp
      obtain ⟨hshow, hne⟩ := agrees_of_touched hg hf ha (hagree t i).1 hpromoted hk hi hp hx hstored
      exact ⟨hshow, fun hnil => (hne hnil).elim⟩
    · have hrow : (tierRun s f).row t i = none := row_eq_none hg hk fun hin =>
        Option.eq_none_iff_forall_ne_some.mpr fun q hq => hi ⟨hin, q, hq⟩
      exact agrees_of_unresolved hg hf ha (hagree t i) hk hrow

end Run

/-! ### Any timely runs -/

/-- A root and its history as they are when the history has been made and found valid: the ends of
the base states hide nothing, the promoted columns are those of the tags, and the last states show
what is current. -/
structure Valid (s : Root) (h : HistoryRoot) : Prop where
  good : Good s.deltas
  matched : AllMatched h.tiers
  ends : ∀ t, SoundEnds (h.byid t).rows
  promoted : Promoted s
  agrees : AgreesAtEnd s h

lemma valid_update {s : Root} {h : HistoryRoot} {f : Fetched} {d' : Dataset} (hv : Valid s h)
    (ht : Timely s h f) (hu : update ⟨s, some h⟩ f = some d') :
    ∃ h', d'.history = some h' ∧ Valid d'.root h' := by
  by_cases hf : f.diffs = []
  · simp only [update, hf, if_true] at hu
    cases hu
    exact ⟨h, rfl, hv⟩
  · obtain ⟨h', rfl, happ⟩ := update_appended hv.matched hf hu
    have hg' : Good (runOnce s f).deltas := good_runOnce hv.good f
    have hends : ∀ t, SoundEnds (h'.byid t).rows := by
      rw [happ.byidBase]
      exact hv.ends
    have hagree := agrees_update hv.good hf happ.added
      ((agreesAtEnd_iff hv.good hv.ends).mp hv.agrees) hv.promoted ht
    exact ⟨h', rfl, hg', happ.matched, hends, promoted_runOnce hv.good hf hv.promoted,
      (agreesAtEnd_iff hg' hends).mpr hagree⟩

/-- **At the end of time the history is the current state.** In every sequence of runs that are
timely, from a root with a valid history, the snapshot read at a time that no stored state starts
after finds of every element what the current read finds. -/
theorem snapshot_at_end {s : Root} {h : HistoryRoot} (hv : Valid s h) {fs : List Fetched}
    {d' : Dataset}
    (ht : Along update (fun d f => ∀ h ∈ d.history, Timely d.root h f) ⟨s, some h⟩ fs)
    (hp : play update ⟨s, some h⟩ fs = some d') :
    ∃ h', d'.history = some h' ∧ AgreesAtEnd d'.root h' := by
  have hinv : ∃ h', d'.history = some h' ∧ Valid d'.root h' := by
    refine play_keeps (I := fun d => ∃ h', d.history = some h' ∧ Valid d.root h') ?_
      ⟨h, rfl, hv⟩ ht hp
    rintro ⟨s, o⟩ f d' ⟨h, rfl, hv⟩ ht hu
    exact valid_update hv (ht h rfl) hu
  obtain ⟨h', hh, hv'⟩ := hinv
  exact ⟨h', hh, hv'.agrees⟩

/-! ### From the current tables -/

/-- The first state of a current row; without a timestamp it starts with the extract. -/
def initRow (since : ℤ) {t : Typ} (r : Row (ByidCols t)) : HistoryRow (ByidCols t) where
  id := r.id
  version := some (attrs r.cols).version
  minor := 0
  timestamp := (attrs r.cols).timestamp
  validFrom := some ((attrs r.cols).timestamp.getD since)
  validTo := none
  visible := true
  cell := r.cell
  cols := some r.cols

def initPart (since : ℤ) {t : Typ} (p : ByidPart (ByidCols t)) : HistoryPart (ByidCols t) where
  minId := p.minId
  maxId := p.maxId
  rows := p.rows.map (initRow since)
  le := p.le
  inRange := by
    intro r hr
    obtain ⟨x, hx, rfl⟩ := List.mem_map.mp hr
    exact p.inRange x hx

/-- The by-id parts that `history init` makes. -/
def initParts (since : ℤ) {t : Typ} (b : ByidTable (ByidCols t)) : HistoryParts (ByidCols t) where
  parts := b.parts.map (initPart since)
  sorted := List.pairwise_map.mpr b.sorted

section Init

variable {b : Base} {since : ℤ} {spatial : (t : Typ) → HistoryCells (SpatialCols t)}

lemma mem_initParts {t : Typ} {x : ByidTable (ByidCols t)} {r : HistoryRow (ByidCols t)} :
    r ∈ (initParts since x).rows ↔ ∃ p ∈ x.rows, initRow since p = r := by
  simp only [HistoryParts.rows, initParts, ByidTable.rows, List.mem_flatMap, List.mem_map, initPart]
  constructor
  · rintro ⟨_, ⟨part, hpart, rfl⟩, hr⟩
    obtain ⟨p, hp, rfl⟩ := List.mem_map.mp hr
    exact ⟨p, ⟨part, hpart, hp⟩, rfl⟩
  · rintro ⟨p, ⟨part, hpart, hp⟩, rfl⟩
    exact ⟨_, ⟨part, hpart, rfl⟩, List.mem_map_of_mem hp⟩

/-- **A history whose last states show the current rows is valid.** -/
theorem valid_of_last {h : HistoryRoot} (htiers : h.tiers = History.empty)
    (hlast : ∀ t, ∀ r ∈ (h.byid t).rows, StateAt (dated h t r.id) r →
      Shows r (byId r.id (b.byid t).rows))
    (hrows : ∀ t, ∀ p ∈ (b.byid t).rows, ∃ r ∈ (h.byid t).rows, r.id = p.id ∧ r.validFrom.isSome)
    (hends : ∀ t, SoundEnds (h.byid t).rows) (hp : Promoted (fresh b)) : Valid (fresh b) h := by
  refine ⟨good_fresh b, ?_, hends, hp, (agreesAtEnd_iff (good_fresh b) hends).mpr fun t i => ?_⟩
  · rw [htiers]
    constructor <;> intro x hx <;> cases hx
  · have hcur : cur (fresh b) t i = byId i (b.byid t).rows := rfl
    have hbase : byidRows h t = (h.byid t).rows := by
      have hnil : tierByidRows h.tiers t = [] := by
        rw [htiers]
        rfl
      rw [byidRows, hnil, List.append_nil]
    refine ⟨fun r hr => ?_, fun hnil => ?_⟩
    · obtain ⟨hin, rfl, -⟩ := mem_dated.mp hr.1
      rw [hcur]
      exact hlast t r (hbase ▸ hin) hr
    · rw [hcur]
      refine Option.eq_none_iff_forall_ne_some.mpr fun p hlook => ?_
      obtain ⟨hin, hid⟩ := (distinct_rows (b.byid t)).lookup_eq_some.mp hlook
      obtain ⟨r, hr, hrid, hsome⟩ := hrows t p hin
      have hd : r ∈ dated h t i :=
        mem_dated.mpr ⟨hbase.symm ▸ hr, hrid.trans hid, Option.isSome_iff_exists.mp hsome⟩
      rw [hnil] at hd
      cases hd

/-- A history that has the first state of every current row is one. -/
theorem valid_of_current {h : HistoryRoot} (htiers : h.tiers = History.empty)
    (hrows : ∀ t r, r ∈ (h.byid t).rows ↔ ∃ p ∈ (b.byid t).rows, initRow since p = r)
    (hends : ∀ t, SoundEnds (h.byid t).rows) (hp : Promoted (fresh b)) : Valid (fresh b) h := by
  refine valid_of_last htiers (fun t r hr _ => ?_)
    (fun t p hin => ⟨_, (hrows t _).mpr ⟨p, hin, rfl⟩, rfl, rfl⟩) hends hp
  obtain ⟨p, hin, rfl⟩ := (hrows t r).mp hr
  have hlook : byId (initRow since p).id (b.byid t).rows = some p :=
    (distinct_rows (b.byid t)).lookup_eq_some.mpr ⟨hin, rfl⟩
  rw [hlook]
  exact ⟨rfl, rfl, rfl, rfl, rfl⟩

/-- The history that `history init` makes of the current tables is one. -/
theorem valid_init (hp : Promoted (fresh b)) :
    Valid (fresh b) ⟨fun t => initParts since (b.byid t), spatial, History.empty⟩ := by
  refine valid_of_current rfl (fun t r => mem_initParts)
    (fun t => soundEnds_of_open fun r hr => ?_) hp
  obtain ⟨p, -, rfl⟩ := mem_initParts.mp hr
  rfl

end Init

/-! ### One node -/

/-- A run with one version of a node. -/
def nodeVersion (seq version : ℤ) (deleted : Bool) (timestamp : ℤ) : Fetched where
  diffs := [⟨seq, fun
    | .node =>
      [⟨1, deleted, version, some timestamp, 1, none, "", none, some ⟨450000000, 900000000⟩, seq⟩]
    | .way => []
    | .relation => []⟩]
  timestamp := some timestamp

def oneNodeHistory : HistoryRoot :=
  ⟨fun t => initParts 5 (oneNode.byid t), fun _ => .empty, History.empty⟩

lemma valid_oneNode : Valid (fresh oneNode) oneNodeHistory := by
  refine valid_init fun t i p hp => ?_
  have hin := mem_of_lookup hp
  cases t with
  | node =>
    rw [List.mem_singleton.mp hin]
    rfl
  | way => cases hin
  | relation => cases hin

/-- The node is changed, deleted later and created again with the time of the deletion. -/
def laterDeletion : List Fetched :=
  [nodeVersion 1 2 false 10, nodeVersion 2 3 true 20, nodeVersion 3 4 false 20]

theorem snapshot_at_end_later_deletion : ∃ d' h',
    play update ⟨fresh oneNode, some oneNodeHistory⟩ laterDeletion = some d' ∧
      d'.history = some h' ∧ AgreesAtEnd d'.root h' := by
  have hs : (play update ⟨fresh oneNode, some oneNodeHistory⟩ laterDeletion).isSome = true := by
    decide
  obtain ⟨d', hd⟩ := Option.isSome_iff_exists.mp hs
  obtain ⟨h', hh, hagree⟩ := snapshot_at_end valid_oneNode (by decide) hd
  exact ⟨d', h', hd, hh, hagree⟩

/-- The times of the versions of an element never decrease. -/
def NeverDecrease (fs : List Fetched) : Prop :=
  ∀ t, ∀ b ∈ fs.flatMap fun f => allChanges f.diffs t, ∀ c ∈ fs.flatMap fun f =>
    allChanges f.diffs t, b.id = c.id → b.version < c.version →
      ∀ z ∈ b.timestamp, ∀ x ∈ c.timestamp, z ≤ x

/-- The node is changed and deleted at the same time. -/
def deletedAtOnce : List Fetched := [nodeVersion 1 2 false 10, nodeVersion 2 3 true 10]

/-- It is not there any more, and the snapshot at the end of time finds it. -/
theorem snapshot_at_end_fails : Valid (fresh oneNode) oneNodeHistory ∧ NeverDecrease deletedAtOnce ∧
    ∃ d' h', play update ⟨fresh oneNode, some oneNodeHistory⟩ deletedAtOnce = some d' ∧
      d'.history = some h' ∧ ¬ AgreesAtEnd d'.root h' := by
  have hs : (play update ⟨fresh oneNode, some oneNodeHistory⟩ deletedAtOnce).any (fun d' =>
      d'.history.any fun h' =>
        decide ((∀ r ∈ byidRows h' .node, r.id = 1 → ∀ x ∈ r.validFrom, x ≤ 10) ∧
        currentRead d'.root .node 1 = none ∧ ∃ r ∈ byidCandidates h' .node 10 1, r.visible = true ∧
          ∀ x ∈ byidCandidates h' .node 10 1, stateKey x ≤ stateKey r)) = true := by
    decide
  obtain ⟨d', hd, hd'⟩ := (Option.any_eq_true _ _).mp hs
  obtain ⟨h', hh, hh'⟩ := (Option.any_eq_true _ _).mp hd'
  obtain ⟨hlate, hnone, r, hr, hv, hbest⟩ := of_decide_eq_true hh'
  refine ⟨valid_oneNode, by unfold NeverDecrease; decide, d', h', hd, hh, fun hagree => ?_⟩
  have hshow := (hagree .node 1 10 hlate).1 r ⟨hr, hbest⟩
  rw [hnone] at hshow
  exact Bool.false_ne_true (hshow.symm.trans hv)

end OsmParquet.EndOfTime
