import Mathlib.Data.List.Induction
import OsmParquet.Tiers

/-!
What one run can do to the tiers, one id at a time.

A run either merges its batch into the hour tier, or folds the hour tier into the day
tier, or folds both into the week tier. `writes` says in each case which row every tier
then has of an id; every property of the tiers over whole sequences of runs is an
induction that uses this case split and nothing else of the updater.
-/

namespace OsmParquet.TierSteps

open OsmParquet.KeyedList OsmParquet.Layers OsmParquet.Rows OsmParquet.Tiers

/-- What the tiers are written from in one run. -/
structure TierRun where
  resolved : Resolved
  firstSeq : ℤ
  lastSeq : ℤ
  timestamp : Option ℤ

/-- The batch has at most one row an id. -/
def TierRun.OneRow (r : TierRun) : Prop := ∀ t, Distinct DeltaRow.id (r.resolved t)

def TierRun.Empty (r : TierRun) : Prop := ∀ t, r.resolved t = []

instance (r : TierRun) : Decidable r.Empty :=
  decidable_of_iff ((r.resolved .node = [] ∧ r.resolved .way = []) ∧
    r.resolved .relation = []) <| by
    constructor
    · rintro ⟨⟨h1, h2⟩, h3⟩ t
      cases t <;> assumption
    · intro h
      exact ⟨⟨h .node, h .way⟩, h .relation⟩

def TierRun.row (r : TierRun) (t : Typ) (i : ℤ) : Option (DeltaRow (SpatialCols t)) :=
  deltaById i (r.resolved t)

def runTiers (d : Deltas) (r : TierRun) : Deltas :=
  writeTiers d r.resolved r.firstSeq r.lastSeq r.timestamp

/-- The tiers after a sequence of runs. -/
def runAll (d : Deltas) (rs : List TierRun) : Deltas := rs.foldl runTiers d

@[simp] lemma runAll_nil (d : Deltas) : runAll d [] = d := rfl
@[simp] lemma runAll_cons (d : Deltas) (r : TierRun) (rs : List TierRun) :
    runAll d (r :: rs) = runAll (runTiers d r) rs := rfl
lemma runAll_append (d : Deltas) (rs rs' : List TierRun) :
    runAll d (rs ++ rs') = runAll (runAll d rs) rs' := by
  simp [runAll, List.foldl_append]

def totalRows (f : (t : Typ) → TypeFiles t) : ℕ :=
  (f .node).byid.length + (f .way).byid.length + (f .relation).byid.length

/-- A published tier version: not empty, one row an id, both copies in step. -/
structure MetaGood (m : TierMeta) : Prop where
  inStep : ∀ t, InStep (m.files t)
  rows : totalRows m.files ≠ 0

structure Good (d : Deltas) : Prop where
  hour : ∀ m, d.hour = some m → MetaGood m
  day : ∀ m, d.day = some m → MetaGood m
  week : ∀ m, d.week = some m → MetaGood m

lemma good_empty : Good Deltas.empty where
  hour := by intro m h; cases h
  day := by intro m h; cases h
  week := by intro m h; cases h

/-- The three things a run can do to the tiers `d`. -/
inductive Writes (d : Deltas) (r : TierRun) (d' : Deltas) : Prop
  | stay
    (cross : (tierCrossings d r.timestamp).1 = false)
    (hour : ∀ t i, slot d'.hour t i = mergeSlot (r.row t i) (slot d.hour t i))
    (day : d'.day = d.day)
    (week : d'.week = d.week)
    (time : d'.hour = none ∨ d'.hour.bind TierMeta.timestamp = r.timestamp)
  | foldHour
    (cross : tierCrossings d r.timestamp = (true, false))
    (hour : r.Empty ∧ d'.hour = d.hour ∨
      ¬ r.Empty ∧ (∀ t i, slot d'.hour t i = r.row t i) ∧
        d'.hour.bind TierMeta.timestamp = r.timestamp)
    (day : ∀ t i, slot d'.day t i = mergeSlot (slot d.hour t i) (slot d.day t i))
    (week : d'.week = d.week)
    (time : d'.day.bind TierMeta.timestamp = d.hour.bind TierMeta.timestamp)
  | foldDay
    (cross : tierCrossings d r.timestamp = (true, true))
    (hour : r.Empty ∧ d'.hour = d.hour ∧ d'.day = d.day ∨
      ¬ r.Empty ∧ (∀ t i, slot d'.hour t i = r.row t i) ∧ (∀ t i, slot d'.day t i = r.row t i) ∧
        d'.hour.bind TierMeta.timestamp = r.timestamp ∧
        d'.day.bind TierMeta.timestamp = r.timestamp)
    (week : ∀ t i, slot d'.week t i =
      mergeSlot (mergeSlot (slot d.hour t i) (slot d.day t i)) (slot d.week t i))

section Version

variable {f : (t : Typ) → TypeFiles t} {a b : ℤ} {ts : Option ℤ} {v : ℕ} {old : Option TierMeta}

lemma writeTierVersion_eq : writeTierVersion f a b ts v =
    if totalRows f = 0 then none else some ⟨v, a, b, ts, f⟩ := rfl

lemma byid_nil_of_totalRows (h : totalRows f = 0) (t : Typ) : (f t).byid = [] := by
  unfold totalRows at h
  cases t <;> exact List.eq_nil_of_length_eq_zero (by omega)

lemma lookup_of_totalRows (hf : ∀ t, InStep (f t)) (h : totalRows f = 0) (t : Typ) (i : ℤ) :
    deltaById i (f t).spatial = none := by
  have hs := (hf t).same i
  rw [byid_nil_of_totalRows h t] at hs
  simpa using hs.symm

/-- A tier that is written has the new rows; one that is not written would have had none. -/
lemma slot_write (hf : ∀ t, InStep (f t)) (t : Typ) (i : ℤ)
    (hold : deltaById i (f t).spatial = none → slot old t i = none) :
    slot ((writeTierVersion f a b ts v).or old) t i = deltaById i (f t).spatial := by
  rw [writeTierVersion_eq]
  by_cases h : totalRows f = 0
  · have hn := lookup_of_totalRows hf h t i
    rw [if_pos h, Option.none_or, hn, hold hn]
  · rw [if_neg h]; rfl

lemma good_write (hf : ∀ t, InStep (f t)) (hold : ∀ m, old = some m → MetaGood m) :
    ∀ m, (writeTierVersion f a b ts v).or old = some m → MetaGood m := by
  intro m hm
  rw [writeTierVersion_eq] at hm
  by_cases h : totalRows f = 0
  · rw [if_pos h, Option.none_or] at hm; exact hold m hm
  · rw [if_neg h, Option.some_or] at hm
    cases hm
    exact ⟨hf, h⟩

end Version

lemma mergeSlot_eq_none {α : Type} {n o : Option (DeltaRow α)} (h : mergeSlot n o = none) :
    n = none ∧ o = none := by
  cases n with
  | none => exact ⟨rfl, h⟩
  | some n => simp [mergeSlot] at h

section Merge

variable {f : (t : Typ) → TypeFiles t} {old : Option TierMeta}

lemma inStep_merge (hf : ∀ t, InStep (f t)) (ho : ∀ m, old = some m → MetaGood m) (t : Typ) :
    InStep (mergeType (f t) (old.map fun m => m.files t)) := by
  cases old with
  | none => exact hf t
  | some m => exact inStep_mergeType (hf t) ((ho m rfl).inStep t)

lemma lookup_merge (hf : ∀ t, InStep (f t)) (ho : ∀ m, old = some m → MetaGood m) (t : Typ)
    (i : ℤ) : deltaById i (mergeType (f t) (old.map fun m => m.files t)).spatial =
      mergeSlot (deltaById i (f t).spatial) (slot old t i) := by
  cases old with
  | none =>
    show deltaById i (f t).spatial = mergeSlot (deltaById i (f t).spatial) none
    cases deltaById i (f t).spatial <;> rfl
  | some m => exact deltaById_mergeType_spatial (hf t) ((ho m rfl).inStep t) i

/-- The row of an id in a tier that another is merged into. -/
lemma slot_merge {a b : ℤ} {ts : Option ℤ} {v : ℕ} (hf : ∀ t, InStep (f t))
    (ho : ∀ m, old = some m → MetaGood m) (t : Typ) (i : ℤ) :
    slot ((writeTierVersion (fun t => mergeType (f t) (old.map fun m => m.files t)) a b ts v).or
      old) t i = mergeSlot (deltaById i (f t).spatial) (slot old t i) := by
  have hl := lookup_merge hf ho t i
  refine (slot_write (fun t => inStep_merge hf ho t) t i fun hn => ?_).trans hl
  rw [hl] at hn
  exact (mergeSlot_eq_none hn).2

lemma byid_nil_of_lookup {t : Typ} {g : TypeFiles t} (hg : InStep g)
    (h : ∀ i, deltaById i g.spatial = none) : g.byid = [] := by
  refine List.eq_nil_iff_forall_not_mem.mpr fun x hx => ?_
  have hs := hg.same x.id
  rw [h, Option.map_none] at hs
  exact lookup_eq_none.mp hs (List.mem_map_of_mem hx)

/-- A merge has a row if one of the two had. -/
lemma totalRows_merge_eq_zero (hf : ∀ t, InStep (f t)) (ho : ∀ m, old = some m → MetaGood m)
    (h : totalRows (fun t => mergeType (f t) (old.map fun m => m.files t)) = 0) :
    totalRows f = 0 ∧ ∀ m, old = some m → totalRows m.files = 0 := by
  have hnone : ∀ t i, deltaById i (f t).spatial = none ∧ slot old t i = none := by
    intro t i
    have hm := lookup_of_totalRows (fun t => inStep_merge hf ho t) h t i
    rw [lookup_merge hf ho] at hm
    exact mergeSlot_eq_none hm
  refine ⟨?_, fun m hm => ?_⟩
  · have hnil : ∀ t, (f t).byid = [] := fun t => byid_nil_of_lookup (hf t) fun i => (hnone t i).1
    simp [totalRows, hnil]
  · have hnil : ∀ t, (m.files t).byid = [] := by
      intro t
      refine byid_nil_of_lookup ((ho m hm).inStep t) fun i => ?_
      have hs := (hnone t i).2
      rwa [hm, slot_some] at hs
    simp [totalRows, hnil]

end Merge

variable {d : Deltas} {r : TierRun}

lemma totalRows_batch : totalRows (batchFiles r.resolved) = 0 ↔ r.Empty := by
  constructor
  · intro h t
    have := byid_nil_of_totalRows h t
    simpa [batchFiles] using this
  · intro h
    simp [totalRows, batchFiles, h .node, h .way, h .relation]

/-- A tier that starts from the batch, or stays because the batch has no row. -/
lemma slot_batch (r : TierRun) (a b : ℤ) (v : ℕ) (old : Option TierMeta) :
    r.Empty ∧ (writeTierVersion (batchFiles r.resolved) a b r.timestamp v).or old = old ∨
      ¬ r.Empty ∧ (∀ t i, slot ((writeTierVersion (batchFiles r.resolved) a b r.timestamp v).or
        old) t i = r.row t i) ∧ ((writeTierVersion (batchFiles r.resolved) a b r.timestamp v).or
        old).bind TierMeta.timestamp = r.timestamp := by
  rw [writeTierVersion_eq]
  by_cases he : r.Empty
  · rw [if_pos (totalRows_batch.mpr he)]
    exact Or.inl ⟨he, Option.none_or⟩
  · rw [if_neg fun h => he (totalRows_batch.mp h)]
    exact Or.inr ⟨he, fun _ _ => rfl, rfl⟩

lemma writes_stay (hg : Good d) (hr : r.OneRow) (hc : (tierCrossings d r.timestamp).1 = false) :
    Writes d r (writeHour d r.resolved r.firstSeq r.lastSeq r.timestamp) := by
  have hb : ∀ t, InStep (batchFiles r.resolved t) := fun t => inStep_batchFiles (hr t)
  refine .stay hc (fun t i => slot_merge hb hg.hour t i) rfl rfl ?_
  simp only [writeHour, writeTierVersion_eq]
  rcases hh : d.hour with _ | m
  · split
    · exact Or.inl rfl
    · exact Or.inr rfl
  · have ht : totalRows (fun t => mergeType (batchFiles r.resolved t)
        ((some m).map fun m => m.files t)) ≠ 0 := fun h0 =>
      (hg.hour m hh).rows ((totalRows_merge_eq_zero hb (hh ▸ hg.hour) h0).2 m rfl)
    rw [if_neg ht]
    exact Or.inr rfl

lemma writes_foldHour (hg : Good d) {hour : TierMeta} (hh : d.hour = some hour)
    (hc : tierCrossings d r.timestamp = (true, false)) :
    Writes d r (writeFold d hour false r.resolved r.firstSeq r.lastSeq r.timestamp) := by
  have hhg := hg.hour hour hh
  refine .foldHour hc (slot_batch _ _ _ _ _) (fun t i => ?_) rfl ?_
  · rw [hh, slot_some]
    exact slot_merge hhg.inStep hg.day t i
  · -- the hour tier is not empty, so neither is what the day tier becomes
    have hne : totalRows (fun t => mergeType (hour.files t) (d.day.map fun m => m.files t)) ≠ 0 :=
      fun h0 => hhg.rows (totalRows_merge_eq_zero hhg.inStep hg.day h0).1
    simp only [writeFold, writeTierVersion_eq, Bool.false_eq_true, if_false]
    rw [if_neg hne, hh]; rfl

lemma writes_foldDay (hg : Good d) {hour : TierMeta} (hh : d.hour = some hour)
    (hc : tierCrossings d r.timestamp = (true, true)) :
    Writes d r (writeFold d hour true r.resolved r.firstSeq r.lastSeq r.timestamp) := by
  have hhg := hg.hour hour hh
  refine .foldDay hc ?_ fun t i => ?_
  · rcases slot_batch r r.firstSeq r.lastSeq (hour.version + 1) d.hour with ⟨he, h1⟩ | ⟨he, h1, h2⟩
    · rcases slot_batch r r.firstSeq r.lastSeq (d.day.elim 0 TierMeta.version + 1) d.day with
        ⟨-, h3⟩ | ⟨he', -⟩
      · exact Or.inl ⟨he, h1, h3⟩
      · exact absurd he he'
    · rcases slot_batch r r.firstSeq r.lastSeq (d.day.elim 0 TierMeta.version + 1) d.day with
        ⟨he', -⟩ | ⟨-, h3, h4⟩
      · exact absurd he' he
      · exact Or.inr ⟨he, h1, h3, h2, h4⟩
  · rw [hh, slot_some, ← lookup_merge hhg.inStep hg.day]
    exact slot_merge (fun t => inStep_merge hhg.inStep hg.day t) hg.week t i

/-- **What a run does.** -/
theorem writes (hg : Good d) (hr : r.OneRow) : Writes d r (runTiers d r) := by
  unfold runTiers writeTiers
  split
  · rename_i hour dc hh hc
    cases dc with
    | false => exact writes_foldHour hg hh hc
    | true => exact writes_foldDay hg hh hc
  · rename_i hx
    refine writes_stay hg hr ?_
    rcases hh : d.hour with _ | hour
    · simp [tierCrossings, hh, crossed]
    · rcases hc : tierCrossings d r.timestamp with ⟨hc1, hc2⟩
      cases hc1 with
      | false => rfl
      | true => exact absurd hc (hx hour hc2 hh)

/-- **A run keeps the tier files well formed.** -/
theorem good_runTiers (hg : Good d) (hr : r.OneRow) : Good (runTiers d r) := by
  have hb : ∀ t, InStep (batchFiles r.resolved t) := fun t => inStep_batchFiles (hr t)
  unfold runTiers writeTiers
  split
  · rename_i hour dc hh hc
    have hhg := hg.hour hour hh
    have hday := fun t => inStep_merge (fun t => hhg.inStep t) hg.day t
    cases dc with
    | false => exact ⟨good_write hb hg.hour, good_write hday hg.day, hg.week⟩
    | true =>
      exact ⟨good_write hb hg.hour, good_write hb hg.day,
        good_write (fun t => inStep_merge hday hg.week t) hg.week⟩
  · exact ⟨good_write (fun t => inStep_merge hb hg.hour t) hg.hour, hg.day, hg.week⟩

lemma good_runAll {rs : List TierRun} (hg : Good d) (hrs : ∀ r ∈ rs, r.OneRow) :
    Good (runAll d rs) := by
  induction rs generalizing d with
  | nil => exact hg
  | cons r rs ih =>
    exact ih (good_runTiers hg (hrs r (by simp))) fun r' h => hrs r' (by simp [h])

/-! ### The winning row -/

/-- The row of an id in the newest tier that has one. -/
def winner (d : Deltas) (t : Typ) (i : ℤ) : Option (DeltaRow (SpatialCols t)) :=
  (slot d.hour t i).or ((slot d.day t i).or (slot d.week t i))

/-- What the tiers change of the base. -/
def changes (d : Deltas) (t : Typ) : Layer ℤ (Option (Row (SpatialCols t))) :=
  fun i => (winner d t i).map DeltaRow.alive

/-- What a batch changes. -/
def TierRun.changes (r : TierRun) (t : Typ) : Layer ℤ (Option (Row (SpatialCols t))) :=
  fun i => (r.row t i).map DeltaRow.alive

lemma map_alive_mergeSlot {α : Type} (n o : Option (DeltaRow α)) :
    (mergeSlot n o).map DeltaRow.alive = (n.map DeltaRow.alive).or (o.map DeltaRow.alive) := by
  cases n with
  | none => simp [mergeSlot]
  | some n => simp [mergeSlot]

/-- What one tier changes of the base. -/
def tierChanges (m : Option TierMeta) (t : Typ) : Layer ℤ (Option (Row (SpatialCols t))) :=
  fun i => (slot m t i).map DeltaRow.alive

lemma changes_eq (d : Deltas) (t : Typ) : changes d t =
    overlay (tierChanges d.hour t) (overlay (tierChanges d.day t) (tierChanges d.week t)) := by
  funext i
  simp only [changes, winner, overlay_apply, tierChanges, Option.map_or]

lemma row_of_empty (h : r.Empty) (t : Typ) (i : ℤ) : r.row t i = none := by
  simp [TierRun.row, h t]

lemma changes_of_empty (h : r.Empty) (t : Typ) : r.changes t = silent := by
  funext i
  simp [TierRun.changes, row_of_empty h, silent]

/-- **One run puts its batch over the tiers**, whatever it folds. -/
theorem changes_runTiers (hg : Good d) (hr : r.OneRow) (t : Typ) :
    changes (runTiers d r) t = overlay (r.changes t) (changes d t) := by
  have merge : ∀ {m : Option TierMeta} {n o : (t : Typ) → ℤ → Option (DeltaRow (SpatialCols t))},
      (∀ t i, slot m t i = mergeSlot (n t i) (o t i)) → tierChanges m t =
        overlay (fun i => (n t i).map DeltaRow.alive) fun i => (o t i).map DeltaRow.alive := by
    intro m n o h
    funext i
    simp only [tierChanges, h t i, map_alive_mergeSlot, overlay_apply]
  have only : ∀ {m : Option TierMeta}, (∀ t i, slot m t i = r.row t i) →
      tierChanges m t = r.changes t := by
    intro m h
    funext i
    simp only [tierChanges, h t i, TierRun.changes]
  rw [changes_eq, changes_eq]
  rcases writes hg hr with ⟨-, hh, hd, hw, -⟩ | ⟨-, hh, hd, hw, -⟩ | ⟨-, hh, hw⟩
  · rw [merge hh, hd, hw, overlay_assoc]; rfl
  · rw [merge hd, hw]
    rcases hh with ⟨he, h1⟩ | ⟨-, h1, -⟩
    · rw [h1, changes_of_empty he, silent_overlay]
      exact overlay_self_below
    · rw [only h1, overlay_assoc]; rfl
  · have hw' : tierChanges (runTiers d r).week t = overlay (overlay (tierChanges d.hour t)
        (tierChanges d.day t)) (tierChanges d.week t) := by
      rw [merge hw]
      congr 1
      funext i
      rw [map_alive_mergeSlot]; rfl
    rw [hw']
    rcases hh with ⟨he, h1, h2⟩ | ⟨-, h1, h2, -⟩
    · rw [h1, h2, changes_of_empty he, silent_overlay]
      exact overlay_absorb
    · rw [only h1, only h2, overlay_overlay_self, overlay_assoc]

/-- The batches of a sequence of runs, the last one on top. -/
def stacked (rs : List TierRun) (t : Typ) : Layer ℤ (Option (Row (SpatialCols t))) :=
  rs.foldl (fun c r => overlay (r.changes t) c) silent

/-- **The tiers are the batches, the later over the earlier.** -/
theorem changes_runAll {rs : List TierRun} (hrs : ∀ r ∈ rs, r.OneRow) (t : Typ) :
    changes (runAll Deltas.empty rs) t = stacked rs t := by
  induction rs using List.reverseRecOn with
  | nil => rfl
  | append_singleton rs r ih =>
    have hrs' : ∀ r ∈ rs, r.OneRow := fun r' h => hrs r' (by simp [h])
    rw [runAll_append, runAll_cons, runAll_nil,
      changes_runTiers (good_runAll good_empty hrs') (hrs r (by simp)), ih hrs', stacked, stacked,
      List.foldl_append]
    rfl

end OsmParquet.TierSteps
