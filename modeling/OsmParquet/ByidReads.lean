import Mathlib.Order.Lattice
import Mathlib.Algebra.Order.Ring.Int
import OsmParquet.TierSteps

/-!
Reading rows by id: the base parts with the tiers over them.

The base keeps the rows of a type in parts, each with the range of its ids. The engine and
the updater both look ids up by the precedence hour over day over week over base. Over any
sequence of runs, with any batches and any timestamps, this is the plain map one gets by
applying the rows of each run in order.
-/

namespace OsmParquet.ByidReads

open OsmParquet.KeyedList OsmParquet.Layers OsmParquet.Rows OsmParquet.Tiers OsmParquet.TierSteps

variable {α : Type}

/-- A by-id file with the id range the manifest records for it. -/
structure ByidPart (α : Type) where
  minId : ℤ
  maxId : ℤ
  rows : List (Row α)
  le : minId ≤ maxId
  unique : Distinct Row.id rows
  inRange : ∀ r ∈ rows, minId ≤ r.id ∧ r.id ≤ maxId

/-- The by-id parts of a type, cut from rows in ascending order of id. -/
structure ByidTable (α : Type) where
  parts : List (ByidPart α)
  sorted : parts.Pairwise fun p q => p.maxId < q.minId

def ByidTable.rows (b : ByidTable α) : List (Row α) := b.parts.flatMap ByidPart.rows

/-- The parts whose id range meets `[lo, hi]`. -/
def selectParts (parts : List (ByidPart α)) (lo hi : ℤ) : List (ByidPart α) :=
  parts.filter fun p => ¬ (p.maxId < lo ∨ p.minId > hi)

/-- The rows of the parts whose range meets that of `ids`. -/
def partsForIds (parts : List (ByidPart α)) (ids : List ℤ) : List (Row α) :=
  match ids.min?, ids.max? with
  | some lo, some hi => (selectParts parts lo hi).flatMap ByidPart.rows
  | _, _ => []

/-- The present tiers, the newest first. -/
def deltaTiers (d : Deltas) : List TierMeta := [d.hour, d.day, d.week].filterMap id

/-- The updater's view of the tiers: for every id the row of the newest tier. -/
def rawView (d : Deltas) (t : Typ) : List (DeltaRow (ByidCols t)) :=
  firstPerKey DeltaRow.id ((deltaTiers d).flatMap fun m => (m.files t).byid)

def aliveView (d : Deltas) (t : Typ) : List (Row (ByidCols t)) := aliveRows (rawView d t)

/-- The current rows of `ids`, as the updater fetches them. -/
def fetchCurrent {t : Typ} (b : ByidTable (ByidCols t)) (d : Deltas) (ids : List ℤ) :
    List (Row (ByidCols t)) :=
  if ids = [] then []
  else
    (aliveView d t).filter (fun r => r.id ∈ ids) ++
      (partsForIds b.parts ids).filter fun r =>
        r.id ∈ ids ∧ r.id ∉ (rawView d t).map DeltaRow.id

/-- The current rows among `baseRows` and the tiers whose id and payload pass. -/
def byidCurrentRows {t : Typ} (d : Deltas) (baseRows : List (Row (ByidCols t))) (idPred : ℤ → Bool)
    (tagWhere : ByidCols t → Bool) : List (Row (ByidCols t)) :=
  if (deltaTiers d).isEmpty then baseRows.filter fun r => idPred r.id && tagWhere r.cols
  else
    let cand := firstPerKey DeltaRow.id
      ((deltaTiers d).flatMap fun m => (m.files t).byid.filter fun r => idPred r.id)
    (baseRows.filter fun r =>
        idPred r.id && tagWhere r.cols && decide (r.id ∉ cand.map DeltaRow.id)) ++
      (aliveRows cand).filter fun r => tagWhere r.cols

/-- The rows of `ids`, as the engine selects them. -/
def buildByidSelect {t : Typ} (b : ByidTable (ByidCols t)) (d : Deltas) (ids : List ℤ)
    (tagWhere : ByidCols t → Bool) : List (Row (ByidCols t)) :=
  if ids = [] then []
  else byidCurrentRows d (partsForIds b.parts ids) (fun i => i ∈ ids) tagWhere

/-! ### The base -/

lemma distinct_rows (b : ByidTable α) : Distinct Row.id b.rows := by
  obtain ⟨parts, hs⟩ := b
  simp only [ByidTable.rows]
  induction parts with
  | nil => simp
  | cons p ps ih =>
    obtain ⟨hp, hps⟩ := List.pairwise_cons.mp hs
    rw [List.flatMap_cons]
    refine distinct_append p.unique (ih hps) fun x hx hx' => ?_
    obtain ⟨r, hr, rfl⟩ := List.mem_map.mp hx
    obtain ⟨q, hq, hrq⟩ := List.mem_flatMap.mp hr
    obtain ⟨r', hr', he⟩ := List.mem_map.mp hx'
    have h1 := (q.inRange r hrq).1
    have h2 := (p.inRange r' hr').2
    have h3 := hp q hq
    omega

/-- No part that is left out has an id in the range. -/
lemma byId_selectParts (parts : List (ByidPart α)) {lo hi i : ℤ} (h1 : lo ≤ i) (h2 : i ≤ hi) :
    byId i ((selectParts parts lo hi).flatMap ByidPart.rows) =
      byId i (parts.flatMap ByidPart.rows) := by
  induction parts with
  | nil => rfl
  | cons p ps ih =>
    simp only [byId] at ih ⊢
    rw [List.flatMap_cons, lookup_append, ← ih]
    by_cases hp : p.maxId < lo ∨ p.minId > hi
    · have hnone : lookup Row.id i p.rows = none := by
        refine lookup_eq_none.mpr fun hi' => ?_
        obtain ⟨r, hr, rfl⟩ := List.mem_map.mp hi'
        have := p.inRange r hr
        omega
      rw [selectParts, List.filter_cons_of_neg (by simp [hp]), ← selectParts, hnone,
        Option.none_or]
    · rw [selectParts, List.filter_cons_of_pos (by simp [hp]), ← selectParts,
        List.flatMap_cons, lookup_append]

lemma byId_partsForIds (b : ByidTable α) {ids : List ℤ} {i : ℤ} (h : i ∈ ids) :
    byId i (partsForIds b.parts ids) = byId i b.rows := by
  have hne : ids ≠ [] := List.ne_nil_of_mem h
  obtain ⟨lo, hlo⟩ := Option.isSome_iff_exists.mp (List.isSome_min?_of_ne_nil hne)
  obtain ⟨hi, hhi⟩ := Option.isSome_iff_exists.mp (List.isSome_max?_of_ne_nil hne)
  rw [partsForIds, hlo, hhi]
  exact byId_selectParts b.parts ((List.min?_eq_some_iff.mp hlo).2 i h)
    ((List.max?_eq_some_iff.mp hhi).2 i h)

lemma distinct_partsForIds (b : ByidTable α) (ids : List ℤ) :
    Distinct Row.id (partsForIds b.parts ids) := by
  unfold partsForIds
  split
  · exact distinct_rows ⟨_, b.sorted.filter _⟩
  · exact distinct_nil

/-! ### The tiers -/

lemma lookup_deltaTiers {γ : Type} (key : γ → ℤ) (d : Deltas) (f : TierMeta → List γ) (i : ℤ) :
    lookup key i ((deltaTiers d).flatMap f) =
      (d.hour.bind fun m => lookup key i (f m)).or
        ((d.day.bind fun m => lookup key i (f m)).or
          (d.week.bind fun m => lookup key i (f m))) := by
  obtain ⟨hour, day, week⟩ := d
  cases hour <;> cases day <;> cases week <;>
    simp [deltaTiers, lookup_append]

variable {d : Deltas} {t : Typ}

/-- The by-id rows of the tiers are those of the spatial files, with fewer columns. -/
lemma lookup_tiersByid (hg : Good d) (i : ℤ) :
    deltaById i ((deltaTiers d).flatMap fun m => (m.files t).byid) =
      (winner d t i).map (DeltaRow.map byidCols) := by
  have hslot : ∀ {m : Option TierMeta}, (∀ x, m = some x → MetaGood x) →
      (m.bind fun m => deltaById i (m.files t).byid) =
      (slot m t i).map (DeltaRow.map byidCols) := by
    intro m hm
    cases m with
    | none => rfl
    | some m => exact ((hm m rfl).inStep t).same i
  simp only [deltaById] at hslot ⊢
  rw [lookup_deltaTiers, hslot hg.hour, hslot hg.day, hslot hg.week, winner, Option.map_or,
    Option.map_or]

lemma deltaById_rawView (hg : Good d) (i : ℤ) :
    deltaById i (rawView d t) = (winner d t i).map (DeltaRow.map byidCols) := by
  rw [← lookup_tiersByid hg]
  exact lookup_firstPerKey

/-- What the tiers change of the by-id base. -/
def byidChanges (d : Deltas) (t : Typ) : Layer ℤ (Option (Row (ByidCols t))) :=
  fun i => (winner d t i).map fun r => (r.map byidCols).alive

/-- The current row of an id: the base read through the tiers. -/
def current (b : ByidTable (ByidCols t)) (d : Deltas) : ℤ → Option (Row (ByidCols t)) :=
  read (byidChanges d t) fun i => byId i b.rows

lemma current_eq (b : ByidTable (ByidCols t)) (d : Deltas) (i : ℤ) : current b d i =
    ((winner d t i).map fun r => (r.map byidCols).alive).getD (byId i b.rows) := rfl

lemma id_of_current {b : ByidTable (ByidCols t)} {i : ℤ} {r : Row (ByidCols t)}
    (hg : Good d) (h : current b d i = some r) : r.id = i := by
  rw [current_eq, ← Function.comp_def, ← Option.map_map, ← deltaById_rawView hg] at h
  rcases hw : deltaById i (rawView d t) with _ | w
  · rw [hw] at h; exact key_of_lookup h
  · rw [hw] at h
    rw [DeltaRow.alive_id h]
    exact key_of_lookup hw

/-- **The updater fetches the current rows.** -/
theorem byId_fetchCurrent (b : ByidTable (ByidCols t)) (hg : Good d) (ids : List ℤ) (i : ℤ) :
    byId i (fetchCurrent b d ids) = if i ∈ ids then current b d i else none := by
  by_cases hids : ids = []
  · subst hids; simp [fetchCurrent]
  have hraw := @deltaById_rawView d t hg i
  have halive : byId i (aliveView d t) = (deltaById i (rawView d t)).bind DeltaRow.alive :=
    byId_aliveRows distinct_firstPerKey i
  have hpred : byId i ((aliveView d t).filter fun r => decide (r.id ∈ ids)) =
      if i ∈ ids then byId i (aliveView d t) else none := by
    simpa using @lookup_filter_key _ _ _ Row.id i (aliveView d t) fun x => decide (x ∈ ids)
  have hbase : byId i ((partsForIds b.parts ids).filter fun r =>
        r.id ∈ ids ∧ r.id ∉ (rawView d t).map DeltaRow.id) =
      if i ∈ ids ∧ i ∉ (rawView d t).map DeltaRow.id then byId i (partsForIds b.parts ids)
      else none := by
    simpa using @lookup_filter_key _ _ _ Row.id i (partsForIds b.parts ids)
      fun x => decide (x ∈ ids ∧ x ∉ (rawView d t).map DeltaRow.id)
  rw [fetchCurrent, if_neg hids]
  simp only [byId] at hpred hbase halive ⊢
  rw [lookup_append, hpred, hbase, halive]
  by_cases hi : i ∈ ids
  · have hp := byId_partsForIds b hi
    simp only [byId] at hp
    rw [if_pos hi, if_pos hi, current_eq, hp]
    rcases hw : winner d t i with _ | w
    · have hnone : deltaById i (rawView d t) = none := by rw [hraw, hw]; rfl
      rw [hnone, if_pos ⟨hi, lookup_eq_none.mp hnone⟩]
      simp
    · have hsome : deltaById i (rawView d t) = some (w.map byidCols) := by rw [hraw, hw]; rfl
      have hmem : i ∈ (rawView d t).map DeltaRow.id := by
        rw [← lookup_isSome]; simp only [deltaById] at hsome; rw [hsome]; rfl
      rw [hsome, if_neg fun h => h.2 hmem]
      simp
  · simp [hi]

lemma distinct_fetchCurrent (b : ByidTable (ByidCols t)) (d : Deltas) (ids : List ℤ) :
    Distinct Row.id (fetchCurrent b d ids) := by
  unfold fetchCurrent
  split
  · exact distinct_nil
  · refine distinct_append ((distinct_aliveRows distinct_firstPerKey).filter _)
      ((distinct_partsForIds b ids).filter _) fun x hx hx' => ?_
    obtain ⟨r, hr, rfl⟩ := List.mem_map.mp hx
    obtain ⟨-, hr2⟩ := List.mem_filter.mp hr
    simp only [decide_eq_true_eq] at hr2
    obtain ⟨a, ha, hae⟩ := List.mem_map.mp hx'
    obtain ⟨w, hw, hwa⟩ := List.mem_filterMap.mp (List.mem_filter.mp ha).1
    refine hr2.2 ?_
    rw [← hae, DeltaRow.alive_id hwa]
    exact List.mem_map_of_mem hw

section Engine

variable {baseRows : List (Row (ByidCols t))} {idPred : ℤ → Bool} {tagWhere : ByidCols t → Bool}

/-- The candidate rows of a by-id read. -/
def byidCand (d : Deltas) (t : Typ) (idPred : ℤ → Bool) : List (DeltaRow (ByidCols t)) :=
  firstPerKey DeltaRow.id
    ((deltaTiers d).flatMap fun m => (m.files t).byid.filter fun r => idPred r.id)

lemma deltaById_byidCand (hg : Good d) (i : ℤ) : deltaById i (byidCand d t idPred) =
    if idPred i then (winner d t i).map (DeltaRow.map byidCols) else none := by
  have hf := @lookup_filter_key _ _ _ DeltaRow.id i
    ((deltaTiers d).flatMap fun m => (m.files t).byid) idPred
  rw [List.filter_flatMap] at hf
  rw [byidCand, ← lookup_tiersByid hg]
  simp only [deltaById] at hf ⊢
  rw [lookup_firstPerKey, hf]

/-- With no tiers the general form of the read is the plain one. -/
lemma byidCurrentRows_eq : byidCurrentRows d baseRows idPred tagWhere =
    (baseRows.filter fun r => idPred r.id && tagWhere r.cols &&
        decide (r.id ∉ (byidCand d t idPred).map DeltaRow.id)) ++
      (aliveRows (byidCand d t idPred)).filter fun r => tagWhere r.cols := by
  unfold byidCurrentRows
  split
  · rename_i h
    have hcand : byidCand d t idPred = [] := by
      rw [byidCand, List.isEmpty_iff.mp h]; rfl
    rw [hcand]
    simp [aliveRows]
  · rfl

/-- **The engine reads the current rows.** -/
theorem byId_byidCurrentRows (hg : Good d) (hu : Distinct Row.id baseRows) (i : ℤ) :
    byId i (byidCurrentRows d baseRows idPred tagWhere) =
      if idPred i then
        (((winner d t i).map fun r => (r.map byidCols).alive).getD (byId i baseRows)).filter
          fun r => tagWhere r.cols
      else none := by
  have hc := @deltaById_byidCand d t idPred hg i
  have hcu : Distinct DeltaRow.id (byidCand d t idPred) := distinct_firstPerKey
  have halive := byId_aliveRows hcu i
  have hbase := @Distinct.lookup_filter _ _ _ Row.id i baseRows hu fun r => idPred r.id &&
    tagWhere r.cols && decide (r.id ∉ (byidCand d t idPred).map DeltaRow.id)
  have hal := @Distinct.lookup_filter _ _ _ Row.id i _ (distinct_aliveRows hcu)
    fun r => tagWhere r.cols
  rw [byidCurrentRows_eq]
  simp only [byId] at halive ⊢
  rw [lookup_append, hbase, hal, halive, hc]
  have hmem : i ∈ (byidCand d t idPred).map DeltaRow.id ↔ (idPred i ∧ (winner d t i).isSome) := by
    rw [← lookup_isSome]
    simp only [deltaById] at hc
    rw [hc]
    by_cases hp : idPred i <;> simp [hp]
  by_cases hp : idPred i
  · rw [if_pos hp, if_pos hp]
    rcases hw : winner d t i with _ | w
    · rw [hw] at hmem
      rcases hb : lookup Row.id i baseRows with _ | r
      · simp
      · have hid : r.id = i := key_of_lookup hb
        by_cases hw' : tagWhere r.cols <;> simp [Option.filter, hid, hp, hmem, hw']
    · rw [hw] at hmem
      have hn : (lookup Row.id i baseRows).filter (fun r => idPred r.id && tagWhere r.cols &&
          decide (r.id ∉ (byidCand d t idPred).map DeltaRow.id)) = none := by
        rcases hb : lookup Row.id i baseRows with _ | r
        · rfl
        · have hid : r.id = i := key_of_lookup hb
          have : i ∈ (byidCand d t idPred).map DeltaRow.id := hmem.mpr ⟨hp, rfl⟩
          simp only [Option.filter, hid, this, not_true_eq_false, decide_false, Bool.and_false]
          rfl
      rw [hn, Option.none_or]
      simp
  · rw [if_neg hp, if_neg hp]
    rcases hb : lookup Row.id i baseRows with _ | r
    · simp
    · have hid : r.id = i := key_of_lookup hb
      simp [Option.filter, hid, hp]

lemma distinct_byidCurrentRows (hu : Distinct Row.id baseRows) :
    Distinct Row.id (byidCurrentRows d baseRows idPred tagWhere) := by
  have hcu : Distinct DeltaRow.id (byidCand d t idPred) := distinct_firstPerKey
  rw [byidCurrentRows_eq]
  refine distinct_append (hu.filter _) ((distinct_aliveRows hcu).filter _) fun x hx hx' => ?_
  obtain ⟨a, ha, rfl⟩ := List.mem_map.mp hx
  obtain ⟨w, hw, hwa⟩ := List.mem_filterMap.mp (List.mem_filter.mp ha).1
  obtain ⟨r, hr, hre⟩ := List.mem_map.mp hx'
  have h2 := (List.mem_filter.mp hr).2
  simp only [Bool.and_eq_true, decide_eq_true_eq] at h2
  refine h2.2 ?_
  rw [hre, DeltaRow.alive_id hwa]
  exact List.mem_map_of_mem hw

theorem byId_buildByidSelect (b : ByidTable (ByidCols t)) (hg : Good d) (ids : List ℤ)
    (tagWhere : ByidCols t → Bool) (i : ℤ) : byId i (buildByidSelect b d ids tagWhere) =
      if i ∈ ids then (current b d i).filter fun r => tagWhere r.cols else none := by
  unfold buildByidSelect
  split
  · rename_i h; subst h; simp
  · rw [byId_byidCurrentRows hg (distinct_partsForIds b ids)]
    by_cases hi : i ∈ ids
    · rw [if_pos (by simpa using hi), if_pos hi, byId_partsForIds b hi, current_eq]
    · rw [if_neg (by simpa using hi), if_neg hi]

lemma distinct_buildByidSelect (b : ByidTable (ByidCols t)) (d : Deltas) (ids : List ℤ)
    (tagWhere : ByidCols t → Bool) : Distinct Row.id (buildByidSelect b d ids tagWhere) := by
  unfold buildByidSelect
  split
  · exact distinct_nil
  · exact distinct_byidCurrentRows (distinct_partsForIds b ids)

end Engine

/-! ### Last writer wins -/

/-- A map with the rows of a batch applied one after the other: an upsert, or a removal when
the row deletes. -/
def applyRows (rows : List (DeltaRow α)) (f : ℤ → Option (Row α)) : ℤ → Option (Row α) :=
  rows.foldl (fun f r => Function.update f r.id r.alive) f

/-- The plain map after a sequence of runs. -/
def lastWriter (b : ByidTable (ByidCols t)) (rs : List TierRun) : ℤ → Option (Row (ByidCols t)) :=
  rs.foldl (fun f r => applyRows ((r.resolved t).map (DeltaRow.map byidCols)) f)
    fun i => byId i b.rows

lemma applyRows_apply {rows : List (DeltaRow α)} (hu : Distinct DeltaRow.id rows)
    (f : ℤ → Option (Row α)) (i : ℤ) :
    applyRows rows f i = ((deltaById i rows).map DeltaRow.alive).getD (f i) := by
  induction rows generalizing f with
  | nil => rfl
  | cons r rows ih =>
    obtain ⟨hr, hrows⟩ := List.nodup_cons.mp hu
    rw [applyRows, List.foldl_cons, ← applyRows, ih hrows]
    simp only [deltaById, lookup_cons]
    by_cases hi : r.id = i
    · subst hi
      simp [lookup_eq_none.mpr hr]
    · rw [if_neg hi, Function.update_of_ne (Ne.symm hi)]

lemma byidChanges_eq (d : Deltas) (t : Typ) (i : ℤ) :
    byidChanges d t i = (changes d t i).map (Option.map (Row.map byidCols)) := by
  simp only [byidChanges, changes, Option.map_map, Function.comp_def, DeltaRow.alive_map]

lemma byidChanges_runTiers {r : TierRun} (hg : Good d) (hr : r.OneRow) (t : Typ) :
    byidChanges (runTiers d r) t =
      overlay (fun i => (r.row t i).map fun x => (x.map byidCols).alive) (byidChanges d t) := by
  funext i
  rw [byidChanges_eq, changes_runTiers hg hr, overlay_apply, overlay_apply, byidChanges_eq,
    Option.map_or, TierRun.changes, Option.map_map]
  congr 1
  simp only [Function.comp_def, DeltaRow.alive_map]

/-- **One run applies its rows to the current ones.** -/
theorem current_runTiers {r : TierRun} (b : ByidTable (ByidCols t)) (hg : Good d) (hr : r.OneRow) :
    current b (runTiers d r) =
      applyRows ((r.resolved t).map (DeltaRow.map byidCols)) (current b d) := by
  funext i
  have hu : Distinct DeltaRow.id ((r.resolved t).map (DeltaRow.map byidCols)) :=
    (distinct_map fun _ => DeltaRow.map_id _ _).mpr (hr t)
  have hl : deltaById i ((r.resolved t).map (DeltaRow.map byidCols)) =
      (r.row t i).map (DeltaRow.map byidCols) := lookup_map fun _ => DeltaRow.map_id _ _
  rw [applyRows_apply hu, hl, current, byidChanges_runTiers hg hr, read_overlay, read_apply,
    Option.map_map]
  rfl

lemma current_runAll (b : ByidTable (ByidCols t)) {rs : List TierRun}
    (hrs : ∀ r ∈ rs, r.OneRow) : current b (runAll Deltas.empty rs) = lastWriter b rs := by
  induction rs using List.reverseRecOn with
  | nil => rfl
  | append_singleton rs r ih =>
    have hrs' : ∀ r ∈ rs, r.OneRow := fun r' h => hrs r' (by simp [h])
    rw [runAll_append, runAll_cons, runAll_nil,
      current_runTiers b (good_runAll good_empty hrs') (hrs r (by simp)), ih hrs', lastWriter,
      lastWriter, List.foldl_append]
    rfl

/-- Every by-id read of the tiers `d` over the base `b` gives the map `f`. -/
structure ReadsAs (b : ByidTable (ByidCols t)) (d : Deltas)
    (f : ℤ → Option (Row (ByidCols t))) : Prop where
  engine : ∀ ids i, byId i (buildByidSelect b d ids fun _ => true) = if i ∈ ids then f i else none
  engineOnce : ∀ ids, Distinct Row.id (buildByidSelect b d ids fun _ => true)
  updater : ∀ ids i, byId i (fetchCurrent b d ids) = if i ∈ ids then f i else none
  updaterOnce : ∀ ids, Distinct Row.id (fetchCurrent b d ids)

/-- **The tier stack refines last-writer-wins.** Whatever the batches and the timestamps,
both by-id reads give the map that applying the runs' rows in order gives, and every tier
file has at most one row an id. -/
theorem tiers_refine_lastWriter (b : (t : Typ) → ByidTable (ByidCols t)) (rs : List TierRun)
    (hrs : ∀ r ∈ rs, r.OneRow) (t : Typ) :
    ReadsAs (b t) (runAll Deltas.empty rs) (lastWriter (b t) rs) ∧
      ∀ m ∈ deltaTiers (runAll Deltas.empty rs), Distinct DeltaRow.id (m.files t).byid ∧
        Distinct DeltaRow.id (m.files t).spatial ∧ Distinct DeltaRow.id (tombstones m t) := by
  have hg := good_runAll good_empty hrs
  refine ⟨⟨fun ids i => ?_, fun ids => distinct_buildByidSelect _ _ _ _, fun ids i => ?_,
    fun ids => distinct_fetchCurrent _ _ _⟩, fun m hm => ?_⟩
  · rw [byId_buildByidSelect (b t) hg, current_runAll (b t) hrs]
    cases lastWriter (b t) rs i <;> simp [Option.filter]
  · rw [byId_fetchCurrent (b t) hg, current_runAll (b t) hrs]
  · have hin : InStep (m.files t) := by
      simp only [deltaTiers, List.mem_filterMap, id, List.mem_cons, List.not_mem_nil,
        or_false] at hm
      obtain ⟨x, rfl | rfl | rfl, hx⟩ := hm
      · exact (hg.hour m hx).inStep t
      · exact (hg.day m hx).inStep t
      · exact (hg.week m hx).inStep t
    exact ⟨hin.byid, hin.spatial, hin.byid.filter _⟩

/-- A node that one run creates and a run in the next hour deletes. -/
def createDelete : List TierRun :=
  [⟨fun
      | .node =>
        [⟨1, some ⟨some ⟨0, 0⟩, ⟨none, [], 1, 1, none, none, ""⟩, 0⟩, some [0], false, none, 1⟩]
      | .way => []
      | .relation => [], 1, 1, some 0⟩,
    ⟨fun
      | .node => [⟨1, none, some [0], true, some [0], 2⟩]
      | .way => []
      | .relation => [], 2, 2, some 3600⟩]

lemma oneRow_createDelete : ∀ r ∈ createDelete, r.OneRow := by
  intro r hr t
  simp only [createDelete, List.mem_cons, List.not_mem_nil, or_false] at hr
  rcases hr with rfl | rfl <;> cases t <;> simp

/-- The day tier has the node and the hour tier its deletion, and both reads miss it. -/
theorem createDelete_reads : (∀ r ∈ createDelete, r.OneRow) ∧
    ReadsAs (t := .node) ⟨[], by simp⟩ (runAll Deltas.empty createDelete)
      (lastWriter ⟨[], by simp⟩ createDelete) :=
  ⟨oneRow_createDelete, (tiers_refine_lastWriter (fun _ => ⟨[], by simp⟩) createDelete
    oneRow_createDelete .node).1⟩

end OsmParquet.ByidReads
