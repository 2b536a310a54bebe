import OsmParquet.Layers
import OsmParquet.Rows

/-!
The rolling delta tiers of the updater.

A run of the updater resolves a batch of replication diffs to one new row for every
element it touches, and writes these rows into three tiers of delta files. The batch goes
into the hour tier. When the batch's timestamp lies in another UTC hour than the tier's,
the hour tier is first folded into the day tier and starts again from the batch; when it
also lies in another day, the day tier is folded into the week tier. Folding keeps the
newer row of an id, with the `prev_cell` of the older one.

A tier version that would have no row at all is not written, and then the tier keeps the
version it had.

A timestamp is the number of seconds since the epoch, or nothing when the source gives
none that can be parsed. The order of the rows in a file is left out: every reader selects
by id or by cell.
-/

namespace OsmParquet.Tiers

open OsmParquet.KeyedList OsmParquet.Layers OsmParquet.Rows

/-- The by-id and the spatial delta file of one element type in one tier version. -/
structure TypeFiles (t : Typ) where
  byid : List (DeltaRow (ByidCols t))
  spatial : List (DeltaRow (SpatialCols t))

/-- The rows a run resolves, in the columns of the spatial schema. -/
abbrev Resolved := (t : Typ) → List (DeltaRow (SpatialCols t))

/-- A published tier version. -/
structure TierMeta where
  version : ℕ
  seqFrom : ℤ
  seqTo : ℤ
  timestamp : Option ℤ
  files : (t : Typ) → TypeFiles t

/-- The `deltas` of a manifest. -/
structure Deltas where
  hour : Option TierMeta
  day : Option TierMeta
  week : Option TierMeta

/-- No tiers: a base generation no run has been applied to. -/
def Deltas.empty : Deltas := ⟨none, none, none⟩

/-- The files of a batch: its by-id rows are the by-id columns of the resolved ones. -/
def batchFiles (resolved : Resolved) (t : Typ) : TypeFiles t :=
  ⟨(resolved t).map (DeltaRow.map byidCols), resolved t⟩

/-- `prev_cell` is first-write-wins: the one an older row recorded survives. -/
def keepPrevCell {α β : Type} (n : DeltaRow α) (o : Option (DeltaRow β)) : DeltaRow α :=
  match o with
  | some o => { n with prevCell := o.prevCell }
  | none => n

/-- An old spatial row with the flags of the old by-id row it belongs to. -/
def withFlags {α β : Type} (ob : DeltaRow β) (os : DeltaRow α) : DeltaRow α :=
  { os with deleted := ob.deleted, prevCell := ob.prevCell, seq := ob.seq }

/-- `merge(new, old)`: the new row of an id wins. -/
def mergeType {t : Typ} (new : TypeFiles t) : Option (TypeFiles t) → TypeFiles t
  | none => new
  | some old =>
    { byid :=
        (leftJoin (fun n o => o.id = n.id) new.byid old.byid).map
            (fun p => keepPrevCell p.1 p.2) ++
          without DeltaRow.id (new.byid.map DeltaRow.id) old.byid
      spatial :=
        (leftJoin (fun n ob => ob.id = n.id) new.spatial old.byid).map
            (fun p => keepPrevCell p.1 p.2) ++
          (innerJoin (fun ob os => os.id = ob.id)
              (without DeltaRow.id (new.byid.map DeltaRow.id) old.byid) old.spatial).map
            fun p => withFlags p.1 p.2 }

/-- The tier version with these files, or nothing when they have no by-id row. -/
def writeTierVersion (merged : (t : Typ) → TypeFiles t) (seqFrom seqTo : ℤ)
    (timestamp : Option ℤ) (version : ℕ) : Option TierMeta :=
  if (merged .node).byid.length + (merged .way).byid.length + (merged .relation).byid.length = 0
  then none
  else some ⟨version, seqFrom, seqTo, timestamp, merged⟩

def floorHour (dt : ℤ) : ℤ := dt - dt % 3600

def floorDay (dt : ℤ) : ℤ := dt - dt % 86400

/-- Whether both instants are known and `floor` tells them apart. -/
def crossed (floor : ℤ → ℤ) (old batch : Option ℤ) : Bool :=
  match old, batch with
  | some o, some b => floor o ≠ floor b
  | _, _ => false

/-- Whether the batch lies in another hour than the hour tier, and then also in another day
than the day tier. -/
def tierCrossings (d : Deltas) (batchTimestamp : Option ℤ) : Bool × Bool :=
  let hourCrossed := crossed floorHour (d.hour.bind TierMeta.timestamp) batchTimestamp
  (hourCrossed,
    hourCrossed && crossed floorDay (d.day.bind TierMeta.timestamp) batchTimestamp)

/-- The smaller of an optional number and a number. -/
def minSeq (a : Option ℤ) (b : ℤ) : ℤ := a.elim b fun a => min a b

/-- A run without a crossing: the batch is merged into the hour tier. -/
def writeHour (d : Deltas) (resolved : Resolved) (firstSeq lastSeq : ℤ)
    (batchTimestamp : Option ℤ) : Deltas :=
  let merged t := mergeType (batchFiles resolved t) (d.hour.map fun m => m.files t)
  let seqFrom := d.hour.elim firstSeq TierMeta.seqFrom
  let version := d.hour.elim 0 TierMeta.version + 1
  { d with hour := (writeTierVersion merged seqFrom lastSeq batchTimestamp version).or d.hour }

/-- A run that crosses an hour: the hour tier is folded into the day tier and, if a day is
crossed too, into the week tier; the hour tier, and then the day tier, start again from the
batch. -/
def writeFold (d : Deltas) (hour : TierMeta) (dayCrossed : Bool) (resolved : Resolved)
    (firstSeq lastSeq : ℤ) (batchTimestamp : Option ℤ) : Deltas :=
  let mergedDay t := mergeType (hour.files t) (d.day.map fun m => m.files t)
  let daySeqFrom := minSeq (d.day.map TierMeta.seqFrom) hour.seqFrom
  let dayVersion := d.day.elim 0 TierMeta.version + 1
  let hour' := (writeTierVersion (batchFiles resolved) firstSeq lastSeq batchTimestamp
    (hour.version + 1)).or d.hour
  if dayCrossed then
    let mergedWeek t := mergeType (mergedDay t) (d.week.map fun m => m.files t)
    let weekSeqFrom := minSeq (d.week.map TierMeta.seqFrom) daySeqFrom
    let weekVersion := d.week.elim 0 TierMeta.version + 1
    { hour := hour'
      day := (writeTierVersion (batchFiles resolved) firstSeq lastSeq batchTimestamp
        dayVersion).or d.day
      week := (writeTierVersion mergedWeek weekSeqFrom hour.seqTo hour.timestamp
        weekVersion).or d.week }
  else
    { hour := hour'
      day := (writeTierVersion mergedDay daySeqFrom hour.seqTo hour.timestamp dayVersion).or d.day
      week := d.week }

def writeTiers (d : Deltas) (resolved : Resolved) (firstSeq lastSeq : ℤ)
    (batchTimestamp : Option ℤ) : Deltas :=
  match d.hour, tierCrossings d batchTimestamp with
  | some hour, (true, dayCrossed) =>
      writeFold d hour dayCrossed resolved firstSeq lastSeq batchTimestamp
  | _, _ => writeHour d resolved firstSeq lastSeq batchTimestamp

/-- The rows of the tombstones file for one type: what the tier moved out of a cell or
deleted from it. -/
def tombstones (m : TierMeta) (t : Typ) : List (DeltaRow (ByidCols t)) :=
  (m.files t).byid.filter fun r =>
    r.prevCell.isSome && ((r.cell.isSome && r.prevCell != r.cell) || r.deleted)

/-! ### One id at a time -/

/-- The two copies list the same rows, one row an id. -/
structure InStep {t : Typ} (f : TypeFiles t) : Prop where
  byid : Distinct DeltaRow.id f.byid
  spatial : Distinct DeltaRow.id f.spatial
  same : ∀ i, deltaById i f.byid = (deltaById i f.spatial).map (DeltaRow.map byidCols)

/-- One row an id in each copy, for the same ids. -/
structure SameIds {t : Typ} (f : TypeFiles t) : Prop where
  byid : Distinct DeltaRow.id f.byid
  spatial : Distinct DeltaRow.id f.spatial
  ids : ∀ i, i ∈ f.byid.map DeltaRow.id ↔ i ∈ f.spatial.map DeltaRow.id

/-- What a merge does to the rows of one id. -/
def mergeSlot {α : Type} : Option (DeltaRow α) → Option (DeltaRow α) → Option (DeltaRow α)
  | some n, o => some (keepPrevCell n o)
  | none, o => o

/-- What a merge does to the spatial rows of one id, with the by-id row of the older tier. -/
def spatialSlot {α β : Type} (n : Option (DeltaRow α)) (ob : Option (DeltaRow β))
    (os : Option (DeltaRow α)) : Option (DeltaRow α) :=
  match n with
  | some n => some (keepPrevCell n ob)
  | none => ob.bind fun ob => os.map (withFlags ob)

/-- The row of an id in a tier. -/
def slot (m : Option TierMeta) (t : Typ) (i : ℤ) : Option (DeltaRow (SpatialCols t)) :=
  m.bind fun m => deltaById i (m.files t).spatial

@[simp] lemma slot_none (t : Typ) (i : ℤ) : slot none t i = none := rfl

@[simp] lemma slot_some (m : TierMeta) (t : Typ) (i : ℤ) :
    slot (some m) t i = deltaById i (m.files t).spatial := rfl

@[simp] lemma keepPrevCell_id {α β : Type} (n : DeltaRow α) (o : Option (DeltaRow β)) :
    (keepPrevCell n o).id = n.id := by cases o <;> rfl

@[simp] lemma keepPrevCell_cell {α β : Type} (n : DeltaRow α) (o : Option (DeltaRow β)) :
    (keepPrevCell n o).cell = n.cell := by cases o <;> rfl

@[simp] lemma keepPrevCell_deleted {α β : Type} (n : DeltaRow α) (o : Option (DeltaRow β)) :
    (keepPrevCell n o).deleted = n.deleted := by cases o <;> rfl

@[simp] lemma keepPrevCell_cols {α β : Type} (n : DeltaRow α) (o : Option (DeltaRow β)) :
    (keepPrevCell n o).cols = n.cols := by cases o <;> rfl

@[simp] lemma alive_keepPrevCell {α β : Type} (n : DeltaRow α) (o : Option (DeltaRow β)) :
    (keepPrevCell n o).alive = n.alive := by cases o <;> rfl

lemma map_keepPrevCell {α β γ : Type} (f : α → γ) (n : DeltaRow α) (o : Option (DeltaRow β)) :
    (keepPrevCell n o).map f = keepPrevCell (n.map f) o := by cases o <;> rfl

lemma keepPrevCell_map {α β γ : Type} (f : β → γ) (n : DeltaRow α) (o : Option (DeltaRow β)) :
    keepPrevCell n (o.map (DeltaRow.map f)) = keepPrevCell n o := by cases o <;> rfl

section Merge

variable {t : Typ} {new old : TypeFiles t}

lemma id_of_join {l : List (DeltaRow (SpatialCols t))} {ob : DeltaRow (ByidCols t)}
    {x : DeltaRow (SpatialCols t)}
    (h : Option.map (fun p => withFlags p.1 p.2)
      (Option.map (fun b => (ob, b)) (lookup DeltaRow.id ob.id l)) = some x) : x.id = ob.id := by
  obtain ⟨p, hp, rfl⟩ := Option.map_eq_some_iff.mp h
  obtain ⟨os, hos, rfl⟩ := Option.map_eq_some_iff.mp hp
  have hid : os.id = ob.id := key_of_lookup hos
  exact hid

lemma map_keepPrevCell_join {α : Type} (hu : Distinct DeltaRow.id old.byid)
    (l : List (DeltaRow α)) :
    (leftJoin (fun n o => decide (o.id = n.id)) l old.byid).map (fun p => keepPrevCell p.1 p.2) =
      l.map fun n => keepPrevCell n (deltaById n.id old.byid) := by
  rw [leftJoin_eq_map hu, List.map_map]
  rfl

lemma deltaById_mergeType_byid (ho : Distinct DeltaRow.id old.byid) (i : ℤ) :
    deltaById i (mergeType new (some old)).byid
      = mergeSlot (deltaById i new.byid) (deltaById i old.byid) := by
  have hl : deltaById i (new.byid.map fun n => keepPrevCell n (deltaById n.id old.byid))
      = (deltaById i new.byid).map fun n => keepPrevCell n (deltaById n.id old.byid) :=
    lookup_map fun a => keepPrevCell_id _ _
  have hj := map_keepPrevCell_join ho new.byid
  simp only [mergeType, deltaById] at *
  rw [hj, lookup_append, hl, lookup_without]
  rcases hn : lookup DeltaRow.id i new.byid with _ | n
  · simp [mergeSlot, lookup_eq_none.mp hn]
  · simp [mergeSlot, key_of_lookup hn]

/-- The merged spatial file, one id at a time. -/
lemma deltaById_mergeType_spatial_of_ids (hn : SameIds new) (ho : SameIds old) (i : ℤ) :
    deltaById i (mergeType new (some old)).spatial = spatialSlot (deltaById i new.spatial)
      (deltaById i old.byid) (deltaById i old.spatial) := by
  have hl : deltaById i (new.spatial.map fun n => keepPrevCell n (deltaById n.id old.byid))
      = (deltaById i new.spatial).map fun n => keepPrevCell n (deltaById n.id old.byid) :=
    lookup_map fun a => keepPrevCell_id _ _
  have hj := map_keepPrevCell_join ho.byid new.spatial
  have hids : i ∈ new.byid.map DeltaRow.id ↔ (lookup DeltaRow.id i new.spatial).isSome :=
    (hn.ids i).trans lookup_isSome.symm
  simp only [mergeType, deltaById] at *
  rw [hj, lookup_append, hl, innerJoin_eq_filterMap ho.spatial, List.map_filterMap]
  rw [Distinct.lookup_filterMap (ho.byid.without _) fun ob x h => id_of_join h, lookup_without]
  rcases hns : lookup DeltaRow.id i new.spatial with _ | n
  · rw [hns] at hids
    rw [if_neg (by simpa using hids)]
    rcases hob : lookup DeltaRow.id i old.byid with _ | ob
    · rfl
    · obtain rfl : ob.id = i := key_of_lookup hob
      rcases hos : lookup DeltaRow.id ob.id old.spatial with _ | os <;> simp [spatialSlot, hos]
  · have hid : n.id = i := key_of_lookup hns
    rw [Option.map_some, Option.some_or, spatialSlot, hid]

lemma distinct_mergeType_byid (hn : Distinct DeltaRow.id new.byid)
    (ho : Distinct DeltaRow.id old.byid) :
    Distinct DeltaRow.id (mergeType new (some old)).byid := by
  simp only [mergeType]
  rw [leftJoin_eq_map ho, List.map_map]
  refine distinct_append ((distinct_map fun a => keepPrevCell_id _ _).mpr hn)
    (ho.filter _) fun x hx hx' => (mem_map_without.mp hx).2 ?_
  simpa [Function.comp_def] using hx'

lemma mem_ids_iff (hs : InStep new) (i : ℤ) :
    i ∈ new.byid.map DeltaRow.id ↔ i ∈ new.spatial.map DeltaRow.id := by
  rw [← lookup_isSome, ← lookup_isSome]
  have := hs.same i
  simp only [deltaById] at this
  rw [this, Option.isSome_map]

lemma InStep.sameIds (h : InStep new) : SameIds new := ⟨h.byid, h.spatial, mem_ids_iff h⟩

lemma distinct_mergeType_spatial (hn : SameIds new) (ho : SameIds old) :
    Distinct DeltaRow.id (mergeType new (some old)).spatial := by
  simp only [mergeType]
  rw [leftJoin_eq_map ho.byid, List.map_map, innerJoin_eq_filterMap ho.spatial, List.map_filterMap]
  refine distinct_append ((distinct_map fun a => keepPrevCell_id _ _).mpr hn.spatial)
    ((ho.byid.without _).filterMap fun ob x h => id_of_join h) fun x hx hx' => ?_
  obtain ⟨r, hr, rfl⟩ := List.mem_map.mp hx
  obtain ⟨ob, hob, hobr⟩ := List.mem_filterMap.mp hr
  have hnot := (mem_map_without.mp (List.mem_map_of_mem hob)).2
  rw [id_of_join hobr, List.map_map] at hx'
  refine hnot ((hn.ids _).mpr ?_)
  simpa [Function.comp_def] using hx'

/-- The merged spatial file of tiers whose copies have the same rows. -/
lemma deltaById_mergeType_spatial (hn : InStep new) (ho : InStep old) (i : ℤ) :
    deltaById i (mergeType new (some old)).spatial
      = mergeSlot (deltaById i new.spatial) (deltaById i old.spatial) := by
  rw [deltaById_mergeType_spatial_of_ids hn.sameIds ho.sameIds, ho.same]
  rcases deltaById i new.spatial with _ | n
  · -- the flags written are those of the by-id copy of this very row
    rcases deltaById i old.spatial with _ | os <;>
      simp [spatialSlot, mergeSlot, withFlags, DeltaRow.map]
  · rw [spatialSlot, mergeSlot, keepPrevCell_map]

/-- **A merge keeps the two copies in step.** -/
lemma inStep_mergeType (hn : InStep new) (ho : InStep old) : InStep (mergeType new (some old)) where
  byid := distinct_mergeType_byid hn.byid ho.byid
  spatial := distinct_mergeType_spatial hn.sameIds ho.sameIds
  same := by
    intro i
    rw [deltaById_mergeType_byid ho.byid, deltaById_mergeType_spatial hn ho, hn.same, ho.same]
    rcases deltaById i new.spatial with _ | n
    · rfl
    · simp [mergeSlot, keepPrevCell_map, map_keepPrevCell]

end Merge

lemma inStep_batchFiles {resolved : Resolved} {t : Typ} (h : Distinct DeltaRow.id (resolved t)) :
    InStep (batchFiles resolved t) where
  byid := (distinct_map fun _ => DeltaRow.map_id _ _).mpr h
  spatial := h
  same := fun _ => lookup_map fun _ => DeltaRow.map_id _ _

end OsmParquet.Tiers
