import OsmParquet.TierSteps

/-!
Merging tiers, whichever are merged first.

A merge takes the payload of the newer row and the `prev_cell` of the older one, so among any number
of rows of an id the newest payload and the oldest `prev_cell` remain. The spatial copy gets its
flags through joins with the by-id copy; it needs the same ids there, and nothing else.
-/

namespace OsmParquet.TierMerge

open OsmParquet.KeyedList OsmParquet.Rows OsmParquet.Tiers OsmParquet.TierSteps

/-- What both copies of a tier say of a row beside its payload. -/
def flags {α : Type} (r : DeltaRow α) : ℤ × Bool × Option Cell × ℤ :=
  (r.id, r.deleted, r.prevCell, r.seq)

/-- What a row says of its element, without the cell it was in before. -/
def payload {α : Type} (r : DeltaRow α) : ℤ × Option α × Option Cell × Bool × ℤ :=
  (r.id, r.cols, r.cell, r.deleted, r.seq)

/-- The same flags in both copies. -/
def SameFlags {t : Typ} (f : TypeFiles t) : Prop := (f.byid.map flags).Perm (f.spatial.map flags)

/-! ### Rows of one id -/

section Slots

variable {α β : Type}

@[simp] lemma mergeSlot_none (o : Option (DeltaRow α)) : mergeSlot none o = o := rfl

lemma mergeSlot_assoc (a b c : Option (DeltaRow α)) :
    mergeSlot (mergeSlot a b) c = mergeSlot a (mergeSlot b c) := by
  cases a <;> cases b <;> cases c <;> rfl

/-- Merging the same row once more changes nothing. -/
lemma mergeSlot_absorb (a b : Option (DeltaRow α)) :
    mergeSlot a (mergeSlot a b) = mergeSlot a b := by
  cases a <;> cases b <;> rfl

/-- Nor does a row that is under another already. -/
lemma mergeSlot_absorb_under (a b c : Option (DeltaRow α)) :
    mergeSlot a (mergeSlot b (mergeSlot (mergeSlot a b) c)) = mergeSlot (mergeSlot a b) c := by
  cases a <;> cases b <;> cases c <;> rfl

/-- The payload is that of the newer row. -/
lemma payload_mergeSlot (a b : Option (DeltaRow α)) :
    (mergeSlot a b).map payload = (a.or b).map payload := by
  cases a <;> cases b <;> rfl

lemma isSome_mergeSlot (a b : Option (DeltaRow α)) :
    (mergeSlot a b).isSome = (a.isSome || b.isSome) := by
  cases a <;> cases b <;> rfl

lemma isSome_spatialSlot (n : Option (DeltaRow α)) (ob : Option (DeltaRow β))
    (os : Option (DeltaRow α)) :
    (spatialSlot n ob os).isSome = (n.isSome || (ob.isSome && os.isSome)) := by
  cases n <;> cases ob <;> cases os <;> rfl

/-- The spatial rows of three tiers, if the older two have by-id rows for the same ids. -/
lemma spatialSlot_assoc (a b c : Option (DeltaRow α)) (b' c' : Option (DeltaRow β))
    (hb : b'.isSome = b.isSome) :
    spatialSlot (spatialSlot a b' b) c' c = spatialSlot a (mergeSlot b' c')
      (spatialSlot b c' c) := by
  cases a <;> cases b <;> cases b' <;> cases hb <;> cases c <;> cases c' <;> rfl

/-- What is merged in keeps the flags of the copies the same. -/
lemma flags_spatialSlot {n' ob : Option (DeltaRow β)} {n os : Option (DeltaRow α)}
    (hn : n'.map flags = n.map flags) (ho : ob.isSome = os.isSome)
    (hid : ∀ x ∈ ob, ∀ y ∈ os, x.id = y.id) :
    (mergeSlot n' ob).map flags = (spatialSlot n ob os).map flags := by
  rcases n' with _ | n' <;> rcases n with _ | n
  · rcases ob with _ | ob <;> rcases os with _ | os
    · rfl
    · cases ho
    · cases ho
    · simp [mergeSlot, spatialSlot, flags, withFlags, hid ob rfl os rfl]
  · cases hn
  · cases hn
  · -- the flags of the newer row, and what the older by-id row had in both copies
    simp only [Option.map_some, Option.some.injEq, flags, Prod.mk.injEq] at hn
    obtain ⟨hi, hd, hp, hs⟩ := hn
    rcases ob with _ | ob <;> simp [mergeSlot, spatialSlot, keepPrevCell, flags, hi, hd, hp, hs]

end Slots

/-! ### Tiers -/

section Merge

variable {t : Typ} {batch new old hour day f g : TypeFiles t}

lemma isSome_byid (h : SameIds f) (i : ℤ) :
    (deltaById i f.byid).isSome = (deltaById i f.spatial).isSome := by
  have hids := h.ids i
  rw [← lookup_isSome, ← lookup_isSome] at hids
  exact Bool.eq_iff_iff.mpr hids

/-- A merge has the ids of both. -/
lemma sameIds_mergeType (hn : SameIds new) (ho : SameIds old) :
    SameIds (mergeType new (some old)) where
  byid := distinct_mergeType_byid hn.byid ho.byid
  spatial := distinct_mergeType_spatial hn ho
  ids := by
    intro i
    rw [← lookup_isSome, ← lookup_isSome]
    have hb : deltaById i (mergeType new (some old)).byid = _ := deltaById_mergeType_byid ho.byid i
    have hs := deltaById_mergeType_spatial_of_ids hn ho i
    simp only [deltaById] at hb hs
    rw [hb, hs, isSome_mergeSlot, isSome_spatialSlot]
    have h₁ := isSome_byid hn i
    have h₂ := isSome_byid ho i
    simp only [deltaById] at h₁ h₂
    rw [h₁, h₂, Bool.and_self]

/-- The flags are the same exactly if those of every id are. -/
lemma sameFlags_iff (h : SameIds f) :
    SameFlags f ↔ ∀ i, (deltaById i f.byid).map flags = (deltaById i f.spatial).map flags := by
  have hkey : ∀ {α : Type} (a : DeltaRow α), (flags a).1 = DeltaRow.id a := fun _ => rfl
  have hb := (distinct_map (f := flags) hkey).mpr h.byid
  have hs := (distinct_map (f := flags) hkey).mpr h.spatial
  constructor
  · intro hperm i
    have hcongr := Distinct.lookup_congr (k := i) hb hs fun b => hperm.mem_iff
    rwa [lookup_map hkey, lookup_map hkey] at hcongr
  · intro hall
    refine Distinct.perm hb hs fun i => ?_
    rw [lookup_map hkey, lookup_map hkey]
    exact hall i

/-- **Merging keeps the flags of the two copies the same**, if the newer tier's are. -/
lemma sameFlags_mergeType (hn : SameIds new) (ho : SameIds old) (hf : SameFlags new) :
    SameFlags (mergeType new (some old)) := by
  refine (sameFlags_iff (sameIds_mergeType hn ho)).mpr fun i => ?_
  rw [deltaById_mergeType_byid ho.byid, deltaById_mergeType_spatial_of_ids hn ho]
  refine flags_spatialSlot ((sameFlags_iff hn).mp hf i) (isSome_byid ho i) fun x hx y hy => ?_
  exact (key_of_lookup hx).trans (key_of_lookup hy).symm

/-- Tiers with the same rows of every id are the same up to the order of the rows. -/
lemma perm_of_slots (hf : SameIds f) (hg : SameIds g)
    (hb : ∀ i, deltaById i f.byid = deltaById i g.byid)
    (hs : ∀ i, deltaById i f.spatial = deltaById i g.spatial) :
    f.byid.Perm g.byid ∧ f.spatial.Perm g.spatial :=
  ⟨hf.byid.perm hg.byid hb, hf.spatial.perm hg.spatial hs⟩

/-- **A merge of three tiers may begin with the newer two or with the older two.** -/
theorem mergeType_assoc (hb : SameIds batch) (hh : SameIds hour) (hd : SameIds day) :
    (mergeType (mergeType batch (some hour)) (some day)).byid.Perm
        (mergeType batch (some (mergeType hour (some day)))).byid ∧
      (mergeType (mergeType batch (some hour)) (some day)).spatial.Perm
        (mergeType batch (some (mergeType hour (some day)))).spatial := by
  have hbh := sameIds_mergeType hb hh
  have hhd := sameIds_mergeType hh hd
  refine perm_of_slots (sameIds_mergeType hbh hd) (sameIds_mergeType hb hhd) (fun i => ?_) fun i =>
    ?_
  · rw [deltaById_mergeType_byid hd.byid, deltaById_mergeType_byid hh.byid,
      deltaById_mergeType_byid hhd.byid, deltaById_mergeType_byid hd.byid, mergeSlot_assoc]
  · rw [deltaById_mergeType_spatial_of_ids hbh hd, deltaById_mergeType_spatial_of_ids hb hh,
      deltaById_mergeType_spatial_of_ids hb hhd, deltaById_mergeType_byid hd.byid,
      deltaById_mergeType_spatial_of_ids hh hd]
    exact spatialSlot_assoc _ _ _ _ _ (isSome_byid hh i)

end Merge

/-! ### Runs -/

section Runs

variable {d : Deltas} {r : TierRun} {rs : List TierRun} {t : Typ} {i : ℤ}

/-- The row of an id that all tiers give together: the winner with the oldest `prev_cell`. -/
def whole (d : Deltas) (t : Typ) (i : ℤ) : Option (DeltaRow (SpatialCols t)) :=
  mergeSlot (slot d.hour t i) (mergeSlot (slot d.day t i) (slot d.week t i))

/-- **A run merges its batch into the whole**, whatever it folds. -/
lemma whole_runTiers (hg : Good d) (hr : r.OneRow) (t : Typ) (i : ℤ) :
    whole (runTiers d r) t i = mergeSlot (r.row t i) (whole d t i) := by
  unfold whole
  rcases writes hg hr with ⟨-, hh, hd, hw, -⟩ | ⟨-, hh, hd, hw, -⟩ | ⟨-, hh, hw⟩
  · rw [hh, hd, hw, mergeSlot_assoc]
  · rw [hd, hw]
    rcases hh with ⟨he, h1⟩ | ⟨-, h1, -⟩
    · -- the batch is empty, and the hour tier stays although it has been folded
      rw [h1, row_of_empty he, mergeSlot_none, mergeSlot_assoc, mergeSlot_absorb]
    · rw [h1, mergeSlot_assoc]
  · rw [hw]
    rcases hh with ⟨he, h1, h2⟩ | ⟨-, h1, h2, -⟩
    · rw [h1, h2, row_of_empty he, mergeSlot_none, mergeSlot_absorb_under, mergeSlot_assoc]
    · rw [h1, h2, mergeSlot_absorb, mergeSlot_assoc (slot d.hour t i)]

/-- **The tiers after any runs are the batches, merged one after the other.** -/
theorem whole_runAll (hrs : ∀ r ∈ rs, r.OneRow) (t : Typ) (i : ℤ) :
    whole (runAll Deltas.empty rs) t i = rs.foldl (fun o r => mergeSlot (r.row t i) o) none := by
  induction rs using List.reverseRecOn with
  | nil => rfl
  | append_singleton rs r ih =>
    have hrs' : ∀ r ∈ rs, r.OneRow := fun r' h => hrs r' (by simp [h])
    rw [runAll_append, runAll_cons, runAll_nil,
      whole_runTiers (good_runAll good_empty hrs') (hrs r (by simp)), ih hrs', List.foldl_append]
    rfl

/-- The whole has the payload of the winning row. -/
lemma payload_whole (d : Deltas) (t : Typ) (i : ℤ) :
    (whole d t i).map payload = (winner d t i).map payload := by
  unfold whole winner
  rw [payload_mergeSlot, Option.map_or, payload_mergeSlot, ← Option.map_or]

/-- **Folds do not matter**: runs with the same batches give the same rows, whatever their times. -/
lemma whole_of_batches {rs' : List TierRun} (hrs : ∀ r ∈ rs, r.OneRow)
    (hsame : rs.map TierRun.resolved = rs'.map TierRun.resolved) (t : Typ) (i : ℤ) :
    whole (runAll Deltas.empty rs) t i = whole (runAll Deltas.empty rs') t i := by
  have hrs' : ∀ r ∈ rs', r.OneRow := by
    intro r' hr'
    obtain ⟨r, hr, heq⟩ := List.mem_map.mp (hsame ▸ List.mem_map_of_mem (f := TierRun.resolved) hr')
    have hone := hrs r hr
    unfold TierRun.OneRow at hone ⊢
    rwa [heq] at hone
  have hfold : ∀ l : List TierRun, l.foldl (fun o r => mergeSlot (r.row t i) o) none =
      (l.map TierRun.resolved).foldl (fun o rows => mergeSlot (deltaById i (rows t)) o) none := by
    intro l
    rw [List.foldl_map]
    rfl
  rw [whole_runAll hrs, whole_runAll hrs', hfold, hfold, hsame]

end Runs

/-! ### The laws -/

section Laws

variable {t : Typ} {batch hour day : TypeFiles t}

/-- **The laws of the merge.** One row an id and the same ids stay, the flags of the copies stay the
same if the newer tier's are, the newer payload and the older `prev_cell` win, the order of merging
does not matter, and so neither does when the updater folds its tiers. -/
theorem merge_laws (hb : SameIds batch) (hh : SameIds hour) (hd : SameIds day) :
    SameIds (mergeType batch (some hour)) ∧
    (SameFlags batch → SameFlags (mergeType batch (some hour))) ∧
    (∀ i, deltaById i (mergeType batch (some hour)).byid =
      mergeSlot (deltaById i batch.byid) (deltaById i hour.byid)) ∧
    (∀ i, deltaById i (mergeType batch (some hour)).spatial =
      spatialSlot (deltaById i batch.spatial) (deltaById i hour.byid) (deltaById i hour.spatial)) ∧
    (mergeType (mergeType batch (some hour)) (some day)).byid.Perm
      (mergeType batch (some (mergeType hour (some day)))).byid ∧
    (mergeType (mergeType batch (some hour)) (some day)).spatial.Perm
      (mergeType batch (some (mergeType hour (some day)))).spatial ∧
    ∀ rs rs' : List TierRun, (∀ r ∈ rs, r.OneRow) →
      rs.map TierRun.resolved = rs'.map TierRun.resolved →
      ∀ t i, whole (runAll Deltas.empty rs) t i = whole (runAll Deltas.empty rs') t i ∧
        (winner (runAll Deltas.empty rs) t i).map payload =
          (winner (runAll Deltas.empty rs') t i).map payload := by
  obtain ⟨hbyid, hspatial⟩ := mergeType_assoc hb hh hd
  refine ⟨sameIds_mergeType hb hh, sameFlags_mergeType hb hh,
    fun i => deltaById_mergeType_byid hh.byid i,
      fun i => deltaById_mergeType_spatial_of_ids hb hh i, hbyid, hspatial, ?_⟩
  intro rs rs' hrs hsame t i
  have hwhole := whole_of_batches hrs hsame t i
  refine ⟨hwhole, ?_⟩
  rw [← payload_whole, ← payload_whole, hwhole]

end Laws

/-- A node that is gone, and the cell it was in. -/
def gone (id : ℤ) (cell : Cell) (seq : ℤ) : DeltaRow NodeCols :=
  ⟨id, none, none, true, some cell, seq⟩

/-- The node 1 is in the batch and in the hour tier, the node 2 in the hour and the day tier. -/
theorem merge_laws_gone :
    (mergeType (mergeType (t := .node) ⟨[gone 1 [3] 9], [gone 1 [3] 9]⟩
          (some ⟨[gone 1 [2] 5, gone 2 [1] 5], [gone 2 [1] 5, gone 1 [2] 5]⟩))
        (some ⟨[gone 2 [0] 2], [gone 2 [0] 2]⟩)).byid.Perm
      [gone 1 [2] 9, gone 2 [0] 5] := by
  have hb : SameIds (t := .node) ⟨[gone 1 [3] 9], [gone 1 [3] 9]⟩ :=
    ⟨by decide, by decide, fun _ => Iff.rfl⟩
  have hh : SameIds (t := .node) ⟨[gone 1 [2] 5, gone 2 [1] 5], [gone 2 [1] 5, gone 1 [2] 5]⟩ := by
    refine ⟨by decide, by decide, fun i => ?_⟩
    simp [gone, or_comm]
  have hd : SameIds (t := .node) ⟨[gone 2 [0] 2], [gone 2 [0] 2]⟩ :=
    ⟨by decide, by decide, fun _ => Iff.rfl⟩
  exact (merge_laws hb hh hd).2.2.2.2.1.trans (by decide)

/-- The same ids are not enough for the flags: a batch may delete a node in one copy only. -/
theorem flags_differ : ¬ ∀ {t : Typ} {new old : TypeFiles t}, SameIds new → SameIds old →
    SameFlags (mergeType new (some old)) := by
  intro h
  have hnew : SameIds (t := .node) ⟨[gone 1 [3] 9], [{ gone 1 [3] 9 with deleted := false }]⟩ :=
    ⟨by decide, by decide, fun _ => Iff.rfl⟩
  have hold : SameIds (t := .node) ⟨[], []⟩ := ⟨by decide, by decide, fun _ => Iff.rfl⟩
  have hflags := h hnew hold
  unfold SameFlags at hflags
  exact absurd hflags (by decide)

end OsmParquet.TierMerge
