import OsmParquet.Resolves

/-!
The cells an element leaves behind.

Readers that look at one cell, and the compactor, learn from `prev_cell` in which cell of the
base an element may still be stored. Of the rows an element has in the tiers the oldest one
carries this cell, whatever the runs were: that is what first-write-wins is for.
-/

namespace OsmParquet.PrevCells

open OsmParquet.KeyedList OsmParquet.Layers OsmParquet.Rows OsmParquet.Tiers OsmParquet.TierSteps
open OsmParquet.ByidReads OsmParquet.Updater OsmParquet.Resolves

variable {α : Type}

/-- The rows of one element, the newest first. -/
def rowsOf (h d w : Option (DeltaRow α)) : List (DeltaRow α) := h.toList ++ (d.toList ++ w.toList)

/-- The rows an element has in the tiers, the newest first. -/
def tierRows (d : Deltas) (t : Typ) (i : ℤ) : List (DeltaRow (SpatialCols t)) :=
  rowsOf (slot d.hour t i) (slot d.day t i) (slot d.week t i)

lemma head_tierRows (d : Deltas) (t : Typ) (i : ℤ) : (tierRows d t i).head? = winner d t i := by
  unfold tierRows rowsOf winner
  cases slot d.hour t i <;> cases slot d.day t i <;> cases slot d.week t i <;> rfl

/-- A tier row that gives the element also gives it a cell. -/
def Placed (r : DeltaRow α) : Prop := r.deleted = false → r.cols.isSome ∧ r.cell.isSome

/-- Every row is placed, and the oldest one remembers the cell `b`. -/
structure Remembers (b : Option Cell) (rows : List (DeltaRow α)) : Prop where
  placed : ∀ r ∈ rows, Placed r
  oldest : ∀ r, rows.getLast? = some r → r.prevCell = b

/-- The cell of an element in the base. -/
def baseCell (b : Base) (t : Typ) (i : ℤ) : Option Cell := (byId i (b.byid t).rows).bind Row.cell

/-- The tiers remember the cell of every element in the base. -/
def TiersRemember (s : Root) : Prop :=
  ∀ t i, Remembers (baseCell s.base t i) (tierRows s.deltas t i)

lemma placed_keepPrevCell {β : Type} {n : DeltaRow α} (h : Placed n) (o : Option (DeltaRow β)) :
    Placed (keepPrevCell n o) := by
  intro hd
  rw [keepPrevCell_deleted] at hd
  rw [keepPrevCell_cols, keepPrevCell_cell]
  exact h hd

lemma placed_mergeSlot {n o : Option (DeltaRow α)} (hn : ∀ r, n = some r → Placed r)
    (ho : ∀ r, o = some r → Placed r) : ∀ r, mergeSlot n o = some r → Placed r := by
  intro r hr
  cases n with
  | none => exact ho r hr
  | some n =>
    obtain rfl : keepPrevCell n o = r := by simpa [mergeSlot] using hr
    exact placed_keepPrevCell (hn n rfl) o

@[simp] lemma keepPrevCell_prevCell {β : Type} (n : DeltaRow α) (o : DeltaRow β) :
    (keepPrevCell n (some o)).prevCell = o.prevCell := rfl

section OneElement

variable {b : Option Cell} {n h d w : Option (DeltaRow α)}

lemma mem_rowsOf {r : DeltaRow α} : r ∈ rowsOf h d w ↔ h = some r ∨ d = some r ∨ w = some r := by
  simp [rowsOf]

/-- The oldest row after the batch is merged into the hour tier. -/
lemma oldest_stay (hold : ∀ r, (rowsOf h d w).getLast? = some r → r.prevCell = b)
    (hn : ∀ r, n = some r → rowsOf h d w = [] → r.prevCell = b) :
    ∀ r, (rowsOf (mergeSlot n h) d w).getLast? = some r → r.prevCell = b := by
  cases n <;> cases h <;> cases d <;> cases w <;> simp_all [rowsOf, mergeSlot, keepPrevCell]

/-- The oldest row after the hour tier is folded into the day tier. -/
lemma oldest_foldHour {h' : Option (DeltaRow α)}
    (hold : ∀ r, (rowsOf h d w).getLast? = some r → r.prevCell = b)
    (hn : ∀ r, h' = some r → rowsOf h d w = [] → r.prevCell = b) :
    ∀ r, (rowsOf h' (mergeSlot h d) w).getLast? = some r → r.prevCell = b := by
  cases h' <;> cases h <;> cases d <;> cases w <;> simp_all [rowsOf, mergeSlot, keepPrevCell]

/-- The oldest row after both are folded into the week tier. -/
lemma oldest_foldDay {h' d' : Option (DeltaRow α)}
    (hold : ∀ r, (rowsOf h d w).getLast? = some r → r.prevCell = b)
    (hh : ∀ r, h' = some r → rowsOf h d w = [] → r.prevCell = b)
    (hd : ∀ r, d' = some r → rowsOf h d w = [] → r.prevCell = b) :
    ∀ r, (rowsOf h' d' (mergeSlot (mergeSlot h d) w)).getLast? = some r → r.prevCell = b := by
  cases h' <;> cases d' <;> cases h <;> cases d <;> cases w <;>
    simp_all [rowsOf, mergeSlot, keepPrevCell]

end OneElement

section Step

variable {s : Root} {r : TierRun}

lemma winner_eq_none {d : Deltas} {t : Typ} {i : ℤ} :
    winner d t i = none ↔ tierRows d t i = [] := by
  rw [← head_tierRows, List.head?_eq_none_iff]

/-- An element without tier rows is as the base has it. -/
lemma cur_of_no_rows {t : Typ} {i : ℤ} (h : tierRows s.deltas t i = []) :
    cur s t i = byId i (s.base.byid t).rows := by
  rw [cur, current_eq, winner_eq_none.mpr h]
  rfl

lemma mem_resolved {t : Typ} {i : ℤ} {n : DeltaRow (SpatialCols t)} (h : r.row t i = some n) :
    n ∈ r.resolved t ∧ n.id = i :=
  ⟨mem_of_lookup h, key_of_lookup h⟩

/-- A row that is the first of its element in the tiers remembers the base cell. -/
lemma prevCell_first (hR : ResolvedFor s r.resolved) {t : Typ} {i : ℤ}
    {n : DeltaRow (SpatialCols t)} (hn : r.row t i = some n) (h : tierRows s.deltas t i = []) :
    n.prevCell = baseCell s.base t i := by
  obtain ⟨hm, hid⟩ := mem_resolved hn
  rw [hR.prev t n hm, hid, cur_of_no_rows h]
  rfl

lemma placed_of_resolved (hR : ResolvedFor s r.resolved) {t : Typ} {i : ℤ} :
    ∀ n, r.row t i = some n → Placed n :=
  fun n hn hd => hR.live t n (mem_resolved hn).1 hd

lemma placed_slots {b : Option Cell} {h d w : Option (DeltaRow α)}
    (hm : Remembers b (rowsOf h d w)) :
    (∀ r, h = some r → Placed r) ∧ (∀ r, d = some r → Placed r) ∧ (∀ r, w = some r → Placed r) :=
  ⟨fun r hr => hm.placed r (mem_rowsOf.mpr (Or.inl hr)),
    fun r hr => hm.placed r (mem_rowsOf.mpr (Or.inr (Or.inl hr))),
    fun r hr => hm.placed r (mem_rowsOf.mpr (Or.inr (Or.inr hr)))⟩

lemma remembers_mk {b : Option Cell} {h d w : Option (DeltaRow α)} (hh : ∀ r, h = some r → Placed r)
    (hd : ∀ r, d = some r → Placed r) (hw : ∀ r, w = some r → Placed r)
    (hl : ∀ r, (rowsOf h d w).getLast? = some r → r.prevCell = b) : Remembers b (rowsOf h d w) where
  placed := by
    intro r hr
    rcases mem_rowsOf.mp hr with h1 | h1 | h1
    · exact hh r h1
    · exact hd r h1
    · exact hw r h1
  oldest := hl

/-- **A run keeps the memory of the base cells.** -/
theorem tiersRemember_runTiers (hg : Good s.deltas) (hm : TiersRemember s)
    (hR : ResolvedFor s r.resolved) : TiersRemember { s with deltas := runTiers s.deltas r } := by
  intro t i
  have hmi := hm t i
  obtain ⟨ph, pd, pw⟩ := placed_slots hmi
  have pn := @placed_of_resolved s r hR t i
  have hfirst : ∀ n, r.row t i = some n → rowsOf (slot s.deltas.hour t i) (slot s.deltas.day t i)
      (slot s.deltas.week t i) = [] → n.prevCell = baseCell s.base t i := fun n hn h =>
    prevCell_first hR hn h
  have hkeep : ∀ m : Option TierMeta, (slot m t i = slot s.deltas.hour t i ∨
      slot m t i = slot s.deltas.day t i) → ∀ n, slot m t i = some n →
      rowsOf (slot s.deltas.hour t i) (slot s.deltas.day t i) (slot s.deltas.week t i) = [] →
      n.prevCell = baseCell s.base t i := by
    intro m hmm n hn h0
    have hmem : n ∈ rowsOf (slot s.deltas.hour t i) (slot s.deltas.day t i)
        (slot s.deltas.week t i) := by
      rcases hmm with e | e
      · exact mem_rowsOf.mpr (Or.inl (e ▸ hn))
      · exact mem_rowsOf.mpr (Or.inr (Or.inl (e ▸ hn)))
    rw [h0] at hmem
    cases hmem
  show Remembers _ (rowsOf _ _ _)
  rcases writes hg hR.once with ⟨-, hh, hd, hw, -⟩ | ⟨-, hh, hd, hw, -⟩ | ⟨-, hh, hw⟩
  · rw [hh, hd, hw]
    exact remembers_mk (placed_mergeSlot pn ph) pd pw (oldest_stay hmi.oldest hfirst)
  · rw [hd, hw]
    rcases hh with ⟨-, h1⟩ | ⟨-, h1, -⟩
    · rw [h1]
      exact remembers_mk ph (placed_mergeSlot ph pd) pw
        (oldest_foldHour hmi.oldest (hkeep _ (Or.inl rfl)))
    · rw [h1]
      exact remembers_mk pn (placed_mergeSlot ph pd) pw (oldest_foldHour hmi.oldest hfirst)
  · rw [hw]
    have pw' := placed_mergeSlot (placed_mergeSlot ph pd) pw
    rcases hh with ⟨-, h1, h2⟩ | ⟨-, h1, h2, -⟩
    · rw [h1, h2]
      exact remembers_mk ph pd pw' (oldest_foldDay hmi.oldest (hkeep _ (Or.inl rfl))
        (hkeep _ (Or.inr rfl)))
    · rw [h1, h2]
      exact remembers_mk pn pn pw' (oldest_foldDay hmi.oldest hfirst hfirst)

end Step

/-- A base no run has been applied to. -/
def fresh (b : Base) : Root := ⟨b, Deltas.empty⟩

lemma good_fresh (b : Base) : Good (fresh b).deltas := good_empty

lemma tiersRemember_fresh (b : Base) : TiersRemember (fresh b) := by
  intro t i
  constructor
  · intro r hr; simp [tierRows, rowsOf, fresh, Deltas.empty] at hr
  · intro r hr; simp [tierRows, rowsOf, fresh, Deltas.empty] at hr

/-- **Along every sequence of runs the tiers remember the base cells.** -/
theorem tiersRemember_runs (b : Base) (fs : List Fetched) : TiersRemember (runs (fresh b) fs) := by
  induction fs using List.reverseRecOn with
  | nil => exact tiersRemember_fresh b
  | append_singleton fs f ih =>
    have hg := good_runs (good_fresh b) fs
    rw [runs_append, runs_singleton]
    rcases runOnce_cases hg f with h | ⟨hR, h⟩
    · rw [h]; exact ih
    · rw [h]; exact tiersRemember_runTiers hg ih hR

end OsmParquet.PrevCells
