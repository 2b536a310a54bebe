import OsmParquet.Compact

/-!
Runs without changes, and what they leave for compaction.

A run whose batch is empty folds the tiers like any other when it crosses an hour or a day, but
as there is nothing to start the hour tier from, the old hour tier stays; with a day crossed the
old day tier stays too. Such a tier is in the tier below as well. A later run in a new hour
folds it once more, which changes nothing. But a run with changes that still belongs to the old
hour is merged into it, and then `prev_cell` says where the element was before that hour and
not what the tier below has.
-/

namespace OsmParquet.FoldedTiers

open OsmParquet.KeyedList OsmParquet.Layers OsmParquet.Rows OsmParquet.Tiers OsmParquet.TierSteps
open OsmParquet.ByidReads OsmParquet.Updater OsmParquet.Resolves OsmParquet.PrevCells
open OsmParquet.SpatialReads OsmParquet.Compact

/-- Which tiers an empty run has folded into the one below and left in place. -/
inductive Folded
  | none | hour | day
  deriving DecidableEq

/-- The same after one more run. -/
def foldedAfter (m : Folded) (d : Deltas) (r : TierRun) : Folded :=
  match tierCrossings d r.timestamp with
  | (false, _) => m
  | (true, true) => if r.Empty then .day else .none
  | (true, false) => if r.Empty then (if m = .day then .day else .hour) else .none

/-- A run with changes does not write into a tier that has been folded already: it crosses the
hour, or the day, once more. -/
def Timely (m : Folded) (d : Deltas) (r : TierRun) : Prop :=
  r.Empty ∨ m = .none ∨ (m = .hour ∧ (tierCrossings d r.timestamp).1 = true) ∨
    (m = .day ∧ tierCrossings d r.timestamp = (true, true))

def foldedNext (m : Folded) (s : Root) (f : Fetched) : Folded :=
  if f.diffs = [] then m else foldedAfter m s.deltas (tierRun s f)

/-- Every run of a sequence is timely. -/
def AllTimely : Folded → Root → List Fetched → Prop
  | _, _, [] => True
  | m, s, f :: fs => (f.diffs = [] ∨ Timely m s.deltas (tierRun s f)) ∧
      AllTimely (foldedNext m s f) (runOnce s f) fs

/-! ### The rows of one element -/

section OneElement

variable {α : Type}

/-- The cell an element is in, when the row does not delete it. -/
def aliveCell (r : DeltaRow α) : Option Cell := if r.deleted then none else r.cell

/-- The newer row remembers the place the older one gives, or what the older one remembers. -/
def Linked (n o : DeltaRow α) : Prop := n.prevCell = aliveCell o ∨ n.prevCell = o.prevCell

def SamePlace (n o : DeltaRow α) : Prop := o.cell = n.cell ∧ o.deleted = n.deleted

/-- How the rows of an element hang together. A folded tier has its place from the tier
below. -/
def Chained (m : Folded) (h d w : Option (DeltaRow α)) : Prop :=
  match m with
  | .none => (rowsOf h d w).IsChain Linked
  | .hour => (rowsOf none d w).IsChain Linked ∧ ∀ n, h = some n → ∃ o, d = some o ∧ SamePlace n o
  | .day => ∀ n, h.or d = some n → ∃ o, w = some o ∧ SamePlace n o

variable {n h d w : Option (DeltaRow α)} {m : Folded}

/-- A batch row remembers the cell the element is in. -/
def FromCurrent (n h d w : Option (DeltaRow α)) : Prop :=
  ∀ r, n = some r → ∀ x, h.or (d.or w) = some x → r.prevCell = aliveCell x

lemma chained_stay (hc : Chained .none h d w) (hn : FromCurrent n h d w) :
    Chained .none (mergeSlot n h) d w := by
  cases n <;> cases h <;> cases d <;> cases w <;>
    simp_all [Chained, rowsOf, mergeSlot, keepPrevCell, Linked, FromCurrent]

lemma chained_foldHour (hm : m ≠ .day) (hc : Chained m h d w) (hn : FromCurrent n h d w) :
    Chained .none n (mergeSlot h d) w := by
  cases m <;> cases n <;> cases h <;> cases d <;> cases w <;>
    simp_all [Chained, rowsOf, mergeSlot, keepPrevCell, Linked, FromCurrent, aliveCell]

lemma chained_foldHour_empty (hm : m ≠ .day) (hc : Chained m h d w) :
    Chained .hour h (mergeSlot h d) w := by
  cases m <;> cases h <;> cases d <;> cases w <;>
    simp_all [Chained, rowsOf, mergeSlot, keepPrevCell, Linked, SamePlace]

lemma chained_foldHour_day (hc : Chained .day h d w) : Chained .day h (mergeSlot h d) w := by
  cases h <;> cases d <;> cases w <;> simp_all [Chained, mergeSlot, keepPrevCell]

lemma chained_foldDay (hn : FromCurrent n h d w) :
    Chained .none n n (mergeSlot (mergeSlot h d) w) := by
  cases n <;> cases h <;> cases d <;> cases w <;>
    simp_all [Chained, rowsOf, mergeSlot, keepPrevCell, Linked, FromCurrent, aliveCell]

lemma chained_foldDay_empty : Chained .day h d (mergeSlot (mergeSlot h d) w) := by
  cases h <;> cases d <;> cases w <;> simp [Chained, mergeSlot, keepPrevCell, SamePlace]

/-- A row that remembers a cell is a tombstone for it, or has the element there still. -/
lemma tombstone_or_here {r : DeltaRow α} {c : Cell} (hp : Placed r) (h : r.prevCell = some c) :
    isTombstone r ∨ (r.cell = some c ∧ r.deleted = false) := by
  rcases hd : r.deleted with _ | _
  · obtain ⟨c', hc'⟩ := Option.isSome_iff_exists.mp (hp hd).2
    by_cases hcc : c' = c
    · exact Or.inr ⟨by rw [hc', hcc], rfl⟩
    · left
      have : c ≠ c' := fun e => hcc e.symm
      simp [isTombstone, h, hc', this]
  · left
    simp [isTombstone, h, hd]

/-- Along a chain whose oldest row remembers a cell, some row is a tombstone for it or the
newest row is there. -/
lemma tombstone_or_head {rows : List (DeltaRow α)} {c : Cell} (hch : rows.IsChain Linked)
    (hp : ∀ r ∈ rows, Placed r) (hl : ∀ r, rows.getLast? = some r → r.prevCell = some c)
    (hne : rows ≠ []) : (∃ r ∈ rows, isTombstone r ∧ r.prevCell = some c) ∨
      ∃ r, rows.head? = some r ∧ r.prevCell = some c ∧ r.cell = some c ∧ r.deleted = false := by
  induction rows with
  | nil => exact absurd rfl hne
  | cons r rest ih =>
    have hhere : r.prevCell = some c → (∃ r' ∈ r :: rest, isTombstone r' ∧ r'.prevCell = some c) ∨
        ∃ r', (r :: rest).head? = some r' ∧ r'.prevCell = some c ∧ r'.cell = some c ∧
          r'.deleted = false := by
      intro hprev
      rcases tombstone_or_here (hp r (by simp)) hprev with ht | ⟨h1, h2⟩
      · exact Or.inl ⟨r, by simp, ht, hprev⟩
      · exact Or.inr ⟨r, rfl, hprev, h1, h2⟩
    cases rest with
    | nil => exact hhere (hl r rfl)
    | cons r2 rest =>
      obtain ⟨hlink, hch'⟩ := List.isChain_cons_cons.mp hch
      have hl' : ∀ x, (r2 :: rest).getLast? = some x → x.prevCell = some c := by
        intro x hx
        exact hl x (by rw [List.getLast?_cons_cons]; exact hx)
      rcases ih hch' (fun x hx => hp x (by simp [hx])) hl' (by simp) with
        ⟨x, hx, ht⟩ | ⟨x, hx, h1, h2, h3⟩
      · exact Or.inl ⟨x, by simp [hx], ht⟩
      · obtain rfl : r2 = x := by simpa using hx
        refine hhere ?_
        rcases hlink with h | h
        · rw [h, aliveCell, h3, h2]; simp
        · rw [h, h1]

/-- When the hour tier was folded in place, its rows say no more than those of the day tier. -/
lemma names_cell_hour {c : Cell} (hc : Chained .hour h d w) (hr : Remembers (some c) (rowsOf h d w))
    (hne : rowsOf h d w ≠ []) : (∃ r ∈ rowsOf h d w, isTombstone r ∧ r.prevCell = some c) ∨
      ∃ r, (rowsOf h d w).head? = some r ∧ r.cell = some c := by
  obtain ⟨hch, hsame⟩ := hc
  have hlow : rowsOf none d w ≠ [] := by
    rcases hh : h with _ | n
    · rw [hh] at hne; exact hne
    · obtain ⟨o, ho, -⟩ := hsame n hh
      simp [rowsOf, ho]
  have hsub : ∀ r ∈ rowsOf none d w, r ∈ rowsOf h d w := by
    intro r hrm
    rcases mem_rowsOf.mp hrm with h1 | h1
    · cases h1
    · exact mem_rowsOf.mpr (Or.inr h1)
  have hlast : (rowsOf h d w).getLast? = (rowsOf none d w).getLast? := by
    have : rowsOf h d w = h.toList ++ rowsOf none d w := rfl
    rw [this, List.getLast?_append, Option.or_of_isSome]
    rw [Option.isSome_iff_ne_none, Ne, List.getLast?_eq_none_iff]
    exact hlow
  rcases tombstone_or_head hch (fun r hrm => hr.placed r (hsub r hrm))
    (fun r hrl => hr.oldest r (by rw [hlast]; exact hrl)) hlow with ⟨r, h1, h2⟩ | ⟨r, h1, -, h2, -⟩
  · exact Or.inl ⟨r, hsub r h1, h2⟩
  · right
    rcases hh : h with _ | n
    · exact ⟨r, by rw [hh] at hne; exact h1, h2⟩
    · obtain ⟨o, ho, hplace, -⟩ := hsame n hh
      refine ⟨n, rfl, ?_⟩
      have : o = r := by simpa [rowsOf, ho] using h1
      rw [← hplace, this, h2]

/-- When both tiers were folded in place, the week tier has the place of the newest row. -/
lemma names_cell_day {c : Cell} (hc : Chained .day h d w) (hr : Remembers (some c) (rowsOf h d w))
    (hne : rowsOf h d w ≠ []) : (∃ r ∈ rowsOf h d w, isTombstone r ∧ r.prevCell = some c) ∨
      ∃ r, (rowsOf h d w).head? = some r ∧ r.cell = some c := by
  rcases hf : h.or d with _ | n
  · have hrows : rowsOf h d w = w.toList := by
      cases h <;> cases d <;> simp_all [rowsOf]
    rw [hrows] at hr hne ⊢
    obtain ⟨o, ho⟩ := Option.ne_none_iff_exists'.mp fun hw : w = none => hne (by rw [hw]; rfl)
    rw [ho] at hr ⊢
    rcases tombstone_or_here (hr.placed o (by simp)) (hr.oldest o rfl) with ht | ⟨h1, -⟩
    · exact Or.inl ⟨o, by simp, ht, hr.oldest o rfl⟩
    · exact Or.inr ⟨o, rfl, h1⟩
  · obtain ⟨o, ho, hplace, -⟩ := hc n hf
    have hlast : (rowsOf h d w).getLast? = some o := by
      rw [rowsOf, ho]
      cases h <;> cases d <;> simp
    have hmem : o ∈ rowsOf h d w := List.mem_of_getLast? hlast
    rcases tombstone_or_here (hr.placed o hmem) (hr.oldest o hlast) with ht | ⟨h1, -⟩
    · exact Or.inl ⟨o, hmem, ht, hr.oldest o hlast⟩
    · refine Or.inr ⟨n, ?_, by rw [← hplace, h1]⟩
      cases h <;> cases d <;> simp_all [rowsOf]

/-- However the rows hang together, some tombstone or the newest row names the cell that the
oldest one remembers. -/
lemma names_cell {c : Cell} (hc : Chained m h d w) (hr : Remembers (some c) (rowsOf h d w))
    (hne : rowsOf h d w ≠ []) : (∃ r ∈ rowsOf h d w, isTombstone r ∧ r.prevCell = some c) ∨
      ∃ r, (rowsOf h d w).head? = some r ∧ r.cell = some c := by
  cases m with
  | none =>
    rcases tombstone_or_head hc hr.placed hr.oldest hne with ht | ⟨r, h1, -, h2, -⟩
    · exact Or.inl ht
    · exact Or.inr ⟨r, h1, h2⟩
  | hour => exact names_cell_hour hc hr hne
  | day => exact names_cell_day hc hr hne

end OneElement

/-! ### Along the runs -/

/-- The rows of every element hang together. -/
def AllChained (m : Folded) (s : Root) : Prop :=
  ∀ t i, Chained m (slot s.deltas.hour t i) (slot s.deltas.day t i) (slot s.deltas.week t i)

section Step

variable {s : Root} {r : TierRun} {m : Folded}

lemma fromCurrent_row (hm : TiersRemember s) (hR : ResolvedFor s r.resolved) (t : Typ) (i : ℤ) :
    FromCurrent (r.row t i) (slot s.deltas.hour t i) (slot s.deltas.day t i)
      (slot s.deltas.week t i) := by
  intro n hn x hx
  obtain ⟨hmem, hid⟩ := mem_resolved hn
  have hw : winner s.deltas t i = some x := hx
  have hxm : x ∈ tierRows s.deltas t i := by
    rw [← head_tierRows] at hw
    exact List.mem_of_mem_head? hw
  rw [hR.prev t n hmem, hid, cur, current_eq, hw, Option.map_some, Option.getD_some,
    DeltaRow.alive_map]
  rcases hd : x.deleted with _ | _
  · obtain ⟨cols, hcols⟩ := Option.isSome_iff_exists.mp ((hm t i).placed x hxm hd).1
    simp [DeltaRow.alive, aliveCell, hd, hcols]
  · simp [DeltaRow.alive, aliveCell, hd]

lemma mergeSlot_of_empty (he : r.Empty) (t : Typ) (i : ℤ) (o : Option (DeltaRow (SpatialCols t))) :
    mergeSlot (r.row t i) o = o := by
  rw [row_of_empty he]; rfl

/-- **A timely run keeps the rows together.** -/
theorem allChained_runTiers (hg : Good s.deltas) (hmem : TiersRemember s)
    (hR : ResolvedFor s r.resolved) (hc : AllChained m s) (ht : Timely m s.deltas r) :
    AllChained (foldedAfter m s.deltas r) { s with deltas := runTiers s.deltas r } := by
  intro t i
  have hci := hc t i
  have hn := fromCurrent_row hmem hR t i
  show Chained _ (slot (runTiers s.deltas r).hour t i) (slot (runTiers s.deltas r).day t i)
    (slot (runTiers s.deltas r).week t i)
  rcases writes hg hR.once with ⟨hx, hh, hd, hw, -⟩ | ⟨hx, hh, hd, hw, -⟩ | ⟨hx, hh, hw⟩
  · have hfold : foldedAfter m s.deltas r = m := by
      unfold foldedAfter
      rcases hcr : tierCrossings s.deltas r.timestamp with ⟨c1, c2⟩
      rw [hcr] at hx
      simp only at hx
      subst hx
      rfl
    rw [hfold, hh, hd, hw]
    rcases ht with he | rfl | ⟨-, h1⟩ | ⟨-, h1⟩
    · rw [mergeSlot_of_empty he]; exact hci
    · exact chained_stay hci hn
    · rw [hx] at h1; cases h1
    · rw [h1] at hx; cases hx
  · rw [hd, hw]
    rcases hh with ⟨he, h1⟩ | ⟨he, h1, -⟩
    · rw [h1]
      by_cases hday : m = .day
      · have hfold : foldedAfter m s.deltas r = .day := by simp [foldedAfter, hx, he, hday]
        rw [hfold]
        subst hday
        exact chained_foldHour_day hci
      · have hfold : foldedAfter m s.deltas r = .hour := by simp [foldedAfter, hx, he, hday]
        rw [hfold]
        exact chained_foldHour_empty hday hci
    · have hfold : foldedAfter m s.deltas r = .none := by simp [foldedAfter, hx, he]
      have hday : m ≠ .day := by
        rintro rfl
        rcases ht with h | h | ⟨h, -⟩ | ⟨-, h⟩
        · exact he h
        · cases h
        · cases h
        · rw [hx] at h; cases h
      rw [hfold, h1]
      exact chained_foldHour hday hci hn
  · rw [hw]
    rcases hh with ⟨he, h1, h2⟩ | ⟨he, h1, h2, -⟩
    · have hfold : foldedAfter m s.deltas r = .day := by simp [foldedAfter, hx, he]
      rw [hfold, h1, h2]
      exact chained_foldDay_empty
    · have hfold : foldedAfter m s.deltas r = .none := by simp [foldedAfter, hx, he]
      rw [hfold, h1, h2]
      exact chained_foldDay hn

end Step

/-- **Along timely runs the rows of every element hang together.** -/
theorem allChained_runs {fs : List Fetched} {s : Root} {m : Folded} (hg : Good s.deltas)
    (hmem : TiersRemember s) (hc : AllChained m s) (ht : AllTimely m s fs) :
    ∃ m', AllChained m' (runs s fs) := by
  induction fs generalizing s m with
  | nil => exact ⟨m, hc⟩
  | cons f fs ih =>
    obtain ⟨h1, h2⟩ := ht
    have hg' := good_runOnce hg f
    rcases Classical.em (f.diffs = []) with hf | hf
    · have hrun : runOnce s f = s := by simp [runOnce, hf]
      have hm' : foldedNext m s f = m := by simp [foldedNext, hf]
      rw [hrun, hm'] at h2
      show ∃ m', AllChained m' (runs (runOnce s f) fs)
      rw [hrun]
      exact ih hg hmem hc h2
    · have hrun : runOnce s f = { s with deltas := runTiers s.deltas (tierRun s f) } := by
        simp [runOnce, hf]
      have hR := resolvedFor_resolvedOf hg f
      have hm' : foldedNext m s f = foldedAfter m s.deltas (tierRun s f) := by simp [foldedNext, hf]
      have htime := h1.resolve_left hf
      rw [hm'] at h2
      refine ih hg' ?_ ?_ h2
      · rw [hrun]; exact tiersRemember_runTiers hg hmem hR
      · rw [hrun]; exact allChained_runTiers hg hmem hR hc htime

lemma mem_touchedCells_of_tombstone {d : Deltas} {t : Typ} {i : ℤ} (hg : Good d)
    {r : DeltaRow (SpatialCols t)} {c : Cell} (hr : r ∈ tierRows d t i) (ht : isTombstone r)
    (hc : r.prevCell = some c) : c ∈ touchedCells d t := by
  have hmem : i ∈ tombIds d t [c] := (mem_tombIds hg).mpr ⟨r, hr, ht, by simp [inCells, hc]⟩
  obtain ⟨m, hm, hi⟩ := List.mem_flatMap.mp hmem
  obtain ⟨rb, hrb, -⟩ := List.mem_map.mp hi
  obtain ⟨h1, h2⟩ := List.mem_filter.mp hrb
  have hcell : rb.prevCell = some c := by
    rcases hp : rb.prevCell with _ | c'
    · rw [hp] at h2; simp [inCells] at h2
    · rw [hp] at h2
      simpa [inCells] using h2
  simp only [touchedCells, List.mem_dedup, List.mem_append, List.mem_flatMap, List.mem_filterMap]
  exact Or.inr ⟨m, hm, rb, h1, hcell⟩

/-- Where the rows hang together every base cell is rewritten. -/
lemma covered_of_chained {s : Root} {m : Folded} (hg : Good s.deltas) (hmem : TiersRemember s)
    (hc : AllChained m s) (t : Typ) : Covered s t := by
  intro i hne c hb
  have hr := hmem t i
  rw [hb] at hr
  rcases names_cell (hc t i) hr hne with ⟨r, hrm, ht, hrc⟩ | ⟨r, hrh, hrc⟩
  · exact mem_touchedCells_of_tombstone hg hrm ht hrc
  · have hw : winner s.deltas t i = some r := by rw [← head_tierRows]; exact hrh
    rw [← deltaById_spatialWinners] at hw
    simp only [touchedCells, List.mem_dedup, List.mem_append, List.mem_filterMap]
    exact Or.inl (Or.inl ⟨r, mem_of_lookup hw, hrc⟩)

lemma allChained_fresh (b : Base) : AllChained .none (fresh b) := by
  intro t i
  simp [Chained, rowsOf, fresh, Deltas.empty]

/-- After timely runs every base cell of a touched element is rewritten. -/
lemma covered_of_allTimely {b : Base} {fs : List Fetched}
    (ht : AllTimely .none (fresh b) fs) (t : Typ) : Covered (runs (fresh b) fs) t := by
  obtain ⟨m, hc⟩ := allChained_runs (good_fresh b) (tiersRemember_fresh b) (allChained_fresh b) ht
  exact covered_of_chained (good_runs (good_fresh b) fs) (tiersRemember_runs b fs) hc t

/-- **Compaction preserves the current state after timely runs**: every element's row, or its
absence, is the one the tiers over the base gave, and each copy of it is stored once, the
spatial one in the file of its cell. -/
theorem preserves_of_allTimely (b : Base) (ha : BaseAgrees b) (fs : List Fetched)
    (ht : AllTimely .none (fresh b) fs) :
    Preserves (runs (fresh b) fs) (compact (runs (fresh b) fs)) := by
  have hg := good_runs (good_fresh b) fs
  have hmem := tiersRemember_runs b fs
  exact preserves_of_covered hg hmem (baseAgrees_runs ha fs) (covered_of_allTimely ht)

/-! ### A run that comes late -/

/-- A diff without changes. -/
def noChange (seq timestamp : ℤ) : Fetched := ⟨[⟨seq, fun _ => []⟩], some timestamp⟩

/-- The node leaves its cell in one hour, comes back in the next, and a run without changes
folds both hours; then it moves, still in the second hour. -/
def lateRuns : List Fetched :=
  [moveNode 1 2 ⟨450000000, 900000000⟩ 34200, moveNode 2 3 ⟨450000000, -900000000⟩ 36600,
    noChange 3 39900, moveNode 4 4 ⟨-450000000, 900000000⟩ 39000]

/-- Compacting after two moves and a run without changes. -/
theorem preserves_before_late_run : BaseAgrees oneNode ∧
    AllTimely .none (fresh oneNode) (lateRuns.take 3) ∧
    Preserves (runs (fresh oneNode) (lateRuns.take 3))
      (compact (runs (fresh oneNode) (lateRuns.take 3))) := by
  have ht : AllTimely .none (fresh oneNode) (lateRuns.take 3) :=
    ⟨Or.inr (Or.inr (Or.inl rfl)), Or.inr (Or.inr (Or.inl rfl)),
      Or.inr (Or.inr (Or.inl rfl)), trivial⟩
  exact ⟨baseAgrees_oneNode, ht, preserves_of_allTimely oneNode baseAgrees_oneNode _ ht⟩

/-- After the late run the node is stored in its new cell and, once more, in its old one. -/
theorem late_run_stored_twice : BaseAgrees oneNode ∧
    ¬ Preserves (runs (fresh oneNode) lateRuns) (compact (runs (fresh oneNode) lateRuns)) := by
  refine ⟨baseAgrees_oneNode, fun h => ?_⟩
  have h1 := (h.agrees .node).once
  revert h1
  unfold Distinct
  decide

end OsmParquet.FoldedTiers
