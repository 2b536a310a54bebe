import Mathlib.Data.Int.ConditionallyCompleteOrder
import Mathlib.Data.Prod.Lex
import Mathlib.Order.ConditionallyCompleteLattice.Basic
import OsmParquet.HistoryTiers
import OsmParquet.Timeline

/-!
Reading the state of the elements at a time.

The history of a root is a base, by id and by cell, and the tiers the updater appends to. A read
at a time takes of every element the rows that have started by then, from the parts or the cells
it looks at, and keeps one that comes first in the order of the states. The rows of the base have
an end where a later one was known when they were written, and are skipped from then on. The end
is there to read less: what it hides should be what would have lost anyway.

Rows that agree in everything the order looks at tie, and the database may return any of them.
-/

namespace OsmParquet.Snapshots

open OsmParquet.KeyedList OsmParquet.Rows OsmParquet.Tiers OsmParquet.HistoryTiers
open OsmParquet.Timeline

variable {α : Type}

/-! ### The base of the history -/

/-- A by-id part of the base history. -/
structure HistoryPart (α : Type) where
  minId : ℤ
  maxId : ℤ
  rows : List (HistoryRow α)
  le : minId ≤ maxId
  inRange : ∀ r ∈ rows, minId ≤ r.id ∧ r.id ≤ maxId

structure HistoryParts (α : Type) where
  parts : List (HistoryPart α)
  sorted : parts.Pairwise fun p q => p.maxId < q.minId

def HistoryParts.empty : HistoryParts α := ⟨[], .nil⟩

def HistoryParts.rows (h : HistoryParts α) : List (HistoryRow α) := h.parts.flatMap HistoryPart.rows

/-- The files of a cell of the base history. -/
structure HistoryCell (α : Type) where
  cell : Cell
  files : List (List (HistoryRow α))
  placed : ∀ r ∈ files.flatten, r.cell = some cell

def HistoryCell.rows (e : HistoryCell α) : List (HistoryRow α) := e.files.flatten

structure HistoryCells (α : Type) where
  cells : List (HistoryCell α)
  once : Distinct HistoryCell.cell cells

def HistoryCells.empty : HistoryCells α := ⟨[], distinct_nil⟩

/-- The rows of one cell. -/
def HistoryCells.rowsOf (h : HistoryCells α) (c : Cell) : List (HistoryRow α) :=
  (lookup HistoryCell.cell c h.cells).elim [] HistoryCell.rows

/-- The history of a root. -/
structure HistoryRoot where
  byid : (t : Typ) → HistoryParts (ByidCols t)
  spatial : (t : Typ) → HistoryCells (SpatialCols t)
  tiers : History

/-- The tiers there are. -/
def historyTiers (h : History) : List HistoryMeta := h.hour.toList ++ h.day.toList ++ h.week.toList

def tierByidRows (h : History) (t : Typ) : List (HistoryRow (ByidCols t)) :=
  (historyTiers h).flatMap fun m => (m.files t).byid

def tierSpatialRows (h : History) (t : Typ) : List (HistoryRow (SpatialCols t)) :=
  (historyTiers h).flatMap fun m => (m.files t).spatial

/-! ### The state at a time -/

/-- A column as it is compared when NULL is the least value. -/
def nullLeast (x : Option ℤ) : WithBot ℤ := x

/-- What the states are ordered by: the start, then what is visible, then the version and the
minor version. In descending order NULL comes last. -/
abbrev StateKey := WithBot ℤ ×ₗ Bool ×ₗ WithBot ℤ ×ₗ ℤ

def stateKey (r : HistoryRow α) : StateKey :=
  toLex (nullLeast r.validFrom, toLex (r.visible, toLex (nullLeast r.version, r.minor)))

/-- The rows that may be the state at time `t`. -/
def validityPredicate (t : ℤ) (withValidTo : Bool) (r : HistoryRow α) : Bool :=
  (r.validFrom.any fun x => x ≤ t) && (!withValidTo || r.validTo.all fun x => t < x)

/-- The rows of an element that the state at a time is chosen from. -/
def candidates (t : ℤ) (i : ℤ) (base tiers : List (HistoryRow α)) : List (HistoryRow α) :=
  (base.filter fun r => r.id = i && validityPredicate t true r) ++
    tiers.filter fun r => r.id = i && validityPredicate t false r

/-- What `snapshot_byid_current_rows` chooses the state of an element from. -/
def byidCandidates (h : HistoryRoot) (typ : Typ) (t i : ℤ) : List (HistoryRow (ByidCols typ)) :=
  candidates t i (h.byid typ).rows (tierByidRows h.tiers typ)

/-- What `snapshot_current_rows` chooses the state of an element from when it reads `cells`. -/
def spatialCandidates (h : HistoryRoot) (typ : Typ) (cells : List Cell) (t i : ℤ) :
    List (HistoryRow (SpatialCols typ)) :=
  candidates t i (cells.flatMap (h.spatial typ).rowsOf)
    ((tierSpatialRows h.tiers typ).filter fun r => r.cell.any fun c => c ∈ cells)

/-- The row is a state that may be chosen. -/
abbrev StateAt (l : List (HistoryRow α)) (r : HistoryRow α) : Prop := Best stateKey l r

/-- A row without its end. -/
def strip (r : HistoryRow α) : HistoryRow α := { r with validTo := none }

@[simp] lemma stateKey_strip (r : HistoryRow α) : stateKey (strip r) = stateKey r := rfl
@[simp] lemma strip_id (r : HistoryRow α) : (strip r).id = r.id := rfl

lemma stateAt_of_ne_nil {l : List (HistoryRow α)} (h : l ≠ []) : ∃ r, StateAt l r :=
  exists_best stateKey h

lemma validityPredicate_false {t : ℤ} {r : HistoryRow α} :
    validityPredicate t false r = true ↔ ∃ x, r.validFrom = some x ∧ x ≤ t := by
  simp [validityPredicate, Option.any_eq_true]

lemma validityPredicate_true {t : ℤ} {r : HistoryRow α} : validityPredicate t true r = true ↔
    validityPredicate t false r = true ∧ ∀ x, r.validTo = some x → t < x := by
  rcases hv : r.validTo with _ | x
  · simp [validityPredicate, hv]
  · simp [validityPredicate, hv]

lemma mem_candidates {t i : ℤ} {base tiers : List (HistoryRow α)} {r : HistoryRow α} :
    r ∈ candidates t i base tiers ↔ r.id = i ∧
      (r ∈ base ∧ validityPredicate t true r = true ∨ r ∈ tiers ∧
        validityPredicate t false r = true) := by
  simp only [candidates, List.mem_append, List.mem_filter, Bool.and_eq_true, decide_eq_true_eq]
  tauto

/-! ### Ends that hide nothing -/

/-- The ends of the rows hide only what loses: for every row that has started by some time there
is one of the same element that has not ended, and that wins against it or is a copy of it. -/
def SoundEnds (rows : List (HistoryRow α)) : Prop :=
  ∀ t, ∀ r ∈ rows, validityPredicate t false r = true →
    ∃ x ∈ rows, x.id = r.id ∧ validityPredicate t true x = true ∧
      (stateKey r < stateKey x ∨ strip r = strip x)

lemma soundEnds_of_open {rows : List (HistoryRow α)} (h : ∀ r ∈ rows, r.validTo = none) :
    SoundEnds rows := by
  intro t r hr hs
  refine ⟨r, hr, rfl, validityPredicate_true.mpr ⟨hs, ?_⟩, Or.inr rfl⟩
  rw [h r hr]
  simp

/-- The rows of an element that have started by some time. -/
def startedRows (t i : ℤ) (rows : List (HistoryRow α)) : List (HistoryRow α) :=
  rows.filter fun r => r.id = i && validityPredicate t false r

lemma mem_startedRows {t i : ℤ} {rows : List (HistoryRow α)} {r : HistoryRow α} :
    r ∈ startedRows t i rows ↔ r ∈ rows ∧ r.id = i ∧ validityPredicate t false r = true := by
  simp [startedRows]

lemma startedRows_of_candidates {t i : ℤ} {base tiers : List (HistoryRow α)} {r : HistoryRow α}
    (h : r ∈ candidates t i base tiers) : r ∈ startedRows t i (base ++ tiers) := by
  obtain ⟨hid, ⟨hb, hv⟩ | ⟨ht, hv⟩⟩ := mem_candidates.mp h
  · exact mem_startedRows.mpr ⟨List.mem_append_left _ hb, hid, (validityPredicate_true.mp hv).1⟩
  · exact mem_startedRows.mpr ⟨List.mem_append_right _ ht, hid, hv⟩

/-- What has started loses against a candidate, or is one. -/
lemma SoundEnds.candidate {base tiers : List (HistoryRow α)} (h : SoundEnds base) {t i : ℤ}
    {r : HistoryRow α} (hr : r ∈ startedRows t i (base ++ tiers)) :
    ∃ x ∈ candidates t i base tiers, stateKey r < stateKey x ∨ strip r = strip x := by
  obtain ⟨hmem, hid, hs⟩ := mem_startedRows.mp hr
  rcases List.mem_append.mp hmem with hb | ht
  · obtain ⟨x, hx, hxid, hxv, hle⟩ := h t r hb hs
    exact ⟨x, mem_candidates.mpr ⟨hxid.trans hid, Or.inl ⟨hx, hxv⟩⟩, hle⟩
  · exact ⟨r, mem_candidates.mpr ⟨hid, Or.inr ⟨ht, hs⟩⟩, Or.inr rfl⟩

/-- **With sound ends a read chooses among all rows that have started.** -/
lemma SoundEnds.stateAt_iff {base tiers : List (HistoryRow α)} (h : SoundEnds base) {t i : ℤ}
    {r : HistoryRow α} : (∃ x, StateAt (candidates t i base tiers) x ∧ strip x = strip r) ↔
      ∃ x, StateAt (startedRows t i (base ++ tiers)) x ∧ strip x = strip r := by
  refine ⟨?_, ?_⟩
  · rintro ⟨x, ⟨hx, hbest⟩, hxr⟩
    refine ⟨x, ⟨startedRows_of_candidates hx, fun y hy => ?_⟩, hxr⟩
    obtain ⟨z, hz, hlt | heq⟩ := h.candidate hy
    · exact hlt.le.trans (hbest z hz)
    · rw [← stateKey_strip y, heq]
      exact hbest z hz
  · rintro ⟨x, ⟨hx, hbest⟩, hxr⟩
    obtain ⟨z, hz, hlt | heq⟩ := h.candidate hx
    · exact absurd (hbest z (startedRows_of_candidates hz)) (not_le.mpr hlt)
    · refine ⟨z, ⟨hz, fun y hy => ?_⟩, heq.symm.trans hxr⟩
      rw [← stateKey_strip z, ← heq]
      exact hbest y (startedRows_of_candidates hy)

end OsmParquet.Snapshots
