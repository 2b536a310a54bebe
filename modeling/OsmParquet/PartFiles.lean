import Mathlib.Algebra.Order.Ring.Int
import Mathlib.Data.List.Dedup
import Mathlib.Data.List.Sort

/-!
Cutting rows into part files.

Rows come in the order of their key. One writer collects them in batches and starts a new part
once the open one has enough rows; the other cuts the table at quantiles of the key. Either way
the parts are the rows in their order, and none of them is empty.
-/

namespace OsmParquet.PartFiles

variable {ρ : Type}

/-! ### Parts of a given size -/

structure PartWriter (ρ : Type) where
  maxRowsPerPart : ℕ
  -- the rows of the part that is open
  writer : Option (List ρ)
  parts : List (List ρ)

def PartWriter.new (maxRowsPerPart : ℕ) : PartWriter ρ := ⟨maxRowsPerPart, none, []⟩

def closePart (w : PartWriter ρ) : PartWriter ρ :=
  match w.writer with
  | some rows => { w with writer := none, parts := w.parts ++ [rows] }
  | none => w

def writeBatch (w : PartWriter ρ) (batch : List ρ) : PartWriter ρ :=
  let rows := w.writer.getD [] ++ batch
  let w := { w with writer := some rows }
  if rows.length ≥ w.maxRowsPerPart then closePart w else w

def PartWriter.finish (w : PartWriter ρ) : List (List ρ) := (closePart w).parts

/-- A pass over the rows of a type: the batch that is being filled, and the writer. -/
structure Pass (ρ : Type) where
  batch : List ρ
  writer : PartWriter ρ

def Pass.append (batchRows : ℕ) (p : Pass ρ) (r : ρ) : Pass ρ :=
  let batch := p.batch ++ [r]
  if batch.length ≥ batchRows then ⟨[], writeBatch p.writer batch⟩ else ⟨batch, p.writer⟩

def Pass.finish (p : Pass ρ) : List (List ρ) :=
  (if p.batch.length > 0 then writeBatch p.writer p.batch else p.writer).finish

def writeParts (maxRowsPerPart batchRows : ℕ) (rows : List ρ) : List (List ρ) :=
  (rows.foldl (Pass.append batchRows) ⟨[], PartWriter.new maxRowsPerPart⟩).finish

/-- The rows that a writer has been given. -/
def written (w : PartWriter ρ) : List ρ := w.parts.flatten ++ w.writer.getD []

/-- No part is empty, nor is the one that is open. -/
structure Filled (w : PartWriter ρ) : Prop where
  parts : ∀ p ∈ w.parts, p ≠ []
  writer : ∀ p ∈ w.writer, p ≠ []

section Writer

variable {w : PartWriter ρ} {batch : List ρ}

@[simp] lemma written_closePart : written (closePart w) = written w := by
  rcases w with ⟨k, _ | rows, parts⟩ <;> simp [closePart, written]

lemma filled_closePart (h : Filled w) : Filled (closePart w) := by
  obtain ⟨k, open?, parts⟩ := w
  cases open? with
  | none => exact h
  | some rows =>
    refine ⟨fun p hp => ?_, fun p hp => by cases hp⟩
    rcases List.mem_append.mp hp with hp | hp
    · exact h.parts p hp
    · rw [List.mem_singleton.mp hp]
      exact h.writer rows rfl

@[simp] lemma written_writeBatch : written (writeBatch w batch) = written w ++ batch := by
  have hopen : written { w with writer := some (w.writer.getD [] ++ batch) } =
      written w ++ batch := by
    simp [written]
  unfold writeBatch
  simp only
  split
  · rw [written_closePart, hopen]
  · exact hopen

lemma filled_writeBatch (h : Filled w) (hb : batch ≠ []) : Filled (writeBatch w batch) := by
  have hopen : Filled { w with writer := some (w.writer.getD [] ++ batch) } := by
    refine ⟨h.parts, ?_⟩
    rintro p ⟨⟩
    simp [hb]
  unfold writeBatch
  simp only
  split
  · exact filled_closePart hopen
  · exact hopen

lemma flatten_finish (w : PartWriter ρ) : w.finish.flatten = written w := by
  rcases w with ⟨k, _ | rows, parts⟩ <;> simp [PartWriter.finish, closePart, written]

end Writer

/-- The rows that a pass has read. -/
def consumed (p : Pass ρ) : List ρ := written p.writer ++ p.batch

section Pass

variable {p : Pass ρ}

lemma step_append (batchRows : ℕ) (h : Filled p.writer) (r : ρ) :
    Filled (p.append batchRows r).writer ∧ consumed (p.append batchRows r) = consumed p ++ [r] := by
  unfold Pass.append
  simp only
  split
  · exact ⟨filled_writeBatch h (by simp), by simp [consumed]⟩
  · exact ⟨h, by simp [consumed]⟩

lemma run_append (batchRows : ℕ) (rows : List ρ) (h : Filled p.writer) :
    Filled (rows.foldl (Pass.append batchRows) p).writer ∧
      consumed (rows.foldl (Pass.append batchRows) p) = consumed p ++ rows := by
  induction rows generalizing p with
  | nil => exact ⟨h, by simp⟩
  | cons r rows ih =>
    obtain ⟨hf, hc⟩ := step_append batchRows h r
    obtain ⟨hf', hc'⟩ := ih hf
    refine ⟨hf', ?_⟩
    rw [List.foldl_cons, hc', hc, List.append_assoc]
    rfl

lemma finish_spec (h : Filled p.writer) :
    p.finish.flatten = consumed p ∧ ∀ q ∈ p.finish, q ≠ [] := by
  unfold Pass.finish
  split
  · have hb : p.batch ≠ [] := List.length_pos_iff.mp (by assumption)
    refine ⟨by rw [flatten_finish, written_writeBatch, consumed], ?_⟩
    exact (filled_closePart (filled_writeBatch h hb)).parts
  · have hb : p.batch = [] := List.length_eq_zero_iff.mp (by omega)
    refine ⟨by rw [flatten_finish, consumed, hb, List.append_nil], ?_⟩
    exact (filled_closePart h).parts

end Pass

/-- **The parts of a given size are the rows in their order**, and none is empty. -/
theorem writeParts_spec (maxRowsPerPart batchRows : ℕ) (rows : List ρ) :
    (writeParts maxRowsPerPart batchRows rows).flatten = rows ∧
      ∀ q ∈ writeParts maxRowsPerPart batchRows rows, q ≠ [] := by
  have hnew : Filled (PartWriter.new maxRowsPerPart : PartWriter ρ) :=
    ⟨fun _ hp => (List.not_mem_nil hp).elim, fun _ hp => (Option.not_mem_none _ hp).elim⟩
  obtain ⟨hf, hc⟩ := run_append (p := ⟨[], PartWriter.new maxRowsPerPart⟩) batchRows rows hnew
  obtain ⟨h1, h2⟩ := finish_spec hf
  exact ⟨by rw [writeParts, h1, hc]; rfl, h2⟩

/-! ### Parts cut at quantiles -/

section Ranges

variable (key : ρ → ℤ)

/-- The value at a fraction `i / n` of a column. -/
def quantileDisc (ids : List ℤ) (i n : ℕ) : Option ℤ :=
  (ids.insertionSort (· ≤ ·))[(i * ids.length + n - 1) / n - 1]?

/-- Every bound with the next one. -/
def consecutive : Option ℤ → List ℤ → List (Option ℤ × Option ℤ)
  | lo, [] => [(lo, none)]
  | lo, q :: qs => (lo, some q) :: consecutive (some q) qs

def rangeBounds (ids : List ℤ) (targetRows : ℕ) : List (Option ℤ × Option ℤ) :=
  let n := max 1 ((ids.length + targetRows - 1) / targetRows)
  if n = 1 then [(none, none)]
  else
    let qs := (List.range (n - 1)).filterMap fun i => quantileDisc ids (i + 1) n
    consecutive none (qs.dedup.insertionSort (· ≤ ·))

def rangeCond (lo hi : Option ℤ) (x : ℤ) : Bool := lo.all (· ≤ x) && hi.all (x < ·)

def rangeParts (targetRows : ℕ) (rows : List ρ) : List (List ρ) :=
  (rangeBounds (rows.map key) targetRows).map fun b =>
    (rows.filter fun r => rangeCond b.1 b.2 (key r)).insertionSort fun a b => key a ≤ key b

end Ranges

section Cuts

variable {key : ρ → ℤ} {rows : List ρ}

/-- Rows in ascending order, cut at a value. -/
lemma filter_lt_append (h : rows.Pairwise fun a b => key a < key b) (P : ρ → Bool) (q : ℤ) :
    (rows.filter fun r => P r && decide (key r < q)) ++
    (rows.filter fun r => P r && decide (q ≤ key r)) =
      rows.filter P := by
  induction rows with
  | nil => rfl
  | cons r rows ih =>
    obtain ⟨hr, hrows⟩ := List.pairwise_cons.mp h
    by_cases hq : key r < q
    · have hnot : ¬ q ≤ key r := not_le.mpr hq
      cases hP : P r <;> simp [hP, hq, hnot, ← ih hrows]
    · -- all that follow are past the cut
      have hnone : rows.filter (fun x => P x && decide (key x < q)) = [] := by
        refine List.filter_eq_nil_iff.mpr fun x hx => ?_
        have := hr x hx
        simp only [Bool.and_eq_true, decide_eq_true_eq, not_and]
        omega
      have hall := ih hrows
      rw [hnone, List.nil_append] at hall
      have hle : q ≤ key r := not_lt.mp hq
      cases hP : P r <;> simp [hP, hq, hle, hnone, hall]

/-- Consecutive ranges give back the rows from their lower end on. -/
lemma flatten_consecutive (h : rows.Pairwise fun a b => key a < key b) {qs : List ℤ} {lo : Option ℤ}
    (hqs : qs.Pairwise (· < ·)) (hlo : ∀ x ∈ lo, ∀ q ∈ qs, x < q) :
    ((consecutive lo qs).map fun b => rows.filter fun r => rangeCond b.1 b.2 (key r)).flatten =
      rows.filter fun r => lo.all (· ≤ key r) := by
  induction qs generalizing lo with
  | nil => simp [consecutive, rangeCond]
  | cons q qs ih =>
    obtain ⟨hq, hqs⟩ := List.pairwise_cons.mp hqs
    have hrest : rows.filter (fun r => (some q).all (· ≤ key r)) =
        rows.filter fun r => lo.all (· ≤ key r) && decide (q ≤ key r) := by
      refine List.filter_congr fun r _ => ?_
      rw [Bool.eq_iff_iff]
      simp only [Option.all_some, decide_eq_true_eq, Bool.and_eq_true]
      refine ⟨fun hle => ⟨?_, hle⟩, fun hle => hle.2⟩
      cases lo with
      | none => rfl
      | some x =>
        have := hlo x rfl q List.mem_cons_self
        simp only [Option.all_some, decide_eq_true_eq]
        omega
    rw [consecutive, List.map_cons, List.flatten_cons,
      ih hqs (fun x hx => by cases hx; exact hq), hrest]
    exact filter_lt_append h (fun r => lo.all (· ≤ key r)) q

/-- Where every bound is the key of a row, no range is empty. -/
lemma exists_of_consecutive {qs : List ℤ} {lo : Option ℤ} (hqs : qs.Pairwise (· < ·))
    (hmem : ∀ q ∈ qs, ∃ r ∈ rows, key r = q)
    (hlo : ∃ r ∈ rows, rangeCond lo qs.head? (key r) = true) :
    ∀ b ∈ consecutive lo qs, ∃ r ∈ rows, rangeCond b.1 b.2 (key r) = true := by
  induction qs generalizing lo with
  | nil =>
    intro b hb
    rw [List.mem_singleton.mp hb]
    exact hlo
  | cons q qs ih =>
    obtain ⟨hq, hqs⟩ := List.pairwise_cons.mp hqs
    intro b hb
    rcases List.mem_cons.mp hb with rfl | hb
    · exact hlo
    · refine ih hqs (fun x hx => hmem x (List.mem_cons_of_mem _ hx)) ?_ b hb
      obtain ⟨r, hr, rfl⟩ := hmem q List.mem_cons_self
      refine ⟨r, hr, ?_⟩
      cases qs with
      | nil => simp [rangeCond]
      | cons x qs => simpa [rangeCond] using hq x List.mem_cons_self

/-- The ids of a table from the second on, of which the quantiles are some. -/
lemma mem_tail_of_quantileDisc {ids : List ℤ} (hs : ids.Pairwise (· < ·)) {i n : ℕ} (hn : 0 < n)
    (hN : n < ids.length) {q : ℤ} (hq : quantileDisc ids (i + 1) n = some q) : q ∈ ids.tail := by
  have hsorted : ids.insertionSort (· ≤ ·) = ids :=
    (hs.imp fun h => h.le).insertionSort_eq
  rw [quantileDisc, hsorted] at hq
  have hle : ids.length + n - 1 ≤ (i + 1) * ids.length + n - 1 := by
    have : ids.length ≤ (i + 1) * ids.length := Nat.le_mul_of_pos_left _ (by omega)
    omega
  have hone : 2 ≤ ((i + 1) * ids.length + n - 1) / n := by
    rw [Nat.le_div_iff_mul_le hn]
    omega
  generalize ((i + 1) * ids.length + n - 1) / n = k at hq hone
  obtain ⟨j, rfl⟩ : ∃ j, k = j + 2 := ⟨k - 2, by omega⟩
  refine List.mem_of_getElem? (i := j) ?_
  rw [List.getElem?_tail]
  exact hq

/-- The cuts are in ascending order, whatever the quantiles were. -/
lemma ascending_cuts (qs : List ℤ) : (qs.dedup.insertionSort (· ≤ ·)).Pairwise (· < ·) := by
  refine ((List.pairwise_insertionSort _ _).and ?_).imp fun hab => lt_of_le_of_ne hab.1 hab.2
  exact (List.perm_insertionSort _ _).nodup_iff.mpr (List.nodup_dedup _)

/-- The bounds are ids of the table in ascending order, and not the first id. -/
lemma rangeBounds_spec {ids : List ℤ} (hs : ids.Pairwise (· < ·)) {targetRows : ℕ}
    (ht : 2 ≤ targetRows) : ∃ qs : List ℤ, rangeBounds ids targetRows = consecutive none qs ∧
      qs.Pairwise (· < ·) ∧ ∀ q ∈ qs, q ∈ ids.tail := by
  unfold rangeBounds
  simp only
  split
  · exact ⟨[], rfl, List.Pairwise.nil, fun q hq => by cases hq⟩
  · rename_i hn
    refine ⟨_, rfl, ascending_cuts _, fun q hq => ?_⟩
    obtain ⟨i, -, hi⟩ := List.mem_filterMap.mp
      (List.mem_dedup.mp ((List.mem_insertionSort _).mp hq))
    refine mem_tail_of_quantileDisc hs (lt_of_lt_of_le Nat.one_pos (le_max_left _ _)) ?_ hi
    have hdiv := Nat.div_mul_le_self (ids.length + targetRows - 1) targetRows
    have hlt : 2 ≤ (ids.length + targetRows - 1) / targetRows := by omega
    generalize (ids.length + targetRows - 1) / targetRows = k at hdiv hlt hn ⊢
    rw [max_eq_right (by omega)]
    obtain ⟨j, rfl⟩ : ∃ j, k = j + 1 := ⟨k - 1, by omega⟩
    rw [Nat.add_one_mul] at hdiv
    have := Nat.mul_le_mul_left j ht
    omega

lemma rangeParts_eq (h : rows.Pairwise fun a b => key a < key b) (targetRows : ℕ) :
    rangeParts key targetRows rows = (rangeBounds (rows.map key) targetRows).map fun b =>
      rows.filter fun r => rangeCond b.1 b.2 (key r) :=
  List.map_congr_left fun _ _ => ((h.filter _).imp fun hab => hab.le).insertionSort_eq

end Cuts

section Cells

variable {β : Type} {P : β → ρ → Bool} {bs : List β} {rows : List ρ}

/-- One element more in the cells that have it. -/
lemma flatMap_cons_perm (p : β → Bool) (r : ρ) (f : β → List ρ) (bs : List β) :
    (bs.flatMap fun b => if p b then r :: f b else f b).Perm
      (List.replicate (bs.countP p) r ++ bs.flatMap f) := by
  induction bs with
  | nil => exact List.Perm.refl _
  | cons b bs ih =>
    rw [List.flatMap_cons, List.flatMap_cons, List.countP_cons]
    by_cases hb : p b = true
    · rw [if_pos hb, if_pos hb, List.replicate_succ, List.cons_append, List.cons_append]
      refine List.Perm.cons r ((ih.append_left _).trans ?_)
      rw [← List.append_assoc, ← List.append_assoc]
      exact List.perm_append_comm.append_right _
    · rw [if_neg hb, if_neg hb, Nat.add_zero]
      refine (ih.append_left _).trans ?_
      rw [← List.append_assoc, ← List.append_assoc]
      exact List.perm_append_comm.append_right _

/-- **Cells that have every row once are the rows.** -/
theorem flatMap_filter_perm_of_once (h : ∀ r ∈ rows, (bs.countP fun b => P b r) = 1) :
    (bs.flatMap fun b => rows.filter (P b)).Perm rows := by
  induction rows with
  | nil => simp
  | cons r rows ih =>
    have hcons := flatMap_cons_perm (fun b => P b r) r (fun b => rows.filter (P b)) bs
    rw [h r List.mem_cons_self] at hcons
    simp only [List.filter_cons]
    exact hcons.trans (List.Perm.cons r (ih fun x hx => h x (List.mem_cons_of_mem _ hx)))

end Cells

/-- **The parts cut at quantiles are the rows in their order**, and none is empty. -/
theorem rangeParts_spec {key : ρ → ℤ} {rows : List ρ} (h : rows.Pairwise fun a b => key a < key b)
    (hne : rows ≠ []) {targetRows : ℕ} (ht : 2 ≤ targetRows) :
    (rangeParts key targetRows rows).flatten = rows ∧
      ∀ q ∈ rangeParts key targetRows rows, q ≠ [] := by
  have hids : (rows.map key).Pairwise (· < ·) := List.pairwise_map.mpr h
  obtain ⟨qs, hbounds, hqs, htail⟩ := rangeBounds_spec hids ht
  rw [rangeParts_eq h, hbounds]
  -- the first row is before the first bound
  have hfirst : ∃ r ∈ rows, rangeCond none qs.head? (key r) = true := by
    obtain ⟨r, rest, rfl⟩ := List.exists_cons_of_ne_nil hne
    refine ⟨r, List.mem_cons_self, ?_⟩
    cases qs with
    | nil => rfl
    | cons q qs =>
      have hq := htail q List.mem_cons_self
      rw [List.map_cons, List.tail_cons] at hq
      simpa [rangeCond] using (List.pairwise_cons.mp hids).1 q hq
  refine ⟨?_, fun p hp => ?_⟩
  · rw [flatten_consecutive h hqs fun x hx => by cases hx]
    simp
  · obtain ⟨b, hb, rfl⟩ := List.mem_map.mp hp
    have hmem : ∀ q ∈ qs, ∃ r ∈ rows, key r = q := fun q hq =>
      List.mem_map.mp (List.mem_of_mem_tail (htail q hq))
    obtain ⟨r, hr, hrb⟩ := exists_of_consecutive hqs hmem hfirst b hb
    exact List.ne_nil_of_mem (List.mem_filter.mpr ⟨hr, hrb⟩)

end OsmParquet.PartFiles
