import OsmParquet.HistoryCompact
import OsmParquet.PartFiles

/-!
What the parts of a table cover.

A table is cut at values of its key, a sorted selection at row numbers, and the by-id history at the
ids where its parts begin. Each scheme makes a list of ranges with open, closed or missing ends, and
each is right if every key lies in one range of the list and in no other.
-/

namespace OsmParquet.PartRanges

open OsmParquet.Rows OsmParquet.HistoryTiers OsmParquet.Snapshots OsmParquet.PartFiles
open OsmParquet.HistoryCompact

/-! ### The schemes -/

/-- `range_bounds` after the quantiles have been read: `sorted(set(qs))`, with open ends. -/
def boundsAt (total targetRows : ℕ) (qs : List ℤ) : List (Option ℤ × Option ℤ) :=
  let n := max 1 ((total + targetRows - 1) / targetRows)
  if n = 1 then [(none, none)] else consecutive none (qs.dedup.insertionSort (· ≤ ·))

/-- `range_cond` in a query: without bounds it selects every row, and else none without a key. -/
def selects (b : Option ℤ × Option ℤ) : Option ℤ → Bool
  | some k => rangeCond b.1 b.2 k
  | none => b.1.isNone && b.2.isNone

/-- The loop of `_row_number_bounds` over the parts that are left. -/
def rowNumberLoop (totalRows targetRows : ℕ) : ℕ → ℕ → List (ℕ × ℕ)
  | 0, _ => []
  | left + 1, lo =>
    let hi := if left = 0 then totalRows else lo + targetRows - 1
    (lo, hi + 1) :: rowNumberLoop totalRows targetRows left (hi + 1)

def rowNumberBounds (totalRows targetRows : ℕ) : List (ℕ × ℕ) :=
  rowNumberLoop totalRows targetRows (max 1 ((totalRows + targetRows - 1) / targetRows)) 1

/-- `range_cond` of row numbers. -/
def numberCond (b : ℕ × ℕ) (rn : ℕ) : Bool := rangeCond (some (b.1 : ℤ)) (some (b.2 : ℤ)) rn

/-- `SPATIAL_PART_MAX_BYTES`. -/
def spatialPartMaxBytes : ℕ := 64 * 1024 * 1024

/-- `_write_ordered_parts`: the rows in one part, or in parts by row number if the file is too
big. -/
def orderedParts {ρ : Type} (size : ℕ) (rows : List ρ) : List (List ρ) :=
  if rows = [] then []
  else if size ≤ spatialPartMaxBytes then [rows]
  else
    let nParts := (size + spatialPartMaxBytes - 1) / spatialPartMaxBytes
    let targetRows := (rows.length + nParts - 1) / nParts
    (rowNumberBounds rows.length targetRows).map fun b =>
      ((rows.zipIdx 1).filter fun r => numberCond b r.2).map Prod.fst

/-! ### Cut values -/

section CutValues

/-- Ascending cuts put what is not below the first end into one range. -/
lemma countP_consecutive {qs : List ℤ} {lo : Option ℤ} (hqs : qs.Pairwise (· < ·))
    (hlo : ∀ a ∈ lo, ∀ q ∈ qs, a < q) (k : ℤ) :
    ((consecutive lo qs).countP fun b => rangeCond b.1 b.2 k) =
      if lo.all (· ≤ k) then 1 else 0 := by
  induction qs generalizing lo with
  | nil => cases lo <;> simp [consecutive, rangeCond, List.countP_singleton]
  | cons q qs ih =>
    obtain ⟨hq, hqs⟩ := List.pairwise_cons.mp hqs
    rw [consecutive, List.countP_cons, ih hqs fun a ha => by cases ha; exact hq]
    -- a key is on one side of the cut, and above it only if it is above the first end
    by_cases hk : q ≤ k
    · have hall : lo.all (· ≤ k) = true := by
        cases lo with
        | none => rfl
        | some a =>
          have := hlo a rfl q List.mem_cons_self
          simp only [Option.all_some, decide_eq_true_eq]
          omega
      simp [rangeCond, hk, not_lt.mpr hk, hall]
    · simp [rangeCond, hk, not_le.mp hk]

/-- **Every key is in one of the ranges between cuts.** -/
lemma countP_boundsAt (total targetRows : ℕ) (qs : List ℤ) (k : ℤ) :
    ((boundsAt total targetRows qs).countP fun b => selects b (some k)) = 1 := by
  unfold boundsAt
  simp only
  split
  · rfl
  · exact countP_consecutive (ascending_cuts qs) (fun a ha => by cases ha) k

end CutValues

/-! ### Row numbers -/

section RowNumbers

variable {totalRows targetRows : ℕ}

lemma numberCond_iff {b : ℕ × ℕ} {rn : ℕ} : numberCond b rn = true ↔ b.1 ≤ rn ∧ rn < b.2 := by
  simp [numberCond, rangeCond]

/-- The loop covers the numbers from its start to the last, if no part but the last reaches it. -/
lemma countP_rowNumberLoop {left lo : ℕ} (hleft : 0 < left) (ht : 0 < targetRows)
    (hlo : lo + (left - 1) * targetRows ≤ totalRows + 1) (rn : ℕ) :
    ((rowNumberLoop totalRows targetRows left lo).countP fun b => numberCond b rn) =
      if lo ≤ rn ∧ rn ≤ totalRows then 1 else 0 := by
  induction left generalizing lo with
  | zero => cases hleft
  | succ left ih =>
    rw [rowNumberLoop, List.countP_cons]
    rcases Nat.eq_zero_or_pos left with rfl | hpos
    · simp only [rowNumberLoop, List.countP_nil, numberCond_iff, if_true, Nat.zero_add,
        Nat.lt_succ_iff]
    · obtain ⟨m, rfl⟩ : ∃ m, left = m + 1 := ⟨left - 1, by omega⟩
      have hstep : lo + targetRows + m * targetRows ≤ totalRows + 1 := by
        rw [Nat.add_sub_cancel, Nat.add_one_mul] at hlo
        omega
      have hend : lo + targetRows - 1 + 1 = lo + targetRows := by omega
      rw [if_neg (Nat.succ_ne_zero m), hend, ih hpos hstep]
      simp only [numberCond_iff]
      have hle : lo + targetRows ≤ totalRows + 1 := le_trans (Nat.le_add_right _ _) hstep
      split_ifs <;> omega

/-- **Every row number is in one of the ranges**, and no other number is. -/
lemma countP_rowNumberBounds (totalRows : ℕ) (ht : 0 < targetRows) (rn : ℕ) :
    ((rowNumberBounds totalRows targetRows).countP fun b => numberCond b rn) =
      if 1 ≤ rn ∧ rn ≤ totalRows then 1 else 0 := by
  refine countP_rowNumberLoop (lt_of_lt_of_le Nat.one_pos (le_max_left _ _)) ht ?_ rn
  have hdiv := Nat.div_mul_le_self (totalRows + targetRows - 1) targetRows
  rcases Nat.eq_zero_or_pos ((totalRows + targetRows - 1) / targetRows) with hz | hpos
  · rw [hz, max_eq_left (Nat.zero_le 1)]
    omega
  · rw [max_eq_right hpos]
    obtain ⟨m, hm⟩ : ∃ m, (totalRows + targetRows - 1) / targetRows = m + 1 :=
      ⟨_ - 1, (Nat.succ_pred_eq_of_pos hpos).symm⟩
    rw [hm, Nat.add_one_mul] at hdiv
    rw [hm, Nat.add_sub_cancel]
    omega

/-- A part by row number gets at least one row of a table with rows. -/
lemma targetRows_pos {rows size : ℕ} (hrows : 0 < rows) (hsize : spatialPartMaxBytes < size) :
    0 < (rows + (size + spatialPartMaxBytes - 1) / spatialPartMaxBytes - 1) /
      ((size + spatialPartMaxBytes - 1) / spatialPartMaxBytes) := by
  have hmax : 0 < spatialPartMaxBytes := by decide
  have hparts : 0 < (size + spatialPartMaxBytes - 1) / spatialPartMaxBytes :=
    Nat.div_pos (by omega) hmax
  exact Nat.div_pos (by omega) hparts

end RowNumbers

/-! ### Ids -/

section Ids

variable {α : Type}

/-- Ranges that follow each other have an element in common with at most one. -/
lemma countP_eq_one_of_ascending {β : Type} {P : β → ℤ → Bool} {l : List β}
    (hl : l.Pairwise fun x y => ∀ i j, P x i = true → P y j = true → i < j) {i : ℤ} {x : β}
    (hx : x ∈ l) (hi : P x i = true) : (l.countP fun y => P y i) = 1 := by
  induction l with
  | nil => cases hx
  | cons y l ih =>
    obtain ⟨hy, hl⟩ := List.pairwise_cons.mp hl
    rw [List.countP_cons]
    rcases List.mem_cons.mp hx with rfl | hx
    · have hnone : (l.countP fun z => P z i) = 0 :=
        List.countP_eq_zero.mpr fun z hz hzi => lt_irrefl i (hy z hz i i hi hzi)
      rw [hnone, if_pos hi]
    · have hnot : ¬ P y i = true := fun hyi => lt_irrefl i (hy x hx i i hyi hi)
      rw [ih hl hx, if_neg hnot]

lemma countP_byidPartRanges (old : HistoryParts α) (i : ℤ) :
    ((byidPartRanges old.parts).countP fun x => rangePred x.1 i) = 1 := by
  obtain ⟨x, hx, hi⟩ := exists_owner old i
  exact countP_eq_one_of_ascending (pairwise_ranges old) hx hi

/-- The rows of a part stay in its range. -/
lemma owner_of_row {old : HistoryParts α} {p : HistoryPart α} (hp : p ∈ old.parts)
    {r : HistoryRow α} (hr : r ∈ p.rows) {x : IdRange × Option (HistoryPart α)}
    (hx : x ∈ byidPartRanges old.parts) (hi : rangePred x.1 r.id = true) : x.2 = some p := by
  obtain ⟨y, hy, hyp⟩ : ∃ y ∈ byidPartRanges old.parts, y.2 = some p := by
    rcases hparts : old.parts with _ | ⟨q, ps⟩
    · rw [hparts] at hp
      cases hp
    · rw [hparts] at hp
      exact part_mem_ranges hp
  have hyi : rangePred y.1 r.id = true := oldRows_inRange hy (by rwa [oldRows, hyp])
  have hsame : x = y := by
    by_contra hne
    rcases List.mem_iff_getElem.mp hx with ⟨m, hm, rfl⟩
    rcases List.mem_iff_getElem.mp hy with ⟨n, hn, rfl⟩
    have hpair := List.pairwise_iff_getElem.mp (pairwise_ranges old)
    rcases lt_trichotomy m n with hlt | rfl | hlt
    · exact lt_irrefl _ (hpair m n hm hn hlt r.id r.id hi hyi)
    · exact hne rfl
    · exact lt_irrefl _ (hpair n m hn hm hlt r.id r.id hyi hi)
  rw [hsame, hyp]

end Ids

/-! ### Every scheme is a partition -/

section Schemes

variable {ρ : Type}

/-- **The parts by row number are the rows.** -/
theorem orderedParts_perm (size : ℕ) (rows : List ρ) :
    (orderedParts size rows).flatten.Perm rows := by
  unfold orderedParts
  split
  case isTrue hnil => simp [hnil]
  case isFalse hne =>
    split
    case isTrue => simp
    case isFalse hsize =>
      have hpos := targetRows_pos (List.length_pos_iff.mpr hne) (not_le.mp hsize)
      set targetRows := (rows.length + (size + spatialPartMaxBytes - 1) / spatialPartMaxBytes - 1) /
        ((size + spatialPartMaxBytes - 1) / spatialPartMaxBytes)
      have honce : ∀ r ∈ rows.zipIdx 1,
          ((rowNumberBounds rows.length targetRows).countP fun b => numberCond b r.2) = 1 := by
        intro r hr
        have hlt := List.mem_zipIdx hr
        rw [countP_rowNumberBounds _ hpos, if_pos (by omega)]
      have hperm := (flatMap_filter_perm_of_once honce).map Prod.fst
      rw [List.map_flatMap, List.zipIdx_map_fst] at hperm
      rwa [List.flatMap_def] at hperm

/-- **The three schemes are partitions**: a row with a key is in one range between the cuts, a row
number in one range of numbers, and an id in one range of the by-id history, which is that of the
part with its rows if there is one. -/
theorem schemes_partition :
    (∀ (key : ρ → Option ℤ) (rows : List ρ) (total targetRows : ℕ) (qs : List ℤ), ∀ r ∈ rows,
      (key r).isSome → ((boundsAt total targetRows qs).countP fun b => selects b (key r)) = 1) ∧
    (∀ totalRows targetRows : ℕ, 0 < targetRows → ∀ rn : ℕ,
      ((rowNumberBounds totalRows targetRows).countP fun b => numberCond b rn) =
        if 1 ≤ rn ∧ rn ≤ totalRows then 1 else 0) ∧
    ∀ {α : Type} (old : HistoryParts α) (i : ℤ),
      ((byidPartRanges old.parts).countP fun x => rangePred x.1 i) = 1 ∧
      ∀ p ∈ old.parts, ∀ r ∈ p.rows, r.id = i →
        ∀ x ∈ byidPartRanges old.parts, rangePred x.1 i = true → x.2 = some p := by
  refine ⟨?_, fun totalRows targetRows ht rn => countP_rowNumberBounds totalRows ht rn, ?_⟩
  · intro key rows total targetRows qs r _ hr
    obtain ⟨k, hk⟩ := Option.isSome_iff_exists.mp hr
    rw [hk]
    exact countP_boundsAt total targetRows qs k
  · intro α old i
    refine ⟨countP_byidPartRanges old i, ?_⟩
    rintro p hp r hr rfl x hx hi
    exact owner_of_row hp hr hx hi

/-- A by-id history with rows of the ids `3` and `8` in two parts. -/
def twoHistoryParts : HistoryParts Unit where
  parts :=
    [⟨3, 3, [⟨3, some 1, 0, some 5, some 5, none, true, none, some ()⟩], le_rfl, by simp⟩,
      ⟨8, 8, [⟨8, some 1, 0, some 6, some 6, none, true, none, some ()⟩], le_rfl, by simp⟩]
  sorted := by simp

/-- Ten rows in parts of four: the fifth row is in the second part only; and the id `8` is in the
range of the second part only, that of its row. -/
theorem schemes_partition_ten :
    ((rowNumberBounds 10 4).countP fun b => numberCond b 5) = 1 ∧
      rowNumberBounds 10 4 = [(1, 5), (5, 9), (9, 11)] ∧
      ((boundsAt 10 4 [7, 3, 7]).countP fun b => selects b (some 7)) = 1 ∧
      boundsAt 10 4 [7, 3, 7] = [(none, some 3), (some 3, some 7), (some 7, none)] ∧
      ((byidPartRanges twoHistoryParts.parts).countP fun x => rangePred x.1 8) = 1 ∧
      ∀ x ∈ byidPartRanges twoHistoryParts.parts, rangePred x.1 8 = true → x.2.isSome :=
  ⟨(schemes_partition (ρ := ℤ)).2.1 10 4 (by decide) 5, by decide,
    (schemes_partition (ρ := ℤ)).1 some [7] 10 4 [7, 3, 7] 7 (by decide) rfl, by decide,
    ((schemes_partition (ρ := ℤ)).2.2 twoHistoryParts 8).1, fun x hx hi =>
      Option.isSome_of_eq_some (((schemes_partition (ρ := ℤ)).2.2 twoHistoryParts 8).2 _
        (List.mem_cons_of_mem _ (List.mem_singleton_self _)) _
        (List.mem_singleton_self _) rfl x hx hi)⟩

end Schemes

end OsmParquet.PartRanges
