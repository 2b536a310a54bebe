import Mathlib.Algebra.BigOperators.Group.List.Basic
import Mathlib.Algebra.Order.BigOperators.Group.List
import Mathlib.Algebra.Order.Ring.Nat
import Mathlib.Data.List.Induction
import Mathlib.Data.List.Count
import Mathlib.Data.List.Dedup
import Mathlib.Data.List.Sort
import Mathlib.Tactic.Common

/-!
Counting by cumulative sums.

How many elements of a list lie in a range can be read off the cumulative sums of their counts,
either over the distinct elements in order or over all the numbers up to a size. Counters that stop
at a cap still tell whether a sum is above a bound less than the cap.
-/

namespace OsmParquet.Histogram

/-! ### Cumulative sums -/

/-- The sums of the first counts: none, one, two and so on. -/
def cumulative (counts : List ℕ) : List ℕ := counts.scanl (· + ·) 0

/-- The sum of the counts from one place up to another. -/
def between (cum : List ℕ) (i j : ℕ) : ℕ := (cum[j]?).getD 0 - (cum[i]?).getD 0

section Sums

variable {counts : List ℕ} {i j : ℕ}

lemma getElem?_scanl {a : ℕ} (hi : i ≤ counts.length) :
    (counts.scanl (· + ·) a)[i]? = some (a + (counts.take i).sum) := by
  induction counts generalizing a i with
  | nil =>
    obtain rfl : i = 0 := Nat.le_zero.mp hi
    simp
  | cons c counts ih =>
    rcases i with _ | i
    · simp
    · rw [List.scanl_cons, List.getElem?_cons_succ, ih (Nat.le_of_succ_le_succ hi),
        List.take_succ_cons, List.sum_cons, Nat.add_assoc]

lemma between_eq (hij : i ≤ j) (hj : j ≤ counts.length) :
    between (cumulative counts) i j = ((counts.take j).drop i).sum := by
  have hsplit : (counts.take j).sum = (counts.take i).sum + ((counts.take j).drop i).sum := by
    rw [← List.sum_append]
    congr 1
    conv_lhs => rw [← List.take_append_drop i (counts.take j)]
    rw [List.take_take, Nat.min_eq_left hij]
  rw [between, cumulative, getElem?_scanl hj, getElem?_scanl (hij.trans hj)]
  simp only [Option.getD_some, Nat.zero_add]
  omega

end Sums

/-! ### Counting elements -/

section Counting

variable {α : Type*} [DecidableEq α]

/-- The counts of different elements add up to the number of elements among them. -/
lemma sum_map_count {xs : List α} {values : List α} (hv : values.Nodup) :
    (values.map fun v => xs.count v).sum = xs.countP fun x => x ∈ values := by
  induction values with
  | nil => simp
  | cons v values ih =>
    obtain ⟨hnot, hv⟩ := List.nodup_cons.mp hv
    rw [List.map_cons, List.sum_cons, ih hv]
    clear ih
    induction xs with
    | nil => rfl
    | cons x xs ihx =>
      simp only [List.count_cons, List.countP_cons, List.mem_cons, decide_eq_true_eq,
        beq_iff_eq] at ihx ⊢
      by_cases hx : x = v
      · subst hx
        simp only [hnot, if_true, if_false, true_or]
        omega
      · simp only [hx, if_false, false_or]
        omega

end Counting

/-- In a sorted list the elements up to the first one without a property that smaller elements have
too are those with it. -/
lemma take_findIdx_eq_filter {sorted : List ℕ} (hs : sorted.Pairwise (· ≤ ·)) {P : ℕ → Bool}
    (hP : ∀ a b, a ≤ b → P b = true → P a = true) :
    sorted.take (sorted.findIdx fun x => !P x) = sorted.filter P := by
  induction sorted with
  | nil => rfl
  | cons a sorted ih =>
    obtain ⟨hle, hs⟩ := List.pairwise_cons.mp hs
    rw [List.findIdx_cons]
    by_cases ha : P a = true
    · simp only [ha, Bool.not_true, cond_false, List.take_succ_cons, List.filter_cons,
        if_true, ih hs]
    · have hnone : sorted.filter P = [] :=
        List.filter_eq_nil_iff.mpr fun b hb h => ha (hP a b (hle b hb) h)
      simp only [ha, Bool.not_false, cond_true, List.take_zero, List.filter_cons, hnone]
      simp

/-- Filtering by a property and leaving out those with a stronger one. -/
lemma drop_filter_sorted {sorted : List ℕ} (hs : sorted.Pairwise (· ≤ ·)) {P Q : ℕ → Bool}
    (hQ : ∀ a b, a ≤ b → Q b = true → Q a = true) (hQP : ∀ a, Q a = true → P a = true) :
    (sorted.filter P).drop (sorted.filter Q).length = sorted.filter fun x => P x && !Q x := by
  induction sorted with
  | nil => rfl
  | cons a sorted ih =>
    obtain ⟨hle, hs⟩ := List.pairwise_cons.mp hs
    by_cases hq : Q a = true
    · simp only [List.filter_cons, hQP a hq, hq, if_true, List.length_cons, List.drop_succ_cons,
        Bool.not_true, Bool.and_false, Bool.false_eq_true, if_false]
      exact ih hs
    · have hnone : ∀ b ∈ a :: sorted, Q b = false := by
        intro b hb
        rcases List.mem_cons.mp hb with rfl | hb
        · exact Bool.eq_false_iff.mpr hq
        · exact Bool.eq_false_iff.mpr fun h => hq (hQ a b (hle b hb) h)
      have hnil : (a :: sorted).filter Q = [] :=
        List.filter_eq_nil_iff.mpr fun b hb h => by rw [hnone b hb] at h; cases h
      rw [hnil, List.length_nil, List.drop_zero]
      refine List.filter_congr fun b hb => ?_
      rw [hnone b hb, Bool.not_false, Bool.and_true]

/-! ### Counts of distinct elements -/

/-- The distinct elements in order. -/
def uniqueCodes (xs : List ℕ) : List ℕ := xs.dedup.insertionSort (· ≤ ·)

/-- How often each of the distinct elements occurs. -/
def uniqueCounts (xs : List ℕ) : List ℕ := (uniqueCodes xs).map fun x => xs.count x

lemma sorted_uniqueCodes (xs : List ℕ) : (uniqueCodes xs).Pairwise (· ≤ ·) :=
  List.pairwise_insertionSort _ _

lemma nodup_uniqueCodes (xs : List ℕ) : (uniqueCodes xs).Nodup :=
  (List.perm_insertionSort _ _).nodup_iff.mpr (List.nodup_dedup xs)

lemma mem_uniqueCodes {xs : List ℕ} {x : ℕ} : x ∈ uniqueCodes xs ↔ x ∈ xs := by
  rw [uniqueCodes, List.mem_insertionSort, List.mem_dedup]

/-- **The cumulative counts of the distinct elements give the number of elements in a range.** -/
lemma between_unique (xs : List ℕ) {lo hi : ℕ} (h : lo ≤ hi) :
    between (cumulative (uniqueCounts xs)) ((uniqueCodes xs).findIdx fun x => lo ≤ x)
      ((uniqueCodes xs).findIdx fun x => hi < x) = xs.countP fun x => lo ≤ x ∧ x ≤ hi := by
  have hs := sorted_uniqueCodes xs
  have hlow : (uniqueCodes xs).take ((uniqueCodes xs).findIdx fun x => lo ≤ x) =
      (uniqueCodes xs).filter fun x => x < lo := by
    have hnot : (fun x => decide (lo ≤ x)) = fun x => !decide (x < lo) := by
      funext x
      rw [Bool.eq_iff_iff]
      simp
    rw [hnot]
    refine take_findIdx_eq_filter hs fun a b hab hb => ?_
    simp only [decide_eq_true_eq] at hb ⊢
    omega
  have hhigh : (uniqueCodes xs).take ((uniqueCodes xs).findIdx fun x => hi < x) =
      (uniqueCodes xs).filter fun x => x ≤ hi := by
    have hnot : (fun x => decide (hi < x)) = fun x => !decide (x ≤ hi) := by
      funext x
      rw [Bool.eq_iff_iff]
      simp
    rw [hnot]
    refine take_findIdx_eq_filter hs fun a b hab hb => ?_
    simp only [decide_eq_true_eq] at hb ⊢
    omega
  have hlen : ((uniqueCodes xs).findIdx fun x => lo ≤ x) =
      ((uniqueCodes xs).filter fun x => x < lo).length := by
    rw [← hlow, List.length_take, Nat.min_eq_left List.findIdx_le_length]
  have hle : ((uniqueCodes xs).findIdx fun x => lo ≤ x) ≤
      (uniqueCodes xs).findIdx fun x => hi < x := by
    have hlen' : ((uniqueCodes xs).findIdx fun x => hi < x) =
        ((uniqueCodes xs).filter fun x => x ≤ hi).length := by
      rw [← hhigh, List.length_take, Nat.min_eq_left List.findIdx_le_length]
    rw [hlen, hlen']
    refine (List.monotone_filter_right _ fun x hx => ?_).length_le
    simp only [decide_eq_true_eq] at hx ⊢
    omega
  rw [between_eq hle (by rw [uniqueCounts, List.length_map]; exact List.findIdx_le_length),
    uniqueCounts, ← List.map_take, ← List.map_drop, hhigh, hlen, drop_filter_sorted hs
      (fun a b hab hb => by simp only [decide_eq_true_eq] at hb ⊢; omega)
      (fun a ha => by simp only [decide_eq_true_eq] at ha ⊢; omega),
    sum_map_count ((nodup_uniqueCodes xs).filter _)]
  refine List.countP_congr fun x hx => ?_
  simp only [List.mem_filter, mem_uniqueCodes, hx, Bool.and_eq_true, Bool.not_eq_true',
    decide_eq_true_eq, decide_eq_false_iff_not, true_and]
  omega

/-! ### Counters with a cap -/

/-- A counter goes up by one, or stays at the cap. -/
def bump (cap : ℕ) (counts : List ℕ) (code : ℕ) : List ℕ :=
  counts.modify code fun c => min (c + 1) cap

/-- One counter for each number below a size. -/
def capped (cap size : ℕ) (codes : List ℕ) : List ℕ :=
  codes.foldl (bump cap) (List.replicate size 0)

section Capped

variable {cap size bound : ℕ} {codes : List ℕ}

lemma capped_eq (cap size : ℕ) (codes : List ℕ) :
    capped cap size codes = (List.range size).map fun c => min (codes.count c) cap := by
  induction codes using List.reverseRecOn with
  | nil =>
    refine List.ext_getElem (by simp [capped]) fun i h1 h2 => ?_
    simp [capped]
  | append_singleton codes code ih =>
    rw [capped] at ih ⊢
    rw [List.foldl_append, List.foldl_cons, List.foldl_nil, ih, bump]
    refine List.ext_getElem (by simp) fun i h1 h2 => ?_
    rw [List.getElem_modify]
    simp only [List.getElem_map, List.getElem_range, List.count_append,
      List.count_singleton, beq_iff_eq]
    split
    · omega
    · rw [Nat.add_zero]

/-- With a bound below the cap, or counts that do not reach it, the cap makes no difference to
whether a sum of counts is within the bound. -/
lemma sum_capped_le_iff {f : ℕ → ℕ} {values : List ℕ}
    (h : bound < cap ∨ ∀ v ∈ values, f v ≤ cap) :
    (values.map fun v => min (f v) cap).sum ≤ bound ↔ (values.map f).sum ≤ bound := by
  by_cases hall : ∀ v ∈ values, f v ≤ cap
  · rw [List.map_congr_left fun v hv => Nat.min_eq_left (hall v hv)]
  · push Not at hall
    obtain ⟨v, hv, hover⟩ := hall
    have hcap : bound < cap := h.resolve_right fun hle => absurd (hle v hv) (by omega)
    have h1 : min (f v) cap ≤ (values.map fun v => min (f v) cap).sum :=
      List.single_le_sum (fun _ _ => Nat.zero_le _) _ (List.mem_map_of_mem hv)
    have h2 : f v ≤ (values.map f).sum :=
      List.single_le_sum (fun _ _ => Nat.zero_le _) _ (List.mem_map_of_mem hv)
    exact iff_of_false (by omega) (by omega)

lemma sum_capped_pos_iff (hcap : 0 < cap) {f : ℕ → ℕ} {values : List ℕ} :
    0 < (values.map fun v => min (f v) cap).sum ↔ 0 < (values.map f).sum := by
  have h : (values.map fun v => min (f v) cap).sum ≤ 0 ↔ (values.map f).sum ≤ 0 :=
    sum_capped_le_iff (Or.inl hcap)
  omega

/-- What the cumulative sums of capped counters say of a range. -/
lemma between_capped {lo span : ℕ} (h : lo + span ≤ size) :
    between (cumulative (capped cap size codes)) lo (lo + span) =
      ((List.range' lo span).map fun c => min (codes.count c) cap).sum := by
  have hlen : (capped cap size codes).length = size := by simp [capped_eq]
  rw [between_eq (Nat.le_add_right _ _) (hlen.symm ▸ h),
    capped_eq, ← List.map_take, ← List.map_drop, List.take_range, Nat.min_eq_left h,
    List.range_eq_range', List.drop_range', Nat.zero_add, Nat.mul_one, Nat.add_sub_cancel_left]

lemma sum_count_range (codes : List ℕ) (lo span : ℕ) :
    ((List.range' lo span).map fun c => codes.count c).sum =
      codes.countP fun x => lo ≤ x ∧ x < lo + span := by
  rw [sum_map_count List.nodup_range']
  refine List.countP_congr fun x _ => ?_
  simp only [List.mem_range'_1, decide_eq_true_eq]

end Capped

end OsmParquet.Histogram
