import Mathlib.Algebra.Ring.Nat
import Mathlib.Data.List.Dedup
import Mathlib.Data.List.Nodup
import Mathlib.Algebra.BigOperators.Group.List.Basic

/-!
A table joined with itself.

When a table is joined with itself on a key, every row comes once for each row with the same key.
So the join gives the table back exactly if the key is unique. A database does it group by group,
and the order of the rows in a group does not matter.
-/

namespace OsmParquet.SelfJoin

open List

variable {α β κ : Type} [DecidableEq κ]

/-- The rows of all groups are the rows of the table. -/
lemma flatMap_groups_perm (key : α → κ) {keys : List κ} (hn : keys.Nodup) {l : List α}
    (hall : ∀ a ∈ l, key a ∈ keys) : (keys.flatMap fun k => l.filter fun a => key a = k) ~ l := by
  induction keys generalizing l with
  | nil =>
    cases l with
    | nil => rfl
    | cons a l => exact absurd (hall a mem_cons_self) (by simp)
  | cons k ks ih =>
    obtain ⟨hk, hks⟩ := nodup_cons.mp hn
    -- the rows of the other groups are the other rows
    have hrest : ∀ a ∈ l.filter (fun a => ¬ key a = k), key a ∈ ks := by
      intro a ha
      obtain ⟨hmem, hne⟩ := mem_filter.mp ha
      exact (mem_cons.mp (hall a hmem)).resolve_left (of_decide_eq_true hne)
    have hgroups : (ks.flatMap fun j => l.filter fun a => key a = j) =
        ks.flatMap fun j => (l.filter fun a => ¬ key a = k).filter fun a => key a = j := by
      refine flatMap_congr fun j hj => ?_
      rw [filter_filter]
      refine filter_congr fun a _ => ?_
      have hjk : j ≠ k := fun h => hk (h ▸ hj)
      by_cases ha : key a = j
      · simp [ha, hjk]
      · simp [ha]
    rw [flatMap_cons, hgroups]
    have hsplit : (l.filter fun a => key a = k) ++ (l.filter fun a => ¬ key a = k) ~ l := by
      simpa using filter_append_perm (fun a => decide (key a = k)) l
    exact ((ih hks hrest).append_left _).trans hsplit

/-- The rows with the key of `r`. -/
def matchCount (key : α → κ) (l : List α) (r : α) : ℕ := l.countP fun a => key a = key r

/-- Every row as often as it comes out of a join. -/
def repeated (f : α → β) (m : α → ℕ) (l : List α) : List β :=
  l.flatMap fun r => replicate (m r) (f r)

section Repeated

variable {key : α → κ} {f : α → β} {m : α → ℕ} {l : List α}

lemma repeated_one (h : ∀ r ∈ l, m r = 1) : repeated f m l = l.map f := by
  rw [repeated, map_eq_flatMap]
  refine flatMap_congr fun r hr => ?_
  rw [h r hr]
  rfl

lemma length_repeated : (repeated f m l).length = (l.map m).sum := by
  rw [repeated, length_flatMap]
  simp

lemma le_sum_of_pos (h : ∀ r ∈ l, 1 ≤ m r) : l.length ≤ (l.map m).sum := by
  induction l with
  | nil => simp
  | cons r l ih =>
    have hr := h r mem_cons_self
    have hl := ih fun x hx => h x (mem_cons_of_mem _ hx)
    rw [map_cons, sum_cons, length_cons]
    omega

/-- When no row is lost and none is added in all, each comes once. -/
lemma one_of_sum (h : ∀ r ∈ l, 1 ≤ m r) (hs : (l.map m).sum = l.length) : ∀ r ∈ l, m r = 1 := by
  induction l with
  | nil => simp
  | cons r l ih =>
    have hr := h r mem_cons_self
    have hl := le_sum_of_pos fun x hx => h x (mem_cons_of_mem _ hx)
    rw [map_cons, sum_cons, length_cons] at hs
    intro x hx
    rcases mem_cons.mp hx with rfl | hx
    · omega
    · exact ih (fun x hx => h x (mem_cons_of_mem _ hx)) (by omega) x hx

lemma matchCount_eq_count {r : α} : matchCount key l r = (l.map key).count (key r) := by
  rw [matchCount, count, countP_map]
  refine countP_congr fun a _ => ?_
  simp

/-- **A join gives a table back exactly if the key is unique.** -/
lemma repeated_perm_iff (hm : ∀ r ∈ l, m r = matchCount key l r) :
    repeated f m l ~ l.map f ↔ (l.map key).Nodup := by
  have hpos : ∀ r ∈ l, 1 ≤ m r := by
    intro r hr
    rw [hm r hr, matchCount_eq_count]
    exact count_pos_iff.mpr (mem_map_of_mem hr)
  constructor
  · intro h
    have hlen := h.length_eq
    rw [length_repeated, length_map] at hlen
    refine nodup_iff_count_eq_one.mpr fun k hk => ?_
    obtain ⟨r, hr, rfl⟩ := mem_map.mp hk
    rw [← matchCount_eq_count, ← hm r hr, one_of_sum hpos hlen r hr]
  · intro h
    rw [repeated_one]
    intro r hr
    rw [hm r hr, matchCount_eq_count]
    exact nodup_iff_count_eq_one.mp h _ (mem_map_of_mem hr)

end Repeated

end OsmParquet.SelfJoin
