import Mathlib.Data.List.Sort
import Mathlib.Order.WithBot

/-!
Rows that hold from some time on.

A table has for every key several rows, each valid from its start. What holds at a time is a row
that comes first in some order among those that have started. A row can also be given an end, the
start of the next one, so that a reader skips it early. Two tables give the same answers when one
is cofinal in the other: a part of it in which every row meets one that is at least as good.
-/

namespace OsmParquet.Timeline

variable {ρ κ τ : Type*}

/-! ### The best rows -/

section Best

variable [Preorder κ] (key : ρ → κ)

/-- A row that no other row of the table comes before. Rows with the same key tie. -/
def Best (l : List ρ) (r : ρ) : Prop := r ∈ l ∧ ∀ x ∈ l, key x ≤ key r

/-- The rows of `b` are rows of `a`, and every row of `a` finds one in `b` that is as good. -/
structure Cofinal (a b : List ρ) : Prop where
  sub : ∀ r ∈ b, r ∈ a
  above : ∀ x ∈ a, ∃ r ∈ b, key x ≤ key r

variable {key} {a b : List ρ} {r : ρ}

/-- What is best in a cofinal part is best in the whole. -/
lemma Cofinal.best (h : Cofinal key a b) (hr : Best key b r) : Best key a r := by
  refine ⟨h.sub r hr.1, fun x hx => ?_⟩
  obtain ⟨y, hy, hxy⟩ := h.above x hx
  exact hxy.trans (hr.2 y hy)

lemma Cofinal.ne_nil (h : Cofinal key a b) (ha : a ≠ []) : b ≠ [] := by
  obtain ⟨x, hx⟩ := List.exists_mem_of_ne_nil a ha
  obtain ⟨y, hy, -⟩ := h.above x hx
  exact List.ne_nil_of_mem hy

end Best

/-- What is best among projected rows is the projection of a best row. -/
lemma best_map {σ : Type*} [Preorder κ] (key : ρ → κ) (f : σ → ρ) {l : List σ} {r : ρ} :
    Best key (l.map f) r ↔ ∃ z, Best (fun x => key (f x)) l z ∧ f z = r := by
  constructor
  · rintro ⟨hr, hbest⟩
    obtain ⟨z, hz, rfl⟩ := List.mem_map.mp hr
    exact ⟨z, ⟨hz, fun x hx => hbest (f x) (List.mem_map_of_mem hx)⟩, rfl⟩
  · rintro ⟨z, ⟨hz, hbest⟩, rfl⟩
    refine ⟨List.mem_map_of_mem hz, fun x hx => ?_⟩
    obtain ⟨y, hy, rfl⟩ := List.mem_map.mp hx
    exact hbest y hy

lemma best_congr [Preorder κ] {key : ρ → κ} {l l' : List ρ} {r : ρ} (h : ∀ x, x ∈ l ↔ x ∈ l') :
    Best key l r ↔ Best key l' r := by
  simp only [Best, h]

/-- Of some rows one is the best. -/
lemma exists_best [LinearOrder κ] (key : ρ → κ) {l : List ρ} (h : l ≠ []) : ∃ r, Best key l r := by
  obtain ⟨r, hr⟩ := Option.isSome_iff_exists.mp (List.isSome_maxOn?_iff (f := key) |>.mpr h)
  refine ⟨r, List.maxOn?_mem hr, fun x hx => ?_⟩
  have hle := List.le_apply_get_maxOn?_of_mem (f := key) hx
  simpa [hr] using hle

/-! ### Ends -/

section Leads

variable [LinearOrder τ] (start : ρ → WithTop τ)

/-- Every row with the start of the next one. -/
def leads : List ρ → List (ρ × WithTop τ)
  | [] => []
  | [r] => [(r, ⊤)]
  | r :: r' :: l => (r, start r') :: leads (r' :: l)

/-- The row has started and the next one has not. -/
def Runs (t : τ) (p : ρ × WithTop τ) : Prop := start p.1 ≤ t ∧ (t : WithTop τ) < p.2

instance (t : τ) : DecidablePred (Runs start t) := fun _ => instDecidableAnd

variable {start} {t : τ}

/-- **At every time one row runs**: the last that has started. -/
lemma runs_leads {l : List ρ} (h : l.Pairwise fun a b => start a ≤ start b) :
    ((leads start l).filter (Runs start t)).map Prod.fst =
      ((l.filter fun r => start r ≤ t).getLast?).toList := by
  induction l with
  | nil => rfl
  | cons r l ih =>
    cases l with
    | nil =>
      by_cases hr : start r ≤ t
      · simp [leads, Runs, hr]
      · simp [leads, Runs, hr]
    | cons r' l =>
      have hl := (List.pairwise_cons.mp h).2
      have hrr' : start r ≤ start r' := (List.pairwise_cons.mp h).1 r' List.mem_cons_self
      by_cases hr' : start r' ≤ t
      · -- the next row has started too
        have hr : start r ≤ t := hrr'.trans hr'
        have hnot : ¬ Runs start t (r, start r') := fun hruns => absurd hr' (not_le.mpr hruns.2)
        have hne : (r' :: l).filter (fun x => start x ≤ t) ≠ [] :=
          List.ne_nil_of_mem (List.mem_filter.mpr ⟨List.mem_cons_self, by simpa using hr'⟩)
        rw [leads, List.filter_cons_of_neg (by simpa using hnot), ih hl,
          List.filter_cons (x := r), if_pos (by simpa using hr)]
        obtain ⟨x, xs, hx⟩ := List.exists_cons_of_ne_nil hne
        rw [hx, List.getLast?_cons_cons]
      · have hnone : ((r' :: l).filter fun x => start x ≤ t) = [] := by
          refine List.filter_eq_nil_iff.mpr fun x hx => ?_
          rcases List.mem_cons.mp hx with rfl | hx
          · simpa using hr'
          · have hle := (List.pairwise_cons.mp hl).1 x hx
            simpa using fun hxt => hr' (hle.trans hxt)
        have hrest : ((leads start (r' :: l)).filter (Runs start t)) = [] := by
          have hempty := ih hl
          rw [hnone] at hempty
          exact List.map_eq_nil_iff.mp hempty
        by_cases hr : start r ≤ t
        · have hruns : Runs start t (r, start r') := ⟨hr, not_le.mp hr'⟩
          rw [leads, List.filter_cons_of_pos (by simpa using hruns), hrest,
            List.filter_cons_of_pos (by simpa using hr), hnone]
          rfl
        · have hnot : ¬ Runs start t (r, start r') := fun hruns => hr hruns.1
          rw [leads, List.filter_cons_of_neg (by simpa using hnot), hrest,
            List.filter_cons_of_neg (by simpa using hr), hnone]
          rfl

end Leads

end OsmParquet.Timeline
