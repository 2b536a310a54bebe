import Mathlib.Data.Finset.Card
import Mathlib.Data.Finset.Prod
import Mathlib.Data.Set.Function
import Mathlib.Tactic.Positivity

/-!
The Hilbert curve on a square grid of `2 ^ k` columns and rows.

The curve of level `k + 1` visits the four quadrants one after another, each along a copy of
the curve of level `k`: the first copy is mirrored in the rising diagonal, the last in the
falling one. `enter` takes a point of the large square to the copy in its quadrant, `leave`
takes it back, and `index` is the place of a point along the curve.
-/

namespace OsmParquet.HilbertCurve

/-- The points of the grid of level `k`. -/
def grid (k : ℕ) : Set (ℕ × ℕ) := {p | p.1 < 2 ^ k ∧ p.2 < 2 ^ k}

/-- One step left, right, up or down. -/
def Neighbours (p q : ℕ × ℕ) : Prop :=
  (p.1 = q.1 ∧ (p.2 + 1 = q.2 ∨ q.2 + 1 = p.2)) ∨ (p.2 = q.2 ∧ (p.1 + 1 = q.1 ∨ q.1 + 1 = p.1))

/-- The place of a point's quadrant along the curve, in a square of side `2 * s`. -/
def quadrant (s : ℕ) (p : ℕ × ℕ) : ℕ :=
  if p.1 < s then (if p.2 < s then 0 else 1) else (if p.2 < s then 3 else 2)

/-- The point in the copy of the smaller curve. -/
def enter (s : ℕ) (p : ℕ × ℕ) : ℕ × ℕ :=
  if p.1 < s then (if p.2 < s then (p.2, p.1) else (p.1, p.2 - s))
  else (if p.2 < s then (s - 1 - p.2, 2 * s - 1 - p.1) else (p.1 - s, p.2 - s))

/-- The point of the larger square that a point of quadrant `q` stands for. -/
def leave (s q : ℕ) (p : ℕ × ℕ) : ℕ × ℕ :=
  if q = 0 then (p.2, p.1)
  else if q = 1 then (p.1, p.2 + s)
  else if q = 2 then (p.1 + s, p.2 + s)
  else (2 * s - 1 - p.2, s - 1 - p.1)

/-- The place of a point along the curve of level `k`. -/
def index : ℕ → ℕ × ℕ → ℕ
  | 0, _ => 0
  | k + 1, p => quadrant (2 ^ k) p * 4 ^ k + index k (enter (2 ^ k) p)

variable {s k q : ℕ} {p p' : ℕ × ℕ}

lemma quadrant_lt (s : ℕ) (p : ℕ × ℕ) : quadrant s p < 4 := by
  unfold quadrant
  split_ifs <;> omega

lemma enter_lt (h₁ : p.1 < 2 * s) (h₂ : p.2 < 2 * s) : (enter s p).1 < s ∧ (enter s p).2 < s := by
  unfold enter
  split_ifs <;> constructor <;> dsimp only <;> omega

lemma enter_mem_grid (h : p ∈ grid (k + 1)) : enter (2 ^ k) p ∈ grid k := by
  obtain ⟨h₁, h₂⟩ := h
  rw [pow_succ, mul_comm] at h₁ h₂
  exact enter_lt h₁ h₂

lemma leave_enter (h₁ : p.1 < 2 * s) (h₂ : p.2 < 2 * s) :
    leave s (quadrant s p) (enter s p) = p := by
  obtain ⟨x, y⟩ := p
  unfold leave enter quadrant
  dsimp only at *
  split_ifs <;> simp_all
  omega

lemma leave_enter_of_mem (h : p ∈ grid (k + 1)) :
    leave (2 ^ k) (quadrant (2 ^ k) p) (enter (2 ^ k) p) = p := by
  obtain ⟨h₁, h₂⟩ := h
  rw [pow_succ, mul_comm] at h₁ h₂
  exact leave_enter h₁ h₂

/-- Neighbours in a copy of the curve are neighbours in the quadrant. -/
lemma leave_neighbours (h₁ : p.1 < s ∧ p.2 < s) (h₂ : p'.1 < s ∧ p'.2 < s) (h : Neighbours p p') :
    Neighbours (leave s q p) (leave s q p') := by
  unfold Neighbours leave at *
  split_ifs <;> dsimp only <;> omega

/-- The end of one copy of the curve is a neighbour of the beginning of the next. -/
lemma leave_joins (hs : 0 < s) (hq : q < 3) :
    Neighbours (leave s q (s - 1, 0)) (leave s (q + 1) (0, 0)) := by
  have : q = 0 ∨ q = 1 ∨ q = 2 := by omega
  rcases this with rfl | rfl | rfl <;> simp [Neighbours, leave] <;> omega

/-! ### The curve fills the grid -/

lemma index_lt : ∀ (k : ℕ) (p : ℕ × ℕ), index k p < 4 ^ k
  | 0, _ => by simp [index]
  | k + 1, p => by
    have hi := index_lt k (enter (2 ^ k) p)
    have hq := quadrant_lt (2 ^ k) p
    have : quadrant (2 ^ k) p * 4 ^ k ≤ 3 * 4 ^ k := Nat.mul_le_mul_right _ (by omega)
    simp only [index, pow_succ]
    omega

/-- The quadrant and the place in it can be read off the place along the whole curve. -/
lemma split_of_eq {a b i j n : ℕ} (hi : i < n) (hj : j < n) (h : a * n + i = b * n + j) :
    a = b ∧ i = j := by
  have ha : (a * n + i) / n = a := by
    rw [mul_comm, Nat.mul_add_div (by omega), Nat.div_eq_of_lt hi, add_zero]
  have hb : (b * n + j) / n = b := by
    rw [mul_comm, Nat.mul_add_div (by omega), Nat.div_eq_of_lt hj, add_zero]
  have hab : a = b := by rw [← ha, ← hb, h]
  subst hab
  exact ⟨rfl, by omega⟩

theorem index_injOn (k : ℕ) : Set.InjOn (index k) (grid k) := by
  induction k with
  | zero =>
    rintro ⟨x, y⟩ ⟨hx, hy⟩ ⟨x', y'⟩ ⟨hx', hy'⟩ -
    simp only [pow_zero, Nat.lt_one_iff] at hx hy hx' hy'
    simp only [hx, hy, hx', hy']
  | succ k ih =>
    intro p hp p' hp' h
    simp only [index] at h
    obtain ⟨hq, hi⟩ := split_of_eq (index_lt k _) (index_lt k _) h
    have he := ih (enter_mem_grid hp) (enter_mem_grid hp') hi
    rw [← leave_enter_of_mem hp, ← leave_enter_of_mem hp', hq, he]

/-- **The curve visits every point of the grid once.** -/
theorem index_bijOn (k : ℕ) : Set.BijOn (index k) (grid k) (Set.Iio (4 ^ k)) := by
  refine ⟨fun p _ => index_lt k p, index_injOn k, ?_⟩
  -- an injection between finite sets of one size is onto
  have hcard : (Finset.range (4 ^ k)).card ≤
      (Finset.range (2 ^ k) ×ˢ Finset.range (2 ^ k)).card := by
    rw [Finset.card_product, Finset.card_range, Finset.card_range, ← mul_pow]
    norm_num
  have hmem : ∀ p ∈ Finset.range (2 ^ k) ×ˢ Finset.range (2 ^ k), p ∈ grid k := by
    intro p hp
    simpa [grid] using hp
  have honto := Finset.surjOn_of_injOn_of_card_le (index k)
    (s := Finset.range (2 ^ k) ×ˢ Finset.range (2 ^ k)) (t := Finset.range (4 ^ k))
    (fun p _ => by simpa using index_lt k p)
    (fun p hp p' hp' h => index_injOn k (hmem p hp) (hmem p' hp') h) hcard
  intro d hd
  obtain ⟨p, hp, rfl⟩ := honto (show d ∈ (Finset.range (4 ^ k) : Set ℕ) by simpa using hd)
  exact ⟨p, hmem p hp, rfl⟩

/-! ### Consecutive points are neighbours -/

lemma index_first (k : ℕ) : index k (0, 0) = 0 := by
  induction k with
  | zero => rfl
  | succ k ih =>
    have : 0 < 2 ^ k := by positivity
    simp [index, quadrant, enter, this, ih]

lemma index_last (k : ℕ) : index k (2 ^ k - 1, 0) = 4 ^ k - 1 := by
  induction k with
  | zero => rfl
  | succ k ih =>
    have h₁ : 0 < 2 ^ k := by positivity
    have h₂ : 0 < 4 ^ k := by positivity
    have hp : 2 ^ (k + 1) = 2 * 2 ^ k := by rw [pow_succ, mul_comm]
    have hx : ¬2 * 2 ^ k - 1 < 2 ^ k := by omega
    have he : enter (2 ^ k) (2 * 2 ^ k - 1, 0) = (2 ^ k - 1, 0) := by
      simp only [enter, hx, h₁, if_true, if_false, Nat.sub_self, Nat.sub_zero]
    have hq : quadrant (2 ^ k) (2 * 2 ^ k - 1, 0) = 3 := by
      simp only [quadrant, hx, h₁, if_true, if_false]
    rw [index, hp, he, hq, ih, pow_succ]
    omega

lemma eq_first_of_index (h : p ∈ grid k) (h0 : index k p = 0) : p = (0, 0) :=
  index_injOn k h ⟨by positivity, by positivity⟩ (by rw [h0, index_first])

lemma eq_last_of_index (h : p ∈ grid k) (h0 : index k p = 4 ^ k - 1) : p = (2 ^ k - 1, 0) :=
  index_injOn k h ⟨Nat.sub_lt (by positivity) (by omega), by positivity⟩ (by rw [h0, index_last])

/-- **Points with consecutive indices are neighbours.** -/
theorem index_neighbours {k : ℕ} (hp : p ∈ grid k) (hp' : p' ∈ grid k)
    (h : index k p' = index k p + 1) : Neighbours p p' := by
  induction k generalizing p p' with
  | zero => simp [index] at h
  | succ k ih =>
    have hi := index_lt k (enter (2 ^ k) p)
    have hi' := index_lt k (enter (2 ^ k) p')
    rw [← leave_enter_of_mem hp, ← leave_enter_of_mem hp']
    simp only [index] at h
    by_cases hlast : index k (enter (2 ^ k) p) + 1 < 4 ^ k
    · -- both points are in one quadrant
      obtain ⟨hq, hstep⟩ := split_of_eq hi' hlast (by rw [h, add_assoc])
      rw [hq]
      exact leave_neighbours (enter_mem_grid hp) (enter_mem_grid hp')
        (ih (enter_mem_grid hp) (enter_mem_grid hp') hstep)
    · -- the curve goes on in the next quadrant
      have hend : index k (enter (2 ^ k) p) = 4 ^ k - 1 := by omega
      have hpos : 0 < 4 ^ k := by positivity
      obtain ⟨hq, hstart⟩ := split_of_eq (j := 0) (b := quadrant (2 ^ k) p + 1) hi' hpos (by
        rw [h, hend, Nat.succ_mul]
        omega)
      have hq3 := quadrant_lt (2 ^ k) p'
      rw [eq_last_of_index (enter_mem_grid hp) hend,
        eq_first_of_index (enter_mem_grid hp') hstart, hq]
      exact leave_joins (by positivity) (by omega)

end OsmParquet.HilbertCurve
