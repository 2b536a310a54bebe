import Mathlib.Algebra.Order.Field.Rat
import Mathlib.Data.List.Induction
import Mathlib.Data.Nat.Bitwise
import Mathlib.Tactic.FieldSimp
import Mathlib.Tactic.Linarith
import Mathlib.Tactic.Ring

/-!
Halving an interval again and again.

A list of bits names an interval: each bit keeps the lower or the upper half of what is left.
Read as a binary number the bits are the position of the interval among all of its length. A
number below `2 ^ n` names, by its first bits, the intervals that contain it.
-/

namespace OsmParquet.Halving

/-- The lower or the upper half of an interval. -/
def half (i : ℚ × ℚ) (upper : Bool) : ℚ × ℚ :=
  if upper then ((i.1 + i.2) / 2, i.2) else (i.1, (i.1 + i.2) / 2)

/-- The interval the bits name, the first bit first. -/
def descend (i : ℚ × ℚ) (bits : List Bool) : ℚ × ℚ := bits.foldl half i

/-- The bits as a number. -/
def bitValue (bits : List Bool) : ℕ := bits.foldl (fun v b => 2 * v + b.toNat) 0

/-- The first `d` of the `n` bits of a number. -/
def leadingBits (n x d : ℕ) : List Bool := (List.range d).map fun k => x.testBit (n - 1 - k)

section

variable {i : ℚ × ℚ} {bits : List Bool} {b : Bool} {n x d : ℕ}

@[simp] lemma bitValue_nil : bitValue [] = 0 := rfl

lemma bitValue_snoc : bitValue (bits ++ [b]) = 2 * bitValue bits + b.toNat := by
  simp [bitValue, List.foldl_append]

lemma descend_snoc : descend i (bits ++ [b]) = half (descend i bits) b := by
  simp [descend, List.foldl_append]

/-- **Where a list of bits leads**: to the interval at its position, of its length. -/
theorem descend_eq (i : ℚ × ℚ) (bits : List Bool) : descend i bits =
    (i.1 + (i.2 - i.1) * bitValue bits / 2 ^ bits.length,
      i.1 + (i.2 - i.1) * (bitValue bits + 1) / 2 ^ bits.length) := by
  induction bits using List.reverseRecOn with
  | nil => simp [descend]
  | append_singleton bits b ih =>
    have hpow : (2 : ℚ) ^ (bits ++ [b]).length = 2 ^ bits.length * 2 := by
      simp [pow_succ]
    have hpos : (2 : ℚ) ^ bits.length ≠ 0 := by positivity
    rw [descend_snoc, ih, hpow, bitValue_snoc]
    cases b with
    | false =>
      refine Prod.ext ?_ ?_
      · simp only [half, Bool.false_eq_true, if_false, Bool.toNat_false]
        push_cast
        field_simp
        ring
      · simp only [half, Bool.false_eq_true, if_false, Bool.toNat_false]
        push_cast
        field_simp
        ring
    | true =>
      refine Prod.ext ?_ ?_
      · simp only [half, if_true, Bool.toNat_true]
        push_cast
        field_simp
        ring
      · simp only [half, if_true, Bool.toNat_true]
        push_cast
        field_simp
        ring

lemma length_leadingBits : (leadingBits n x d).length = d := by simp [leadingBits]

lemma leadingBits_succ : leadingBits n x (d + 1) = leadingBits n x d ++
    [x.testBit (n - 1 - d)] := by
  simp [leadingBits, List.range_succ]

/-- The first bits of a number are the number without the last ones. -/
lemma bitValue_leadingBits (hx : x < 2 ^ n) (hd : d ≤ n) :
    bitValue (leadingBits n x d) = x / 2 ^ (n - d) := by
  induction d with
  | zero => simp [leadingBits, Nat.div_eq_of_lt hx]
  | succ d ih =>
    have hn : n - d = (n - (d + 1)) + 1 := by omega
    have hbit : n - 1 - d = n - (d + 1) := by omega
    rw [leadingBits_succ, bitValue_snoc, ih (by omega), hbit, hn,
      pow_succ, ← Nat.div_div_eq_div_mul, Nat.testBit_eq_decide_div_mod_eq]
    have hmod := Nat.div_add_mod (x / 2 ^ (n - (d + 1))) 2
    have hlt := Nat.mod_lt (x / 2 ^ (n - (d + 1))) (by norm_num : 0 < 2)
    rcases Nat.mod_two_eq_zero_or_one (x / 2 ^ (n - (d + 1))) with h | h
    · simp only [h, decide_false, Bool.toNat_false, zero_ne_one]
      omega
    · simp only [h, decide_true, Bool.toNat_true]
      omega

/-- **A place in the grid lies in every interval its first bits name.** The place is anywhere
between `x` and `x + 1`, the ends included. -/
theorem mem_descend (hx : x < 2 ^ n) (hd : d ≤ n) (hi : i.1 ≤ i.2) {a : ℚ}
    (h1 : i.1 + (i.2 - i.1) * x / 2 ^ n ≤ a) (h2 : a ≤ i.1 + (i.2 - i.1) * (x + 1) / 2 ^ n) :
    (descend i (leadingBits n x d)).1 ≤ a ∧ a ≤ (descend i (leadingBits n x d)).2 := by
  rw [descend_eq, bitValue_leadingBits hx hd, length_leadingBits]
  set k := x / 2 ^ (n - d) with hk
  have hlow : k * 2 ^ (n - d) ≤ x := Nat.div_mul_le_self _ _
  have hhigh : x + 1 ≤ (k + 1) * 2 ^ (n - d) := by
    have h := Nat.lt_mul_div_succ x (Nat.two_pow_pos (n - d))
    rw [mul_comm] at h
    exact h
  have hpow : (2 : ℚ) ^ n = 2 ^ d * 2 ^ (n - d) := by rw [← pow_add]; congr 1; omega
  have hw : 0 ≤ i.2 - i.1 := by linarith
  have hscale : ∀ m : ℚ, (i.2 - i.1) * m / 2 ^ d = (i.2 - i.1) * (m * 2 ^ (n - d)) / 2 ^ n := by
    intro m
    rw [hpow]
    field_simp
  have hlow' : (k : ℚ) * 2 ^ (n - d) ≤ x := by exact_mod_cast hlow
  have hhigh' : (x : ℚ) + 1 ≤ (k + 1) * 2 ^ (n - d) := by exact_mod_cast hhigh
  constructor
  · calc i.1 + (i.2 - i.1) * k / 2 ^ d = i.1 + (i.2 - i.1) * (k * 2 ^ (n - d)) / 2 ^ n := by
          rw [hscale]
      _ ≤ i.1 + (i.2 - i.1) * x / 2 ^ n := by gcongr
      _ ≤ a := h1
  · calc a ≤ i.1 + (i.2 - i.1) * (x + 1) / 2 ^ n := h2
      _ ≤ i.1 + (i.2 - i.1) * ((k + 1) * 2 ^ (n - d)) / 2 ^ n := by gcongr
      _ = i.1 + (i.2 - i.1) * (k + 1) / 2 ^ d := by rw [hscale]

/-- The next bit of a number says on which side of the middle the number lies. -/
lemma testBit_iff_le (hd : d < n) : x.testBit (n - 1 - d) = true ↔
    (2 * (x / 2 ^ (n - d)) + 1) * 2 ^ (n - 1 - d) ≤ x := by
  have hpos : 0 < 2 ^ (n - 1 - d) := Nat.two_pow_pos _
  have hpow : 2 ^ (n - d) = 2 ^ (n - 1 - d) * 2 := by rw [← pow_succ]; congr 1; omega
  rw [Nat.testBit_eq_decide_div_mod_eq, decide_eq_true_iff, hpow, ← Nat.div_div_eq_div_mul,
    ← Nat.le_div_iff_mul_le hpos]
  omega

/-- The middle of the interval that the first bits of a number name. -/
lemma middle_eq (hx : x < 2 ^ n) (hd : d < n) :
    ((descend i (leadingBits n x d)).1 + (descend i (leadingBits n x d)).2) / 2 =
      i.1 + (i.2 - i.1) * ((2 * (x / 2 ^ (n - d)) + 1) * 2 ^ (n - 1 - d) : ℕ) / 2 ^ n := by
  rw [descend_eq, bitValue_leadingBits hx hd.le, length_leadingBits]
  have hpow : (2 : ℚ) ^ n = 2 ^ d * 2 ^ (n - 1 - d) * 2 := by
    rw [← pow_add, ← pow_succ]; congr 1; omega
  rw [hpow]
  push_cast
  field_simp
  ring

/-- **The next bit compares with the middle.** Where a number compares with the borders of the
grid as a place does, its next bit says how the place compares with the middle. -/
theorem testBit_iff_middle (hx : x < 2 ^ n) (hd : d < n) {P : ℚ → Prop}
    (h : ∀ m, 0 < m → m < 2 ^ n → (m ≤ x ↔ P (i.1 + (i.2 - i.1) * m / 2 ^ n))) :
    x.testBit (n - 1 - d) = true ↔
      P (((descend i (leadingBits n x d)).1 + (descend i (leadingBits n x d)).2) / 2) := by
  rw [testBit_iff_le hd, middle_eq hx hd]
  refine h _ (by positivity) ?_
  have hpow : 2 ^ n = 2 ^ d * 2 * 2 ^ (n - 1 - d) := by
    rw [← pow_succ, ← pow_add]; congr 1; omega
  have hlt : x / 2 ^ (n - d) < 2 ^ d := by
    refine Nat.div_lt_of_lt_mul ?_
    rwa [← pow_add, show n - d + d = n by omega]
  rw [hpow]
  exact Nat.mul_lt_mul_of_pos_right (by omega) (Nat.two_pow_pos _)

end

end OsmParquet.Halving
