import Mathlib.Algebra.Ring.Nat
import Mathlib.Tactic.Positivity

/-!
Rounding of natural numbers to so many significant bits.

A number that needs more bits than there are is put on the nearer multiple of its last place, and on
the even one when both are as near. This is what a conversion to floating point does to integers
that are in its range.
-/

namespace OsmParquet.Rounding

/-- The number with so many significant bits that is nearest, ties to even. -/
def roundTo (bits n : ℕ) : ℕ :=
  let unit := 2 ^ (n.log2 + 1 - bits)
  let q := n / unit
  let r := n % unit
  if 2 * r < unit ∨ (2 * r = unit ∧ q % 2 = 0) then q * unit else (q + 1) * unit

/-- A number of so many bits, shifted. -/
def Representable (bits n : ℕ) : Prop := ∃ m e, m < 2 ^ bits ∧ n = m * 2 ^ e

variable {bits n : ℕ}

/-- What is left of the number after its last places are cut off has few enough bits. -/
lemma div_unit_lt (bits n : ℕ) : n / 2 ^ (n.log2 + 1 - bits) < 2 ^ bits := by
  rw [Nat.div_lt_iff_lt_mul (by positivity), ← Nat.pow_add]
  calc n < 2 ^ (n.log2 + 1) := Nat.lt_log2_self
    _ ≤ 2 ^ (bits + (n.log2 + 1 - bits)) := Nat.pow_le_pow_right (by omega) (by omega)

/-- The last place of a representable number divides it. -/
lemma Representable.unit_dvd (h : Representable bits n) : 2 ^ (n.log2 + 1 - bits) ∣ n := by
  obtain ⟨m, e, hm, rfl⟩ := h
  rcases Nat.eq_zero_or_pos m with rfl | hpos
  · simp
  have hne : m * 2 ^ e ≠ 0 := by positivity
  have hlog : (m * 2 ^ e).log2 < bits + e := by
    rw [Nat.log2_lt hne, Nat.pow_add]
    exact Nat.mul_lt_mul_of_pos_right hm (by positivity)
  exact Dvd.dvd.mul_left (pow_dvd_pow 2 (by omega)) m

/-- **Rounding changes nothing exactly on the representable numbers.** -/
theorem roundTo_eq_iff : roundTo bits n = n ↔ Representable bits n := by
  have hdiv := Nat.div_add_mod' n (2 ^ (n.log2 + 1 - bits))
  have hlt : n % 2 ^ (n.log2 + 1 - bits) < 2 ^ (n.log2 + 1 - bits) := Nat.mod_lt n (by positivity)
  constructor
  · intro h
    rw [roundTo] at h
    split at h
    · exact ⟨_, _, div_unit_lt bits n, h.symm⟩
    · -- above the number
      rw [Nat.succ_mul] at h
      omega
  · intro h
    have hmod := Nat.mod_eq_zero_of_dvd h.unit_dvd
    rw [roundTo, hmod, if_pos (Or.inl (by positivity))]
    exact Nat.div_mul_cancel h.unit_dvd

end OsmParquet.Rounding
