import Mathlib.Data.Option.Basic
import Mathlib.Logic.Function.Basic

/-!
Layers: partial maps put one over another.

A layer says of some keys what their value is. Over a stack of layers the topmost one that
speaks about a key decides. When the values are themselves optional, a layer is a set of
changes: it gives a key a new value or takes its value away, and reading a plain map
through it applies the changes. Putting one set of changes over another is doing them one
after the other.
-/

namespace OsmParquet.Layers

variable {κ ν : Type*}

abbrev Layer (κ ν : Type*) := κ → Option ν

/-- What `n` says, and what `o` says where `n` says nothing. -/
def overlay (n o : Layer κ ν) : Layer κ ν := fun k => (n k).or (o k)

/-- The layer that says nothing. -/
def silent : Layer κ ν := fun _ => none

/-- A map read through a layer of changes. -/
def read (c : Layer κ (Option ν)) (b : κ → Option ν) : κ → Option ν := fun k => (c k).getD (b k)

variable {n o p : Layer κ ν} {k : κ}

lemma overlay_apply : overlay n o k = (n k).or (o k) := rfl

@[simp] lemma silent_overlay : overlay silent o = o := rfl

lemma overlay_assoc : overlay (overlay n o) p = overlay n (overlay o p) := by
  funext k; simp [overlay, Option.or_assoc]

/-- A layer already below adds nothing above. -/
lemma overlay_absorb : overlay n (overlay o (overlay (overlay n o) p)) =
    overlay n (overlay o p) := by
  funext k
  simp only [overlay_apply]
  cases n k <;> cases o k <;> rfl

lemma overlay_self_below : overlay n (overlay (overlay n o) p) = overlay n (overlay o p) := by
  funext k
  simp only [overlay_apply]
  cases n k <;> rfl

lemma overlay_overlay_self : overlay n (overlay n o) = overlay n o := by
  funext k
  simp only [overlay_apply]
  cases n k <;> rfl

variable {c d : Layer κ (Option ν)} {b : κ → Option ν}

/-- Reading through two layers is doing the lower changes, then the upper ones. -/
lemma read_overlay : read (overlay c d) b = read c (read d b) := by
  funext k
  simp only [read, overlay_apply]
  cases c k <;> rfl

lemma read_apply : read c b k = (c k).getD (b k) := rfl

end OsmParquet.Layers
