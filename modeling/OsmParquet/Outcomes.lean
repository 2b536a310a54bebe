import Mathlib.Tactic.Common

/-!
Pre- and postconditions of computations that keep a state and may raise.

What a computation may end with, from a given state, is a condition on results with the state after
them and a condition on exceptions. The rules follow the way computations are put together.
-/

namespace OsmParquet.Outcomes

variable {ε σ α β : Type} {m : StateT σ (Except ε) α} {f : α → StateT σ (Except ε) β} {s s' : σ}
  {a : α} {e : ε}

/-! ### Runs -/

lemma bind_ok (h : m s = .ok (a, s')) : (m >>= f) s = f a s' := by
  show (m s >>= fun r => f r.1 r.2) = _
  rw [h]
  rfl

lemma bind_error (h : m s = .error e) : (m >>= f) s = .error e := by
  show (m s >>= fun r => f r.1 r.2) = _
  rw [h]
  rfl

/-! ### Rules -/

/-- A computation from a state gives what `Q` allows, or raises what `E` allows. -/
structure Yields (m : StateT σ (Except ε) α) (s : σ) (Q : α → σ → Prop) (E : ε → Prop) : Prop where
  ok : ∀ {a s'}, m s = .ok (a, s') → Q a s'
  error : ∀ {e}, m s = .error e → E e

namespace Yields

variable {P Q : α → σ → Prop} {R : β → σ → Prop} {E F : ε → Prop}

lemma of_ok (h : m s = .ok (a, s')) (hQ : Q a s') : Yields m s Q E := by
  constructor
  · intro b t hrun
    rw [h] at hrun
    cases hrun
    exact hQ
  · intro e hrun
    rw [h] at hrun
    cases hrun

lemma of_error (h : m s = .error e) (hE : E e) : Yields m s Q E := by
  constructor
  · intro b t hrun
    rw [h] at hrun
    cases hrun
  · intro e' hrun
    rw [h] at hrun
    cases hrun
    exact hE

lemma pure (h : Q a s) : Yields (Pure.pure a) s Q E := of_ok rfl h

lemma throw (h : E e) : Yields (MonadExcept.throw e : StateT σ (Except ε) α) s Q E := of_error rfl h

/-- One after the other. The second one may use how the first one went. -/
lemma bind (hm : Yields m s P E) (hf : ∀ a s', m s = .ok (a, s') → P a s' → Yields (f a) s' R E) :
    Yields (m >>= f) s R E := by
  rcases hrun : m s with e | ⟨a, s'⟩
  · exact of_error (bind_error hrun) (hm.error hrun)
  · have hnext := hf a s' hrun (hm.ok hrun)
    have hbind : (m >>= f) s = f a s' := bind_ok hrun
    exact ⟨fun h => hnext.ok (hbind ▸ h), fun h => hnext.error (hbind ▸ h)⟩

/-- Runs that go the same way. -/
lemma congr {m' : StateT σ (Except ε) α} (hrun : m s = m' s') (h : Yields m' s' Q E) :
    Yields m s Q E :=
  ⟨fun hok => h.ok (hrun ▸ hok), fun herror => h.error (hrun ▸ herror)⟩

lemma mono (h : Yields m s P E) (hQ : ∀ a s', P a s' → Q a s') (hE : ∀ e, E e → F e) :
    Yields m s Q F :=
  ⟨fun hrun => hQ _ _ (h.ok hrun), fun hrun => hE _ (h.error hrun)⟩

end Yields

end OsmParquet.Outcomes
