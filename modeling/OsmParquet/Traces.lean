import Mathlib.Data.Option.Basic
import Mathlib.Logic.Basic
import Mathlib.Tactic.Common

/-!
Runs of a machine whose events are not all possible in every state.

`play` takes events one after the other and has no result if one of them cannot happen; `Along`
says a condition of every event of a run and of the state that the event meets. What a single
event keeps under the condition, a run along the condition keeps.
-/

namespace OsmParquet.Traces

variable {σ ε : Type*} (step : σ → ε → Option σ)

def play : σ → List ε → Option σ
  | s, [] => some s
  | s, e :: es => (step s e).bind fun s' => play s' es

def Along (C : σ → ε → Prop) : σ → List ε → Prop
  | _, [] => True
  | s, e :: es => C s e ∧ ∀ s' ∈ step s e, Along C s' es

instance decidableAlong (C : σ → ε → Prop) [∀ s e, Decidable (C s e)] :
    ∀ s es, Decidable (Along step C s es)
  | _, [] => inferInstanceAs (Decidable True)
  | s, e :: es =>
    have (s' : σ) : Decidable (Along step C s' es) := decidableAlong C s' es
    inferInstanceAs (Decidable (C s e ∧ ∀ s' ∈ step s e, Along step C s' es))

@[simp] lemma play_nil (s : σ) : play step s [] = some s := rfl

lemma play_cons (s : σ) (e : ε) (es : List ε) :
    play step s (e :: es) = (step s e).bind fun s' => play step s' es := rfl

variable {step}

lemma play_cons_eq_some {s s' : σ} {e : ε} {es : List ε} :
    play step s (e :: es) = some s' ↔ ∃ m, step s e = some m ∧ play step m es = some s' := by
  rw [play_cons, Option.bind_eq_some_iff]

/-- **The invariant rule.** What holds at the start and is kept by every event that meets the
condition holds in every state reached along the condition. -/
theorem play_keeps {I : σ → Prop} {C : σ → ε → Prop}
    (hstep : ∀ s e s', I s → C s e → step s e = some s' → I s') {s s' : σ} {es : List ε} (hs : I s)
    (hc : Along step C s es) (hp : play step s es = some s') : I s' := by
  induction es generalizing s with
  | nil =>
    rw [play_nil] at hp
    cases hp
    exact hs
  | cons e es ih =>
    obtain ⟨m, hm, hp⟩ := play_cons_eq_some.mp hp
    exact ih (hstep s e m hs hc.1 hm) (hc.2 m hm) hp

/-- What an invariant and the condition on an event give holds of every event of a run. -/
theorem along_keeps {I : σ → Prop} {C D : σ → ε → Prop}
    (hstep : ∀ s e s', I s → C s e → step s e = some s' → I s') (hd : ∀ s e, I s → C s e → D s e)
    {s : σ} {es : List ε} (hs : I s) (hc : Along step C s es) : Along step D s es := by
  induction es generalizing s with
  | nil => trivial
  | cons e es ih =>
    exact ⟨hd s e hs hc.1, fun s' hs' => ih (hstep s e s' hs hc.1 hs') (hc.2 s' hs')⟩

lemma along_true (s : σ) (es : List ε) : Along step (fun _ _ => True) s es := by
  induction es generalizing s with
  | nil => trivial
  | cons e es ih => exact ⟨trivial, fun s' _ => ih s'⟩

/-- A condition on the events alone. -/
lemma along_of_forall {C : ε → Prop} {s : σ} {es : List ε} (h : ∀ e ∈ es, C e) :
    Along step (fun _ e => C e) s es := by
  induction es generalizing s with
  | nil => trivial
  | cons e es ih =>
    exact ⟨h e List.mem_cons_self, fun s' _ => ih fun e he => h e (List.mem_cons_of_mem _ he)⟩

/-- The rule for what every event keeps. -/
theorem play_keeps_always {I : σ → Prop} (hstep : ∀ s e s', I s → step s e = some s' → I s')
    {s s' : σ} {es : List ε} (hs : I s) (hp : play step s es = some s') : I s' :=
  play_keeps (fun s e s' h _ => hstep s e s' h) hs (along_true s es) hp

end OsmParquet.Traces
