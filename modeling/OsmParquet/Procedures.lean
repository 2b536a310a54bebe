import Mathlib.Tactic.Common

/-!
Procedures: computations that change a state and may raise, and leave the state as it is when they
raise.

The rules follow the way procedures are put together. Those of the first kind are about one run, and
say what it may end with. Those of the second kind are about two runs that go alike: both return and
the results and states after them are related, or both raise the same.
-/

namespace OsmParquet.Procedures

open EStateM (Result)

abbrev Proc (ε σ α : Type) := EStateM ε σ α

variable {ε σ τ α β γ δ : Type} {m : Proc ε σ α} {f : α → Proc ε σ β} {s s' : σ} {a : α} {e : ε}

/-! ### Runs -/

lemma bind_ok (h : m s = .ok a s') : (m >>= f) s = f a s' := by
  show EStateM.bind m f s = _
  rw [EStateM.bind, h]

lemma bind_error (h : m s = .error e s') : (m >>= f) s = .error e s' := by
  show EStateM.bind m f s = _
  rw [EStateM.bind, h]

/-- A clean-up, which does not raise. -/
def ensure (m : Proc ε σ α) (cleanUp : σ → σ) : Proc ε σ α := fun s =>
  match m s with
  | .ok a s' => .ok a (cleanUp s')
  | .error e s' => .error e (cleanUp s')

/-- A procedure on a part of the state. -/
def onPart (get : σ → τ) (put : τ → σ → σ) (m : Proc ε τ α) : Proc ε σ α := fun s =>
  match m (get s) with
  | .ok a t => .ok a (put t s)
  | .error e t => .error e (put t s)

/-- What comes of a run, without the state in which it raised. -/
def outcome (m : Proc ε σ α) (s : σ) : Except ε (α × σ) :=
  match m s with
  | .ok a s' => .ok (a, s')
  | .error e _ => .error e

lemma outcome_bind (m : Proc ε σ α) (f : α → Proc ε σ β) (s : σ) :
    outcome (m >>= f) s = (outcome m s).bind fun x => outcome (f x.1) x.2 := by
  cases h : m s with
  | ok a s' =>
    rw [outcome, bind_ok h, outcome, h]
    rfl
  | error e s' =>
    rw [outcome, bind_error h, outcome, h]
    rfl

/-! ### One run -/

/-- A procedure ends from a state with what `Q` allows, or raises what `E` allows. -/
inductive Ends (m : Proc ε σ α) (s : σ) (Q : α → σ → Prop) (E : ε → σ → Prop) : Prop
  | ok {a : α} {s' : σ} (run : m s = .ok a s') (result : Q a s')
  | error {e : ε} {s' : σ} (run : m s = .error e s') (raised : E e s')

namespace Ends

variable {P Q : α → σ → Prop} {R : β → σ → Prop} {E F : ε → σ → Prop}

lemma pure (h : Q a s) : Ends (Pure.pure a) s Q E := .ok rfl h

lemma throw (h : E e s) : Ends (MonadExcept.throw e : Proc ε σ α) s Q E := .error rfl h

lemma read {Q : σ → σ → Prop} (h : Q s s) : Ends (get : Proc ε σ σ) s Q E := .ok rfl h

lemma update {Q : PUnit → σ → Prop} {g : σ → σ} (h : Q () (g s)) :
    Ends (modify g : Proc ε σ PUnit) s Q E := .ok rfl h

/-- One after the other. The second one may use how the first one went. -/
lemma bind (hm : Ends m s P E) (hf : ∀ a s', m s = .ok a s' → P a s' → Ends (f a) s' R E) :
    Ends (m >>= f) s R E := by
  rcases hm with ⟨run, result⟩ | ⟨run, raised⟩
  · rcases hf _ _ run result with ⟨run', result'⟩ | ⟨run', raised'⟩
    · exact .ok ((bind_ok run).trans run') result'
    · exact .error ((bind_ok run).trans run') raised'
  · exact .error (bind_error run) raised

/-- A clean-up is run either way. -/
lemma ensure {P : α → σ → Prop} {g : σ → σ} (hm : Ends m s P F) (hQ : ∀ a s', P a s' → Q a (g s'))
    (hE : ∀ e s', F e s' → E e (g s')) : Ends (ensure m g) s Q E := by
  rcases hm with ⟨run, result⟩ | ⟨run, raised⟩
  · exact .ok (by rw [Procedures.ensure, run]) (hQ _ _ result)
  · exact .error (by rw [Procedures.ensure, run]) (hE _ _ raised)

lemma mono (h : Ends m s P F) (hQ : ∀ a s', P a s' → Q a s') (hE : ∀ e s', F e s' → E e s') :
    Ends m s Q E := by
  rcases h with ⟨run, result⟩ | ⟨run, raised⟩
  · exact .ok run (hQ _ _ result)
  · exact .error run (hE _ _ raised)

/-- A run that goes the same way as another. -/
lemma congr {t : σ} {n : Proc ε σ α} (run : m s = n t) (h : Ends n t Q E) :
    Ends m s Q E := by
  rcases h with ⟨hrun, result⟩ | ⟨hrun, raised⟩
  · exact .ok (run.trans hrun) result
  · exact .error (run.trans hrun) raised

/-- A procedure on a part of the state. -/
lemma onPart {p : Proc ε τ α} {part : σ → τ} {put : τ → σ → σ} {P : α → τ → Prop} {F : ε → τ → Prop}
    (hp : Ends p (part s) P F) (hQ : ∀ a t, P a t → Q a (put t s))
    (hE : ∀ e t, F e t → E e (put t s)) : Ends (onPart part put p) s Q E := by
  rcases hp with ⟨run, result⟩ | ⟨run, raised⟩
  · exact .ok (by rw [Procedures.onPart, run]) (hQ _ _ result)
  · exact .error (by rw [Procedures.onPart, run]) (hE _ _ raised)

/-- A loop, with what every pass keeps. -/
lemma loop {ι : Type} {l : List ι} {g : ι → Proc ε σ PUnit} {I : σ → Prop}
    (hstep : ∀ x ∈ l, ∀ s, I s → Ends (g x) s (fun _ s' => I s') E) (hs : I s) :
    Ends (l.forM g) s (fun _ s' => I s') E := by
  induction l generalizing s with
  | nil => exact .pure hs
  | cons x l ih =>
    show Ends (g x >>= fun _ => l.forM g) s _ E
    refine .bind (hstep x (by simp) s hs) fun _ s' _ hs' => ?_
    exact ih (fun y hy => hstep y (by simp [hy])) hs'

end Ends

/-! ### Runs that move along an order -/

/-- However the procedure ends, the state after it is related to the one before it. -/
def Along (R : σ → σ → Prop) (m : Proc ε σ α) (s : σ) : Prop :=
  Ends m s (fun _ s' => R s s') fun _ s' => R s s'

namespace Along

variable {R : σ → σ → Prop} [Std.Refl R] [IsTrans σ R] {ι : Type} {l : List ι}

omit [IsTrans σ R] in
lemma pure : Along R (Pure.pure a : Proc ε σ α) s := Ends.pure (refl_of R s)

omit [IsTrans σ R] in
lemma throw : Along R (MonadExcept.throw e : Proc ε σ α) s := Ends.throw (refl_of R s)

omit [IsTrans σ R] in
lemma read : Along R (get : Proc ε σ σ) s := Ends.read (refl_of R s)

lemma always : Along (fun _ _ => True) m s := by
  cases h : m s with
  | ok a s' => exact .ok h trivial
  | error e s' => exact .error h trivial

omit [Std.Refl R] [IsTrans σ R] in
lemma update {g : σ → σ} (h : R s (g s)) : Along R (modify g : Proc ε σ PUnit) s := Ends.update h

omit [Std.Refl R] in
lemma bind (hm : Along R m s) (hf : ∀ a s', m s = .ok a s' → R s s' → Along R (f a) s') :
    Along R (m >>= f) s := by
  rcases hm with ⟨run, result⟩ | ⟨run, raised⟩
  · rcases hf _ _ run result with ⟨run', result'⟩ | ⟨run', raised'⟩
    · exact .ok ((bind_ok run).trans run') (trans_of R result result')
    · exact .error ((bind_ok run).trans run') (trans_of R result raised')
  · exact .error (bind_error run) raised

lemma map {g : α → β} (hm : Along R m s) : Along R (g <$> m) s := by
  rw [map_eq_pure_bind]
  exact hm.bind fun _ _ _ _ => .pure

lemma loop {g : ι → Proc ε σ PUnit} (hstep : ∀ x ∈ l, ∀ s', R s s' → Along R (g x) s') :
    Along R (l.forM g) s := by
  induction l generalizing s with
  | nil => exact .pure
  | cons x l ih =>
    refine .bind (hstep x (by simp) s (refl_of R s)) fun _ s' _ hs' => ?_
    exact ih fun y hy s'' hs'' => hstep y (by simp [hy]) s'' (trans_of R hs' hs'')

lemma mapM {g : ι → Proc ε σ β} (hstep : ∀ x s, Along R (g x) s) : Along R (l.mapM g) s := by
  induction l generalizing s with
  | nil =>
    rw [List.mapM_nil]
    exact .pure
  | cons x l ih =>
    rw [List.mapM_cons]
    exact .bind (hstep x s) fun _ _ _ _ => .bind ih fun _ _ _ _ => .pure

lemma foldlM {g : β → ι → Proc ε σ β} {b : β} (hstep : ∀ b x s, Along R (g b x) s) :
    Along R (l.foldlM g b) s := by
  induction l generalizing b s with
  | nil => exact .pure
  | cons x l ih =>
    rw [List.foldlM_cons]
    exact .bind (hstep b x s) fun _ _ _ _ => ih

omit [Std.Refl R] [IsTrans σ R] in
lemma onPart {S : τ → τ → Prop} {p : Proc ε τ α} {part : σ → τ} {put : τ → σ → σ}
    (h : ∀ t', S (part s) t' → R s (put t' s)) (hp : Along S p (part s)) :
    Along R (onPart part put p) s := by
  rcases hp with ⟨run, result⟩ | ⟨run, raised⟩
  · exact .ok (by rw [Procedures.onPart, run]) (h _ result)
  · exact .error (by rw [Procedures.onPart, run]) (h _ raised)

end Along

/-- The procedure moves along an order and returns what `Q` allows; or it raises, if it may. -/
def Moves (R : σ → σ → Prop) (may : Prop) (m : Proc ε σ α) (s : σ) (Q : α → σ → Prop) : Prop :=
  Ends m s (fun a s' => R s s' ∧ Q a s') fun _ s' => may ∧ R s s'

namespace Moves

variable {R : σ → σ → Prop} [Std.Refl R] [IsTrans σ R] {may : Prop} {P Q : α → σ → Prop}
  {S : β → σ → Prop} {ι : Type} {l : List ι}

omit [IsTrans σ R] in
lemma pure (h : Q a s) : Moves R may (Pure.pure a : Proc ε σ α) s Q := Ends.pure ⟨refl_of R s, h⟩

omit [IsTrans σ R] in
lemma throw (h : may) : Moves R may (MonadExcept.throw e : Proc ε σ α) s Q :=
  Ends.throw ⟨h, refl_of R s⟩

omit [IsTrans σ R] in
lemma read {Q : σ → σ → Prop} (h : Q s s) : Moves R may (get : Proc ε σ σ) s Q :=
  Ends.read ⟨refl_of R s, h⟩

omit [Std.Refl R] [IsTrans σ R] in
lemma update {Q : PUnit → σ → Prop} {g : σ → σ} (h : R s (g s)) (hQ : Q () (g s)) :
    Moves R may (modify g : Proc ε σ PUnit) s Q := Ends.update ⟨h, hQ⟩

omit [Std.Refl R] in
lemma bind (hm : Moves R may m s P) (hf : ∀ a s', R s s' → P a s' → Moves R may (f a) s' S) :
    Moves R may (m >>= f) s S := by
  refine Ends.bind hm fun a s' _ hpost => ?_
  exact (hf a s' hpost.1 hpost.2).mono (fun _ _ h => ⟨trans_of R hpost.1 h.1, h.2⟩)
    fun _ _ h => ⟨h.1, trans_of R hpost.1 h.2⟩

omit [Std.Refl R] [IsTrans σ R] in
lemma mono (h : Moves R may m s P) (hQ : ∀ a s', R s s' → P a s' → Q a s') : Moves R may m s Q :=
  Ends.mono h (fun a s' hpost => ⟨hpost.1, hQ a s' hpost.1 hpost.2⟩) fun _ _ h => h

omit [Std.Refl R] [IsTrans σ R] in
/-- A move along one order as a move along another. -/
lemma within {R' : σ → σ → Prop} (h : Moves R may m s P) (hR : ∀ s', R s s' → R' s s') :
    Moves R' may m s fun a s' => R s s' ∧ P a s' :=
  Ends.mono h (fun _ s' hpost => ⟨hR s' hpost.1, hpost⟩) fun _ s' hpost => ⟨hpost.1, hR s' hpost.2⟩

omit [Std.Refl R] [IsTrans σ R] in
lemma returns (h : Moves R False m s P) : Ends m s (fun a s' => R s s' ∧ P a s') fun _ _ => False :=
  Ends.mono h (fun _ _ hpost => hpost) fun _ _ hpost => hpost.1

/-- A list of results, one for each entry. -/
lemma mapM {g : ι → Proc ε σ β} {T : ι → β → Prop}
    (hstep : ∀ x ∈ l, ∀ s', R s s' → Moves R may (g x) s' fun b _ => T x b) :
    Moves R may (l.mapM g) s fun bs _ => List.Forall₂ T l bs := by
  induction l generalizing s with
  | nil =>
    rw [List.mapM_nil]
    exact .pure .nil
  | cons x l ih =>
    rw [List.mapM_cons]
    refine .bind (hstep x (by simp) s (refl_of R s)) fun b s₁ h₁ hb => ?_
    refine .bind (ih fun y hy s' h' => hstep y (by simp [hy]) s' (trans_of R h₁ h'))
      fun bs s₂ _ hbs => ?_
    exact .pure (.cons hb hbs)

end Moves

/-! ### Two runs that go alike -/

/-- Both runs return, and their results and the states after them are related; or both raise the
same. -/
inductive Alike {τ : Type} (m : Proc ε σ α) (m' : Proc ε τ β) (s : σ) (t : τ)
    (Q : α → β → σ → τ → Prop) : Prop
  | ok {a : α} {b : β} {s' : σ} {t' : τ} (run : m s = .ok a s') (run' : m' t = .ok b t')
    (results : Q a b s' t')
  | error {e : ε} {s' : σ} {t' : τ} (run : m s = .error e s') (run' : m' t = .error e t')

namespace Alike

variable {m' : Proc ε τ β} {t t' : τ} {b : β} {f' : β → Proc ε τ δ} {f : α → Proc ε σ γ}
  {P Q : α → β → σ → τ → Prop} {R : γ → δ → σ → τ → Prop}

lemma pure (h : Q a b s t) : Alike (Pure.pure a : Proc ε σ α) (Pure.pure b : Proc ε τ β) s t Q :=
  .ok rfl rfl h

lemma throw : Alike (MonadExcept.throw e : Proc ε σ α) (MonadExcept.throw e : Proc ε τ β) s t Q :=
  .error rfl rfl

lemma bind (hm : Alike m m' s t P)
    (hf : ∀ a b s' t', m s = .ok a s' → P a b s' t' → Alike (f a) (f' b) s' t' R) :
    Alike (m >>= f) (m' >>= f') s t R := by
  rcases hm with ⟨run, run', results⟩ | ⟨run, run'⟩
  · rcases hf _ _ _ _ run results with ⟨next, next', results'⟩ | ⟨next, next'⟩
    · exact .ok ((bind_ok run).trans next) ((bind_ok run').trans next') results'
    · exact .error ((bind_ok run).trans next) ((bind_ok run').trans next')
  · exact .error (bind_error run) (bind_error run')

/-- Runs that go the same way as others. -/
lemma congr {n : Proc ε σ α} {n' : Proc ε τ β} {u : σ} {u' : τ} (run : m s = n u)
    (run' : m' t = n' u') (h : Alike n n' u u' Q) : Alike m m' s t Q := by
  rcases h with ⟨hrun, hrun', results⟩ | ⟨hrun, hrun'⟩
  · exact .ok (run.trans hrun) (run'.trans hrun') results
  · exact .error (run.trans hrun) (run'.trans hrun')

lemma ensure {g : σ → σ} {g' : τ → τ} (hm : Alike m m' s t P)
    (hQ : ∀ a b s' t', P a b s' t' → Q a b (g s') (g' t')) :
    Alike (ensure m g) (ensure m' g') s t Q := by
  rcases hm with ⟨run, run', results⟩ | ⟨run, run'⟩
  · exact .ok (by rw [Procedures.ensure, run]) (by rw [Procedures.ensure, run'])
      (hQ _ _ _ _ results)
  · exact .error (by rw [Procedures.ensure, run]) (by rw [Procedures.ensure, run'])

lemma ensure_left {g : σ → σ} (hm : Alike m m' s t P)
    (hQ : ∀ a b s' t', P a b s' t' → Q a b (g s') t') : Alike (Procedures.ensure m g) m' s t Q := by
  rcases hm with ⟨run, run', results⟩ | ⟨run, run'⟩
  · exact .ok (by rw [Procedures.ensure, run]) run' (hQ _ _ _ _ results)
  · exact .error (by rw [Procedures.ensure, run]) run'

/-- The same procedure on parts that are the same. -/
lemma onPart {ρ : Type} {p : Proc ε ρ α} {part : σ → ρ} {put : ρ → σ → σ} {part' : τ → ρ}
    {put' : ρ → τ → τ} {Q : α → α → σ → τ → Prop} (hpart : part s = part' t)
    (hQ : ∀ a r, Q a a (put r s) (put' r t)) :
    Alike (onPart part put p) (onPart part' put' p) s t Q := by
  cases hrun : p (part s) with
  | ok a r =>
    exact .ok (by rw [Procedures.onPart, hrun]) (by rw [Procedures.onPart, ← hpart, hrun]) (hQ a r)
  | error e r =>
    exact .error (by rw [Procedures.onPart, hrun]) (by rw [Procedures.onPart, ← hpart, hrun])

/-- A loop in both, with the relation that every pass keeps. -/
lemma loop {ι : Type} {l : List ι} {g : ι → Proc ε σ PUnit} {g' : ι → Proc ε τ PUnit}
    {I : σ → τ → Prop} (hstep : ∀ x ∈ l, ∀ s t, I s t →
      Alike (g x) (g' x) s t fun _ _ s' t' => I s' t')
    (hs : I s t) : Alike (l.forM g) (l.forM g') s t fun _ _ s' t' => I s' t' := by
  induction l generalizing s t with
  | nil => exact .pure hs
  | cons x l ih =>
    show Alike (g x >>= fun _ => l.forM g) (g' x >>= fun _ => l.forM g') s t _
    refine .bind (hstep x (by simp) s t hs) fun _ _ s' t' _ hs' => ?_
    exact ih (fun y hy => hstep y (by simp [hy])) hs'

lemma mono (h : Alike m m' s t P) (hQ : ∀ a b s' t', P a b s' t' → Q a b s' t') :
    Alike m m' s t Q := by
  rcases h with ⟨run, run', results⟩ | ⟨run, run'⟩
  · exact .ok run run' (hQ _ _ _ _ results)
  · exact .error run run'

/-- What one of the runs ends with holds as well. -/
lemma and_ends {S : α → σ → Prop} {E : ε → σ → Prop} (h : Alike m m' s t P) (hm : Ends m s S E) :
    Alike m m' s t fun a b s' t' => P a b s' t' ∧ S a s' := by
  rcases h with ⟨run, run', results⟩ | ⟨run, run'⟩
  · rcases hm with ⟨again, result⟩ | ⟨again, -⟩
    · rw [run] at again
      cases again
      exact .ok run run' ⟨results, result⟩
    · rw [run] at again
      cases again
  · exact .error run run'

/-- Runs that go alike come to the same, as far as their results and states are read alike. -/
lemma outcome {ρ : Type} (h : Alike m m' s t Q) (read : α → σ → ρ) (read' : β → τ → ρ)
    (hread : ∀ a b s' t', Q a b s' t' → read a s' = read' b t') :
    (outcome m s).map (fun x => read x.1 x.2) = (outcome m' t).map fun x => read' x.1 x.2 := by
  rcases h with ⟨run, run', results⟩ | ⟨run, run'⟩
  · rw [Procedures.outcome, Procedures.outcome, run, run']
    exact congrArg Except.ok (hread _ _ _ _ results)
  · rw [Procedures.outcome, Procedures.outcome, run, run']
    rfl

end Alike

/-! ### Procedures that go alike from related states -/

/-- From related states the procedure returns the same, and leaves related states; or it raises the
same. -/
def Keeps (R : σ → τ → Prop) (m : Proc ε σ α) (m' : Proc ε τ α) : Prop :=
  ∀ s t, R s t → Alike m m' s t fun a b s' t' => a = b ∧ R s' t'

namespace Keeps

variable {R : σ → τ → Prop} {m' : Proc ε τ α} {f' : α → Proc ε τ β} {ι : Type} {l : List ι}

lemma pure : Keeps R (Pure.pure a : Proc ε σ α) (Pure.pure a) := fun _ _ h => .pure ⟨rfl, h⟩

lemma throw : Keeps R (MonadExcept.throw e : Proc ε σ α) (MonadExcept.throw e) :=
  fun _ _ _ => .throw

lemma update {g : σ → σ} {g' : τ → τ} (h : ∀ s t, R s t → R (g s) (g' t)) :
    Keeps R (modify g : Proc ε σ PUnit) (modify g') := fun s t hst => .ok rfl rfl ⟨rfl, h s t hst⟩

lemma bind (hm : Keeps R m m') (hf : ∀ a, Keeps R (f a) (f' a)) : Keeps R (m >>= f) (m' >>= f') :=
  fun s t hst => .bind (hm s t hst) fun a b s' t' _ ⟨hab, hst'⟩ => by
    subst hab
    exact hf a s' t' hst'

lemma map {g : α → β} (hm : Keeps R m m') : Keeps R (g <$> m) (g <$> m') := by
  rw [map_eq_pure_bind, map_eq_pure_bind]
  exact hm.bind fun _ => .pure

lemma mapM {g : ι → Proc ε σ β} {g' : ι → Proc ε τ β} (hstep : ∀ x ∈ l, Keeps R (g x) (g' x)) :
    Keeps R (l.mapM g) (l.mapM g') := by
  induction l with
  | nil =>
    rw [List.mapM_nil, List.mapM_nil]
    exact .pure
  | cons x l ih =>
    rw [List.mapM_cons, List.mapM_cons]
    exact .bind (hstep x (by simp)) fun _ => .bind (ih fun y hy => hstep y (by simp [hy]))
      fun _ => .pure

lemma foldlM {g : β → ι → Proc ε σ β} {g' : β → ι → Proc ε τ β} {b : β}
    (hstep : ∀ b, ∀ x ∈ l, Keeps R (g b x) (g' b x)) : Keeps R (l.foldlM g b) (l.foldlM g' b) := by
  induction l generalizing b with
  | nil => exact .pure
  | cons x l ih =>
    rw [List.foldlM_cons, List.foldlM_cons]
    exact .bind (hstep b x (by simp)) fun _ => ih fun b y hy => hstep b y (by simp [hy])

/-- On parts that are related. -/
lemma onPart {ρ ρ' : Type} {S : ρ → ρ' → Prop} {p : Proc ε ρ α} {p' : Proc ε ρ' α} {part : σ → ρ}
    {part' : τ → ρ'} {put : ρ → σ → σ} {put' : ρ' → τ → τ} {s : σ} {t : τ} {Q : σ → τ → Prop}
    (hp : Keeps S p p') (hst : S (part s) (part' t)) (hQ : ∀ x y, S x y → Q (put x s) (put' y t)) :
    Alike (onPart part put p) (onPart part' put' p') s t fun a b s' t' => a = b ∧ Q s' t' := by
  rcases hp _ _ hst with ⟨run, run', hab, hxy⟩ | ⟨run, run'⟩
  · exact .ok (by rw [Procedures.onPart, run]) (by rw [Procedures.onPart, run']) ⟨hab, hQ _ _ hxy⟩
  · exact .error (by rw [Procedures.onPart, run]) (by rw [Procedures.onPart, run'])

end Keeps

end OsmParquet.Procedures
