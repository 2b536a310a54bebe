import OsmParquet.Programs

/-!
Programs that read only sets that they have assigned.

The check goes through a program and keeps the sets that are assigned whatever way the run takes.
What a program that passes prints does not depend on the sets that were there before; so the second
run of a comparison does not see what the first one has left behind.
-/

namespace OsmParquet.AssignedSets

open OsmParquet.Elements OsmParquet.Procedures OsmParquet.StatementReads OsmParquet.Statements
open OsmParquet.SetNames OsmParquet.SetTables OsmParquet.Programs
open OsmParquet.ProgramMeaning (State Meaning assign looking evalStatement evalStatement_unsupported
  evalAll evalParts output rowsOf_eq outside)
open OsmParquet.QlParser (Statement Program Query)

variable {F γ α : Type}

/-! ### The check -/

/-- The output of a part of a union is assigned. -/
def outputIn (A : List String) (s : Statement F) : Bool :=
  (outputSet? s).all fun o => decide (o ∈ A)

section Check

variable (D : Dataset F γ)

mutual

/-- The sets that are assigned after a statement, from those before. -/
def assigned (A : List String) : Statement F → Option (List String)
  | .query q => if queryReads q ⊆ A then some (q.outputSet :: A) else none
  | .union ss o => (assignedParts A ss).map (o :: ·)
  | .difference a b o => (assigned A a).bind fun A₁ =>
    if outputIn A₁ a then (assigned A₁ b).bind fun A₂ =>
      if outputIn A₂ b then some (o :: A₂) else none
    else none
  | .recurse _ i o | .item i o | .mapToArea i o => if i ∈ A then some (o :: A) else none
  | .isIn i o coords => if coords = none → i ∈ A then some (o :: A) else none
  | .out o => if o.inputSet ∈ A then some A else none
  | .foreach i o body => if i ∈ A then (assignedAll (o :: A) body).map fun _ => A else none
  | .if' c then' otherwise => do
    let A₁ ← assignedAll A then'
    let A₂ ← assignedAll A otherwise
    if conditionReads D c ⊆ A then some (A₁.filter (· ∈ A₂)) else none
  | .retro t body => if timeReads D t ⊆ A then (assignedAll A body).map fun _ => A else none
  | .timeline _ _ _ o => some (o :: A)
  | .unsupported _ _ => some A

def assignedAll (A : List String) : List (Statement F) → Option (List String)
  | [] => some A
  | s :: ss => (assigned A s).bind fun A₁ => assignedAll A₁ ss

def assignedParts (A : List String) : List (Statement F) → Option (List String)
  | [] => some A
  | s :: ss => (assigned A s).bind fun A₁ => if outputIn A₁ s then assignedParts A₁ ss else none

end

end Check

/-! ### What the check promises -/

/-- Two runs that have the same in the sets of a list, and have printed the same. -/
structure Agree (A : List String) (s t : State F γ) : Prop where
  sets : ∀ n ∈ A, s.sets n = t.sets n
  notes : s.notes = t.notes
  elements : s.elements = t.elements
  versions : s.versions = t.versions

/-- A statement keeps what is assigned and adds to it, whatever the other sets have. -/
def Kept (D : Dataset F γ) (mode : Mode F) (keep : Bool) (x : Statement F) : Prop :=
  ∀ A A', assigned D A x = some A' → A ⊆ A' ∧ ∀ (time : Option ℤ) (s t : State F γ), Agree A s t →
    Alike (evalStatement D mode keep time x) (evalStatement D mode keep time x) s t
      fun _ _ s' t' => Agree A' s' t'

section Kept

variable {D : Dataset F γ} {mode : Mode F} {keep : Bool} {time : Option ℤ} {A A' : List String}
  {s t : State F γ} {ss : List (Statement F)} {rows : Rows F} {o : String}

lemma Agree.mono (h : Agree A s t) (hA : A' ⊆ A) : Agree A' s t :=
  ⟨fun n hn => h.sets n (hA hn), h.notes, h.elements, h.versions⟩

lemma looking_alike {m : Sets F → Reading γ α} (h : Agree A s t) (hm : m s.sets = m t.sets) :
    Alike (looking keep m) (looking keep m) s t fun a b s' t' => a = b ∧ Agree A s' t' := by
  have hrun : ∀ u : State F γ, looking keep m u =
      onPart (State.kept keep) (fun notes s => { s with notes }) (m u.sets) u := fun _ => rfl
  refine .congr (hrun s) ((hrun t).trans (by rw [← hm]))
    (.onPart ?_ fun a notes => ⟨rfl, h.sets, rfl, h.elements, h.versions⟩)
  rw [State.kept, State.kept, h.notes]

lemma assign_alike (h : Agree A s t) : Alike (assign D o rows) (assign D o rows) s t
    fun _ _ s' t' => Agree (o :: A) s' t' := by
  refine .ok rfl rfl ⟨fun n hn => ?_, h.notes, h.elements, h.versions⟩
  show Function.update s.sets o _ n = Function.update t.sets o _ n
  rw [Function.update_apply, Function.update_apply]
  split_ifs with hno
  · rfl
  · exact h.sets n ((List.mem_cons.mp hn).resolve_left hno)

lemma written_alike {m : Sets F → Reading γ (Rows F)} (h : Agree A s t) (hm : m s.sets = m t.sets) :
    Alike (looking keep m >>= assign D o) (looking keep m >>= assign D o) s t
      fun _ _ s' t' => Agree (o :: A) s' t' := by
  refine .bind (looking_alike h hm) fun rows _ s₁ t₁ _ hpost => ?_
  obtain ⟨hrows, h₁⟩ := hpost
  subst hrows
  exact assign_alike h₁

lemma raiseFrom_alike {x y : Except Raised α} (hxy : x = y) :
    Alike (ProgramMeaning.raiseFrom x) (ProgramMeaning.raiseFrom y) s t fun a b s' t' =>
      a = b ∧ x = .ok a ∧ s = s' ∧ t = t' := by
  subst hxy
  cases x with
  | error e => exact .error rfl rfl
  | ok a => exact .ok rfl rfl ⟨rfl, rfl, rfl, rfl⟩

lemma output_alike {x : Statement F} (h : Agree A s t) (hx : outputIn A x = true) :
    Alike (output x) (output x) s t fun a b s' t' => a = b ∧ Agree A s' t' := by
  refine .bind (raiseFrom_alike (y := outputSetName x) rfl) fun n _ s₁ t₁ _ hpost => ?_
  obtain ⟨hn, hname, hs, ht⟩ := hpost
  subst hn hs ht
  have hmem : n ∈ A := by
    rw [outputIn, outputSetName_ok.mp hname] at hx
    simpa using hx
  have hsets := h.sets n hmem
  cases hrows : s.sets n with
  | none =>
    exact .error ((rowsOf_eq n s).trans (by rw [hrows]; rfl))
      ((rowsOf_eq n t).trans (by rw [← hsets, hrows]; rfl))
  | some rows =>
    exact .ok ((rowsOf_eq n s).trans (by rw [hrows]; rfl))
      ((rowsOf_eq n t).trans (by rw [← hsets, hrows]; rfl)) ⟨rfl, h⟩

lemma all_alike (hss : ∀ x ∈ ss, Kept D mode keep x) (hA : assignedAll D A ss = some A') : A ⊆ A' ∧
    ∀ (time : Option ℤ) (s t : State F γ), Agree A s t →
      Alike (evalAll D mode keep time ss) (evalAll D mode keep time ss) s t fun _ _ s' t' =>
        Agree A' s' t' := by
  induction ss generalizing A with
  | nil =>
    obtain rfl : A = A' := Option.some.inj hA
    exact ⟨List.Subset.refl A, fun _ _ _ h => .pure h⟩
  | cons x ss ih =>
    obtain ⟨A₁, hx, hrest⟩ := Option.bind_eq_some_iff.mp hA
    obtain ⟨hsub, hrun⟩ := hss x (by simp) A A₁ hx
    obtain ⟨hsub', hrun'⟩ := ih (fun y hy => hss y (by simp [hy])) hrest
    refine ⟨List.Subset.trans hsub hsub', fun time s t h => ?_⟩
    rw [evalAll]
    exact .bind (hrun time s t h) fun _ _ s₁ t₁ _ h₁ => hrun' time s₁ t₁ h₁

lemma parts_alike (hss : ∀ x ∈ ss, Kept D mode keep x) (hA : assignedParts D A ss = some A') :
    A ⊆ A' ∧ ∀ (time : Option ℤ) (s t : State F γ), Agree A s t →
      Alike (evalParts D mode keep time ss) (evalParts D mode keep time ss) s t
        fun a b s' t' => a = b ∧ Agree A' s' t' := by
  induction ss generalizing A with
  | nil =>
    obtain rfl : A = A' := Option.some.inj hA
    exact ⟨List.Subset.refl A, fun _ _ _ h => .pure ⟨rfl, h⟩⟩
  | cons x ss ih =>
    obtain ⟨A₁, hx, hrest⟩ := Option.bind_eq_some_iff.mp hA
    obtain ⟨hsub, hrun⟩ := hss x (by simp) A A₁ hx
    split_ifs at hrest with hout
    obtain ⟨hsub', hrun'⟩ := ih (fun y hy => hss y (by simp [hy])) hrest
    refine ⟨List.Subset.trans hsub hsub', fun time s t h => ?_⟩
    rw [evalParts]
    refine .bind (hrun time s t h) fun _ _ s₁ t₁ _ h₁ => ?_
    refine .bind (output_alike h₁ hout) fun rows _ s₂ t₂ _ hpost => ?_
    obtain ⟨hrows, h₂⟩ := hpost
    refine .bind (hrun' time s₂ t₂ h₂) fun parts _ s₃ t₃ _ hpost => ?_
    obtain ⟨hparts, h₃⟩ := hpost
    subst hrows hparts
    exact .pure ⟨rfl, h₃⟩

lemma union_kept (hss : ∀ x ∈ ss, Kept D mode keep x) : Kept D mode keep (.union ss o) := by
  intro A A' hA
  obtain ⟨A₁, hparts, rfl⟩ := Option.map_eq_some_iff.mp hA
  obtain ⟨hsub, hrun⟩ := parts_alike hss hparts
  refine ⟨List.Subset.trans hsub (List.subset_cons_self _ _), fun time s t h => ?_⟩
  rw [evalStatement]
  refine .bind (hrun time s t h) fun parts _ s₁ t₁ _ hpost => ?_
  obtain ⟨hp, h₁⟩ := hpost
  subst hp
  exact assign_alike h₁

lemma difference_kept {a b : Statement F} (ha : Kept D mode keep a) (hb : Kept D mode keep b) :
    Kept D mode keep (.difference a b o) := by
  intro A A' hA
  obtain ⟨A₁, hA₁, hA⟩ := Option.bind_eq_some_iff.mp hA
  split_ifs at hA with houta
  obtain ⟨A₂, hA₂, hA⟩ := Option.bind_eq_some_iff.mp hA
  split_ifs at hA with houtb
  obtain rfl := Option.some.inj hA
  obtain ⟨hsub₁, hrun₁⟩ := ha A A₁ hA₁
  obtain ⟨hsub₂, hrun₂⟩ := hb A₁ A₂ hA₂
  refine ⟨List.Subset.trans (List.Subset.trans hsub₁ hsub₂) (List.subset_cons_self _ _),
    fun time s t h => ?_⟩
  rw [evalStatement]
  refine .bind (hrun₁ time s t h) fun _ _ s₁ t₁ _ h₁ => ?_
  refine .bind (output_alike h₁ houta) fun rows _ s₂ t₂ _ hpost => ?_
  obtain ⟨hrows, h₂⟩ := hpost
  refine .bind (hrun₂ time s₂ t₂ h₂) fun _ _ s₃ t₃ _ h₃ => ?_
  refine .bind (output_alike h₃ houtb) fun others _ s₄ t₄ _ hpost => ?_
  obtain ⟨hothers, h₄⟩ := hpost
  subst hrows hothers
  exact assign_alike h₄

lemma foreach_kept {i : String} {body : List (Statement F)}
    (hbody : ∀ x ∈ body, Kept D mode keep x) : Kept D mode keep (.foreach i o body) := by
  intro A A' hA
  rw [assigned] at hA
  split_ifs at hA with hi
  obtain ⟨A₁, hA₁, rfl⟩ := Option.map_eq_some_iff.mp hA
  obtain ⟨hsub, hrun⟩ := all_alike hbody hA₁
  refine ⟨List.Subset.refl A, fun time s t h => ?_⟩
  rw [evalStatement]
  refine .bind (looking_alike h (requireSet_congr (h.sets i hi))) fun rows _ s₁ t₁ _ hpost => ?_
  obtain ⟨hrows, h₁⟩ := hpost
  subst hrows
  -- What was assigned before the loop is, before each of its passes.
  refine Alike.loop (I := fun s t => Agree A s t) (fun row _ s t h => ?_) h₁
  refine .bind (assign_alike h) fun _ _ s₂ t₂ _ h₂ => ?_
  exact (hrun time s₂ t₂ h₂).mono fun _ _ _ _ h₃ =>
    h₃.mono (List.Subset.trans (List.subset_cons_self _ _) hsub)

lemma if_kept {condition : List Char} {then' otherwise : List (Statement F)}
    (hthen : ∀ x ∈ then', Kept D mode keep x) (helse : ∀ x ∈ otherwise, Kept D mode keep x) :
    Kept D mode keep (.if' condition then' otherwise) := by
  intro A A' hA
  obtain ⟨A₁, hA₁, hA⟩ := Option.bind_eq_some_iff.mp hA
  obtain ⟨A₂, hA₂, hA⟩ := Option.bind_eq_some_iff.mp hA
  split_ifs at hA with hreads
  obtain rfl := Option.some.inj hA
  obtain ⟨hsub₁, hrun₁⟩ := all_alike hthen hA₁
  obtain ⟨hsub₂, hrun₂⟩ := all_alike helse hA₂
  refine ⟨fun n hn => List.mem_filter.mpr ⟨hsub₁ hn, by simpa using hsub₂ hn⟩, fun time s t h => ?_⟩
  rw [evalStatement]
  refine .congr (bind_ok rfl) (bind_ok rfl) ?_
  have heq := evaluateText_congr (D := D) fun n hn => h.sets n (hreads hn)
  refine .bind (raiseFrom_alike heq) fun value _ s₁ t₁ _ hpost => ?_
  obtain ⟨hvalue, _, hs, ht⟩ := hpost
  subst hvalue hs ht
  by_cases hv : EvalSql.truthy value = true
  · rw [if_pos hv]
    exact (hrun₁ time s t h).mono fun _ _ _ _ h' => h'.mono fun n hn => List.mem_of_mem_filter hn
  · rw [if_neg hv]
    exact (hrun₂ time s t h).mono fun _ _ _ _ h' => h'.mono fun n hn => by
      simpa using (List.mem_filter.mp hn).2

lemma retro_kept {timeExpr : List Char} {body : List (Statement F)}
    (hbody : ∀ x ∈ body, Kept D mode keep x) : Kept D mode keep (.retro timeExpr body) := by
  intro A A' hA
  rw [assigned] at hA
  split_ifs at hA with hreads
  obtain ⟨A₁, hA₁, rfl⟩ := Option.map_eq_some_iff.mp hA
  obtain ⟨hsub, hrun⟩ := all_alike hbody hA₁
  refine ⟨List.Subset.refl A, fun time s t h => ?_⟩
  rw [evalStatement]
  by_cases hhistory : (!D.hasHistory) = true
  · rw [if_pos hhistory]
    exact .error rfl rfl
  rw [if_neg hhistory]
  refine .congr (bind_ok rfl) (bind_ok rfl) ?_
  have heq := evaluateRetroTime_congr (D := D) fun n hn => h.sets n (hreads hn)
  refine .bind (raiseFrom_alike heq) fun u _ s₁ t₁ _ hpost => ?_
  obtain ⟨hu, _, hs, ht⟩ := hpost
  subst hu hs ht
  refine .congr (bind_ok rfl) (bind_ok rfl) ?_
  refine Alike.ensure (hrun (some u) _ _ ⟨h.sets, ?_, h.elements, h.versions⟩) fun _ _ s₂ t₂ h₂ =>
    ⟨fun n hn => ?_, h₂.notes, h₂.elements, h₂.versions⟩
  · exact congrArg (fun notes => notes.warn (historyRemark D u).toList) h.notes
  · show outside s.sets s₂.sets n = outside t.sets t₂.sets n
    rw [outside, outside, h.sets n hn, h₂.sets n (hsub hn)]

/-- **A statement that passes the check** does the same whatever the sets that are not assigned. -/
lemma kept : Inherits (Kept D mode keep) where
  query q A A' hA := by
    rw [assigned] at hA
    split_ifs at hA with hreads
    obtain rfl := Option.some.inj hA
    refine ⟨List.subset_cons_self _ _, fun time s t h => ?_⟩
    rw [evalStatement]
    exact written_alike h (queryRows_congr fun n hn => h.sets n (hreads hn))
  union ss o hss := union_kept hss
  difference a b o ha hb := difference_kept ha hb
  recurse kind i o A A' hA := by
    rw [assigned] at hA
    split_ifs at hA with hi
    obtain rfl := Option.some.inj hA
    refine ⟨List.subset_cons_self _ _, fun time s t h => ?_⟩
    rw [evalStatement]
    exact written_alike h (executeRecurseRows_congr (h.sets i hi))
  item i o A A' hA := by
    rw [assigned] at hA
    split_ifs at hA with hi
    obtain rfl := Option.some.inj hA
    refine ⟨List.subset_cons_self _ _, fun time s t h => ?_⟩
    rw [evalStatement]
    exact written_alike h (requireSet_congr (h.sets i hi))
  isIn i o coords A A' hA := by
    rw [assigned] at hA
    split_ifs at hA with hi
    obtain rfl := Option.some.inj hA
    refine ⟨List.subset_cons_self _ _, fun time s t h => ?_⟩
    rw [evalStatement]
    exact written_alike h (isInRows_congr fun hcoords => h.sets i (hi hcoords))
  mapToArea i o A A' hA := by
    rw [assigned] at hA
    split_ifs at hA with hi
    obtain rfl := Option.some.inj hA
    refine ⟨List.subset_cons_self _ _, fun time s t h => ?_⟩
    rw [evalStatement]
    exact written_alike h (mapToAreaRows_congr (h.sets i hi))
  out o A A' hA := by
    rw [assigned] at hA
    split_ifs at hA with hi
    obtain rfl := Option.some.inj hA
    refine ⟨List.Subset.refl A, fun time s t h => ?_⟩
    rw [evalStatement]
    refine .bind (looking_alike h (outElements_congr (h.sets o.inputSet hi)))
      fun printed _ s₁ t₁ _ hpost => ?_
    obtain ⟨hprinted, h₁⟩ := hpost
    subst hprinted
    refine .ok rfl rfl ⟨h₁.sets, h₁.notes, ?_, ?_⟩
    · exact congrArg (· ++ printed.1) h₁.elements
    · exact congrArg (fun versions => if mode.diffMode then versions ++ printed.2
        else versions) h₁.versions
  foreach i o body hbody := foreach_kept hbody
  if' c then' otherwise hthen helse := if_kept hthen helse
  retro t body hbody := retro_kept hbody
  timeline e i v o A A' hA := by
    obtain rfl := Option.some.inj hA
    refine ⟨List.subset_cons_self _ _, fun time s t h => ?_⟩
    rw [evalStatement]
    exact written_alike h rfl
  unsupported k source A A' hA := by
    obtain rfl := Option.some.inj hA
    refine ⟨List.Subset.refl A, fun time s t h => ?_⟩
    rw [evalStatement_unsupported]
    exact .throw

end Kept

/-! ### Programs -/

/-- Whatever way a run takes, it reads only sets that it has assigned. -/
def WellAssigned (D : Dataset F γ) (p : Program F) : Prop :=
  (assignedAll D ["_"] p.statements).isSome = true

instance (D : Dataset F γ) (p : Program F) : Decidable (WellAssigned D p) :=
  inferInstanceAs (Decidable (_ = true))

section Programs

variable {D : Dataset F γ} {p : Program F} {keep diffMode : Bool} {time : Option ℤ}

lemma meaning_alike (hp : WellAssigned D p) (sets sets' : Sets F) :
    Alike (programMeaning D p keep diffMode time) (programMeaning D p keep diffMode time)
      (start D sets) (start D sets') fun _ _ s t => s.notes = t.notes ∧ s.elements = t.elements ∧
        s.versions = t.versions := by
  obtain ⟨A, hA⟩ := Option.isSome_iff_exists.mp hp
  have hkept : ∀ x ∈ p.statements, Kept D (modeOf p diffMode) keep x := fun x _ => kept.holds x
  have hall := (all_alike hkept hA).2
  have hstart : Agree ["_"] (start D sets) (start D sets') := by
    refine ⟨fun n hn => ?_, rfl, rfl, rfl⟩
    obtain rfl := List.mem_singleton.mp hn
    simp [start]
  have hend : ∀ {s t : State F γ}, Agree A s t → s.notes = t.notes ∧ s.elements = t.elements ∧
      s.versions = t.versions := fun h => ⟨h.notes, h.elements, h.versions⟩
  rw [programMeaning]
  cases ownDate p time with
  | none => exact (hall time _ _ hstart).mono fun _ _ _ _ h => hend h
  | some date =>
    refine .bind (raiseFrom_alike (y := parseDate D date) rfl) fun u _ s₁ t₁ _ hpost => ?_
    obtain ⟨hu, _, hs, ht⟩ := hpost
    subst hu hs ht
    refine .congr (bind_ok rfl) (bind_ok rfl) ((hall (some u) _ _ ?_).mono fun _ _ _ _ h => hend h)
    exact ⟨hstart.sets, rfl, rfl, rfl⟩

lemma answer_of_wellAssigned (hp : WellAssigned D p) (sets sets' : Sets F) :
    answer D p keep diffMode time sets = answer D p keep diffMode time sets' :=
  (meaning_alike hp sets sets').outcome (fun _ s => State.pass s) (fun _ s => State.pass s)
    fun _ _ s t h => by rw [State.pass, State.pass, h.1, h.2.1, h.2.2]

/-- A pass prints the same from any tables. -/
lemma outcome_pass {c : Context F γ} (hU : Clear (Used D p)) (hp : WellAssigned D p)
    (hl : Listed (Used D p) c.tables) (t : ℤ) : ∃ f : Pass F → Context F γ,
      (∀ a, Listed (Used D p) (f a).tables) ∧ outcome (runDiffPass D p t) c =
        (answer D p true true (some t) fun _ => none).map fun a => (a, f a) := by
  rw [answer_of_wellAssigned hp (fun _ => none) c.tables.select, answer]
  rcases pass_alike (D := D) hU (fun _ h => h) hl t with ⟨run, run', hpass, hm⟩ | ⟨run, run'⟩
  · exact ⟨fun _ => _, fun _ => hm.listed, by rw [outcome, outcome, run, run', hpass]; rfl⟩
  · exact ⟨fun _ => c, fun _ => hl, by rw [outcome, outcome, run, run']; rfl⟩

end Programs

/-- **The two passes of a comparison do not see each other**: each prints what it would print
alone. -/
theorem runDiffProgram_means [DecidableEq F] (D : Dataset F γ) (p : Program F)
    (hU : Clear (Used D p)) (hp : WellAssigned D p) (h : Snapshots.HistoryRoot) (k : ℕ) :
    (outcome (runDiffProgram D p h) { next := k }).map Prod.fst = (do
      checkSettings D p.settings
      let (ta, tb) ← diffTimes D p
      let a ← answer D p true true (some ta) fun _ => none
      let b ← answer D p true true (some tb) fun _ => none
      return diffResult D p h ta tb a b) := by
  cases hcheck : checkSettings D p.settings with
  | error e =>
    have hrun : runDiffProgram D p h ({ next := k } : Context F γ) = .error e { next := k } :=
      bind_error (raiseFrom_error hcheck)
    rw [outcome, hrun]
    rfl
  | ok u =>
    cases htimes : diffTimes D p with
    | error e =>
      have hrun : runDiffProgram D p h ({ next := k } : Context F γ) = .error e { next := k } :=
        (bind_ok (raiseFrom_ok hcheck)).trans (bind_error (raiseFrom_error htimes))
      rw [outcome, hrun]
      rfl
    | ok times =>
      obtain ⟨ta, tb⟩ := times
      have hrun : runDiffProgram D p h ({ next := k } : Context F γ) =
          (runDiffPass D p ta >>= fun a =>
          runDiffPass D p tb >>= fun b => pure (diffResult D p h ta tb a b)) { next := k } :=
        (bind_ok (raiseFrom_ok hcheck)).trans (bind_ok (raiseFrom_ok htimes))
      obtain ⟨f, hf, hfirst⟩ := outcome_pass (c := { next := k }) hU hp
        (fun _ h => absurd h List.not_mem_nil) ta
      rw [outcome, hrun, ← outcome, outcome_bind, hfirst]
      cases ha : answer D p true true (some ta) fun _ => none with
      | error e =>
        show _ = (answer D p true true (some ta) fun _ => none).bind _
        rw [ha]
        rfl
      | ok a =>
        obtain ⟨g, -, hsecond⟩ := outcome_pass hU hp (hf a) tb
        show (outcome (runDiffPass D p tb >>= fun b => pure (diffResult D p h ta tb a b))
          (f a)).map Prod.fst = (answer D p true true (some ta) fun _ => none).bind fun a =>
            (answer D p true true (some tb) fun _ => none).bind fun b =>
              .ok (diffResult D p h ta tb a b)
        rw [outcome_bind, hsecond, ha]
        cases answer D p true true (some tb) fun _ => none <;> rfl

/-- `[diff:"2020-01-01T00:00:00Z","2021-01-01T00:00:00Z"]`. -/
def betweenYears : QlParser.Settings ℚ :=
  { diff := some (text "2020-01-01T00:00:00Z", some (text "2021-01-01T00:00:00Z")) }

/-- One node is there at both times, and another one has come. -/
def oneMore : Option ℤ → Rows ℚ := fun time =>
  if time = some 1577836800 then [bareRow .node 1] else [bareRow .node 1, bareRow .node 2]

/-- No files of the history, as no state of another element is looked up. -/
def noFiles : Snapshots.HistoryRoot := ⟨fun _ => .empty, fun _ => .empty, .empty⟩

theorem runDiffProgram_means_eachElement :
    (outcome (runDiffProgram (inMemory oneMore)
      { eachElement with settings := betweenYears } noFiles)
        { next := 5 }).map Prod.fst = (do
      checkSettings (inMemory oneMore) betweenYears
      let (ta, tb) ← diffTimes (inMemory oneMore) { eachElement with settings := betweenYears }
      let a ← answer (inMemory oneMore) { eachElement with settings := betweenYears } true true
        (some ta) fun _ => none
      let b ← answer (inMemory oneMore) { eachElement with settings := betweenYears } true true
        (some tb) fun _ => none
      return diffResult (inMemory oneMore) { eachElement with settings := betweenYears }
        noFiles ta tb a b) :=
  runDiffProgram_means _ _ (clear_used (by decide)) (by decide) noFiles 5

end OsmParquet.AssignedSets
