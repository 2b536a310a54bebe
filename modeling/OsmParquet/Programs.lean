import OsmParquet.SetTables

/-!
Whole programs: one run, and the two runs of a comparison.

A comparison runs the program twice on one connection. The default set is emptied before each run,
and the other sets of the first run are still there in the second one.
-/

namespace OsmParquet.Programs

open OsmParquet.Elements OsmParquet.DiffActions OsmParquet.Procedures OsmParquet.Snapshots
open OsmParquet.StatementReads OsmParquet.Statements OsmParquet.SetNames OsmParquet.SetTables
open OsmParquet.ProgramMeaning (State evalAll)
open OsmParquet.QlLexer (Text)
open OsmParquet.QlParser (Statement Program Query)

variable {F γ : Type}

/-! ### Settings -/

def checkSettings (D : Dataset F γ) (settings : QlParser.Settings F) : Except Raised Unit :=
  if settings.date.isSome && !D.hasHistory then
    .error
      (.unsupportedError (text "[date:] (attic) is not supported: this dataset has no history"))
  else if settings.diff.isSome && !D.hasHistory then
    .error (.unsupportedError (text "[diff:] is not supported: this dataset has no history"))
  else if settings.adiff.isSome && !D.hasHistory then
    .error (.unsupportedError (text "[adiff:] is not supported: this dataset has no history"))
  else .ok ()

def filterUsesAreas : QlParser.Filter F → Bool
  | .area _ _ | .pivot _ => true
  | _ => false

mutual

def usesAreas : Statement F → Bool
  | .isIn _ _ _ | .mapToArea _ _ => true
  | .query q => decide (.area ∈ q.types) || q.filters.any filterUsesAreas
  | .union ss _ => programUsesAreas ss
  | .difference a b _ => usesAreas a || usesAreas b
  | .foreach _ _ body | .retro _ body => programUsesAreas body
  | .if' _ then' otherwise => programUsesAreas then' || programUsesAreas otherwise
  | .recurse _ _ _ | .item _ _ | .out _ | .timeline _ _ _ _ | .unsupported _ _ => false

def programUsesAreas : List (Statement F) → Bool
  | [] => false
  | s :: ss => usesAreas s || programUsesAreas ss

end

/-! ### Runs -/

section Runs

variable (D : Dataset F γ) (p : Program F)

def modeOf (diffMode : Bool) : Mode F := ⟨p.settings.bbox, programUsesAreas p.statements, diffMode⟩

/-- A run at a time, which is put back at its end. -/
def atTime {α : Type} (t : ℤ) (m : Run F γ α) : Run F γ α := do
  let c ← get
  modify fun c => { c with snapshot := some t }
  ensure m fun after => { after with snapshot := c.snapshot }

/-- The date of the program counts where there is no time yet. -/
def ownDate (time : Option ℤ) : Option Text := if time.isNone then p.settings.date else none

def runProgramBody (diffMode : Bool) : Run F γ Unit := do
  modify fun c => { c with notes := {}, elements := [], versions := [] }
  materialize D "_" []
  match ownDate p (← get).snapshot with
  | some date =>
    let t ← raiseFrom (parseDate D date)
    modify fun c => { c with notes := c.notes.warn (historyRemark D t).toList }
    atTime t (executeAll D (modeOf p diffMode) p.statements)
  | none => executeAll D (modeOf p diffMode) p.statements

def runProgram : Run F γ Unit := do
  raiseFrom (checkSettings D p.settings)
  runProgramBody D p false

/-- What a pass has printed, and what it has read. -/
structure Pass (F : Type) where
  result : PassResult F
  filesRead : ℕ
  warnings : List Text

def Context.pass (c : Context F γ) : Pass F :=
  ⟨⟨c.elements, c.versions⟩, c.notes.filesRead, c.notes.warnings⟩

def runDiffPass (t : ℤ) : Run F γ (Pass F) := do
  atTime t (runProgramBody D p true)
  return Context.pass (← get)

structure DiffRunResult (F : Type) where
  actions : List (Action F)
  filesRead : ℕ
  warnings : List Text

/-- The times of a comparison. -/
def diffTimes : Except Raised (ℤ × ℤ) := do
  let (since, upTo) := (if p.settings.adiff.isSome then p.settings.adiff
    else p.settings.diff).getD ([], none)
  return (← parseDate D since, ← resolveOptionalDate D upTo)

/-- The result of a comparison, from its two passes. -/
def diffResult [DecidableEq F] (h : HistoryRoot) (ta tb : ℤ) (a b : Pass F) : DiffRunResult F where
  actions := buildDiffActions D.host h a.result b.result ta tb p.settings.adiff.isSome
  filesRead := a.filesRead + b.filesRead
  warnings := ((historyRemark D ta).toList ++ (historyRemark D tb).toList ++
    (a.warnings ++ b.warnings).map fun w => (⟨true, w⟩ : Warning)).foldl addWarning []

def runDiffProgram [DecidableEq F] (h : HistoryRoot) : Run F γ (DiffRunResult F) := do
  raiseFrom (checkSettings D p.settings)
  let (ta, tb) ← raiseFrom (diffTimes D p)
  let a ← runDiffPass D p ta
  let b ← runDiffPass D p tb
  return diffResult D p h ta tb a b

end Runs

/-! ### Meanings -/

section Meanings

variable (D : Dataset F γ) (p : Program F)

/-- Nothing but the default set, with nothing in it. -/
def start (sets : Sets F) : State F γ := { sets := Function.update sets "_" (some (D.distinct [])) }

def programMeaning (keep diffMode : Bool) (time : Option ℤ) : ProgramMeaning.Meaning F γ Unit :=
  match ownDate p time with
  | some date => do
    let t ← ProgramMeaning.raiseFrom (parseDate D date)
    modify fun s => { s with notes := s.notes.warn (historyRemark D t).toList }
    evalAll D (modeOf p diffMode) keep (some t) p.statements
  | none => evalAll D (modeOf p diffMode) keep time p.statements

def State.pass (s : State F γ) : Pass F :=
  ⟨⟨s.elements, s.versions⟩, s.notes.filesRead, s.notes.warnings⟩

/-- What a run of the program prints, on sets that are there already. -/
def answer (keep diffMode : Bool) (time : Option ℤ) (sets : Sets F) : Except Raised (Pass F) :=
  (outcome (programMeaning D p keep diffMode time) (start D sets)).map fun x => State.pass x.2

/-- The names of the program, with the default set. -/
def Used (n : String) : Prop := n = "_" ∨ n ∈ allNames D p.statements

end Meanings

section Refinement

variable {D : Dataset F γ} {p : Program F} {U : String → Prop} {time : Option ℤ} {c : Context F γ}
  {s : State F γ} {diffMode : Bool}

lemma atTime_alike {α : Type} {m : Run F γ α} {m' : ProgramMeaning.Meaning F γ α} {t : ℤ}
    (hm : Models U time c s)
    (h : ∀ c₁, Models U (some t) c₁ s → Alike m m' c₁ s fun a b c' s' => a = b ∧
      Models U (some t) c' s') :
    Alike (atTime t m) m' c s fun a b c' s' => a = b ∧ Models U time c' s' := by
  have hm₁ : Models U (some t) { c with snapshot := some t } s :=
    ⟨hm.sets, hm.listed, rfl, hm.notes, hm.elements, hm.versions⟩
  exact .congr (bind_ok rfl) rfl (.congr (bind_ok rfl) rfl ((h _ hm₁).ensure_left
    fun a b c' s' ⟨hab, hm'⟩ => ⟨hab, hm'.sets, hm'.listed, hm.snapshot, hm'.notes, hm'.elements,
      hm'.versions⟩))

lemma models_start (hU : Clear U) (hdefault : U "_") (hl : Listed U c.tables) :
    Models U c.snapshot { c with
      tables := c.tables.replace "_" (D.distinct []), notes := {}, elements := [], versions := [] }
      (start D c.tables.select) := by
  refine ⟨fun n hn => ?_, listed_replace hl (.inl hdefault), rfl, rfl, rfl, rfl⟩
  show (c.tables.replace "_" (D.distinct [])).select n = Function.update c.tables.select "_" _ n
  rw [select_replace hU (.inl hdefault) (.inl hn), Function.update_apply]
  by_cases h : "_" = n
  · rw [if_pos h, if_pos h.symm]
  · rw [if_neg h, if_neg (Ne.symm h)]

/-- A run of the body, from any tables. -/
lemma body_alike (diffMode : Bool) (hU : Clear U) (hused : ∀ n, Used D p n → U n)
    (hl : Listed U c.tables) :
    Alike (runProgramBody D p diffMode) (programMeaning D p true diffMode c.snapshot) c
      (start D c.tables.select) fun _ _ c' s' => Models U c.snapshot c' s' := by
  have hm := models_start (D := D) hU (hused _ (.inl rfl)) hl
  have hall : ∀ {time : Option ℤ} {c₁ : Context F γ} {s : State F γ}, Models U time c₁ s →
      Alike (executeAll D (modeOf p diffMode) p.statements)
        (evalAll D (modeOf p diffMode) true time p.statements) c₁ s
        fun a b c' s' => a = b ∧ Models U time c' s' := fun hm =>
    (all_alike (fun x _ => (simulates hU).holds x) (fun n hn => hused n (.inr hn)) hm).mono
      fun _ _ _ _ h => ⟨rfl, h.1⟩
  have hrun : runProgramBody D p diffMode c = (match ownDate p c.snapshot with
      | some date => do
        let t ← raiseFrom (parseDate D date)
        modify fun c => { c with notes := c.notes.warn (historyRemark D t).toList }
        atTime t (executeAll D (modeOf p diffMode) p.statements)
      | none => executeAll D (modeOf p diffMode) p.statements : Run F γ Unit)
      { c with
        tables := c.tables.replace "_" (D.distinct [])
        notes := {}, elements := [], versions := [] } :=
    rfl
  refine .congr hrun rfl ?_
  rw [programMeaning]
  cases ownDate p c.snapshot with
  | none => exact (hall hm).mono fun _ _ _ _ h => h.2
  | some date =>
    refine .bind (raiseFrom_alike rfl) fun t _ c₁ s₁ _ ⟨ht, _, hc, hs⟩ => ?_
    subst ht hc hs
    refine .congr (bind_ok rfl) (bind_ok rfl)
      ((atTime_alike ?_ fun c₁ hm₁ => hall hm₁).mono fun _ _ _ _ h => h.2)
    exact ⟨hm.sets, hm.listed, hm.snapshot, rfl, rfl, rfl⟩

/-- A pass of a comparison, from any tables. -/
lemma pass_alike (hU : Clear U) (hused : ∀ n, Used D p n → U n) (hl : Listed U c.tables) (t : ℤ) :
    Alike (runDiffPass D p t) (programMeaning D p true true (some t)) c (start D c.tables.select)
      fun pass _ c' s' => pass = State.pass s' ∧ Models U c.snapshot c' s' := by
  have hbody := body_alike (D := D) (p := p) (c := { c with snapshot := some t }) true hU hused hl
  have hrun : runDiffPass D p t c = (atTime t (runProgramBody D p true) >>= fun _ => do
      return Context.pass (← get)) c := rfl
  have htime : Alike (atTime t (runProgramBody D p true)) (programMeaning D p true true (some t)) c
      (start D c.tables.select) fun _ _ c' s' => Models U c.snapshot c' s' :=
    .congr (bind_ok rfl) rfl (.congr (bind_ok rfl) rfl (hbody.ensure_left fun _ _ c' s' hm =>
      ⟨hm.sets, hm.listed, rfl, hm.notes, hm.elements, hm.versions⟩))
  rcases htime with ⟨run, run', hm⟩ | ⟨run, run'⟩
  · refine .ok (hrun.trans ((bind_ok run).trans (bind_ok rfl))) run' ⟨?_, hm⟩
    rw [Context.pass, State.pass, hm.notes, hm.elements, hm.versions]
  · exact .error (hrun.trans (bind_error run)) run'

end Refinement

/-- The check of the names of a program. -/
def namesApart (names : List String) : Bool :=
  names.all fun a => (names.all fun b => decide (foldName a = foldName b → a = b)) &&
    !(['_', '_'].isPrefixOf (foldName a))

lemma clear_used {D : Dataset F γ} {p : Program F}
    (h : namesApart ("_" :: allNames D p.statements) = true) : Clear (Used D p) := by
  have hmem : ∀ n, Used D p n → n ∈ "_" :: allNames D p.statements :=
    fun n hn => List.mem_cons.mpr hn
  have happart : ∀ n, Used D p n → (∀ b, Used D p b → foldName n = foldName b → n = b) ∧
      ¬ ['_', '_'] <+: foldName n := fun n hn => by
    have hboth := Bool.and_eq_true_iff.mp (List.all_eq_true.mp h n (hmem n hn))
    refine ⟨fun b hb => of_decide_eq_true (List.all_eq_true.mp hboth.1 b (hmem b hb)),
      fun hdashes => ?_⟩
    rw [List.isPrefixOf_iff_prefix.mpr hdashes] at hboth
    exact absurd hboth.2 (by simp)
  exact clear_of (fun a b ha hb => (happart a ha).1 b hb) fun a ha => (happart a ha).2

/-- **A program prints what it means**, whatever the number of the first copy is. -/
theorem runProgram_means (D : Dataset F γ) (p : Program F) (hU : Clear (Used D p)) (k : ℕ) :
    (outcome (runProgram D p) { next := k }).map (fun x => Context.pass x.2) =
      (checkSettings D p.settings).bind fun _ => answer D p true false none fun _ => none := by
  cases hcheck : checkSettings D p.settings with
  | error e =>
    have hrun : runProgram D p ({ next := k } : Context F γ) = .error e { next := k } :=
      bind_error (raiseFrom_error hcheck)
    rw [outcome, hrun]
    rfl
  | ok u =>
    have hrun : runProgram D p ({ next := k } : Context F γ) = runProgramBody D p false
        { next := k } :=
      bind_ok (raiseFrom_ok hcheck)
    have hbody := body_alike (D := D) (p := p) (c := { next := k }) false hU (fun _ h => h)
      (fun _ h => absurd h List.not_mem_nil)
    rw [outcome, hrun, ← outcome]
    refine hbody.outcome (fun _ c => Context.pass c) (fun _ s => State.pass s)
      fun _ _ c' s' hm => ?_
    rw [Context.pass, State.pass, hm.notes, hm.elements, hm.versions]

/-- `(node->.a; way->.b;)->.all; foreach .all->.x { .x out; }`. -/
def eachElement : Program ℚ where
  settings := {}
  statements := [.union [.query { types := [.node], outputSet := "a" },
    .query { types := [.way], outputSet := "b" }]
    "all", .foreach "all" "x" [.out { inputSet := "x" }]]

def twoNodesAndAWay : Rows ℚ := [bareRow .way 7, bareRow .node 2, bareRow .node 1]

theorem runProgram_means_eachElement :
    (outcome (runProgram (inMemory fun _ => twoNodesAndAWay) eachElement) { next := 5 }).map
        (fun x => Context.pass x.2) =
      (checkSettings (inMemory fun _ => twoNodesAndAWay) eachElement.settings).bind fun _ =>
        answer (inMemory fun _ => twoNodesAndAWay) eachElement true false none fun _ => none :=
  runProgram_means _ _ (clear_used (by decide)) 5

/-- `node->.a; way->.A; .a out;`: the second table takes the place of the first, which is not listed
any more. -/
example : (outcome (runProgram (inMemory fun _ => twoNodesAndAWay)
    { eachElement with statements := [.query { types := [.node], outputSet := "a" },
      .query { types := [.way], outputSet := "A" }, .out { inputSet := "a" }] }) {}).map
        (fun _ => ()) =
    .error (notSet "a") := rfl

end OsmParquet.Programs
