import OsmParquet.Statements

/-!
What programs mean, without tables.

A set is a value under a name. A union has the outputs of its parts, one after the other, a block at
another time is run with its time and gives back the sets as they were, and nothing is copied or
named. The polygons of areas may be kept for the whole run or looked up by every statement.
-/

namespace OsmParquet.ProgramMeaning

open OsmParquet.KeyedList OsmParquet.Elements OsmParquet.Procedures OsmParquet.StatementReads
open OsmParquet.Statements
open OsmParquet.QlParser (Bbox Statement Program Query)

variable {F γ α : Type}

structure State (F γ : Type) where
  sets : Sets F := fun _ => none
  notes : Notes γ := {}
  elements : List (Element F) := []
  versions : List (Key × Option ℤ) := []

abbrev Meaning (F γ α : Type) := Proc Raised (State F γ) α

def raiseFrom : Except Raised α → Meaning F γ α
  | .ok a => pure a
  | .error e => throw e

def rowsOf (name : String) : Meaning F γ (Rows F) := do
  match (← get).sets name with
  | some rows => return rows
  | none => throw (.catalogException name)

/-- The rows of a set that a part of a union has written. -/
def output (s : Statement F) : Meaning F γ (Rows F) := do
  let name ← raiseFrom (outputSetName s)
  rowsOf name

lemma rowsOf_eq (name : String) (s : State F γ) : rowsOf name s =
    (s.sets name).elim (.error (.catalogException name) s) fun rows => .ok rows s := by
  show (match s.sets name with | some rows => pure rows | none => throw _ :
      Meaning F γ (Rows F)) s = _
  cases s.sets name <;> rfl

/-- The sets after a block of its own: as they were before, and empty where there was none. -/
def outside (before after : Sets F) : Sets F := fun name =>
  match before name with
  | some rows => some rows
  | none => (after name).map fun _ => []

section Evaluation

variable (D : Dataset F γ) (mode : Mode F) (keep : Bool)

def assign (name : String) (rows : Rows F) : Meaning F γ Unit :=
  modify fun s => { s with sets := Function.update s.sets name (some (D.distinct rows)) }

/-- The notes with the polygons, if they are kept. -/
def State.kept (s : State F γ) : Notes γ :=
  if keep then s.notes else { s.notes with areaPolygons := [] }

def looking (m : Sets F → Reading γ α) : Meaning F γ α := do
  let s ← get
  onPart (State.kept keep) (fun notes s => { s with notes }) (m s.sets)

mutual

def evalStatement (time : Option ℤ) : Statement F → Meaning F γ Unit
  | .query q => do
    let rows ← looking keep fun sets => queryRows D mode.globalBbox sets time q
    assign D q.outputSet rows
  | .union ss o => do
    let parts ← evalParts time ss
    assign D o parts.flatten
  | .difference first second o => do
    evalStatement time first
    let rows ← output first
    evalStatement time second
    let others ← output second
    assign D o (differenceRows rows others)
  | .recurse kind i o => do
    let rows ← looking keep fun sets => executeRecurseRows D sets time kind i
    assign D o rows
  | .item i o => do
    let rows ← looking keep fun sets => requireSet sets i
    assign D o rows
  | .isIn i o coords => do
    let rows ← looking keep fun sets => isInRows D sets time i coords
    assign D o rows
  | .mapToArea i o => do
    let rows ← looking keep fun sets => mapToAreaRows D sets i
    assign D o rows
  | .out o => do
    let (elements, versions) ← looking keep fun sets => outElements D mode o sets time
    modify fun s => { s with
      elements := s.elements ++ elements
      versions := if mode.diffMode then s.versions ++ versions else s.versions }
  | .foreach i o body => do
    let rows ← looking keep fun sets => requireSet sets i
    (byTypeAndId rows).forM fun row => do
      assign D o ((byTypeAndId rows).filter fun x => decide (x.key = row.key))
      evalAll time body
  | .if' condition then' otherwise => do
    let s ← get
    let value ← raiseFrom (evaluateText D s.sets condition)
    if EvalSql.truthy value then evalAll time then' else evalAll time otherwise
  | .retro timeExpr body => do
    if !D.hasHistory then
      throw (.unsupportedError (text "retro(...) is not supported: this dataset has no history"))
    let before ← get
    let t ← raiseFrom (evaluateRetroTime D before.sets timeExpr)
    modify fun s => { s with notes := s.notes.warn (historyRemark D t).toList }
    ensure (evalAll (some t) body) fun after =>
      { after with sets := outside before.sets after.sets }
  | .timeline elementType elementId version o => do
    let rows ← looking keep fun _ => timelineRows D elementType elementId version
    assign D o rows
  | .unsupported keyword _ =>
    throw (.unsupportedError (text (keyword ++ " is not supported in M0")))

def evalAll (time : Option ℤ) : List (Statement F) → Meaning F γ Unit
  | [] => return
  | s :: ss => do
    evalStatement time s
    evalAll time ss

def evalParts (time : Option ℤ) : List (Statement F) → Meaning F γ (List (Rows F))
  | [] => return []
  | s :: ss => do
    evalStatement time s
    let rows ← output s
    let parts ← evalParts time ss
    return rows :: parts

end

lemma evalStatement_unsupported (time : Option ℤ) (keyword : String) (source : List Char) :
    evalStatement D mode keep time (.unsupported keyword source) =
      throw (.unsupportedError (text (keyword ++ " is not supported in M0"))) := by
  rw [evalStatement]

end Evaluation

end OsmParquet.ProgramMeaning
