import OsmParquet.DiffActions
import OsmParquet.NamedTables
import OsmParquet.StatementReads

/-!
The statements of a program, as the planner runs them.

A set is a temporary table of the connection, and a statement makes the table of its output set
anew. A union or a difference copies the output of each of its parts to a table of its own,
`foreach` copies its input, and a block at another time copies all tables and puts them back at its
end. The names of the copies come from a counter of the process. The database compares names without
regard to case, but the test whether a set is there goes by the spelling.

The tables are those whose names begin with `set_`, under what follows it.
-/

namespace OsmParquet.Statements

open OsmParquet.KeyedList OsmParquet.Elements OsmParquet.NamedTables OsmParquet.Procedures
open OsmParquet.StatementReads
open OsmParquet.QlLexer (Text codePoints)
open OsmParquet.QlParser (Bbox Statement Program Query)

variable {F γ α : Type}

/-! ### Tables -/

/-- How the database compares names. -/
def foldName (name : String) : List Char := name.toList.map Char.toLower

abbrev Tables (F : Type) := Catalog foldName (Rows F)

/-- A set is there if its very name is listed, and it is read under the name that the database
finds. -/
def setsOf (tables : Tables F) : Sets F := fun name =>
  if tables.lists name then tables.select name else none

/-- A connection, the counter of the process and the time that the dataset is read at; and what a
run of a program has so far. -/
structure Context (F γ : Type) where
  tables : Tables F := .empty
  next : ℕ := 1
  snapshot : Option ℤ := none
  notes : Notes γ := {}
  elements : List (Element F) := []
  versions : List (Key × Option ℤ) := []

abbrev Run (F γ α : Type) := Proc Raised (Context F γ) α

/-- What is fixed during a run. -/
structure Mode (F : Type) where
  globalBbox : Option (Bbox F)
  areasUsed : Bool
  diffMode : Bool

/-- What a statement reads, by the tables and the time of the run. -/
def reading (m : Sets F → Option ℤ → Reading γ α) : Run F γ α := do
  let c ← get
  onPart Context.notes (fun notes c => { c with notes }) (m (setsOf c.tables) c.snapshot)

def raiseFrom : Except Raised α → Run F γ α
  | .ok a => pure a
  | .error e => throw e

lemma raiseFrom_ok {x : Except Raised α} {a : α} {c : Context F γ} (h : x = .ok a) :
    (raiseFrom x : Run F γ α) c = .ok a c := by
  rw [h]
  rfl

lemma raiseFrom_error {x : Except Raised α} {e : Raised} {c : Context F γ} (h : x = .error e) :
    (raiseFrom x : Run F γ α) c = .error e c := by
  rw [h]
  rfl

def createOrReplace (name : String) (rows : Rows F) : Run F γ Unit :=
  modify fun c => { c with tables := c.tables.replace name rows }

def selectFrom (name : String) : Run F γ (Rows F) := do
  match (← get).tables.select name with
  | some rows => return rows
  | none => throw (.catalogException name)

def partName (n : ℕ) : String := "__part_" ++ toString n

def foreachName (n : ℕ) : String := "__foreach_" ++ toString n

/-- The number of the next name. -/
def freshNumber : Run F γ ℕ := do
  let c ← get
  set { c with next := c.next + 1 }
  return c.next

def materialize (D : Dataset F γ) (name : String) (rows : Rows F) : Run F γ Unit :=
  createOrReplace name (D.distinct rows)

def differenceRows (a b : Rows F) : Rows F :=
  a.filter fun row => !b.any fun x => decide (x.key = row.key)

/-! ### Blocks at another time -/

/-- The tables, each with the number of its copy. -/
def snapshotSets : Run F γ (List (Table String (Rows F))) := do
  let c ← get
  set { c with next := c.next + c.tables.tables.length }
  return c.tables.tables

/-- Tables that were not there are emptied, and the others get back what they had. -/
def restoreSets (saved : List (Table String (Rows F))) (tables : Tables F) : Tables F :=
  let fresh := tables.tables.filter fun t => t.name ∉ saved.map Table.name
  (tables.replaceAll (fresh.map fun t => ⟨t.name, []⟩)).replaceAll saved

/-! ### Statements -/

def statementClass : Statement F → String
  | .query _ => "Query"
  | .union _ _ => "Union"
  | .difference _ _ _ => "Difference"
  | .recurse _ _ _ => "Recurse"
  | .item _ _ => "Item"
  | .isIn _ _ _ => "IsIn"
  | .mapToArea _ _ => "MapToArea"
  | .out _ => "Out"
  | .foreach _ _ _ => "Foreach"
  | .if' _ _ _ => "If"
  | .retro _ _ => "Retro"
  | .timeline _ _ _ _ => "Timeline"
  | .unsupported _ _ => "Unsupported"

def outputSet? : Statement F → Option String
  | .query q => some q.outputSet
  | .union _ o | .difference _ _ o | .recurse _ _ o | .item _ o | .isIn _ o _ | .mapToArea _ o
  | .foreach _ o _ | .timeline _ _ _ o => some o
  | .out _ | .if' _ _ _ | .retro _ _ | .unsupported _ _ => none

def outputSetName (s : Statement F) : Except Raised String :=
  match outputSet? s with
  | some name => .ok name
  | none => .error (.unsupportedError (text (statementClass s ++
      " cannot appear inside a union/difference block")))

def outOptions (o : QlParser.Out F) : Elements.Out F where
  verbosity := match o.verbosity with
    | .ids => .ids
    | .skel => .skel
    | .body => .body
    | .tags => .tags
    | .meta' => .withMeta
  geometry := match o.geometry with
    | .none => .none
    | .geom => .geom
    | .bb => .bb
    | .center => .center
  geomBbox := o.geomBbox.map fun b => ⟨b.south, b.west, b.north, b.east⟩
  order := match o.order with
    | .asc => .asc
    | .qt => .qt
  limit := o.limit.map Int.toNat
  noids := o.noids
  count := o.count

/-- `type` as the database orders it. -/
def typeOrder : ElType → ℕ
  | .area => 0
  | .count => 1
  | .node => 2
  | .relation => 3
  | .timeline => 4
  | .way => 5

def byTypeAndId (rows : Rows F) : Rows F :=
  rows.insertionSort fun a b => toLex (typeOrder a.type, a.id) ≤ toLex (typeOrder b.type, b.id)

section Execution

variable (D : Dataset F γ) (mode : Mode F)

/-- The elements that an `out` prints, with their versions. -/
def outElements (o : QlParser.Out F) (sets : Sets F) (time : Option ℤ) :
    Reading γ (List (Element F) × List (Key × Option ℤ)) := do
  let rows ← requireSet sets o.inputSet
  let out := outOptions o
  let effective := if mode.diffMode && out.count then
    { out with count := false, verbosity := .ids } else out
  return buildElements D.host rows effective (D.resolve time rows effective) mode.areasUsed

def executeOut (o : QlParser.Out F) : Run F γ Unit := do
  let (elements, versions) ← reading (outElements D mode o)
  modify fun c => { c with
    elements := c.elements ++ elements
    versions := if mode.diffMode then c.versions ++ versions else c.versions }

/-- The output of a part, which has been executed, is copied. -/
def capture (s : Statement F) : Run F γ String := do
  let produced ← raiseFrom (outputSetName s)
  let n ← freshNumber
  let rows ← selectFrom produced
  createOrReplace (partName n) rows
  return partName n

mutual

def executeStatement : Statement F → Run F γ Unit
  | .query q => do
    let rows ← reading fun sets time => queryRows D mode.globalBbox sets time q
    materialize D q.outputSet rows
  | .union ss o => do
    let parts ← executeParts ss
    let rows ← parts.mapM selectFrom
    materialize D o rows.flatten
  | .difference first second o => do
    executeStatement first
    let a ← capture first
    executeStatement second
    let b ← capture second
    let rows ← selectFrom a
    let others ← selectFrom b
    materialize D o (differenceRows rows others)
  | .recurse kind i o => do
    let rows ← reading fun sets time => executeRecurseRows D sets time kind i
    materialize D o rows
  | .item i o => do
    let rows ← reading fun sets _ => requireSet sets i
    materialize D o rows
  | .isIn i o coords => do
    let rows ← reading fun sets time => isInRows D sets time i coords
    materialize D o rows
  | .mapToArea i o => do
    let rows ← reading fun sets _ => mapToAreaRows D sets i
    materialize D o rows
  | .out o => executeOut D mode o
  | .foreach i o body => do
    let rows ← reading fun sets _ => requireSet sets i
    let n ← freshNumber
    createOrReplace (foreachName n) (byTypeAndId rows)
    let rows ← selectFrom (foreachName n)
    (byTypeAndId rows).forM fun row => do
      let rows ← selectFrom (foreachName n)
      materialize D o (rows.filter fun x => decide (x.key = row.key))
      executeAll body
  | .if' condition then' otherwise => do
    let c ← get
    let value ← raiseFrom (evaluateText D (setsOf c.tables) condition)
    if EvalSql.truthy value then executeAll then' else executeAll otherwise
  | .retro timeExpr body => do
    if !D.hasHistory then
      throw (.unsupportedError (text "retro(...) is not supported: this dataset has no history"))
    let c ← get
    let t ← raiseFrom (evaluateRetroTime D (setsOf c.tables) timeExpr)
    modify fun c => { c with notes := c.notes.warn (historyRemark D t).toList }
    let saved ← snapshotSets
    modify fun c => { c with snapshot := some t }
    ensure (executeAll body) fun after => { after with
      snapshot := c.snapshot, tables := restoreSets saved after.tables }
  | .timeline elementType elementId version o => do
    let rows ← reading fun _ _ => timelineRows D elementType elementId version
    materialize D o rows
  | .unsupported keyword _ =>
    throw (.unsupportedError (text (keyword ++ " is not supported in M0")))

/-- The statements of a block. -/
def executeAll : List (Statement F) → Run F γ Unit
  | [] => return
  | s :: ss => do
    executeStatement s
    executeAll ss

/-- The statements of a union, and the names of their copies. -/
def executeParts : List (Statement F) → Run F γ (List String)
  | [] => return []
  | s :: ss => do
    executeStatement s
    let part ← capture s
    let parts ← executeParts ss
    return part :: parts

end

lemma executeStatement_unsupported (keyword : String) (source : List Char) :
    executeStatement D mode (.unsupported keyword source) =
      throw (.unsupportedError (text (keyword ++ " is not supported in M0"))) := by
  rw [executeStatement]

end Execution

end OsmParquet.Statements
