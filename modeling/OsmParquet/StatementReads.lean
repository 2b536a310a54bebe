import OsmParquet.Elements
import OsmParquet.EvalSql
import OsmParquet.Procedures
import OsmParquet.QlParser

/-!
What the statements of a program read.

A statement reads the rows of the sets that it names, and the dataset. It asks for its sets in a
fixed order, and raises when one of them is not there; a query whose box is empty asks for fewer.
The polygons of areas are kept once they have been looked up.

What reads the files of a dataset is given, as functions of the rows of the sets.
-/

namespace OsmParquet.StatementReads

open OsmParquet.KeyedList OsmParquet.Elements OsmParquet.Procedures
open OsmParquet.QlLexer (Text codePoints)
open OsmParquet.QlParser (Bbox ElementType Statement RecurseKind RecurseOp Program Query)

variable {F γ α : Type}

/-! ### Exceptions -/

inductive Raised
  | runtimeQueryError (message : Text)
  | unsupportedError (message : Text)
  | evaluator (raised : Evaluator.Raised)
  /-- The database knows no table of this name. -/
  | catalogException (name : String)
  | keyError (key : String)

def text (s : String) : Text := codePoints s.toList

def notSetMessage (name : String) : String :=
  "runtime error: set \"." ++ name ++ "\" has not been set before"

def notSet (name : String) : Raised := .runtimeQueryError (text (notSetMessage name))

def Raised.ofFailure : EvalSql.Failure → Raised
  | .unsupportedError message => .unsupportedError (text message)
  | .runtimeQueryError message => .runtimeQueryError (text message)

/-! ### The dataset -/

abbrev Rows (F : Type) := List (OutRow F)

/-- The sets that are there, with their rows. -/
abbrev Sets (F : Type) := String → Option (Rows F)

/-- A warning, and whether it is given only once. -/
structure Warning where
  once : Bool
  message : Text

/-- Rows, and what reading them leaves behind. -/
structure Reply (F : Type) where
  rows : Rows F
  filesRead : ℕ := 0
  warnings : List Warning := []

/-- The condition of a filter on rows. -/
structure Predicate (F : Type) where
  holds : OutRow F → Bool
  filesRead : ℕ := 0
  warnings : List Warning := []

/-- What a filter reads: nothing, a set, or the polygons of areas. -/
inductive FilterInput (F γ : Type)
  | plain
  | rows (rows : Rows F)
  | polygons (polygons : γ)

/-- What the planner calls: the manifest, the host, and the functions that read files. A time is
given where the dataset is read as it was at that time. -/
structure Dataset (F γ : Type) where
  hasHistory : Bool
  historySince : Option Text
  areasAvailable : Bool
  host : Host F
  toE7 : F → ℤ
  strptime : Text → Option ℤ
  cc : Scanning.CharClasses
  number : List Char → Option SqlValues.Number
  py : EvalSql.Floats
  tagHolds : QlParser.TagFilter → Option Rows.Tags → Bool
  /-- One row for every element. -/
  distinct : Rows F → Rows F
  aggregate : Evaluator.AggFunc → Evaluator.Expr SqlValues.Number → Rows F →
    Except EvalSql.Failure String
  bboxOfCoords : List (F × F) → Bbox F
  bboxOfSet : Rows F → Option (Bbox F)
  expandBbox : Bbox F → F → Bbox F
  pivotBbox : Rows F → Option (Bbox F)
  areaPolygons : Rows F → γ × ℕ
  areaPolygonsById : Option ℤ → ℤ → γ × ℕ
  polygonsBbox : γ → Option (Bbox F)
  predicate : Option ℤ → Query F → Option (Bbox F) → QlParser.Filter F → FilterInput F γ → Rows F →
    Except Raised (Predicate F)
  recurseFilterRows : Option ℤ → Query F → RecurseKind → Option Text → Rows F →
    Except Raised (Reply F)
  datasetRows : Option ℤ → Query F → Option (Bbox F) → Except Raised (Reply F)
  areaRows : Option ℤ → Query F → Reply F
  recurseRows : Option ℤ → RecurseOp → Rows F → Reply F
  isInPoint : F × F → Reply F
  isInSet : Option ℤ → Rows F → Reply F
  mapToArea : Rows F → Reply F
  timelineRows : ElementType → ℤ → Option ℤ → Rows F
  resolve : Option ℤ → Rows F → Elements.Out F → Resolved F

/-! ### What reading leaves behind -/

/-- The set that an area filter names, and the area. -/
abbrev AreaRef := Option String × Option ℤ

/-- What statements write down beside rows. The polygons of areas are kept for the whole run, under
what the filter said. -/
structure Notes (γ : Type) where
  filesRead : ℕ := 0
  warnings : List Text := []
  areaPolygons : List (AreaRef × γ) := []

abbrev Reading (γ α : Type) := Proc Raised (Notes γ) α

def addWarning (warnings : List Text) (w : Warning) : List Text :=
  if w.once && decide (w.message ∈ warnings) then warnings else warnings ++ [w.message]

def Notes.warn (n : Notes γ) (warnings : List Warning) : Notes γ :=
  { n with warnings := warnings.foldl addWarning n.warnings }

def note (filesRead : ℕ) (warnings : List Warning) : Reading γ Unit :=
  modify fun n => { n.warn warnings with filesRead := n.filesRead + filesRead }

def reply (r : Reply F) : Reading γ (Rows F) := do
  note r.filesRead r.warnings
  return r.rows

def lift : Except Raised α → Reading γ α
  | .ok a => pure a
  | .error e => throw e

def noAreasWarning : Warning := ⟨true, text "areas are not available for this dataset"⟩

def requireSet (sets : Sets F) (name : String) : Reading γ (Rows F) :=
  match sets name with
  | some rows => return rows
  | none => throw (notSet name)

/-! ### Query statements -/

section Queries

variable (D : Dataset F γ) (globalBbox : Option (Bbox F)) (sets : Sets F) (time : Option ℤ)

/-- Filters that the planner leaves to hooks. -/
def isHooked : QlParser.Filter F → Bool
  | .tag _ | .bbox _ | .id _ | .recurse _ _ _ => false
  | _ => true

def bboxFor (q : Query F) : Option (Bbox F) :=
  (q.filters.findSome? fun | .bbox b => some b | _ => none).or globalBbox

def idsFor (q : Query F) : Option (List ℤ) :=
  q.filters.findSome? fun | .id ids => some ids | _ => none

def tagFiltersFor (q : Query F) : List QlParser.TagFilter :=
  q.filters.filterMap fun | .tag f => some f | _ => none

/-- The first recurse filter. The planner has a look at no other. -/
def recurseFilterFor (q : Query F) : Option (RecurseKind × String × Option Text) :=
  q.filters.findSome? fun | .recurse kind name role => some (kind, name, role) | _ => none

def intersectBbox (a b : Option (Bbox F)) : Option (Bbox F) :=
  match a, b with
  | none, b => b
  | a, none => a
  | some a, some b => some
      ⟨D.host.max a.south b.south, D.host.max a.west b.west, D.host.min a.north b.north,
        D.host.min a.east b.east⟩

def isEmptyBbox (b : Option (Bbox F)) : Bool :=
  b.any fun b => !D.host.le b.south b.north || !D.host.le b.west b.east

/-- `_EMPTY_BBOX`. -/
def emptyBbox : Bbox F :=
  ⟨D.host.ofE7 10000000, D.host.ofE7 0, D.host.ofE7 (-10000000), D.host.ofE7 0⟩

def areaPolygonTable (ref : AreaRef) : Reading γ (γ × ℕ) :=
  match ref.2 with
  | some id => return D.areaPolygonsById time id
  | none => D.areaPolygons <$> requireSet sets (ref.1.getD "_")

/-- The polygons of an area filter. They are looked up once for everything that filters say
alike. -/
def areaGeom (ref : AreaRef) : Reading γ γ := do
  match lookup Prod.fst ref (← get).areaPolygons with
  | some x => return x.2
  | none =>
    let found ← areaPolygonTable D sets time ref
    note found.2 []
    modify fun n => { n with areaPolygons := n.areaPolygons ++ [(ref, found.1)] }
    return found.1

/-- The set of an `around` filter without points. -/
def aroundSet (setName : Option String) (coords : Option (List (F × F))) : Option String :=
  if (coords.getD []).isEmpty then some (setName.getD "_") else none

def impliedBbox : QlParser.Filter F → Reading γ (Option (Bbox F))
  | .around radius setName coords =>
    match aroundSet setName coords with
    | none => return some (D.expandBbox (D.bboxOfCoords (coords.getD [])) radius)
    | some name => do
      let rows ← requireSet sets name
      return some ((D.bboxOfSet rows).elim (emptyBbox D) fun b => D.expandBbox b radius)
  | .poly coords => return some (D.bboxOfCoords coords)
  | .area setName areaId => do
    if !D.areasAvailable then note 0 [noAreasWarning]
    let polygons ← areaGeom D sets time (setName, areaId)
    return D.polygonsBbox polygons
  | .pivot setName => do
    let rows ← requireSet sets setName
    return D.pivotBbox rows
  | _ => return none

def effectiveBbox (q : Query F) : Reading γ (Option (Bbox F)) :=
  q.filters.foldlM (fun box f => do
    if isHooked f then
      let implied ← impliedBbox D sets time f
      return intersectBbox D box implied
    else return box) (bboxFor globalBbox q)

/-- What a filter reads for its condition. -/
def filterInput : QlParser.Filter F → Reading γ (FilterInput F γ)
  | .around _ setName coords =>
    match aroundSet setName coords with
    | none => return .plain
    | some name => .rows <$> requireSet sets name
  | .area setName areaId => .polygons <$> areaGeom D sets time (setName, areaId)
  | .pivot setName => .rows <$> requireSet sets setName
  | _ => return .plain

/-- The conditions of the hooked filters, one after the other. -/
def hookPredicates (q : Query F) (base : Rows F) :
    List (QlParser.Filter F) → Reading γ (OutRow F → Bool)
  | [] => return fun _ => true
  | f :: fs => do
    if isHooked f then
      let input ← filterInput D sets time f
      let p ← lift (D.predicate time q (bboxFor globalBbox q) f input base)
      note p.filesRead p.warnings
      let holds ← hookPredicates q base fs
      return fun row => p.holds row && holds row
    else hookPredicates q base fs

def isType : ElementType → ElType → Bool
  | .node, .node | .way, .way | .relation, .relation | .area, .area => true
  | _, _ => false

/-- The test of a stored row for a box. -/
def rowInBbox (b : Bbox F) (row : OutRow F) : Bool :=
  let meets (lo hi : Option ℤ) (a b : F) : Bool :=
    lo.any (fun x => decide (x ≤ D.toE7 b)) && hi.any fun x => decide (D.toE7 a ≤ x)
  match row.type with
  | .node => meets row.latE7 row.latE7 b.south b.north && meets row.lonE7 row.lonE7 b.west b.east
  | .way | .relation => meets row.xmin row.xmax b.west b.east &&
    meets row.ymin row.ymax b.south b.north
  | _ => false

/-- The rows of the first set that the others have too and that pass the filters. -/
def fromSetRows (types : List ElementType) (filters : List QlParser.TagFilter)
    (ids : Option (List ℤ)) (bbox : Option (Bbox F)) : List (Rows F) → Rows F
  | [] => []
  | first :: others => first.filter fun row =>
      others.all (fun o => o.any fun x => decide (x.key = row.key)) &&
      types.any (fun t => isType t row.type) &&
      ids.all (fun ids => ids.isEmpty || decide (row.id ∈ ids)) &&
      bbox.all (fun b => rowInBbox D b row) && filters.all fun f => D.tagHolds f row.tags

def ElementType.text : ElementType → String
  | .node => "node"
  | .way => "way"
  | .relation => "relation"
  | .area => "area"
  | .derived => "derived"

def wholeWarning (q : Query F) : Warning :=
  ⟨false, text ("query on [" ++ ", ".intercalate
    (q.types.map fun t => "'" ++ ElementType.text t ++ "'") ++
    "] has no bbox and no ids; scanning all cells for an extract-sized answer")⟩

def baseSelect (q : Query F) (bbox : Option (Bbox F)) : Reading γ (Rows F) := do
  match recurseFilterFor q with
  | some (kind, name, role) =>
    let src ← requireSet sets name
    let r ← lift (D.recurseFilterRows time q kind role src)
    reply r
  | none =>
    if q.inputSets ≠ [] then
      let inputs ← q.inputSets.mapM (requireSet sets)
      return fromSetRows D q.types (tagFiltersFor q) (idsFor q) bbox inputs
    else
      if bbox.isNone && ((idsFor q).getD []).isEmpty then note 0 [wholeWarning q]
      let r ← lift (D.datasetRows time q bbox)
      reply r

def filterClass : QlParser.Filter F → String
  | .tag _ => "TagFilter"
  | .bbox _ => "BboxFilter"
  | .id _ => "IdFilter"
  | .recurse _ _ _ => "RecurseFilter"
  | .around _ _ _ => "AroundFilter"
  | .poly _ => "PolyFilter"
  | .area _ _ => "AreaFilter"
  | .pivot _ => "PivotFilter"
  | .newer _ => "NewerFilter"
  | .changed _ _ => "ChangedFilter"
  | .user _ => "UserFilter"
  | .uid _ => "UidFilter"
  | .if' _ => "IfFilter"

/-- A filter that a query for areas knows nothing of. -/
def areaRefused : QlParser.Filter F → Option Raised
  | .tag _ | .id _ => none
  | f =>
    some (.unsupportedError
      (text ("filter " ++ filterClass f ++ " is not supported on an area query")))

/-- The last list of ids, where a query for elements goes by the first. -/
def lastIdsFor (q : Query F) : Option (List ℤ) :=
  q.filters.reverse.findSome? fun | .id ids => some ids | _ => none

/-- A way whose line ends where it begins. -/
def isClosedWay (row : OutRow F) : Bool :=
  decide (row.type = .way) &&
    row.refs.any fun refs => decide (4 ≤ refs.length) && decide (refs.head? = refs.getLast?)

/-- The areas among the rows of sets: those of relations, and closed ways. -/
def fromSetAreaRows (q : Query F) (inputs : List (Rows F)) : Rows F :=
  (fromSetRows D [.area, .way] (tagFiltersFor q) (lastIdsFor q) none inputs).filter fun row =>
    decide (row.type = .area) || isClosedWay row

def areaQueryRows (q : Query F) : Reading γ (Rows F) := do
  if !D.areasAvailable then
    note 0 [noAreasWarning]
    return []
  match q.filters.findSome? areaRefused with
  | some e => throw e
  | none =>
    if q.inputSets ≠ [] then
      let inputs ← q.inputSets.mapM (requireSet sets)
      return fromSetAreaRows D q inputs
    else reply (D.areaRows time q)

/-- The rows of a query statement. -/
def queryRows (q : Query F) : Reading γ (Rows F) := do
  if .area ∈ q.types then areaQueryRows D sets time q
  else
    let bbox ← effectiveBbox D globalBbox sets time q
    if isEmptyBbox D bbox then return []
    let base ← baseSelect D sets time q bbox
    let holds ← hookPredicates D globalBbox sets time q base q.filters
    return base.filter holds

/-! ### Other statements -/

def executeRecurseRows (kind : RecurseOp) (inputSet : String) : Reading γ (Rows F) := do
  let rows ← requireSet sets inputSet
  reply (D.recurseRows time kind rows)

def isInRows (inputSet : String) (coords : Option (F × F)) : Reading γ (Rows F) := do
  if !D.areasAvailable then
    note 0 [noAreasWarning]
    return []
  match coords with
  | some p => reply (D.isInPoint p)
  | none => do
    let rows ← requireSet sets inputSet
    reply (D.isInSet time rows)

def mapToAreaRows (inputSet : String) : Reading γ (Rows F) := do
  let rows ← requireSet sets inputSet
  if !D.areasAvailable then
    note 0 [noAreasWarning]
    return []
  reply (D.mapToArea rows)

def timelineRows (elementType : ElementType) (elementId : ℤ) (version : Option ℤ) :
    Reading γ (Rows F) := do
  if !D.hasHistory then
    throw (.unsupportedError (text "timeline(...) is not supported: this dataset has no history"))
  return D.timelineRows elementType elementId version

/-! ### Conditions and times -/

def typeFilter : Evaluator.TypeKeyword → ElType → Bool
  | .nodes, t => t = .node
  | .ways, t => t = .way
  | .relations, t => t = .relation
  | .areas, t => t = .area
  | .nwr, t => t = .node || t = .way || t = .relation

def requireSetTable (name : String) : Except EvalSql.Failure (Rows F) :=
  (sets name).elim (.error (.runtimeQueryError (notSetMessage name))) .ok

/-- The parts of an expression that query a set. -/
def querySet : Evaluator.Expr SqlValues.Number → Except EvalSql.Failure String
  | .setCount typeName => do
    let rows ← requireSetTable sets "_"
    return toString (rows.filter fun row => typeFilter typeName row.type).length
  | .namedSetCount name typeName => do
    let rows ← requireSetTable sets name
    return toString (rows.filter fun row => typeFilter typeName row.type).length
  | .aggregate func e => do
    let rows ← requireSetTable sets "_"
    D.aggregate func e rows
  | _ => .error (.unsupportedError "")

/-- The value of an expression against the default set. -/
def evaluateText (source : List Char) : Except Raised String :=
  match Evaluator.parse D.cc D.number source with
  | .error e => .error (.evaluator e)
  | .ok expr => (EvalSql.evaluateSet D.py (querySet D sets) expr).mapError Raised.ofFailure

def parseDate (value : Text) : Except Raised ℤ :=
  match D.strptime value with
  | some t => .ok t
  | none => .error (.runtimeQueryError (text "runtime error: date \"" ++ value ++
      text "\" is invalid. It should look like \"2000-01-01T00:00:00Z\"."))

/-- The year 9999 stands for now. -/
def farFuture : ℤ := 253402300799

def resolveOptionalDate (value : Option Text) : Except Raised ℤ :=
  match value with
  | none => .ok farFuture
  | some value => parseDate D value

/-- What is said of a time before the history begins. -/
def historyRemark (t : ℤ) : Option Warning := do
  let since ← D.historySince
  let start ← D.strptime since
  if t < start then some ⟨true, text "history starts at " ++ since ++
    text "; earlier dates return the earliest known state"⟩ else none

/-- What stands between quotes. -/
def quoted (s : List Char) : Option (List Char) :=
  if 2 ≤ s.length ∧ s.head? = s.getLast? ∧ (s.head? = some '\x27' ∨ s.head? = some '\x22') then
    some (s.drop 1).dropLast
  else none

/-- A time between quotes, or an expression. -/
def evaluateRetroTime (timeExpr : List Char) : Except Raised ℤ :=
  match quoted (QlParser.strip D.cc timeExpr) with
  | some value => parseDate D (codePoints value)
  | none => do
    let value ← evaluateText D sets timeExpr
    parseDate D (text value)

end Queries

/-! ### Rows in memory -/

/-- The bounds of a row hold a node. -/
def boundsHold (a row : OutRow ℚ) : Bool :=
  let within (lo x hi : Option ℤ) : Bool := (lo.bind fun lo => x.bind fun x => hi.map fun hi =>
    decide (lo ≤ x ∧ x ≤ hi)).getD false
  within a.ymin row.latE7 a.ymax && within a.xmin row.lonE7 a.xmax

/-- A dataset of rows at each time, without relations between them. An area is what its bounds
hold. -/
def inMemory (rows : Option ℤ → Rows ℚ) : Dataset ℚ (Rows ℚ) where
  hasHistory := true
  historySince := none
  areasAvailable := true
  host := exactHost
  toE7 q := (q * 10000000).floor
  strptime t := if t = text "2020-01-01T00:00:00Z" then some 1577836800 else
    if t = text "2021-01-01T00:00:00Z" then some 1609459200 else none
  cc := Scanning.asciiClasses
  number _ := none
  py := EvalSql.digitFloats
  tagHolds f tags := (tags.getD []).any fun t => decide (codePoints t.1.toList = f.key)
  distinct := firstPerKey OutRow.key
  aggregate _ _ _ := .error (.unsupportedError "aggregates")
  bboxOfCoords _ := ⟨-90, -180, 90, 180⟩
  bboxOfSet _ := some ⟨-90, -180, 90, 180⟩
  expandBbox b _ := b
  pivotBbox _ := some ⟨-90, -180, 90, 180⟩
  areaPolygons rows := (rows.filter fun row => row.type = .area, 1)
  areaPolygonsById time id := ((rows time).filter fun row => row.type = .area ∧ row.id = id, 1)
  polygonsBbox _ := some ⟨-90, -180, 90, 180⟩
  predicate _ _ _ _ input _ := .ok { holds := match input with
    | .polygons areas => fun row => areas.any fun a => boundsHold a row
    | _ => fun _ => true }
  recurseFilterRows _ _ _ _ _ := .ok { rows := [] }
  datasetRows time q _ := .ok
    { rows := (rows time).filter fun row => q.types.any fun t => isType t row.type, filesRead := 1 }
  areaRows time _ := { rows := (rows time).filter fun row => row.type = .area, filesRead := 1 }
  recurseRows _ _ _ := { rows := [] }
  isInPoint _ := { rows := [] }
  isInSet _ _ := { rows := [] }
  mapToArea _ := { rows := [] }
  timelineRows _ _ _ := []
  resolve _ _ _ := .nothing

end OsmParquet.StatementReads
