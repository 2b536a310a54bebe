import OsmParquet.QlLexer
import Mathlib.Data.List.DropRight

/-!
The parser of the query language, by recursive descent.

A function reads the tokens that are left and leaves fewer. Its loops are bounded by the number of
tokens, since a pass reads one or raises. Statements nest, and each one inside another takes room on
the stack: how many fit is given, and one more is the interpreter's own error.
-/

namespace OsmParquet.QlParser

open OsmParquet.Scanning OsmParquet.QlLexer

/-! ### Trees -/

inductive OutFormat
  | json | xml | csv
  deriving DecidableEq, Repr

/-- A south, west, north and east limit. -/
structure Bbox (ν : Type) where
  south : ν
  west : ν
  north : ν
  east : ν

structure Settings (ν : Type) where
  outFormat : OutFormat := .xml
  csvFields : Option (List Text) := none
  csvHeader : Bool := true
  csvSeparator : Text := codePoints ['\t']
  timeout : ℤ := 180
  maxsize : ℤ := 536870912
  bbox : Option (Bbox ν) := none
  date : Option Text := none
  diff : Option (Text × Option Text) := none
  adiff : Option (Text × Option Text) := none

inductive ElementType
  | node | way | relation | area | derived
  deriving DecidableEq, Repr

inductive TagOp
  | eq | ne | match' | notMatch | exists' | notExists
  deriving DecidableEq, Repr

structure TagFilter where
  key : Text
  op : TagOp
  value : Option Text := none
  keyIsRegex : Bool := false
  caseInsensitive : Bool := false

inductive RecurseKind
  | w | r | bn | bw | br
  deriving DecidableEq, Repr

inductive Filter (ν : Type)
  | tag (filter : TagFilter)
  | bbox (box : Bbox ν)
  | id (ids : List ℤ)
  | recurse (kind : RecurseKind) (setName : String) (role : Option Text)
  | around (radius : ν) (setName : Option String) (coords : Option (List (ν × ν)))
  | poly (coords : List (ν × ν))
  | area (setName : Option String) (areaId : Option ℤ)
  | pivot (setName : String)
  | newer (timestamp : Text)
  | changed (since : Text) (until' : Option Text)
  | user (names : List Text)
  | uid (uids : List ℤ)
  | if' (expression : List Char)

structure Query (ν : Type) where
  types : List ElementType
  filters : List (Filter ν) := []
  inputSets : List String := []
  outputSet : String := "_"

inductive RecurseOp
  | down | downRelations | up | upRelations
  deriving DecidableEq, Repr

inductive Verbosity
  | ids | skel | body | tags | meta'
  deriving DecidableEq, Repr

inductive Geometry
  | none | geom | bb | center
  deriving DecidableEq, Repr

inductive Order
  | asc | qt
  deriving DecidableEq, Repr

structure Out (ν : Type) where
  inputSet : String := "_"
  verbosity : Verbosity := .body
  geometry : Geometry := .none
  geomBbox : Option (Bbox ν) := none
  order : Order := .asc
  limit : Option ℤ := none
  noids : Bool := false
  count : Bool := false

inductive Statement (ν : Type)
  | query (query : Query ν)
  | union (statements : List (Statement ν)) (outputSet : String)
  | difference (first second : Statement ν) (outputSet : String)
  | recurse (kind : RecurseOp) (inputSet outputSet : String)
  | item (inputSet outputSet : String)
  | isIn (inputSet outputSet : String) (coords : Option (ν × ν))
  | mapToArea (inputSet outputSet : String)
  | out (out : Out ν)
  | foreach (inputSet outputSet : String) (body : List (Statement ν))
  | if' (condition : List Char) (then' otherwise : List (Statement ν))
  | retro (timeExpr : List Char) (body : List (Statement ν))
  | timeline (elementType : ElementType) (elementId : ℤ) (version : Option ℤ) (outputSet : String)
  | unsupported (keyword : String) (source : List Char)

structure Program (ν : Type) where
  settings : Settings ν
  statements : List (Statement ν)

/-! ### Tokens that are left -/

/-- The numbers of the lexer: `float` of a text, the sign, and `int`, which has none for
infinity. -/
structure Floats (ν : Type) where
  ofText : Text → Option ν
  neg : ν → ν
  toInt : ν → Option ℤ

/-- A function of the parser: it reads the tokens that are left, of which the last is never
passed. -/
abbrev Parser (ν α : Type) := StateT (List (Token ν)) (Except Raised) α

variable {ν α σ : Type}

/-- `self.tokens[self.pos]`. -/
def currentOf : List (Token ν) → Token ν
  | [] => eofToken []
  | t :: _ => t

def advanceOf : List (Token ν) → List (Token ν)
  | _ :: u :: rest => u :: rest
  | ts => ts

def isSym (s : Sym) (t : Token ν) : Bool :=
  match t.tok with
  | .sym s' => s = s'
  | _ => false

def isEof (t : Token ν) : Bool :=
  match t.tok with
  | .eof => true
  | _ => false

def isIdent (t : Token ν) : Bool :=
  match t.tok with
  | .ident _ => true
  | _ => false

def isNumber (t : Token ν) : Bool :=
  match t.tok with
  | .number _ => true
  | _ => false

def current : Parser ν (Token ν) := return currentOf (← get)

/-- `self.peek(1)`. -/
def peek : Parser ν (Token ν) := return currentOf (advanceOf (← get))

def advance : Parser ν (Token ν) := do
  let ts ← get
  set (advanceOf ts)
  return currentOf ts

def check (s : Sym) : Parser ν Bool := return isSym s (← current)

def checkIdent : Parser ν Bool := return isIdent (← current)

def atEnd : Parser ν Bool := return isEof (← current)

/-- `self.error` at the current token. -/
def error (message : String) : Parser ν α := do
  let t ← current
  throw (.parseError s!"line {t.line}: parse error: {message}" t.line t.col)

/-- What messages call a token. -/
def labelOf (t : Token ν) : String :=
  if isEof t then "end of input" else s!"'{String.ofList t.text}'"

def errorGot (message : String) : Parser ν α := do
  let got := labelOf (← current)
  error s!"{message}, got {got}"

def expect (s : Sym) : Parser ν Unit := do
  if !(← check s) then errorGot s!"expected '{s.text}'" else let _ ← advance

def expectIdentText : Parser ν String := do
  match (← current).tok with
  | .ident name => do
    let _ ← advance
    return name
  | _ => errorGot "expected identifier"

/-- A `while` loop, with a bound on its passes. -/
def whileSteps (cond : σ → Token ν → Bool) (body : σ → Parser ν σ) : ℕ → σ → Parser ν σ
  | 0, _ => throw .outOfFuel
  | n + 1, x => do
    if cond x (← current) then
      let x ← body x
      whileSteps cond body n x
    else return x

/-- A `while` loop of which every pass reads a token or raises. -/
def whileLoop (cond : σ → Token ν → Bool) (body : σ → Parser ν σ) (x : σ) : Parser ν σ := do
  let ts ← get
  whileSteps cond body (ts.length + 1) x

/-! ### Low-level readers -/

/-- The types of `_BARE_GLUE_TYPES`. -/
def isBareGlue (t : Token ν) : Bool :=
  isIdent t || isNumber t || isSym .colon t || isSym .dot t || isSym .minus t

/-- A quoted string, or a word of tokens that touch. -/
def parseBareOrString : Parser ν Text := do
  let t ← current
  match t.tok with
  | .string value => do
    let _ ← advance
    return value
  | _ =>
    if isBareGlue t then
      -- the parts so far, and where the last of them ends
      let touches (x : List Char × Option ℕ) (t : Token ν) : Bool :=
        isBareGlue t && (x.2 = none || x.2 = some t.start)
      let glue (x : List Char × Option ℕ) : Parser ν (List Char × Option ℕ) := do
        let t ← advance
        return (x.1 ++ t.text, some t.stop)
      let (parts, _) ← whileLoop touches glue ([], none)
      return codePoints parts
    else errorGot "expected a key/value"

def expectStringValue : Parser ν Text := parseBareOrString

variable (fl : Floats ν)

def parseSignedNumber : Parser ν ν := do
  let t ← current
  match t.tok with
  | .sym .minus => do
    let _ ← advance
    let u ← current
    match u.tok with
    | .number value =>
      if u.start = t.stop then
        let _ ← advance
        return fl.neg value
      else error "expected a number after '-'"
    | _ => error "expected a number after '-'"
  | .number value => do
    let _ ← advance
    return value
  | _ => errorGot "expected a number"

/-- Commas, and something after each of them. -/
def parseMore (item : Parser ν α) : Parser ν (List α) := do
  let more (xs : List α) : Parser ν (List α) := do
    let _ ← advance
    return xs ++ [← item]
  whileLoop (fun _ t => isSym .comma t) more []

def parseNumberList : Parser ν (List ν) := do
  let n ← parseSignedNumber fl
  return n :: (← parseMore (parseSignedNumber fl))

/-- `int` of a number. -/
def int (n : ν) : Parser ν ℤ :=
  match fl.toInt n with
  | some k => return k
  | none => throw .overflowError

def parseInt : Parser ν ℤ := do int fl (← parseSignedNumber fl)

def parseIntList : Parser ν (List ℤ) := do (← parseNumberList fl).mapM (int fl)

variable (cc : CharClasses) (text : List Char)

/-- `str.strip`. -/
def strip (s : List Char) : List Char := (s.dropWhile cc.isspace).rdropWhile cc.isspace

/-- `self.text[start:end].strip()`. -/
def slice (start stop : ℕ) : List Char := strip cc ((text.take stop).drop start)

/-- The loop goes on until the parenthesis that closes the one before it. The state is the number of
open ones and where the last token ends. -/
def captureOpen (x : ℕ × ℕ) (t : Token ν) : Bool := !(isSym .rparen t && x.1 = 0)

def capturePass (x : ℕ × ℕ) : Parser ν (ℕ × ℕ) := do
  if ← atEnd then error "unbalanced parentheses"
  else
    let t ← advance
    let depth := if isSym .lparen t then x.1 + 1 else if isSym .rparen t then x.1 - 1 else x.1
    return (depth, t.stop)

/-- The source up to the parenthesis that closes the one before it, which stays. -/
def captureUntilMatchingRparen : Parser ν (List Char) := do
  let start := (← current).start
  let (_, stop) ← whileLoop captureOpen capturePass (0, start)
  return slice cc text start stop

/-- An optional `->.name`. -/
def parseOutputSet : Parser ν String := do
  if ← check .arrow then
    let _ ← advance
    expect .dot
    expectIdentText
  else return "_"

/-- An optional `.name`. -/
def parseDotName : Parser ν (Option String) := do
  if ← check .dot then
    let _ ← advance
    return some (← expectIdentText)
  else return none

/-- An output set and the end of a statement. -/
def parseEnd : Parser ν String := do
  let outputSet ← parseOutputSet
  expect .semi
  return outputSet

/-- An optional string after a comma. -/
def parseSecond : Parser ν (Option Text) := do
  if ← check .comma then
    let _ ← advance
    return some (← expectStringValue)
  else return none

/-! ### Settings -/

def parseCsvField : Parser ν Text := do
  let t ← current
  let u ← peek
  if isSym .colon t && isSym .colon u then
    let _ ← advance
    let _ ← advance
    let name ← expectIdentText
    return codePoints ("::" ++ name).toList
  else parseBareOrString

def isCsvEnd (t : Token ν) : Bool := isSym .semi t || isSym .rparen t

/-- `(name, ::id; true; ",")` after `csv`. -/
def parseCsv (settings : Settings ν) : Parser ν (Settings ν) := do
  expect .lparen
  let field (fields : List Text) : Parser ν (List Text) := do
    let f ← parseCsvField
    let t ← current
    if isSym .comma t then
      let _ ← advance
      return fields ++ [f]
    else if isCsvEnd t then return fields ++ [f]
    else error "expected ',' in csv field list"
  let fields ← whileLoop (fun _ t => !isCsvEnd t) field []
  let settings := { settings with csvFields := some fields }
  let settings ← if ← check .semi then do
      let _ ← advance
      let settings ← if ← checkIdent then do
          let header ← expectIdentText
          pure { settings with csvHeader := header = "true" }
        else pure settings
      if ← check .semi then do
          let _ ← advance
          let separator ← expectStringValue
          pure { settings with csvSeparator := separator }
        else pure settings
    else pure settings
  expect .rparen
  return settings

def parseBbox (message : String) : Parser ν (Bbox ν) := do
  match ← parseNumberList fl with
  | [s, w, n, e] => return ⟨s, w, n, e⟩
  | _ => error message

/-- The value of a setting. -/
def parseSetting (name : String) (settings : Settings ν) : Parser ν (Settings ν) :=
  match name with
  | "out" => do
    match ← expectIdentText with
    | "json" => return { settings with outFormat := .json }
    | "xml" => return { settings with outFormat := .xml }
    | "csv" => parseCsv { settings with outFormat := .csv }
    | fmt => error s!"unknown output format '{fmt}'"
  | "timeout" => do return { settings with timeout := ← parseInt fl }
  | "maxsize" => do return { settings with maxsize := ← parseInt fl }
  | "bbox" => do
    let box ← parseBbox fl "[bbox:...] requires exactly 4 numbers (south,west,north,east)"
    return { settings with bbox := some box }
  | "date" => do return { settings with date := some (← expectStringValue) }
  | "diff" => do return { settings with diff := some (← expectStringValue, ← parseSecond) }
  | "adiff" => do return { settings with adiff := some (← expectStringValue, ← parseSecond) }
  | _ => error s!"unknown global setting '{name}'"

def parseSettings : Parser ν (Settings ν) := do
  let any ← check .lbracket
  let setting (settings : Settings ν) : Parser ν (Settings ν) := do
    let _ ← advance
    let name ← expectIdentText
    expect .colon
    let settings ← parseSetting fl name settings
    expect .rbracket
    return settings
  let settings ← whileLoop (fun _ t => isSym .lbracket t) setting {}
  if any then expect .semi
  return settings

/-! ### Filters -/

def parseOptionalIFlag : Parser ν Bool := do
  if ← check .comma then
    let _ ← advance
    let flag ← expectIdentText
    if flag ≠ "i" then error s!"unknown filter flag ',{flag}' (only ',i' is supported)"
    else return true
  else return false

/-- The operator of a tag filter. -/
def tagOp (t : Token ν) : Option TagOp :=
  match t.tok with
  | .sym .eq => some .eq
  | .sym .neq => some .ne
  | .sym .nottilde => some .notMatch
  | .sym .tilde => some .match'
  | _ => none

def parseTagFilter : Parser ν TagFilter := do
  expect .lbracket
  if ← check .bang then
    let _ ← advance
    let key ← parseBareOrString
    expect .rbracket
    return { key := key, op := .notExists }
  else if ← check .tilde then
    let _ ← advance
    let keypat ← parseBareOrString
    expect .tilde
    let valpat ← parseBareOrString
    let caseInsensitive ← parseOptionalIFlag
    expect .rbracket
    return { key := keypat, op := .match', value := some valpat, keyIsRegex := true,
             caseInsensitive := caseInsensitive }
  else
    let key ← parseBareOrString
    if ← check .rbracket then
      let _ ← advance
      return { key := key, op := .exists' }
    else
      match tagOp (← current) with
      | none => errorGot "expected an operator (=, !=, ~, !~) or ']' in tag filter"
      | some op => do
        let _ ← advance
        let value ← parseBareOrString
        let caseInsensitive ← parseOptionalIFlag
        expect .rbracket
        return { key := key, op := op, value := some value, caseInsensitive := caseInsensitive }

/-- `(nums[0], nums[1]), (nums[2], nums[3]), ...`. -/
def pairs : List α → List (α × α)
  | a :: b :: rest => (a, b) :: pairs rest
  | _ => []

/-- `str.split()`. Halves of pairs are no spaces. -/
def splitWords (s : Text) : List Text :=
  (s.splitOnP fun n => cc.isspace (Char.ofNat n)).filter (· ≠ [])

def parsePoly : Parser ν (Filter ν) := do
  let s ← expectStringValue
  match (splitWords cc s).mapM fl.ofText with
  | none => throw .valueError
  | some nums =>
    if nums.length % 2 ≠ 0 || nums.length < 6 then
      error "(poly: ...) requires an even number of coordinates (at least 3 points)"
    else return .poly (pairs nums)

def parseAround : Parser ν (Filter ν) := do
  let setName ← parseDotName
  expect .colon
  let radius ← parseSignedNumber fl
  let nums ← parseMore (parseSignedNumber fl)
  if nums = [] then return .around radius setName none
  else if nums.length % 2 ≠ 0 then
    error "(around: ...) coordinate list must have an even number of values"
  else return .around radius setName (some (pairs nums))

def parseArea : Parser ν (Filter ν) := do
  if ← check .dot then
    let _ ← advance
    return .area (some (← expectIdentText)) none
  else if ← check .colon then
    let _ ← advance
    return .area none (some (← parseInt fl))
  else return .area none none

def recurseKind : String → Option RecurseKind
  | "w" => some .w
  | "r" => some .r
  | "bn" => some .bn
  | "bw" => some .bw
  | "br" => some .br
  | _ => none

def parseRecurseFilter (kind : RecurseKind) : Parser ν (Filter ν) := do
  let setName := (← parseDotName).getD "_"
  if ← check .colon then
    let _ ← advance
    return .recurse kind setName (some (← expectStringValue))
  else return .recurse kind setName none

/-- The filter in parentheses that a word begins, after the word. -/
def namedFilter? (word : String) : Option (Parser ν (Filter ν)) :=
  match word with
  | "id" => some do
    expect .colon
    return .id (← parseIntList fl)
  | "around" => some (parseAround fl)
  | "poly" => some do
    expect .colon
    parsePoly fl cc
  | "area" => some (parseArea fl)
  | "pivot" => some do return .pivot ((← parseDotName).getD "_")
  | "newer" => some do
    expect .colon
    return .newer (← expectStringValue)
  | "changed" => some do
    expect .colon
    let since ← expectStringValue
    return .changed since (← parseSecond)
  | "user" => some do
    expect .colon
    let name ← expectStringValue
    return .user (name :: (← parseMore expectStringValue))
  | "uid" => some do
    expect .colon
    let uid ← parseInt fl
    return .uid (uid :: (← parseMore (parseInt fl)))
  | "if" => some do
    expect .colon
    return .if' (← captureUntilMatchingRparen cc text)
  | _ => (recurseKind word).map parseRecurseFilter

/-- Numbers in parentheses: four are a box, others ids. -/
def parseNumberFilter : Parser ν (Filter ν) := do
  match ← parseNumberList fl with
  | [s, w, n, e] => return .bbox ⟨s, w, n, e⟩
  | nums => return .id (← nums.mapM (int fl))

def parseParenFilter : Parser ν (Filter ν) := do
  expect .lparen
  let t ← current
  let filter ← match t.tok with
    | .ident word =>
      match namedFilter? fl cc text word with
      | some rest => do
        let _ ← advance
        rest
      | none => error s!"unknown filter '{word}'"
    | .number _ => parseNumberFilter fl
    | .sym .minus => parseNumberFilter fl
    | _ => error s!"unexpected token {labelOf t} in filter"
  expect .rparen
  return filter

/-! ### Statements -/

/-- `_QUERY_KEYWORDS`. -/
def queryTypes? : String → Option (List ElementType)
  | "node" => some [.node]
  | "way" => some [.way]
  | "rel" => some [.relation]
  | "relation" => some [.relation]
  | "nwr" => some [.node, .way, .relation]
  | "nw" => some [.node, .way]
  | "nr" => some [.node, .relation]
  | "wr" => some [.way, .relation]
  | "area" => some [.area]
  | "derived" => some [.derived]
  | _ => none

/-- A query after its keyword. -/
def parseQuery (types : List ElementType) : Parser ν (Query ν) := do
  let inputSet (sets : List String) : Parser ν (List String) := do
    let _ ← advance
    return sets ++ [← expectIdentText]
  let inputSets ← whileLoop (fun _ t => isSym .dot t) inputSet []
  let filter (filters : List (Filter ν)) : Parser ν (List (Filter ν)) := do
    if ← check .lbracket then return filters ++ [.tag (← parseTagFilter)]
    else return filters ++ [← parseParenFilter fl cc text]
  let filters ← whileLoop (fun _ t => isSym .lbracket t || isSym .lparen t) filter []
  let outputSet ← parseEnd
  return { types := types, filters := filters, inputSets := inputSets, outputSet := outputSet }

/-- `_RECURSE_KIND_BY_TOKEN`. -/
def recurseOp? (t : Token ν) : Option RecurseOp :=
  match t.tok with
  | .sym .gt => some .down
  | .sym .gtgt => some .downRelations
  | .sym .lt => some .up
  | .sym .ltlt => some .upRelations
  | _ => none

def parseRecurseOp (kind : RecurseOp) (inputSet : String) : Parser ν (Statement ν) := do
  let _ ← advance
  return .recurse kind inputSet (← parseEnd)

def parseIsIn (inputSet : String) : Parser ν (Statement ν) := do
  let coords ← if ← check .lparen then do
      let _ ← advance
      let lat ← parseSignedNumber fl
      expect .comma
      let lon ← parseSignedNumber fl
      expect .rparen
      pure (some (lat, lon))
    else pure none
  return .isIn inputSet (← parseEnd) coords

def parseMapToArea (inputSet : String) : Parser ν (Statement ν) :=
  return .mapToArea inputSet (← parseEnd)

def verbosity? : String → Option Verbosity
  | "ids" => some .ids
  | "skel" => some .skel
  | "body" => some .body
  | "tags" => some .tags
  | "meta" => some .meta'
  | _ => none

/-- A word after `out`. -/
def parseOutModifier (word : String) (out : Out ν) : Parser ν (Out ν) := do
  match verbosity? word with
  | some verbosity => do
    let _ ← advance
    return { out with verbosity := verbosity }
  | none =>
    match word with
    | "noids" => do
      let _ ← advance
      return { out with noids := true }
    | "geom" => do
      let _ ← advance
      let out := { out with geometry := .geom }
      if ← check .lparen then
        let _ ← advance
        let box ← parseBbox fl "out geom(...) requires exactly 4 numbers (south,west,north,east)"
        expect .rparen
        return { out with geomBbox := some box }
      else return out
    | "bb" => do
      let _ ← advance
      return { out with geometry := .bb }
    | "center" => do
      let _ ← advance
      return { out with geometry := .center }
    | "qt" => do
      let _ ← advance
      return { out with order := .qt }
    | "asc" => do
      let _ ← advance
      return { out with order := .asc }
    | "count" => do
      let _ ← advance
      return { out with count := true }
    | _ => error s!"unknown 'out' modifier '{word}'"

def parseOut (inputSet : String) : Parser ν (Statement ν) := do
  let modifier (out : Out ν) : Parser ν (Out ν) := do
    let t ← current
    match t.tok with
    | .ident word => parseOutModifier fl word out
    | .number value => do
      let _ ← advance
      return { out with limit := some (← int fl value) }
    | _ => error s!"unexpected token {labelOf t} in 'out' statement"
  let out ← whileLoop (fun _ t => !isSym .semi t) modifier { inputSet := inputSet }
  let _ ← advance
  return .out out

/-- A statement that begins with the name of a set. -/
def parseDotStatement : Parser ν (Statement ν) := do
  let _ ← advance
  let name ← expectIdentText
  let t ← current
  match t.tok with
  | .ident "is_in" => do
    let _ ← advance
    parseIsIn fl name
  | .ident "map_to_area" => do
    let _ ← advance
    parseMapToArea name
  | .ident "out" => do
    let _ ← advance
    parseOut fl name
  | _ =>
    match recurseOp? t with
    | some kind => parseRecurseOp kind name
    | none => do return .item name (← parseEnd)

/-- `_TIMELINE_TYPES`. -/
def timelineType? : String → Option ElementType
  | "node" => some .node
  | "way" => some .way
  | "relation" => some .relation
  | "rel" => some .relation
  | _ => none

def parseTimeline : Parser ν (Statement ν) := do
  let _ ← advance
  expect .lparen
  let typeWord ← expectIdentText
  match timelineType? typeWord with
  | none => error s!"unknown element type '{typeWord}' in timeline(...)"
  | some elementType => do
    expect .comma
    let elementId ← parseInt fl
    let version ← if ← check .comma then do
        let _ ← advance
        pure (some (← parseInt fl))
      else pure none
    expect .rparen
    return .timeline elementType elementId version (← parseEnd)

/-- Parentheses that a token opens or closes; they are counted below zero too. -/
def shift (opens closes : Sym) (t : Token ν) (depth : ℤ) : ℤ :=
  if isSym opens t then depth + 1 else if isSym closes t then depth - 1 else depth

/-- `for`, `complete` and `compare`: up to the end of the block in braces. -/
def parseUnsupportedBlock (keyword : String) : Parser ν (Statement ν) := do
  let start := (← advance).start
  let toBrace (depth : ℤ) : Parser ν ℤ := do
    if ← atEnd then error s!"expected '\x7b' after '{keyword}'"
    else return shift .lparen .rparen (← advance) depth
  let _ ← whileLoop (fun depth t => !(isSym .lbrace t && depth = 0)) toBrace 0
  let brace ← advance
  let toEnd (x : ℤ × ℕ) : Parser ν (ℤ × ℕ) := do
    if ← atEnd then error s!"unbalanced '\x7b' '\x7d' in '{keyword}' block"
    else
      let t ← advance
      return (shift .lbrace .rbrace t x.1, t.stop)
  let (_, stop) ← whileLoop (fun x _ => 0 < x.1) toEnd (1, brace.stop)
  if ← check .semi then
    let semi ← advance
    return .unsupported keyword (slice cc text start semi.stop)
  else return .unsupported keyword (slice cc text start stop)

/-- `make`, `convert` and `local`: up to a `;` outside parentheses and braces. -/
def parseUnsupportedSimple (keyword : String) : Parser ν (Statement ν) := do
  let start := (← advance).start
  let pass (x : ℤ × ℤ) : Parser ν (ℤ × ℤ) := do
    if ← atEnd then error s!"missing ';' after '{keyword}' statement"
    else
      let t ← advance
      return (shift .lparen .rparen t x.1, shift .lbrace .rbrace t x.2)
  let _ ← whileLoop (fun x t => !(isSym .semi t && x.1 = 0 && x.2 = 0)) pass (0, 0)
  let semi ← advance
  return .unsupported keyword (slice cc text start semi.stop)

/-! ### Blocks -/

section Blocks

-- the parser of the statements inside
variable (nested : Parser ν (Option (Statement ν)))

/-- Statements in braces. -/
def parseBody (what : String) : Parser ν (List (Statement ν)) := do
  expect .lbrace
  let pass (body : List (Statement ν)) : Parser ν (List (Statement ν)) := do
    if ← atEnd then error s!"unbalanced '\x7b' '\x7d' in {what}"
    else return body ++ (← nested).toList
  let body ← whileLoop (fun _ t => !isSym .rbrace t) pass []
  expect .rbrace
  return body

/-- One statement as it is, others as a union. -/
def single : List (Statement ν) → Statement ν
  | [s] => s
  | ss => .union ss "_"

/-- A union, or a difference of two parts. -/
def parseBlock : Parser ν (Statement ν) := do
  expect .lparen
  let pass (parts : List (List (Statement ν))) : Parser ν (List (List (Statement ν))) := do
    if ← check .minus then
      let _ ← advance
      return parts ++ [[]]
    else if ← atEnd then error "unbalanced '(' ')' in union/difference block"
    else return parts.dropLast ++ [parts.getLastD [] ++ (← nested).toList]
  let parts ← whileLoop (fun _ t => !isSym .rparen t) pass [[]]
  expect .rparen
  let outputSet ← parseEnd
  match parts with
  | [statements] => return .union statements outputSet
  | [first, second] => return .difference (single first) (single second) outputSet
  | _ => error "too many '-' separators in a difference block (expected exactly one)"

def parseForeach : Parser ν (Statement ν) := do
  let _ ← advance
  let inputSet := (← parseDotName).getD "_"
  let outputSet ← parseOutputSet
  return .foreach inputSet outputSet (← parseBody nested "foreach block")

/-- `( ... )` with the source between. -/
def parseCondition : Parser ν (List Char) := do
  expect .lparen
  let condition ← captureUntilMatchingRparen cc text
  expect .rparen
  return condition

def parseIfStatement : Parser ν (Statement ν) := do
  let _ ← advance
  let condition ← parseCondition cc text
  let then' ← parseBody nested "if block"
  match (← current).tok with
  | .ident "else" => do
    let _ ← advance
    return .if' condition then' (← parseBody nested "else block")
  | _ => return .if' condition then' []

def parseRetro : Parser ν (Statement ν) := do
  let _ ← advance
  let timeExpr ← parseCondition cc text
  return .retro timeExpr (← parseBody nested "'retro' block")

/-- The statement that a word begins. -/
def wordStatement (word : String) : Parser ν (Statement ν) :=
  match queryTypes? word with
  | some types => do
    let _ ← advance
    return .query (← parseQuery fl cc text types)
  | none =>
    match word with
    | "out" => do
      let _ ← advance
      parseOut fl "_"
    | "foreach" => parseForeach nested
    | "if" => parseIfStatement cc text nested
    | "is_in" => do
      let _ ← advance
      parseIsIn fl "_"
    | "map_to_area" => do
      let _ ← advance
      parseMapToArea "_"
    | "retro" => parseRetro cc text nested
    | "timeline" => parseTimeline fl
    | "for" | "complete" | "compare" => parseUnsupportedBlock cc text word
    | "make" | "convert" | "local" => parseUnsupportedSimple cc text word
    | _ => error s!"unknown statement '{word}'"

end Blocks

/-- A statement, or nothing for a `;` alone, with room for so many of them inside each other. -/
def parseStatement : ℕ → Parser ν (Option (Statement ν))
  | 0 => throw .recursionError
  | depth + 1 => do
    let t ← current
    match t.tok with
    | .sym .semi => do
      let _ ← advance
      return none
    | .sym .lparen => do return some (← parseBlock (parseStatement depth))
    | .sym .dot => do return some (← parseDotStatement fl)
    | .ident word => do return some (← wordStatement fl cc text (parseStatement depth) word)
    | _ =>
      match recurseOp? t with
      | some kind => do return some (← parseRecurseOp kind "_")
      | none => error s!"unexpected token {labelOf t}"

def parseProgram (depth : ℕ) : Parser ν (Program ν) := do
  let settings ← parseSettings fl
  let pass (statements : List (Statement ν)) : Parser ν (List (Statement ν)) := do
    return statements ++ (← parseStatement fl cc text depth).toList
  let statements ← whileLoop (fun _ t => !isEof t) pass []
  return ⟨settings, statements⟩

def parse (depth : ℕ) : Except Raised (Program ν) := do
  let tokens ← tokenize cc fl.ofText text
  let (program, _) ← (parseProgram fl cc text depth).run tokens
  return program

end OsmParquet.QlParser
