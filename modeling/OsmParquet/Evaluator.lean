import OsmParquet.Scanning

/-!
The expressions of `(if: ...)` and `if (...)`: tokens, the parser, and the tree it builds.

Binary operators have six levels, each a loop over operands of the next level; the source has one
function for each of them, and they differ in the operators only. Positions of tokens are not read
by the parser. The stack is taken to be large enough for all nested calls; `EvaluatorNesting` has
the parser on a stack with so many frames.
-/

namespace OsmParquet.Evaluator

open OsmParquet.Scanning

/-! ### Tokens -/

inductive Sym
  | lparen | rparen | lbracket | rbracket | comma | dot | plus | minus | star | slash | bang
  | lt | le | gt | ge | eqeq | neq | andand | oror | question | colon
  deriving DecidableEq, Repr

def Sym.text : Sym → String
  | .lparen => "("
  | .rparen => ")"
  | .lbracket => "["
  | .rbracket => "]"
  | .comma => ","
  | .dot => "."
  | .plus => "+"
  | .minus => "-"
  | .star => "*"
  | .slash => "/"
  | .bang => "!"
  | .lt => "<"
  | .le => "<="
  | .gt => ">"
  | .ge => ">="
  | .eqeq => "=="
  | .neq => "!="
  | .andand => "&&"
  | .oror => "||"
  | .question => "?"
  | .colon => ":"

/-- The type of a token and its value. Numbers are what `float` makes of them. -/
inductive Tok (ν : Type)
  | number (value : ν)
  | string (value : String)
  | ident (name : String)
  | sym (s : Sym)
  | eof

structure Lexeme (ν : Type) where
  tok : Tok ν
  text : List Char

structure Token (ν : Type) extends Lexeme ν where
  pos : ℕ

/-- What a text may raise: a parse error, or the error of `float` for digits it does not know. -/
inductive Raised
  | parseError (message : String)
  | valueError (text : List Char)
  | outOfFuel
  deriving DecidableEq, Repr

/-- `_ESCAPES.get(esc, esc)`. -/
def unescape (esc : Char) : Char :=
  if esc = 'n' then '\n' else if esc = 't' then '\t' else if esc = 'r' then '\r' else esc

/-- A string literal after its opening quote: its value, and the characters up to the closing quote
and with it. -/
def readString (quote : Char) : List Char → Option (List Char × ℕ)
  | [] => none
  | c :: rest =>
    if c = quote then some ([], 1)
    else if c = '\\' then
      match rest with
      | [] => none
      | esc :: rest => (readString quote rest).map fun r => (unescape esc :: r.1, r.2 + 2)
    else (readString quote rest).map fun r => (c :: r.1, r.2 + 1)

def doubleSym : Char → Char → Option Sym
  | '&', '&' => some .andand
  | '|', '|' => some .oror
  | '<', '=' => some .le
  | '>', '=' => some .ge
  | '=', '=' => some .eqeq
  | '!', '=' => some .neq
  | _, _ => none

def singleSym : Char → Option Sym
  | '<' => some .lt
  | '>' => some .gt
  | '!' => some .bang
  | '-' => some .minus
  | '?' => some .question
  | ':' => some .colon
  | '(' => some .lparen
  | ')' => some .rparen
  | '[' => some .lbracket
  | ']' => some .rbracket
  | ',' => some .comma
  | '.' => some .dot
  | '+' => some .plus
  | '*' => some .star
  | '/' => some .slash
  | _ => none

def symbols : Symbols Sym := ⟨doubleSym, singleSym⟩

def isQuote (c : Char) : Bool := c = '\x22' || c = '\x27'

variable {ν : Type} (cc : CharClasses) (float : List Char → Option ν)

/-- A number begins with a digit, or with a point and a digit. -/
def beginsNumber : List Char → Bool
  | [] => false
  | [c] => cc.isdigit c
  | c :: d :: _ => cc.isdigit c || (c = '.' && cc.isdigit d)

/-- One pass of the loop of `tokenize`. -/
def lexStep : Step Raised (Token ν) := fun i s =>
  match s with
  | [] => .ok (none, 1)
  | c :: rest =>
    if blank c then .ok (none, 1)
    else if isQuote c then
      match readString c rest with
      | none => .error (.parseError "evaluator: unterminated string literal")
      | some (value, k) => .ok (some ⟨⟨.string (.ofList value), s.take (k + 1)⟩, i⟩, k + 1)
    else match symbols.read s with
      | some (x, k) => .ok (some ⟨⟨.sym x, s.take k⟩, i⟩, k)
      | none =>
        if beginsNumber cc s then
          let k := numberLength cc s
          match float (s.take k) with
          | some value => .ok (some ⟨⟨.number value, s.take k⟩, i⟩, k)
          | none => .error (.valueError (s.take k))
        else if cc.isalpha c || c = '_' then
          let k := wordLength cc s
          .ok (some ⟨⟨.ident (.ofList (s.take k)), s.take k⟩, i⟩, k)
        else .error (.parseError s!"evaluator: unexpected character {cc.repr c} in expression")

def tokenize (text : List Char) : Except Raised (List (Token ν)) := do
  let ts ← scan (lexStep cc float) 0 text
  return ts ++ [⟨⟨.eof, []⟩, text.length⟩]

/-! ### Trees -/

inductive TypeKeyword
  | nodes | ways | relations | areas | nwr
  deriving DecidableEq, Repr

def TypeKeyword.ofName : String → Option TypeKeyword
  | "nodes" => some .nodes
  | "ways" => some .ways
  | "relations" => some .relations
  | "areas" => some .areas
  | "nwr" => some .nwr
  | _ => none

inductive AggFunc
  | u | min | max | sum | set
  deriving DecidableEq, Repr

def AggFunc.ofName : String → Option AggFunc
  | "u" => some .u
  | "min" => some .min
  | "max" => some .max
  | "sum" => some .sum
  | "set" => some .set
  | _ => none

inductive ElementFunc
  | id | type | version | timestamp | changeset | uid | user | countTags | countMembers
  | countDistinctMembers | isClosed | length | lat | lon | isTag | countByRole | number | isNumber
  deriving DecidableEq, Repr

def ElementFunc.ofName : String → Option ElementFunc
  | "id" => some .id
  | "type" => some .type
  | "version" => some .version
  | "timestamp" => some .timestamp
  | "changeset" => some .changeset
  | "uid" => some .uid
  | "user" => some .user
  | "count_tags" => some .countTags
  | "count_members" => some .countMembers
  | "count_distinct_members" => some .countDistinctMembers
  | "is_closed" => some .isClosed
  | "length" => some .length
  | "lat" => some .lat
  | "lon" => some .lon
  | "is_tag" => some .isTag
  | "count_by_role" => some .countByRole
  | "number" => some .number
  | "is_number" => some .isNumber
  | _ => none

/-- `_ELEMENT_FUNC_ARITY`. -/
def ElementFunc.arity : ElementFunc → ℕ
  | .isTag | .countByRole | .number | .isNumber => 1
  | _ => 0

inductive UnOp
  | not | neg
  deriving DecidableEq, Repr

inductive Op
  | or | and | eq | ne | lt | le | gt | ge | add | sub | mul | div
  deriving DecidableEq, Repr

inductive Expr (ν : Type)
  | num (value : ν)
  | str (value : String)
  | tagAccess (key : String)
  | elementCall (name : ElementFunc) (args : List (Expr ν))
  | setCount (typeName : TypeKeyword)
  | namedSetCount (setName : String) (typeName : TypeKeyword)
  | aggregate (func : AggFunc) (expr : Expr ν)
  | unary (op : UnOp) (expr : Expr ν)
  | binOp (op : Op) (left right : Expr ν)
  | ternary (cond then' otherwise : Expr ν)

/-! ### The parser -/

/-- The tokens that are left. The last one is never passed. -/
abbrev Input (ν : Type) := List (Lexeme ν)

def current : Input ν → Tok ν
  | [] => .eof
  | t :: _ => t.tok

def advance : Input ν → Input ν
  | _ :: u :: rest => u :: rest
  | ts => ts

def isSym (s : Sym) : Tok ν → Bool
  | .sym s' => s = s'
  | _ => false

def check (s : Sym) (ts : Input ν) : Bool := isSym s (current ts)

/-- `self.error`. -/
def error {α : Type} (message : String) (ts : Input ν) : Except Raised α :=
  let label := match ts with
    | [] => "end of expression"
    | t :: _ => match t.tok with
      | .eof => "end of expression"
      | _ => s!"'{String.ofList t.text}'"
  .error (.parseError s!"evaluator: {message}, got {label}")

def expect (s : Sym) (ts : Input ν) : Except Raised (Input ν) :=
  if check s ts then .ok (advance ts) else error s!"expected '{s.text}'" ts

def expectIdent (ts : Input ν) : Except Raised (String × Input ν) :=
  match current ts with
  | .ident name => .ok (name, advance ts)
  | _ => error "expected an identifier" ts

def expectTypeKeyword (ts : Input ν) : Except Raised (TypeKeyword × Input ν) :=
  let fail := error "expected one of nodes/ways/relations/areas/nwr" ts
  match current ts with
  | .ident name =>
    match TypeKeyword.ofName name with
    | some keyword => .ok (keyword, advance ts)
    | none => fail
  | _ => fail

/-- The levels of binary operators, from the weakest. -/
inductive Level
  | or | and | equality | relational | additive | multiplicative
  deriving DecidableEq, Repr

/-- The level of the operands; those of the last one are unary. -/
def Level.next : Level → Option Level
  | .or => some .and
  | .and => some .equality
  | .equality => some .relational
  | .relational => some .additive
  | .additive => some .multiplicative
  | .multiplicative => none

def Level.op : Level → Tok ν → Option Op
  | .or, .sym .oror => some .or
  | .and, .sym .andand => some .and
  | .equality, .sym .eqeq => some .eq
  | .equality, .sym .neq => some .ne
  | .relational, .sym .lt => some .lt
  | .relational, .sym .le => some .le
  | .relational, .sym .gt => some .gt
  | .relational, .sym .ge => some .ge
  | .additive, .sym .plus => some .add
  | .additive, .sym .minus => some .sub
  | .multiplicative, .sym .star => some .mul
  | .multiplicative, .sym .slash => some .div
  | _, _ => none

/-- `count(` or `.name.count(` has been read up to the parenthesis. -/
def parseTypeName (ts : Input ν) : Except Raised (TypeKeyword × Input ν) := do
  let ts ← expect .lparen ts
  let (typeName, ts) ← expectTypeKeyword ts
  let ts ← expect .rparen ts
  return (typeName, ts)

def parseNamedSetCount (ts : Input ν) : Except Raised (Expr ν × Input ν) := do
  let (setName, ts) ← expectIdent ts
  let ts ← expect .dot ts
  let (method, ts) ← expectIdent ts
  if method ≠ "count" then
    error s!"unknown set method '.{method}(...)' (only '.count(...)' is supported)" ts
  else
    let (typeName, ts) ← parseTypeName ts
    return (.namedSetCount setName typeName, ts)

def parseTagAccess (ts : Input ν) : Except Raised (Expr ν × Input ν) := do
  let ts ← expect .lbracket ts
  match current ts with
  | .string key =>
    let ts ← expect .rbracket (advance ts)
    return (.tagAccess key, ts)
  | _ => error "expected a quoted tag key in t[...]" ts

/-- The call of an element function once its arguments are read. -/
def elementCall (name : String) (func : ElementFunc) (args : List (Expr ν)) (ts : Input ν) :
    Except Raised (Expr ν × Input ν) :=
  if args.length ≠ func.arity then
    error s!"'{name}()' takes {func.arity} argument(s), got {args.length}" ts
  else .ok (.elementCall func args, ts)

mutual

def parseTernary : ℕ → Input ν → Except Raised (Expr ν × Input ν)
  | 0, _ => .error .outOfFuel
  | n + 1, ts => do
    let (cond, ts) ← parseLevel n .or ts
    if check .question ts then
      let (then', ts) ← parseTernary n (advance ts)
      let ts ← expect .colon ts
      let (otherwise, ts) ← parseTernary n ts
      return (.ternary cond then' otherwise, ts)
    else return (cond, ts)

/-- `parse_or` to `parse_multiplicative`. -/
def parseLevel : ℕ → Level → Input ν → Except Raised (Expr ν × Input ν)
  | 0, _, _ => .error .outOfFuel
  | n + 1, level, ts => do
    let (left, ts) ← parseOperand n level ts
    parseRest n level left ts

def parseOperand : ℕ → Level → Input ν → Except Raised (Expr ν × Input ν)
  | 0, _, _ => .error .outOfFuel
  | n + 1, level, ts =>
    match level.next with
    | some level => parseLevel n level ts
    | none => parseUnary n ts

/-- The loop of a level. -/
def parseRest : ℕ → Level → Expr ν → Input ν → Except Raised (Expr ν × Input ν)
  | 0, _, _, _ => .error .outOfFuel
  | n + 1, level, left, ts =>
    match level.op (current ts) with
    | some op => do
      let (right, ts) ← parseOperand n level (advance ts)
      parseRest n level (.binOp op left right) ts
    | none => .ok (left, ts)

def parseUnary : ℕ → Input ν → Except Raised (Expr ν × Input ν)
  | 0, _ => .error .outOfFuel
  | n + 1, ts =>
    if check .bang ts then do
      let (e, ts) ← parseUnary n (advance ts)
      return (.unary .not e, ts)
    else if check .minus ts then do
      let (e, ts) ← parseUnary n (advance ts)
      return (.unary .neg e, ts)
    else parsePrimary n ts

def parsePrimary : ℕ → Input ν → Except Raised (Expr ν × Input ν)
  | 0, _ => .error .outOfFuel
  | n + 1, ts =>
    match current ts with
    | .number value => .ok (.num value, advance ts)
    | .string value => .ok (.str value, advance ts)
    | .sym .lparen => do
      let (e, ts) ← parseTernary n (advance ts)
      let ts ← expect .rparen ts
      return (e, ts)
    | .sym .dot => parseNamedSetCount (advance ts)
    | .ident name =>
      if name = "t" then parseTagAccess (advance ts)
      else if name = "count" then do
        let (typeName, ts) ← parseTypeName (advance ts)
        return (.setCount typeName, ts)
      else match AggFunc.ofName name with
        | some func => do
          let ts ← expect .lparen (advance ts)
          let (e, ts) ← parseTernary n ts
          let ts ← expect .rparen ts
          return (.aggregate func e, ts)
        | none =>
          match ElementFunc.ofName name with
          | some func => do
            let ts ← expect .lparen (advance ts)
            let (args, ts) ← if check .rparen ts then pure ([], ts) else parseArgs n ts
            let ts ← expect .rparen ts
            elementCall name func args ts
          | none => error s!"unknown function '{name}'" ts
    | _ => error "expected an expression" ts

/-- Arguments, at least one. -/
def parseArgs : ℕ → Input ν → Except Raised (List (Expr ν) × Input ν)
  | 0, _ => .error .outOfFuel
  | n + 1, ts => do
    let (e, ts) ← parseTernary n ts
    if check .comma ts then
      let (es, ts) ← parseArgs n (advance ts)
      return (e :: es, ts)
    else return ([e], ts)

end

/-- Calls that can be nested before a token is read: one for each level and a few around them. -/
def fuelFor (ts : Input ν) : ℕ := 20 * (ts.length + 1)

def parseProgram (ts : Input ν) : Except Raised (Expr ν) := do
  let (e, ts') ← parseTernary (fuelFor ts) ts
  match current ts' with
  | .eof => return e
  | _ => error "unexpected trailing input in expression" ts'

def parse (text : List Char) : Except Raised (Expr ν) := do
  let tokens ← tokenize cc float text
  parseProgram (tokens.map Token.toLexeme)

end OsmParquet.Evaluator
