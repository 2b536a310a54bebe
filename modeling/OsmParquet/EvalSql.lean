import Mathlib.Tactic.NormNum
import OsmParquet.Evaluator
import OsmParquet.SqlValues

/-!
Evaluating expressions: once as SQL for each row of `(if: ...)`, and once outside the database for
`if (...)`.

Every value is a text. It is read as a number where an operator needs one, and a comparison is one
of numbers when both sides are. Both evaluators follow these rules, but they do not compare NaN
alike, and a text such as `nan`, or arithmetic with what is not a number, brings NaN into a
comparison. The rules as a meaning of expressions leave those comparisons open; where an expression
has a meaning, it is the value on both sides.
-/

namespace OsmParquet.EvalSql

open OsmParquet.Evaluator OsmParquet.SqlValues

inductive Failure
  | unsupportedError (message : String)
  | runtimeQueryError (message : String)

/-- What numbers are outside the database: `float` and `repr`. -/
structure Floats where
  float : String → Option Number
  repr : ℚ → String

/-- `int(v)`, towards zero. -/
def truncate (q : ℚ) : ℤ := q.num.tdiv q.den

def formatPyNum (py : Floats) : Number → String
  | .nan => "nan"
  | .rat q =>
    if q = truncate q ∧ |q| < 10 ^ 15 then toString (truncate q) else py.repr q

/-- The comparison of an operator. -/
def cmpOp : Op → Option Cmp
  | .lt => some .lt
  | .le => some .le
  | .gt => some .gt
  | .ge => some .ge
  | .eq => some .eq
  | .ne => some .ne
  | _ => none

/-! ### As SQL -/

def isNumSql (value : Sql .varchar) : Sql .boolean := .isNotNull (.tryCast value)

def numSql (value : Sql .varchar) : Sql .double := .tryCast value

def formatNumSql (d : Sql .double) : Sql .varchar :=
  .caseWhen (.isNull d) (.string "nan")
    (.caseWhen (.and (.compareDouble .eq d (.floor d))
      (.compareDouble .lt (.abs d) (.double (10 ^ 15))))
      (.bigintText (.castBigint d)) (.doubleText d))

def truthySql (value : Sql .varchar) : Sql .boolean :=
  .and (.and (.isNotNull value) (.compareText .ne value (.string "")))
    (.compareText .ne value (.string "0"))

def boolToValueSql (b : Sql .boolean) : Sql .varchar := .caseWhen b (.string "1") (.string "0")

/-- A comparison: of numbers when both sides are. -/
def compareSql (op : Cmp) (a b : Sql .varchar) : Sql .varchar :=
  boolToValueSql (.caseWhen (.and (isNumSql a) (isNumSql b))
    (.compareDouble op (numSql a) (numSql b)) (.compareText op a b))

def compileBinop (op : Op) (a b : Sql .varchar) : Sql .varchar :=
  match op with
  | .add => formatNumSql (.arith .add (numSql a) (numSql b))
  | .sub => formatNumSql (.arith .sub (numSql a) (numSql b))
  | .mul => formatNumSql (.arith .mul (numSql a) (numSql b))
  | .div => formatNumSql (.caseWhen (.compareDouble .eq (numSql b) (.double 0)) .null
      (.arith .div (numSql a) (numSql b)))
  | .lt => compareSql .lt a b
  | .le => compareSql .le a b
  | .gt => compareSql .gt a b
  | .ge => compareSql .ge a b
  | .eq => compareSql .eq a b
  | .ne => compareSql .ne a b
  | .and => boolToValueSql (.and (truthySql a) (truthySql b))
  | .or => boolToValueSql (.or (truthySql a) (truthySql b))

/-- The SQL of an expression over a row. What reads the row, tags and the functions of an element,
is given. -/
def compileElement (py : Floats) (rowSql : Expr Number → Except Failure (Sql .varchar)) :
    Expr Number → Except Failure (Sql .varchar)
  | .num v => .ok (.string (formatPyNum py v))
  | .str s => .ok (.string s)
  | .tagAccess key => rowSql (.tagAccess key)
  | .elementCall name args => rowSql (.elementCall name args)
  | .setCount _ | .namedSetCount _ _ | .aggregate _ _ =>
    .error (.unsupportedError "set-scoped count/aggregate functions are not supported in (if:)")
  | .unary .not e => do
    let inner ← compileElement py rowSql e
    return boolToValueSql (.not (truthySql inner))
  | .unary .neg e => do
    let inner ← compileElement py rowSql e
    return formatNumSql (.neg (numSql inner))
  | .binOp op left right => do
    let a ← compileElement py rowSql left
    let b ← compileElement py rowSql right
    return compileBinop op a b
  | .ternary cond then' otherwise => do
    let cond ← compileElement py rowSql cond
    let then' ← compileElement py rowSql then'
    let otherwise ← compileElement py rowSql otherwise
    return .caseWhen (truthySql cond) then' otherwise

section Compiled

variable {py : Floats} {rowSql : Expr Number → Except Failure (Sql .varchar)}
  {e left right : Expr Number} {a b c : Sql .varchar}

/-- What a step that succeeded hands on. -/
lemma bind_of_ok {ε α β : Type} {x : Except ε α} {f : α → Except ε β} {a : α} (h : x = .ok a) :
    (x >>= f) = f a := by
  rw [h]
  rfl

lemma compileElement_not (h : compileElement py rowSql e = .ok a) :
    compileElement py rowSql (.unary .not e) =
      .ok (boolToValueSql (.not (truthySql a))) := bind_of_ok h

lemma compileElement_neg (h : compileElement py rowSql e = .ok a) :
    compileElement py rowSql (.unary .neg e) = .ok (formatNumSql (.neg (numSql a))) := bind_of_ok h

lemma compileElement_binOp (op : Op) (ha : compileElement py rowSql left = .ok a)
    (hb : compileElement py rowSql right = .ok b) :
    compileElement py rowSql (.binOp op left right) = .ok (compileBinop op a b) :=
  (bind_of_ok ha).trans (bind_of_ok hb)

lemma compileElement_ternary (hc : compileElement py rowSql e = .ok c)
    (ha : compileElement py rowSql left = .ok a) (hb : compileElement py rowSql right = .ok b) :
    compileElement py rowSql (.ternary e left right) = .ok (.caseWhen (truthySql c) a b) :=
  (bind_of_ok hc).trans ((bind_of_ok ha).trans (bind_of_ok hb))

end Compiled

/-! ### Outside the database -/

def pyToNumber (py : Floats) (s : String) : Number := (py.float s).getD .nan

def truthy (s : String) : Bool := s ≠ "" && s ≠ "0"

def pyBool (b : Bool) : String := if b then "1" else "0"

def pyCompare (py : Floats) (op : Cmp) (a b : String) : Bool :=
  match py.float a, py.float b with
  | some x, some y => op.ieee x y
  | _, _ => op.holds a b

def pyDivide (x y : Number) : Number := if y = .rat 0 then .nan else x.map₂ (· / ·) y

def evalBinop (py : Floats) (op : Op) (a b : String) : String :=
  match op with
  | .add => formatPyNum py ((pyToNumber py a).map₂ (· + ·) (pyToNumber py b))
  | .sub => formatPyNum py ((pyToNumber py a).map₂ (· - ·) (pyToNumber py b))
  | .mul => formatPyNum py ((pyToNumber py a).map₂ (· * ·) (pyToNumber py b))
  | .div => formatPyNum py (pyDivide (pyToNumber py a) (pyToNumber py b))
  | .lt => pyBool (pyCompare py .lt a b)
  | .le => pyBool (pyCompare py .le a b)
  | .gt => pyBool (pyCompare py .gt a b)
  | .ge => pyBool (pyCompare py .ge a b)
  | .eq => pyBool (pyCompare py .eq a b)
  | .ne => pyBool (pyCompare py .ne a b)
  | .and => pyBool (truthy a && truthy b)
  | .or => pyBool (truthy a || truthy b)

/-- The value of an expression against a set. What queries the set, counts and aggregates, is
given. -/
def evaluateSet (py : Floats) (query : Expr Number → Except Failure String) :
    Expr Number → Except Failure String
  | .num v => .ok (formatPyNum py v)
  | .str s => .ok s
  | .tagAccess _ | .elementCall _ _ =>
    .error
      (.runtimeQueryError ("runtime error: element-scoped function used outside an aggregator " ++
      "in an 'if'/(if:) condition; wrap it in u(...)"))
  | .setCount typeName => query (.setCount typeName)
  | .namedSetCount setName typeName => query (.namedSetCount setName typeName)
  | .aggregate func e => query (.aggregate func e)
  | .unary .not e => do
    let val ← evaluateSet py query e
    return pyBool (!truthy val)
  | .unary .neg e => do
    let val ← evaluateSet py query e
    return formatPyNum py ((pyToNumber py val).map (-·))
  | .binOp op left right => do
    let a ← evaluateSet py query left
    let b ← evaluateSet py query right
    return evalBinop py op a b
  | .ternary cond then' otherwise => do
    let cond ← evaluateSet py query cond
    if truthy cond then evaluateSet py query then' else evaluateSet py query otherwise

section Evaluated

variable {py : Floats} {query : Expr Number → Except Failure String} {e left right : Expr Number}
  {a b c : String}

lemma evaluateSet_not (h : evaluateSet py query e = .ok a) :
    evaluateSet py query (.unary .not e) = .ok (pyBool (!truthy a)) := bind_of_ok h

lemma evaluateSet_neg (h : evaluateSet py query e = .ok a) :
    evaluateSet py query (.unary .neg e) = .ok
      (formatPyNum py ((pyToNumber py a).map (-·))) := bind_of_ok h

lemma evaluateSet_binOp (op : Op) (ha : evaluateSet py query left = .ok a)
    (hb : evaluateSet py query right = .ok b) :
    evaluateSet py query (.binOp op left right) = .ok (evalBinop py op a b) :=
  (bind_of_ok ha).trans (bind_of_ok hb)

lemma evaluateSet_ternary (h : evaluateSet py query e = .ok c) :
    evaluateSet py query (.ternary e left right) =
      if truthy c then evaluateSet py query left else evaluateSet py query right := bind_of_ok h

end Evaluated

/-! ### The rules -/

/-- Two numbers with a NaN that the evaluators compare differently. -/
def nanCompared (py : Floats) (op : Cmp) (a b : String) : Bool :=
  match py.float a, py.float b with
  | some x, some y => op.nanPair x y
  | _, _ => false

/-- A comparison that the rules leave open. -/
def isOpen (py : Floats) (op : Op) (a b : String) : Bool :=
  match cmpOp op with
  | some c => nanCompared py c a b
  | none => false

/-- The value that the rules give an expression, where they give one. -/
def meaning (py : Floats) : Expr Number → Option String
  | .num v => some (formatPyNum py v)
  | .str s => some s
  | .unary .not e => (meaning py e).map fun v => pyBool (!truthy v)
  | .unary .neg e => (meaning py e).map fun v => formatPyNum py ((pyToNumber py v).map (-·))
  | .binOp op left right => do
    let a ← meaning py left
    let b ← meaning py right
    if isOpen py op a b then none else some (evalBinop py op a b)
  | .ternary cond then' otherwise => do
    let c ← meaning py cond
    if truthy c then meaning py then' else meaning py otherwise
  | _ => none

/-- Expressions that read neither a row nor a set. -/
def Plain : Expr Number → Bool
  | .num _ | .str _ => true
  | .unary _ e => Plain e
  | .binOp _ left right => Plain left && Plain right
  | .ternary cond then' otherwise => Plain cond && Plain then' && Plain otherwise
  | _ => false

/-! ### Values of the SQL -/

section Sql

variable {py : Floats} {engine : Engine} {s t : String}

lemma truncate_intCast (z : ℤ) : truncate z = z := by
  rw [truncate, Rat.num_intCast, Rat.den_intCast]
  exact Int.tdiv_one z

lemma roundEven_intCast (z : ℤ) : roundEven z = z := by
  rw [roundEven, Int.floor_intCast, sub_self, if_pos (by norm_num)]

lemma eq_truncate_iff {q : ℚ} : q = truncate q ↔ q = ⌊q⌋ := by
  constructor
  · intro h
    rw [h, Int.floor_intCast]
  · intro h
    rw [h, truncate_intCast]

lemma toBigint_intCast {z : ℤ} (h : |(z : ℚ)| < 10 ^ 15) : toBigint (.rat z) = .ok z := by
  have hz : |z| < 10 ^ 15 := by exact_mod_cast h
  obtain ⟨hlow, hhigh⟩ := abs_lt.mp hz
  rw [toBigint, roundEven_intCast, if_pos ⟨by omega, by omega⟩]

/-- **A number is written alike on both sides**, and NULL as NaN. -/
lemma eval_formatNumSql (htext : engine.ofDouble = py.repr) {d : Sql .double} {x : Option Number}
    (hd : d.eval engine = .ok x) :
    (formatNumSql d).eval engine = .ok (some (formatPyNum py (x.getD .nan))) := by
  rw [formatNumSql, eval_caseWhen (eval_isNull hd)]
  rcases x with _ | x
  · rfl
  rw [if_neg (by simp)]
  have hfloor : (Sql.compareDouble .eq d (.floor d)).eval engine = _ :=
    eval_compareDouble hd (eval_floor hd)
  have hsmall : (Sql.compareDouble .lt (.abs d) (.double (10 ^ 15))).eval engine = _ :=
    eval_compareDouble (eval_abs hd)
      (show (Sql.double (10 ^ 15)).eval engine = .ok (some (.rat (10 ^ 15))) from rfl)
  rw [eval_caseWhen (eval_and hfloor hsmall)]
  rcases x with q | _
  · have hcond : (some (Cmp.eq.holds q ⌊q⌋ && Cmp.lt.holds |q| (10 ^ 15)) = some true) ↔
        (q = truncate q ∧ |q| < 10 ^ 15) := by
      rw [eq_truncate_iff]
      simp [Cmp.holds]
    show (if some (Cmp.eq.holds q ⌊q⌋ && Cmp.lt.holds |q| (10 ^ 15)) = some true then _ else _) = _
    by_cases h : q = truncate q ∧ |q| < 10 ^ 15
    · rw [if_pos (hcond.mpr h), Option.getD_some, formatPyNum, if_pos h]
      have hint : toBigint (.rat q) = .ok (truncate q) := by
        have hq := h.2
        rw [h.1] at hq
        have := toBigint_intCast hq
        rwa [← h.1] at this
      rw [Sql.eval, Sql.eval, hd, ok_bind]
      simp only [hint]
      rfl
    · rw [if_neg (mt hcond.mp h), Option.getD_some, formatPyNum, if_neg h, Sql.eval, hd, ← htext]
      rfl
  · show (if some (Cmp.eq.total .nan .nan && Cmp.lt.total .nan (.rat (10 ^ 15))) =
      some true then _ else _) = _
    rw [if_neg (by decide), Sql.eval, hd]
    rfl

lemma eval_truthySql {a : Sql .varchar} (ha : a.eval engine = .ok (some s)) :
    (truthySql a).eval engine = .ok (some (truthy s)) := by
  have hempty : (Sql.compareText .ne a (.string "")).eval engine = .ok (some (Cmp.ne.holds s "")) :=
    eval_compareText ha rfl
  have hzero : (Sql.compareText .ne a (.string "0")).eval engine =
      .ok (some (Cmp.ne.holds s "0")) :=
    eval_compareText ha rfl
  rw [truthySql, eval_and (eval_and (eval_isNotNull ha) hempty) hzero]
  rfl

lemma eval_boolToValueSql {b : Sql .boolean} {x : Bool} (hb : b.eval engine = .ok (some x)) :
    (boolToValueSql b).eval engine = .ok (some (pyBool x)) := by
  rw [boolToValueSql, eval_caseWhen hb]
  cases x <;> rfl

variable {a b : Sql .varchar}

lemma eval_numSql (hread : engine.toDouble = py.float) (ha : a.eval engine = .ok (some s)) :
    (numSql a).eval engine = .ok (py.float s) := by
  rw [numSql, eval_tryCast ha, ← hread]
  rfl

/-- How the database compares two values. -/
def duckCompare (py : Floats) (op : Cmp) (s t : String) : Bool :=
  match py.float s, py.float t with
  | some x, some y => op.total x y
  | _, _ => op.holds s t

lemma eval_compareSql (hread : engine.toDouble = py.float) (op : Cmp)
    (ha : a.eval engine = .ok (some s)) (hb : b.eval engine = .ok (some t)) :
    (compareSql op a b).eval engine = .ok (some (pyBool (duckCompare py op s t))) := by
  have hnum := eval_numSql hread ha
  have hnum' := eval_numSql hread hb
  have hboth : (Sql.and (isNumSql a) (isNumSql b)).eval engine = _ :=
    eval_and (eval_isNotNull hnum) (eval_isNotNull hnum')
  refine eval_boolToValueSql ?_
  rw [eval_caseWhen hboth, eval_compareDouble hnum hnum', eval_compareText ha hb, duckCompare]
  rcases py.float s with _ | x <;> rcases py.float t with _ | y <;> rfl

/-- Arithmetic with what is not a number is NULL in the database and NaN outside it. -/
lemma eval_arithSql (hread : engine.toDouble = py.float)
    (htext : engine.ofDouble = py.repr) {op : Arith}
    {f : ℚ → ℚ → ℚ} (hop : ∀ x y, op.apply x y = some (x.map₂ f y))
    (ha : a.eval engine = .ok (some s)) (hb : b.eval engine = .ok (some t)) :
    (formatNumSql (.arith op (numSql a) (numSql b))).eval engine =
      .ok (some (formatPyNum py ((pyToNumber py s).map₂ f (pyToNumber py t)))) := by
  rw [eval_formatNumSql htext (eval_arith (eval_numSql hread ha) (eval_numSql hread hb)),
    pyToNumber, pyToNumber]
  rcases py.float s with _ | x
  · rfl
  · rcases py.float t with _ | y
    · cases x <;> rfl
    · rw [strict₂, Option.bind_some, Option.bind_some, hop]
      rfl

lemma eval_divideSql (hread : engine.toDouble = py.float) (htext : engine.ofDouble = py.repr)
    (ha : a.eval engine = .ok (some s)) (hb : b.eval engine = .ok (some t)) :
    (compileBinop .div a b).eval engine = .ok (some (evalBinop py .div s t)) := by
  have hnum := eval_numSql hread ha
  have hnum' := eval_numSql hread hb
  have hzero : (Sql.compareDouble .eq (numSql b) (.double 0)).eval engine = _ :=
    eval_compareDouble hnum' (show (Sql.double 0).eval engine = .ok (some (.rat 0)) from rfl)
  have hdiv : (Sql.caseWhen (.compareDouble .eq (numSql b) (.double 0)) .null
      (.arith .div (numSql a) (numSql b))).eval engine =
      .ok (if py.float t = some (.rat 0) then none else
        strict₂ (fun x y => some (x.map₂ (· / ·) y)) (py.float s) (py.float t)) := by
    rw [eval_caseWhen hzero, eval_arith hnum hnum']
    rcases py.float t with _ | y
    · rw [if_neg (by simp [strict₂]), if_neg (by simp)]
      rcases py.float s with _ | x <;> rfl
    · by_cases hy : y = .rat 0
      · rw [hy, if_pos rfl]
        rfl
      · have htotal : Cmp.eq.total y (.rat 0) = false := by
          rcases y with q | _
          · exact decide_eq_false fun h => hy (congrArg Number.rat h)
          · rfl
        rw [strict₂, Option.bind_some, Option.bind_some, htotal, if_neg (by simp),
          if_neg (fun h => hy (Option.some.inj h))]
        rcases py.float s with _ | x
        · rfl
        · rw [strict₂, Option.bind_some, Option.bind_some, Arith.apply, if_neg hy]
          rfl
  show (formatNumSql _).eval engine = _
  rw [eval_formatNumSql htext hdiv, evalBinop, pyDivide, pyToNumber, pyToNumber]
  rcases py.float t with _ | y
  · rw [if_neg (by simp), if_neg (by simp)]
    rcases py.float s with _ | x
    · rfl
    · cases x <;> rfl
  · by_cases hy : y = .rat 0
    · rw [if_pos (congrArg some hy), Option.getD_some, if_pos hy]
      rfl
    · rw [if_neg (fun h => hy (Option.some.inj h)), Option.getD_some, if_neg hy]
      rcases py.float s with _ | x
      · rfl
      · rfl

/-- Of the operators, only comparisons differ, where they are open. -/
lemma eval_compileBinop (hread : engine.toDouble = py.float)
    (htext : engine.ofDouble = py.repr) (op : Op)
    (ha : a.eval engine = .ok (some s)) (hb : b.eval engine = .ok (some t)) :
    ∃ v, (compileBinop op a b).eval engine = .ok (some v) ∧
      (v = evalBinop py op s t ↔ isOpen py op s t = false) := by
  have hcmp : ∀ c : Cmp, ∃ v, (compareSql c a b).eval engine = .ok (some v) ∧
      (v = pyBool (pyCompare py c s t) ↔ nanCompared py c s t = false) := by
    intro c
    refine ⟨_, eval_compareSql hread c ha hb, ?_⟩
    have hinj : ∀ x y : Bool, pyBool x = pyBool y ↔ y = x := by decide
    rw [hinj, duckCompare, pyCompare, nanCompared]
    rcases py.float s with _ | x <;> rcases py.float t with _ | y
    · simp
    · simp
    · simp
    · exact Cmp.ieee_eq_total_iff
  have hsame : ∀ {v : String}, (compileBinop op a b).eval engine = .ok (some v) →
      v = evalBinop py op s t → isOpen py op s t = false →
      ∃ v, (compileBinop op a b).eval engine = .ok (some v) ∧
        (v = evalBinop py op s t ↔ isOpen py op s t = false) := by
    intro v hv heq hopen
    exact ⟨v, hv, iff_of_true heq hopen⟩
  have htruthy := eval_truthySql ha
  have htruthy' := eval_truthySql hb
  cases op with
  | or => exact hsame (eval_boolToValueSql (eval_or htruthy htruthy')) rfl rfl
  | and => exact hsame (eval_boolToValueSql (eval_and htruthy htruthy')) rfl rfl
  | eq => exact hcmp .eq
  | ne => exact hcmp .ne
  | lt => exact hcmp .lt
  | le => exact hcmp .le
  | gt => exact hcmp .gt
  | ge => exact hcmp .ge
  | add => exact hsame (eval_arithSql hread htext (fun x y => rfl) ha hb) rfl rfl
  | sub => exact hsame (eval_arithSql hread htext (fun x y => rfl) ha hb) rfl rfl
  | mul => exact hsame (eval_arithSql hread htext (fun x y => rfl) ha hb) rfl rfl
  | div => exact hsame (eval_divideSql hread htext ha hb) rfl rfl

end Sql

/-! ### The two evaluators -/

/-- An expression is compiled, the SQL has a value, and it is the text that the other evaluator
returns. -/
def Agree (py : Floats) (engine : Engine) (rowSql : Expr Number → Except Failure (Sql .varchar))
    (query : Expr Number → Except Failure String) (e : Expr Number) : Prop :=
  ∃ sql s, compileElement py rowSql e = .ok sql ∧ sql.eval engine = .ok (some s) ∧
    evaluateSet py query e = .ok s

/-- The expressions that are evaluated on the way: all operands, and the branch that is taken. -/
def reached (py : Floats) (query : Expr Number → Except Failure String) :
    Expr Number → List (Expr Number)
  | .unary op e => .unary op e :: reached py query e
  | .binOp op left right =>
    .binOp op left right :: (reached py query left ++ reached py query right)
  | .ternary cond then' otherwise =>
    .ternary cond then' otherwise :: (reached py query cond ++
      match evaluateSet py query cond with
      | .ok c => if truthy c then reached py query then' else reached py query otherwise
      | .error _ => [])
  | e => [e]

section Evaluators

variable {py : Floats} {engine : Engine} {rowSql : Expr Number → Except Failure (Sql .varchar)}
  {query : Expr Number → Except Failure String} {e : Expr Number}

lemma compileElement_plain (py : Floats) (rowSql : Expr Number → Except Failure (Sql .varchar))
    (he : Plain e) : ∃ sql, compileElement py rowSql e = .ok sql := by
  fun_induction Plain e with
  | case1 v => exact ⟨_, rfl⟩
  | case2 s => exact ⟨_, rfl⟩
  | case3 op e ih =>
    obtain ⟨sql, h⟩ := ih he
    cases op with
    | not => exact ⟨_, compileElement_not h⟩
    | neg => exact ⟨_, compileElement_neg h⟩
  | case4 op left right ih₁ ih₂ =>
    rw [Bool.and_eq_true] at he
    obtain ⟨a, ha⟩ := ih₁ he.1
    obtain ⟨b, hb⟩ := ih₂ he.2
    exact ⟨_, compileElement_binOp op ha hb⟩
  | case5 cond then' otherwise ih₁ ih₂ ih₃ =>
    rw [Bool.and_eq_true, Bool.and_eq_true] at he
    obtain ⟨c, hc⟩ := ih₁ he.1.1
    obtain ⟨a, ha⟩ := ih₂ he.1.2
    obtain ⟨b, hb⟩ := ih₃ he.2
    exact ⟨_, compileElement_ternary hc ha hb⟩
  | case6 => cases he

/-- **Where the rules give a value, the evaluator outside the database gives it.** -/
lemma evaluateSet_of_meaning {v : String} (hv : meaning py e = some v) :
    evaluateSet py query e = .ok v := by
  fun_induction meaning py e generalizing v with
  | case1 x => exact congrArg Except.ok (Option.some.inj hv)
  | case2 s => exact congrArg Except.ok (Option.some.inj hv)
  | case3 e ih =>
    obtain ⟨w, hw, rfl⟩ := Option.map_eq_some_iff.mp hv
    exact evaluateSet_not (ih hw)
  | case4 e ih =>
    obtain ⟨w, hw, rfl⟩ := Option.map_eq_some_iff.mp hv
    exact evaluateSet_neg (ih hw)
  | case5 op left right ih₁ ih₂ =>
    simp only [Option.bind_eq_bind, Option.bind_eq_some_iff] at hv
    obtain ⟨a, ha, b, hb, hv⟩ := hv
    rw [evaluateSet_binOp op (ih₁ ha) (ih₂ hb)]
    split at hv
    · cases hv
    · exact congrArg Except.ok (Option.some.inj hv)
  | case6 cond then' otherwise ih₁ ih₂ ih₃ =>
    simp only [Option.bind_eq_bind, Option.bind_eq_some_iff] at hv
    obtain ⟨c, hc, hv⟩ := hv
    rw [evaluateSet_ternary (ih₁ hc)]
    split at hv
    · rename_i ht
      rw [if_pos ht, ih₂ hv]
    · rename_i ht
      rw [if_neg ht, ih₃ hv]
  | case7 => cases hv

/-- **So does the SQL.** -/
lemma eval_of_meaning (hread : engine.toDouble = py.float) (htext : engine.ofDouble = py.repr)
    (he : Plain e) {v : String} (hv : meaning py e = some v) :
    ∃ sql, compileElement py rowSql e = .ok sql ∧ sql.eval engine = .ok (some v) := by
  fun_induction Plain e generalizing v with
  | case1 x =>
    cases hv
    exact ⟨_, rfl, rfl⟩
  | case2 s =>
    cases hv
    exact ⟨_, rfl, rfl⟩
  | case3 op e ih =>
    cases op with
    | not =>
      obtain ⟨w, hw, rfl⟩ := Option.map_eq_some_iff.mp hv
      obtain ⟨sql, hsql, heval⟩ := ih he hw
      exact ⟨_, compileElement_not hsql, eval_boolToValueSql (eval_not (eval_truthySql heval))⟩
    | neg =>
      obtain ⟨w, hw, rfl⟩ := Option.map_eq_some_iff.mp hv
      obtain ⟨sql, hsql, heval⟩ := ih he hw
      refine ⟨formatNumSql (.neg (numSql sql)), compileElement_neg hsql, ?_⟩
      rw [eval_formatNumSql htext (eval_neg (eval_numSql hread heval)), pyToNumber]
      cases py.float w <;> rfl
  | case4 op left right ih₁ ih₂ =>
    rw [Bool.and_eq_true] at he
    simp only [meaning, Option.bind_eq_bind, Option.bind_eq_some_iff] at hv
    obtain ⟨a, ha, b, hb, hv⟩ := hv
    obtain ⟨sqlA, hcA, heA⟩ := ih₁ he.1 ha
    obtain ⟨sqlB, hcB, heB⟩ := ih₂ he.2 hb
    obtain ⟨w, hw, hiff⟩ := eval_compileBinop hread htext op heA heB
    split at hv
    · cases hv
    · rename_i hopen
      rw [hiff.mpr (Bool.eq_false_of_not_eq_true hopen), Option.some.inj hv] at hw
      exact ⟨_, compileElement_binOp op hcA hcB, hw⟩
  | case5 cond then' otherwise ih₁ ih₂ ih₃ =>
    rw [Bool.and_eq_true, Bool.and_eq_true] at he
    simp only [meaning, Option.bind_eq_bind, Option.bind_eq_some_iff] at hv
    obtain ⟨c, hc, hv⟩ := hv
    obtain ⟨sqlC, hcC, heC⟩ := ih₁ he.1.1 hc
    rcases ht : truthy c with _ | _
    · rw [ht, if_neg (by decide)] at hv
      obtain ⟨sqlA, hcA⟩ := compileElement_plain py rowSql he.1.2
      obtain ⟨sqlB, hcB, heB⟩ := ih₃ he.2 hv
      refine ⟨.caseWhen (truthySql sqlC) sqlA sqlB, compileElement_ternary hcC hcA hcB, ?_⟩
      rw [eval_caseWhen (eval_truthySql heC), ht, if_neg (by decide), heB]
    · rw [ht, if_pos rfl] at hv
      obtain ⟨sqlA, hcA, heA⟩ := ih₂ he.1.2 hv
      obtain ⟨sqlB, hcB⟩ := compileElement_plain py rowSql he.2
      refine ⟨.caseWhen (truthySql sqlC) sqlA sqlB, compileElement_ternary hcC hcA hcB, ?_⟩
      rw [eval_caseWhen (eval_truthySql heC), ht, if_pos rfl, heA]
  | case6 => cases he

/-- An expression with a meaning reaches expressions with a meaning only. -/
lemma meaning_of_reached (he : Plain e) (h : (meaning py e).isSome) {x : Expr Number}
    (hx : x ∈ reached py query e) : Plain x ∧ (meaning py x).isSome := by
  fun_induction Plain e with
  | case1 v =>
    obtain rfl := List.mem_singleton.mp hx
    exact ⟨he, h⟩
  | case2 s =>
    obtain rfl := List.mem_singleton.mp hx
    exact ⟨he, h⟩
  | case3 op e ih =>
    rcases List.mem_cons.mp hx with rfl | hx
    · exact ⟨he, h⟩
    · refine ih he ?_ hx
      cases op <;> simpa [meaning] using h
  | case4 op left right ih₁ ih₂ =>
    obtain ⟨v, hv⟩ := Option.isSome_iff_exists.mp h
    simp only [meaning, Option.bind_eq_bind, Option.bind_eq_some_iff] at hv
    obtain ⟨a, ha, b, hb, -⟩ := hv
    rcases List.mem_cons.mp hx with rfl | hx
    · exact ⟨he, h⟩
    · rw [Bool.and_eq_true] at he
      rcases List.mem_append.mp hx with hx | hx
      · exact ih₁ he.1 (by rw [ha]; rfl) hx
      · exact ih₂ he.2 (by rw [hb]; rfl) hx
  | case5 cond then' otherwise ih₁ ih₂ ih₃ =>
    obtain ⟨v, hv⟩ := Option.isSome_iff_exists.mp h
    simp only [meaning, Option.bind_eq_bind, Option.bind_eq_some_iff] at hv
    obtain ⟨c, hc, hv⟩ := hv
    rw [reached, evaluateSet_of_meaning hc] at hx
    rcases List.mem_cons.mp hx with rfl | hx
    · exact ⟨he, h⟩
    · rw [Bool.and_eq_true, Bool.and_eq_true] at he
      rcases List.mem_append.mp hx with hx | hx
      · exact ih₁ he.1.1 (by rw [hc]; rfl) hx
      · change x ∈ (if truthy c = true then _ else _) at hx
        split at hv
        · rename_i ht
          rw [if_pos ht] at hx
          exact ih₂ he.1.2 (by rw [hv]; rfl) hx
        · rename_i ht
          rw [if_neg ht] at hx
          exact ih₃ he.2 (by rw [hv]; rfl) hx
  | case6 => cases he

/-- Where both agree on everything that is reached, the rules give a value. -/
lemma meaning_of_agree (hread : engine.toDouble = py.float) (htext : engine.ofDouble = py.repr)
    (he : Plain e) (h : ∀ x ∈ reached py query e, Agree py engine rowSql query x) :
    (meaning py e).isSome := by
  fun_induction Plain e with
  | case1 v => rfl
  | case2 s => rfl
  | case3 op e ih =>
    have hm := ih he fun x hx => h x (List.mem_cons_of_mem _ hx)
    cases op <;> simpa [meaning] using hm
  | case4 op left right ih₁ ih₂ =>
    rw [Bool.and_eq_true] at he
    obtain ⟨a, ha⟩ := Option.isSome_iff_exists.mp
      (ih₁ he.1 fun x hx => h x (List.mem_cons_of_mem _ (List.mem_append_left _ hx)))
    obtain ⟨b, hb⟩ := Option.isSome_iff_exists.mp
      (ih₂ he.2 fun x hx => h x (List.mem_cons_of_mem _ (List.mem_append_right _ hx)))
    obtain ⟨sqlA, hcA, heA⟩ := eval_of_meaning hread htext he.1 ha
    obtain ⟨sqlB, hcB, heB⟩ := eval_of_meaning hread htext he.2 hb
    obtain ⟨w, hw, hiff⟩ := eval_compileBinop hread htext op heA heB
    obtain ⟨sql, v, hsql, heval, hset⟩ := h _ List.mem_cons_self
    -- the operands agree, so that the node itself can only agree where it is not open
    rw [compileElement_binOp op hcA hcB] at hsql
    rw [← Except.ok.inj hsql, hw] at heval
    rw [evaluateSet_binOp op (evaluateSet_of_meaning ha) (evaluateSet_of_meaning hb)] at hset
    have hopen := hiff.mp ((Option.some.inj (Except.ok.inj heval)).trans (Except.ok.inj hset).symm)
    rw [meaning, ha, hb]
    simp [hopen]
  | case5 cond then' otherwise ih₁ ih₂ ih₃ =>
    rw [Bool.and_eq_true, Bool.and_eq_true] at he
    obtain ⟨c, hc⟩ := Option.isSome_iff_exists.mp
      (ih₁ he.1.1 fun x hx => h x (List.mem_cons_of_mem _ (List.mem_append_left _ hx)))
    rw [reached, evaluateSet_of_meaning hc] at h
    rw [meaning, hc]
    show (if truthy c = true then _ else _ : Option String).isSome = true
    by_cases ht : truthy c = true
    · rw [if_pos ht]
      refine ih₂ he.1.2 fun x hx => h x (List.mem_cons_of_mem _ (List.mem_append_right _ ?_))
      show x ∈ (if truthy c = true then _ else _)
      rwa [if_pos ht]
    · rw [if_neg ht]
      refine ih₃ he.2 fun x hx => h x (List.mem_cons_of_mem _ (List.mem_append_right _ ?_))
      show x ∈ (if truthy c = true then _ else _)
      rwa [if_neg ht]
  | case6 => cases he

/-- **The evaluators agree where the rules give a value**: on the expression then, and on everything
that is evaluated on the way exactly then. -/
theorem evaluators_agree_iff (hread : engine.toDouble = py.float)
    (htext : engine.ofDouble = py.repr) (he : Plain e) :
    ((meaning py e).isSome → Agree py engine rowSql query e) ∧
      ((∀ x ∈ reached py query e, Agree py engine rowSql query x) ↔ (meaning py e).isSome) := by
  have hagree : ∀ {x : Expr Number}, Plain x →
      (meaning py x).isSome → Agree py engine rowSql query x := by
    intro x hx h
    obtain ⟨v, hv⟩ := Option.isSome_iff_exists.mp h
    obtain ⟨sql, hsql, heval⟩ := eval_of_meaning hread htext hx hv
    exact ⟨sql, v, hsql, heval, evaluateSet_of_meaning hv⟩
  refine ⟨hagree he, meaning_of_agree hread htext he, fun h x hx => ?_⟩
  obtain ⟨hplain, hmean⟩ := meaning_of_reached he h hx
  exact hagree hplain hmean

end Evaluators

/-- Numbers of one digit, and NaN. -/
def digitFloats : Floats where
  float s := if s = "nan" then some .nan else if s = "1" then some (.rat 1) else
    if s = "2" then some (.rat 2) else none
  repr := toString

def digitEngine : Engine := ⟨digitFloats.float, digitFloats.repr⟩

/-- No row and no set is read. -/
def noRow (_ : Expr Number) : Except Failure (Sql .varchar) := .error (.unsupportedError "no row")

def noSet (_ : Expr Number) : Except Failure String := .error (.runtimeQueryError "no set")

/-- `2 > 1 && "nan" < 1`. -/
def nanBelowOne : Expr Number :=
  .binOp .and (.binOp .gt (.num (.rat 2)) (.num (.rat 1))) (.binOp .lt (.str "nan") (.num (.rat 1)))

/-- It has a value: NaN is not below a number on either side. -/
theorem evaluators_agree_nanBelowOne : Agree digitFloats digitEngine noRow noSet nanBelowOne ∧
    ∀ x ∈ reached digitFloats noSet nanBelowOne, Agree digitFloats digitEngine noRow noSet x := by
  have hone : formatPyNum digitFloats (.rat 1) = "1" := by
    rw [formatPyNum, show truncate 1 = 1 from rfl, if_pos (by norm_num)]
    rfl
  have htwo : formatPyNum digitFloats (.rat 2) = "2" := by
    rw [formatPyNum, show truncate 2 = 2 from rfl, if_pos (by norm_num)]
    rfl
  have hfloat : digitFloats.float "1" = some (.rat 1) ∧ digitFloats.float "2" = some (.rat 2) ∧
      digitFloats.float "nan" = some .nan := by
    simp [digitFloats]
  have hmeaning : (meaning digitFloats nanBelowOne).isSome := by
    simp [nanBelowOne, meaning, hone, htwo, isOpen, cmpOp, nanCompared, hfloat, Cmp.nanPair]
  have h := @evaluators_agree_iff digitFloats digitEngine noRow noSet nanBelowOne rfl rfl rfl
  exact ⟨h.1 hmeaning, h.2.mpr hmeaning⟩

/-- `"nan" == "nan"` is true in the database and false outside it. -/
theorem nan_equals_itself_in_sql :
    ¬ Agree digitFloats digitEngine noRow noSet (.binOp .eq (.str "nan") (.str "nan")) := by
  rintro ⟨sql, s, hsql, heval, hset⟩
  cases hsql
  have hcompare : duckCompare digitFloats .eq "nan" "nan" = true := by
    simp [duckCompare, digitFloats, Cmp.total, Cmp.holds]
  have hvalue : (compareSql .eq (.string "nan") (.string "nan")).eval digitEngine =
      .ok (some (pyBool true)) :=
    hcompare ▸ eval_compareSql rfl .eq rfl rfl
  have hpython : evaluateSet digitFloats noSet (.binOp .eq (.str "nan") (.str "nan")) =
      .ok (pyBool false) := by
    have hfalse : pyCompare digitFloats .eq "nan" "nan" = false := by
      simp [pyCompare, digitFloats, Cmp.ieee]
    exact congrArg (fun b => Except.ok (pyBool b)) hfalse
  rw [hpython] at hset
  change (compareSql .eq (.string "nan") (.string "nan")).eval digitEngine = _ at heval
  rw [hvalue, ← Except.ok.inj hset] at heval
  simp [pyBool] at heval

end OsmParquet.EvalSql
