import Mathlib.Data.Rat.Floor
import Mathlib.Data.String.Basic
import Mathlib.Tactic.Common

/-!
Scalar SQL expressions over texts and numbers, and what a database makes of them.

A value may be NULL; conditions then have three values, and a case is taken only when its condition
is true. A number is exact or NaN. The database orders NaN as equal to itself and above every
number, where IEEE 754 has every comparison with it false but `≠`; the two differ on the pairs
that are named here.
-/

namespace OsmParquet.SqlValues

/-! ### Numbers -/

inductive Number
  | rat (q : ℚ)
  | nan
  deriving DecidableEq

def Number.map (f : ℚ → ℚ) : Number → Number
  | .rat q => .rat (f q)
  | .nan => .nan

def Number.map₂ (f : ℚ → ℚ → ℚ) : Number → Number → Number
  | .rat p, .rat q => .rat (f p q)
  | _, _ => .nan

inductive Cmp
  | lt | le | gt | ge | eq | ne
  deriving DecidableEq, Repr

def Cmp.holds {α : Type} [LinearOrder α] (a b : α) : Cmp → Bool
  | .lt => a < b
  | .le => a ≤ b
  | .gt => b < a
  | .ge => b ≤ a
  | .eq => a = b
  | .ne => a ≠ b

/-- Comparing as IEEE 754 has it. -/
def Cmp.ieee (op : Cmp) : Number → Number → Bool
  | .rat p, .rat q => op.holds p q
  | _, _ => op = .ne

/-- Comparing in the order of the database, where NaN is the last. -/
def Cmp.total (op : Cmp) : Number → Number → Bool
  | .rat p, .rat q => op.holds p q
  | .nan, .nan => op.holds 0 0
  | .nan, .rat _ => op.holds 1 0
  | .rat _, .nan => op.holds 0 1

/-- The pairs that the two compare differently: NaN and NaN where equality counts, and NaN and a
number where NaN is to be the greater one. -/
def Cmp.nanPair : Cmp → Number → Number → Bool
  | .eq, .nan, .nan | .ne, .nan, .nan | .le, .nan, .nan | .ge, .nan, .nan => true
  | .gt, .nan, .rat _ | .ge, .nan, .rat _ => true
  | .lt, .rat _, .nan | .le, .rat _, .nan => true
  | _, _, _ => false

/-- **The two ways to compare agree but on those pairs.** -/
lemma Cmp.ieee_eq_total_iff {op : Cmp} {x y : Number} :
    op.ieee x y = op.total x y ↔ op.nanPair x y = false := by
  rcases x with p | _ <;> rcases y with q | _
  · cases op <;> simp [ieee, total, nanPair]
  · cases op <;> simp [ieee, total, nanPair, holds]
  · cases op <;> simp [ieee, total, nanPair, holds]
  · cases op <;> simp [ieee, total, nanPair, holds]

/-! ### Expressions -/

inductive Ty
  | varchar | double | bigint | boolean

abbrev Ty.Value : Ty → Type
  | .varchar => String
  | .double => Number
  | .bigint => ℤ
  | .boolean => Bool

inductive Arith
  | add | sub | mul | div
  deriving DecidableEq, Repr

inductive Sql : Ty → Type
  | string (s : String) : Sql .varchar
  | double (q : ℚ) : Sql .double
  | null {τ : Ty} : Sql τ
  | tryCast (e : Sql .varchar) : Sql .double
  | castBigint (e : Sql .double) : Sql .bigint
  | bigintText (e : Sql .bigint) : Sql .varchar
  | doubleText (e : Sql .double) : Sql .varchar
  | neg (e : Sql .double) : Sql .double
  | arith (op : Arith) (a b : Sql .double) : Sql .double
  | floor (e : Sql .double) : Sql .double
  | abs (e : Sql .double) : Sql .double
  | isNull {τ : Ty} (e : Sql τ) : Sql .boolean
  | isNotNull {τ : Ty} (e : Sql τ) : Sql .boolean
  | compareDouble (op : Cmp) (a b : Sql .double) : Sql .boolean
  | compareText (op : Cmp) (a b : Sql .varchar) : Sql .boolean
  | not (a : Sql .boolean) : Sql .boolean
  | and (a b : Sql .boolean) : Sql .boolean
  | or (a b : Sql .boolean) : Sql .boolean
  | caseWhen {τ : Ty} (cond : Sql .boolean) (then' otherwise : Sql τ) : Sql τ

/-- What is left to the database: which texts are numbers, and how it writes a number. -/
structure Engine where
  toDouble : String → Option Number
  ofDouble : ℚ → String

/-- Rounding to a whole number, a half to the even one. -/
def roundEven (q : ℚ) : ℤ :=
  let low := ⌊q⌋
  if q - low < 1 / 2 then low
  else if 1 / 2 < q - low then low + 1
  else if low % 2 = 0 then low else low + 1

/-- Casting to a whole number of 64 bits, which may fail. -/
def toBigint : Number → Except String ℤ
  | .nan => .error "Conversion Error: could not cast to INT64"
  | .rat q =>
    if -2 ^ 63 ≤ roundEven q ∧ roundEven q < 2 ^ 63 then .ok (roundEven q)
    else .error "Conversion Error: could not cast to INT64"

def Arith.apply : Arith → Number → Number → Option Number
  | .add, x, y => some (x.map₂ (· + ·) y)
  | .sub, x, y => some (x.map₂ (· - ·) y)
  | .mul, x, y => some (x.map₂ (· * ·) y)
  | .div, x, y => if y = .rat 0 then none else some (x.map₂ (· / ·) y)

def and₃ : Option Bool → Option Bool → Option Bool
  | some false, _ => some false
  | _, some false => some false
  | some true, some true => some true
  | _, _ => none

def or₃ : Option Bool → Option Bool → Option Bool
  | some true, _ => some true
  | _, some true => some true
  | some false, some false => some false
  | _, _ => none

/-- A function of two values that is NULL when one of them is. -/
def strict₂ {α β γ : Type} (f : α → β → Option γ) (a : Option α) (b : Option β) : Option γ :=
  a.bind fun a => b.bind fun b => f a b

/-- The value of an expression. A case evaluates the branch that is taken. -/
def Sql.eval (engine : Engine) : {τ : Ty} → Sql τ → Except String (Option τ.Value)
  | _, .string s => .ok (some s)
  | _, .double q => .ok (some (.rat q))
  | _, .null => .ok none
  | _, .tryCast e => do return (← e.eval engine).bind engine.toDouble
  | _, .castBigint e => do
    match ← e.eval engine with
    | none => return none
    | some x => return some (← toBigint x)
  | _, .bigintText e => do return (← e.eval engine).map toString
  | _, .doubleText e => do
    return (← e.eval engine).map fun x =>
      match x with
      | .nan => "nan"
      | .rat q => engine.ofDouble q
  | _, .neg e => do return (← e.eval engine).map (Number.map (-·))
  | _, .arith op a b => do return strict₂ op.apply (← a.eval engine) (← b.eval engine)
  | _, .floor e => do return (← e.eval engine).map (Number.map fun q => ⌊q⌋)
  | _, .abs e => do return (← e.eval engine).map (Number.map fun q => |q|)
  | _, .isNull e => do return some (← e.eval engine).isNone
  | _, .isNotNull e => do return some (← e.eval engine).isSome
  | _, .compareDouble op a b => do
    return strict₂ (fun x y => some (op.total x y)) (← a.eval engine) (← b.eval engine)
  | _, .compareText op a b => do
    return strict₂ (fun x y => some (op.holds x y)) (← a.eval engine) (← b.eval engine)
  | _, .not a => do return (← a.eval engine).map (!·)
  | _, .and a b => do return and₃ (← a.eval engine) (← b.eval engine)
  | _, .or a b => do return or₃ (← a.eval engine) (← b.eval engine)
  | _, .caseWhen cond then' otherwise => do
    if (← cond.eval engine) = some true then then'.eval engine else otherwise.eval engine

/-! ### Evaluating -/

section Evaluating

variable {engine : Engine} {τ : Ty}

-- the equations are made here, once for all the rules
attribute [local simp] Sql.eval

lemma ok_bind {α β : Type} {a : α} {f : α → Except String β} : (Except.ok a >>= f) = f a := rfl

lemma eval_caseWhen {cond : Sql .boolean} {b : Option Bool} (h : cond.eval engine = .ok b)
    (then' otherwise : Sql τ) : (Sql.caseWhen cond then' otherwise).eval engine =
      if b = some true then then'.eval engine else otherwise.eval engine := by
  rw [Sql.eval, h, ok_bind]

lemma eval_isNull {e : Sql τ} {v : Option τ.Value} (h : e.eval engine = .ok v) :
    (Sql.isNull e).eval engine = .ok (some v.isNone) := by
  rw [Sql.eval, h]
  rfl

lemma eval_isNotNull {e : Sql τ} {v : Option τ.Value} (h : e.eval engine = .ok v) :
    (Sql.isNotNull e).eval engine = .ok (some v.isSome) := by
  rw [Sql.eval, h]
  rfl

lemma eval_tryCast {e : Sql .varchar} {v : Option String} (h : e.eval engine = .ok v) :
    (Sql.tryCast e).eval engine = .ok (v.bind engine.toDouble) := by
  rw [Sql.eval, h]
  rfl

lemma eval_arith {op : Arith} {a b : Sql .double} {x y : Option Number} (ha : a.eval engine = .ok x)
    (hb : b.eval engine = .ok y) : (Sql.arith op a b).eval engine = .ok (strict₂ op.apply x y) := by
  rw [Sql.eval, ha, ok_bind, hb]
  rfl

lemma eval_neg {a : Sql .double} {x : Option Number} (h : a.eval engine = .ok x) :
    (Sql.neg a).eval engine = .ok (x.map (Number.map (-·))) := by
  rw [Sql.eval, h]
  rfl

lemma eval_floor {a : Sql .double} {x : Option Number} (h : a.eval engine = .ok x) :
    (Sql.floor a).eval engine = .ok (x.map (Number.map fun q => ⌊q⌋)) := by
  rw [Sql.eval, h]
  rfl

lemma eval_abs {a : Sql .double} {x : Option Number} (h : a.eval engine = .ok x) :
    (Sql.abs a).eval engine = .ok (x.map (Number.map fun q => |q|)) := by
  rw [Sql.eval, h]
  rfl

lemma eval_compareDouble {op : Cmp} {a b : Sql .double} {x y : Option Number}
    (ha : a.eval engine = .ok x) (hb : b.eval engine = .ok y) :
    (Sql.compareDouble op a b).eval engine =
      .ok (strict₂ (fun x y => some (op.total x y)) x y) := by
  rw [Sql.eval, ha, ok_bind, hb]
  rfl

lemma eval_compareText {op : Cmp} {a b : Sql .varchar} {s t : String}
    (ha : a.eval engine = .ok (some s)) (hb : b.eval engine = .ok (some t)) :
    (Sql.compareText op a b).eval engine = .ok (some (op.holds s t)) := by
  rw [Sql.eval, ha, ok_bind, hb]
  rfl

lemma eval_not {a : Sql .boolean} {x : Bool} (h : a.eval engine = .ok (some x)) :
    (Sql.not a).eval engine = .ok (some !x) := by
  rw [Sql.eval, h]
  rfl

lemma eval_and {a b : Sql .boolean} {x y : Bool} (ha : a.eval engine = .ok (some x))
    (hb : b.eval engine = .ok (some y)) : (Sql.and a b).eval engine = .ok (some (x && y)) := by
  rw [Sql.eval, ha, ok_bind, hb]
  cases x <;> cases y <;> rfl

lemma eval_or {a b : Sql .boolean} {x y : Bool} (ha : a.eval engine = .ok (some x))
    (hb : b.eval engine = .ok (some y)) : (Sql.or a b).eval engine = .ok (some (x || y)) := by
  rw [Sql.eval, ha, ok_bind, hb]
  cases x <;> cases y <;> rfl

end Evaluating

end OsmParquet.SqlValues
