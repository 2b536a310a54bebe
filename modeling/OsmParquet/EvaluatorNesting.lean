import OsmParquet.EvaluatorGrammar

/-!
The parser of expressions on a stack.

Every function of the grammar calls the next one, so that an expression in parentheses needs ten
frames of the stack. When there is none left the parser raises an exception that is no parse error.
It does exactly if some call is nested too deep, which rules on the tokens tell; else it does what
it does on a stack that is large enough.
-/

namespace OsmParquet.EvaluatorNesting

open OsmParquet.Evaluator (Raised Expr Lexeme Input Level Op Tok Sym AggFunc ElementFunc
  current advance check expect error elementCall parseNamedSetCount parseTagAccess
    parseTypeName fuelFor)
open OsmParquet.EvaluatorGrammar

variable {ν α β : Type}

/-! ### The parser -/

inductive Failure
  | raised (r : Raised)
  | recursionError

abbrev Parsed (α : Type) := Except Failure α

/-- What does not depend on the stack. -/
def lower (x : Except Raised α) : Parsed α := x.mapError .raised

/-- A call, if there is room for one more frame. -/
def enter (room : ℕ) (call : ℕ → Parsed α) : Parsed α :=
  match room with
  | 0 => .error .recursionError
  | room + 1 => call room

mutual

def parseTernary : ℕ → ℕ → Input ν → Parsed (Expr ν × Input ν)
  | 0, _, _ => .error (.raised .outOfFuel)
  | n + 1, room, ts => do
    let (cond, ts) ← enter room fun room => parseLevel n room .or ts
    if check .question ts then
      let (then', ts) ← enter room fun room => enter room fun room =>
        parseTernary n room (advance ts)
      let ts ← lower (expect .colon ts)
      let (otherwise, ts) ← enter room fun room => parseTernary n room ts
      return (.ternary cond then' otherwise, ts)
    else return (cond, ts)

def parseLevel : ℕ → ℕ → Level → Input ν → Parsed (Expr ν × Input ν)
  | 0, _, _, _ => .error (.raised .outOfFuel)
  | n + 1, room, level, ts => do
    let (left, ts) ← parseOperand n room level ts
    parseRest n room level left ts

def parseOperand : ℕ → ℕ → Level → Input ν → Parsed (Expr ν × Input ν)
  | 0, _, _, _ => .error (.raised .outOfFuel)
  | n + 1, room, level, ts =>
    match level.next with
    | some level => enter room fun room => parseLevel n room level ts
    | none => enter room fun room => parseUnary n room ts

def parseRest : ℕ → ℕ → Level → Expr ν → Input ν → Parsed (Expr ν × Input ν)
  | 0, _, _, _, _ => .error (.raised .outOfFuel)
  | n + 1, room, level, left, ts =>
    match level.op (current ts) with
    | some op => do
      let (right, ts) ← parseOperand n room level (advance ts)
      parseRest n room level (.binOp op left right) ts
    | none => .ok (left, ts)

def parseUnary : ℕ → ℕ → Input ν → Parsed (Expr ν × Input ν)
  | 0, _, _ => .error (.raised .outOfFuel)
  | n + 1, room, ts =>
    if check .bang ts then do
      let (e, ts) ← enter room fun room => parseUnary n room (advance ts)
      return (.unary .not e, ts)
    else if check .minus ts then do
      let (e, ts) ← enter room fun room => parseUnary n room (advance ts)
      return (.unary .neg e, ts)
    else enter room fun room => parsePrimary n room ts

def parsePrimary : ℕ → ℕ → Input ν → Parsed (Expr ν × Input ν)
  | 0, _, _ => .error (.raised .outOfFuel)
  | n + 1, room, ts =>
    match current ts with
    | .number value => .ok (.num value, advance ts)
    | .string value => .ok (.str value, advance ts)
    | .sym .lparen => do
      let (e, ts) ← enter room fun room => enter room fun room => parseTernary n room (advance ts)
      let ts ← lower (expect .rparen ts)
      return (e, ts)
    | .sym .dot => lower (parseNamedSetCount (advance ts))
    | .ident name =>
      if name = "t" then lower (parseTagAccess (advance ts))
      else if name = "count" then do
        let (typeName, ts) ← lower (parseTypeName (advance ts))
        return (.setCount typeName, ts)
      else match AggFunc.ofName name with
        | some func => do
          let ts ← lower (expect .lparen (advance ts))
          let (e, ts) ← enter room fun room => enter room fun room => parseTernary n room ts
          let ts ← lower (expect .rparen ts)
          return (.aggregate func e, ts)
        | none =>
          match ElementFunc.ofName name with
          | some func => do
            let ts ← lower (expect .lparen (advance ts))
            let (args, ts) ← if check .rparen ts then pure ([], ts) else parseArgs n room ts
            let ts ← lower (expect .rparen ts)
            lower (elementCall name func args ts)
          | none => lower (error s!"unknown function '{name}'" ts)
    | _ => lower (error "expected an expression" ts)

def parseArgs : ℕ → ℕ → Input ν → Parsed (List (Expr ν) × Input ν)
  | 0, _, _ => .error (.raised .outOfFuel)
  | n + 1, room, ts => do
    let (e, ts) ← enter room fun room => enter room fun room => parseTernary n room ts
    if check .comma ts then
      let (es, ts) ← parseArgs n room (advance ts)
      return (e :: es, ts)
    else return ([e], ts)

end

/-- `parse_program` with room for so many frames above its own. -/
def parseProgram (room : ℕ) (ts : Input ν) : Parsed (Expr ν) := do
  let (e, ts') ← enter room fun room => enter room fun room => parseTernary (fuelFor ts) room ts
  match current ts' with
  | .eof => return e
  | _ => lower (error "unexpected trailing input in expression" ts')

/-! ### On a stack that is large enough -/

/-- The stack is used up, or nothing is seen of it. -/
def Follows (x : Parsed α) (y : Except Raised α) : Prop := x = .error .recursionError ∨ x = lower y

section Follows

variable {n room : ℕ} {ts : Input ν} {l : Level}

lemma follows_lower {x : Except Raised α} : Follows (lower x) x := .inr rfl

lemma follows_pure {a : α} : Follows (.ok a) (.ok a) := .inr rfl

lemma Follows.bind {x : Parsed α} {y : Except Raised α} {f : α → Parsed β} {g : α → Except Raised β}
    (h : Follows x y) (hf : ∀ a, Follows (f a) (g a)) : Follows (x >>= f) (y >>= g) := by
  rcases h with rfl | rfl
  · exact .inl rfl
  · cases y with
    | error r => exact .inr rfl
    | ok a => exact hf a

lemma follows_enter {call : ℕ → Parsed α} {y : Except Raised α}
    (h : ∀ room, Follows (call room) y) : Follows (enter room call) y := by
  cases room with
  | zero => exact .inl rfl
  | succ room => exact h room

lemma follows_enter_twice {call : ℕ → Parsed α} {y : Except Raised α}
    (h : ∀ room, Follows (call room) y) : Follows (enter room fun room => enter room call) y :=
  follows_enter fun _ => follows_enter h

/-- With any room, every function follows the one without a stack. -/
structure AllFollow (ν : Type) (n : ℕ) : Prop where
  ternary : ∀ {room} {ts : Input ν}, Follows (parseTernary n room ts) (Evaluator.parseTernary n ts)
  level : ∀ {room l} {ts : Input ν}, Follows (parseLevel n room l ts) (Evaluator.parseLevel n l ts)
  operand : ∀ {room l} {ts : Input ν}, Follows (parseOperand n room l ts)
    (Evaluator.parseOperand n l ts)
  rest : ∀ {room l left} {ts : Input ν},
    Follows (parseRest n room l left ts) (Evaluator.parseRest n l left ts)
  unary : ∀ {room} {ts : Input ν}, Follows (parseUnary n room ts) (Evaluator.parseUnary n ts)
  primary : ∀ {room} {ts : Input ν}, Follows (parsePrimary n room ts) (Evaluator.parsePrimary n ts)
  args : ∀ {room} {ts : Input ν}, Follows (parseArgs n room ts) (Evaluator.parseArgs n ts)

lemma follows_ternary (hn : AllFollow ν n) :
    Follows (parseTernary (n + 1) room ts) (Evaluator.parseTernary (n + 1) ts) := by
  rw [parseTernary, Evaluator.parseTernary]
  refine (follows_enter fun _ => hn.level).bind ?_
  rintro ⟨cond, rest⟩
  dsimp only
  split_ifs
  · exact (follows_enter_twice fun _ => hn.ternary).bind fun _ => follows_lower.bind fun _ =>
      (follows_enter fun _ => hn.ternary).bind fun _ => follows_pure
  · exact follows_pure

lemma follows_operand (hn : AllFollow ν n) :
    Follows (parseOperand (n + 1) room l ts) (Evaluator.parseOperand (n + 1) l ts) := by
  rw [parseOperand, Evaluator.parseOperand]
  cases l.next with
  | some l => exact follows_enter fun _ => hn.level
  | none => exact follows_enter fun _ => hn.unary

lemma follows_rest (hn : AllFollow ν n) {left : Expr ν} :
    Follows (parseRest (n + 1) room l left ts) (Evaluator.parseRest (n + 1) l left ts) := by
  rw [parseRest, Evaluator.parseRest]
  cases l.op (current ts) with
  | some op => exact hn.operand.bind fun _ => hn.rest
  | none => exact follows_pure

lemma follows_unary (hn : AllFollow ν n) :
    Follows (parseUnary (n + 1) room ts) (Evaluator.parseUnary (n + 1) ts) := by
  rw [parseUnary, Evaluator.parseUnary]
  split_ifs
  · exact (follows_enter fun _ => hn.unary).bind fun _ => follows_pure
  · exact (follows_enter fun _ => hn.unary).bind fun _ => follows_pure
  · exact follows_enter fun _ => hn.primary

lemma follows_args (hn : AllFollow ν n) :
    Follows (parseArgs (n + 1) room ts) (Evaluator.parseArgs (n + 1) ts) := by
  rw [parseArgs, Evaluator.parseArgs]
  refine (follows_enter_twice fun _ => hn.ternary).bind ?_
  rintro ⟨e, rest⟩
  dsimp only
  split_ifs
  · exact hn.args.bind fun _ => follows_pure
  · exact follows_pure

lemma follows_primary (hn : AllFollow ν n) :
    Follows (parsePrimary (n + 1) room ts) (Evaluator.parsePrimary (n + 1) ts) := by
  rw [parsePrimary, Evaluator.parsePrimary]
  generalize current ts = tok
  cases tok with
  | number value => exact follows_pure
  | string value => exact follows_pure
  | eof => exact follows_lower
  | sym s =>
    cases s with
    | lparen =>
      exact (follows_enter_twice fun _ => hn.ternary).bind fun _ =>
        follows_lower.bind fun _ => follows_pure
    | _ => exact follows_lower
  | ident name =>
    dsimp only
    split_ifs
    · exact follows_lower
    · exact follows_lower.bind fun _ => follows_pure
    · cases AggFunc.ofName name with
      | some func =>
        exact follows_lower.bind fun _ => (follows_enter_twice fun _ => hn.ternary).bind fun _ =>
          follows_lower.bind fun _ => follows_pure
      | none =>
        cases ElementFunc.ofName name with
        | none => exact follows_lower
        | some func =>
          refine follows_lower.bind fun ts => ?_
          split_ifs
          · exact follows_lower.bind fun _ => follows_lower
          · exact hn.args.bind fun _ => follows_lower.bind fun _ => follows_lower

lemma allFollow (n : ℕ) : AllFollow ν n := by
  induction n with
  | zero =>
    constructor
    all_goals
      intros
      simp only [parseTernary, parseLevel, parseOperand, parseRest, parseUnary,
        parsePrimary, parseArgs, Evaluator.parseTernary, Evaluator.parseLevel,
        Evaluator.parseOperand, Evaluator.parseRest,
        Evaluator.parseUnary, Evaluator.parsePrimary, Evaluator.parseArgs]
      exact .inr rfl
  | succ n ih =>
    refine ⟨follows_ternary ih, ?_, follows_operand ih, follows_rest ih, follows_unary ih,
      follows_primary ih, follows_args ih⟩
    intro room l ts
    rw [parseLevel, Evaluator.parseLevel]
    exact ih.operand.bind fun _ => ih.rest

end Follows

/-! ### Nested calls -/

/-- The functions that have a frame. -/
inductive Frame
  | expr
  | ternary
  | level (l : Level)
  | unary
  | primary

def operandFrame (l : Level) : Frame :=
  match l.next with
  | some l => .level l
  | none => .unary

/-- Arguments, each with the comma behind it. -/
inductive Arguments : List (Lexeme ν) → Prop
  | nil : Arguments []
  | cons {ts us : List (Lexeme ν)} {e : Expr ν} {comma : Lexeme ν} (h : Derives .ternary ts e)
      (hcomma : comma.tok = .sym .comma) (hus : Arguments us) : Arguments (ts ++ comma :: us)

/-- A call of the function comes to a call that is nested so deep in it. -/
inductive Nested : Frame → ℕ → Input ν → Prop
  | here {f : Frame} {ts : Input ν} : Nested f 0 ts
  | expr {d : ℕ} {ts : Input ν} (h : Nested .ternary d ts) : Nested .expr (d + 1) ts
  | cond {d : ℕ} {ts : Input ν} (h : Nested (.level .or) d ts) : Nested .ternary (d + 1) ts
  | then' {d : ℕ} {cs rest : Input ν} {c : Expr ν} {question : Lexeme ν}
    (hc : Derives (.level .or) cs c)
      (hq : question.tok = .sym .question) (h : Nested .expr d rest) :
      Nested .ternary (d + 1) (cs ++ question :: rest)
  | otherwise {d : ℕ} {cs ts rest : Input ν} {c t : Expr ν} {question colon : Lexeme ν}
      (hc : Derives (.level .or) cs c) (hq : question.tok = .sym .question)
      (ht : Derives .ternary ts t) (hk : colon.tok = .sym .colon) (h : Nested .ternary d rest) :
      Nested .ternary (d + 1) (cs ++ question :: (ts ++ colon :: rest))
  | operand {d : ℕ} {l : Level} {ts : Input ν} (h : Nested (operandFrame l) d ts) :
      Nested (.level l) (d + 1) ts
  | right {d : ℕ} {l : Level} {ls rest : Input ν} {left : Expr ν} {o : Lexeme ν} {op : Op}
      (hl : Derives (.level l) ls left) (hop : l.op o.tok = some op)
      (h : Nested (operandFrame l) d rest) : Nested (.level l) (d + 1) (ls ++ o :: rest)
  | sign {d : ℕ} {t : Lexeme ν} {rest : Input ν} (ht : t.tok = .sym .bang ∨ t.tok = .sym .minus)
      (h : Nested .unary d rest) : Nested .unary (d + 1) (t :: rest)
  | primary {d : ℕ} {ts : Input ν} (hb : current ts ≠ .sym .bang) (hm : current ts ≠ .sym .minus)
      (h : Nested .primary d ts) : Nested .unary (d + 1) ts
  | parens {d : ℕ} {lp : Lexeme ν} {rest : Input ν} (hl : lp.tok = .sym .lparen)
      (h : Nested .expr d rest) : Nested .primary (d + 1) (lp :: rest)
  | aggregate {d : ℕ} {f lp : Lexeme ν} {rest : Input ν} {name : String} {func : AggFunc}
      (hf : f.tok = .ident name) (hfunc : AggFunc.ofName name = some func)
      (hl : lp.tok = .sym .lparen) (h : Nested .expr d rest) :
      Nested .primary (d + 1) (f :: lp :: rest)
  | argument {d : ℕ} {f lp : Lexeme ν} {us rest : Input ν} {name : String} {func : ElementFunc}
      (hf : f.tok = .ident name) (hfunc : ElementFunc.ofName name = some func)
      (hl : lp.tok = .sym .lparen) (hus : Arguments us) (hr : current (us ++ rest) ≠ .sym .rparen)
      (h : Nested .expr d rest) : Nested .primary (d + 1) (f :: lp :: (us ++ rest))

/-- A call, with the frame that it needs. -/
def call (n room : ℕ) (ts : Input ν) : Frame → Parsed (Expr ν × Input ν)
  | .expr => enter room fun room => enter room fun room => parseTernary n room ts
  | .ternary => enter room fun room => parseTernary n room ts
  | .level l => enter room fun room => parseLevel n room l ts
  | .unary => enter room fun room => parseUnary n room ts
  | .primary => enter room fun room => parsePrimary n room ts

/-! ### Where the stack is used up -/

section Stuck

variable {n room : ℕ} {ts : Input ν} {l : Level}

lemma bind_stuck {x : Parsed α} {f : α → Parsed β} (h : x >>= f = .error .recursionError) :
    x = .error .recursionError ∨ ∃ a, x = .ok a ∧ f a = .error .recursionError := by
  cases x with
  | error r =>
    cases h
    exact .inl rfl
  | ok a => exact .inr ⟨a, rfl, h⟩

lemma lower_ne (x : Except Raised α) : lower x ≠ .error .recursionError := by
  cases x with
  | error r => exact fun h => by cases h
  | ok a => exact fun h => by cases h

lemma lower_bind_stuck {x : Except Raised α} {f : α → Parsed β}
    (h : lower x >>= f = .error .recursionError) :
    ∃ a, x = .ok a ∧ f a = .error .recursionError := by
  rcases bind_stuck h with hx | ⟨a, hx, hf⟩
  · exact absurd hx (lower_ne x)
  · cases x with
    | error r => cases hx
    | ok b =>
      cases hx
      exact ⟨_, rfl, hf⟩

/-- What is returned on the stack is returned without it. -/
lemma Follows.ok {x : Parsed α} {y : Except Raised α} {a : α} (h : Follows x y) (hx : x = .ok a) :
    y = .ok a := by
  rcases h with h | h
  · rw [hx] at h
    cases h
  · cases y with
    | error r =>
      rw [hx] at h
      cases h
    | ok b =>
      rw [hx] at h
      cases h
      rfl

lemma expect_ok {s : Sym} {rest : Input ν} (hends : Ends ts) (h : expect s ts = .ok rest) :
    ∃ t, ts = t :: rest ∧ t.tok = .sym s ∧ Ends rest := by
  cases hc : check s ts with
  | true =>
    obtain ⟨t, us, rfl, ht, hus, hadv⟩ := hends.read (check_iff.mp hc) (by simp)
    rw [expect, hc, if_pos rfl, hadv] at h
    cases h
    exact ⟨t, rfl, ht, hus⟩
  | false =>
    rw [expect, hc] at h
    cases h

/-- What a ternary that was read leaves. -/
lemma ternary_ok {e : Expr ν} {rest : Input ν} (hends : Ends ts)
    (h : enter room (fun room => enter room fun room => parseTernary n room ts) = .ok (e, rest)) :
    Ends rest ∧ ∃ used, ts = used ++ rest ∧ Derives .ternary used e := by
  have hrun := (follows_enter_twice fun _ => (allFollow n).ternary).ok h
  have hsound := (sound n).ternary hends
  rwa [hrun] at hsound

/-- A call that finds no room comes to a call that is nested as deep as there is room. -/
structure AllNested (ν : Type) (n : ℕ) : Prop where
  ternary : ∀ {room} {ts : Input ν}, Ends ts → parseTernary n room ts = .error .recursionError →
    Nested .ternary (room + 1) ts
  level : ∀ {room l} {ts : Input ν}, Ends ts → parseLevel n room l ts = .error .recursionError →
    Nested (.level l) (room + 1) ts
  operand : ∀ {room l} {ts : Input ν}, Ends ts → parseOperand n room l ts = .error .recursionError →
    Nested (operandFrame l) room ts
  rest : ∀ {room l ls left} {ts : Input ν}, Ends ts → Derives (.level l) ls left →
    parseRest n room l left ts = .error .recursionError → Nested (.level l) (room + 1) (ls ++ ts)
  unary : ∀ {room} {ts : Input ν}, Ends ts → parseUnary n room ts = .error .recursionError →
    Nested .unary (room + 1) ts
  primary : ∀ {room} {ts : Input ν}, Ends ts → parsePrimary n room ts = .error .recursionError →
    Nested .primary (room + 1) ts
  args : ∀ {room} {ts : Input ν}, Ends ts → parseArgs n room ts = .error .recursionError →
    ∃ us rest, ts = us ++ rest ∧ Arguments us ∧ Nested .expr room rest

lemma nested_enter {f : Frame} {call : ℕ → Parsed α}
    (h : ∀ room, call room = .error .recursionError →
    Nested f (room + 1) ts) (hcall : enter room call = .error .recursionError) :
    Nested f room ts := by
  cases room with
  | zero => exact .here
  | succ room => exact h room hcall

lemma nested_expr (hn : AllNested ν n) (hends : Ends ts)
    (h : enter room (fun room => enter room fun room => parseTernary n room ts) =
      .error .recursionError) :
    Nested .expr room ts :=
  nested_enter (fun _ h => .expr (nested_enter (fun _ h => hn.ternary hends h) h)) h

lemma nested_ternary (hn : AllNested ν n) (hends : Ends ts)
    (h : parseTernary (n + 1) room ts = .error .recursionError) :
    Nested .ternary (room + 1) ts := by
  rw [parseTernary] at h
  rcases bind_stuck h with hstuck | ⟨⟨c, rest⟩, hrun, hthen⟩
  · exact .cond (nested_enter (fun _ h => hn.level hends h) hstuck)
  have hsound := (sound n).level (l := .or) hends
  rw [(follows_enter fun _ => (allFollow n).level).ok hrun] at hsound
  obtain ⟨hrest, cs, hcs, hc⟩ := hsound
  dsimp only at hthen
  split_ifs at hthen with hcheck
  swap
  · cases hthen
  obtain ⟨q, rest, rfl, hq, hrest, hadv⟩ := hrest.read (check_iff.mp hcheck) (by simp)
  rw [hadv] at hthen
  rw [hcs]
  rcases bind_stuck hthen with hstuck | ⟨⟨t, rest₁⟩, hrun, hcolon⟩
  · exact .then' hc hq (nested_expr hn hrest hstuck)
  obtain ⟨hrest₁, us, rfl, ht⟩ := ternary_ok hrest hrun
  obtain ⟨rest₂, hexpect, helse⟩ := lower_bind_stuck hcolon
  obtain ⟨k, rfl, hk, hrest₂⟩ := expect_ok hrest₁ hexpect
  rcases bind_stuck helse with hstuck | ⟨_, -, hend⟩
  · exact .otherwise hc hq ht hk (nested_enter (fun _ h => hn.ternary hrest₂ h) hstuck)
  · cases hend

lemma nested_operand (hn : AllNested ν n) (hends : Ends ts)
    (h : parseOperand (n + 1) room l ts = .error .recursionError) :
    Nested (operandFrame l) room ts := by
  rw [parseOperand] at h
  rw [operandFrame]
  cases hl : l.next with
  | some l' =>
    rw [hl] at h
    exact nested_enter (fun _ h => hn.level hends h) h
  | none =>
    rw [hl] at h
    exact nested_enter (fun _ h => hn.unary hends h) h

/-- What an operand that was read leaves. -/
lemma operand_ok {e : Expr ν} {rest : Input ν} (hends : Ends ts)
    (h : parseOperand n room l ts = .ok (e, rest)) :
    Ends rest ∧ ∃ used, ts = used ++ rest ∧ Derives (operandOf l) used e := by
  have hsound := (sound n).operand (l := l) hends
  rwa [(allFollow n).operand.ok h] at hsound

lemma nested_level (hn : AllNested ν n) (hends : Ends ts)
    (h : parseLevel (n + 1) room l ts = .error .recursionError) :
    Nested (.level l) (room + 1) ts := by
  rw [parseLevel] at h
  rcases bind_stuck h with hstuck | ⟨⟨left, rest⟩, hrun, hloop⟩
  · exact .operand (hn.operand hends hstuck)
  · obtain ⟨hrest, ls, hls, hl⟩ := operand_ok hends hrun
    rw [hls]
    exact hn.rest hrest (.operand hl) hloop

lemma nested_rest {ls : List (Lexeme ν)} {left : Expr ν} (hn : AllNested ν n) (hends : Ends ts)
    (hl : Derives (.level l) ls left) (h : parseRest (n + 1) room l left ts =
      .error .recursionError) :
    Nested (.level l) (room + 1) (ls ++ ts) := by
  rw [parseRest] at h
  cases hop : l.op (current ts) with
  | none =>
    rw [hop] at h
    cases h
  | some op =>
    rw [hop] at h
    obtain ⟨o, rest, rfl, ho, hrest, hadv⟩ := hends.read rfl (Level.op_ne_eof hop)
    rw [← ho] at hop
    rw [hadv] at h
    rcases bind_stuck h with hstuck | ⟨⟨right, rest₁⟩, hrun, hloop⟩
    · exact .right hl hop (hn.operand hrest hstuck)
    · obtain ⟨hrest₁, rs, hrs, hr⟩ := operand_ok hrest hrun
      have hnested := hn.rest hrest₁ (.binary hop hl hr) hloop
      rw [hrs]
      rwa [List.append_assoc, List.cons_append] at hnested

lemma nested_unary (hn : AllNested ν n) (hends : Ends ts)
    (h : parseUnary (n + 1) room ts = .error .recursionError) : Nested .unary (room + 1) ts := by
  have hsign : ∀ {s : Sym} {f : Expr ν × Input ν → Parsed (Expr ν × Input ν)}, check s ts = true →
      s = .bang ∨ s = .minus → (∀ a, f a ≠ .error .recursionError) →
      (enter room (fun room => parseUnary n room (advance ts)) >>= f) = .error .recursionError →
      Nested .unary (room + 1) ts := by
    intro s f hs hsign hf h
    obtain ⟨t, rest, rfl, ht, hrest, hadv⟩ := hends.read (check_iff.mp hs) (by simp)
    rw [hadv] at h
    rcases bind_stuck h with h | ⟨a, -, h⟩
    · refine .sign ?_ (nested_enter (fun _ h => hn.unary hrest h) h)
      rcases hsign with rfl | rfl
      · exact .inl ht
      · exact .inr ht
    · exact absurd h (hf a)
  rw [parseUnary] at h
  split_ifs at h with hb hm
  · exact hsign hb (.inl rfl) (fun _ h => by cases h) h
  · exact hsign hm (.inr rfl) (fun _ h => by cases h) h
  · exact .primary (fun hcur => hb (check_iff.mpr hcur)) (fun hcur => hm (check_iff.mpr hcur))
      (nested_enter (fun _ h => hn.primary hends h) h)

lemma nested_args (hn : AllNested ν n) (hends : Ends ts)
    (h : parseArgs (n + 1) room ts = .error .recursionError) :
    ∃ us rest, ts = us ++ rest ∧ Arguments us ∧ Nested .expr room rest := by
  rw [parseArgs] at h
  rcases bind_stuck h with hstuck | ⟨⟨e, rest⟩, hrun, hmore⟩
  · exact ⟨[], ts, rfl, .nil, nested_expr hn hends hstuck⟩
  obtain ⟨hrest, ps, hps, he⟩ := ternary_ok hends hrun
  dsimp only at hmore
  split_ifs at hmore with hcheck
  swap
  · cases hmore
  obtain ⟨comma, rest, rfl, hcomma, hrest, hadv⟩ := hrest.read (check_iff.mp hcheck) (by simp)
  rw [hadv] at hmore
  rcases bind_stuck hmore with hstuck | ⟨_, -, hend⟩
  · obtain ⟨us, rest', rfl, hus, hnested⟩ := hn.args hrest hstuck
    refine ⟨ps ++ comma :: us, rest', ?_, .cons he hcomma hus, hnested⟩
    rw [hps, List.append_assoc, List.cons_append]
  · cases hend

/-- The arguments of a call of a function of an element. -/
lemma nested_call (hn : AllNested ν n) {f : Lexeme ν} {name : String} {func : ElementFunc}
    (hf : f.tok = .ident name) (hfunc : ElementFunc.ofName name = some func) (hends : Ends ts)
    (h : (do
      let ts ← lower (expect .lparen ts)
      let (args, ts) ← if check .rparen ts then pure ([], ts) else parseArgs n room ts
      let ts ← lower (expect .rparen ts)
      lower (elementCall name func args ts)) = .error .recursionError) :
    Nested .primary (room + 1) (f :: ts) := by
  obtain ⟨rest, hexpect, hargs⟩ := lower_bind_stuck h
  obtain ⟨lp, rfl, hl, hrest⟩ := expect_ok hends hexpect
  have hlast : ∀ x : List (Expr ν) × Input ν, (lower (expect .rparen x.2) >>= fun ts =>
      lower (elementCall name func x.1 ts)) ≠ .error .recursionError := by
    intro x hx
    obtain ⟨_, -, hx⟩ := lower_bind_stuck hx
    exact lower_ne _ hx
  dsimp only at hargs
  split_ifs at hargs with hcheck
  · exact absurd hargs (hlast ([], rest))
  · rcases bind_stuck hargs with hstuck | ⟨x, -, hend⟩
    · obtain ⟨us, rest', rfl, hus, hnested⟩ := hn.args hrest hstuck
      exact .argument hf hfunc hl hus (fun hcur => hcheck (check_iff.mpr hcur)) hnested
    · exact absurd hend (hlast x)

lemma nested_primary (hn : AllNested ν n) (hends : Ends ts)
    (h : parsePrimary (n + 1) room ts = .error .recursionError) :
    Nested .primary (room + 1) ts := by
  rw [parsePrimary] at h
  cases hcur : current ts with
  | number value =>
    rw [hcur] at h
    cases h
  | string value =>
    rw [hcur] at h
    cases h
  | eof =>
    rw [hcur] at h
    exact absurd h (lower_ne _)
  | sym s =>
    rw [hcur] at h
    cases s with
    | lparen =>
      obtain ⟨lp, rest, rfl, hl, hrest, hadv⟩ := hends.read hcur (by simp)
      dsimp only at h
      rw [hadv] at h
      rcases bind_stuck h with h | ⟨_, -, h⟩
      · exact .parens hl (nested_expr hn hrest h)
      · obtain ⟨_, -, h⟩ := lower_bind_stuck h
        cases h
    | _ => exact absurd h (lower_ne _)
  | ident name =>
    rw [hcur] at h
    obtain ⟨f, rest, rfl, hf, hrest, hadv⟩ := hends.read hcur (by simp)
    dsimp only at h
    rw [hadv] at h
    split_ifs at h
    · exact absurd h (lower_ne _)
    · obtain ⟨_, -, h⟩ := lower_bind_stuck h
      cases h
    · cases hagg : AggFunc.ofName name with
      | some func =>
        rw [hagg] at h
        obtain ⟨rest₁, hexpect, hcall⟩ := lower_bind_stuck h
        obtain ⟨lp, rfl, hl, hrest₁⟩ := expect_ok hrest hexpect
        rcases bind_stuck hcall with hstuck | ⟨_, -, hlast⟩
        · exact .aggregate hf hagg hl (nested_expr hn hrest₁ hstuck)
        · obtain ⟨_, -, hend⟩ := lower_bind_stuck hlast
          cases hend
      | none =>
        rw [hagg] at h
        cases hfunc : ElementFunc.ofName name with
        | none =>
          rw [hfunc] at h
          exact absurd h (lower_ne _)
        | some func =>
          rw [hfunc] at h
          exact nested_call hn hf hfunc hrest h

/-- **What finds no room is nested that deep.** -/
lemma allNested (n : ℕ) : AllNested ν n := by
  induction n with
  | zero =>
    constructor
    all_goals
      simp [parseTernary, parseLevel, parseOperand, parseRest, parseUnary, parsePrimary, parseArgs]
  | succ n ih =>
    exact ⟨nested_ternary ih, nested_level ih, nested_operand ih, nested_rest ih, nested_unary ih,
      nested_primary ih, nested_args ih⟩

end Stuck

/-! ### Calls that are nested too deep -/

section Deep

variable {n room : ℕ} {ts rest : Input ν} {l : Level}

/-- What is behind a token that is not the end. -/
lemma Ends.behind (us : List (Lexeme ν)) {t : Lexeme ν} (h : Ends (us ++ t :: rest))
    (ht : t.tok ≠ .eof) : Ends rest ∧ rest ≠ [] := by
  obtain ⟨body, last, heq, hlast, hbody⟩ := h
  rcases List.eq_nil_or_concat rest with rfl | ⟨rest', x, rfl⟩
  · obtain ⟨-, hsame⟩ := List.append_inj' heq rfl
    cases hsame
    exact absurd hlast ht
  · rw [List.concat_eq_append] at heq ⊢
    have heq' : (us ++ t :: rest') ++ [x] = body ++ [last] := by
      rw [← heq, List.append_assoc, List.cons_append]
    obtain ⟨rfl, hsame⟩ := List.append_inj' heq' rfl
    cases hsame
    exact ⟨⟨rest', _, rfl, hlast, fun y hy => hbody y (by simp [hy])⟩, by simp⟩

lemma sym_ne_eof {t : Lexeme ν} {s : Sym} (h : t.tok = .sym s) : t.tok ≠ .eof := by
  rw [h]
  exact fun h => by cases h

lemma Arguments.behind {us : List (Lexeme ν)} (hus : Arguments us) (hends : Ends (us ++ rest))
    (hne : us ++ rest ≠ []) : Ends rest ∧ rest ≠ [] := by
  induction hus with
  | nil => exact ⟨hends, hne⟩
  | cons hd hcomma hus ih =>
    rw [List.append_assoc, List.cons_append] at hends
    obtain ⟨hmore, hne⟩ := Ends.behind _ hends (sym_ne_eof hcomma)
    exact ih hmore hne

/-- What is stuck, or has come to something, is stuck if that is. -/
lemma stuck_bind {x : Parsed α} {a : α} {f : α → Parsed β}
    (h : x = .error .recursionError ∨ x = .ok a)
    (hf : f a = .error .recursionError) : x >>= f = .error .recursionError := by
  rcases h with rfl | rfl
  · rfl
  · exact hf

lemma Follows.stuck_or {x : Parsed α} {y : Except Raised α} {a : α} (h : Follows x y)
    (hy : y = .ok a) : x = .error .recursionError ∨ x = .ok a := by
  subst hy
  exact h

/-- Fuel that is enough for a function. -/
def rank : Frame → ℕ
  | .expr | .ternary => 14
  | .level l => levelRank l
  | .unary => 1
  | .primary => 0

lemma rank_operandFrame (l : Level) : rank (operandFrame l) + 2 ≤
    levelRank l := by cases l <;> decide

lemma parseOperand_eq : parseOperand (n + 1) room l ts = call n room ts (operandFrame l) := by
  rw [parseOperand, operandFrame]
  cases l.next <;> rfl

/-- A level comes to its loop with the tree so far, or is stuck before. -/
lemma loop_of_derives {c : Category} {used : List (Lexeme ν)} {left : Expr ν}
    (h : Derives c used left) (hc : c = .level l) (hne : rest ≠ []) (hloose : Loose l rest)
    (hn : 20 * used.length + levelRank l < n) :
    parseLevel n room l (used ++ rest) = .error .recursionError ∨
      ∃ m, n ≤ m + used.length ∧ parseLevel n room l (used ++ rest) =
        parseRest m room l left rest := by
  induction h generalizing rest n with
  | operand h =>
    cases hc
    obtain ⟨m, rfl⟩ := Nat.exists_eq_succ_of_ne_zero (show n ≠ 0 by omega)
    have hpos := List.length_pos_iff.mpr h.ne_nil
    have hrun := ((allFollow m).operand : Follows (parseOperand m room _ _) _).stuck_or
      (h.completes.operand hne hloose (by omega))
    rw [parseLevel]
    rcases hrun with hrun | hrun
    · rw [hrun]
      exact .inl rfl
    · rw [hrun]
      exact .inr ⟨m, by omega, rfl⟩
  | @binary l' ls rs left right o op hop hl hr ihl ihr =>
    cases hc
    rw [List.length_append, List.length_cons] at hn ⊢
    have hends : Loose l (o :: (rs ++ rest)) := fun l' hl' =>
      op_eq_none hop (fun h => by rw [h] at hl'; omega)
    rw [List.append_assoc, List.cons_append]
    rcases ihl (n := n) rfl (by simp) hends (by omega) with hstuck | ⟨m, hm, heq⟩
    · exact .inl hstuck
    · obtain ⟨k, rfl⟩ := Nat.exists_eq_succ_of_ne_zero (show m ≠ 0 by omega)
      have hcur : l.op (current (o :: (rs ++ rest))) = some op := hop
      have hrun := ((allFollow k).operand : Follows (parseOperand k room _ _) _).stuck_or
        (hr.completes.operand hne hloose (by omega))
      rw [heq, parseRest]
      simp only [hcur]
      rw [advance_cons o (by simp [hne])]
      rcases hrun with hrun | hrun
      · rw [hrun]
        exact .inl rfl
      · rw [hrun]
        exact .inr ⟨k, by omega, rfl⟩
  | _ => cases hc

lemma ternary_of_stuck (h : call n room ts (.level .or) = .error .recursionError) :
    parseTernary (n + 1) room ts = .error .recursionError := by
  have h : enter room (fun room => parseLevel n room .or ts) = .error .recursionError := h
  rw [parseTernary, h]
  rfl

/-- The condition has been read, up to the question mark. -/
lemma ternary_of_question {cs : List (Lexeme ν)} {c : Expr ν} {question : Lexeme ν}
    (hc : Derives (.level .or) cs c) (hq : question.tok = .sym .question) (hne : rest ≠ [])
    (hn : 20 * cs.length + 14 < n + 1)
    (h : (do
      let (then', ts) ← enter room fun room => enter room fun room => parseTernary n room rest
      let ts ← lower (expect .colon ts)
      let (otherwise, ts) ← enter room fun room => parseTernary n room ts
      return (Expr.ternary c then' otherwise, ts)) = .error .recursionError) :
    parseTernary (n + 1) room (cs ++ question :: rest) = .error .recursionError := by
  have hop : ∀ l : Level, l.op (current (question :: rest)) = none := fun l => by
    show l.op question.tok = none
    rw [hq]
    exact op_none_of_levelOf rfl l
  have hrun : Evaluator.parseLevel n .or (cs ++ question :: rest) = .ok (c, question :: rest) :=
    hc.completes.level (by simp) (fun l _ => hop l) (hop .or) (by simp only [levelRank]; omega)
  rw [parseTernary]
  refine stuck_bind ((follows_enter fun _ => (allFollow n).level).stuck_or hrun) ?_
  simp only [check_cons hq, if_true, advance_cons question hne]
  exact h

/-- The arguments before the one that is nested too deep are read. -/
lemma args_of_nested {us : List (Lexeme ν)} (hus : Arguments us) (hne : rest ≠ [])
    (hn : 20 * (us ++ rest).length + 15 < n)
    (h : ∀ n, 20 * rest.length + 14 < n → call n room rest .expr = .error .recursionError) :
    parseArgs n room (us ++ rest) = .error .recursionError := by
  induction hus generalizing n with
  | nil =>
    obtain ⟨m, rfl⟩ := Nat.exists_eq_succ_of_ne_zero (show n ≠ 0 by omega)
    rw [List.nil_append] at hn ⊢
    have hstuck : enter room (fun room => enter room fun room => parseTernary m room rest) =
        .error .recursionError := h m (by omega)
    rw [parseArgs, hstuck]
    rfl
  | @cons ps us e comma hd hcomma hus ih =>
    obtain ⟨m, rfl⟩ := Nat.exists_eq_succ_of_ne_zero (show n ≠ 0 by omega)
    simp only [List.length_append, List.length_cons] at hn
    have hrun : Evaluator.parseTernary m (ps ++ comma :: (us ++ rest)) =
        .ok (e, comma :: (us ++ rest)) :=
      hd.completes.before hcomma rfl (by decide) (by omega)
    rw [parseArgs, List.append_assoc, List.cons_append]
    refine stuck_bind ((follows_enter_twice fun _ => (allFollow m).ternary).stuck_or hrun) ?_
    simp only [check_cons hcomma, if_true, advance_cons comma (show us ++ rest ≠ [] by simp [hne])]
    have hmore : parseArgs m room (us ++ rest) = .error .recursionError :=
      ih (by rw [List.length_append]; omega)
    rw [hmore]
    rfl

/-- **What is nested too deep finds no room.** -/
lemma Nested.stuck {f : Frame} (h : Nested f room ts) (hends : Ends ts)
    (hn : 20 * ts.length + rank f < n) : call n room ts f = .error .recursionError := by
  induction h generalizing n with
  | @here f ts => cases f <;> rfl
  | expr h ih => exact ih hends hn
  | @cond d ts h ih =>
    obtain ⟨m, rfl⟩ := Nat.exists_eq_succ_of_ne_zero (show n ≠ 0 by omega)
    exact ternary_of_stuck (ih hends (by simp only [rank, levelRank] at hn ⊢; omega))
  | @then' d cs rest c question hc hq h ih =>
    obtain ⟨m, rfl⟩ := Nat.exists_eq_succ_of_ne_zero (show n ≠ 0 by omega)
    obtain ⟨hrest, hne⟩ := Ends.behind _ hends (sym_ne_eof hq)
    simp only [List.length_append, List.length_cons, rank] at hn
    refine ternary_of_question hc hq hne (by omega) ?_
    have hstuck : enter d (fun room => enter room fun room => parseTernary m room rest) =
        .error .recursionError :=
      ih hrest (by simp only [rank]; omega)
    rw [hstuck]
    rfl
  | @otherwise d cs ts rest c t question colon hc hq ht hk h ih =>
    obtain ⟨m, rfl⟩ := Nat.exists_eq_succ_of_ne_zero (show n ≠ 0 by omega)
    obtain ⟨hcolon, -⟩ := Ends.behind _ hends (sym_ne_eof hq)
    obtain ⟨hrest, hne⟩ := Ends.behind _ hcolon (sym_ne_eof hk)
    simp only [List.length_append, List.length_cons, rank] at hn
    refine ternary_of_question hc hq (by simp) (by omega) ?_
    have hrun : Evaluator.parseTernary m (ts ++ colon :: rest) = .ok (t, colon :: rest) :=
      ht.completes.before hk rfl (by decide) (by omega)
    refine stuck_bind ((follows_enter_twice fun _ => (allFollow m).ternary).stuck_or hrun) ?_
    dsimp only
    have hstuck : enter d (fun room => parseTernary m room rest) = .error .recursionError :=
      ih hrest (by simp only [rank]; omega)
    rw [expect_cons hk hne]
    show (enter d (fun room => parseTernary m room rest) >>= _) = _
    rw [hstuck]
    rfl
  | @operand d l ts h ih =>
    obtain ⟨m, rfl⟩ := Nat.exists_eq_succ_of_ne_zero (show n ≠ 0 by omega)
    obtain ⟨k, rfl⟩ := Nat.exists_eq_succ_of_ne_zero (show m ≠ 0 by
      have := rank_operandFrame l
      simp only [rank] at hn
      omega)
    have hstuck : parseOperand (k + 1) d l ts = .error .recursionError := by
      rw [parseOperand_eq]
      exact ih hends (by have := rank_operandFrame l; simp only [rank] at hn; omega)
    show parseLevel (k + 1 + 1) d l ts = _
    rw [parseLevel, hstuck]
    rfl
  | @right d l ls rest left o op hl hop h ih =>
    obtain ⟨hrest, hne⟩ := Ends.behind _ hends (Level.op_ne_eof hop)
    simp only [List.length_append, List.length_cons, rank] at hn
    have hloose : Loose l (o :: rest) := fun l' hl' =>
      op_eq_none hop (fun h => by rw [h] at hl'; omega)
    show parseLevel n d l (ls ++ o :: rest) = _
    rcases loop_of_derives (n := n) hl rfl (by simp) hloose (by omega) with hstuck | ⟨m, hm, heq⟩
    · exact hstuck
    · obtain ⟨k, rfl⟩ := Nat.exists_eq_succ_of_ne_zero (show m ≠ 0 by omega)
      obtain ⟨j, rfl⟩ := Nat.exists_eq_succ_of_ne_zero (show k ≠ 0 by omega)
      have hcur : l.op (current (o :: rest)) = some op := hop
      have hstuck : parseOperand (j + 1) d l rest = .error .recursionError := by
        rw [parseOperand_eq]
        exact ih hrest (by have := rank_operandFrame l; omega)
      rw [heq, parseRest]
      simp only [hcur]
      rw [advance_cons o hne, hstuck]
      rfl
  | @sign d t rest ht h ih =>
    obtain ⟨m, rfl⟩ := Nat.exists_eq_succ_of_ne_zero (show n ≠ 0 by omega)
    obtain ⟨hrest, hne⟩ : Ends rest ∧ rest ≠ [] :=
      Ends.behind [] hends (ht.elim sym_ne_eof sym_ne_eof)
    simp only [List.length_cons, rank] at hn
    have hstuck : enter d (fun room => parseUnary m room rest) = .error .recursionError :=
      ih hrest (by simp only [rank]; omega)
    show parseUnary (m + 1) d (t :: rest) = _
    rw [parseUnary, advance_cons t hne]
    rcases ht with ht | ht
    · rw [if_pos (check_cons ht), hstuck]
      rfl
    · rw [check_cons_ne ht (by decide), if_neg (by decide), if_pos (check_cons ht), hstuck]
      rfl
  | @primary d ts hb hm h ih =>
    obtain ⟨m, rfl⟩ := Nat.exists_eq_succ_of_ne_zero (show n ≠ 0 by omega)
    simp only [rank] at hn
    show parseUnary (m + 1) d ts = _
    rw [parseUnary, if_neg fun hc => hb (check_iff.mp hc), if_neg fun hc => hm (check_iff.mp hc)]
    exact ih hends (by simp only [rank]; omega)
  | @parens d lp rest hl h ih =>
    obtain ⟨m, rfl⟩ := Nat.exists_eq_succ_of_ne_zero (show n ≠ 0 by omega)
    obtain ⟨hrest, hne⟩ : Ends rest ∧ rest ≠ [] := Ends.behind [] hends (sym_ne_eof hl)
    simp only [List.length_cons, rank] at hn
    have hstuck : enter d (fun room => enter room fun room => parseTernary m room rest) =
        .error .recursionError :=
      ih hrest (by simp only [rank]; omega)
    have hcur : current (lp :: rest) = .sym .lparen := hl
    show parsePrimary (m + 1) d (lp :: rest) = _
    rw [parsePrimary, hcur]
    simp only [advance_cons lp hne, hstuck]
    rfl
  | @aggregate d f lp rest name func hf hfunc hl h ih =>
    obtain ⟨m, rfl⟩ := Nat.exists_eq_succ_of_ne_zero (show n ≠ 0 by omega)
    obtain ⟨hrest, hne⟩ : Ends rest ∧ rest ≠ [] := Ends.behind [f] hends (sym_ne_eof hl)
    simp only [List.length_cons, rank] at hn
    obtain ⟨hnt, hncount⟩ := AggFunc.ofName_ne hfunc
    have hstuck : enter d (fun room => enter room fun room => parseTernary m room rest) =
        .error .recursionError :=
      ih hrest (by simp only [rank]; omega)
    have hcur : current (f :: lp :: rest) = .ident name := hf
    show parsePrimary (m + 1) d (f :: lp :: rest) = _
    rw [parsePrimary, hcur]
    simp only [if_neg hnt, if_neg hncount, hfunc, advance_cons f (show lp :: rest ≠ [] by simp),
      expect_cons hl hne]
    show (enter d (fun room => enter room fun room => parseTernary m room rest) >>= _) = _
    rw [hstuck]
    rfl
  | @argument d f lp us rest name func hf hfunc hl hus hr h ih =>
    obtain ⟨m, rfl⟩ := Nat.exists_eq_succ_of_ne_zero (show n ≠ 0 by omega)
    obtain ⟨hargs, hne⟩ : Ends (us ++ rest) ∧ us ++ rest ≠ [] :=
      Ends.behind [f] hends (sym_ne_eof hl)
    have hrest : Ends rest ∧ rest ≠ [] := hus.behind hargs hne
    simp only [List.length_cons, List.length_append, rank] at hn
    obtain ⟨hnt, hncount, hagg⟩ := ElementFunc.ofName_ne hfunc
    have hstuck : parseArgs m d (us ++ rest) = .error .recursionError :=
      args_of_nested hus hrest.2 (by rw [List.length_append]; omega) fun k hk =>
        ih hrest.1 (by simp only [rank]; omega)
    have hcur : current (f :: lp :: (us ++ rest)) = .ident name := hf
    have hcheck : check .rparen (us ++ rest) = false :=
      Bool.eq_false_iff.mpr fun hc => hr (check_iff.mp hc)
    show parsePrimary (m + 1) d (f :: lp :: (us ++ rest)) = _
    rw [parsePrimary, hcur]
    simp only [if_neg hnt, if_neg hncount, hagg, hfunc,
      advance_cons f (show lp :: (us ++ rest) ≠ [] by simp), expect_cons hl hne]
    show (if check .rparen (us ++ rest) = true then _ else parseArgs m d (us ++ rest) >>= _) = _
    rw [hcheck, if_neg (by decide), hstuck]
    rfl

end Deep

/-! ### Programs -/

section Programs

variable {room : ℕ} {ts : List (Lexeme ν)} {last : Lexeme ν}

lemma parseProgram_follows (room : ℕ) (ts : Input ν) :
    Follows (parseProgram room ts) (Evaluator.parseProgram ts) := by
  rw [parseProgram, Evaluator.parseProgram]
  refine (follows_enter_twice fun _ => (allFollow _).ternary).bind ?_
  rintro ⟨e, rest⟩
  dsimp only
  cases current rest with
  | eof => exact follows_pure
  | _ => exact follows_lower

/-- **When there is no room.** -/
lemma parseProgram_stuck_iff (hts : ∀ t ∈ ts, t.tok ≠ .eof) (hlast : last.tok = .eof) :
    parseProgram room (ts ++ [last]) = .error .recursionError ↔
      Nested .expr room (ts ++ [last]) := by
  have hends : Ends (ts ++ [last]) := ⟨ts, last, rfl, hlast, hts⟩
  rw [parseProgram]
  constructor
  · intro h
    rcases bind_stuck h with h | ⟨⟨e, rest⟩, -, h⟩
    · exact nested_expr (allNested _) hends h
    · dsimp only at h
      cases hcur : current rest with
      | eof =>
        rw [hcur] at h
        cases h
      | _ =>
        rw [hcur] at h
        exact absurd h (lower_ne _)
  · intro h
    have hstuck : enter room (fun room => enter room fun room =>
        parseTernary (fuelFor (ts ++ [last])) room (ts ++ [last])) = .error .recursionError :=
      h.stuck hends (by simp only [rank, fuelFor]; omega)
    rw [hstuck]
    rfl

end Programs

/-- **When the parser accepts exactly the grammar.** For every sequence of tokens and every room on
the stack: it returns the one tree that the grammar derives, or raises a parse error if there is
none, exactly if no call is nested so deep that there is no room for it. -/
theorem parseProgram_within_iff (room : ℕ) (ts : List (Lexeme ν)) (hts : ∀ t ∈ ts, t.tok ≠ .eof)
    (last : Lexeme ν) (hlast : last.tok = .eof) :
    ((∀ e, parseProgram room (ts ++ [last]) = .ok e ↔ Derives .ternary ts e) ∧
      ((∃! e, Derives .ternary ts e) ∨
        ∃ message, parseProgram room (ts ++ [last]) = .error (.raised (.parseError message)))) ↔
      ¬ Nested .expr room (ts ++ [last]) := by
  rw [← parseProgram_stuck_iff hts hlast]
  obtain ⟨hiff, hcases⟩ := parseProgram_iff ts hts last hlast
  constructor
  · rintro ⟨hparse, ⟨e, he, -⟩ | ⟨message, hmessage⟩⟩ hstuck
    · rw [(hparse e).mpr he] at hstuck
      cases hstuck
    · rw [hmessage] at hstuck
      cases hstuck
  · intro hroom
    have heq : parseProgram room (ts ++ [last]) = lower (Evaluator.parseProgram (ts ++ [last])) :=
      (parseProgram_follows room (ts ++ [last])).resolve_left hroom
    refine ⟨fun e => ?_, hcases.imp_right ?_⟩
    · rw [← hiff, heq]
      cases Evaluator.parseProgram (ts ++ [last]) with
      | ok e' => exact ⟨fun h => congrArg Except.ok (Except.ok.inj h),
        fun h => congrArg Except.ok (Except.ok.inj h)⟩
      | error r => exact ⟨fun h => (by cases h), fun h => (by cases h)⟩
    · rintro ⟨message, hmessage⟩
      refine ⟨message, ?_⟩
      rw [heq, hmessage]
      rfl

/-- A number in so many parentheses. -/
def parenthesized (value : ℕ) : ℕ → List (Lexeme ℕ)
  | 0 => [⟨.number value, ['1']⟩]
  | n + 1 => ⟨.sym .lparen, ['(']⟩ :: (parenthesized value n ++ [⟨.sym .rparen, [')']⟩])

lemma derives_parenthesized (value n : ℕ) : Derives .ternary (parenthesized value n)
    (.num value) := by
  have hup : ∀ {ts : List (Lexeme ℕ)} {e : Expr ℕ}, Derives .primary ts e →
      Derives .ternary ts e := fun h =>
    .cond (.operand (l := .or) (.operand (l := .and)
      (.operand (l := .equality) (.operand (l := .relational)
      (.operand (l := .additive) (.operand (l := .multiplicative) (.primary h)))))))
  induction n with
  | zero => exact hup (.number rfl)
  | succ n ih => exact hup (.parens rfl rfl ih)

/-- Ten frames for each parenthesis. -/
lemma nested_parenthesized (value n : ℕ) (rest : Input ℕ) :
    Nested .expr (10 * n) (parenthesized value n ++ rest) := by
  induction n generalizing rest with
  | zero => exact .here
  | succ n ih =>
    have hparens : Nested .primary (10 * n + 1) (parenthesized value (n + 1) ++ rest) := by
      rw [parenthesized, List.cons_append, List.append_assoc]
      exact .parens rfl (ih _)
    exact .expr (.cond (.operand (l := .or) (.operand (l := .and) (.operand (l := .equality)
      (.operand (l := .relational) (.operand (l := .additive) (.operand (l := .multiplicative)
        (.primary (by simp [parenthesized, current])
          (by simp [parenthesized, current]) hparens))))))))

lemma parenthesized_ne_eof (value n : ℕ) : ∀ t ∈ parenthesized value n, t.tok ≠ .eof := by
  induction n with
  | zero => exact List.forall_mem_singleton.mpr (by simp)
  | succ n ih =>
    refine List.forall_mem_cons.mpr ⟨by simp, fun t ht => ?_⟩
    rcases List.mem_append.mp ht with ht | ht
    · exact ih t ht
    · obtain rfl := List.mem_singleton.mp ht
      simp

/-- Whatever room there is, some sentence of the grammar needs more. -/
lemma sentence_needs_more (room : ℕ) : Derives .ternary (parenthesized 1 room) (.num 1) ∧
    Nested .expr (10 * room) (parenthesized 1 room ++ [⟨.eof, []⟩]) :=
  ⟨derives_parenthesized 1 room, nested_parenthesized 1 room _⟩

/-- A hundred parentheses around a number are a sentence of the grammar, and need a thousand
frames. -/
theorem parseProgram_hundred_parentheses : Derives .ternary (parenthesized 1 100) (.num 1) ∧
    parseProgram 1000 (parenthesized 1 100 ++ [⟨.eof, []⟩]) = .error .recursionError :=
  ⟨derives_parenthesized 1 100,
    (parseProgram_stuck_iff (parenthesized_ne_eof 1 100) rfl).mpr (nested_parenthesized 1 100 _)⟩

/-- Two of them are read on a small stack. -/
theorem parseProgram_within_two :
    (∀ e, parseProgram 40 (parenthesized 1 2 ++ [⟨.eof, []⟩]) = .ok e ↔
      Derives .ternary (parenthesized 1 2) e) ∧
      parseProgram 40 (parenthesized 1 2 ++ [⟨.eof, []⟩]) = .ok (.num 1) := by
  have hrun : parseProgram 40 (parenthesized 1 2 ++ [⟨.eof, []⟩]) = .ok (.num 1) := by
    with_unfolding_all rfl
  have hroom : ¬ Nested .expr 40 (parenthesized 1 2 ++ [⟨.eof, []⟩]) := by
    rw [← parseProgram_stuck_iff (parenthesized_ne_eof 1 2) rfl, hrun]
    exact fun h => by cases h
  exact ⟨((parseProgram_within_iff 40 _ (parenthesized_ne_eof 1 2) ⟨.eof, []⟩ rfl).mpr hroom).1,
    hrun⟩

end OsmParquet.EvaluatorNesting
