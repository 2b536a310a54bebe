import OsmParquet.Evaluator

/-!
The grammar of expressions, and that the parser accepts exactly it.

The grammar is a relation between tokens and trees, with one category for each level of binary
operators; a level is left recursive, which is what makes its operators associate to the left. What
the parser returns is derived by the grammar, and what the grammar derives the parser returns, so
that a sentence has one tree. Otherwise it raises a parse error: it never runs out of calls.
-/

namespace OsmParquet.EvaluatorGrammar

open OsmParquet.Evaluator

variable {ν : Type}

/-! ### The grammar -/

inductive Category
  | ternary
  | level (l : Level)
  | unary
  | primary

/-- The category of the operands of a level. -/
def operandOf (l : Level) : Category :=
  match l.next with
  | some l => .level l
  | none => .unary

/-- Lists of tokens with commas between them. -/
inductive Separated : List (List (Lexeme ν)) → List (Lexeme ν) → Prop
  | none : Separated [] []
  | one (x : List (Lexeme ν)) : Separated [x] x
  | more {x y rest : List (Lexeme ν)} {xs : List (List (Lexeme ν))} {comma : Lexeme ν}
      (hcomma : comma.tok = .sym .comma) (h : Separated (y :: xs) rest) :
      Separated (x :: y :: xs) (x ++ comma :: rest)

inductive Derives : Category → List (Lexeme ν) → Expr ν → Prop
  | cond {ts : List (Lexeme ν)} {e : Expr ν} (h : Derives (.level .or) ts e) : Derives .ternary ts e
  | ternary {cs ts os : List (Lexeme ν)} {c t o : Expr ν} {question colon : Lexeme ν}
      (hq : question.tok = .sym .question) (hk : colon.tok = .sym .colon)
      (hc : Derives (.level .or) cs c) (ht : Derives .ternary ts t) (ho : Derives .ternary os o) :
      Derives .ternary (cs ++ question :: (ts ++ colon :: os)) (.ternary c t o)
  | operand {l : Level} {ts : List (Lexeme ν)} {e : Expr ν} (h : Derives (operandOf l) ts e) :
      Derives (.level l) ts e
  | binary {l : Level} {ls rs : List (Lexeme ν)} {left right : Expr ν} {o : Lexeme ν} {op : Op}
      (hop : l.op o.tok = some op) (hl : Derives (.level l) ls left)
      (hr : Derives (operandOf l) rs right) :
      Derives (.level l) (ls ++ o :: rs) (.binOp op left right)
  | not {ts : List (Lexeme ν)} {e : Expr ν} {bang : Lexeme ν} (hb : bang.tok = .sym .bang)
      (h : Derives .unary ts e) : Derives .unary (bang :: ts) (.unary .not e)
  | neg {ts : List (Lexeme ν)} {e : Expr ν} {minus : Lexeme ν} (hm : minus.tok = .sym .minus)
      (h : Derives .unary ts e) : Derives .unary (minus :: ts) (.unary .neg e)
  | primary {ts : List (Lexeme ν)} {e : Expr ν} (h : Derives .primary ts e) : Derives .unary ts e
  | number {t : Lexeme ν} {value : ν} (ht : t.tok = .number value) :
    Derives .primary [t] (.num value)
  | string {t : Lexeme ν} {value : String} (ht : t.tok = .string value) :
      Derives .primary [t] (.str value)
  | parens {ts : List (Lexeme ν)} {e : Expr ν} {lp rp : Lexeme ν} (hl : lp.tok = .sym .lparen)
      (hr : rp.tok = .sym .rparen) (h : Derives .ternary ts e) :
      Derives .primary (lp :: (ts ++ [rp])) e
  | tagAccess {t lb k rb : Lexeme ν} {key : String} (ht : t.tok = .ident "t")
      (hl : lb.tok = .sym .lbracket) (hk : k.tok = .string key) (hr : rb.tok = .sym .rbracket) :
      Derives .primary [t, lb, k, rb] (.tagAccess key)
  | setCount {f lp k rp : Lexeme ν} {name : String} {keyword : TypeKeyword}
    (hf : f.tok = .ident "count")
      (hl : lp.tok = .sym .lparen) (hk : k.tok = .ident name)
      (hkey : TypeKeyword.ofName name = some keyword) (hr : rp.tok = .sym .rparen) :
      Derives .primary [f, lp, k, rp] (.setCount keyword)
  | namedSetCount {d s d' f lp k rp : Lexeme ν} {setName name : String} {keyword : TypeKeyword}
      (hd : d.tok = .sym .dot) (hs : s.tok = .ident setName) (hd' : d'.tok = .sym .dot)
      (hf : f.tok = .ident "count") (hl : lp.tok = .sym .lparen) (hk : k.tok = .ident name)
      (hkey : TypeKeyword.ofName name = some keyword) (hr : rp.tok = .sym .rparen) :
      Derives .primary [d, s, d', f, lp, k, rp] (.namedSetCount setName keyword)
  | aggregate {f lp rp : Lexeme ν} {ts : List (Lexeme ν)} {e : Expr ν} {name : String}
    {func : AggFunc}
      (hf : f.tok = .ident name) (hfunc : AggFunc.ofName name = some func)
      (hl : lp.tok = .sym .lparen) (hr : rp.tok = .sym .rparen) (h : Derives .ternary ts e) :
      Derives .primary (f :: lp :: (ts ++ [rp])) (.aggregate func e)
  | elementCall {f lp rp : Lexeme ν} {ts : List (Lexeme ν)} {name : String} {func : ElementFunc}
      {parts : List (List (Lexeme ν) × Expr ν)} (hf : f.tok = .ident name)
      (hfunc : ElementFunc.ofName name = some func) (harity : parts.length = func.arity)
      (hl : lp.tok = .sym .lparen) (hr : rp.tok = .sym .rparen)
      (hsep : Separated (parts.map Prod.fst) ts) (h : ∀ p ∈ parts, Derives .ternary p.1 p.2) :
      Derives .primary (f :: lp :: (ts ++ [rp])) (.elementCall func (parts.map Prod.snd))

/-! ### Tokens that are left -/

/-- Tokens up to an end, which comes once. -/
def Ends (ts : Input ν) : Prop :=
  ∃ body last, ts = body ++ [last] ∧ last.tok = .eof ∧ ∀ t ∈ body, t.tok ≠ .eof

section Left

variable {ts rest : Input ν} {t : Lexeme ν}

lemma Ends.cases (h : Ends ts) : ∃ t rest, ts = t :: rest ∧
    (t.tok ≠ .eof → Ends rest ∧ advance ts = rest) := by
  obtain ⟨body, last, rfl, hlast, hbody⟩ := h
  rcases body with _ | ⟨t, body⟩
  · exact ⟨last, [], rfl, fun h => absurd hlast h⟩
  · refine ⟨t, body ++ [last], rfl,
      fun _ => ⟨⟨body, last, rfl, hlast, fun u hu => hbody u (List.mem_cons_of_mem _ hu)⟩, ?_⟩⟩
    rcases body with _ | ⟨u, body⟩ <;> rfl

/-- Reading a token that is not the end. -/
lemma Ends.read {tok : Tok ν} (h : Ends ts) (hcur : current ts = tok) (hne : tok ≠ .eof) :
    ∃ t rest, ts = t :: rest ∧ t.tok = tok ∧ Ends rest ∧ advance ts = rest := by
  obtain ⟨t, rest, rfl, hread⟩ := h.cases
  obtain ⟨hends, hadv⟩ := hread (by rwa [← hcur] at hne)
  exact ⟨t, rest, rfl, hcur, hends, hadv⟩

lemma check_iff {s : Sym} : check s ts = true ↔ current ts = .sym s := by
  rw [check, isSym.eq_def]
  cases current ts <;> simp [eq_comm]

lemma error_eq {α : Type} (message : String) (ts : Input ν) :
    ∃ m, (error message ts : Except Raised α) = .error (.parseError m) := ⟨_, rfl⟩

end Left

/-! ### What a call can return -/

/-- A result is derived from the tokens that were read, or a parse error; and the calls run out only
where there are not enough. -/
def Outcome {α : Type} (D : List (Lexeme ν) → α → Prop) (ts : Input ν) (enough : Prop) :
    Except Raised (α × Input ν) → Prop
  | .ok (a, rest) => Ends rest ∧ ∃ used, ts = used ++ rest ∧ D used a
  | .error (.parseError _) => True
  | .error .outOfFuel => ¬ enough
  | .error (.valueError _) => False

section Outcome

variable {α β : Type} {ts : Input ν} {b b' : Prop} {D : List (Lexeme ν) → α → Prop}
  {D' : List (Lexeme ν) → β → Prop}

lemma outcome_error {message : String} : Outcome D ts b (error message ts') := by
  obtain ⟨m, hm⟩ := error_eq message ts'
  rw [hm]
  trivial

/-- What is left after some tokens, seen from before them. -/
lemma Outcome.after {x : Except Raised (α × Input ν)} (used : List (Lexeme ν)) {rest : Input ν}
    (hts : ts = used ++ rest) (h : Outcome (fun us a => D (used ++ us) a) rest b x) :
    Outcome D ts b x := by
  rcases x with e | ⟨a, left⟩
  · cases e <;> exact h
  · obtain ⟨hends, us, hus, hD⟩ := h
    exact ⟨hends, used ++ us, by rw [hts, hus, List.append_assoc], hD⟩

lemma outcome_pure {a : α} (hends : Ends ts) (h : D [] a) : Outcome D ts b (.ok (a, ts)) :=
  ⟨hends, [], rfl, h⟩

/-- The same with another relation and another bound. -/
lemma Outcome.mono {E : List (Lexeme ν) → α → Prop} {x : Except Raised (α × Input ν)}
    (h : Outcome D ts b' x) (hb : b → b') (hD : ∀ us a, D us a → E us a) : Outcome E ts b x := by
  rcases x with e | ⟨a, left⟩
  · cases e with
    | parseError m => trivial
    | valueError t => exact h
    | outOfFuel => exact fun hb' => h (hb hb')
  · obtain ⟨hends, us, hus, hD'⟩ := h
    exact ⟨hends, us, hus, hD us a hD'⟩

lemma Outcome.bind {x : Except Raised (α × Input ν)} {f : α × Input ν → Except Raised (β × Input ν)}
    (h : Outcome D ts b' x) (hb : b → b')
    (hf : ∀ a used rest, ts = used ++ rest → Ends rest → D used a →
      Outcome (fun us a => D' (used ++ us) a) rest b (f (a, rest))) :
      Outcome D' ts b (x >>= f) := by
  rcases x with e | ⟨a, rest⟩
  · cases e with
    | parseError m => trivial
    | valueError t => exact h
    | outOfFuel => exact fun hb' => h (hb hb')
  · obtain ⟨hends, used, hused, hD⟩ := h
    exact Outcome.after used hused (hf a used rest hused hends hD)

lemma outcome_expect {s : Sym} {f : Input ν → Except Raised (β × Input ν)} (hends : Ends ts)
    (hf : ∀ t rest, ts = t :: rest → t.tok = .sym s → Ends rest →
      Outcome (fun us a => D' (t :: us) a) rest b (f rest)) :
      Outcome D' ts b (expect s ts >>= f) := by
  rcases hcheck : check s ts with _ | _
  · rw [expect, hcheck]
    exact outcome_error
  · obtain ⟨t, rest, hts, ht, hrest, hadv⟩ := hends.read (check_iff.mp hcheck) (by simp)
    rw [expect, hcheck, if_pos rfl, hadv]
    exact Outcome.after [t] hts (hf t rest hts ht hrest)

end Outcome

/-! ### Soundness -/

lemma Derives.ne_nil {c : Category} {ts : List (Lexeme ν)} {e : Expr ν} (h : Derives c ts e) :
    ts ≠ [] := by
  induction h with
  | cond _ ih => exact ih
  | operand _ ih => exact ih
  | primary _ ih => exact ih
  | ternary => simp
  | binary => simp
  | not => simp
  | neg => simp
  | number => simp
  | string => simp
  | parens => simp
  | tagAccess => simp
  | setCount => simp
  | namedSetCount => simp
  | aggregate => simp
  | elementCall => simp

/-- Calls below a level that are made before a token is read. -/
def levelRank : Level → ℕ
  | .multiplicative => 3
  | .additive => 5
  | .relational => 7
  | .equality => 9
  | .and => 11
  | .or => 13

lemma levelRank_lt (l : Level) : levelRank l < 14 := by cases l <;> decide

/-- Arguments with commas between them, at least one. -/
def DerivesArgs (ts : List (Lexeme ν)) (es : List (Expr ν)) : Prop :=
  ∃ parts : List (List (Lexeme ν) × Expr ν), parts ≠ [] ∧ es = parts.map Prod.snd ∧
    Separated (parts.map Prod.fst) ts ∧ ∀ p ∈ parts, Derives .ternary p.1 p.2

/-- What every function of the parser returns with a number of calls left. -/
structure Sound (ν : Type) (n : ℕ) : Prop where
  ternary : ∀ {ts : Input ν}, Ends ts →
    Outcome (Derives .ternary) ts (20 * ts.length + 14 < n) (parseTernary n ts)
  level : ∀ {l : Level} {ts : Input ν}, Ends ts →
    Outcome (Derives (.level l)) ts (20 * ts.length + levelRank l < n) (parseLevel n l ts)
  operand : ∀ {l : Level} {ts : Input ν}, Ends ts →
    Outcome (Derives (operandOf l)) ts (20 * ts.length + levelRank l < n + 1) (parseOperand n l ts)
  rest : ∀ {l : Level} {ls : List (Lexeme ν)} {left : Expr ν} {ts : Input ν}, Ends ts →
    Derives (.level l) ls left → Outcome (fun us e => Derives (.level l) (ls ++ us) e) ts
      (20 * ts.length + 15 < n) (parseRest n l left ts)
  unary : ∀ {ts : Input ν}, Ends ts →
    Outcome (Derives .unary) ts (20 * ts.length + 1 < n) (parseUnary n ts)
  primary : ∀ {ts : Input ν}, Ends ts →
    Outcome (Derives .primary) ts (20 * ts.length < n) (parsePrimary n ts)
  args : ∀ {ts : Input ν}, Ends ts →
    Outcome DerivesArgs ts (20 * ts.length + 15 < n) (parseArgs n ts)

section Soundness

variable {n : ℕ} {ts : Input ν} {l : Level}

lemma outcome_zero {α : Type} {D : List (Lexeme ν) → α → Prop} {k : ℕ} :
    Outcome D ts (k < 0) (.error .outOfFuel) := Nat.not_lt_zero k

lemma sound_zero : Sound ν 0 where
  ternary _ := outcome_zero
  level _ := outcome_zero
  operand {l ts} _ := by
    rw [parseOperand]
    show ¬ _
    cases l <;> simp [levelRank]
  rest _ _ := outcome_zero
  unary _ := outcome_zero
  primary _ := outcome_zero
  args _ := outcome_zero

/-- The lengths of what is read and of what is left. -/
lemma length_lt {c : Category} {used rest : List (Lexeme ν)} {e : Expr ν} (hts : ts = used ++ rest)
    (h : Derives c used e) : rest.length < ts.length := by
  have hpos := List.length_pos_iff.mpr h.ne_nil
  rw [hts, List.length_append]
  omega

lemma sound_ternary (hn : Sound ν n) (hends : Ends ts) :
    Outcome (Derives .ternary) ts (20 * ts.length + 14 < n + 1) (parseTernary (n + 1) ts) := by
  rw [parseTernary]
  refine (hn.level hends).bind (by simp only [levelRank]; omega) ?_
  intro c cs rest hts hrest hc
  have hlen := length_lt hts hc
  rcases hq : check .question rest with _ | _
  · simp only [hq]
    exact outcome_pure hrest (by rw [List.append_nil]; exact .cond hc)
  obtain ⟨q, rest₁, rfl, hqtok, hrest₁, hadv⟩ := hrest.read (check_iff.mp hq) (by simp)
  simp only [hq, if_true, hadv]
  rw [List.length_cons] at hlen
  refine Outcome.after [q] rfl ?_
  refine (hn.ternary hrest₁).bind (by omega) ?_
  intro t ts₂ rest₂ hts₂ hrest₂ ht
  have hlen₂ := length_lt hts₂ ht
  refine outcome_expect hrest₂ ?_
  intro k rest₃ hts₃ hk hrest₃
  rw [hts₃, List.length_cons] at hlen₂
  refine (hn.ternary hrest₃).bind (by omega) ?_
  intro o os rest₄ hts₄ hrest₄ ho
  refine outcome_pure hrest₄ ?_
  simpa using Derives.ternary hqtok hk hc ht ho

lemma sound_level (hn : Sound ν n) (hends : Ends ts) :
    Outcome (Derives (.level l)) ts (20 * ts.length + levelRank l < n + 1)
      (parseLevel (n + 1) l ts) := by
  rw [parseLevel]
  refine (hn.operand hends).bind (fun h => h) ?_
  intro left ls rest hts hrest hl
  have hlen := length_lt hts hl
  exact (hn.rest hrest (.operand hl)).mono (by omega) fun us e h => h

lemma sound_operand (hn : Sound ν n) (hends : Ends ts) : Outcome (Derives (operandOf l)) ts
    (20 * ts.length + levelRank l < n + 1 + 1) (parseOperand (n + 1) l ts) := by
  rw [parseOperand, operandOf]
  cases l with
  | or => exact (hn.level hends).mono (by simp only [levelRank]; omega) fun us e h => h
  | and => exact (hn.level hends).mono (by simp only [levelRank]; omega) fun us e h => h
  | equality => exact (hn.level hends).mono (by simp only [levelRank]; omega) fun us e h => h
  | relational => exact (hn.level hends).mono (by simp only [levelRank]; omega) fun us e h => h
  | additive => exact (hn.level hends).mono (by simp only [levelRank]; omega) fun us e h => h
  | multiplicative => exact (hn.unary hends).mono (by simp only [levelRank]; omega) fun us e h => h

lemma Level.op_ne_eof {t : Tok ν} {op : Op} (h : l.op t = some op) : t ≠ .eof := by
  rintro rfl
  cases l <;> cases h

lemma sound_rest {ls : List (Lexeme ν)} {left : Expr ν} (hn : Sound ν n) (hends : Ends ts)
    (hl : Derives (.level l) ls left) : Outcome (fun us e => Derives (.level l) (ls ++ us) e) ts
      (20 * ts.length + 15 < n + 1) (parseRest (n + 1) l left ts) := by
  rw [parseRest]
  rcases hop : l.op (current ts) with _ | op
  · exact outcome_pure hends (by rwa [List.append_nil])
  obtain ⟨o, rest, rfl, ho, hrest, hadv⟩ := hends.read rfl (Level.op_ne_eof hop)
  simp only [hadv]
  rw [← ho] at hop
  refine Outcome.after [o] rfl ?_
  refine (hn.operand hrest).bind (by have := levelRank_lt l; rw [List.length_cons]; omega) ?_
  intro right rs rest₁ hts₁ hrest₁ hr
  have hlen := length_lt hts₁ hr
  refine (hn.rest hrest₁ (.binary hop hl hr)).mono (by rw [List.length_cons]; omega) fun us e h =>
    ?_
  simpa using h

lemma sound_unary (hn : Sound ν n) (hends : Ends ts) :
    Outcome (Derives .unary) ts (20 * ts.length + 1 < n + 1) (parseUnary (n + 1) ts) := by
  rw [parseUnary]
  rcases hb : check .bang ts with _ | _
  · rcases hm : check .minus ts with _ | _
    · exact (hn.primary hends).mono (by omega) fun us e h => .primary h
    · obtain ⟨t, rest, rfl, ht, hrest, hadv⟩ := hends.read (check_iff.mp hm) (by simp)
      simp only [Bool.false_eq_true, if_false, if_true, hadv]
      refine Outcome.after [t] rfl ?_
      refine (hn.unary hrest).bind (by rw [List.length_cons]; omega) ?_
      intro e us rest₁ hts hrest₁ he
      exact outcome_pure hrest₁ (by simpa using Derives.neg ht he)
  · obtain ⟨t, rest, rfl, ht, hrest, hadv⟩ := hends.read (check_iff.mp hb) (by simp)
    simp only [if_true, hadv]
    refine Outcome.after [t] rfl ?_
    refine (hn.unary hrest).bind (by rw [List.length_cons]; omega) ?_
    intro e us rest₁ hts hrest₁ he
    exact outcome_pure hrest₁ (by simpa using Derives.not ht he)

lemma outcome_expectIdent {β : Type} {b : Prop} {D : List (Lexeme ν) → β → Prop}
    {f : String × Input ν → Except Raised (β × Input ν)} (hends : Ends ts)
    (hf : ∀ t rest name, ts = t :: rest → t.tok = .ident name → Ends rest →
      Outcome (fun us a => D (t :: us) a) rest b (f (name, rest))) :
      Outcome D ts b (expectIdent ts >>= f) := by
  unfold expectIdent
  split
  · rename_i name hcur
    obtain ⟨t, rest, rfl, ht, hrest, hadv⟩ := hends.read hcur (by simp)
    rw [hadv]
    exact Outcome.after [t] rfl (hf t rest name rfl ht hrest)
  · exact outcome_error

lemma outcome_expectTypeKeyword {β : Type} {b : Prop} {D : List (Lexeme ν) → β → Prop}
    {f : TypeKeyword × Input ν → Except Raised (β × Input ν)} (hends : Ends ts)
    (hf : ∀ t rest name keyword, ts = t :: rest → t.tok = .ident name →
      TypeKeyword.ofName name = some keyword → Ends rest →
      Outcome (fun us a => D (t :: us) a) rest b (f (keyword, rest))) :
    Outcome D ts b (expectTypeKeyword ts >>= f) := by
  unfold expectTypeKeyword
  simp only
  split
  · rename_i name hcur
    split
    · rename_i keyword hkey
      obtain ⟨t, rest, rfl, ht, hrest, hadv⟩ := hends.read hcur (by simp)
      rw [hadv]
      exact Outcome.after [t] rfl (hf t rest name keyword rfl ht hkey hrest)
    · exact outcome_error
  · exact outcome_error

/-- A type in parentheses. -/
def DerivesTypeName (us : List (Lexeme ν)) (keyword : TypeKeyword) : Prop :=
  ∃ lp k rp name, us = [lp, k, rp] ∧ lp.tok = .sym .lparen ∧ k.tok = .ident name ∧
    TypeKeyword.ofName name = some keyword ∧ rp.tok = .sym .rparen

lemma outcome_typeName {b : Prop} (hends : Ends ts) :
    Outcome DerivesTypeName ts b (parseTypeName ts) := by
  unfold parseTypeName
  refine outcome_expect hends fun lp rest₁ _ hlp hrest₁ => ?_
  refine outcome_expectTypeKeyword hrest₁ fun k rest₂ name keyword _ hk hkey hrest₂ => ?_
  refine outcome_expect hrest₂ fun rp rest₃ _ hrp hrest₃ => ?_
  exact outcome_pure hrest₃ ⟨lp, k, rp, name, rfl, hlp, hk, hkey, hrp⟩

lemma outcome_namedSetCount {b : Prop} {d : Lexeme ν} (hd : d.tok = .sym .dot) (hends : Ends ts) :
    Outcome (fun us e => Derives .primary (d :: us) e) ts b (parseNamedSetCount ts) := by
  unfold parseNamedSetCount
  refine outcome_expectIdent hends fun s rest₁ setName _ hs hrest₁ => ?_
  refine outcome_expect hrest₁ fun d' rest₂ _ hd' hrest₂ => ?_
  refine outcome_expectIdent hrest₂ fun f rest₃ method _ hf hrest₃ => ?_
  by_cases hm : method ≠ "count"
  · simp only [if_pos hm]
    exact outcome_error
  · simp only [if_neg hm]
    rw [not_not] at hm
    refine (outcome_typeName hrest₃).bind (fun h => h) ?_
    rintro keyword us rest₄ hts₄ hrest₄ ⟨lp, k, rp, name, rfl, hlp, hk, hkey, hrp⟩
    exact outcome_pure hrest₄ (.namedSetCount hd hs hd' (hm ▸ hf) hlp hk hkey hrp)

lemma outcome_tagAccess {b : Prop} {t : Lexeme ν} (ht : t.tok = .ident "t") (hends : Ends ts) :
    Outcome (fun us e => Derives .primary (t :: us) e) ts b (parseTagAccess ts) := by
  unfold parseTagAccess
  refine outcome_expect hends fun lb rest₁ _ hlb hrest₁ => ?_
  split
  · rename_i key hcur
    obtain ⟨k, rest₂, rfl, hk, hrest₂, hadv⟩ := hrest₁.read hcur (by simp)
    rw [hadv]
    refine Outcome.after [k] rfl ?_
    refine outcome_expect hrest₂ fun rb rest₃ _ hrb hrest₃ => ?_
    exact outcome_pure hrest₃ (.tagAccess ht hlb hk hrb)
  · exact outcome_error

lemma sound_args (hn : Sound ν n) (hends : Ends ts) :
    Outcome DerivesArgs ts (20 * ts.length + 15 < n + 1) (parseArgs (n + 1) ts) := by
  rw [parseArgs]
  refine (hn.ternary hends).bind (by omega) ?_
  intro e us rest hts hrest he
  have hlen := length_lt hts he
  rcases hc : check .comma rest with _ | _
  · simp only [hc]
    refine outcome_pure hrest ⟨[(us, e)], by simp, rfl, ?_, by simpa using he⟩
    rw [List.append_nil]
    exact .one us
  · obtain ⟨comma, rest₁, rfl, hcomma, hrest₁, hadv⟩ := hrest.read (check_iff.mp hc) (by simp)
    simp only [hc, if_true, hadv]
    rw [List.length_cons] at hlen
    refine Outcome.after [comma] rfl ?_
    refine (hn.args hrest₁).bind (by omega) ?_
    rintro es us' rest₂ hts₂ hrest₂ ⟨parts, hne, rfl, hsep, hparts⟩
    refine outcome_pure hrest₂ ⟨(us, e) :: parts, by simp, rfl, ?_, ?_⟩
    · rcases parts with _ | ⟨p, parts⟩
      · exact absurd rfl hne
      · simpa using Separated.more hcomma hsep
    · exact List.forall_mem_cons.mpr ⟨he, hparts⟩

/-- A call of an aggregate. -/
lemma sound_aggregate {f : Lexeme ν} {name : String} {func : AggFunc} (hn : Sound ν n)
    (hf : f.tok = .ident name) (hfunc : AggFunc.ofName name = some func) (hends : Ends ts) :
    Outcome (fun us e => Derives .primary (f :: us) e) ts (20 * (ts.length + 1) < n + 1) (do
      let ts ← expect .lparen ts
      let (e, ts) ← parseTernary n ts
      let ts ← expect .rparen ts
      return (.aggregate func e, ts)) := by
  refine outcome_expect hends fun lp rest₁ hts₁ hlp hrest₁ => ?_
  rw [hts₁, List.length_cons]
  refine (hn.ternary hrest₁).bind (by omega) fun e us rest₂ hts₂ hrest₂ he => ?_
  refine outcome_expect hrest₂ fun rp rest₃ _ hrp hrest₃ => ?_
  exact outcome_pure hrest₃ (by simpa using Derives.aggregate hf hfunc hlp hrp he)

/-- A call of a function of an element. -/
lemma sound_elementCall {f : Lexeme ν} {name : String} {func : ElementFunc} (hn : Sound ν n)
    (hf : f.tok = .ident name) (hfunc : ElementFunc.ofName name = some func) (hends : Ends ts) :
    Outcome (fun us e => Derives .primary (f :: us) e) ts (20 * (ts.length + 1) < n + 1) (do
      let ts ← expect .lparen ts
      let (args, ts) ← if check .rparen ts then pure ([], ts) else parseArgs n ts
      let ts ← expect .rparen ts
      elementCall name func args ts) := by
  refine outcome_expect hends fun lp rest₁ hts₁ hlp hrest₁ => ?_
  rw [hts₁, List.length_cons]
  -- what follows the arguments, whether there are any or not
  have hcall : ∀ (parts : List (List (Lexeme ν) × Expr ν)) (us : List (Lexeme ν)) {rest₂ : Input ν},
      Ends rest₂ → Separated (parts.map Prod.fst) us → (∀ p ∈ parts, Derives .ternary p.1 p.2) →
      Outcome (fun us' e => Derives .primary (f :: lp :: (us ++ us')) e) rest₂
        (20 * (rest₁.length + 1 + 1) < n + 1)
        (expect .rparen rest₂ >>= elementCall name func (parts.map Prod.snd)) := by
    intro parts us rest₂ hrest₂ hsep hparts
    refine outcome_expect hrest₂ fun rp rest₃ _ hrp hrest₃ => ?_
    unfold elementCall
    split
    · exact outcome_error
    · rename_i harity
      rw [not_not, List.length_map] at harity
      exact outcome_pure hrest₃ (Derives.elementCall hf hfunc harity hlp hrp hsep hparts)
  rcases hcheck : check .rparen rest₁ with _ | _
  · refine (hn.args hrest₁).bind (by omega) ?_
    rintro args us rest₂ hts₂ hrest₂ ⟨parts, -, rfl, hsep, hparts⟩
    exact hcall parts us hrest₂ hsep hparts
  · exact hcall [] [] hrest₁ .none (by simp)

lemma sound_primary (hn : Sound ν n) (hends : Ends ts) :
    Outcome (Derives .primary) ts (20 * ts.length < n + 1) (parsePrimary (n + 1) ts) := by
  rw [parsePrimary]
  split
  · rename_i value hcur
    obtain ⟨t, rest, rfl, ht, hrest, hadv⟩ := hends.read hcur (by simp)
    rw [hadv]
    exact Outcome.after [t] rfl (outcome_pure hrest (.number ht))
  · rename_i value hcur
    obtain ⟨t, rest, rfl, ht, hrest, hadv⟩ := hends.read hcur (by simp)
    rw [hadv]
    exact Outcome.after [t] rfl (outcome_pure hrest (.string ht))
  · rename_i hcur
    obtain ⟨lp, rest, rfl, hlp, hrest, hadv⟩ := hends.read hcur (by simp)
    rw [hadv, List.length_cons]
    refine Outcome.after [lp] rfl ?_
    refine (hn.ternary hrest).bind (by omega) fun e us rest₁ hts₁ hrest₁ he => ?_
    refine outcome_expect hrest₁ fun rp rest₂ _ hrp hrest₂ => ?_
    exact outcome_pure hrest₂ (by simpa using Derives.parens hlp hrp he)
  · rename_i hcur
    obtain ⟨d, rest, rfl, hd, hrest, hadv⟩ := hends.read hcur (by simp)
    rw [hadv]
    exact Outcome.after [d] rfl (outcome_namedSetCount hd hrest)
  · rename_i name hcur
    obtain ⟨f, rest, rfl, hf, hrest, hadv⟩ := hends.read hcur (by simp)
    rw [hadv, List.length_cons]
    split
    · rename_i hname
      exact Outcome.after [f] rfl (outcome_tagAccess (hname ▸ hf) hrest)
    split
    · rename_i hname
      refine Outcome.after [f] rfl ?_
      refine (outcome_typeName hrest).bind (fun h => h) ?_
      rintro keyword us rest₁ hts₁ hrest₁ ⟨lp, k, rp, name', rfl, hlp, hk, hkey, hrp⟩
      exact outcome_pure hrest₁ (.setCount (hname ▸ hf) hlp hk hkey hrp)
    split
    · rename_i func hfunc
      exact Outcome.after [f] rfl (sound_aggregate hn hf hfunc hrest)
    split
    · rename_i func hfunc
      exact Outcome.after [f] rfl (sound_elementCall hn hf hfunc hrest)
    · exact outcome_error
  · exact outcome_error

/-- **What the parser returns is derived, or it raises a parse error.** -/
lemma sound (n : ℕ) : Sound ν n := by
  induction n with
  | zero => exact sound_zero
  | succ n ih =>
    exact ⟨sound_ternary ih, sound_level ih, sound_operand ih, sound_rest ih, sound_unary ih,
      sound_primary ih, sound_args ih⟩

end Soundness

/-! ### Completeness -/

/-- The level of an operator. -/
def levelOf : Tok ν → Option Level
  | .sym .oror => some .or
  | .sym .andand => some .and
  | .sym .eqeq | .sym .neq => some .equality
  | .sym .lt | .sym .le | .sym .gt | .sym .ge => some .relational
  | .sym .plus | .sym .minus => some .additive
  | .sym .star | .sym .slash => some .multiplicative
  | _ => none

section Completeness

variable {l l' : Level} {t : Tok ν} {op : Op} {rest : Input ν} {n : ℕ}

lemma levelOf_of_op (h : l.op t = some op) : levelOf t = some l := by
  unfold Level.op at h
  split at h
  all_goals first
    | rfl
    | cases h

lemma op_eq_none (h : l.op t = some op) (hne : l ≠ l') : l'.op t = none := by
  rcases h' : l'.op t with _ | op'
  · rfl
  · exact absurd (Option.some.inj ((levelOf_of_op h).symm.trans (levelOf_of_op h'))) hne

lemma advance_cons (t : Lexeme ν) (h : rest ≠ []) : advance (t :: rest) = rest := by
  rcases rest with _ | ⟨u, rest⟩
  · exact absurd rfl h
  · rfl

/-- No operator that binds tighter than a level comes next. -/
def Loose (l : Level) (ts : Input ν) : Prop :=
  ∀ l' : Level, levelRank l' < levelRank l → l'.op (current ts) = none

/-- The parser reads what a category derives, up to what cannot continue it. A level gets to its
loop with the tree so far. -/
def Completes : Category → List (Lexeme ν) → Expr ν → Prop
  | .ternary, used, e => ∀ (rest : Input ν) (n : ℕ), rest ≠ [] → current rest ≠ .sym .question →
      (∀ l : Level, l.op (current rest) = none) → 20 * used.length + 14 < n →
      parseTernary n (used ++ rest) = .ok (e, rest)
  | .level l, used, e => ∀ (rest : Input ν) (n : ℕ), rest ≠ [] → Loose l rest →
      20 * used.length + levelRank l < n →
      ∃ m, n ≤ m + used.length ∧ parseLevel n l (used ++ rest) = parseRest m l e rest
  | .unary, used, e => ∀ (rest : Input ν) (n : ℕ), rest ≠ [] → 20 * used.length + 1 < n →
      parseUnary n (used ++ rest) = .ok (e, rest)
  | .primary, used, e => ∀ (rest : Input ν) (n : ℕ), rest ≠ [] → 20 * used.length < n →
      parsePrimary n (used ++ rest) = .ok (e, rest)

lemma parseRest_stop {left : Expr ν} (hop : l.op (current rest) = none) (hn : 0 < n) :
    parseRest n l left rest = .ok (left, rest) := by
  obtain ⟨m, rfl⟩ := Nat.exists_eq_succ_of_ne_zero hn.ne'
  rw [parseRest]
  simp only [hop]

variable {used : List (Lexeme ν)} {e : Expr ν}

lemma Completes.level (h : Completes (.level l) used e) (hne : rest ≠ []) (hloose : Loose l rest)
    (hop : l.op (current rest) = none) (hn : 20 * used.length + levelRank l < n) :
    parseLevel n l (used ++ rest) = .ok (e, rest) := by
  obtain ⟨m, hm, heq⟩ := h rest n hne hloose hn
  rw [heq]
  exact parseRest_stop hop (by omega)

lemma Completes.operand (h : Completes (operandOf l) used e) (hne : rest ≠ [])
    (hloose : Loose l rest) (hn : 20 * used.length + levelRank l < n + 1) :
    parseOperand n l (used ++ rest) = .ok (e, rest) := by
  have hnext : ∀ {l' : Level}, l.next = some l' → levelRank l' + 2 = levelRank l := by
    intro l' hl'
    cases l <;> cases hl' <;> rfl
  have hthree : 3 ≤ levelRank l := by cases l <;> decide
  obtain ⟨m, rfl⟩ := Nat.exists_eq_succ_of_ne_zero (show n ≠ 0 by omega)
  rw [parseOperand]
  rw [operandOf] at h
  rcases hl : l.next with _ | l'
  · rw [hl] at h
    exact h rest m hne (by omega)
  · rw [hl] at h
    have hrank := hnext hl
    refine h.level hne (fun l'' hl'' => hloose l'' (by omega)) (hloose l' (by omega)) (by omega)

lemma check_cons {s : Sym} {t : Lexeme ν} (h : t.tok = .sym s) : check s (t :: rest) = true :=
  check_iff.mpr h

lemma check_cons_ne {s s' : Sym} {t : Lexeme ν} (h : t.tok = .sym s') (hne : s ≠ s') :
    check s (t :: rest) = false := by
  refine Bool.eq_false_iff.mpr fun hc => hne ?_
  have heq : t.tok = .sym s := check_iff.mp hc
  rw [h] at heq
  exact (Tok.sym.inj heq).symm

lemma expect_cons {s : Sym} {t : Lexeme ν} (h : t.tok = .sym s) (hne : rest ≠ []) :
    expect s (t :: rest) = .ok rest := by
  rw [expect, check_cons h, if_pos rfl, advance_cons t hne]

/-- A symbol that is no operator stops every level. -/
lemma op_none_of_levelOf {t : Tok ν} (h : levelOf t = none) (l : Level) : l.op t = none := by
  rcases hop : l.op t with _ | op
  · rfl
  · rw [levelOf_of_op hop] at h
    cases h

lemma ok_bind {α β : Type} (a : α) (f : α → Except Raised β) : (Except.ok a >>= f) = f a := rfl

/-- Reading a ternary up to a symbol that ends it. -/
lemma Completes.before {s : Sym} {x : Lexeme ν} (h : Completes .ternary used e)
    (hx : x.tok = .sym s) (hlevel : levelOf (.sym s : Tok ν) = none) (hs : s ≠ .question)
    (hn : 20 * used.length + 14 < n) : parseTernary n (used ++ x :: rest) = .ok (e, x :: rest) := by
  refine h (x :: rest) n (by simp) ?_ ?_ hn
  · show x.tok ≠ _
    rw [hx]
    exact fun h => hs (Tok.sym.inj h)
  · intro l
    show l.op x.tok = none
    rw [hx]
    exact op_none_of_levelOf hlevel l

lemma completes_cond (h : Completes (.level .or) used e) : Completes .ternary used e := by
  intro rest n hne hq hops hn
  obtain ⟨m, rfl⟩ := Nat.exists_eq_succ_of_ne_zero (show n ≠ 0 by omega)
  have hcheck : check .question rest = false := Bool.eq_false_iff.mpr fun hc => hq (check_iff.mp hc)
  rw [parseTernary, h.level hne (fun l' _ => hops l') (hops .or) (by simp only [levelRank]; omega),
    ok_bind]
  simp only [hcheck]
  rfl

lemma completes_ternary {cs ts os : List (Lexeme ν)} {c t o : Expr ν} {question colon : Lexeme ν}
    (hq : question.tok = .sym .question) (hk : colon.tok = .sym .colon)
    (hc : Completes (.level .or) cs c) (ht : Completes .ternary ts t)
    (ho : Completes .ternary os o) :
    Completes .ternary (cs ++ question :: (ts ++ colon :: os)) (.ternary c t o) := by
  intro rest n hne hrest hops hn
  obtain ⟨m, rfl⟩ := Nat.exists_eq_succ_of_ne_zero (show n ≠ 0 by omega)
  simp only [List.length_append, List.length_cons] at hn
  have hqop : ∀ l : Level, l.op (current (question :: (ts ++ colon :: (os ++ rest)))) = none := by
    intro l
    show l.op question.tok = none
    rw [hq]
    exact op_none_of_levelOf rfl l
  have hcond : parseLevel m .or (cs ++ question :: (ts ++ colon :: (os ++ rest))) =
      .ok (c, question :: (ts ++ colon :: (os ++ rest))) :=
    hc.level (by simp) (fun l' _ => hqop l') (hqop .or) (by simp only [levelRank]; omega)
  have hthen : parseTernary m (ts ++ colon :: (os ++ rest)) = .ok (t, colon :: (os ++ rest)) :=
    ht.before hk rfl (by decide) (by omega)
  have helse : parseTernary m (os ++ rest) = .ok (o, rest) := ho rest m hne hrest hops (by omega)
  rw [parseTernary]
  simp only [List.append_assoc, List.cons_append, hcond, ok_bind, check_cons hq, if_true,
    advance_cons question (show ts ++ colon :: (os ++ rest) ≠ [] by simp), hthen,
    expect_cons hk (show os ++ rest ≠ [] by simp [hne]), helse]
  rfl

lemma completes_operand (hused : used ≠ []) (h : Completes (operandOf l) used e) :
    Completes (.level l) used e := by
  intro rest n hne hloose hn
  obtain ⟨m, rfl⟩ := Nat.exists_eq_succ_of_ne_zero (show n ≠ 0 by omega)
  have hpos := List.length_pos_iff.mpr hused
  refine ⟨m, by omega, ?_⟩
  rw [parseLevel, h.operand hne hloose (by omega), ok_bind]

lemma completes_binary {ls rs : List (Lexeme ν)} {left right : Expr ν} {o : Lexeme ν}
    (hop : l.op o.tok = some op) (hl : Completes (.level l) ls left)
    (hr : Completes (operandOf l) rs right) :
    Completes (.level l) (ls ++ o :: rs) (.binOp op left right) := by
  intro rest n hne hloose hn
  rw [List.length_append, List.length_cons] at hn ⊢
  -- an operator of the level is none of a tighter one, so that the left side ends at it
  have hends : Loose l (o :: (rs ++ rest)) := by
    intro l' hl'
    exact op_eq_none hop (fun h => by rw [h] at hl'; omega)
  obtain ⟨m, hm, heq⟩ := hl (o :: (rs ++ rest)) n (by simp) hends (by omega)
  obtain ⟨k, rfl⟩ := Nat.exists_eq_succ_of_ne_zero (show m ≠ 0 by omega)
  refine ⟨k, by omega, ?_⟩
  have hcur : l.op (current (o :: (rs ++ rest))) = some op := hop
  rw [List.append_assoc, List.cons_append, heq, parseRest]
  simp only [hcur]
  rw [advance_cons o (by simp [hne]), hr.operand hne hloose (by omega), ok_bind]

lemma completes_sign {t : Lexeme ν} {s : Sym} {f : Expr ν → Expr ν} (h : Completes .unary used e)
    (ht : t.tok = .sym s) (heq : ∀ (n : ℕ) (ts : Input ν), check s ts = true →
      parseUnary (n + 1) ts = (do let (e, ts) ← parseUnary n (advance ts); return (f e, ts))) :
    Completes .unary (t :: used) (f e) := by
  intro rest n hne hn
  rw [List.length_cons] at hn
  obtain ⟨m, rfl⟩ := Nat.exists_eq_succ_of_ne_zero (show n ≠ 0 by omega)
  rw [List.cons_append, heq m _ (check_cons ht), advance_cons t (by simp [hne]),
    h rest m hne (by omega)]
  rfl

lemma parseUnary_bang (n : ℕ) (ts : Input ν) (h : check .bang ts = true) : parseUnary (n + 1) ts =
    (do let (e, ts) ← parseUnary n (advance ts); return (.unary .not e, ts)) := by
  rw [parseUnary, if_pos h]

lemma parseUnary_minus (n : ℕ) (ts : Input ν) (h : check .minus ts = true) : parseUnary (n + 1) ts =
    (do let (e, ts) ← parseUnary n (advance ts); return (.unary .neg e, ts)) := by
  have hb : check .bang ts = false := by
    refine Bool.eq_false_iff.mpr fun hc => ?_
    have heq := (check_iff.mp h).symm.trans (check_iff.mp hc)
    cases heq
  rw [parseUnary, hb, if_neg (by decide), if_pos h]

/-- The tokens that an expression begins with. -/
def startsOperand : Tok ν → Bool
  | .number _ | .string _ | .ident _ => true
  | .sym .lparen | .sym .dot | .sym .bang | .sym .minus => true
  | _ => false

lemma Derives.starts {c : Category} (h : Derives c used e) :
    ∃ t us, used = t :: us ∧ startsOperand t.tok = true := by
  induction h with
  | cond _ ih => exact ih
  | operand _ ih => exact ih
  | primary _ ih => exact ih
  | ternary _ _ _ _ _ ih =>
    obtain ⟨t, us, rfl, ht⟩ := ih
    exact ⟨t, _, rfl, ht⟩
  | binary _ _ _ ih =>
    obtain ⟨t, us, rfl, ht⟩ := ih
    exact ⟨t, _, rfl, ht⟩
  | not hb => exact ⟨_, _, rfl, by rw [hb]; rfl⟩
  | neg hm => exact ⟨_, _, rfl, by rw [hm]; rfl⟩
  | number ht => exact ⟨_, _, rfl, by rw [ht]; rfl⟩
  | string ht => exact ⟨_, _, rfl, by rw [ht]; rfl⟩
  | parens ht => exact ⟨_, _, rfl, by rw [ht]; rfl⟩
  | tagAccess ht => exact ⟨_, _, rfl, by rw [ht]; rfl⟩
  | setCount ht => exact ⟨_, _, rfl, by rw [ht]; rfl⟩
  | namedSetCount ht => exact ⟨_, _, rfl, by rw [ht]; rfl⟩
  | aggregate ht => exact ⟨_, _, rfl, by rw [ht]; rfl⟩
  | elementCall ht => exact ⟨_, _, rfl, by rw [ht]; rfl⟩

/-- A primary begins with a token that is no sign. -/
lemma Derives.primary_head (h : Derives .primary used e) :
    ∃ t us, used = t :: us ∧ t.tok ≠ .sym .bang ∧ t.tok ≠ .sym .minus := by
  cases h with
  | number ht => exact ⟨_, _, rfl, by simp [ht], by simp [ht]⟩
  | string ht => exact ⟨_, _, rfl, by simp [ht], by simp [ht]⟩
  | parens ht => exact ⟨_, _, rfl, by simp [ht], by simp [ht]⟩
  | tagAccess ht => exact ⟨_, _, rfl, by simp [ht], by simp [ht]⟩
  | setCount ht => exact ⟨_, _, rfl, by simp [ht], by simp [ht]⟩
  | namedSetCount ht => exact ⟨_, _, rfl, by simp [ht], by simp [ht]⟩
  | aggregate ht => exact ⟨_, _, rfl, by simp [ht], by simp [ht]⟩
  | elementCall ht => exact ⟨_, _, rfl, by simp [ht], by simp [ht]⟩

lemma completes_primary (hd : Derives .primary used e) (h : Completes .primary used e) :
    Completes .unary used e := by
  obtain ⟨t, us, rfl, hbang, hminus⟩ := hd.primary_head
  intro rest n hne hn
  obtain ⟨m, rfl⟩ := Nat.exists_eq_succ_of_ne_zero (show n ≠ 0 by omega)
  have hb : check .bang (t :: us ++ rest) = false :=
    Bool.eq_false_iff.mpr fun hc => hbang (check_iff.mp hc)
  have hm : check .minus (t :: us ++ rest) = false :=
    Bool.eq_false_iff.mpr fun hc => hminus (check_iff.mp hc)
  rw [parseUnary, hb, hm, if_neg (by decide), if_neg (by decide)]
  exact h rest m hne (by omega)

lemma parseTypeName_cons {lp k rp : Lexeme ν} {name : String} {keyword : TypeKeyword}
    (hne : rest ≠ []) (hl : lp.tok = .sym .lparen) (hk : k.tok = .ident name)
    (hkey : TypeKeyword.ofName name = some keyword)
    (hr : rp.tok = .sym .rparen) : parseTypeName (lp :: k :: rp :: rest) = .ok (keyword, rest) := by
  have hkeyword : expectTypeKeyword (k :: rp :: rest) = .ok (keyword, rp :: rest) := by
    have hcur : current (k :: rp :: rest) = .ident name := hk
    rw [expectTypeKeyword, hcur]
    simp only [hkey]
    rfl
  rw [parseTypeName, expect_cons hl (by simp), ok_bind, hkeyword, ok_bind]
  simp only [expect_cons hr hne]
  rfl

lemma expectIdent_cons {t : Lexeme ν} {name : String} (ht : t.tok = .ident name) (hne : rest ≠ []) :
    expectIdent (t :: rest) = .ok (name, rest) := by
  have hcur : current (t :: rest) = .ident name := ht
  rw [expectIdent, hcur, advance_cons t hne]

/-- The arguments of a call are read up to the parenthesis. -/
lemma parseArgs_complete {parts : List (List (Lexeme ν) × Expr ν)} {ts : List (Lexeme ν)}
    {rp : Lexeme ν} (hparts : parts ≠ []) (hsep : Separated (parts.map Prod.fst) ts)
    (h : ∀ p ∈ parts, Completes .ternary p.1 p.2) (hr : rp.tok = .sym .rparen)
    (hn : 20 * ts.length + 15 < n) :
    parseArgs n (ts ++ rp :: rest) = .ok (parts.map Prod.snd, rp :: rest) := by
  induction parts generalizing ts n with
  | nil => exact absurd rfl hparts
  | cons p parts ih =>
    obtain ⟨m, rfl⟩ := Nat.exists_eq_succ_of_ne_zero (show n ≠ 0 by omega)
    have hp := h p List.mem_cons_self
    rcases parts with _ | ⟨q, parts⟩
    · obtain ⟨⟩ | ⟨⟩ | ⟨⟩ := hsep
      have hcomma : check .comma (rp :: rest) = false := check_cons_ne hr (by decide)
      rw [parseArgs, hp.before hr rfl (by decide) (by omega), ok_bind]
      simp only [hcomma]
      rfl
    · rcases hsep with _ | _ | ⟨hcomma, hsep⟩
      rename_i us comma
      have hq : parseArgs m (us ++ rp :: rest) = .ok ((q :: parts).map Prod.snd, rp :: rest) := by
        refine ih (by simp) hsep (fun r hr => h r (List.mem_cons_of_mem _ hr)) ?_
        rw [List.length_append, List.length_cons] at hn
        omega
      have hfirst : parseTernary m (p.1 ++ comma :: (us ++ rp :: rest)) =
          .ok (p.2, comma :: (us ++ rp :: rest)) := by
        refine hp.before hcomma rfl (by decide) ?_
        rw [List.length_append] at hn
        omega
      rw [parseArgs, List.append_assoc, List.cons_append, hfirst, ok_bind]
      simp only [check_cons hcomma, if_true, advance_cons comma
        (show us ++ rp :: rest ≠ [] by simp), hq, ok_bind]
      rfl

lemma completes_number {t : Lexeme ν} {value : ν} (ht : t.tok = .number value) :
    Completes .primary [t] (.num value) := by
  intro rest n hne hn
  obtain ⟨m, rfl⟩ := Nat.exists_eq_succ_of_ne_zero (show n ≠ 0 by omega)
  have hcur : current (t :: rest) = .number value := ht
  rw [List.singleton_append, parsePrimary, hcur, advance_cons t hne]

lemma completes_string {t : Lexeme ν} {value : String} (ht : t.tok = .string value) :
    Completes .primary [t] (.str value) := by
  intro rest n hne hn
  obtain ⟨m, rfl⟩ := Nat.exists_eq_succ_of_ne_zero (show n ≠ 0 by omega)
  have hcur : current (t :: rest) = .string value := ht
  rw [List.singleton_append, parsePrimary, hcur, advance_cons t hne]

lemma completes_parens {lp rp : Lexeme ν} (hl : lp.tok = .sym .lparen) (hr : rp.tok = .sym .rparen)
    (h : Completes .ternary used e) : Completes .primary (lp :: (used ++ [rp])) e := by
  intro rest n hne hn
  obtain ⟨m, rfl⟩ := Nat.exists_eq_succ_of_ne_zero (show n ≠ 0 by omega)
  simp only [List.length_cons, List.length_append] at hn
  have hcur : current (lp :: (used ++ rp :: rest)) = .sym .lparen := hl
  rw [List.cons_append, List.append_assoc, List.singleton_append, parsePrimary, hcur]
  simp only [advance_cons lp (show used ++ rp :: rest ≠ [] by simp)]
  rw [h.before hr rfl (by decide) (by omega), ok_bind]
  simp only [expect_cons hr hne]
  rfl

lemma completes_tagAccess {t lb k rb : Lexeme ν} {key : String} (ht : t.tok = .ident "t")
    (hl : lb.tok = .sym .lbracket) (hk : k.tok = .string key) (hr : rb.tok = .sym .rbracket) :
    Completes .primary [t, lb, k, rb] (.tagAccess key) := by
  intro rest n hne hn
  obtain ⟨m, rfl⟩ := Nat.exists_eq_succ_of_ne_zero (show n ≠ 0 by omega)
  have hcur : current ([t, lb, k, rb] ++ rest) = .ident "t" := ht
  have hkey : current (k :: rb :: rest) = .string key := hk
  rw [parsePrimary, hcur]
  simp only [if_true]
  show parseTagAccess (lb :: k :: rb :: rest) = _
  rw [parseTagAccess, expect_cons hl (by simp), ok_bind, hkey]
  simp only [advance_cons k (show rb :: rest ≠ [] by simp), expect_cons hr hne]
  rfl

lemma completes_setCount {f lp k rp : Lexeme ν} {name : String} {keyword : TypeKeyword}
    (hf : f.tok = .ident "count") (hl : lp.tok = .sym .lparen) (hk : k.tok = .ident name)
    (hkey : TypeKeyword.ofName name = some keyword) (hr : rp.tok = .sym .rparen) :
    Completes .primary [f, lp, k, rp] (.setCount keyword) := by
  intro rest n hne hn
  obtain ⟨m, rfl⟩ := Nat.exists_eq_succ_of_ne_zero (show n ≠ 0 by omega)
  have hcur : current ([f, lp, k, rp] ++ rest) = .ident "count" := hf
  rw [parsePrimary, hcur]
  simp only [String.reduceEq, if_false, if_true]
  show (parseTypeName (lp :: k :: rp :: rest) >>= _) = _
  rw [parseTypeName_cons hne hl hk hkey hr]
  rfl

lemma completes_namedSetCount {d s d' f lp k rp : Lexeme ν} {setName name : String}
    {keyword : TypeKeyword} (hd : d.tok = .sym .dot) (hs : s.tok = .ident setName)
    (hd' : d'.tok = .sym .dot) (hf : f.tok = .ident "count") (hl : lp.tok = .sym .lparen)
    (hk : k.tok = .ident name) (hkey : TypeKeyword.ofName name = some keyword)
    (hr : rp.tok = .sym .rparen) :
    Completes .primary [d, s, d', f, lp, k, rp] (.namedSetCount setName keyword) := by
  intro rest n hne hn
  obtain ⟨m, rfl⟩ := Nat.exists_eq_succ_of_ne_zero (show n ≠ 0 by omega)
  have hcur : current ([d, s, d', f, lp, k, rp] ++ rest) = .sym .dot := hd
  rw [parsePrimary, hcur]
  show parseNamedSetCount (s :: d' :: f :: lp :: k :: rp :: rest) = _
  rw [parseNamedSetCount, expectIdent_cons hs (by simp), ok_bind]
  simp only [expect_cons hd' (show f :: lp :: k :: rp :: rest ≠ [] by simp), ok_bind,
    expectIdent_cons hf (show lp :: k :: rp :: rest ≠ [] by simp), ne_eq,
    not_true_eq_false, if_false, parseTypeName_cons hne hl hk hkey hr]
  rfl

lemma AggFunc.ofName_ne {name : String} {func : AggFunc} (h : AggFunc.ofName name = some func) :
    name ≠ "t" ∧ name ≠ "count" := by
  constructor
  · rintro rfl
    simp [AggFunc.ofName] at h
  · rintro rfl
    simp [AggFunc.ofName] at h

/-- No function of an element has the name of something else. -/
lemma ElementFunc.ofName_ne {name : String} {func : ElementFunc}
    (h : ElementFunc.ofName name = some func) :
    name ≠ "t" ∧ name ≠ "count" ∧ AggFunc.ofName name = none := by
  refine ⟨?_, ?_, ?_⟩
  · rintro rfl
    simp [ElementFunc.ofName] at h
  · rintro rfl
    simp [ElementFunc.ofName] at h
  · rcases hagg : AggFunc.ofName name with _ | agg
    · rfl
    · unfold AggFunc.ofName at hagg
      split at hagg
      · simp [ElementFunc.ofName] at h
      · simp [ElementFunc.ofName] at h
      · simp [ElementFunc.ofName] at h
      · simp [ElementFunc.ofName] at h
      · simp [ElementFunc.ofName] at h
      · cases hagg

lemma completes_aggregate {f lp rp : Lexeme ν} {name : String} {func : AggFunc}
    (hf : f.tok = .ident name) (hfunc : AggFunc.ofName name = some func)
    (hl : lp.tok = .sym .lparen) (hr : rp.tok = .sym .rparen)
    (h : Completes .ternary used e) : Completes .primary (f :: lp :: (used ++ [rp]))
    (.aggregate func e) := by
  intro rest n hne hn
  obtain ⟨m, rfl⟩ := Nat.exists_eq_succ_of_ne_zero (show n ≠ 0 by omega)
  simp only [List.length_cons, List.length_append] at hn
  obtain ⟨hnt, hncount⟩ := AggFunc.ofName_ne hfunc
  have hcur : current (f :: lp :: (used ++ rp :: rest)) = .ident name := hf
  rw [List.cons_append, List.cons_append, List.append_assoc, List.singleton_append,
    parsePrimary, hcur]
  simp only [if_neg hnt, if_neg hncount, hfunc,
    advance_cons f (show lp :: (used ++ rp :: rest) ≠ [] by simp),
      expect_cons hl (show used ++ rp :: rest ≠ [] by simp), ok_bind]
  rw [h.before hr rfl (by decide) (by omega), ok_bind]
  simp only [expect_cons hr hne]
  rfl

lemma completes_elementCall {f lp rp : Lexeme ν} {ts : List (Lexeme ν)} {name : String}
    {func : ElementFunc} {parts : List (List (Lexeme ν) × Expr ν)} (hf : f.tok = .ident name)
    (hfunc : ElementFunc.ofName name = some func) (harity : parts.length = func.arity)
    (hl : lp.tok = .sym .lparen) (hr : rp.tok = .sym .rparen)
    (hsep : Separated (parts.map Prod.fst) ts)
    (hd : ∀ p ∈ parts, Derives .ternary p.1 p.2) (h : ∀ p ∈ parts, Completes .ternary p.1 p.2) :
    Completes .primary (f :: lp :: (ts ++ [rp])) (.elementCall func (parts.map Prod.snd)) := by
  intro rest n hne hn
  obtain ⟨m, rfl⟩ := Nat.exists_eq_succ_of_ne_zero (show n ≠ 0 by omega)
  simp only [List.length_cons, List.length_append] at hn
  obtain ⟨hnt, hncount, hnagg⟩ := ElementFunc.ofName_ne hfunc
  have hcur : current (f :: lp :: (ts ++ rp :: rest)) = .ident name := hf
  have hcall : elementCall name func (parts.map Prod.snd) rest =
      .ok (.elementCall func (parts.map Prod.snd), rest) := by
    rw [elementCall, if_neg (by rw [List.length_map, harity]; simp)]
  rw [List.cons_append, List.cons_append, List.append_assoc, List.singleton_append,
    parsePrimary, hcur]
  simp only [if_neg hnt, if_neg hncount, hnagg, hfunc,
    advance_cons f (show lp :: (ts ++ rp :: rest) ≠ [] by simp),
    expect_cons hl (show ts ++ rp :: rest ≠ [] by simp), ok_bind]
  rcases parts with _ | ⟨p, parts⟩
  · obtain ⟨⟩ := hsep
    simp only [List.nil_append, check_cons hr, if_true]
    show (expect .rparen (rp :: rest) >>= _) = _
    rw [expect_cons hr hne, ok_bind]
    exact hcall
  · have hargs : parseArgs m (ts ++ rp :: rest) = .ok ((p :: parts).map Prod.snd, rp :: rest) :=
      parseArgs_complete (by simp) hsep h hr (by omega)
    -- the first argument begins with a token that does not close the call
    have hcheck : check .rparen (ts ++ rp :: rest) = false := by
      obtain ⟨t, us, hp, ht⟩ := (hd p List.mem_cons_self).starts
      obtain ⟨us', hts⟩ : ∃ us', ts = t :: us' := by
        rcases parts with _ | ⟨q, parts⟩
        · obtain ⟨⟩ | ⟨⟩ | ⟨⟩ := hsep
          exact ⟨us, hp⟩
        · obtain ⟨⟩ | ⟨⟩ | ⟨⟩ := hsep
          exact ⟨_, by rw [hp]; rfl⟩
      refine Bool.eq_false_iff.mpr fun hc => ?_
      rw [hts] at hc
      have htok : t.tok = .sym .rparen := check_iff.mp hc
      rw [htok] at ht
      cases ht
    simp only [hcheck, hargs]
    show (expect .rparen (rp :: rest) >>= _) = _
    rw [expect_cons hr hne, ok_bind]
    exact hcall

/-- **What the grammar derives the parser reads.** -/
lemma Derives.completes {c : Category} (h : Derives c used e) : Completes c used e := by
  induction h with
  | cond _ ih => exact completes_cond ih
  | ternary hq hk _ _ _ ih₁ ih₂ ih₃ => exact completes_ternary hq hk ih₁ ih₂ ih₃
  | operand h ih => exact completes_operand h.ne_nil ih
  | binary hop _ _ ih₁ ih₂ => exact completes_binary hop ih₁ ih₂
  | not hb _ ih => exact completes_sign ih hb parseUnary_bang
  | neg hm _ ih => exact completes_sign ih hm parseUnary_minus
  | primary h ih => exact completes_primary h ih
  | number ht => exact completes_number ht
  | string ht => exact completes_string ht
  | parens hl hr _ ih => exact completes_parens hl hr ih
  | tagAccess ht hl hk hr => exact completes_tagAccess ht hl hk hr
  | setCount hf hl hk hkey hr => exact completes_setCount hf hl hk hkey hr
  | namedSetCount hd hs hd' hf hl hk hkey hr =>
    exact completes_namedSetCount hd hs hd' hf hl hk hkey hr
  | aggregate hf hfunc hl hr _ ih => exact completes_aggregate hf hfunc hl hr ih
  | elementCall hf hfunc harity hl hr hsep h ih =>
    exact completes_elementCall hf hfunc harity hl hr hsep h ih

end Completeness

/-! ### The parser and the grammar -/

section Program

variable {ts : List (Lexeme ν)} {last : Lexeme ν} {e : Expr ν}

lemma parseProgram_complete (hlast : last.tok = .eof) (he : Derives .ternary ts e) :
    parseProgram (ts ++ [last]) = .ok e := by
  have hstop : ∀ l : Level, l.op (current [last]) = none := by
    intro l
    show l.op last.tok = none
    rw [hlast]
    exact op_none_of_levelOf rfl l
  have hlen : 20 * ts.length + 14 < fuelFor (ts ++ [last]) := by
    rw [fuelFor, List.length_append]
    omega
  have hq : current [last] ≠ .sym .question := by
    show last.tok ≠ _
    simp [hlast]
  have hcur : current [last] = .eof := hlast
  rw [parseProgram, he.completes [last] _ (by simp) hq hstop hlen, ok_bind]
  simp only [hcur]
  rfl

/-- The end is left only when everything before it was read. -/
lemma eq_of_current_eof {used rest : List (Lexeme ν)} (hrest : Ends rest)
    (heq : ts ++ [last] = used ++ rest) (hcur : current rest = .eof) : ts = used := by
  obtain ⟨body, l', rfl, -, hbody⟩ := hrest
  rcases body with _ | ⟨t, body⟩
  · exact (List.append_inj' heq rfl).1
  · exact absurd hcur (hbody t List.mem_cons_self)

lemma parseProgram_cases (hts : ∀ t ∈ ts, t.tok ≠ .eof) (hlast : last.tok = .eof) :
    (∃ e, parseProgram (ts ++ [last]) = .ok e ∧ Derives .ternary ts e) ∨
      ∃ message, parseProgram (ts ++ [last]) = .error (.parseError message) := by
  have hends : Ends (ts ++ [last]) := ⟨ts, last, rfl, hlast, hts⟩
  have henough : 20 * (ts ++ [last]).length + 14 < fuelFor (ts ++ [last]) := by
    rw [fuelFor]
    omega
  have hsound := (sound (fuelFor (ts ++ [last]))).ternary hends
  rw [parseProgram]
  rcases hrun : parseTernary (fuelFor (ts ++ [last])) (ts ++ [last]) with r | ⟨e, rest⟩
  · rw [hrun] at hsound
    cases r with
    | parseError message => exact Or.inr ⟨message, rfl⟩
    | valueError t => exact absurd hsound id
    | outOfFuel => exact absurd henough hsound
  · rw [hrun] at hsound
    obtain ⟨hrest, used, hused, hd⟩ := hsound
    rw [ok_bind]
    rcases hcur : current rest with _ | _ | _ | _ | _
    case eof => exact Or.inl ⟨e, by simp only [hcur]; rfl, eq_of_current_eof hrest hused hcur ▸ hd⟩
    all_goals
      simp only [hcur]
      exact Or.inr (error_eq _ rest)

end Program

/-- **The parser accepts exactly the grammar**: it returns a tree for a sequence of tokens exactly
when the grammar derives it, there is one such tree then, and else it raises a parse error. -/
theorem parseProgram_iff (ts : List (Lexeme ν)) (hts : ∀ t ∈ ts, t.tok ≠ .eof) (last : Lexeme ν)
    (hlast : last.tok = .eof) :
    (∀ e, parseProgram (ts ++ [last]) = .ok e ↔ Derives .ternary ts e) ∧
      ((∃! e, Derives .ternary ts e) ∨
        ∃ message, parseProgram (ts ++ [last]) = .error (.parseError message)) := by
  have hiff : ∀ e, parseProgram (ts ++ [last]) = .ok e ↔ Derives .ternary ts e := by
    refine fun e => ⟨fun h => ?_, parseProgram_complete hlast⟩
    rcases parseProgram_cases hts hlast with ⟨e', he', hd⟩ | ⟨message, herror⟩
    · rw [h] at he'
      exact Except.ok.inj he' ▸ hd
    · rw [h] at herror
      cases herror
  refine ⟨hiff, ?_⟩
  rcases parseProgram_cases hts hlast with ⟨e, he, hd⟩ | herror
  · refine Or.inl ⟨e, hd, fun e' hd' => ?_⟩
    have he' := (hiff e').mpr hd'
    rw [he] at he'
    exact (Except.ok.inj he').symm
  · exact Or.inr herror

/-- `1 - 2 - 3` without its end: three numbers and two signs. -/
def oneMinusTwoMinusThree : List (Lexeme ℕ) :=
  [⟨.number 1, ['1']⟩, ⟨.sym .minus, ['-']⟩, ⟨.number 2, ['2']⟩, ⟨.sym .minus, ['-']⟩,
    ⟨.number 3, ['3']⟩]

/-- It is read from the left. -/
theorem parseProgram_minus : Derives .ternary oneMinusTwoMinusThree
    (.binOp .sub (.binOp .sub (.num 1) (.num 2)) (.num 3)) := by
  refine ((parseProgram_iff oneMinusTwoMinusThree ?_ ⟨.eof, []⟩ rfl).1 _).mp ?_
  · intro t ht
    simp only [oneMinusTwoMinusThree, List.mem_cons, List.not_mem_nil, or_false] at ht
    rcases ht with rfl | rfl | rfl | rfl | rfl <;> simp
  · rfl

end OsmParquet.EvaluatorGrammar
