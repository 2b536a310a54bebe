import OsmParquet.IdFilters
import OsmParquet.QlNesting

/-!
What the parser of the query language answers.

A query is a program or a parse error with a place in its text, unless the lexer comes to digits
that `float` does not take or the parser to something it has no number or no room for.
-/

namespace OsmParquet.QlAnswers

open OsmParquet.Scanning OsmParquet.IfLexing OsmParquet.QlLexer OsmParquet.QlParser
  OsmParquet.Outcomes
open OsmParquet.QlSteps OsmParquet.QlRefusals OsmParquet.QlNesting

/-! ### The lexer -/

section Lexer

variable {ν : Type} {cc : CharClasses} {float : Text → Option ν} {text s : List Char}
  {i j k : ℕ} {c : Char} {r : Raised} {t : Token ν}

/-- An error in a literal is at its quote or at a character of it. -/
lemma readString_error {q : Char} {message : String} (h : readString q j s = .error (message, k)) :
    k = 0 ∨ (j ≤ k ∧ k < j + s.length) := by
  have hmap : ∀ {x : Except (String × ℕ) (Text × ℕ)} {f : Text × ℕ → Text × ℕ},
      x.map f = .error (message, k) → x = .error (message, k) := by
    rintro (e | v) f h
    · cases h
      rfl
    · cases h
  fun_induction readString q j s with
  | case1 =>
    cases h
    exact Or.inl rfl
  | case2 => cases h
  | case3 =>
    cases h
    exact Or.inr ⟨le_rfl, by simp⟩
  | case4 j code a b c d rest hq hcode ih =>
    simp only [hcode] at h
    rcases ih (hmap h) with h | ⟨h₁, h₂⟩
    · exact Or.inl h
    · exact Or.inr ⟨by omega, by simp only [List.length_cons]; omega⟩
  | case5 j rest hshort hq =>
    rcases hcode : hexEscape? rest with _ | code
    · rw [hcode] at h
      cases h
      exact Or.inr ⟨le_rfl, by simp⟩
    · rcases rest with _ | ⟨a, _ | ⟨b, _ | ⟨c, _ | ⟨d, rest⟩⟩⟩⟩
      iterate 4 cases hcode
      exact absurd rfl (hshort code a b c d rest hcode)
  | case6 j esc rest hu hq ih =>
    rcases ih (hmap h) with h | ⟨h₁, h₂⟩
    · exact Or.inl h
    · exact Or.inr ⟨by omega, by simp only [List.length_cons]; omega⟩
  | case7 =>
    cases h
    exact Or.inr ⟨le_rfl, by simp⟩
  | case8 j c rest hq hb hn ih =>
    rcases ih (hmap h) with h | ⟨h₁, h₂⟩
    · exact Or.inl h
    · exact Or.inr ⟨by omega, by simp only [List.length_cons]; omega⟩

/-- Digits that `float` does not take. -/
def NumberRefused (cc : CharClasses) (float : Text → Option ν) : List Char → Prop
  | [] => False
  | c :: s =>
    cc.isdigit c = true ∧ float (codePoints ((c :: s).take (numberLength cc (c :: s)))) = none

/-- A step of the lexer fails in the text in front of it, or at such digits. -/
lemma lexStep_error (h : lexStep cc float text i (c :: s) = .error r) :
    (r = .valueError ∧ NumberRefused cc float (c :: s)) ∨
      ∃ message j, j ≤ s.length ∧ r = raiseAt text (i + j) message := by
  rw [lexStep] at h
  split at h
  · cases h
  split at h
  · cases h
  · split at h
    · cases h
    · cases h
      exact Or.inr ⟨_, 0, Nat.zero_le _, rfl⟩
  · split at h
    · split at h
      · cases h
      · rename_i message j hread
        cases h
        refine Or.inr ⟨message, j, ?_, rfl⟩
        rcases readString_error hread with rfl | ⟨-, hlt⟩
        · exact Nat.zero_le _
        · omega
    · split at h
      · cases h
      · split at h
        · rename_i hc
          dsimp only at h
          split at h
          · cases h
          · rename_i hf
            cases h
            exact Or.inl ⟨rfl, hc, hf⟩
        · split at h
          · cases h
          · cases h
            exact Or.inr ⟨_, 0, Nat.zero_le _, rfl⟩

lemma lexStep_refused (h : NumberRefused cc float (c :: s)) :
    lexStep cc float text i (c :: s) = .error .valueError := by
  obtain ⟨hc, hf⟩ := h
  obtain ⟨hb, hslash, hq, hsym⟩ := textual_start (s := s)
    (show (cc.isdigit c || cc.isalpha c || c = '_') = true by simp [hc])
  rw [lexStep_text hb (comment_none hslash) hq hsym, if_pos hc, hf]

/-- A token knows where it stands, and is not the end of the text. -/
lemma lexStep_token (h : lexStep cc float text i (c :: s) = .ok (some t, k)) :
    t.start = i ∧ (t.line, t.col) = lineCol text i := by
  have htoken : ∀ {tok n}, tokenAt text i (c :: s) tok n = (some t, k) →
      t.start = i ∧ (t.line, t.col) = lineCol text i := by
    intro tok n h
    cases h
    exact ⟨rfl, rfl⟩
  rw [lexStep] at h
  split at h
  · cases h
  split at h
  · cases h
  · split at h
    · cases h
    · cases h
  · split at h
    · split at h
      · exact htoken (Except.ok.inj h)
      · cases h
    · split at h
      · exact htoken (Except.ok.inj h)
      · split at h
        · dsimp only at h
          split at h
          · exact htoken (Except.ok.inj h)
          · cases h
        · split at h
          · exact htoken (Except.ok.inj h)
          · cases h

/-- Every token of a text knows its line and its column. -/
lemma tokenize_lineCol {ts : List (Token ν)} (h : tokenize cc float text = .ok ts) :
    ∀ t ∈ ts, (t.line, t.col) = lineCol text t.start := by
  rcases hscan : scan (lexStep cc float text) 0 text with r | us
  · rw [tokenize, hscan] at h
    cases h
  rw [tokenize, hscan] at h
  cases h
  have hp : Progresses (lexStep cc float text) := lexStep_progresses
  have htokens : ∀ t ∈ us, (t.line, t.col) = lineCol text t.start := by
    refine scan_induction @hp
      (motive := fun _ _ ts => ∀ t ∈ ts, (t.line, t.col) = lineCol text t.start) (by simp) ?_
      hscan
    intro i c s t k ts hstep _ ih u hu
    rcases List.mem_append.mp hu with hu | hu
    · rcases t with _ | t
      · cases hu
      · cases List.mem_singleton.mp hu
        obtain ⟨hstart, hlineCol⟩ := lexStep_token hstep
        rw [hstart, hlineCol]
    · exact ih u hu
  intro t ht
  rcases List.mem_append.mp ht with ht | ht
  · exact htokens t ht
  · cases List.mem_singleton.mp ht
    rfl

/-- The tokens end with the end of the text. -/
lemma left_of_tokenize {ts : List (Token ν)} (h : tokenize cc float text = .ok ts) :
    Left ts ts := by
  rcases hscan : scan (lexStep cc float text) 0 text with r | us
  · rw [tokenize, hscan] at h
    cases h
  rw [tokenize, hscan] at h
  cases h
  exact ⟨List.suffix_rfl, us, eofToken text, rfl, rfl⟩

end Lexer

/-! ### What is not a parse error -/

section Foreign

variable {ν : Type} {fl : Floats ν} {cc : CharClasses} {text : List Char}
  {ts : List (Token ν)} {r : Raised}

/-- The exceptions of `float`, of `int` and of a full stack. -/
def Foreign (r : Raised) : Prop := r = .valueError ∨ r = .overflowError ∨ r = .recursionError

lemma Foreign.ne_parseError (h : Foreign r) {message : String} {line column : ℕ} :
    r ≠ .parseError message line column := by
  rcases h with rfl | rfl | rfl <;> simp

lemma foreign_of_filter (h : FilterRefused fl cc r ts) : Foreign r := by
  cases h with
  | named _ _ h =>
    cases h with
    | ids => exact Or.inr (Or.inl rfl)
    | uid => exact Or.inr (Or.inl rfl)
    | moreUids => exact Or.inr (Or.inl rfl)
    | area => exact Or.inr (Or.inl rfl)
    | poly => exact Or.inl rfl
  | numbers _ _ _ _ _ _ hr => exact Or.inr (Or.inl hr)

lemma foreign_of_open {nested : Parser ν (Option (Statement ν))}
    {R : Raised → List (Token ν) → Prop} (hR : ∀ r ts, R r ts → Foreign r)
    (h : OpenRefused fl cc text nested R r ts) : Foreign r := by
  have hbody : ∀ {what us}, BodyRefused nested R what r us → Foreign r := by
    rintro what us ⟨_, _, _, _, h⟩
    exact hR _ _ h
  cases h with
  | query _ _ h =>
    cases h with
    | filter _ _ h => exact foreign_of_filter h
  | out _ _ hr => exact Or.inr (Or.inl hr)
  | dotOut _ _ _ _ hr => exact Or.inr (Or.inl hr)
  | timeline _ _ hr => exact Or.inr (Or.inl hr)
  | block h =>
    cases h with
    | statement _ _ _ _ _ h => exact hR _ _ h
  | foreach _ _ _ h => exact hbody h
  | if' _ _ h => exact hbody h
  | else' _ _ _ _ h => exact hbody h
  | retro _ _ h => exact hbody h

lemma foreign_of_statement (depth : ℕ) : ∀ r ts, StatementRefused fl cc text depth r ts →
    Foreign r := by
  induction depth with
  | zero => exact fun r ts h => Or.inr (Or.inr h)
  | succ depth ih => exact fun r ts h => foreign_of_open ih h

lemma foreign_of_program {depth : ℕ} (h : ProgramRefused fl cc text depth r ts) : Foreign r := by
  cases h with
  | settings _ hr => exact Or.inr (Or.inl hr)
  | statement _ _ _ h => exact foreign_of_statement depth _ _ h

end Foreign

/-! ### Programs and parse errors -/

/-- Where a message may point: to a token, or to what the lexer could not read. -/
inductive Place {ν : Type} (cc : CharClasses) (float : Text → Option ν) (text : List Char) : ℕ →
    Prop
  | token {ts : List (Token ν)} {t : Token ν} (hts : tokenize cc float text = .ok ts)
    (ht : t ∈ ts) :
      Place cc float text t.start
  | unread {i j : ℕ} {c : Char} {s : List Char} {r : Raised}
      (hreaches : Reaches (lexStep cc float text) 0 text i (c :: s))
      (hstuck : lexStep cc float text i (c :: s) = .error r) (hj : j ≤ s.length) :
      Place cc float text (i + j)

/-- A program, or a parse error with the line and the column of such a place. -/
def Answers {ν : Type} (fl : Floats ν) (cc : CharClasses) (text : List Char)
    (result : Except Raised (Program ν)) : Prop :=
  (∃ program, result = .ok program) ∨ ∃ message offset, Place cc fl.ofText text offset ∧
    result = .error (.parseError message (lineCol text offset).1 (lineCol text offset).2)

section Parse

variable {ν : Type} {fl : Floats ν} {cc : CharClasses} {text : List Char} {depth : ℕ} {r : Raised}
  {tokens : List (Token ν)}

lemma not_answers (h : Foreign r) : ¬ Answers fl cc text (.error r) := by
  rintro (⟨program, hok⟩ | ⟨message, offset, -, herror⟩)
  · cases hok
  · exact h.ne_parseError (Except.error.inj herror)

/-- **The lexer fails at digits that are refused or at a place of the text.** -/
lemma answers_of_lexer (h : tokenize cc fl.ofText text = .error r) :
    Answers fl cc text (.error r) ↔
      ∀ i s, Reaches (lexStep cc fl.ofText text) 0 text i s → ¬ NumberRefused cc fl.ofText s := by
  have hp : Progresses (lexStep cc fl.ofText text) := lexStep_progresses
  have hscan : scan (lexStep cc fl.ofText text) 0 text = .error r := by
    rcases hscan : scan (lexStep cc fl.ofText text) 0 text with r' | ts
    · rw [tokenize, hscan] at h
      cases h
      rfl
    · rw [tokenize, hscan] at h
      cases h
  obtain ⟨i, c, s, hreaches, hstuck⟩ := (scan_error_iff @hp).mp hscan
  rcases lexStep_error hstuck with ⟨rfl, hrefused⟩ | ⟨message, j, hj, rfl⟩
  · exact ⟨fun h => absurd h (not_answers (Or.inl rfl)), fun h => absurd hrefused (h i _ hreaches)⟩
  · refine ⟨fun _ i' s' hreaches' hrefused => ?_,
      fun _ => Or.inr ⟨_, i + j, .unread hreaches hstuck hj, rfl⟩⟩
    rcases s' with _ | ⟨c', s'⟩
    · exact hrefused
    have hvalue := (scan_error_iff @hp).mpr ⟨i', c', s', hreaches', lexStep_refused hrefused⟩
    rw [hscan] at hvalue
    cases hvalue

lemma parse_of_tokens (h : tokenize cc fl.ofText text = .ok tokens) :
    parse fl cc text depth = (parseProgram fl cc text depth tokens).map Prod.fst := by
  rw [parse, h]
  show (parseProgram fl cc text depth tokens >>= _) = _
  rcases parseProgram fl cc text depth tokens with r | ⟨program, rest⟩ <;> rfl

/-- **The parser answers**, unless the rules find something that is refused. -/
lemma answers_of_tokens (h : tokenize cc fl.ofText text = .ok tokens) :
    Answers fl cc text (parse fl cc text depth) ↔
      ∀ r, ¬ ProgramRefused fl cc text depth r tokens := by
  have hts : Left tokens tokens := left_of_tokenize h
  have hparse : parse fl cc text depth = _ := parse_of_tokens h
  rcases hrun : parseProgram fl cc text depth tokens with r | ⟨program, rest⟩
  · rw [hparse, hrun]
    rcases (steps_parseProgram hts).error hrun with ⟨message, t, ht, rfl⟩ | hrefused
    · refine ⟨fun _ r' hrefused => ?_, fun _ => Or.inr ⟨message, t.start, .token h ht, ?_⟩⟩
      · have hforeign := error_parseProgram hts hrefused
        rw [hrun] at hforeign
        exact (foreign_of_program hrefused).ne_parseError (Except.error.inj hforeign).symm
      · rw [← tokenize_lineCol h t ht]
        rfl
    · exact ⟨fun h => absurd h (not_answers (foreign_of_program hrefused)),
        fun h => absurd hrefused (h r)⟩
  · rw [hparse, hrun]
    refine ⟨fun _ r hrefused => ?_, fun _ => Or.inl ⟨program, rfl⟩⟩
    rw [error_parseProgram hts hrefused] at hrun
    cases hrun

end Parse

/-- **When a query is answered.** The parser gives a program or a parse error with a place in the
text exactly when the lexer comes to no digits that `float` refuses, and the parser to no infinite
number where it wants an integer, no word of a polygon that is no number and no statement without
room. -/
theorem parse_answers_iff {ν : Type} (fl : Floats ν) (cc : CharClasses)
    (text : List Char) (depth : ℕ) : Answers fl cc text (parse fl cc text depth) ↔
      (∀ i s, Reaches (lexStep cc fl.ofText text) 0 text i s → ¬ NumberRefused cc fl.ofText s) ∧
      ∀ tokens r, tokenize cc fl.ofText text = .ok tokens →
        ¬ ProgramRefused fl cc text depth r tokens := by
  rcases h : tokenize cc fl.ofText text with r | tokens
  · have hparse : parse fl cc text depth = .error r := by
      rw [parse, h]
      rfl
    rw [hparse, answers_of_lexer h]
    simp
  · have hp : Progresses (lexStep cc fl.ofText text) := lexStep_progresses
    have hlexer : ∀ i s, Reaches (lexStep cc fl.ofText text) 0 text i s →
        ¬ NumberRefused cc fl.ofText s := by
      rintro i (_ | ⟨c, s⟩) hreaches hrefused
      · exact hrefused
      have hscan := (scan_error_iff @hp).mpr ⟨i, c, s, hreaches, lexStep_refused hrefused⟩
      rw [tokenize, hscan] at h
      cases h
    rw [answers_of_tokens h]
    constructor
    · rintro hparser
      refine ⟨hlexer, ?_⟩
      rintro _ r ⟨⟩
      exact hparser r
    · exact fun hboth r => hboth.2 tokens r rfl

/-! ### Texts that are not answered -/

section Unanswered

variable {ν : Type} {fl : Floats ν} {cc : CharClasses} {text : List Char} {j : ℕ}

/-- Open parentheses. -/
lemma scan_parens (cc : CharClasses) (float : Text → Option ν) (text : List Char) (n j : ℕ) : ∃ ts,
    scan (lexStep cc float text) j (List.replicate n '(') = .ok ts ∧ ts.length = n ∧
      ∀ t ∈ ts, t.tok = .sym .lparen := by
  induction n generalizing j with
  | zero => exact ⟨[], rfl, rfl, by simp⟩
  | succ n ih =>
    obtain ⟨t, ht, hcut⟩ := QlRuns.cuts_mark cc float text (c := '(') (by decide) rfl j
      (List.replicate n '(')
    obtain ⟨ts, hscan, hlen, hts⟩ := ih (j + 1)
    refine ⟨t :: ts, hcut.scan hscan, by rw [List.length_cons, hlen], ?_⟩
    intro u hu
    rcases List.mem_cons.mp hu with rfl | hu
    · exact ht
    · exact hts u hu

/-- A block in a block in a block finds no room. -/
lemma statementRefused_parens (depth : ℕ) (t : Token ν) (ts us : List (Token ν))
    (hlen : ts.length = depth) (hts : ∀ u ∈ t :: ts, u.tok = .sym .lparen) :
    StatementRefused fl cc text depth .recursionError (t :: (ts ++ us)) := by
  induction depth generalizing t ts with
  | zero => rfl
  | succ depth ih =>
    rcases ts with _ | ⟨u, ts⟩
    · cases hlen
    have hu := hts u (by simp)
    refine .block (.statement (hts t List.mem_cons_self) (.none _ _) (by simp [hu]) (by simp [hu])
      (by simp [hu]) ?_)
    exact ih u ts (by simpa using hlen) fun v hv => hts v (List.mem_cons_of_mem t hv)

/-- **Whatever room there is, some text needs more.** -/
theorem parse_nested (fl : Floats ν) (cc : CharClasses) (depth : ℕ) :
    parse fl cc (List.replicate (depth + 1) '(') depth = .error .recursionError := by
  set text := List.replicate (depth + 1) '(' with htext
  obtain ⟨ts, hscan, hlen, hts⟩ := scan_parens cc fl.ofText text (depth + 1) 0
  rcases ts with _ | ⟨t, ts⟩
  · cases hlen
  have htokens : tokenize cc fl.ofText text = .ok (t :: (ts ++ [eofToken text])) := by
    rw [tokenize, hscan]
    rfl
  have ht := hts t List.mem_cons_self
  have hsettings : parseSettings fl (t :: (ts ++ [eofToken text])) =
      .ok ({}, t :: (ts ++ [eofToken text])) :=
    QlRuns.run_parseSettings (by rw [QlRuns.isSym_of_tok ht]; rfl)
  have hrefused : ProgramRefused fl cc text depth .recursionError (t :: (ts ++ [eofToken text])) :=
    .statement hsettings (.none _ _) (by simp [ht])
      (statementRefused_parens depth t ts _ (by simpa using hlen) hts)
  rw [parse_of_tokens htokens, error_parseProgram (left_of_tokenize htokens) hrefused]
  rfl

end Unanswered

/-- A digit of `str.isdigit` that `float` does not take. -/
def raised (c : Char) : Bool := c = '²'

lemma raised_ascii (p : Char → Bool) (c : Char) (h : c.toNat < 128) : (p c || raised c) = p c := by
  have hne : c ≠ '²' := by
    rintro rfl
    exact absurd h (by decide)
  rw [raised, decide_eq_false hne, Bool.or_false]

lemma raised_not_isspace (c : Char) (h : (c.isDigit || raised c) || c.isAlpha ||
    (c.isAlphanum || raised c)) : asciiClasses.isspace c = false := by
  by_cases hc : c = '²'
  · subst hc
    rfl
  · have hraised : raised c = false := decide_eq_false hc
    rw [hraised, Bool.or_false, Bool.or_false] at h
    exact asciiClasses.not_isspace c h

/-- With one digit that is not in ASCII. -/
def raisedClasses : CharClasses where
  isdigit c := c.isDigit || raised c
  isalpha := Char.isAlpha
  isalnum c := c.isAlphanum || raised c
  isspace := asciiClasses.isspace
  repr := asciiClasses.repr
  isdigit_ascii := raised_ascii Char.isDigit
  isalpha_ascii := asciiClasses.isalpha_ascii
  isalnum_ascii := raised_ascii Char.isAlphanum
  isspace_ascii := asciiClasses.isspace_ascii
  not_isspace := raised_not_isspace

lemma not_answers_of_map {ν : Type} {fl : Floats ν} {cc : CharClasses}
    {text : List Char} {r : Raised} {result : Except Raised (Program ν)}
    (h : result.map (fun _ => ()) = .error r) (hr : Foreign r) : ¬ Answers fl cc text result := by
  rcases result with r' | program
  · cases h
    exact not_answers hr
  · cases h

/-- Words in a polygon, a raised digit and four blocks with room for three are not answered. -/
theorem parse_unanswered :
    ¬ Answers IdFilters.doubles asciiClasses "node(poly:'a b c d e f');".toList
        (parse IdFilters.doubles asciiClasses "node(poly:'a b c d e f');".toList 1) ∧
      ¬ Answers IdFilters.doubles raisedClasses "out 1²;".toList
        (parse IdFilters.doubles raisedClasses "out 1²;".toList 1) ∧
      ¬ Answers IdFilters.doubles asciiClasses "((((".toList
        (parse IdFilters.doubles asciiClasses "((((".toList 3) :=
  ⟨not_answers_of_map (r := .valueError) (by decide +kernel) (Or.inl rfl),
    not_answers_of_map (r := .valueError) (by decide) (Or.inl rfl),
    not_answers_of_map (r := .recursionError) (by decide) (Or.inr (Or.inr rfl))⟩

end OsmParquet.QlAnswers
