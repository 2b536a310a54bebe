import OsmParquet.EvaluatorGrammar
import OsmParquet.QlRuns

/-!
Expressions in the filter `(if: ...)` of a query.

The parser of the query language keeps the source of an expression up to the parenthesis that closes
the filter, and the evaluator parses that source on its own. An expression that the evaluator
accepts goes through the first parser exactly when it uses no operator that only the evaluator's
lexer knows: these are `+`, `*`, `/`, `&&`, `||` and `? :`, although the documentation lists them
for this filter.
-/

namespace OsmParquet.IfFilters

open OsmParquet.Scanning OsmParquet.IfLexing OsmParquet.Outcomes OsmParquet.QlRuns

/-! ### The evaluator without the blanks around an expression -/

section Trim

variable {ν : Type} {cc : CharClasses} {float : List Char → Option ν} {i k : ℕ} {c q : Char}
  {s b : List Char}

/-- What is read first, back in the lexer. -/
lemma lexStep_of_reads {t : Option (Evaluator.Token ν)} (h : EvaluatorReads cc float i c s t k) :
    Evaluator.lexStep cc float i (c :: s) = .ok (t, k) := by
  cases h with
  | blank hc => rw [Evaluator.lexStep, if_pos hc]
  | literal hb hq hread =>
    simp only [Evaluator.lexStep, hb, hq, hread]
    rfl
  | operator hb hq hread =>
    simp only [Evaluator.lexStep, hb, hq, hread]
    rfl
  | number hb hq hsym hc hf =>
    simp only [Evaluator.lexStep, hb, hq, hsym, beginsNumber_iff hsym, hc, hf]
    rfl
  | word hb hq hsym hd hc =>
    simp only [Evaluator.lexStep, hb, hq, hsym, beginsNumber_iff hsym, hd, hc]
    rfl

lemma not_mem_of_blank (hq : Evaluator.isQuote q = true) (hb : ∀ c ∈ b, blank c = true) :
    q ∉ b := by
  intro h
  have := (blank_plain (hb q h)).1
  rw [hq] at this
  cases this

/-- A literal needs its closing quote. -/
lemma readString_mem {v : List Char} (hq : Evaluator.isQuote q = true)
    (h : Evaluator.readString q s = some (v, k)) : q ∈ s :=
  List.mem_of_mem_take (List.mem_of_mem_getLast? (literalRead hq h).last)

/-- Text without quotes after a literal is not read. -/
lemma readString_of_append {v : List Char} (hq : Evaluator.isQuote q = true) (hb : q ∉ b)
    (h : Evaluator.readString q (s ++ b) = some (v, k)) :
    Evaluator.readString q s = some (v, k) := by
  have hne : '\\' ≠ q := by
    rintro rfl
    cases hq
  induction hn : s.length using Nat.strong_induction_on generalizing s v k with
  | _ n ih =>
    subst hn
    have hmap : ∀ {u : List Char} {f : List Char × ℕ → List Char × ℕ}, u.length < s.length →
        (Evaluator.readString q (u ++ b)).map f = some (v, k) →
        (Evaluator.readString q u).map f = some (v, k) := by
      intro u f hlt hu
      rcases hread : Evaluator.readString q (u ++ b) with _ | ⟨v', k'⟩
      · rw [hread] at hu
        cases hu
      · rwa [ih u.length hlt hread rfl, ← hread]
    rcases s with _ | ⟨c, s⟩
    · exact absurd (readString_mem hq h) hb
    by_cases hcq : c = q
    · subst hcq
      rw [List.cons_append, evaluator_close] at h
      rw [evaluator_close, h]
    by_cases hcb : c = '\\'
    · subst hcb
      rcases s with _ | ⟨esc, s⟩
      · -- the blank after a backslash is escaped, and no quote follows
        rcases b with _ | ⟨e, b⟩
        · exact h
        · rw [List.cons_append, List.nil_append, evaluator_escape hne] at h
          rcases hread : Evaluator.readString q b with _ | ⟨v', k'⟩
          · rw [hread] at h
            cases h
          · exact absurd (List.mem_cons_of_mem e (readString_mem hq hread)) hb
      · rw [List.cons_append, List.cons_append, evaluator_escape hne] at h
        rw [evaluator_escape hne]
        exact hmap (by simp only [List.length_cons]; omega) h
    · rw [List.cons_append, evaluator_ordinary hcq hcb] at h
      rw [evaluator_ordinary hcq hcb]
      exact hmap (by simp) h

/-- A symbol is not read across blanks. -/
lemma symbols_of_append (hb : ∀ c ∈ b, blank c = true) :
    Evaluator.symbols.read (c :: (s ++ b)) = Evaluator.symbols.read (c :: s) := by
  rcases s with _ | ⟨d, s⟩
  · rcases b with _ | ⟨e, b⟩
    · rfl
    · rw [List.nil_append, Symbols.read, Symbols.read]
      rcases hdouble : Evaluator.symbols.double c e with _ | x
      · rfl
      · have hblank := hb e List.mem_cons_self
        obtain ⟨-, he, -⟩ := evaluator_double (ν := Unit) hdouble
        rw [(operator_plain he).2] at hblank
        cases hblank
  · rfl

/-- Blanks end words and numbers. -/
lemma blank_stops (hb : ∀ c ∈ b, blank c = true) : ∀ d ∈ b.head?,
    (cc.isdigit d = false ∧ d ≠ '.') ∧ wordChar cc d = false := by
  intro d hd
  have hblank := hb d (List.mem_of_mem_head? hd)
  have hmark : d ∈ marks := by
    simp only [blank, Bool.or_eq_true, decide_eq_true_eq] at hblank
    rcases hblank with ((rfl | rfl) | rfl) | rfl <;> decide
  have htext : textual cc d = false := textual_of_mem_marks hmark
  simp only [textual, Bool.or_eq_false_iff, decide_eq_false_iff_not] at htext
  exact ⟨⟨htext.1.1.1.1, htext.2⟩, by simp [wordChar, htext]⟩

/-- What is read first does not depend on blanks at the end, nor on where the text stands. -/
lemma reads_of_append {t : Option (Evaluator.Token ν)} (hb : ∀ c ∈ b, blank c = true)
    (h : EvaluatorReads cc float i c (s ++ b) t k) (i' : ℕ) : k ≤ (c :: s).length ∧
      ∃ t', EvaluatorReads cc float i' c s t' k ∧
        t'.map Evaluator.Token.toLexeme = t.map Evaluator.Token.toLexeme := by
  have htake : ∀ {n : ℕ}, n ≤ (c :: s).length → (c :: (s ++ b)).take n = (c :: s).take n :=
    fun hn => List.take_append_of_le_length hn
  cases h with
  | blank hc => exact ⟨by simp, none, .blank hc, rfl⟩
  | @literal v k hc hq hread =>
    have hread' := readString_of_append hq (not_mem_of_blank hq hb) hread
    have hle : k + 1 ≤ (c :: s).length := by
      have := (literalRead hq hread').le
      rw [List.length_cons]
      omega
    refine ⟨hle, _, .literal hc hq hread', ?_⟩
    rw [htake hle]
    rfl
  | operator hc hq hread =>
    rw [symbols_of_append hb] at hread
    have hle : k ≤ (c :: s).length := by
      rcases Symbols.read_cases hread with ⟨rfl, -⟩ | ⟨rfl, d, r, rfl, -⟩ <;> simp
    refine ⟨hle, _, .operator hc hq hread, ?_⟩
    rw [htake hle]
    rfl
  | number hc hq hsym hd hf =>
    rw [symbols_of_append hb] at hsym
    have hlen : numberLength cc (c :: (s ++ b)) = numberLength cc (c :: s) :=
      numberLength_append (s := c :: s) fun d hd => (blank_stops hb d hd).1
    have hle : numberLength cc (c :: s) ≤ (c :: s).length := numberLength_take.1
    rw [hlen] at hf ⊢
    rw [htake hle] at hf ⊢
    exact ⟨hle, _, .number hc hq hsym hd hf, rfl⟩
  | word hc hq hsym hd hw =>
    rw [symbols_of_append hb] at hsym
    have hlen : wordLength cc (c :: (s ++ b)) = wordLength cc (c :: s) :=
      wordLength_append (s := c :: s) (fun d hd => (blank_stops hb d hd).2) (by simp)
    have hle := (wordLength_take (s := s) hw).1
    rw [hlen, htake hle]
    exact ⟨hle, _, .word hc hq hsym hd hw, rfl⟩

lemma scan_blanks (hb : ∀ c ∈ b, blank c = true) :
    scan (Evaluator.lexStep cc float) i b = .ok [] := by
  have hp : Progresses (Evaluator.lexStep cc float) := evaluator_progresses
  induction b generalizing i with
  | nil => rfl
  | cons c b ih =>
    have hreads : EvaluatorReads cc float i c b none 1 := .blank (hb c List.mem_cons_self)
    rw [scan_of_step @hp (lexStep_of_reads hreads), List.drop_succ_cons, List.drop_zero,
      ih fun d hd => hb d (List.mem_cons_of_mem _ hd)]
    rfl

/-- **Blanks after an expression change no token.** -/
lemma scan_of_append {ts : List (Evaluator.Token ν)} (hb : ∀ c ∈ b, blank c = true)
    (h : scan (Evaluator.lexStep cc float) i (s ++ b) = .ok ts) (i' : ℕ) : ∃ ts',
      scan (Evaluator.lexStep cc float) i' s = .ok ts' ∧
        ts'.map Evaluator.Token.toLexeme = ts.map Evaluator.Token.toLexeme := by
  have hp : Progresses (Evaluator.lexStep cc float) := evaluator_progresses
  induction hn : s.length using Nat.strong_induction_on generalizing s i i' ts with
  | _ n ih =>
    subst hn
    rcases s with _ | ⟨c, s⟩
    · rw [List.nil_append, scan_blanks hb] at h
      cases h
      exact ⟨[], rfl, rfl⟩
    rw [List.cons_append] at h
    obtain ⟨t, k, us, hstep, hk, hrest, rfl⟩ := scan_ok_cons @hp h
    obtain ⟨hle, t', hreads, ht⟩ := reads_of_append hb (evaluator_step hstep) i'
    have hlt : ((c :: s).drop k).length < (c :: s).length := by
      rw [List.length_drop, List.length_cons]
      omega
    rw [← List.cons_append, List.drop_append_of_le_length hle] at hrest
    obtain ⟨us', hus', hmap⟩ := ih _ hlt hrest (i' + k) rfl
    refine ⟨t'.toList ++ us', ?_, ?_⟩
    · rw [scan_of_step @hp (lexStep_of_reads hreads), hus']
      rfl
    · rw [List.map_append, List.map_append, hmap]
      rcases t with _ | t <;> rcases t' with _ | t'
      · rfl
      · cases ht
      · cases ht
      · simp only [Option.toList_some, List.map_cons, List.map_nil, Option.some.inj ht]

lemma scan_skip {a : List Char} (ha : ∀ c ∈ a, blank c = true) :
    scan (Evaluator.lexStep cc float) i (a ++ s) = scan (Evaluator.lexStep cc float)
      (i + a.length) s := by
  have hp : Progresses (Evaluator.lexStep cc float) := evaluator_progresses
  induction a generalizing i with
  | nil => rfl
  | cons c a ih =>
    have hreads : EvaluatorReads cc float i c (a ++ s) none 1 := .blank (ha c List.mem_cons_self)
    rw [List.cons_append, scan_of_step @hp (lexStep_of_reads hreads), List.drop_succ_cons,
      List.drop_zero, ih fun d hd => ha d (List.mem_cons_of_mem _ hd), List.length_cons,
        Nat.add_assoc, Nat.add_comm 1]
    show Except.map id _ = _
    rw [Except.map_id]
    rfl

lemma parse_eq {ts : List (Evaluator.Token ν)}
    (h : scan (Evaluator.lexStep cc float) 0 s = .ok ts) : Evaluator.parse cc float s =
      Evaluator.parseProgram (ts.map Evaluator.Token.toLexeme ++ [⟨.eof, []⟩]) := by
  rw [Evaluator.parse, Evaluator.tokenize, h]
  simp only [bind, Except.bind, pure, Except.pure, List.map_append, List.map_cons, List.map_nil]

/-- A text that is accepted has been cut into tokens. -/
lemma tokens_of_parse {e : Evaluator.Expr ν} (h : Evaluator.parse cc float s = .ok e) :
    ∃ ts, scan (Evaluator.lexStep cc float) 0 s = .ok ts := by
  rw [Evaluator.parse, Evaluator.tokenize] at h
  rcases hscan : scan (Evaluator.lexStep cc float) 0 s with r | ts
  · rw [hscan] at h
    cases h
  · exact ⟨ts, rfl⟩

/-- **Blanks around an expression change nothing.** -/
lemma parse_trim {a : List Char} {e : Evaluator.Expr ν} (ha : ∀ c ∈ a, blank c = true)
    (hb : ∀ c ∈ b, blank c = true) (h : Evaluator.parse cc float (a ++ (s ++ b)) = .ok e) :
    Evaluator.parse cc float s = .ok e := by
  obtain ⟨ts, hscan⟩ := tokens_of_parse h
  rw [parse_eq hscan] at h
  rw [scan_skip ha] at hscan
  obtain ⟨ts', hts', hmap⟩ := scan_of_append hb hscan 0
  rw [parse_eq hts', hmap, h]

end Trim

/-! ### Parentheses match -/

section Balance

/-- How many parentheses are open after a text, if none closes too early. -/
def depthAfter : ℕ → List Char → Option ℕ
  | d, [] => some d
  | 0, c :: s => if c = '(' then depthAfter 1 s else none
  | d + 1, c :: s => if c = '(' then depthAfter (d + 2) s else depthAfter d s

/-- Every parenthesis is closed, and by one of these. -/
def Balanced (ps : List Char) : Prop := ∀ d, depthAfter d ps = some d

lemma depthAfter_open (d : ℕ) (s : List Char) : depthAfter d ('(' :: s) = depthAfter (d + 1) s := by
  cases d <;> rfl

lemma depthAfter_append (d : ℕ) (ps qs : List Char) :
    depthAfter d (ps ++ qs) = (depthAfter d ps).bind fun d => depthAfter d qs := by
  induction ps generalizing d with
  | nil =>
    rw [depthAfter]
    rfl
  | cons c ps ih =>
    rcases d with _ | d
    · rw [List.cons_append, depthAfter, depthAfter]
      split
      · exact ih 1
      · rfl
    · rw [List.cons_append, depthAfter, depthAfter]
      split
      · exact ih (d + 2)
      · exact ih d

lemma balanced_nil : Balanced [] := fun d => by rw [depthAfter]

lemma Balanced.append {ps qs : List Char} (hp : Balanced ps) (hq : Balanced qs) :
    Balanced (ps ++ qs) := by
  intro d
  rw [depthAfter_append, hp d]
  exact hq d

lemma Balanced.parens {ps : List Char} (hp : Balanced ps) : Balanced ('(' :: (ps ++ [')'])) := by
  intro d
  rw [depthAfter_open, depthAfter_append, hp (d + 1), Option.bind_some, depthAfter,
    if_neg (by decide), depthAfter]

variable {ν : Type}

def parensOf (ts : List (Evaluator.Lexeme ν)) : List Char :=
  ts.filterMap fun t => evaluatorParen? t.tok

@[simp] lemma parensOf_nil : parensOf ([] : List (Evaluator.Lexeme ν)) = [] := rfl

@[simp] lemma parensOf_append (ts us : List (Evaluator.Lexeme ν)) :
    parensOf (ts ++ us) = parensOf ts ++ parensOf us := List.filterMap_append

@[simp] lemma parensOf_cons (t : Evaluator.Lexeme ν) (ts : List (Evaluator.Lexeme ν)) :
    parensOf (t :: ts) = (evaluatorParen? t.tok).toList ++ parensOf ts := by
  rw [parensOf, List.filterMap_cons]
  rcases evaluatorParen? t.tok with _ | c <;> rfl

/-- An operator of a level is no parenthesis. -/
lemma evaluatorParen_op {l : Evaluator.Level} {t : Evaluator.Tok ν} {op : Evaluator.Op}
    (h : l.op t = some op) : evaluatorParen? t = none := by
  rw [Evaluator.Level.op.eq_def] at h
  split at h
  all_goals first
    | rfl
    | cases h

lemma balanced_separated {parts : List (List (Evaluator.Lexeme ν))} {ts : List (Evaluator.Lexeme ν)}
    (h : EvaluatorGrammar.Separated parts ts) (hparts : ∀ p ∈ parts, Balanced (parensOf p)) :
    Balanced (parensOf ts) := by
  induction h with
  | none => exact balanced_nil
  | one x => exact hparts x List.mem_cons_self
  | more hcomma _ ih =>
    rw [parensOf_append, parensOf_cons, hcomma]
    exact (hparts _ List.mem_cons_self).append (ih fun p hp => hparts p (List.mem_cons_of_mem _ hp))

/-- **The parentheses of a sentence match.** -/
lemma balanced_of_derives {c : EvaluatorGrammar.Category} {ts : List (Evaluator.Lexeme ν)}
    {e : Evaluator.Expr ν} (h : EvaluatorGrammar.Derives c ts e) : Balanced (parensOf ts) := by
  induction h with
  | cond _ ih => exact ih
  | operand _ ih => exact ih
  | primary _ ih => exact ih
  | ternary hq hk _ _ _ ihc iht iho =>
    simpa [hq, hk, evaluatorParen?] using ihc.append (iht.append iho)
  | binary hop _ _ ihl ihr => simpa [evaluatorParen_op hop] using ihl.append ihr
  | not hb _ ih => simpa [hb, evaluatorParen?] using ih
  | neg hm _ ih => simpa [hm, evaluatorParen?] using ih
  | number ht => simpa [ht, evaluatorParen?] using balanced_nil
  | string ht => simpa [ht, evaluatorParen?] using balanced_nil
  | parens hl hr _ ih => simpa [hl, hr, evaluatorParen?] using ih.parens
  | tagAccess ht hl hk hr => simpa [ht, hl, hk, hr, evaluatorParen?] using balanced_nil
  | setCount hf hl hk _ hr => simpa [hf, hl, hk, hr, evaluatorParen?] using balanced_nil.parens
  | namedSetCount hd hs hd' hf hl hk _ hr =>
    simpa [hd, hs, hd', hf, hl, hk, hr, evaluatorParen?] using balanced_nil.parens
  | aggregate hf _ hl hr _ ih => simpa [hf, hl, hr, evaluatorParen?] using ih.parens
  | elementCall hf _ _ hl hr hsep _ ih =>
    have hparts := balanced_separated hsep (by simpa using ih)
    simpa [hf, hl, hr, evaluatorParen?] using hparts.parens

end Balance

/-! ### The source up to the parenthesis -/

section Capture

variable {ν α β : Type} {ts ts' rest : List (QlLexer.Token ν)} {t close : QlLexer.Token ν}

/-- One pass of the loop. -/
lemma run_capturePass {x : ℕ × ℕ} (ht : t.tok ≠ .eof) (hts : ts ≠ []) :
    QlParser.capturePass x (t :: ts) = .ok ((if QlParser.isSym .lparen t then x.1 + 1
      else if QlParser.isSym .rparen t then x.1 - 1 else x.1, t.stop), ts) := by
  have hend : QlParser.isEof t = false := by
    rw [QlParser.isEof]
    split
    · rename_i h
      exact absurd h ht
    · rfl
  rw [QlParser.capturePass]
  have hat : QlParser.atEnd (t :: ts) = .ok (false, t :: ts) := by rw [← hend]; rfl
  rw [bind_ok hat]
  exact run_advance hts _

/-- A token opens a parenthesis, closes one or does neither. -/
lemma paren_cases (t : QlLexer.Token ν) :
    (qlParen? t.tok = some '(' ∧ QlParser.isSym .lparen t = true ∧
      QlParser.isSym .rparen t = false) ∨
    (qlParen? t.tok = some ')' ∧ QlParser.isSym .lparen t = false ∧
      QlParser.isSym .rparen t = true) ∨
    (qlParen? t.tok = none ∧ QlParser.isSym .lparen t = false ∧
      QlParser.isSym .rparen t = false) := by
  rw [QlParser.isSym, QlParser.isSym]
  rcases t.tok with _ | _ | _ | x | _
  case sym => cases x <;> simp [qlParen?]
  all_goals simp [qlParen?]

/-- **The loop stops at the parenthesis that closes the filter**, with the end of the last token. -/
lemma run_captureLoop {mid : List (QlLexer.Token ν)} {d stop n : ℕ}
    (hclose : close.tok = .sym .rparen) (hne : ∀ t ∈ mid, t.tok ≠ .eof)
    (hdepth : depthAfter d (mid.filterMap fun t => qlParen? t.tok) = some 0) (hn : mid.length < n) :
    QlParser.whileSteps QlParser.captureOpen QlParser.capturePass n (d, stop)
      (mid ++ close :: rest) =
      .ok ((0, (mid.getLast?.map QlLexer.Token.stop).getD stop), close :: rest) := by
  induction mid generalizing d stop n with
  | nil =>
    obtain ⟨n, rfl⟩ := Nat.exists_eq_add_of_lt hn
    rw [List.filterMap_nil, depthAfter] at hdepth
    cases hdepth
    have hopen : QlParser.captureOpen (0, stop) close = false := by
      simp [QlParser.captureOpen, QlParser.isSym, hclose]
    rw [QlParser.whileSteps, List.nil_append, run_current, hopen]
    rfl
  | cons t mid ih =>
    obtain ⟨n, rfl⟩ : ∃ m, n = m + 1 := ⟨n - 1, by omega⟩
    have hne' : ∀ t ∈ mid, t.tok ≠ .eof := fun u hu => hne u (List.mem_cons_of_mem _ hu)
    have hn' : mid.length < n := by
      rw [List.length_cons] at hn
      omega
    have hlast : (t :: mid).getLast?.map QlLexer.Token.stop =
        some ((mid.getLast?.map QlLexer.Token.stop).getD t.stop) := by
      rw [List.getLast?_cons]
      rcases mid.getLast? with _ | u <;> rfl
    have hpass := run_capturePass (x := (d, stop)) (hne t List.mem_cons_self)
      (show mid ++ close :: rest ≠ [] by simp)
    rw [QlParser.whileSteps, List.cons_append, run_current, hlast, Option.getD_some]
    rw [List.filterMap_cons] at hdepth
    rcases paren_cases t with ⟨hp, hl, hr⟩ | ⟨hp, hl, hr⟩ | ⟨hp, hl, hr⟩
    · have hopen : QlParser.captureOpen (d, stop) t = true := by simp [QlParser.captureOpen, hr]
      rw [hp, depthAfter_open] at hdepth
      rw [hl, if_pos rfl] at hpass
      rw [hopen, if_pos rfl, bind_ok hpass]
      exact ih hne' hdepth hn'
    · rw [hp] at hdepth
      rcases d with _ | d
      · rw [depthAfter, if_neg (by decide)] at hdepth
        cases hdepth
      have hopen : QlParser.captureOpen (d + 1, stop) t = true := by simp [QlParser.captureOpen]
      rw [depthAfter, if_neg (by decide)] at hdepth
      rw [hl, hr, if_neg (by simp), if_pos rfl] at hpass
      rw [hopen, if_pos rfl, bind_ok hpass]
      exact ih hne' hdepth hn'
    · have hopen : QlParser.captureOpen (d, stop) t = true := by simp [QlParser.captureOpen, hr]
      rw [hp] at hdepth
      rw [hl, hr, if_neg (by simp), if_neg (by simp)] at hpass
      rw [hopen, if_pos rfl, bind_ok hpass]
      exact ih hne' hdepth hn'

lemma run_capture {cc : CharClasses} {text : List Char} {mid : List (QlLexer.Token ν)}
    {first last : QlLexer.Token ν} (hclose : close.tok = .sym .rparen)
    (hne : ∀ t ∈ mid, t.tok ≠ .eof) (hbalanced : Balanced (mid.filterMap fun t => qlParen? t.tok))
    (hfirst : mid.head? = some first) (hlast : mid.getLast? = some last) :
    QlParser.captureUntilMatchingRparen cc text (mid ++ close :: rest) =
      .ok (QlParser.slice cc text first.start last.stop, close :: rest) := by
  rcases mid with _ | ⟨t, mid⟩
  · cases hfirst
  cases hfirst
  have hloop : QlParser.whileSteps QlParser.captureOpen QlParser.capturePass
      ((first :: mid ++ close :: rest).length + 1) (0, first.start)
      (first :: mid ++ close :: rest) =
        .ok ((0, ((first :: mid).getLast?.map QlLexer.Token.stop).getD first.start),
          close :: rest) :=
    run_captureLoop hclose hne (hbalanced 0) (by
      simp only [List.length_append, List.length_cons]; omega)
  rw [hlast] at hloop
  have hwhile : QlParser.whileLoop QlParser.captureOpen QlParser.capturePass (0, first.start)
      (first :: mid ++ close :: rest) = .ok ((0, last.stop), close :: rest) := hloop
  rw [QlParser.captureUntilMatchingRparen, List.cons_append, run_current, ← List.cons_append,
    bind_ok hwhile]
  rfl

end Capture

/-! ### An expression in a query -/

/-- `node(if:E);`. -/
def embed (expression : List Char) : List Char :=
  "node(if:".toList ++ (expression ++ ");".toList)

lemma embed_eq (s : List Char) :
    embed s = ['n', 'o', 'd', 'e', '(', 'i', 'f', ':'] ++ (s ++ [')', ';']) := rfl

section Query

variable {ν : Type} {cc : CharClasses} {float : QlLexer.Text → Option ν} {text : List Char} {j : ℕ}
  {c : Char} {w s : List Char}

/-- The tokens of a query with tokens of an expression in it. -/
inductive QueryTokens : List (QlLexer.Token ν) → List (QlLexer.Token ν) → Prop
  | mk {node lparen if' colon rparen semi : QlLexer.Token ν} {ts : List (QlLexer.Token ν)}
      (hnode : node.tok = .ident "node") (hlparen : lparen.tok = .sym .lparen)
      (hif : if'.tok = .ident "if") (hcolon : colon.tok = .sym .colon)
      (hrparen : rparen.tok = .sym .rparen) (hsemi : semi.tok = .sym .semi) :
      QueryTokens ts (node :: lparen :: if' :: colon :: (ts ++ [rparen, semi]))

/-- What stands around an expression is read whatever the expression is. -/
lemma scan_embed (cc : CharClasses) (float : QlLexer.Text → Option ν) (text s : List Char) :
    ∃ pre post : List (QlLexer.Token ν), (∀ ts, QueryTokens ts (pre ++ (ts ++ post))) ∧
      scan (QlLexer.lexStep cc float text) 0 (embed s) =
        (scan (QlLexer.lexStep cc float text) 8 (s ++ [')', ';'])).map (pre ++ ·) ∧
      scan (QlLexer.lexStep cc float text) (8 + s.length) [')', ';'] = .ok post := by
  have hstop : ∀ {d : Char} {r : List Char}, d ∈ marks →
      ∀ e ∈ (d :: r).head?, wordChar cc e = false := by
    intro d r hd e he
    cases he
    exact wordChar_mark hd
  obtain ⟨node, hnode, e₁⟩ := scan_keyword cc float text (j := 0) (c := 'n')
    (w := ['o', 'd', 'e']) (s := '(' :: 'i' :: 'f' :: ':' :: (s ++ [')', ';']))
    (by decide) (by decide) (List.all_iff_forall_prop.mp (by decide)) (hstop (by decide))
  obtain ⟨lparen, hlparen, e₂⟩ := scan_mark cc float text (j := 4) (c := '(')
    (s := 'i' :: 'f' :: ':' :: (s ++ [')', ';'])) (by decide) rfl
  obtain ⟨if', hif, e₃⟩ := scan_keyword cc float text (j := 5) (c := 'i')
    (w := ['f']) (s := ':' :: (s ++ [')', ';'])) (by decide) (by decide)
    (List.all_iff_forall_prop.mp (by decide)) (hstop (by decide))
  obtain ⟨colon, hcolon, e₄⟩ := scan_mark cc float text (j := 7) (c := ':')
    (s := s ++ [')', ';']) (by decide) rfl
  obtain ⟨rparen, hrparen, e₅⟩ := scan_mark cc float text (j := 8 + s.length)
    (c := ')') (s := [';']) (by decide) rfl
  obtain ⟨semi, hsemi, e₆⟩ := scan_mark cc float text (j := 8 + s.length + 1)
    (c := ';') (s := []) (by decide) rfl
  refine ⟨[node, lparen, if', colon], [rparen, semi],
    fun ts => .mk hnode hlparen hif hcolon hrparen hsemi, ?_, ?_⟩
  · rw [embed_eq]
    rw [List.cons_append, List.nil_append] at e₃
    refine e₁.trans ?_
    rw [show 0 + (['o', 'd', 'e'].length + 1) = 4 from rfl, e₂, show 4 + 1 = 5 from rfl, e₃,
      show 5 + (['f'].length + 1) = 7 from rfl, e₄]
    rcases scan (QlLexer.lexStep cc float text) 8 (s ++ [')', ';']) with e | ts <;> rfl
  · rw [e₅, e₆]
    rfl

end Query

/-! ### The query -/

section Program

variable {ν : Type} {fl : QlParser.Floats ν} {cc : CharClasses} {text : List Char}
  {ts rest : List (QlLexer.Token ν)} {t u : QlLexer.Token ν}

variable {mid : List (QlLexer.Token ν)} {lparen if' colon rparen semi last : QlLexer.Token ν}

/-- The filter in parentheses. -/
lemma run_parseParenFilter (hlparen : lparen.tok = .sym .lparen) (hif : if'.tok = .ident "if")
    (hcolon : colon.tok = .sym .colon) (hrparen : rparen.tok = .sym .rparen) (hrest : rest ≠ [])
    (hne : ∀ t ∈ mid, t.tok ≠ .eof) (hbalanced : Balanced (mid.filterMap fun t => qlParen? t.tok))
    (hfirst : mid.head? = some t) (hlast : mid.getLast? = some last) :
    QlParser.parseParenFilter fl cc text (lparen :: if' :: colon :: (mid ++ rparen :: rest)) =
      .ok (.if' (QlParser.slice cc text t.start last.stop), rest) := by
  have hcapture : QlParser.captureUntilMatchingRparen cc text (mid ++ rparen :: rest) =
      .ok (QlParser.slice cc text t.start last.stop, rparen :: rest) :=
    run_capture hrparen hne hbalanced hfirst hlast
  have hnamed : QlParser.namedFilter? fl cc text "if" = some (do
      QlParser.expect .colon
      return .if' (← QlParser.captureUntilMatchingRparen cc text)) := rfl
  have hfilter : (do
      QlParser.expect .colon
      return .if' (← QlParser.captureUntilMatchingRparen cc text) :
        QlParser.Parser ν (QlParser.Filter ν))
      (colon :: (mid ++ rparen :: rest)) =
        .ok (.if' (QlParser.slice cc text t.start last.stop), rparen :: rest) := by
    rw [bind_ok (run_expect hcolon (by simp)), bind_ok hcapture]
    rfl
  rw [QlParser.parseParenFilter, bind_ok (run_expect hlparen (by simp)), run_current]
  simp only [hif, hnamed]
  rw [run_advance (by simp), bind_ok hfilter, bind_ok (run_expect hrparen hrest)]
  rfl

/-- A query of nodes with this filter alone. -/
def ifQuery (expression : List Char) : QlParser.Query ν :=
  { types := [.node], filters := [.if' expression] }

def ifProgram (expression : List Char) : QlParser.Program ν := ⟨{}, [.query (ifQuery expression)]⟩

/-- **A query with matching parentheses in its filter is accepted**, and the filter keeps the source
from the first token to the last. -/
lemma run_parseProgram {tokens : List (QlLexer.Token ν)} {eof : QlLexer.Token ν} {depth : ℕ}
    (htokens : QueryTokens mid tokens) (heof : eof.tok = .eof)
    (hne : ∀ t ∈ mid, t.tok ≠ .eof) (hbalanced : Balanced (mid.filterMap fun t => qlParen? t.tok))
    (hfirst : mid.head? = some t) (hlast : mid.getLast? = some last) :
    QlParser.parseProgram fl cc text (depth + 1) (tokens ++ [eof]) =
      .ok (ifProgram (QlParser.slice cc text t.start last.stop), [eof]) := by
  obtain ⟨hnode, hlparen, hif, hcolon, hrparen, hsemi⟩ := htokens
  rename_i node lparen if' colon rparen semi
  have hfilter : QlParser.parseParenFilter fl cc text
      (lparen :: if' :: colon :: (mid ++ rparen :: [semi, eof])) = _ :=
    run_parseParenFilter hlparen hif hcolon hrparen (by simp) hne hbalanced hfirst hlast
  rw [List.cons_append, List.cons_append, List.cons_append, List.cons_append, List.append_assoc]
  exact QlRuns.run_parseProgram hnode rfl hlparen hsemi heof hfilter

end Program

/-! ### The source that is kept -/

section Source

variable {ν : Type} {fl : QlParser.Floats ν} {cc : CharClasses} {core s : List Char}

/-- Solid text has nothing to strip. -/
lemma strip_solid (h : Solid cc core) : QlParser.strip cc core = core := by
  rcases core with _ | ⟨c, core⟩
  · exact absurd rfl h.ne_nil
  have hhead : (c :: core).dropWhile cc.isspace = c :: core := by
    rw [List.dropWhile_cons_of_neg]
    simp [h.head c rfl]
  have hlast : (c :: core).rdropWhile cc.isspace = c :: core := by
    rw [List.rdropWhile_eq_self_iff]
    intro hne
    simp [h.last _ (List.getLast?_eq_some_getLast hne)]
  rw [QlParser.strip, hhead, hlast]

lemma slice_solid {pre post : List Char} (h : Solid cc core) :
    QlParser.slice cc (pre ++ (core ++ post)) pre.length (pre.length + core.length) = core := by
  rw [QlParser.slice, List.take_length_add_append, List.take_left' rfl, List.drop_left' rfl,
    strip_solid h]

/-- No token of a text is its end. -/
lemma evaluator_ne_eof {float : List Char → Option ν} {i : ℕ} {ts : List (Evaluator.Token ν)}
    (h : scan (Evaluator.lexStep cc float) i s = .ok ts) : ∀ t ∈ ts, t.tok ≠ .eof := by
  have hp : Progresses (Evaluator.lexStep cc float) := evaluator_progresses
  refine scan_induction @hp (motive := fun _ _ ts => ∀ t ∈ ts, t.tok ≠ .eof) (by simp) ?_ h
  intro i c s t k ts hstep _ ih u hu
  rcases List.mem_append.mp hu with hu | hu
  · cases evaluator_step hstep <;> simp at hu <;> simp [hu]
  · exact ih u hu

/-- The parentheses of an expression that is accepted match. -/
lemma balanced_outside {float : List Char → Option ν} {e : Evaluator.Expr ν}
    (h : Evaluator.parse cc float s = .ok e) :
    Pieces cc float s ∧ Balanced ((outside .code s).filter isParen) ∧ ∃ c ∈ s, blank c = false := by
  obtain ⟨ts, hscan⟩ := tokens_of_parse h
  obtain ⟨hpieces, hparens⟩ := pieces_of_scan hscan
  rw [parse_eq hscan] at h
  have hne : ∀ t ∈ ts.map Evaluator.Token.toLexeme, t.tok ≠ .eof := by
    intro t ht
    obtain ⟨u, hu, rfl⟩ := List.mem_map.mp ht
    exact evaluator_ne_eof hscan u hu
  have heof : (⟨.eof, []⟩ : Evaluator.Lexeme ν).tok = .eof := rfl
  rcases EvaluatorGrammar.parseProgram_cases hne heof with ⟨e', -, hd⟩ | ⟨message, herror⟩
  · have hbalanced := balanced_of_derives hd
    rw [parensOf, List.filterMap_map] at hbalanced
    refine ⟨hpieces, hparens ▸ hbalanced, ?_⟩
    by_contra hblank
    push Not at hblank
    have hall : ∀ c ∈ s, blank c = true := fun c hc => by simpa using hblank c hc
    rw [scan_blanks hall] at hscan
    cases hscan
    exact hd.ne_nil rfl
  · rw [h] at herror
    cases herror

/-- The source of the tokens of an expression is the expression without the blanks around it. -/
lemma slice_covers {ts : List (QlLexer.Token ν)} (h : Covers cc 8 s ts)
    (hs : ∃ c ∈ s, blank c = false) :
    ∃ a core b first last, s = a ++ (core ++ b) ∧ (∀ c ∈ a, blank c = true) ∧
      (∀ c ∈ b, blank c = true) ∧ ts.head? = some first ∧ ts.getLast? = some last ∧
      QlParser.slice cc (embed s) first.start last.stop = core := by
  cases h with
  | blanks h =>
    obtain ⟨c, hc, hblank⟩ := hs
    rw [h c hc] at hblank
    cases hblank
  | @tokens a core b _ first last ha hb hcore hfirst hlast hstart hstop =>
    refine ⟨a, core, b, first, last, rfl, ha, hb, hfirst, hlast, ?_⟩
    have htext : embed (a ++ (core ++ b)) =
        (['n', 'o', 'd', 'e', '(', 'i', 'f', ':'] ++ a) ++ (core ++ (b ++ [')', ';'])) := by
      rw [embed_eq]
      simp only [List.append_assoc]
    have hlen : (['n', 'o', 'd', 'e', '(', 'i', 'f', ':'] ++ a).length = 8 + a.length := by
      rw [List.length_append]
      rfl
    rw [htext, hstart, hstop, ← hlen]
    exact slice_solid hcore

end Source

section Embedded

variable {ν : Type} {fl : QlParser.Floats ν} {cc : CharClasses} {s : List Char}
  {e : Evaluator.Expr ν}

/-- `float` of a part of the source. -/
def sourceFloat (fl : QlParser.Floats ν) (s : List Char) : Option ν :=
  fl.ofText (QlLexer.codePoints s)

/-- An expression without foreign operators is kept and means the same. -/
lemma parse_embed_ok {depth : ℕ} (h : Evaluator.parse cc (sourceFloat fl) s = .ok e)
    (hcom : NoComment s) (hlit : wellEscaped .code s = true)
    (hf : ∀ c ∈ outside .code s, c ∉ foreign) : ∃ expression,
      QlParser.parse fl cc (embed s) (depth + 1) = .ok (ifProgram expression) ∧
        Evaluator.parse cc (sourceFloat fl) expression = .ok e := by
  obtain ⟨hpieces, hbalanced, hsome⟩ := balanced_outside h
  rcases scan_cases (embed s) [';'] 8 hpieces hcom hlit with ⟨⟨c, hc, hcf⟩, -⟩ | ⟨-, ts,
    htokens, hscan⟩
  · exact absurd hcf (hf c hc)
  obtain ⟨a, core, b, first, last, rfl, ha, hb, hfirst, hlast, hslice⟩ :=
    slice_covers htokens.covers hsome
  obtain ⟨pre, post, hquery, hembed, hpost⟩ :=
    scan_embed cc fl.ofText (embed (a ++ (core ++ b))) (a ++ (core ++ b))
  rw [hscan, hpost] at hembed
  refine ⟨core, ?_, parse_trim ha hb h⟩
  have hrun : QlParser.parseProgram fl cc (embed (a ++ (core ++ b))) (depth + 1)
      (pre ++ (ts ++ post) ++ [QlLexer.eofToken (embed (a ++ (core ++ b)))]) = _ :=
    run_parseProgram (hquery ts) rfl htokens.ne_eof (htokens.parens ▸ hbalanced) hfirst hlast
  rw [hslice] at hrun
  exact parse_of_scan _ hembed hrun

/-- A foreign operator makes the query an error. -/
lemma parse_embed_error {depth : ℕ} (h : Evaluator.parse cc (sourceFloat fl) s = .ok e)
    (hcom : NoComment s) (hlit : wellEscaped .code s = true)
    (hf : ∃ c ∈ outside .code s, c ∈ foreign) :
    ∃ r, QlParser.parse fl cc (embed s) depth = .error r := by
  obtain ⟨hpieces, -, -⟩ := balanced_outside h
  rcases scan_cases (embed s) [';'] 8 hpieces hcom hlit with ⟨-, r, hr⟩ | ⟨hplain, -⟩
  swap
  · obtain ⟨c, hc, hcf⟩ := hf
    exact absurd hcf (hplain c hc)
  obtain ⟨pre, post, -, hembed, -⟩ := scan_embed cc fl.ofText (embed s) s
  rw [hr] at hembed
  refine ⟨r, ?_⟩
  rw [QlParser.parse, QlLexer.tokenize, hembed]
  rfl

end Embedded

/-- **Which expressions a filter can hold.** An expression that the evaluator accepts, with no
comment outside its literals and no newline or broken escape in them, stands in `node(if:E);` with
its meaning exactly when none of `+`, `*`, `/`, `&`, `|` and `?` is outside its literals. -/
theorem parse_if_iff {ν : Type} (fl : QlParser.Floats ν) (cc : CharClasses) (depth : ℕ)
    (expression : List Char) (e : Evaluator.Expr ν)
    (haccepted : Evaluator.parse cc (sourceFloat fl) expression = .ok e)
    (hcomment : NoComment expression) (hliterals : wellEscaped .code expression = true) :
    (∃ captured, QlParser.parse fl cc (embed expression) (depth + 1) = .ok (ifProgram captured) ∧
        Evaluator.parse cc (sourceFloat fl) captured = .ok e) ↔
      ∀ c ∈ outside .code expression, c ∉ foreign := by
  constructor
  · rintro ⟨captured, hparse, -⟩ c hc hforeign
    obtain ⟨r, hr⟩ := parse_embed_error haccepted hcomment hliterals ⟨c, hc, hforeign⟩
    rw [hr] at hparse
    cases hparse
  · exact parse_embed_ok haccepted hcomment hliterals

/-- Numbers that are written with digits. -/
def wholeFloats : QlParser.Floats ℤ where
  ofText s := if s.all fun n => 48 ≤ n && n ≤
    57 then some (s.foldl (fun k n => 10 * k + (n - 48 : ℤ)) 0) else none
  neg x := -x
  toInt := some

/-- The evaluator on a comparison and on a sum of two digits. -/
lemma evaluator_less : Evaluator.parse asciiClasses (sourceFloat wholeFloats) "1 < 2".toList =
    .ok (.binOp .lt (.num 1) (.num 2)) := by
  have hscan : scan (Evaluator.lexStep asciiClasses (sourceFloat wholeFloats)) 0 "1 < 2".toList =
      .ok [⟨⟨.number 1, ['1']⟩, 0⟩, ⟨⟨.sym .lt, ['<']⟩, 2⟩, ⟨⟨.number 2, ['2']⟩, 4⟩] := rfl
  rw [parse_eq hscan]
  rfl

lemma evaluator_plus : Evaluator.parse asciiClasses (sourceFloat wholeFloats) "1+1".toList =
    .ok (.binOp .add (.num 1) (.num 1)) := by
  have hscan : scan (Evaluator.lexStep asciiClasses (sourceFloat wholeFloats)) 0 "1+1".toList =
      .ok [⟨⟨.number 1, ['1']⟩, 0⟩, ⟨⟨.sym .plus, ['+']⟩, 1⟩, ⟨⟨.number 1, ['1']⟩, 2⟩] := rfl
  rw [parse_eq hscan]
  rfl

/-- A comparison can stand in a filter. -/
theorem parse_if_less : ∃ captured,
    QlParser.parse wholeFloats asciiClasses (embed "1 < 2".toList) 1 = .ok (ifProgram captured) ∧
      Evaluator.parse asciiClasses (sourceFloat wholeFloats) captured =
        .ok (.binOp .lt (.num 1) (.num 2)) :=
  (parse_if_iff wholeFloats asciiClasses 0 "1 < 2".toList
    (.binOp .lt (.num 1) (.num 2)) evaluator_less
    (noComment_of_tails (by decide)) (by decide)).mpr (List.all_iff_forall_prop.mp (by decide))

/-- A sum cannot, although the evaluator accepts it. -/
theorem parse_if_plus :
    Evaluator.parse asciiClasses (sourceFloat wholeFloats) "1+1".toList =
      .ok (.binOp .add (.num 1) (.num 1)) ∧
      NoComment "1+1".toList ∧ wellEscaped .code "1+1".toList = true ∧
      ∃ r, QlParser.parse wholeFloats asciiClasses (embed "1+1".toList) 1 = .error r :=
  ⟨evaluator_plus, noComment_of_tails (by decide), by decide, _, rfl⟩

end OsmParquet.IfFilters
