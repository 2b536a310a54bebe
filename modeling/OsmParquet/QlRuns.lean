import OsmParquet.IfLexing
import OsmParquet.Outcomes
import OsmParquet.QlParser

/-!
Runs of the lexer and the parser of the query language on texts that are known in part.

A keyword, a mark or another token at the beginning of a text is read whatever follows it, and each
function of the parser goes on from the tokens that the one before it has left.
-/

namespace OsmParquet.QlRuns

open OsmParquet.Scanning OsmParquet.IfLexing OsmParquet.Outcomes

/-! ### Tokens at the beginning of a text -/

section Tokens

variable {ν : Type} {cc : CharClasses} {float : QlLexer.Text → Option ν} {text : List Char} {j : ℕ}
  {c : Char} {w s : List Char}

lemma wordChar_ascii (h : c.toNat < 128) : wordChar cc c = (c.isAlphanum || c = '_') := by
  rw [wordChar, cc.isalnum_ascii c h]

/-- A mark is in no word. -/
lemma wordChar_mark (hc : c ∈ marks) : wordChar cc c = false := by
  have htext : textual cc c = false := textual_of_mem_marks hc
  simp only [textual, Bool.or_eq_false_iff, decide_eq_false_iff_not] at htext
  simp [wordChar, htext]

/-- A keyword in front of something that is in no word. -/
lemma lexStep_keyword (hc : c.isAlpha = true) (hd : c.isDigit = false)
    (hascii : ∀ d ∈ c :: w, d.toNat < 128 ∧ d.isAlphanum = true)
    (hstop : ∀ d ∈ s.head?, wordChar cc d = false) :
    QlLexer.lexStep cc float text j (c :: (w ++ s)) =
      .ok (QlLexer.tokenAt text j (c :: (w ++ s)) (.ident (.ofList (c :: w))) (w.length + 1)) := by
  have hlt := (hascii c List.mem_cons_self).1
  have halpha : cc.isalpha c = true := by rwa [cc.isalpha_ascii c hlt]
  have hdigit : cc.isdigit c = false := by
    rw [cc.isdigit_ascii c hlt, hd]
  obtain ⟨hb, hslash, hq, hsym⟩ := textual_start (s := w ++ s)
    (show (cc.isdigit c || cc.isalpha c || c = '_') = true by simp [halpha])
  have htake : (w ++ s).takeWhile (wordChar cc) = w := by
    rw [takeWhile_append_stop hstop, List.takeWhile_eq_self_iff]
    intro d hd
    obtain ⟨hd₁, hd₂⟩ := hascii d (List.mem_cons_of_mem _ hd)
    rw [wordChar_ascii hd₁, hd₂]
    rfl
  rw [lexStep_text hb (comment_none hslash) hq hsym, hdigit, if_neg (by simp),
    if_pos (by simp [halpha]), wordLength, htake, Nat.add_comm 1, List.take_succ_cons,
      List.take_left' rfl]

/-- Parentheses, colons, semicolons and commas stand for themselves. -/
lemma lexStep_mark {x : QlLexer.Sym} (hc : c ∈ ['(', ')', ':', ';', ','])
    (hx : QlLexer.singleSym c = some x) :
    QlLexer.lexStep cc float text j (c :: s) =
      .ok (QlLexer.tokenAt text j (c :: s) (.sym x) 1) := by
  have hplain : ∀ c ∈ ['(', ')', ':', ';', ','], blank c = false ∧
      Evaluator.isQuote c = false ∧ c ≠ '/' :=
    List.all_iff_forall_prop.mp (by decide)
  have hread : QlLexer.symbols.read (c :: s) = some (x, 1) := by
    refine Symbols.read_single hx fun d _ => ?_
    simp only [List.mem_cons, List.not_mem_nil, or_false] at hc
    rcases hc with rfl | rfl | rfl | rfl | rfl <;> simp [QlLexer.symbols, QlLexer.doubleSym]
  obtain ⟨hb, hq, hslash⟩ := hplain c hc
  exact lexStep_symbol hb (comment_none hslash) hq hread

/-- The first token of a text, and where it stands. -/
lemma scan_token {u r : List Char} {tok : QlLexer.Tok ν} (hu : u ≠ [])
    (h : QlLexer.lexStep cc float text j (u ++ r) = .ok
      (QlLexer.tokenAt text j (u ++ r) tok u.length)) :
    ∃ t : QlLexer.Token ν, t.tok = tok ∧ t.start = j ∧ t.stop = j + u.length ∧
      scan (QlLexer.lexStep cc float text) j (u ++ r) =
        (scan (QlLexer.lexStep cc float text) (j + u.length) r).map (t :: ·) := by
  have hp : Progresses (QlLexer.lexStep cc float text) := QlLexer.lexStep_progresses
  obtain ⟨c, u, rfl⟩ := List.exists_cons_of_ne_nil hu
  rw [List.cons_append, tokenAt_eq] at h
  have hscan := scan_of_step @hp h
  rw [← List.cons_append, List.drop_left' rfl] at hscan
  refine ⟨_, ?_, ?_, ?_, hscan⟩
  · rfl
  · rfl
  · rfl

lemma scan_mark (cc : CharClasses) (float : QlLexer.Text → Option ν) (text : List Char)
    {x : QlLexer.Sym} (hc : c ∈ ['(', ')', ':', ';', ',']) (hx : QlLexer.singleSym c = some x) :
    ∃ t : QlLexer.Token ν, t.tok = .sym x ∧ scan (QlLexer.lexStep cc float text) j (c :: s) =
      (scan (QlLexer.lexStep cc float text) (j + 1) s).map (t :: ·) := by
  obtain ⟨t, htok, -, -, hscan⟩ := scan_token (u := [c]) (r := s) (by simp) (lexStep_mark hc hx)
  exact ⟨t, htok, hscan⟩

lemma scan_keyword (cc : CharClasses) (float : QlLexer.Text → Option ν) (text : List Char)
    (hc : c.isAlpha = true) (hd : c.isDigit = false)
    (hascii : ∀ d ∈ c :: w, d.toNat < 128 ∧ d.isAlphanum = true)
    (hstop : ∀ d ∈ s.head?, wordChar cc d = false) : ∃ t : QlLexer.Token ν,
      t.tok = .ident (.ofList (c :: w)) ∧ scan (QlLexer.lexStep cc float text) j (c :: (w ++ s)) =
        (scan (QlLexer.lexStep cc float text) (j + (w.length + 1)) s).map (t :: ·) := by
  obtain ⟨t, htok, -, -, hscan⟩ := scan_token (u := c :: w) (r := s) (by simp)
    (lexStep_keyword hc hd hascii hstop)
  exact ⟨t, htok, hscan⟩

/-- The first characters of a text are cut into these tokens, whatever the rest gives. -/
def Cuts (cc : CharClasses) (float : QlLexer.Text → Option ν) (text : List Char) (j : ℕ)
    (u r : List Char) (ts : List (QlLexer.Token ν)) : Prop :=
  scan (QlLexer.lexStep cc float text) j (u ++ r) =
    (scan (QlLexer.lexStep cc float text) (j + u.length) r).map (ts ++ ·)

lemma cuts_nil (r : List Char) : Cuts cc float text j [] r [] := by
  rw [Cuts, List.nil_append, List.length_nil, Nat.add_zero]
  rcases scan (QlLexer.lexStep cc float text) j r with e | ts <;> rfl

lemma Cuts.append {u v r : List Char} {ts us : List (QlLexer.Token ν)}
    (hu : Cuts cc float text j u (v ++ r) ts)
    (hv : Cuts cc float text (j + u.length) v r us) :
    Cuts cc float text j (u ++ v) r (ts ++ us) := by
  rw [Cuts, List.append_assoc, hu, hv, List.length_append, Nat.add_assoc]
  rcases scan (QlLexer.lexStep cc float text) (j + (u.length + v.length)) r with e | vs
  · rfl
  · exact congrArg Except.ok (List.append_assoc ts us vs).symm

lemma Cuts.scan {u r : List Char} {ts us : List (QlLexer.Token ν)} (h : Cuts cc float text j u r ts)
    (hr : Scanning.scan (QlLexer.lexStep cc float text) (j + u.length) r = .ok us) :
    Scanning.scan (QlLexer.lexStep cc float text) j (u ++ r) = .ok (ts ++ us) := by
  rw [h, hr]
  rfl

lemma cuts_mark (cc : CharClasses) (float : QlLexer.Text → Option ν) (text : List Char)
    {x : QlLexer.Sym} (hc : c ∈ ['(', ')', ':', ';', ',']) (hx : QlLexer.singleSym c = some x)
    (j : ℕ) (r : List Char) : ∃ t : QlLexer.Token ν, t.tok = .sym x ∧
      Cuts cc float text j [c] r [t] :=
  scan_mark cc float text hc hx

/-- A keyword of queries. -/
lemma cuts_queryWord (cc : CharClasses) (float : QlLexer.Text → Option ν) (text : List Char)
    {word : String} {types : List QlParser.ElementType} (h : QlParser.queryTypes? word = some types)
    {d : Char} (hd : d ∈ marks) (j : ℕ) (r : List Char) :
    ∃ t : QlLexer.Token ν, t.tok = .ident word ∧ Cuts cc float text j word.toList (d :: r) [t] := by
  obtain ⟨c, w, rfl, hc, hdigit, hascii⟩ : ∃ c w, word = .ofList (c :: w) ∧ c.isAlpha = true ∧
      c.isDigit = false ∧ ∀ d ∈ c :: w, d.toNat < 128 ∧ d.isAlphanum = true := by
    rw [QlParser.queryTypes?.eq_def] at h
    split at h
    case h_11 => cases h
    all_goals exact ⟨_, _, rfl, rfl, rfl, List.all_iff_forall_prop.mp (by decide)⟩
  have hstop : ∀ e ∈ (d :: r).head?, wordChar cc e = false := by
    rintro e ⟨⟩
    exact wordChar_mark hd
  obtain ⟨t, htok, hscan⟩ := scan_keyword cc float text (j := j) hc hdigit hascii hstop
  rw [String.toList_ofList]
  exact ⟨t, htok, hscan⟩

end Tokens

/-! ### Steps of the parser -/

section Steps

variable {ν α β : Type} {ts ts' rest : List (QlLexer.Token ν)} {t u : QlLexer.Token ν}

lemma run_current (f : QlLexer.Token ν → QlParser.Parser ν β) :
    (QlParser.current >>= f) (t :: ts) = f t (t :: ts) := rfl

lemma run_advance (hts : ts ≠ []) (f : QlLexer.Token ν → QlParser.Parser ν β) :
    (QlParser.advance >>= f) (t :: ts) = f t ts := by
  rcases ts with _ | ⟨u, ts⟩
  · exact absurd rfl hts
  · rfl

lemma run_check {x : QlLexer.Sym} : QlParser.check x (t :: ts) =
    .ok (QlParser.isSym x t, t :: ts) := rfl

lemma isSym_of_tok {x y : QlLexer.Sym} (h : t.tok = .sym y) :
    QlParser.isSym x t = decide (x = y) := by
  rw [QlParser.isSym, h]

lemma isSym_of_ident {x : QlLexer.Sym} {name : String} (h : t.tok = .ident name) :
    QlParser.isSym x t = false := by
  rw [QlParser.isSym, h]

lemma run_expect {x : QlLexer.Sym} (h : t.tok = .sym x) (hts : ts ≠ []) :
    QlParser.expect x (t :: ts) = .ok ((), ts) := by
  have hcheck : QlParser.check x (t :: ts) = .ok (true, t :: ts) := by
    rw [run_check, isSym_of_tok h, decide_eq_true rfl]
  rw [QlParser.expect, bind_ok hcheck]
  exact run_advance hts _

/-- A loop that makes no pass. -/
lemma run_whileLoop_done {σ : Type} {cond : σ → QlLexer.Token ν → Bool}
    {body : σ → QlParser.Parser ν σ} {x : σ} (h : cond x t = false) :
    QlParser.whileLoop cond body x (t :: ts) = .ok (x, t :: ts) := by
  show QlParser.whileSteps cond body ((t :: ts).length + 1) x (t :: ts) = _
  rw [QlParser.whileSteps, run_current, h]
  rfl

/-- A loop that makes one. -/
lemma run_whileLoop_once {σ : Type} {cond : σ → QlLexer.Token ν → Bool}
    {body : σ → QlParser.Parser ν σ} {x y : σ} (h : cond x t = true)
    (hbody : body x (t :: ts) = .ok (y, u :: rest)) (hdone : cond y u = false) :
    QlParser.whileLoop cond body x (t :: ts) = .ok (y, u :: rest) := by
  show QlParser.whileSteps cond body ((t :: ts).length + 1) x (t :: ts) = _
  rw [QlParser.whileSteps, run_current, h, if_pos rfl, bind_ok hbody, List.length_cons,
    QlParser.whileSteps, run_current, hdone]
  rfl

end Steps

/-! ### A query with one filter -/

section Query

variable {ν : Type} {fl : QlParser.Floats ν} {cc : CharClasses} {text : List Char}
  {ts rest : List (QlLexer.Token ν)} {t lparen semi : QlLexer.Token ν}

/-- No settings. -/
lemma run_parseSettings (h : QlParser.isSym .lbracket t = false) :
    QlParser.parseSettings fl (t :: ts) = .ok ({}, t :: ts) := by
  have hcheck : QlParser.check .lbracket (t :: ts) = .ok (false, t :: ts) := by rw [run_check, h]
  rw [QlParser.parseSettings, bind_ok hcheck]
  refine (bind_ok (run_whileLoop_done ?_)).trans rfl
  exact h

/-- No output set, and the end of the statement. -/
lemma run_parseEnd (h : t.tok = .sym .semi) (hts : ts ≠ []) :
    QlParser.parseEnd (t :: ts) = .ok ("_", ts) := by
  have hcheck : QlParser.check .arrow (t :: ts) = .ok (false, t :: ts) := by
    rw [run_check, isSym_of_tok h]
    rfl
  have houtput : QlParser.parseOutputSet (t :: ts) = .ok ("_", t :: ts) := by
    rw [QlParser.parseOutputSet, bind_ok hcheck]
    rfl
  rw [QlParser.parseEnd, bind_ok houtput, bind_ok (run_expect h hts)]
  rfl

/-- A query of one filter, and the program that is this query. -/
def filterQuery (types : List QlParser.ElementType) (filter : QlParser.Filter ν) :
    QlParser.Query ν :=
  { types := types, filters := [filter] }

def filterProgram (types : List QlParser.ElementType) (filter : QlParser.Filter ν) :
    QlParser.Program ν :=
  ⟨{}, [.query (filterQuery types filter)]⟩

/-- What follows the keyword, up to the end of the statement. -/
lemma run_parseQuery {types : List QlParser.ElementType} {filter : QlParser.Filter ν}
    (hlparen : lparen.tok = .sym .lparen) (hsemi : semi.tok = .sym .semi) (hrest : rest ≠ [])
    (hfilter : QlParser.parseParenFilter fl cc text (lparen :: ts) = .ok (filter, semi :: rest)) :
    QlParser.parseQuery fl cc text types (lparen :: ts) = .ok (filterQuery types filter, rest) := by
  have hcheck : QlParser.check .lbracket (lparen :: ts) = .ok (false, lparen :: ts) := by
    rw [run_check, isSym_of_tok hlparen]
    rfl
  rw [QlParser.parseQuery]
  refine (bind_ok (run_whileLoop_done ?_)).trans ?_
  · rw [isSym_of_tok hlparen]
    rfl
  refine (bind_ok (show _ = Except.ok ([filter], semi :: rest) from run_whileLoop_once ?_ ?_
    ?_)).trans ?_
  · rw [isSym_of_tok hlparen, isSym_of_tok hlparen]
    rfl
  · rw [bind_ok hcheck]
    exact (bind_ok hfilter).trans rfl
  · rw [isSym_of_tok hsemi, isSym_of_tok hsemi]
    rfl
  · exact (bind_ok (run_parseEnd hsemi hrest)).trans rfl

/-- **A keyword, one filter in parentheses and a semicolon** are a program. -/
lemma run_parseProgram {word : String} {types : List QlParser.ElementType}
    {filter : QlParser.Filter ν} {node eof : QlLexer.Token ν} {depth : ℕ}
    (hnode : node.tok = .ident word) (htypes : QlParser.queryTypes? word = some types)
    (hlparen : lparen.tok = .sym .lparen) (hsemi : semi.tok = .sym .semi) (heof : eof.tok = .eof)
    (hfilter : QlParser.parseParenFilter fl cc text (lparen :: ts) = .ok (filter, [semi, eof])) :
    QlParser.parseProgram fl cc text (depth + 1) (node :: lparen :: ts) =
      .ok (filterProgram types filter, [eof]) := by
  have hquery : QlParser.parseQuery fl cc text types (lparen :: ts) =
      .ok (filterQuery types filter, [eof]) :=
    run_parseQuery hlparen hsemi (by simp) hfilter
  have hstatement : QlParser.parseStatement fl cc text (depth + 1) (node :: lparen :: ts) =
      .ok (some (.query (filterQuery types filter)), [eof]) := by
    rw [QlParser.parseStatement, run_current]
    simp only [hnode, QlParser.wordStatement, htypes]
    have hword : (do
        let _ ← QlParser.advance
        return .query (← QlParser.parseQuery fl cc text types) :
          QlParser.Parser ν (QlParser.Statement ν))
        (node :: lparen :: ts) = .ok (.query (filterQuery types filter), [eof]) := by
      rw [run_advance (by simp), bind_ok hquery]
      rfl
    exact (bind_ok hword).trans rfl
  have heof' : QlParser.isEof eof = true := by rw [QlParser.isEof, heof]
  have hnode' : QlParser.isEof node = false := by rw [QlParser.isEof, hnode]
  rw [QlParser.parseProgram]
  refine (bind_ok (run_parseSettings (isSym_of_ident hnode))).trans ?_
  refine (bind_ok (show _ = Except.ok ([.query (filterQuery types filter)], [eof]) from
    run_whileLoop_once ?_ ?_ ?_)).trans rfl
  · rw [hnode']
    rfl
  · exact (bind_ok hstatement).trans rfl
  · rw [heof']
    rfl

lemma parse_of_scan {text : List Char} {depth : ℕ} {ts : List (QlLexer.Token ν)}
    (rest : List (QlLexer.Token ν)) {program : QlParser.Program ν}
    (hscan : scan (QlLexer.lexStep cc fl.ofText text) 0 text = .ok ts)
    (hrun : QlParser.parseProgram fl cc text depth (ts ++ [QlLexer.eofToken text]) = .ok
      (program, rest)) :
    QlParser.parse fl cc text depth = .ok program := by
  rw [QlParser.parse, QlLexer.tokenize, hscan]
  show (QlParser.parseProgram fl cc text depth (ts ++ [QlLexer.eofToken text]) >>= _) = _
  rw [hrun]
  rfl

/-- `word(...);`. -/
def filterText (word : String) (inner : List Char) : List Char :=
  word.toList ++ ('(' :: (inner ++ [')', ';']))

/-- **A query is what its filter is**, when the filter is cut into tokens that the parser reads. -/
lemma parse_filterText {word : String} {types : List QlParser.ElementType}
    {filter : QlParser.Filter ν} {inner : List Char} {depth : ℕ}
    (hword : QlParser.queryTypes? word = some types)
    (hinner : ∀ text j, ∃ ts, Cuts cc fl.ofText text j inner [')', ';'] ts ∧
      ∀ lparen rparen rest, lparen.tok = .sym .lparen → rparen.tok = .sym .rparen → rest ≠ [] →
        QlParser.parseParenFilter fl cc text (lparen :: (ts ++ rparen :: rest)) =
          .ok (filter, rest)) :
    QlParser.parse fl cc (filterText word inner) (depth + 1) =
      .ok (filterProgram types filter) := by
  set text := filterText word inner
  have hopen : '(' ∈ marks := by decide
  obtain ⟨node, hnode, hcut⟩ := cuts_queryWord cc fl.ofText text hword hopen 0
    (inner ++ [')', ';'])
  obtain ⟨lparen, hlparen, hcut'⟩ := cuts_mark cc fl.ofText text (c := '(') (by decide) rfl
    (0 + word.toList.length) (inner ++ [')', ';'])
  obtain ⟨ts, hts, hparse⟩ := hinner text (0 + word.toList.length + 1)
  obtain ⟨rparen, hrparen, hclose⟩ := cuts_mark cc fl.ofText text (c := ')') (by decide)
    rfl (0 + word.toList.length + 1 + inner.length) [';']
  obtain ⟨semi, hsemi, hend⟩ := cuts_mark cc fl.ofText text (c := ';') (by decide) rfl
    (0 + word.toList.length + 1 + inner.length + 1) []
  have hscan : scan (QlLexer.lexStep cc fl.ofText text) 0 text =
      .ok ([node] ++ ([lparen] ++ (ts ++ ([rparen] ++ ([semi] ++ []))))) :=
    hcut.scan (hcut'.scan (hts.scan (hclose.scan (hend.scan (scan_nil _)))))
  refine parse_of_scan [QlLexer.eofToken text] hscan ?_
  simp only [List.cons_append, List.append_assoc, List.nil_append]
  exact run_parseProgram hnode hword hlparen hsemi rfl
    (hparse lparen rparen _ hlparen hrparen (by simp))

end Query

end OsmParquet.QlRuns
