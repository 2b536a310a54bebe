import OsmParquet.Evaluator
import OsmParquet.QlLexer
import Mathlib.Data.List.Infix

/-!
The text of an expression, as the two lexers read it.

An expression stands in a query as it is written, so the lexer of the query language reads it first.
Both lexers cut a text into blanks, literals, numbers, words and operators; they differ in the
operators they know and in what they allow inside a literal. The text is taken apart once into these
pieces, and each lexer is followed along them.
-/

namespace OsmParquet.IfLexing

open OsmParquet.Scanning

/-! ### Literals and the text around them -/

/-- Where a character stands. -/
inductive Mode
  | code
  | literal (quote : Char)
  | escaped (quote : Char)

/-- The characters outside string literals, and the opening quote of each literal. -/
def outside : Mode → List Char → List Char
  | _, [] => []
  | .code, c :: s => c :: outside (if Evaluator.isQuote c then .literal c else .code) s
  | .literal q, c :: s =>
    outside (if c = q then .code else if c = '\\' then .escaped q else .literal q) s
  | .escaped q, _ :: s => outside (.literal q) s

/-- The literals have no newline but after a backslash, and four hexadecimal digits after each
`\u`. -/
def wellEscaped : Mode → List Char → Bool
  | _, [] => true
  | .code, c :: s => wellEscaped (if Evaluator.isQuote c then .literal c else .code) s
  | .literal q, c :: s =>
    if c = q then wellEscaped .code s
    else if c = '\\' then wellEscaped (.escaped q) s
    else c ≠ '\n' && wellEscaped (.literal q) s
  | .escaped q, c :: s =>
    (c ≠ 'u' || (QlLexer.hexEscape? s).isSome) && wellEscaped (.literal q) s

/-- The characters of operators that only the evaluator knows. -/
def foreign : List Char := ['+', '*', '/', '&', '|', '?']

/-- The characters of operators that both know. -/
def shared : List Char := ['(', ')', '[', ']', ',', '.', '-', '!', '<', '>', '=', ':']

def isParen (c : Char) : Bool := c = '(' || c = ')'

section Plain

variable {u s : List Char}

lemma outside_cons {c : Char} (hc : Evaluator.isQuote c = false) :
    outside .code (c :: s) = c :: outside .code s := by
  rw [outside, hc]
  rfl

lemma wellEscaped_cons {c : Char} (hc : Evaluator.isQuote c = false) :
    wellEscaped .code (c :: s) = wellEscaped .code s := by
  rw [wellEscaped, hc]
  rfl

/-- Text without quotes is outside. -/
lemma outside_append (hu : ∀ c ∈ u, Evaluator.isQuote c = false) :
    outside .code (u ++ s) = u ++ outside .code s := by
  induction u with
  | nil => rfl
  | cons c u ih =>
    rw [List.cons_append, outside_cons (hu c List.mem_cons_self), List.cons_append,
      ih fun d hd => hu d (List.mem_cons_of_mem _ hd)]

lemma wellEscaped_append (hu : ∀ c ∈ u, Evaluator.isQuote c = false) :
    wellEscaped .code (u ++ s) = wellEscaped .code s := by
  induction u with
  | nil => rfl
  | cons c u ih =>
    rw [List.cons_append, wellEscaped_cons (hu c List.mem_cons_self),
      ih fun d hd => hu d (List.mem_cons_of_mem _ hd)]

lemma outside_take {k : ℕ} (hu : ∀ c ∈ s.take k, Evaluator.isQuote c = false) :
    outside .code s = s.take k ++ outside .code (s.drop k) := by
  conv_lhs => rw [← List.take_append_drop k s]
  exact outside_append hu

lemma wellEscaped_take {k : ℕ} (hu : ∀ c ∈ s.take k, Evaluator.isQuote c = false) :
    wellEscaped .code s = wellEscaped .code (s.drop k) := by
  conv_lhs => rw [← List.take_append_drop k s]
  exact wellEscaped_append hu

end Plain

/-! ### Literals in both lexers -/

lemma isQuote_iff {q : Char} : Evaluator.isQuote q = true ↔ q = '\x22' ∨ q = '\x27' := by
  simp [Evaluator.isQuote]

/-- A hexadecimal digit closes no literal and begins no escape. -/
lemma hexDigit_plain {q c : Char} (hq : Evaluator.isQuote q = true)
    (h : (QlLexer.hexDigit? c).isSome) : c ≠ q ∧ c ≠ '\\' ∧ c ≠ '\n' := by
  refine ⟨?_, ?_, ?_⟩
  · rintro rfl
    rcases isQuote_iff.mp hq with rfl | rfl <;> exact absurd h (by decide)
  · rintro rfl
    exact absurd h (by decide)
  · rintro rfl
    exact absurd h (by decide)

lemma hexEscape_isSome {s : List Char} (h : (QlLexer.hexEscape? s).isSome) :
    ∃ a b c d rest, s = a :: b :: c :: d :: rest ∧ (QlLexer.hexDigit? a).isSome ∧
      (QlLexer.hexDigit? b).isSome ∧ (QlLexer.hexDigit? c).isSome ∧
      (QlLexer.hexDigit? d).isSome := by
  rcases s with _ | ⟨a, _ | ⟨b, _ | ⟨c, _ | ⟨d, rest⟩⟩⟩⟩
  iterate 4 cases h
  refine ⟨a, b, c, d, rest, rfl, ?_⟩
  rw [QlLexer.hexEscape?] at h
  rcases ha : QlLexer.hexDigit? a with _ | va
  · simp [ha] at h
  rcases hb : QlLexer.hexDigit? b with _ | vb
  · simp [ha, hb] at h
  rcases hc : QlLexer.hexDigit? c with _ | vc
  · simp [ha, hb, hc] at h
  rcases hd : QlLexer.hexDigit? d with _ | vd
  · simp [ha, hb, hc, hd] at h
  exact ⟨rfl, rfl, rfl, rfl⟩

section Literal

variable {q c esc : Char} {s : List Char}

lemma evaluator_close : Evaluator.readString q (q :: s) = some ([], 1) := by
  rw [Evaluator.readString.eq_def]
  simp

lemma evaluator_escape (hq : '\\' ≠ q) : Evaluator.readString q ('\\' :: esc :: s) =
    (Evaluator.readString q s).map fun r => (Evaluator.unescape esc :: r.1, r.2 + 2) := by
  rw [Evaluator.readString.eq_def]
  simp [hq]

lemma evaluator_ordinary (hq : c ≠ q) (hb : c ≠ '\\') :
    Evaluator.readString q (c :: s) = (Evaluator.readString q s).map fun r =>
      (c :: r.1, r.2 + 1) := by
  rw [Evaluator.readString.eq_def]
  simp [hq, hb]

lemma ql_close {j : ℕ} : QlLexer.readString q j (q :: s) = .ok ([], j + 1) := by
  rw [QlLexer.readString.eq_def]
  simp

lemma ql_hexEscape {a b c d : Char} {j value : ℕ} (hq : '\\' ≠ q)
    (h : QlLexer.hexEscape? (a :: b :: c :: d :: s) = some value) :
    QlLexer.readString q j ('\\' :: 'u' :: a :: b :: c :: d :: s) =
      (QlLexer.readString q (j + 6) s).map fun r => (value :: r.1, r.2) := by
  rw [QlLexer.readString.eq_def]
  simp [hq, h]

lemma ql_escape {j : ℕ} (hq : '\\' ≠ q) (hu : esc ≠ 'u') :
    QlLexer.readString q j ('\\' :: esc :: s) =
    (QlLexer.readString q (j + 2) s).map fun r => ((QlLexer.unescape esc).toNat :: r.1, r.2) := by
  rw [QlLexer.readString.eq_def]
  simp [hq, hu]

lemma ql_ordinary {j : ℕ} (hq : c ≠ q) (hb : c ≠ '\\') (hn : c ≠ '\n') :
    QlLexer.readString q j (c :: s) =
      (QlLexer.readString q (j + 1) s).map fun r => (c.toNat :: r.1, r.2) := by
  rw [QlLexer.readString.eq_def]
  simp [hq, hb, hn]

lemma wellEscaped_ordinary (hq : c ≠ q) (hb : c ≠ '\\') (hn : c ≠ '\n') :
    wellEscaped (.literal q) (c :: s) = wellEscaped (.literal q) s := by
  rw [wellEscaped]
  simp [hq, hb, hn]

lemma outside_ordinary (hq : c ≠ q) (hb : c ≠ '\\') :
    outside (.literal q) (c :: s) = outside (.literal q) s := by
  rw [outside]
  simp [hq, hb]

/-- What a literal leaves, and how it ends. -/
structure LiteralRead (q : Char) (s : List Char) (k : ℕ) : Prop where
  pos : 1 ≤ k
  le : k ≤ s.length
  last : (s.take k).getLast? = some q
  outside : outside (.literal q) s = outside .code (s.drop k)
  wellEscaped : wellEscaped (.literal q) s = true → wellEscaped .code (s.drop k) = true ∧
    ∀ tail j, ∃ value, QlLexer.readString q j (s ++ tail) = .ok (value, j + k)

lemma getLast?_take_succ {k : ℕ} (h : (s.take k).getLast? = some q) :
    ((c :: s).take (k + 1)).getLast? = some q := by
  rw [List.take_succ_cons, List.getLast?_cons, h]
  rfl

/-- Four hexadecimal digits of a literal are ordinary characters. -/
lemma readString_hex {a b d : Char} {v : List Char} {k : ℕ} (hq : Evaluator.isQuote q = true)
    (ha : (QlLexer.hexDigit? a).isSome) (hb : (QlLexer.hexDigit? b).isSome)
    (hc : (QlLexer.hexDigit? c).isSome) (hd : (QlLexer.hexDigit? d).isSome)
    (h : Evaluator.readString q (a :: b :: c :: d :: s) = some (v, k)) :
    wellEscaped (.literal q) (a :: b :: c :: d :: s) = wellEscaped (.literal q) s ∧
      ∃ v' k', Evaluator.readString q s = some (v', k') ∧ k = k' + 4 := by
  obtain ⟨ha₁, ha₂, ha₃⟩ := hexDigit_plain hq ha
  obtain ⟨hb₁, hb₂, hb₃⟩ := hexDigit_plain hq hb
  obtain ⟨hc₁, hc₂, hc₃⟩ := hexDigit_plain hq hc
  obtain ⟨hd₁, hd₂, hd₃⟩ := hexDigit_plain hq hd
  refine ⟨?_, ?_⟩
  · rw [wellEscaped_ordinary ha₁ ha₂ ha₃, wellEscaped_ordinary hb₁ hb₂ hb₃,
      wellEscaped_ordinary hc₁ hc₂ hc₃, wellEscaped_ordinary hd₁ hd₂ hd₃]
  · rw [evaluator_ordinary ha₁ ha₂, evaluator_ordinary hb₁ hb₂, evaluator_ordinary hc₁ hc₂,
      evaluator_ordinary hd₁ hd₂] at h
    rcases hs : Evaluator.readString q s with _ | ⟨v', k'⟩
    · rw [hs] at h
      cases h
    · rw [hs] at h
      cases h
      exact ⟨v', k', rfl, rfl⟩

/-- The closing quote. -/
lemma literalRead_close : LiteralRead q (q :: s) 1 :=
  ⟨le_rfl, by simp, rfl, by simp [outside], fun hw => ⟨by simpa [wellEscaped] using hw,
    fun tail j => ⟨[], ql_close⟩⟩⟩

lemma LiteralRead.ordinary {k : ℕ} (h : LiteralRead q s k) (hcq : c ≠ q) (hcb : c ≠ '\\') :
    LiteralRead q (c :: s) (k + 1) := by
  refine ⟨by omega, by have := h.le; simp only [List.length_cons]; omega, getLast?_take_succ h.last,
    ?_, ?_⟩
  · rw [outside_ordinary hcq hcb, h.outside]
    rfl
  intro hw
  have hn : c ≠ '\n' := by
    rintro rfl
    rw [IfLexing.wellEscaped] at hw
    simp [hcq] at hw
  rw [wellEscaped_ordinary hcq hcb hn] at hw
  refine ⟨(h.wellEscaped hw).1, fun tail j => ?_⟩
  obtain ⟨value, hvalue⟩ := (h.wellEscaped hw).2 tail (j + 1)
  refine ⟨c.toNat :: value, ?_⟩
  rw [List.cons_append, ql_ordinary hcq hcb hn, hvalue, show j + 1 + k = j + (k + 1) by omega]
  rfl

/-- A backslash and what it escapes. The other lexer reads the digits of a `\u` with it, so what
comes after them is needed as well. -/
lemma LiteralRead.escape {v : List Char} {k : ℕ} (hq : Evaluator.isQuote q = true)
    (h : LiteralRead q s k) (hread : Evaluator.readString q s = some (v, k))
    (hdigits : ∀ {r v' : List Char} {k' : ℕ}, r.length < s.length →
      Evaluator.readString q r = some (v', k') → LiteralRead q r k') :
    LiteralRead q ('\\' :: esc :: s) (k + 2) := by
  have hb : '\\' ≠ q := by
    rintro rfl
    cases hq
  refine ⟨by omega, by have := h.le; simp only [List.length_cons]; omega,
    getLast?_take_succ (getLast?_take_succ h.last), ?_, ?_⟩
  · rw [IfLexing.outside, if_neg hb, if_pos rfl, IfLexing.outside, h.outside]
    rfl
  intro hw
  rw [IfLexing.wellEscaped, if_neg hb, if_pos rfl, IfLexing.wellEscaped, Bool.and_eq_true] at hw
  refine ⟨(h.wellEscaped hw.2).1, fun tail j => ?_⟩
  by_cases hu : esc = 'u'
  · subst hu
    obtain ⟨x, y, z, w, r, rfl, hx, hy, hz, hw'⟩ := hexEscape_isSome (by simpa using hw.1)
    obtain ⟨hplain, v', k', hr, rfl⟩ := readString_hex hq hx hy hz hw' hread
    have hafter := hdigits (by simp only [List.length_cons]; omega) hr
    obtain ⟨code, hcode⟩ := Option.isSome_iff_exists.mp (by simpa using hw.1)
    obtain ⟨value, hvalue⟩ := (hafter.wellEscaped (hplain ▸ hw.2)).2 tail (j + 6)
    have hescape : QlLexer.hexEscape? (x :: y :: z :: w :: (r ++ tail)) = some code := hcode
    refine ⟨code :: value, ?_⟩
    simp only [List.cons_append]
    rw [ql_hexEscape hb hescape, hvalue, show j + 6 + k' = j + (k' + 4 + 2) by omega]
    rfl
  · obtain ⟨value, hvalue⟩ := (h.wellEscaped hw.2).2 tail (j + 2)
    refine ⟨(QlLexer.unescape esc).toNat :: value, ?_⟩
    rw [List.cons_append, List.cons_append, ql_escape hb hu, hvalue,
      show j + 2 + k = j + (k + 2) by omega]
    rfl

/-- **A literal of the evaluator is one of the query language**, of the same length, when its
newlines and escapes are. -/
lemma literalRead (hq : Evaluator.isQuote q = true) {v : List Char} {k : ℕ}
    (h : Evaluator.readString q s = some (v, k)) : LiteralRead q s k := by
  have hb : '\\' ≠ q := by
    rintro rfl
    cases hq
  induction hn : s.length using Nat.strong_induction_on generalizing s v k with
  | _ n ih =>
    subst hn
    rcases s with _ | ⟨c, s⟩
    · cases h
    by_cases hcq : c = q
    · subst hcq
      rw [evaluator_close] at h
      cases h
      exact literalRead_close
    by_cases hcb : c = '\\'
    · subst hcb
      rcases s with _ | ⟨esc, s⟩
      · rw [Evaluator.readString.eq_def] at h
        simp [hcq] at h
      rw [evaluator_escape hb] at h
      rcases hs : Evaluator.readString q s with _ | ⟨v', k'⟩
      · rw [hs] at h
        cases h
      rw [hs] at h
      cases h
      have hrest := ih s.length (by simp only [List.length_cons]; omega) hs rfl
      exact hrest.escape hq hs fun hlt hr => ih _ (by simp only [List.length_cons]; omega) hr rfl
    · rw [evaluator_ordinary hcq hcb] at h
      rcases hs : Evaluator.readString q s with _ | ⟨v', k'⟩
      · rw [hs] at h
        cases h
      rw [hs] at h
      cases h
      exact (ih s.length (by simp) hs rfl).ordinary hcq hcb

end Literal

/-! ### The pieces of a text -/

section Pieces

variable {ν : Type} {cc : CharClasses} {float : List Char → Option ν} {i k : ℕ} {c : Char}
  {s : List Char}

/-- A text of blanks, operators, literals, numbers and words. An operator of two characters is two
pieces, since the lexers pair them up differently. -/
inductive Pieces (cc : CharClasses) (float : List Char → Option ν) : List Char → Prop
  | nil : Pieces cc float []
  | blank {c : Char} {s : List Char} (hc : blank c = true) (hs : Pieces cc float s) :
      Pieces cc float (c :: s)
  | operator {c : Char} {s : List Char} (hc : c ∈ shared ++ foreign) (hs : Pieces cc float s) :
      Pieces cc float (c :: s)
  | literal {q : Char} {s v : List Char} {k : ℕ} (hq : Evaluator.isQuote q = true)
      (hread : Evaluator.readString q s = some (v, k)) (hs : Pieces cc float (s.drop k)) :
      Pieces cc float (q :: s)
  | number {c : Char} {s : List Char} {value : ν} (hc : cc.isdigit c = true)
      (hf : float ((c :: s).take (numberLength cc (c :: s))) = some value)
      (hs : Pieces cc float ((c :: s).drop (numberLength cc (c :: s)))) : Pieces cc float (c :: s)
  | word {c : Char} {s : List Char} (hc : (cc.isalpha c || c = '_') = true)
    (hd : cc.isdigit c = false)
      (hs : Pieces cc float ((c :: s).drop (wordLength cc (c :: s)))) : Pieces cc float (c :: s)

/-- What the evaluator's lexer reads first. -/
inductive EvaluatorReads (cc : CharClasses) (float : List Char → Option ν) (i : ℕ) (c : Char)
    (s : List Char) : Option (Evaluator.Token ν) → ℕ → Prop
  | blank (hc : blank c = true) : EvaluatorReads cc float i c s none 1
  | literal {v : List Char} {k : ℕ} (hb : Scanning.blank c = false)
    (hq : Evaluator.isQuote c = true)
      (hread : Evaluator.readString c s = some (v, k)) :
      EvaluatorReads cc float i c s (some ⟨⟨.string (.ofList v), (c :: s).take (k + 1)⟩, i⟩) (k + 1)
  | operator {x : Evaluator.Sym} {k : ℕ} (hb : Scanning.blank c = false)
      (hq : Evaluator.isQuote c = false) (hread : Evaluator.symbols.read (c :: s) = some (x, k)) :
      EvaluatorReads cc float i c s (some ⟨⟨.sym x, (c :: s).take k⟩, i⟩) k
  | number {value : ν} (hb : Scanning.blank c = false) (hq : Evaluator.isQuote c = false)
      (hsym : Evaluator.symbols.read (c :: s) = none) (hc : cc.isdigit c = true)
      (hf : float ((c :: s).take (numberLength cc (c :: s))) = some value) :
      EvaluatorReads cc float i c s
        (some ⟨⟨.number value, (c :: s).take (numberLength cc (c :: s))⟩, i⟩)
        (numberLength cc (c :: s))
  | word (hb : Scanning.blank c = false) (hq : Evaluator.isQuote c = false)
      (hsym : Evaluator.symbols.read (c :: s) = none) (hd : cc.isdigit c = false)
      (hc : (cc.isalpha c || c = '_') = true) :
      EvaluatorReads cc float i c s
        (some ⟨⟨.ident (.ofList ((c :: s).take (wordLength cc (c :: s)))),
          (c :: s).take (wordLength cc (c :: s))⟩, i⟩) (wordLength cc (c :: s))

/-- A point is an operator, so that a number begins with a digit. -/
lemma beginsNumber_iff (h : Evaluator.symbols.read (c :: s) = none) :
    Evaluator.beginsNumber cc (c :: s) = cc.isdigit c := by
  have hc : c ≠ '.' := by
    rintro rfl
    cases Symbols.single_none h
  rcases s with _ | ⟨d, s⟩
  · rfl
  · rw [Evaluator.beginsNumber]
    simp [hc]

lemma evaluator_step {t : Option (Evaluator.Token ν)}
    (h : Evaluator.lexStep cc float i (c :: s) = .ok (t, k)) :
    EvaluatorReads cc float i c s t k := by
  rw [Evaluator.lexStep] at h
  rcases hb : blank c with _ | _
  swap
  · rw [hb, if_pos rfl] at h
    cases h
    exact .blank hb
  rw [hb, if_neg (by simp)] at h
  rcases hq : Evaluator.isQuote c with _ | _
  swap
  · rw [hq, if_pos rfl] at h
    rcases hread : Evaluator.readString c s with _ | ⟨v, k'⟩
    · rw [hread] at h
      cases h
    · rw [hread] at h
      cases h
      exact .literal hb hq hread
  rw [hq, if_neg (by simp)] at h
  rcases hsym : Evaluator.symbols.read (c :: s) with _ | ⟨x, k'⟩
  swap
  · rw [hsym] at h
    cases h
    exact .operator hb hq hsym
  simp only [hsym, beginsNumber_iff hsym] at h
  rcases hd : cc.isdigit c with _ | _
  · rw [hd, if_neg (by simp)] at h
    rcases hc : (cc.isalpha c || decide (c = '_')) with _ | _
    · rw [hc, if_neg (by simp)] at h
      cases h
    · rw [hc, if_pos rfl] at h
      cases h
      exact .word hb hq hsym hd hc
  · rw [hd, if_pos rfl] at h
    rcases hf : float ((c :: s).take (numberLength cc (c :: s))) with _ | value
    · rw [hf] at h
      cases h
    · rw [hf] at h
      cases h
      exact .number hb hq hsym hd hf

lemma evaluator_progresses : Progresses (Evaluator.lexStep cc float) := by
  intro i s t k h
  rcases s with _ | ⟨c, s⟩
  · cases h
    exact le_rfl
  cases evaluator_step h with
  | blank => exact le_rfl
  | literal => omega
  | operator _ _ hread =>
    rcases Symbols.read_cases hread with ⟨rfl, -⟩ | ⟨rfl, -⟩ <;> omega
  | number _ _ _ hc => exact numberLength_pos hc
  | word =>
    rw [wordLength]
    omega

/-! ### Parentheses -/

def evaluatorParen? : Evaluator.Tok ν → Option Char
  | .sym .lparen => some '('
  | .sym .rparen => some ')'
  | _ => none

lemma evaluator_single {x : Evaluator.Sym} (h : Evaluator.singleSym c = some x) :
    c ∈ shared ++ foreign ∧ [c].filter isParen = (evaluatorParen? (ν := ν) (.sym x)).toList := by
  rw [Evaluator.singleSym.eq_def] at h
  split at h
  all_goals first
    | cases h; exact ⟨by decide, rfl⟩
    | cases h

lemma evaluator_double {d : Char} {x : Evaluator.Sym} (h : Evaluator.doubleSym c d = some x) :
    c ∈ shared ++ foreign ∧ d ∈ shared ++ foreign ∧
      [c, d].filter isParen = (evaluatorParen? (ν := ν) (.sym x)).toList := by
  rw [Evaluator.doubleSym.eq_def] at h
  split at h
  all_goals first
    | cases h; exact ⟨by decide, by decide, rfl⟩
    | cases h

/-- No operator is a quote, and no blank. -/
lemma operator_plain (h : c ∈ shared ++ foreign) :
    Evaluator.isQuote c = false ∧ blank c = false := by
  have hall : ∀ c ∈ shared ++ foreign, Evaluator.isQuote c = false ∧ blank c = false :=
    List.all_iff_forall_prop.mp (by decide)
  exact hall c h

lemma isQuote_of_textual (h : textual cc c = true) : Evaluator.isQuote c = false := by
  have h₁ := textual_ne h (d := '\x22') (by decide)
  have h₂ := textual_ne h (d := '\x27') (by decide)
  simp [Evaluator.isQuote, h₁, h₂]

lemma isParen_of_textual (h : textual cc c = true) : isParen c = false := by
  have h₁ := textual_ne h (d := '(') (by decide)
  have h₂ := textual_ne h (d := ')') (by decide)
  simp [isParen, h₁, h₂]

lemma blank_plain (h : blank c = true) : Evaluator.isQuote c = false ∧ isParen c = false := by
  simp only [blank, Bool.or_eq_true, decide_eq_true_eq] at h
  rcases h with ((rfl | rfl) | rfl) | rfl <;> decide

/-- Words and numbers have no parentheses. -/
lemma filter_isParen_textual {u : List Char} (h : ∀ c ∈ u, textual cc c = true) :
    u.filter isParen = [] := by
  rw [List.filter_eq_nil_iff]
  intro c hc
  simp [isParen_of_textual (h c hc)]

lemma filterMap_toList {α β : Type} {f : α → Option β} (a : α) :
    (some a).toList.filterMap f = (f a).toList := by
  rcases h : f a with _ | b <;> simp [h]

/-- **What the evaluator's lexer accepts is made of pieces**, and its parentheses are those outside
literals. -/
lemma pieces_of_scan {ts : List (Evaluator.Token ν)}
    (h : scan (Evaluator.lexStep cc float) i s = .ok ts) : Pieces cc float s ∧
      ts.filterMap (fun t => evaluatorParen? t.tok) = (outside .code s).filter isParen := by
  have hp : Progresses (Evaluator.lexStep cc float) := evaluator_progresses
  refine scan_induction @hp (motive := fun _ s ts => Pieces cc float s ∧
    ts.filterMap (fun t => evaluatorParen? t.tok) = (outside .code s).filter isParen)
    (fun _ => ⟨.nil, rfl⟩) ?_ h
  rintro i c s t k ts hstep - ⟨hpieces, hparens⟩
  rw [List.filterMap_append, hparens]
  cases evaluator_step hstep with
  | blank hc =>
    obtain ⟨hq, hp⟩ := blank_plain hc
    refine ⟨.blank hc hpieces, ?_⟩
    rw [outside_cons hq, List.filter_cons_of_neg (by simp [hp])]
    rfl
  | literal _ hq hread =>
    refine ⟨.literal hq hread hpieces, ?_⟩
    have hp : isParen c = false := by
      rcases isQuote_iff.mp hq with rfl | rfl <;> rfl
    rw [outside, hq, if_pos rfl, (literalRead hq hread).outside,
      List.filter_cons_of_neg (by simp [hp])]
    rfl
  | operator _ _ hread =>
    rcases Symbols.read_cases hread with ⟨rfl, hc⟩ | ⟨rfl, d, s, rfl, hc⟩
    · obtain ⟨hmem, hp⟩ := evaluator_single (ν := ν) hc
      refine ⟨.operator hmem hpieces, ?_⟩
      rw [outside_cons (operator_plain hmem).1, filterMap_toList]
      show _ = ([c] ++ outside .code s).filter isParen
      rw [List.filter_append, hp]
      rfl
    · obtain ⟨hmem, hmem', hp⟩ := evaluator_double (ν := ν) hc
      refine ⟨.operator hmem (.operator hmem' hpieces), ?_⟩
      rw [outside_cons (operator_plain hmem).1, outside_cons (operator_plain hmem').1,
        filterMap_toList]
      show _ = ([c, d] ++ outside .code s).filter isParen
      rw [List.filter_append, hp]
      rfl
  | number _ _ _ hc hf =>
    refine ⟨.number hc hf hpieces, ?_⟩
    have htext : ∀ d ∈ (c :: s).take (numberLength cc (c :: s)), textual cc d = true :=
      numberLength_take.2
    rw [outside_take fun d hd => isQuote_of_textual (htext d hd), List.filter_append,
      filter_isParen_textual htext]
    rfl
  | word _ _ _ hd hc =>
    refine ⟨.word hc hd hpieces, ?_⟩
    obtain ⟨-, htext⟩ := wordLength_take (s := s) hc
    rw [outside_take fun d hd => isQuote_of_textual (htext d hd), List.filter_append,
      filter_isParen_textual htext]
    rfl

end Pieces

/-! ### The lexer of the query language -/

section QueryLexer

variable {ν : Type} {cc : CharClasses} {float : QlLexer.Text → Option ν}
  {text : List Char} {j k : ℕ} {c : Char} {s tail : List Char}

/-- No comment begins outside literals. -/
def NoComment (s : List Char) : Prop := ∀ r, r <:+ outside .code s → QlLexer.comment? r = none

lemma noComment_of_tails (h : ∀ r ∈ (outside .code s).tails, QlLexer.comment? r = none) :
    NoComment s :=
  fun r hr => h r ((List.mem_tails r _).mpr hr)

/-- A text that begins and ends with something else than a space. -/
structure Solid (cc : CharClasses) (u : List Char) : Prop where
  ne_nil : u ≠ []
  head : ∀ c ∈ u.head?, cc.isspace c = false
  last : ∀ c ∈ u.getLast?, cc.isspace c = false

lemma Solid.of_forall (hu : s ≠ []) (h : ∀ c ∈ s, cc.isspace c = false) : Solid cc s :=
  ⟨hu, fun c hc => h c (List.mem_of_mem_head? hc), fun c hc => h c (List.mem_of_mem_getLast? hc)⟩

def qlParen? : QlLexer.Tok ν → Option Char
  | .sym .lparen => some '('
  | .sym .rparen => some ')'
  | _ => none

/-- A blank or a token that is read, what stands in its place in the text, and what is left. -/
structure QlReads (cc : CharClasses) (float : QlLexer.Text → Option ν) (j : ℕ) (s : List Char)
    (t : Option (QlLexer.Token ν)) (k : ℕ) : Prop where
  pos : 1 ≤ k
  le : k ≤ s.length
  pieces : Pieces cc (fun u => float (QlLexer.codePoints u)) (s.drop k)
  wellEscaped : wellEscaped .code (s.drop k) = true
  outside : ∃ u, outside .code s = u ++ outside .code (s.drop k) ∧ (∀ c ∈ u, c ∉ foreign) ∧
    u.filter isParen = (t.bind fun t => qlParen? t.tok).toList
  token : (t = none ∧ ∀ c ∈ s.take k, blank c = true) ∨
    ∃ tok, t = some tok ∧ tok.start = j ∧ tok.stop = j + k ∧ tok.tok ≠ .eof ∧ Solid cc (s.take k)

/-- Only a slash begins a comment. -/
lemma comment_none (h : c ≠ '/') : QlLexer.comment? (c :: s) = none := by
  rw [QlLexer.comment?.eq_def]
  split
  · rename_i heq
    exact absurd (List.cons.inj heq).1 h
  · rename_i heq
    exact absurd (List.cons.inj heq).1 h
  · rfl

lemma lexStep_blank (h : blank c = true) : QlLexer.lexStep cc float text j (c :: s) =
    .ok (none, 1) := by
  rw [QlLexer.lexStep, if_pos h]

lemma lexStep_literal {value : QlLexer.Text} (hq : Evaluator.isQuote c = true)
    (h : QlLexer.readString c 1 s = .ok (value, k)) :
    QlLexer.lexStep cc float text j (c :: s) =
      .ok (QlLexer.tokenAt text j (c :: s) (.string value) k) := by
  have hb : blank c = false := by
    rcases isQuote_iff.mp hq with rfl | rfl <;> rfl
  have hcom : QlLexer.comment? (c :: s) = none := by
    refine comment_none ?_
    rintro rfl
    cases hq
  have hq' : QlLexer.isQuote c = true := hq
  simp only [QlLexer.lexStep, hb, hcom, hq', h]
  rfl

lemma lexStep_symbol {x : QlLexer.Sym} (hb : blank c = false)
    (hcom : QlLexer.comment? (c :: s) = none)
    (hq : Evaluator.isQuote c = false) (h : QlLexer.symbols.read (c :: s) = some (x, k)) :
    QlLexer.lexStep cc float text j (c :: s) =
      .ok (QlLexer.tokenAt text j (c :: s) (.sym x) k) := by
  have hq' : QlLexer.isQuote c = false := hq
  simp only [QlLexer.lexStep, hb, hcom, hq', h]
  rfl

/-- Neither a blank, nor a comment, a literal or a symbol begins here. -/
lemma lexStep_text (hb : blank c = false) (hcom : QlLexer.comment? (c :: s) = none)
    (hq : Evaluator.isQuote c = false) (h : QlLexer.symbols.read (c :: s) = none) :
    QlLexer.lexStep cc float text j (c :: s) =
      if cc.isdigit c then
        match float (QlLexer.codePoints ((c :: s).take (numberLength cc (c :: s)))) with
        | some value =>
          .ok (QlLexer.tokenAt text j (c :: s) (.number value) (numberLength cc (c :: s)))
        | none => .error .valueError
      else if cc.isalpha c || c = '_' then
        .ok (QlLexer.tokenAt text j (c :: s)
          (.ident (.ofList ((c :: s).take (wordLength cc (c :: s))))) (wordLength cc (c :: s)))
      else .error (QlLexer.raiseAt text j s!"unexpected character '{c}'") := by
  have hq' : QlLexer.isQuote c = false := hq
  simp only [QlLexer.lexStep, hb, hcom, hq', h]
  rfl

lemma ql_single (h : c ∈ shared) : ∃ x, QlLexer.singleSym c = some x ∧
    [c].filter isParen = (qlParen? (ν := ν) (.sym x)).toList := by
  simp only [shared, List.mem_cons, List.not_mem_nil, or_false] at h
  rcases h with rfl | rfl | rfl | rfl | rfl | rfl | rfl | rfl | rfl | rfl | rfl | rfl <;>
    exact ⟨_, rfl, rfl⟩

lemma ql_double {d : Char} {x : QlLexer.Sym} (h : QlLexer.doubleSym c d = some x) :
    d ∈ ['>', '<', '=', '~'] ∧ [c, d].filter isParen = (qlParen? (ν := ν) (.sym x)).toList := by
  rw [QlLexer.doubleSym.eq_def] at h
  split at h
  all_goals first
    | cases h; exact ⟨by decide, rfl⟩
    | cases h

lemma shared_plain (h : c ∈ shared) : c ∉ foreign ∧ c ≠ '/' ∧ cc.isspace c = false := by
  have hall : ∀ c ∈ shared, c.toNat < 128 ∧ c ∉ foreign ∧ c ≠ '/' ∧
      decide (c.toNat ∈ [9, 10, 11, 12, 13, 28, 29, 30, 31, 32]) = false :=
    List.all_iff_forall_prop.mp (by decide)
  obtain ⟨hlt, hforeign, hslash, hspace⟩ := hall c h
  exact ⟨hforeign, hslash, by rw [cc.isspace_ascii c hlt, hspace]⟩

/-- The operators of the evaluator alone are unexpected. -/
lemma lexStep_foreign (h : c ∈ foreign) (hcom : QlLexer.comment? (c :: s) = none) :
    QlLexer.lexStep cc float text j (c :: s) =
      .error (QlLexer.raiseAt text j s!"unexpected character '{c}'") := by
  have hplain := operator_plain (List.mem_append_right shared h)
  have hmark : ∀ c ∈ foreign, c ∈ marks := List.all_iff_forall_prop.mp (by decide)
  have htext : textual cc c = false := textual_of_mem_marks (hmark c h)
  simp only [textual, Bool.or_eq_false_iff, decide_eq_false_iff_not] at htext
  have hsym : QlLexer.symbols.read (c :: s) = none := by
    simp only [foreign, List.mem_cons, List.not_mem_nil, or_false] at h
    refine Symbols.read_none ?_ fun d _ => ?_
    · rcases h with rfl | rfl | rfl | rfl | rfl | rfl <;> rfl
    · rcases h with rfl | rfl | rfl | rfl | rfl | rfl <;> simp [QlLexer.symbols, QlLexer.doubleSym]
  rw [lexStep_text hplain.2 hcom hplain.1 hsym]
  simp [htext]

/-- A symbol that begins no word, number or literal is a piece of its own. -/
lemma Pieces.operator_inv {f : List Char → Option ν} (h : Pieces cc f (c :: s))
    (hc : c ∈ ['>', '<', '=', '~']) : c ∈ shared ∧ Pieces cc f s := by
  have hmarks : ∀ c ∈ ['>', '<', '=', '~'],
      c ∈ marks ∧ Scanning.blank c = false ∧ Evaluator.isQuote c = false ∧ c ∉ foreign :=
    List.all_iff_forall_prop.mp (by decide)
  have hmark := hmarks c hc
  have htext : textual cc c = false := textual_of_mem_marks hmark.1
  simp only [textual, Bool.or_eq_false_iff, decide_eq_false_iff_not] at htext
  cases h with
  | blank hb => simp [hmark.2.1] at hb
  | operator hc hs =>
    rcases List.mem_append.mp hc with hc | hc
    · exact ⟨hc, hs⟩
    · exact absurd hc hmark.2.2.2
  | literal hq => simp [hmark.2.2.1] at hq
  | number hd => simp [htext] at hd
  | word hw => simp [htext] at hw

lemma tokenAt_eq {tok : QlLexer.Tok ν} : QlLexer.tokenAt text j s tok k =
    (some ⟨tok, s.take k, j, j + k, (QlLexer.lineCol text j).1, (QlLexer.lineCol text j).2⟩, k) :=
      rfl

/-- A token of characters outside literals. -/
lemma QlReads.of_plain {tok : QlLexer.Tok ν} (hk : 1 ≤ k) (hle : k ≤ s.length)
    (hs : Pieces cc (fun u => float (QlLexer.codePoints u)) (s.drop k))
    (hlit : IfLexing.wellEscaped .code s = true)
    (hu : ∀ c ∈ s.take k, Evaluator.isQuote c = false ∧ c ∉ foreign ∧ cc.isspace c = false)
    (htok : tok ≠ .eof) (hp : (s.take k).filter isParen = (qlParen? tok).toList) :
    QlReads cc float j s (QlLexer.tokenAt text j (s ++ tail) tok k).1 k := by
  have hquote : ∀ c ∈ s.take k, Evaluator.isQuote c = false := fun c hc => (hu c hc).1
  have hne : s.take k ≠ [] := by
    rw [← List.length_pos_iff, List.length_take]
    omega
  refine ⟨hk, hle, hs, by rwa [← wellEscaped_take hquote],
    ⟨_, outside_take hquote, fun c hc => (hu c hc).2.1, hp⟩,
      Or.inr ⟨_, rfl, rfl, rfl, htok, .of_forall hne fun c hc => (hu c hc).2.2⟩⟩

lemma read_blank (hc : blank c = true) (hs : Pieces cc (fun u => float (QlLexer.codePoints u)) s)
    (hlit : wellEscaped .code (c :: s) = true) : QlReads cc float j (c :: s) none 1 := by
  obtain ⟨hq, hp⟩ := blank_plain hc
  have hforeign : c ∉ foreign := by
    intro h
    have := (operator_plain (List.mem_append_right shared h)).2
    simp [hc] at this
  exact ⟨le_rfl, by simp, hs, by rwa [← wellEscaped_cons hq],
    ⟨[c], outside_cons hq, by simpa using hforeign, by simp [hp]⟩, Or.inl ⟨rfl, by simpa using hc⟩⟩

/-- An operator that both know, alone or paired with the next one. -/
lemma step_shared (hc : c ∈ shared) (hs : Pieces cc (fun u => float (QlLexer.codePoints u)) s)
    (hlit : wellEscaped .code (c :: s) = true) : ∃ t k,
      QlLexer.lexStep cc float text j (c :: s ++ ')' :: tail) = .ok (t, k) ∧
        QlReads cc float j (c :: s) t k := by
  have hplain := operator_plain (List.mem_append_left foreign hc)
  have hsp : c ∉ foreign ∧ c ≠ '/' ∧ cc.isspace c = false := shared_plain hc
  by_cases hdouble : ∃ d r x, s = d :: r ∧ QlLexer.doubleSym c d = some x
  · obtain ⟨d, r, x, rfl, hx⟩ := hdouble
    obtain ⟨hd, hp⟩ := ql_double (ν := ν) hx
    obtain ⟨hd, hr⟩ := hs.operator_inv hd
    have hdplain := operator_plain (List.mem_append_left foreign hd)
    have hdsp : d ∉ foreign ∧ d ≠ '/' ∧ cc.isspace d = false := shared_plain hd
    refine ⟨_, 2, lexStep_symbol hplain.2 (comment_none hsp.2.1) hplain.1 (Symbols.read_double hx),
      ?_⟩
    refine QlReads.of_plain (by omega) (by simp) hr hlit ?_ (by simp) hp
    intro e he
    simp only [List.take_succ_cons, List.take_zero, List.mem_cons, List.not_mem_nil, or_false] at he
    rcases he with rfl | rfl
    · exact ⟨hplain.1, hsp.1, hsp.2.2⟩
    · exact ⟨hdplain.1, hdsp.1, hdsp.2.2⟩
  · obtain ⟨x, hx, hp⟩ := ql_single (ν := ν) hc
    have hread : QlLexer.symbols.read (c :: (s ++ ')' :: tail)) = some (x, 1) := by
      refine Symbols.read_single hx ?_
      rcases s with _ | ⟨d, r⟩
      · intro d hd
        cases hd
        simp [QlLexer.symbols, QlLexer.doubleSym]
      · intro d' hd
        cases hd
        rcases h : QlLexer.doubleSym c d with _ | x
        · exact h
        · exact absurd ⟨d, r, x, rfl, h⟩ hdouble
    refine ⟨_, 1, lexStep_symbol hplain.2 (comment_none hsp.2.1) hplain.1 hread, ?_⟩
    refine QlReads.of_plain le_rfl (by simp) hs hlit ?_ (by simp) hp
    intro e he
    simp only [List.take_succ_cons, List.take_zero, List.mem_cons, List.not_mem_nil, or_false] at he
    subst he
    exact ⟨hplain.1, hsp.1, hsp.2.2⟩

lemma step_literal {v : List Char} (hq : Evaluator.isQuote c = true)
    (hread : Evaluator.readString c s = some (v, k))
    (hs : Pieces cc (fun u => float (QlLexer.codePoints u)) (s.drop k))
    (hlit : wellEscaped .code (c :: s) = true) : ∃ t k,
      QlLexer.lexStep cc float text j (c :: s ++ ')' :: tail) = .ok (t, k) ∧
        QlReads cc float j (c :: s) t k := by
  have hlr := literalRead hq hread
  have hspace : cc.isspace c = false := by
    rcases isQuote_iff.mp hq with rfl | rfl <;> rw [cc.isspace_ascii _ (by decide)] <;> decide
  have hplain : c ∉ foreign ∧ isParen c = false := by
    rcases isQuote_iff.mp hq with rfl | rfl <;> decide
  rw [wellEscaped, hq, if_pos rfl] at hlit
  obtain ⟨hdrop, hql⟩ := hlr.wellEscaped hlit
  obtain ⟨value, hvalue⟩ := hql (')' :: tail) 1
  refine ⟨_, 1 + k, lexStep_literal hq hvalue, by omega, by
    have := hlr.le; simp only [List.length_cons]; omega, ?_, ?_,
      ⟨[c], ?_, by simpa using hplain.1, by simp [hplain.2, qlParen?]⟩,
    Or.inr ⟨_, rfl, rfl, rfl, by simp, ?_⟩⟩
  · rwa [Nat.add_comm, List.drop_succ_cons]
  · rwa [Nat.add_comm, List.drop_succ_cons]
  · rw [outside, hq, if_pos rfl, hlr.outside, Nat.add_comm 1, List.drop_succ_cons]
    rfl
  · rw [Nat.add_comm]
    refine ⟨by simp, ?_, ?_⟩
    · simpa using hspace
    · rw [getLast?_take_succ hlr.last]
      simpa using hspace

/-- Words and numbers are textual. -/
lemma textual_plain {u : List Char} (h : ∀ c ∈ u, textual cc c = true) :
    ∀ c ∈ u, Evaluator.isQuote c = false ∧ c ∉ foreign ∧ cc.isspace c = false := by
  have hmark : ∀ c ∈ foreign, c ∈ marks := List.all_iff_forall_prop.mp (by decide)
  exact fun c hc => ⟨isQuote_of_textual (h c hc), fun hf => textual_ne (h c hc) (hmark c hf) rfl,
    isspace_of_textual (h c hc)⟩

/-- A character that begins a word or a number begins nothing else. -/
lemma textual_start (h : (cc.isdigit c || cc.isalpha c || c = '_') = true) :
    blank c = false ∧ c ≠ '/' ∧
    Evaluator.isQuote c = false ∧ QlLexer.symbols.read (c :: s) = none := by
  have htext : textual cc c = true := by
    simp only [textual, Bool.or_eq_true] at h ⊢
    tauto
  have hdot : c ≠ '.' := by
    rintro rfl
    rw [cc.isdigit_ascii _ (by decide), cc.isalpha_ascii _ (by decide)] at h
    exact absurd h (by decide)
  have hne : c ∉ '.' :: marks := by
    intro hmem
    rcases List.mem_cons.mp hmem with rfl | hmem
    · exact hdot rfl
    · exact textual_ne htext hmem rfl
  refine ⟨?_, textual_ne htext (by decide), isQuote_of_textual htext,
    Symbols.read_none ?_ fun d _ => ?_⟩
  · rcases hb : blank c with _ | _
    · rfl
    · simp only [blank, Bool.or_eq_true, decide_eq_true_eq] at hb
      rcases hb with ((rfl | rfl) | rfl) | rfl <;> exact absurd (by decide) hne
  · rcases hx : QlLexer.singleSym c with _ | x
    · exact hx
    · rw [QlLexer.singleSym.eq_def] at hx
      split at hx
      all_goals first
        | exact absurd (by decide) hne
        | cases hx
  · rcases hx : QlLexer.doubleSym c d with _ | x
    · exact hx
    · rw [QlLexer.doubleSym.eq_def] at hx
      split at hx
      all_goals first
        | exact absurd (by decide) hne
        | cases hx

/-- The parenthesis after the expression is in no word or number. -/
lemma rparen_stops : ∀ d ∈ (')' :: tail).head?,
    (cc.isdigit d = false ∧ d ≠ '.') ∧ wordChar cc d = false := by
  intro d hd
  cases hd
  have htext : textual cc ')' = false := textual_of_mem_marks (by decide)
  simp only [textual, Bool.or_eq_false_iff] at htext
  exact ⟨⟨htext.1.1.1.1, by decide⟩, by rw [wordChar, htext.1.1.2]; rfl⟩

lemma step_number {value : ν} (hc : cc.isdigit c = true)
    (hf : float (QlLexer.codePoints ((c :: s).take (numberLength cc (c :: s)))) = some value)
    (hs : Pieces cc (fun u => float (QlLexer.codePoints u))
      ((c :: s).drop (numberLength cc (c :: s))))
    (hlit : wellEscaped .code (c :: s) = true) : ∃ t k,
      QlLexer.lexStep cc float text j (c :: s ++ ')' :: tail) = .ok (t, k) ∧
        QlReads cc float j (c :: s) t k := by
  obtain ⟨hb, hslash, hq, hsym⟩ :=
    textual_start (s := s ++ ')' :: tail) (show (cc.isdigit c || cc.isalpha c || c = '_') =
      true by simp [hc])
  have hlen : numberLength cc (c :: (s ++ ')' :: tail)) = numberLength cc (c :: s) :=
    numberLength_append (s := c :: s) fun d hd => (rparen_stops d hd).1
  obtain ⟨hle, htext⟩ : numberLength cc (c :: s) ≤ (c :: s).length ∧
    ∀ d ∈ (c :: s).take (numberLength cc (c :: s)), textual cc d = true := numberLength_take
  have htake : (c :: (s ++ ')' :: tail)).take (numberLength cc (c :: s)) =
      (c :: s).take (numberLength cc (c :: s)) := List.take_append_of_le_length hle
  have hstep : QlLexer.lexStep cc float text j (c :: s ++ ')' :: tail) =
      .ok (QlLexer.tokenAt text j (c :: s ++ ')' :: tail) (.number value)
        (numberLength cc (c :: s))) := by
    rw [List.cons_append, lexStep_text hb (comment_none hslash) hq hsym, if_pos hc, hlen, htake, hf]
  refine ⟨_, _, hstep, QlReads.of_plain (numberLength_pos hc) hle hs hlit
    (textual_plain htext) (by simp) ?_⟩
  rw [filter_isParen_textual htext]
  rfl

lemma step_word (hc : (cc.isalpha c || c = '_') = true) (hd : cc.isdigit c = false)
    (hs : Pieces cc (fun u => float (QlLexer.codePoints u))
      ((c :: s).drop (wordLength cc (c :: s))))
    (hlit : wellEscaped .code (c :: s) = true) : ∃ t k,
      QlLexer.lexStep cc float text j (c :: s ++ ')' :: tail) = .ok (t, k) ∧
        QlReads cc float j (c :: s) t k := by
  obtain ⟨hb, hslash, hq, hsym⟩ :=
    textual_start (s := s ++ ')' :: tail) (show (cc.isdigit c || cc.isalpha c || c = '_') = true by
      simpa [hd] using hc)
  have hlen : wordLength cc (c :: (s ++ ')' :: tail)) = wordLength cc (c :: s) :=
    wordLength_append (s := c :: s) (fun d hd => (rparen_stops d hd).2) (by simp)
  obtain ⟨hle, htext⟩ := wordLength_take (s := s) hc
  have hstep : QlLexer.lexStep cc float text j (c :: s ++ ')' :: tail) =
      .ok (QlLexer.tokenAt text j (c :: s ++ ')' :: tail)
        (.ident (.ofList ((c :: (s ++ ')' :: tail)).take (wordLength cc (c :: s)))))
        (wordLength cc (c :: s))) := by
    rw [List.cons_append, lexStep_text hb (comment_none hslash) hq hsym, hd, if_neg (by simp),
      if_pos hc, hlen]
  refine ⟨_, _, hstep, QlReads.of_plain (by rw [wordLength]; omega) hle hs hlit
    (textual_plain htext) (by simp) ?_⟩
  rw [filter_isParen_textual htext]
  rfl

/-- The next character decides whether a slash begins a comment, and outside literals it is the
same. -/
lemma comment_append (h : NoComment (c :: s)) : c ∈ foreign →
    QlLexer.comment? (c :: s ++ ')' :: tail) = none := by
  intro hc
  by_cases hslash : c = '/'
  swap
  · exact comment_none hslash
  subst hslash
  rcases s with _ | ⟨d, s⟩
  · rfl
  have hout := h _ (List.suffix_refl _)
  rw [outside_cons rfl, outside] at hout
  rw [QlLexer.comment?.eq_def] at hout ⊢
  split at hout
  · cases hout
  · cases hout
  · rename_i h₁ h₂
    split
    · rename_i heq
      cases heq
      exact absurd rfl (h₁ _)
    · rename_i heq
      cases heq
      exact absurd rfl (h₂ _)
    · rfl

/-- **One step of the lexer of the query language** on an expression: a foreign operator is an
error, and anything else is read. -/
lemma ql_step (text tail : List Char) (j : ℕ)
    (hs : Pieces cc (fun u => float (QlLexer.codePoints u)) (c :: s)) (hcom : NoComment (c :: s))
    (hlit : wellEscaped .code (c :: s) = true) :
    (c ∈ foreign ∧ ∃ e, QlLexer.lexStep cc float text j (c :: s ++ ')' :: tail) = .error e) ∨
      ∃ t k, QlLexer.lexStep cc float text j (c :: s ++ ')' :: tail) = .ok (t, k) ∧
        QlReads cc float j (c :: s) t k := by
  cases hs with
  | blank hc hs => exact Or.inr ⟨none, 1, lexStep_blank hc, read_blank hc hs hlit⟩
  | operator hc hs =>
    rcases List.mem_append.mp hc with hc | hc
    · exact Or.inr (step_shared hc hs hlit)
    · exact Or.inl ⟨hc, _, lexStep_foreign hc (comment_append hcom hc)⟩
  | literal hq hread hs => exact Or.inr (step_literal hq hread hs hlit)
  | number hc hf hs => exact Or.inr (step_number hc hf hs hlit)
  | word hc hd hs => exact Or.inr (step_word hc hd hs hlit)

/-! ### A whole expression -/

/-- The tokens of an expression begin where its first solid character stands, and end with its last
one. -/
inductive Covers (cc : CharClasses) : ℕ → List Char → List (QlLexer.Token ν) → Prop
  | blanks {j : ℕ} {s : List Char} (h : ∀ c ∈ s, blank c = true) : Covers cc j s []
  | tokens {j : ℕ} {a core b : List Char} {ts : List (QlLexer.Token ν)}
    {first last : QlLexer.Token ν}
      (ha : ∀ c ∈ a, blank c = true) (hb : ∀ c ∈ b, blank c = true) (hcore : Solid cc core)
      (hfirst : ts.head? = some first) (hlast : ts.getLast? = some last)
      (hstart : first.start = j + a.length) (hstop : last.stop = j + a.length + core.length) :
      Covers cc j (a ++ (core ++ b)) ts

lemma Covers.skip {ts : List (QlLexer.Token ν)} (hu : ∀ c ∈ s.take k, blank c = true)
    (hk : k ≤ s.length) (h : Covers cc (j + k) (s.drop k) ts) : Covers cc j s ts := by
  have hs := (List.take_append_drop k s).symm
  have hlen : (s.take k).length = k := by rw [List.length_take, Nat.min_eq_left hk]
  generalize s.drop k = rest at h hs
  cases h with
  | blanks h =>
    rw [hs]
    refine .blanks fun d hd => ?_
    rcases List.mem_append.mp hd with hd | hd
    · exact hu d hd
    · exact h d hd
  | @tokens a core b _ first last ha hb hcore hfirst hlast hstart hstop =>
    rw [hs, ← List.append_assoc]
    refine .tokens ?_ hb hcore hfirst hlast ?_ ?_
    · intro d hd
      rcases List.mem_append.mp hd with hd | hd
      · exact hu d hd
      · exact ha d hd
    · rw [hstart, List.length_append, hlen]
      omega
    · rw [hstop, List.length_append, hlen]
      omega

lemma Solid.append {u v : List Char} (hu : Solid cc u) (hv : Solid cc v) (w : List Char) :
    Solid cc (u ++ (w ++ v)) := by
  refine ⟨by simp [hu.ne_nil], fun c hc => hu.head c ?_, fun c hc => hv.last c ?_⟩
  · rwa [List.head?_append, List.head?_eq_some_head hu.ne_nil, Option.some_or,
      ← List.head?_eq_some_head hu.ne_nil] at hc
  · rwa [← List.append_assoc, List.getLast?_append, List.getLast?_eq_some_getLast hv.ne_nil,
      Option.some_or, ← List.getLast?_eq_some_getLast hv.ne_nil] at hc

lemma Covers.token {tok : QlLexer.Token ν} {ts : List (QlLexer.Token ν)} (hu : Solid cc (s.take k))
    (hk : k ≤ s.length) (hstart : tok.start = j) (hstop : tok.stop = j + k)
    (h : Covers cc (j + k) (s.drop k) ts) : Covers cc j s (tok :: ts) := by
  have hs : s = [] ++ (s.take k ++ s.drop k) := by rw [List.nil_append, List.take_append_drop]
  have hlen : (s.take k).length = k := by rw [List.length_take, Nat.min_eq_left hk]
  generalize s.drop k = rest at h hs
  cases h with
  | blanks h =>
    have hlast : [tok].getLast? = some tok := rfl
    rw [hs]
    exact .tokens (by simp) h hu rfl hlast hstart (by rw [hstop, hlen]; rfl)
  | @tokens a core b _ first last ha hb hcore hfirst hlast hstart' hstop' =>
    have hs' : s = [] ++ ((s.take k ++ (a ++ core)) ++ b) := by
      conv_lhs => rw [hs]
      simp only [List.append_assoc]
    have hlast' : (tok :: ts).getLast? = some last := by
      rw [List.getLast?_cons, hlast]
      rfl
    rw [hs']
    refine .tokens (by simp) hb (hu.append hcore a) rfl hlast' hstart ?_
    rw [hstop', List.length_append, List.length_append, hlen, List.length_nil]
    omega

/-- What is left has no comments either. -/
lemma NoComment.of_reads {t : Option (QlLexer.Token ν)} (h : NoComment s)
    (hr : QlReads cc float j s t k) : NoComment (s.drop k) := by
  obtain ⟨u, hu, -⟩ := hr.outside
  intro r hsuffix
  refine h r ?_
  rw [hu]
  exact hsuffix.trans (List.suffix_append u _)

/-- The lexer along an expression without foreign operators. -/
structure QlTokens (cc : CharClasses) (j : ℕ) (s : List Char) (ts : List (QlLexer.Token ν)) :
    Prop where
  parens : ts.filterMap (fun t => qlParen? t.tok) = (outside .code s).filter isParen
  ne_eof : ∀ t ∈ ts, t.tok ≠ .eof
  covers : Covers cc j s ts

lemma QlTokens.cons {t : Option (QlLexer.Token ν)} {ts : List (QlLexer.Token ν)}
    (hr : QlReads cc float j s t k) (h : QlTokens cc (j + k) (s.drop k) ts) :
    QlTokens cc j s (t.toList ++ ts) := by
  obtain ⟨u, hu, -, hp⟩ := hr.outside
  have hparens : (t.toList ++ ts).filterMap (fun t => qlParen? t.tok) =
      (outside .code s).filter isParen := by
    rw [List.filterMap_append, h.parens, hu, List.filter_append, hp]
    rcases t with _ | t
    · rfl
    · rw [filterMap_toList]
      rfl
  rcases hr.token with ⟨rfl, hblank⟩ | ⟨tok, rfl, hstart, hstop, hne, hsolid⟩
  · exact ⟨hparens, h.ne_eof, h.covers.skip hblank hr.le⟩
  · refine ⟨hparens, fun t ht => ?_, .token hsolid hr.le hstart hstop h.covers⟩
    rcases List.mem_cons.mp ht with rfl | ht
    · exact hne
    · exact h.ne_eof t ht

/-- **The lexer along a whole expression**: a foreign operator is an error, and an expression
without one is read to its end. -/
lemma scan_cases (text tail : List Char) (j : ℕ)
    (hs : Pieces cc (fun u => float (QlLexer.codePoints u)) s) (hcom : NoComment s)
    (hlit : wellEscaped .code s = true) :
    ((∃ c ∈ outside .code s, c ∈ foreign) ∧
        ∃ e, scan (QlLexer.lexStep cc float text) j (s ++ ')' :: tail) = .error e) ∨
      ((∀ c ∈ outside .code s, c ∉ foreign) ∧ ∃ ts, QlTokens cc j s ts ∧
        scan (QlLexer.lexStep cc float text) j (s ++ ')' :: tail) =
          (scan (QlLexer.lexStep cc float text) (j + s.length) (')' :: tail)).map (ts ++ ·)) := by
  have hp : Progresses (QlLexer.lexStep cc float text) := QlLexer.lexStep_progresses
  induction hn : s.length using Nat.strong_induction_on generalizing s j with
  | _ n ih =>
    subst hn
    rcases s with _ | ⟨c, s⟩
    · refine Or.inr ⟨by simp [outside], [], ⟨rfl, by simp, .blanks (by simp)⟩, ?_⟩
      show _ = Except.map id _
      rw [Except.map_id]
      rfl
    rcases ql_step text tail j hs hcom hlit with ⟨hc, e, hstep⟩ | ⟨t, k, hstep, hr⟩
    · refine Or.inl ⟨⟨c, by rw [outside]; exact List.mem_cons_self, hc⟩, e, ?_⟩
      rw [List.cons_append] at hstep ⊢
      rw [scan_cons @hp, hstep]
      rfl
    have hlt : ((c :: s).drop k).length < (c :: s).length := by
      have := hr.pos
      rw [List.length_drop, List.length_cons]
      omega
    have hlen : j + k + ((c :: s).drop k).length = j + (c :: s).length := by
      have := hr.le
      rw [List.length_drop]
      omega
    have hscan : scan (QlLexer.lexStep cc float text) j (c :: s ++ ')' :: tail) =
        (scan (QlLexer.lexStep cc float text) (j + k) ((c :: s).drop k ++ ')' :: tail)).map
        (t.toList ++ ·) := by
      rw [List.cons_append] at hstep
      rw [List.cons_append, scan_of_step @hp hstep, ← List.cons_append,
        List.drop_append_of_le_length hr.le]
    obtain ⟨u, hu, hplain, -⟩ := hr.outside
    rw [hu, hscan]
    rcases ih _ hlt (j + k) hr.pieces (hcom.of_reads hr) hr.wellEscaped rfl with
      ⟨⟨d, hd, hdf⟩, e, he⟩ | ⟨hf, ts, hts, hrest⟩
    · refine Or.inl ⟨⟨d, List.mem_append_right u hd, hdf⟩, e, ?_⟩
      rw [he]
      rfl
    · refine Or.inr ⟨fun d hd => (List.mem_append.mp hd).elim (hplain d) (hf d), t.toList ++ ts,
        .cons hr hts, ?_⟩
      rw [hrest, hlen]
      rcases scan (QlLexer.lexStep cc float text) (j + (c :: s).length) (')' :: tail) with e | ts'
      · rfl
      · simp [Except.map]

end QueryLexer

end OsmParquet.IfLexing
