import OsmParquet.QlRuns
import OsmParquet.Rounding

/-!
Ids in the filters of a query.

The lexer turns every number into a float, and the parser turns it back into an integer. A float has
53 significant bits and an id up to 63, so an id comes back as it was written exactly when it has no
more bits than fit; others come back as a neighbour that does.
-/

namespace OsmParquet.IdFilters

open OsmParquet.Scanning OsmParquet.IfLexing OsmParquet.Outcomes OsmParquet.QlRuns
  OsmParquet.Rounding

/-! ### Integers as they are written -/

/-- Digits, with a minus in front or without. -/
structure Literal where
  negative : Bool
  first : Char
  others : List Char
  isDigit : ∀ c ∈ first :: others, c.isDigit = true

def signed (negative : Bool) (n : ℕ) : ℤ := if negative then -n else n

namespace Literal

def digits (l : Literal) : List Char := l.first :: l.others

def text (l : Literal) : List Char := if l.negative then '-' :: l.digits else l.digits

def magnitude (l : Literal) : ℕ := Nat.ofDigitChars 10 l.digits 0

def value (l : Literal) : ℤ := signed l.negative l.magnitude

/-- The integer that the parser gets back. -/
def rounded (l : Literal) : ℤ := signed l.negative (roundTo 53 l.magnitude)

end Literal

lemma signed_inj {b : Bool} {m n : ℕ} : signed b m = signed b n ↔ m = n := by
  cases b <;> simp [signed]

lemma Literal.rounded_eq_iff {l : Literal} : l.rounded = l.value ↔
    Representable 53 l.magnitude := by
  rw [rounded, value, signed_inj, roundTo_eq_iff]

lemma map_rounded_eq_iff {ls : List Literal} : ls.map Literal.rounded = ls.map Literal.value ↔
    ∀ l ∈ ls, Representable 53 l.magnitude := by
  rw [List.map_inj_left]
  exact forall₂_congr fun l _ => Literal.rounded_eq_iff

/-- `float` of digits and `int` of what it gives, below `2^63`: the nearest number of 53 bits. -/
structure Binary64 {ν : Type} (fl : QlParser.Floats ν) : Prop where
  ofDigits : ∀ l : Literal, l.magnitude < 2 ^ 63 →
    ∃ v, fl.ofText (QlLexer.codePoints l.digits) = some v ∧
    fl.toInt v = some (roundTo 53 l.magnitude : ℤ) ∧
      fl.toInt (fl.neg v) = some (-(roundTo 53 l.magnitude : ℤ))

/-! ### Tokens of integers -/

section Tokens

variable {ν : Type} {fl : QlParser.Floats ν} {cc : CharClasses} {text r : List Char}
  {j : ℕ} {l : Literal}

/-- The tokens of one number. -/
inductive NumberTokens (fl : QlParser.Floats ν) : ν → List (QlLexer.Token ν) → Prop
  | plain {t : QlLexer.Token ν} {v : ν} (ht : t.tok = .number v) : NumberTokens fl v [t]
  | minus {m t : QlLexer.Token ν} {v : ν} (hm : m.tok = .sym .minus) (ht : t.tok = .number v)
      (htouch : t.start = m.stop) : NumberTokens fl (fl.neg v) [m, t]

lemma isdigit_of_isDigit {c : Char} (h : c.isDigit = true) : cc.isdigit c = true := by
  obtain ⟨-, hle⟩ := Char.isDigit_iff_toNat.mp h
  have hnine : '9'.toNat = 57 := rfl
  rwa [cc.isdigit_ascii c (by omega)]

/-- Digits are a number. -/
lemma numberLength_digits {s : List Char} (h : ∀ c ∈ s, cc.isdigit c = true) :
    numberLength cc s = s.length := by
  rw [numberLength, List.takeWhile_eq_self_iff.mpr h, List.drop_length]

lemma lexStep_digits (text : List Char) (j : ℕ) {v : ν}
    (hv : fl.ofText (QlLexer.codePoints l.digits) = some v)
    (hr : ∀ c ∈ r.head?, cc.isdigit c = false ∧ c ≠ '.') :
    QlLexer.lexStep cc fl.ofText text j (l.digits ++ r) =
      .ok (QlLexer.tokenAt text j (l.digits ++ r) (.number v) l.digits.length) := by
  have hdigits : ∀ c ∈ l.digits, cc.isdigit c = true :=
    fun c hc => isdigit_of_isDigit (l.isDigit c hc)
  have hfirst : cc.isdigit l.first = true := hdigits l.first List.mem_cons_self
  have hlen : numberLength cc (l.first :: (l.others ++ r)) = l.digits.length := by
    rw [← List.cons_append]
    exact (numberLength_append hr).trans (numberLength_digits hdigits)
  have htake : (l.first :: (l.others ++ r)).take l.digits.length = l.digits := List.take_left' rfl
  obtain ⟨hb, hslash, hq, hsym⟩ := textual_start (s := l.others ++ r)
    (show (cc.isdigit l.first || cc.isalpha l.first || l.first = '_') = true by simp [hfirst])
  rw [Literal.digits, List.cons_append, lexStep_text hb (comment_none hslash) hq hsym,
    if_pos hfirst, hlen, htake, hv]
  rfl

/-- A minus is read alone in front of a digit. -/
lemma lexStep_minus (cc : CharClasses) (fl : QlParser.Floats ν) (text r : List Char)
    (j : ℕ) {c : Char} (hc : c.isDigit = true) :
    QlLexer.lexStep cc fl.ofText text j ('-' :: c :: r) =
      .ok (QlLexer.tokenAt text j ('-' :: c :: r) (.sym .minus) 1) := by
  refine lexStep_symbol rfl (comment_none (by decide)) rfl (Symbols.read_single rfl ?_)
  rintro d ⟨⟩
  have hne : c ≠ '>' := by
    rintro rfl
    cases hc
  simp [QlLexer.symbols, QlLexer.doubleSym, hne]

/-- **An integer is cut into its tokens**, whatever comes after it. -/
lemma cuts_literal (cc : CharClasses) (text : List Char) (j : ℕ) (hfloats : Binary64 fl)
    (hl : l.magnitude < 2 ^ 63) (hr : ∀ c ∈ r.head?, cc.isdigit c = false ∧ c ≠ '.') :
      ∃ v ts, NumberTokens fl v ts ∧
      fl.toInt v = some l.rounded ∧ Cuts cc fl.ofText text j l.text r ts := by
  obtain ⟨v, hv, hint, hneg⟩ := hfloats.ofDigits l hl
  rcases hsign : l.negative with _ | _
  · obtain ⟨t, htok, -, -, hscan⟩ := scan_token (by simp [Literal.digits])
      (lexStep_digits text j hv hr)
    refine ⟨v, [t], .plain htok, ?_, ?_⟩
    · rw [hint, Literal.rounded, hsign]
      rfl
    · rw [Literal.text, hsign]
      exact hscan
  · obtain ⟨m, hmtok, -, hmstop, hmscan⟩ := scan_token (u := ['-']) (r := l.digits ++ r) (by simp)
      (lexStep_minus cc fl text (l.others ++ r) j (l.isDigit l.first List.mem_cons_self))
    obtain ⟨t, htok, htstart, -, hscan⟩ := scan_token (by simp [Literal.digits])
      (lexStep_digits text (j + 1) hv hr)
    refine ⟨fl.neg v, [m, t], .minus hmtok htok (htstart.trans hmstop.symm), ?_, ?_⟩
    · rw [hneg, Literal.rounded, hsign]
      rfl
    · rw [Literal.text, hsign]
      have hminus : Cuts cc fl.ofText text j ['-'] (l.digits ++ r) [m] := hmscan
      exact hminus.append hscan

/-- A mark ends a number. -/
lemma mark_stops {d : Char} (hd : d ∈ marks) :
    ∀ c ∈ (d :: r).head?, cc.isdigit c = false ∧ c ≠ '.' := by
  rintro c ⟨⟩
  have htext : textual cc d = false := textual_of_mem_marks hd
  simp only [textual, Bool.or_eq_false_iff, decide_eq_false_iff_not] at htext
  exact ⟨htext.1.1.1.1, htext.2⟩

/-- Other integers after commas. -/
def moreText (ls : List Literal) : List Char := ls.flatMap fun l => ',' :: l.text

lemma moreText_stops (ls : List Literal) :
    ∀ c ∈ (moreText ls ++ ')' :: r).head?, cc.isdigit c = false ∧ c ≠ '.' := by
  cases ls with
  | nil => exact mark_stops (by decide)
  | cons l ls => exact mark_stops (by decide)

inductive MoreTokens (fl : QlParser.Floats ν) : List ν → List (QlLexer.Token ν) → Prop
  | nil : MoreTokens fl [] []
  | cons {comma : QlLexer.Token ν} {n : ν} {ns : List ν} {ts us : List (QlLexer.Token ν)}
      (hcomma : comma.tok = .sym .comma) (hn : NumberTokens fl n ts) (hns : MoreTokens fl ns us) :
      MoreTokens fl (n :: ns) (comma :: (ts ++ us))

lemma cuts_more (cc : CharClasses) (text r : List Char) (j : ℕ) (hfloats : Binary64 fl)
    {ls : List Literal} (hls : ∀ l ∈ ls, l.magnitude < 2 ^ 63) :
    ∃ ns us, MoreTokens fl ns us ∧ List.Forall₂ (fun n l => fl.toInt n = some l.rounded) ns ls ∧
      Cuts cc fl.ofText text j (moreText ls) (')' :: r) us := by
  induction ls generalizing j with
  | nil =>
    exact ⟨[], [], .nil, .nil, cuts_nil _⟩
  | cons l ls ih =>
    obtain ⟨comma, hcomma, hcut⟩ := cuts_mark cc fl.ofText text (c := ',') (by decide) rfl j
      (l.text ++ moreText ls ++ ')' :: r)
    obtain ⟨n, ts, hn, hint, hts⟩ := cuts_literal cc text (j + 1) hfloats
      (hls l List.mem_cons_self) (moreText_stops (r := r) ls)
    obtain ⟨ns, us, hns, hints, hus⟩ := ih (j + 1 + l.text.length) fun m hm =>
      hls m (List.mem_cons_of_mem _ hm)
    exact ⟨n :: ns, comma :: (ts ++ us), .cons hcomma hn hns, .cons hint hints,
      hcut.append (hts.append hus)⟩

end Tokens

/-! ### The parser on integers -/

section Parser

variable {ν : Type} {fl : QlParser.Floats ν} {cc : CharClasses} {text : List Char}
  {n : ν} {ns : List ν} {ts us rest : List (QlLexer.Token ν)} {close : QlLexer.Token ν}

lemma run_parseSignedNumber (h : NumberTokens fl n ts) (hrest : rest ≠ []) :
    QlParser.parseSignedNumber fl (ts ++ rest) = .ok (n, rest) := by
  cases h with
  | plain ht =>
    rw [QlParser.parseSignedNumber, List.cons_append, List.nil_append, run_current]
    simp only [ht]
    exact run_advance hrest _
  | minus hm ht htouch =>
    rw [QlParser.parseSignedNumber, List.cons_append, List.cons_append,
      List.nil_append, run_current]
    simp only [hm]
    rw [run_advance (by simp), run_current]
    simp only [ht, if_pos htouch]
    exact run_advance hrest _

lemma MoreTokens.length_le (h : MoreTokens fl ns us) : ns.length ≤ us.length := by
  induction h with
  | nil => exact le_rfl
  | cons _ _ _ ih =>
    simp only [List.length_cons, List.length_append]
    omega

/-- **The loop reads a number after each comma.** -/
lemma run_moreSteps (h : MoreTokens fl ns us) (hclose : QlParser.isSym .comma close = false) {k : ℕ}
    (hk : ns.length < k) (xs : List ν) :
    QlParser.whileSteps (fun _ t => QlParser.isSym .comma t)
      (fun xs => do
        let _ ← QlParser.advance
        return xs ++ [← QlParser.parseSignedNumber fl]) k xs (us ++ close :: rest) =
      .ok (xs ++ ns, close :: rest) := by
  induction h generalizing k xs with
  | nil =>
    obtain ⟨k, rfl⟩ := Nat.exists_eq_add_of_lt hk
    rw [QlParser.whileSteps, List.nil_append, run_current, hclose, List.append_nil]
    rfl
  | @cons comma n ns ts us hcomma hn hns ih =>
    obtain ⟨k, rfl⟩ : ∃ m, k = m + 1 := ⟨k - 1, by omega⟩
    rw [List.length_cons] at hk
    have hpass : (do
        let _ ← QlParser.advance
        return xs ++ [← QlParser.parseSignedNumber fl] : QlParser.Parser ν (List ν))
        (comma :: (ts ++ (us ++ close :: rest))) = .ok (xs ++ [n], us ++ close :: rest) := by
      rw [run_advance (by simp), bind_ok (run_parseSignedNumber hn (by simp))]
      rfl
    rw [QlParser.whileSteps, List.cons_append, List.append_assoc, run_current, isSym_of_tok hcomma,
      if_pos (by decide), bind_ok hpass, ih (by omega), List.append_assoc]
    rfl

lemma run_parseNumberList (hn : NumberTokens fl n ts) (hns : MoreTokens fl ns us)
    (hclose : QlParser.isSym .comma close = false) :
    QlParser.parseNumberList fl (ts ++ (us ++ close :: rest)) = .ok (n :: ns, close :: rest) := by
  have hmore : QlParser.parseMore (QlParser.parseSignedNumber fl) (us ++ close :: rest) =
      .ok (ns, close :: rest) := by
    have hlen : ns.length < (us ++ close :: rest).length + 1 := by
      have := hns.length_le
      rw [List.length_append]
      omega
    exact run_moreSteps hns hclose hlen []
  rw [QlParser.parseNumberList, bind_ok (run_parseSignedNumber hn (by simp)), bind_ok hmore]
  rfl

/-- `int` of each number. -/
lemma run_mapM_int {ls : List Literal} (h : List.Forall₂
    (fun n l => fl.toInt n = some l.rounded) ns ls) :
    (ns.mapM (QlParser.int fl)) ts = .ok (ls.map Literal.rounded, ts) := by
  induction h with
  | nil => rfl
  | @cons n l ns ls hint _ ih =>
    have hn : QlParser.int fl n ts = .ok (l.rounded, ts) := by
      rw [QlParser.int, hint]
      rfl
    rw [List.mapM_cons, bind_ok hn, bind_ok ih]
    rfl

variable {lparen id colon rparen : QlLexer.Token ν}

/-- Numbers after `id:`. -/
lemma run_idFilter {ls : List Literal} (hlparen : lparen.tok = .sym .lparen)
    (hid : id.tok = .ident "id") (hcolon : colon.tok = .sym .colon)
    (hrparen : rparen.tok = .sym .rparen) (hrest : rest ≠ [])
    (hn : NumberTokens fl n ts) (hns : MoreTokens fl ns us)
    (hints : List.Forall₂ (fun n l => fl.toInt n = some l.rounded) (n :: ns) ls) :
    QlParser.parseParenFilter fl cc text (lparen :: id :: colon :: (ts ++ (us ++ rparen :: rest))) =
      .ok (.id (ls.map Literal.rounded), rest) := by
  have hlist : QlParser.parseIntList fl (ts ++ (us ++ rparen :: rest)) =
      .ok (ls.map Literal.rounded, rparen :: rest) := by
    rw [QlParser.parseIntList,
      bind_ok (run_parseNumberList hn hns (by rw [isSym_of_tok hrparen]; rfl))]
    exact run_mapM_int hints
  have hnamed : QlParser.namedFilter? fl cc text "id" = some (do
      QlParser.expect .colon
      return .id (← QlParser.parseIntList fl)) := rfl
  have hfilter : (do
      QlParser.expect .colon
      return .id (← QlParser.parseIntList fl) : QlParser.Parser ν (QlParser.Filter ν))
      (colon :: (ts ++ (us ++ rparen :: rest))) = .ok (.id (ls.map Literal.rounded),
        rparen :: rest) := by
    rw [bind_ok (run_expect hcolon (by simp)), bind_ok hlist]
    rfl
  rw [QlParser.parseParenFilter, bind_ok (run_expect hlparen (by simp)), run_current]
  simp only [hid, hnamed]
  rw [run_advance (by simp), bind_ok hfilter, bind_ok (run_expect hrparen hrest)]
  rfl

/-- A number alone. -/
lemma run_numberFilter {l : Literal} (hlparen : lparen.tok = .sym .lparen)
    (hrparen : rparen.tok = .sym .rparen) (hrest : rest ≠ []) (hn : NumberTokens fl n ts)
    (hint : fl.toInt n = some l.rounded) :
    QlParser.parseParenFilter fl cc text (lparen :: (ts ++ rparen :: rest)) =
      .ok (.id [l.rounded], rest) := by
  have hlist : QlParser.parseNumberList fl (ts ++ rparen :: rest) = .ok ([n], rparen :: rest) :=
    run_parseNumberList hn .nil (by rw [isSym_of_tok hrparen]; rfl)
  have hfilter : QlParser.parseNumberFilter fl (ts ++ rparen :: rest) =
      .ok (.id [l.rounded], rparen :: rest) := by
    rw [QlParser.parseNumberFilter, bind_ok hlist]
    exact (bind_ok (run_mapM_int (.cons hint .nil))).trans rfl
  rw [QlParser.parseParenFilter, bind_ok (run_expect hlparen (by simp))]
  cases hn with
  | plain ht =>
    rw [List.cons_append, run_current]
    simp only [ht]
    rw [List.cons_append] at hfilter
    rw [bind_ok hfilter, bind_ok (run_expect hrparen hrest)]
    rfl
  | minus hm ht htouch =>
    rw [List.cons_append, run_current]
    simp only [hm]
    rw [List.cons_append] at hfilter
    rw [bind_ok hfilter, bind_ok (run_expect hrparen hrest)]
    rfl

end Parser

/-! ### Queries for ids -/

/-- `word(id:k1,k2,...);`. -/
def idsText (word : String) (first : Literal) (others : List Literal) : List Char :=
  filterText word (['i', 'd', ':'] ++ (first.text ++ moreText others))

/-- `word(k);`. -/
def idText (word : String) (l : Literal) : List Char := filterText word l.text

section Query

variable {ν : Type} {fl : QlParser.Floats ν} {cc : CharClasses} {depth : ℕ} {word : String}
  {types : List QlParser.ElementType} {first : Literal} {others : List Literal}

/-- **The filter holds the rounded ids.** -/
lemma parse_idsText (hfloats : Binary64 fl) (hword : QlParser.queryTypes? word = some types)
    (hsmall : ∀ l ∈ first :: others, l.magnitude < 2 ^ 63) :
    QlParser.parse fl cc (idsText word first others) (depth + 1) =
      .ok (filterProgram types (.id ((first :: others).map Literal.rounded))) := by
  refine parse_filterText hword fun text j => ?_
  obtain ⟨id, hid, hcut₁⟩ := scan_keyword cc fl.ofText text (j := j) (c := 'i') (w := ['d'])
    (s := ':' :: (first.text ++ (moreText others ++ [')', ';']))) (by decide) (by decide)
    (List.all_iff_forall_prop.mp (by decide)) (by rintro e ⟨⟩; exact wordChar_mark (by decide))
  obtain ⟨colon, hcolon, hcut₂⟩ := cuts_mark cc fl.ofText text (c := ':') (by decide) rfl
    (j + 2) (first.text ++ (moreText others ++ [')', ';']))
  obtain ⟨n, ts, hn, hint, hcut₃⟩ := cuts_literal cc text (j + 2 + 1) hfloats
    (hsmall first List.mem_cons_self) (moreText_stops (r := [';']) others)
  obtain ⟨ns, us, hns, hints, hcut₄⟩ := cuts_more cc text [';']
    (j + 2 + 1 + first.text.length) hfloats fun l hl => hsmall l (List.mem_cons_of_mem _ hl)
  have hnumbers : Cuts cc fl.ofText text (j + 2 + 1) (first.text ++ moreText others)
      [')', ';'] (ts ++ us) :=
    hcut₃.append hcut₄
  rw [← List.append_assoc] at hcut₁ hcut₂
  have hid' : Cuts cc fl.ofText text j ['i', 'd']
      ((':' :: (first.text ++ moreText others)) ++ [')', ';']) [id] := hcut₁
  have hcolon' : Cuts cc fl.ofText text (j + 2) (':' :: (first.text ++ moreText others)) [')', ';']
      (colon :: (ts ++ us)) := hcut₂.append hnumbers
  refine ⟨id :: colon :: (ts ++ us), ?_, fun lparen rparen rest hlparen hrparen hrest => ?_⟩
  · exact hid'.append hcolon'
  · rw [List.cons_append, List.cons_append, List.append_assoc]
    exact run_idFilter hlparen hid hcolon hrparen hrest hn hns (.cons hint hints)

lemma parse_idText {l : Literal} (hfloats : Binary64 fl)
    (hword : QlParser.queryTypes? word = some types) (hsmall : l.magnitude < 2 ^ 63) :
    QlParser.parse fl cc (idText word l) (depth + 1) =
      .ok (filterProgram types (.id [l.rounded])) := by
  refine parse_filterText hword fun text j => ?_
  obtain ⟨n, ts, hn, hint, hcut⟩ := cuts_literal cc text j hfloats hsmall
    (mark_stops (d := ')') (r := [';']) (by decide))
  exact ⟨ts, hcut, fun lparen rparen rest hlparen hrparen hrest => run_numberFilter hlparen hrparen
    hrest hn hint⟩

lemma idProgram_inj {ks ms : List ℤ} :
    (Except.ok (filterProgram types (.id ks)) : Except QlLexer.Raised (QlParser.Program ν)) =
      .ok (filterProgram types (.id ms)) ↔ ks = ms := by
  simp [filterProgram, filterQuery]

end Query

/-- **Which ids a query can name.** With numbers of 53 bits, a filter holds the ids that were
written exactly when each of them is so many bits and zeros after them. -/
theorem parse_ids_iff {ν : Type} (fl : QlParser.Floats ν) (cc : CharClasses) (depth : ℕ)
    (word : String) (types : List QlParser.ElementType) (first : Literal) (others : List Literal)
    (hfloats : Binary64 fl) (hword : QlParser.queryTypes? word = some types)
    (hsmall : ∀ l ∈ first :: others, l.magnitude < 2 ^ 63) :
    (QlParser.parse fl cc (idsText word first others) (depth + 1) =
        .ok (filterProgram types (.id ((first :: others).map Literal.value))) ↔
      ∀ l ∈ first :: others, Representable 53 l.magnitude) ∧
    (QlParser.parse fl cc (idText word first) (depth + 1) = .ok
      (filterProgram types (.id [first.value])) ↔ Representable 53 first.magnitude) := by
  constructor
  · rw [parse_idsText hfloats hword hsmall, idProgram_inj, map_rounded_eq_iff]
  · rw [parse_idText hfloats hword (hsmall first List.mem_cons_self), idProgram_inj,
      ← Literal.rounded_eq_iff, List.singleton_inj]

/-- Whole numbers of 53 bits, written with digits. -/
def doubles : QlParser.Floats ℤ where
  ofText s :=
    if s ≠ [] ∧ s.all (fun n => 48 ≤ n && n ≤ 57) then
      some (roundTo 53 (s.foldl (fun k n => 10 * k + (n - 48)) 0))
    else none
  neg x := -x
  toInt := some

lemma binary64_doubles : Binary64 doubles := by
  constructor
  intro l _
  have hne : QlLexer.codePoints l.digits ≠ [] := by simp [QlLexer.codePoints, Literal.digits]
  have hall : (QlLexer.codePoints l.digits).all (fun n => 48 ≤ n && n ≤ 57) = true := by
    rw [QlLexer.codePoints, List.all_map, List.all_eq_true]
    intro c hc
    have hdigit := Char.isDigit_iff_toNat.mp (l.isDigit c hc)
    simpa using hdigit
  have hvalue : (QlLexer.codePoints l.digits).foldl (fun k n => 10 * k + (n - 48)) 0 =
      l.magnitude := by
    rw [Literal.magnitude, Nat.ofDigitChars_eq_foldl, QlLexer.codePoints, List.foldl_map]
    rfl
  refine ⟨roundTo 53 l.magnitude, ?_, rfl, rfl⟩
  show (if _ then _ else _) = _
  rw [if_pos ⟨hne, hall⟩, hvalue]

/-- Small ids are exact, in both forms. -/
theorem parse_ids_small :
    QlParser.parse doubles asciiClasses "node(id:12,-7);".toList 1 =
        .ok (filterProgram [.node] (.id [12, -7])) ∧
      QlParser.parse doubles asciiClasses "node(12);".toList 1 =
        .ok (filterProgram [.node] (.id [12])) := by
  have h := parse_ids_iff doubles asciiClasses 0 "node" [.node] ⟨false, '1', ['2'], by simp⟩
    [⟨true, '7', [], by simp⟩] binary64_doubles rfl
    (by simp [Literal.magnitude, Literal.digits, Nat.ofDigitChars])
  refine ⟨h.1.mpr ?_, h.2.mpr ⟨12, 0, by decide, rfl⟩⟩
  intro l hl
  simp only [List.mem_cons, List.not_mem_nil, or_false] at hl
  rcases hl with rfl | rfl
  · exact ⟨12, 0, by decide, rfl⟩
  · exact ⟨7, 0, by decide, rfl⟩

/-- One more than `2^53`. -/
def lost : Literal where
  negative := false
  first := '9'
  others := ['0', '0', '7', '1', '9', '9', '2', '5', '4', '7', '4', '0', '9', '9', '3']
  isDigit := List.all_iff_forall_prop.mp (by decide)

/-- The first id that is lost comes back as the one before it. -/
theorem parse_ids_lost : (9007199254740993 : ℤ) < 2 ^ 63 ∧
    QlParser.parse doubles asciiClasses "node(id:9007199254740993);".toList 1 =
      .ok (filterProgram [.node] (.id [9007199254740992])) ∧
    QlParser.parse doubles asciiClasses "node(9007199254740993);".toList 1 =
      .ok (filterProgram [.node] (.id [9007199254740992])) := by
  have hsmall : ∀ l ∈ [lost], l.magnitude < 2 ^ 63 := List.all_iff_forall_prop.mp (by decide)
  have hids : idsText "node" lost [] = "node(id:9007199254740993);".toList := by decide
  have hid : idText "node" lost = "node(9007199254740993);".toList := by decide
  have hlost : lost.rounded = 9007199254740992 := by decide
  refine ⟨by decide, ?_, ?_⟩
  · rw [← hids, ← hlost]
    exact parse_idsText binary64_doubles rfl hsmall
  · rw [← hid, ← hlost]
    exact parse_idText binary64_doubles rfl (hsmall lost List.mem_cons_self)

end OsmParquet.IdFilters
