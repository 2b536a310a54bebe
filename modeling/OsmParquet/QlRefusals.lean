import OsmParquet.QlReaders

/-!
Where the parser raises something else than a parse error.

`int` takes no infinite number, `float` not every word of a polygon, and statements inside each
other need room. The rules say how the parser comes to such a place: what it has read before, and
what stands there. The functions raise what the rules say, or a parse error at a token.
-/

namespace OsmParquet.QlRefusals

open OsmParquet.Scanning OsmParquet.QlLexer OsmParquet.QlParser OsmParquet.Outcomes
  OsmParquet.QlRuns
open OsmParquet.QlSteps OsmParquet.QlReaders

variable {ν : Type}

/-! ### Numbers -/

section Numbers

variable {fl : Floats ν} {all ts us : List (Token ν)} {ns : List ν} {r : Raised}

/-- A number without an integer comes next. -/
def IntRefused (fl : Floats ν) (ts : List (Token ν)) : Prop :=
  ∃ n us, parseSignedNumber fl ts = .ok (n, us) ∧ fl.toInt n = none

lemma int_cases (fl : Floats ν) (n : ν) (ts : List (Token ν)) :
    (∃ k, int fl n ts = .ok (k, ts)) ∨ (fl.toInt n = none ∧
      int fl n ts = .error .overflowError) := by
  rcases h : fl.toInt n with _ | k
  · refine Or.inr ⟨rfl, ?_⟩
    rw [int, h]
    rfl
  · refine Or.inl ⟨k, ?_⟩
    rw [int, h]
    rfl

lemma steps_int {n : ν} (hts : Left all ts) :
    Steps all (int fl n) ts 0 fun r => r = .overflowError ∧ fl.toInt n = none := by
  rcases int_cases fl n ts with ⟨k, hrun⟩ | ⟨hn, hrun⟩
  · exact Yields.of_ok hrun ⟨hts, le_rfl⟩
  · exact Yields.of_error hrun (Or.inr ⟨rfl, hn⟩)

lemma error_int {n : ν} (h : fl.toInt n = none) : int fl n ts = .error .overflowError := by
  rw [int, h]
  rfl

lemma steps_parseInt (hts : Left all ts) :
    Steps all (parseInt fl) ts 0 fun r => r = .overflowError ∧ IntRefused fl ts := by
  refine Steps.bind (l := 0) (reads_parseSignedNumber.steps hts) fun n us hrun hus => ?_
  exact (steps_int hus).mono le_rfl fun r ⟨hr, hn⟩ => ⟨hr, n, us, hrun, hn⟩

lemma error_parseInt (h : IntRefused fl ts) : parseInt fl ts = .error .overflowError := by
  obtain ⟨n, us, hrun, hn⟩ := h
  rw [parseInt, bind_ok hrun]
  exact error_int hn

/-- `int` of each number. -/
lemma steps_mapM_int (hts : Left all ts) :
    Steps all (ns.mapM (int fl)) ts 0 fun r => r = .overflowError ∧
      ∃ n ∈ ns, fl.toInt n = none := by
  induction ns with
  | nil => exact (reads_pure _).steps hts
  | cons n ns ih =>
    rw [List.mapM_cons]
    rcases int_cases fl n ts with ⟨k, hrun⟩ | ⟨hn, hrun⟩
    · refine .congr (bind_ok hrun) (Steps.bind (l := 0) ?_ fun ks us _ hus =>
        (reads_pure _).steps hus)
      exact ih.mono le_rfl fun r ⟨hr, m, hm, hnone⟩ => ⟨hr, m, List.mem_cons_of_mem n hm, hnone⟩
    · exact Yields.of_error (bind_error hrun) (Or.inr ⟨rfl, n, List.mem_cons_self, hn⟩)

lemma error_mapM_int {n : ν} (hmem : n ∈ ns) (hn : fl.toInt n = none) :
    (ns.mapM (int fl)) ts = .error .overflowError := by
  induction ns with
  | nil => cases hmem
  | cons m ns ih =>
    rw [List.mapM_cons]
    rcases int_cases fl m ts with ⟨k, hrun⟩ | ⟨hm, hrun⟩
    · rw [bind_ok hrun]
      refine bind_error (ih ?_)
      rcases List.mem_cons.mp hmem with rfl | hmem
      · rw [error_int hn] at hrun
        cases hrun
      · exact hmem
    · exact bind_error hrun

/-- One more item after a comma. -/
def morePass {α : Type} (item : Parser ν α) (xs : List α) : Parser ν (List α) := do
  let _ ← advance
  return xs ++ [← item]

lemma progress_moreInt : Progress all (fun _ t => isSym .comma t)
    (morePass (parseInt fl)) fun _ ts r =>
    r = .overflowError ∧ ∃ comma us, ts = comma :: us ∧ comma.tok = .sym .comma ∧
      IntRefused fl us := by
  intro xs ts hts hcomma
  obtain ⟨t, us, rfl⟩ := hts.cons
  refine steps_advance hts (ne_eof_of_isSym hcomma) fun hus => ?_
  refine Steps.bind (l := 0) ?_ fun n vs _ hvs => (reads_pure _).steps hvs
  exact (steps_parseInt hus).mono le_rfl fun r ⟨hr, hint⟩ =>
    ⟨hr, t, us, rfl, isSym_iff.mp hcomma, hint⟩

lemma error_morePass {xs : List ℤ} {comma : Token ν} (hus : us ≠ []) (h : IntRefused fl us) :
    morePass (parseInt fl) xs (comma :: us) = .error .overflowError := by
  rw [morePass, run_advance hus]
  exact bind_error (error_parseInt h)

end Numbers

/-! ### Settings -/

section Settings

variable {fl : Floats ν} {all ts us : List (Token ν)} {r : Raised}

/-- One setting in brackets. -/
def settingPass (fl : Floats ν) (settings : Settings ν) : Parser ν (Settings ν) := do
  let _ ← advance
  let name ← expectIdentText
  expect .colon
  let settings ← parseSetting fl name settings
  expect .rbracket
  return settings

/-- A timeout or a size without an integer, after other settings. -/
inductive SettingsRefused (fl : Floats ν) (ts : List (Token ν)) : Prop
  | integer {lbracket name colon : Token ν} {us : List (Token ν)} {settings : Settings ν}
      (hpasses : Passes (fun _ t => isSym .lbracket t) (settingPass fl) {} ts settings
        (lbracket :: name :: colon :: us))
      (hlbracket : lbracket.tok = .sym .lbracket)
      (hname : name.tok = .ident "timeout" ∨ name.tok = .ident "maxsize")
      (hcolon : colon.tok = .sym .colon) (hint : IntRefused fl us)

lemma steps_parseSetting {name : String} {settings : Settings ν} (hts : Left all ts) :
    Steps all (parseSetting fl name settings) ts 0 fun r =>
      r = .overflowError ∧ (name = "timeout" ∨ name = "maxsize") ∧ IntRefused fl ts := by
  have htext : Reads all 0
      (do return { settings with date := some (← expectStringValue) } : Parser ν (Settings ν)) :=
    reads_parseBareOrString.quiet.bind fun _ => reads_pure _
  rw [parseSetting.eq_def]
  split
  · refine Reads.steps (reads_expectIdentText.quiet.after fun fmt => ?_) hts
    split
    · exact reads_pure _
    · exact reads_pure _
    · exact (reads_parseCsv _).quiet
    · exact reads_error _
  · refine Steps.bind (l := 0) ?_ fun n us _ hus => (reads_pure _).steps hus
    exact (steps_parseInt hts).mono le_rfl fun r ⟨hr, hint⟩ => ⟨hr, Or.inl rfl, hint⟩
  · refine Steps.bind (l := 0) ?_ fun n us _ hus => (reads_pure _).steps hus
    exact (steps_parseInt hts).mono le_rfl fun r ⟨hr, hint⟩ => ⟨hr, Or.inr rfl, hint⟩
  · exact ((reads_parseBbox _).bind fun _ => reads_pure _).steps hts
  · exact htext.steps hts
  · exact (reads_parseBareOrString.quiet.after fun _ => reads_parseSecond.bind fun _ =>
      reads_pure _).steps hts
  · exact (reads_parseBareOrString.quiet.after fun _ => reads_parseSecond.bind fun _ =>
      reads_pure _).steps hts
  · exact (reads_error _).steps hts

lemma progress_setting : Progress all (fun _ t => isSym .lbracket t) (settingPass fl) fun _ ts r =>
    r = .overflowError ∧ ∃ lbracket name colon us, ts = lbracket :: name :: colon :: us ∧
      lbracket.tok = .sym .lbracket ∧ (name.tok = .ident "timeout" ∨ name.tok = .ident "maxsize") ∧
      colon.tok = .sym .colon ∧ IntRefused fl us := by
  intro settings ts hts hlbracket
  obtain ⟨lbracket, us, rfl⟩ := hts.cons
  refine (steps_advance (k := 2) hts (ne_eof_of_isSym hlbracket) fun hus => ?_).mono
    (by omega) fun _ => id
  obtain ⟨name, us, rfl⟩ := hus.cons
  refine steps_expectIdentText hus fun word hname hus => ?_
  obtain ⟨colon, us, rfl⟩ := hus.cons
  refine steps_expect hus fun hcolon hus => Steps.bind (l := 0) ?_ fun _ vs _ hvs =>
    ((reads_expect _).bind fun _ => reads_pure _).quiet.steps hvs
  refine (steps_parseSetting hus).mono le_rfl fun r ⟨hr, hword, hint⟩ => ?_
  refine ⟨hr, lbracket, name, colon, us, rfl, isSym_iff.mp hlbracket, ?_, hcolon, hint⟩
  rcases hword with rfl | rfl
  · exact Or.inl hname
  · exact Or.inr hname

/-- The settings raise what the rule says. -/
lemma steps_parseSettings (hts : Left all ts) :
    Steps all (parseSettings fl) ts 0 fun r => r = .overflowError ∧ SettingsRefused fl ts := by
  refine Steps.bind (k := 0) (l := 0) ((reads_check _).steps hts) fun any us hrun hus => ?_
  cases hrun
  refine Steps.bind (k := 0) (l := 0) ?_ fun settings vs _ hvs => ?_
  · refine (steps_whileLoop progress_setting hts).mono le_rfl ?_
    rintro r ⟨settings, us, hpasses, -, -, hr, lbracket, name, colon, vs, rfl, hlbracket,
      hname, hcolon, hint⟩
    exact ⟨hr, .integer hpasses hlbracket hname hcolon hint⟩
  · split
    · exact ((reads_expect _).quiet.bind fun _ => reads_pure _).steps hvs
    · exact (reads_pure _).steps hvs

lemma error_parseSettings (hts : Left all ts) (h : SettingsRefused fl ts) :
    parseSettings fl ts = .error .overflowError := by
  cases h with
  | @integer lbracket name colon us settings hpasses hlbracket hname hcolon hint =>
    have hname' : name.tok ≠ .eof := by rcases hname with h | h <;> simp [h]
    have hleft := ((hpasses.left progress_setting hts).next (by simp [hlbracket])).next hname'
      |>.next (by simp [hcolon])
    have hpass : settingPass fl settings (lbracket :: name :: colon :: us) =
        .error .overflowError := by
      rw [settingPass, run_advance (by simp)]
      rcases hname with hname | hname
      · rw [bind_ok (run_expectIdentText hname (by simp)), bind_ok (run_expect hcolon hleft.ne_nil)]
        exact bind_error (bind_error (error_parseInt hint))
      · rw [bind_ok (run_expectIdentText hname (by simp)), bind_ok (run_expect hcolon hleft.ne_nil)]
        exact bind_error (bind_error (error_parseInt hint))
    have hloop := hpasses.error progress_setting hts (isSym_iff.mpr hlbracket) hpass
    obtain ⟨t, vs, rfl⟩ := hts.cons
    rw [parseSettings, bind_ok run_check]
    exact bind_error hloop

end Settings

/-! ### Filters -/

section Filters

variable {fl : Floats ν} {cc : CharClasses} {text : List Char}
  {all ts us : List (Token ν)} {r : Raised} {word : String} {lparen name : Token ν}

/-- What a filter cannot take after its name. -/
inductive NamedRefused (fl : Floats ν) (cc : CharClasses) : String → Raised → List (Token ν) → Prop
  | ids {colon : Token ν} {us vs : List (Token ν)} {n : ν} {ns : List ν}
    (hcolon : colon.tok = .sym .colon)
      (hnumbers : parseNumberList fl us = .ok (ns, vs)) (hn : n ∈ ns) (hint : fl.toInt n = none) :
      NamedRefused fl cc "id" .overflowError (colon :: us)
  | uid {colon : Token ν} {us : List (Token ν)} (hcolon : colon.tok = .sym .colon)
    (hint : IntRefused fl us) :
      NamedRefused fl cc "uid" .overflowError (colon :: us)
  | moreUids {colon comma : Token ν} {us vs ws : List (Token ν)} {uid : ℤ} {uids : List ℤ}
      (hcolon : colon.tok = .sym .colon) (huid : parseInt fl us = .ok (uid, vs))
      (hpasses : Passes (fun _ t => isSym .comma t) (morePass (parseInt fl)) [] vs uids
        (comma :: ws))
      (hcomma : comma.tok = .sym .comma) (hint : IntRefused fl ws) :
      NamedRefused fl cc "uid" .overflowError (colon :: us)
  | area {colon : Token ν} {us : List (Token ν)} (hcolon : colon.tok = .sym .colon)
    (hint : IntRefused fl us) :
      NamedRefused fl cc "area" .overflowError (colon :: us)
  | poly {colon : Token ν} {us vs : List (Token ν)} {s : Text} (hcolon : colon.tok = .sym .colon)
      (hstring : parseBareOrString us = .ok (s, vs))
      (hwords : (splitWords cc s).mapM fl.ofText = none) :
      NamedRefused fl cc "poly" .valueError (colon :: us)

/-- What a filter in parentheses cannot take. -/
inductive FilterRefused (fl : Floats ν) (cc : CharClasses) (r : Raised) : List (Token ν) → Prop
  | named {lparen name : Token ν} {word : String} {us : List (Token ν)}
    (hlparen : lparen.tok = .sym .lparen)
      (hname : name.tok = .ident word) (hrefused : NamedRefused fl cc word r us) :
      FilterRefused fl cc r (lparen :: name :: us)
  | numbers {lparen t : Token ν} {us vs : List (Token ν)} {n : ν} {ns : List ν}
      (hlparen : lparen.tok = .sym .lparen)
      (ht : (∃ v, t.tok = .number v) ∨ t.tok = .sym .minus)
      (hnumbers : parseNumberList fl (t :: us) = .ok (ns, vs))
      (hlen : ns.length ≠ 4) (hn : n ∈ ns) (hint : fl.toInt n = none) (hr : r = .overflowError) :
      FilterRefused fl cc r (lparen :: t :: us)

lemma FilterRefused.cons (h : FilterRefused fl cc r ts) :
    ∃ lparen us, ts = lparen :: us ∧ lparen.tok = .sym .lparen := by
  cases h with
  | named hlparen => exact ⟨_, _, rfl, hlparen⟩
  | numbers hlparen => exact ⟨_, _, rfl, hlparen⟩

lemma steps_parsePoly (hts : Left all ts) : Steps all (parsePoly fl cc) ts 0 fun r =>
    r = .valueError ∧ ∃ s us, parseBareOrString ts = .ok (s, us) ∧
      (splitWords cc s).mapM fl.ofText = none := by
  refine Steps.bind (l := 0) (reads_parseBareOrString.quiet.steps hts) fun s us hrun hus => ?_
  split
  · rename_i hwords
    exact Yields.of_error rfl (Or.inr ⟨rfl, s, us, hrun, hwords⟩)
  · split
    · exact (reads_error _).steps hus
    · exact (reads_pure _).steps hus

/-- The filters raise what the rules say. -/
lemma steps_namedFilter {filter : Parser ν (QlParser.Filter ν)}
    (h : namedFilter? fl cc text word = some filter)
    (hts : Left all ts) : Steps all filter ts 0 fun r => NamedRefused fl cc word r ts := by
  obtain ⟨t, us, rfl⟩ := hts.cons
  rw [namedFilter?.eq_def] at h
  split at h
  case h_1 =>
    cases h
    refine (steps_expect (k := 0) hts fun hcolon hus => ?_).mono (by omega) fun _ => id
    refine Steps.bind (l := 0) ?_ fun ids vs _ hvs => (reads_pure _).steps hvs
    refine Steps.bind (l := 0) (reads_parseNumberList.steps hus) fun ns vs hrun hvs => ?_
    exact (steps_mapM_int hvs).mono le_rfl fun r ⟨hr, n, hn, hint⟩ => hr ▸ .ids hcolon hrun hn hint
  case h_2 =>
    cases h
    exact reads_parseAround.steps hts
  case h_3 =>
    cases h
    refine (steps_expect (k := 0) hts fun hcolon hus => ?_).mono (by omega) fun _ => id
    exact (steps_parsePoly hus).mono le_rfl fun r ⟨hr, s, vs, hrun, hwords⟩ =>
      hr ▸ .poly hcolon hrun hwords
  case h_4 =>
    cases h
    refine steps_check (fun _ => ?_) fun _ => steps_check (fun hcolon => ?_) fun _ =>
      (reads_pure _).steps hts
    · exact (reads_advance.after fun _ => reads_expectIdentText.quiet.bind fun _ =>
        reads_pure _).steps hts
    · refine (steps_advance (k := 0) hts (by simp [hcolon]) fun hus => ?_).mono
        (by omega) fun _ => id
      refine Steps.bind (l := 0) ?_ fun n vs _ hvs => (reads_pure _).steps hvs
      exact (steps_parseInt hus).mono le_rfl fun r ⟨hr, hint⟩ => hr ▸ .area hcolon hint
  case h_5 =>
    cases h
    exact (reads_parseDotName.bind fun _ => reads_pure _).steps hts
  case h_6 =>
    cases h
    exact ((reads_expect _).quiet.after fun _ => reads_parseBareOrString.quiet.bind fun _ =>
      reads_pure _).steps hts
  case h_7 =>
    cases h
    exact ((reads_expect _).quiet.after fun _ => reads_parseBareOrString.quiet.after fun _ =>
      reads_parseSecond.bind fun _ => reads_pure _).steps hts
  case h_8 =>
    cases h
    exact ((reads_expect _).quiet.after fun _ => reads_parseBareOrString.quiet.after fun _ =>
      (reads_parseMore reads_parseBareOrString.quiet).bind fun _ => reads_pure _).steps hts
  case h_9 =>
    cases h
    refine (steps_expect (k := 0) hts fun hcolon hus => ?_).mono (by omega) fun _ => id
    refine Steps.bind (l := 0) ?_ fun uid vs huid hvs =>
      Steps.bind (l := 0) ?_ fun uids ws _ hws => (reads_pure _).steps hws
    · exact (steps_parseInt hus).mono le_rfl fun r ⟨hr, hint⟩ => hr ▸ .uid hcolon hint
    · refine (steps_whileLoop progress_moreInt hvs).mono le_rfl ?_
      rintro r ⟨uids, ws, hpasses, -, -, rfl, comma, xs, rfl, hcomma, hint⟩
      exact .moreUids hcolon huid hpasses hcomma hint
  case h_10 =>
    cases h
    exact ((reads_expect _).quiet.after fun _ => reads_captureUntilMatchingRparen.bind fun _ =>
      reads_pure _).steps hts
  case h_11 =>
    rcases hkind : recurseKind word with _ | kind
    · rw [hkind] at h
      cases h
    · rw [hkind] at h
      cases h
      exact (reads_parseRecurseFilter kind).steps hts

lemma error_namedFilter (text : List Char) (hts : Left all ts) (h : NamedRefused fl cc word r ts) :
    ∃ filter, namedFilter? fl cc text word = some filter ∧ filter ts = .error r := by
  cases h with
  | ids hcolon hnumbers hn hint =>
    have hus := hts.next (by simp [hcolon])
    refine ⟨_, rfl, (bind_ok (run_expect hcolon hus.ne_nil)).trans (bind_error ?_)⟩
    exact (bind_ok hnumbers).trans (error_mapM_int hn hint)
  | uid hcolon hint =>
    have hus := hts.next (by simp [hcolon])
    exact ⟨_, rfl,
      (bind_ok (run_expect hcolon hus.ne_nil)).trans (bind_error (error_parseInt hint))⟩
  | moreUids hcolon huid hpasses hcomma hint =>
    have hus := hts.next (by simp [hcolon])
    have hvs := ((steps_parseInt hus).ok huid).1
    have hws := (hpasses.left progress_moreInt hvs).next (by simp [hcomma])
    have hloop := hpasses.error progress_moreInt hvs (isSym_iff.mpr hcomma)
      (error_morePass hws.ne_nil hint)
    refine ⟨_, rfl, (bind_ok (run_expect hcolon hus.ne_nil)).trans ((bind_ok huid).trans ?_)⟩
    exact bind_error hloop
  | @area colon us hcolon hint =>
    have hus := hts.next (by simp [hcolon])
    have hdot : check .dot (colon :: us) = .ok (false, colon :: us) := by
      rw [run_check, isSym_of_tok hcolon]
      rfl
    have hyes : check .colon (colon :: us) = .ok (true, colon :: us) := by
      rw [run_check, isSym_of_tok hcolon]
      rfl
    refine ⟨_, rfl, (bind_ok hdot).trans ((bind_ok hyes).trans ?_)⟩
    exact (run_advance hus.ne_nil _).trans (bind_error (error_parseInt hint))
  | poly hcolon hstring hwords =>
    have hus := hts.next (by simp [hcolon])
    refine ⟨_, rfl, (bind_ok (run_expect hcolon hus.ne_nil)).trans ((bind_ok hstring).trans ?_)⟩
    rw [hwords]
    rfl

lemma steps_parseNumberFilter (hts : Left all ts) : Steps all (parseNumberFilter fl) ts 0 fun r =>
    r = .overflowError ∧ ∃ ns us, parseNumberList fl ts = .ok (ns, us) ∧ ns.length ≠ 4 ∧
      ∃ n ∈ ns, fl.toInt n = none := by
  refine Steps.bind (l := 0) (reads_parseNumberList.steps hts) fun ns us hrun hus => ?_
  split
  · exact (reads_pure _).steps hus
  · rename_i hother
    have hlen : ns.length ≠ 4 := by
      intro hlen
      obtain ⟨s, w, n, e, rfl⟩ := List.length_eq_four.mp hlen
      exact hother s w n e rfl
    refine Steps.bind (l := 0) ?_ fun ids vs _ hvs => (reads_pure _).steps hvs
    exact (steps_mapM_int hus).mono le_rfl fun r ⟨hr, hn⟩ => ⟨hr, ns, us, hrun, hlen, hn⟩

/-- A filter in parentheses raises what the rules say. -/
lemma steps_parseParenFilter (hts : Left all ts) :
    Steps all (parseParenFilter fl cc text) ts 1 fun r => FilterRefused fl cc r ts := by
  obtain ⟨lparen, us, rfl⟩ := hts.cons
  refine steps_expect hts fun hlparen hus => ?_
  obtain ⟨t, vs, rfl⟩ := hus.cons
  have hclose : ∀ (filter : QlParser.Filter ν) ws, Left all ws →
      Steps all (do expect .rparen; return filter) ws 0
      fun r => FilterRefused fl cc r (lparen :: t :: vs) :=
    fun _ ws hws => ((reads_expect _).bind fun _ => reads_pure _).quiet.steps hws
  have hnumbers : (∃ v, t.tok = .number v) ∨ t.tok = .sym .minus →
      Steps all (do let filter ← parseNumberFilter fl; expect .rparen; return filter) (t :: vs) 0
        fun r => FilterRefused fl cc r (lparen :: t :: vs) := by
    intro ht
    refine Steps.bind (l := 0) ((steps_parseNumberFilter hus).mono le_rfl ?_)
      fun filter ws _ hws => hclose filter ws hws
    rintro r ⟨hr, ns, ws, hrun, hlen, n, hn, hint⟩
    exact .numbers hlparen ht hrun hlen hn hint hr
  refine steps_current ?_
  dsimp only
  split
  · rename_i word hname
    split
    · rename_i filter hfilter
      refine (steps_advance (k := 0) hus (by simp [hname]) fun hvs => ?_).mono
        (by omega) fun _ => id
      refine Steps.bind (l := 0) ?_ fun filter ws _ hws => hclose filter ws hws
      exact (steps_namedFilter hfilter hvs).mono le_rfl fun r hr => .named hlparen hname hr
    · exact ((reads_error _).bind fun _ => (reads_expect _).quiet.bind fun _ =>
        reads_pure _).steps hus
  · rename_i value ht
    exact hnumbers (Or.inl ⟨value, ht⟩)
  · rename_i ht
    exact hnumbers (Or.inr ht)
  · exact ((reads_error _).bind fun _ => (reads_expect _).quiet.bind fun _ =>
      reads_pure _).steps hus

lemma error_parseNumberFilter {n : ν} {ns : List ν}
    (hnumbers : parseNumberList fl ts = .ok (ns, us))
    (hlen : ns.length ≠ 4) (hn : n ∈ ns) (hint : fl.toInt n = none) :
    parseNumberFilter fl ts = .error .overflowError := by
  rw [parseNumberFilter, bind_ok hnumbers]
  split
  · exact absurd rfl hlen
  · exact bind_error (error_mapM_int hn hint)

lemma error_parseParenFilter (hts : Left all ts) (h : FilterRefused fl cc r ts) :
    parseParenFilter fl cc text ts = .error r := by
  cases h with
  | named hlparen hname hrefused =>
    have hus := hts.next (by simp [hlparen])
    have hvs := hus.next (by simp [hname])
    obtain ⟨filter, hfilter, herror⟩ := error_namedFilter text hvs hrefused
    rw [parseParenFilter, bind_ok (run_expect hlparen hus.ne_nil), run_current]
    simp only [hname, hfilter]
    exact (run_advance hvs.ne_nil _).trans (bind_error herror)
  | numbers hlparen ht hnumbers hlen hn hint hr =>
    subst hr
    have hus := hts.next (by simp [hlparen])
    have hfilter := error_parseNumberFilter hnumbers hlen hn hint
    rw [parseParenFilter, bind_ok (run_expect hlparen hus.ne_nil), run_current]
    rcases ht with ⟨v, ht⟩ | ht
    · simp only [ht]
      exact bind_error hfilter
    · simp only [ht]
      exact bind_error hfilter

end Filters

end OsmParquet.QlRefusals
