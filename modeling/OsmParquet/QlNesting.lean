import OsmParquet.QlRefusals

/-!
Statements, and statements inside each other.

A statement raises what a filter, a limit or an id of it raises, or what a statement inside it
raises, or finds no room. The rules for a statement take the parser and the rules of the statements
inside.
-/

namespace OsmParquet.QlNesting

open OsmParquet.Scanning OsmParquet.QlLexer OsmParquet.QlParser OsmParquet.Outcomes
  OsmParquet.QlRuns
open OsmParquet.QlSteps OsmParquet.QlReaders OsmParquet.QlRefusals

variable {ν : Type} {fl : Floats ν} {cc : CharClasses} {text : List Char}
  {all ts us : List (Token ν)} {r : Raised}

/-! ### Queries -/

section Query

def inputSetPass (sets : List String) : Parser ν (List String) := do
  let _ ← advance
  return sets ++ [← expectIdentText]

def filterPass (fl : Floats ν) (cc : CharClasses) (text : List Char)
    (filters : List (QlParser.Filter ν)) : Parser ν (List (QlParser.Filter ν)) := do
  if ← check .lbracket then return filters ++ [.tag (← parseTagFilter)]
  else return filters ++ [← parseParenFilter fl cc text]

/-- A filter that is refused, after the sets and other filters of a query. -/
inductive QueryRefused (fl : Floats ν) (cc : CharClasses) (text : List Char) (r : Raised)
    (ts : List (Token ν)) : Prop
  | filter {sets : List String} {filters : List (QlParser.Filter ν)} {us vs : List (Token ν)}
      (hsets : whileLoop (fun _ t => isSym .dot t) inputSetPass [] ts = .ok (sets, us))
      (hpasses : Passes (fun _ t => isSym .lbracket t || isSym .lparen t) (filterPass fl cc text)
        [] us filters vs)
      (hrefused : FilterRefused fl cc r vs)

lemma progress_inputSet : Progress all (fun _ t => isSym .dot t)
    (inputSetPass : List String → Parser ν _) fun _ _ _ => False :=
  progress_advance (fun _ _ => ne_eof_of_isSym) fun _ _ =>
    reads_expectIdentText.quiet.bind fun _ => reads_pure _

lemma progress_filter : Progress all (fun _ t => isSym .lbracket t || isSym .lparen t)
    (filterPass fl cc text) fun _ ts r => FilterRefused fl cc r ts := by
  intro filters ts hts _
  obtain ⟨t, us, rfl⟩ := hts.cons
  refine steps_check (fun _ => (reads_parseTagFilter.bind fun _ => reads_pure _).steps hts) fun _ =>
    ?_
  exact Steps.bind (l := 0) (steps_parseParenFilter hts) fun _ us _ hus => (reads_pure _).steps hus

lemma error_filterPass {filters : List (QlParser.Filter ν)} (hts : Left all ts)
    (h : FilterRefused fl cc r ts) : filterPass fl cc text filters ts = .error r := by
  obtain ⟨lparen, us, rfl, hlparen⟩ := h.cons
  have hcheck : check .lbracket (lparen :: us) = .ok (false, lparen :: us) := by
    rw [run_check, isSym_of_tok hlparen]
    rfl
  rw [filterPass, bind_ok hcheck]
  exact bind_error (error_parseParenFilter hts h)

lemma steps_parseQuery {types : List ElementType} (hts : Left all ts) :
    Steps all (parseQuery fl cc text types) ts 0 fun r => QueryRefused fl cc text r ts := by
  refine Steps.bind (k := 0) (l := 0) ((reads_whileLoop progress_inputSet).steps hts)
    fun sets us hsets hus => ?_
  refine Steps.bind (l := 0) ?_ fun filters vs _ hvs =>
    (reads_parseEnd.quiet.bind fun _ => reads_pure _).steps hvs
  refine (steps_whileLoop progress_filter hus).mono le_rfl ?_
  rintro r ⟨filters, vs, hpasses, -, -, hrefused⟩
  exact .filter hsets hpasses hrefused

lemma error_parseQuery {types : List ElementType} (hts : Left all ts)
    (h : QueryRefused fl cc text r ts) : parseQuery fl cc text types ts = .error r := by
  obtain ⟨hsets, hpasses, hrefused⟩ := h
  rename_i sets filters us vs
  have hus := (((reads_whileLoop progress_inputSet).steps (B := fun _ => False) hts).ok hsets).1
  have hvs := hpasses.left progress_filter hus
  have hcond : (isSym .lbracket (currentOf vs) || isSym .lparen (currentOf vs)) = true := by
    obtain ⟨lparen, ws, rfl, hlparen⟩ := hrefused.cons
    have hcurrent : currentOf (lparen :: ws) = lparen := rfl
    rw [hcurrent, isSym_iff.mpr hlparen, Bool.or_true]
  have hloop := hpasses.error progress_filter hus hcond (error_filterPass hvs hrefused)
  exact (bind_ok hsets).trans (bind_error hloop)

end Query

/-! ### Output and timelines -/

section Output

variable {inputSet : String}

/-- A word or a limit after `out`. -/
def outPass (fl : Floats ν) (out : Out ν) : Parser ν (Out ν) := do
  let t ← current
  match t.tok with
  | .ident word => parseOutModifier fl word out
  | .number value => do
    let _ ← advance
    return { out with limit := some (← int fl value) }
  | _ => error s!"unexpected token {labelOf t} in 'out' statement"

/-- A limit without an integer, after other words. -/
inductive OutRefused (fl : Floats ν) (inputSet : String) (ts : List (Token ν)) : Prop
  | limit {t : Token ν} {us : List (Token ν)} {n : ν} {out : Out ν}
      (hpasses : Passes (fun _ t => !isSym .semi t) (outPass fl)
        { inputSet := inputSet } ts out (t :: us))
      (ht : t.tok = .number n) (hint : fl.toInt n = none)

lemma progress_out : Progress all (fun _ t => !isSym .semi t) (outPass fl) fun _ ts r =>
    r = .overflowError ∧ ∃ t us n, ts = t :: us ∧ t.tok = .number n ∧ fl.toInt n = none := by
  intro out ts hts _
  obtain ⟨t, us, rfl⟩ := hts.cons
  refine steps_current ?_
  split
  · rename_i word ht
    exact (steps_parseOutModifier hts (by simp [ht])).mono le_rfl fun _ h => h.elim
  · rename_i n ht
    refine steps_advance hts (by simp [ht]) fun hus => Steps.bind (l := 0) ?_ fun k vs _ hvs =>
      (reads_pure _).steps hvs
    exact (steps_int hus).mono le_rfl fun r ⟨hr, hint⟩ => ⟨hr, t, us, n, rfl, ht, hint⟩
  · exact (reads_error _).steps hts

lemma steps_parseOut (hts : Left all ts) :
    Steps all (parseOut fl inputSet) ts 0 fun r => r = .overflowError ∧
      OutRefused fl inputSet ts := by
  refine Steps.bind (l := 0) ?_ fun out us _ hus =>
    (reads_advance.bind fun _ => reads_pure _).steps hus
  refine (steps_whileLoop progress_out hts).mono le_rfl ?_
  rintro r ⟨out, us, hpasses, -, -, hr, t, vs, n, rfl, ht, hint⟩
  exact ⟨hr, .limit hpasses ht hint⟩

lemma error_parseOut (hts : Left all ts) (h : OutRefused fl inputSet ts) :
    parseOut fl inputSet ts = .error .overflowError := by
  cases h with
  | @limit t us n out hpasses ht hint =>
    have hus := (hpasses.left progress_out hts).next (by simp [ht])
    have hpass : outPass fl out (t :: us) = .error .overflowError := by
      rw [outPass, run_current]
      simp only [ht]
      exact (run_advance hus.ne_nil _).trans (bind_error (error_int hint))
    have hsemi : isSym .semi (currentOf (t :: us)) = false := by
      show isSym .semi t = false
      rw [isSym, ht]
    exact bind_error (hpasses.error progress_out hts (by rw [hsemi]; rfl) hpass)

/-- The id or the version of a timeline without an integer, from the parenthesis on. -/
inductive TimelineRefused (fl : Floats ν) : List (Token ν) → Prop
  | id {lparen type comma : Token ν} {us : List (Token ν)} {word : String}
    {elementType : ElementType}
      (hlparen : lparen.tok = .sym .lparen) (htype : type.tok = .ident word)
      (hword : timelineType? word = some elementType) (hcomma : comma.tok = .sym .comma)
      (hint : IntRefused fl us) : TimelineRefused fl (lparen :: type :: comma :: us)
  | version {lparen type comma comma' : Token ν} {us vs : List (Token ν)} {word : String}
    {elementType : ElementType}
      {k : ℤ} (hlparen : lparen.tok = .sym .lparen) (htype : type.tok = .ident word)
      (hword : timelineType? word = some elementType) (hcomma : comma.tok = .sym .comma)
      (hid : parseInt fl us = .ok (k, comma' :: vs)) (hcomma' : comma'.tok = .sym .comma)
      (hint : IntRefused fl vs) : TimelineRefused fl (lparen :: type :: comma :: us)

lemma steps_parseTimeline {t : Token ν} (hts : Left all (t :: us)) (ht : t.tok ≠ .eof) :
    Steps all (parseTimeline fl) (t :: us) 1 fun r => r = .overflowError ∧
      TimelineRefused fl us := by
  refine steps_advance hts ht fun hus => ?_
  obtain ⟨lparen, us, rfl⟩ := hus.cons
  refine (steps_expect (k := 2) hus fun hlparen hus => ?_).mono (by omega) fun _ => id
  obtain ⟨type, us, rfl⟩ := hus.cons
  refine steps_expectIdentText hus fun word htype hus => ?_
  split
  · exact (reads_error _).steps hus
  rename_i elementType hword
  obtain ⟨comma, us, rfl⟩ := hus.cons
  refine steps_expect hus fun hcomma hus => Steps.bind (k := 0) (l := 0) ?_ fun k vs hid hvs => ?_
  · exact (steps_parseInt hus).mono le_rfl fun r ⟨hr, hint⟩ =>
      ⟨hr, .id hlparen htype hword hcomma hint⟩
  obtain ⟨comma', vs, rfl⟩ := hvs.cons
  have hend : ∀ version ws, Left all ws → Steps all (do
      expect .rparen
      return .timeline elementType k version (← parseEnd) : Parser ν (Statement ν)) ws 0 fun r =>
        r = .overflowError ∧ TimelineRefused fl (lparen :: type :: comma :: us) :=
    fun _ ws hws => ((reads_expect _).quiet.after fun _ => reads_parseEnd.quiet.bind fun _ =>
      reads_pure _).steps hws
  refine steps_check (fun hcomma' => ?_) fun _ =>
    (reads_pure _).steps hvs |>.bind (k := 0) (l := 0) fun version ws _ hws => hend version ws hws
  refine (steps_advance (k := 0) hvs (by simp [hcomma']) fun hvs => ?_).mono (by omega) fun _ => id
  refine Steps.bind (k := 0) (l := 0) ?_ fun m ws _ hws =>
    (reads_pure _).steps hws |>.bind (k := 0) (l := 0) fun version xs _ hxs => hend version xs hxs
  exact (steps_parseInt hvs).mono le_rfl fun r ⟨hr, hint⟩ =>
    ⟨hr, .version hlparen htype hword hcomma hid hcomma' hint⟩

lemma error_parseTimeline {t : Token ν} (hus : Left all us) (h : TimelineRefused fl us) :
    parseTimeline fl (t :: us) = .error .overflowError := by
  rw [parseTimeline, run_advance hus.ne_nil]
  cases h with
  | @id lparen type comma us word elementType hlparen htype hword hcomma hint =>
    have hleft := ((hus.next (by simp [hlparen])).next (by simp [htype])).next (by simp [hcomma])
    rw [bind_ok (run_expect hlparen (by simp)),
      bind_ok (run_expectIdentText htype (by simp)), hword]
    exact (bind_ok (run_expect hcomma hleft.ne_nil)).trans (bind_error (error_parseInt hint))
  | @version lparen type comma comma' us vs word elementType k hlparen htype hword hcomma hid
    hcomma' hint =>
    have hleft := ((hus.next (by simp [hlparen])).next (by simp [htype])).next (by simp [hcomma])
    have hvs := ((steps_parseInt hleft).ok hid).1.next (by simp [hcomma'])
    have hcheck : check .comma (comma' :: vs) = .ok (true, comma' :: vs) := by
      rw [run_check, isSym_of_tok hcomma']
      rfl
    rw [bind_ok (run_expect hlparen (by simp)),
      bind_ok (run_expectIdentText htype (by simp)), hword]
    refine (bind_ok (run_expect hcomma hleft.ne_nil)).trans
      ((bind_ok hid).trans ((bind_ok hcheck).trans ?_))
    exact (run_advance hvs.ne_nil _).trans (bind_error (error_parseInt hint))

/-- A statement that begins with a set. -/
lemma steps_parseDotStatement {t : Token ν} (hts : Left all (t :: us)) (ht : t.tok ≠ .eof) :
    Steps all (parseDotStatement fl) (t :: us) 1 fun r => r = .overflowError ∧
      ∃ name out vs set, us = name :: out :: vs ∧ name.tok = .ident set ∧ out.tok = .ident "out" ∧
        OutRefused fl set vs := by
  refine steps_advance hts ht fun hus => ?_
  obtain ⟨name, us, rfl⟩ := hus.cons
  refine (steps_expectIdentText (k := 0) hus fun set hname hus => ?_).mono (by omega) fun _ => id
  obtain ⟨out, us, rfl⟩ := hus.cons
  refine steps_current ?_
  split
  · exact (reads_advance.after fun _ => reads_parseIsIn _).steps hus
  · exact (reads_advance.after fun _ => reads_parseMapToArea _).steps hus
  · rename_i hout
    refine (steps_advance (k := 0) hus (by simp [hout]) fun hus => ?_).mono (by omega) fun _ => id
    exact (steps_parseOut hus).mono le_rfl
      fun r ⟨hr, hrefused⟩ => ⟨hr, name, out, us, set, rfl, hname, hout, hrefused⟩
  · split
    · exact (reads_parseRecurseOp _ _).steps hus
    · exact (reads_parseEnd.quiet.bind fun _ => reads_pure _).steps hus

lemma error_parseDotStatement {dot name out : Token ν} {set : String}
    (hus : Left all (name :: out :: us)) (hname : name.tok = .ident set)
    (hout : out.tok = .ident "out") (h : OutRefused fl set us) :
    parseDotStatement fl (dot :: name :: out :: us) = .error .overflowError := by
  have hleft := (hus.next (by simp [hname])).next (by simp [hout])
  rw [parseDotStatement, run_advance (by simp),
    bind_ok (run_expectIdentText hname (by simp)), run_current]
  simp only [hout]
  exact (run_advance hleft.ne_nil _).trans (error_parseOut hleft h)

end Output

/-! ### Statements inside -/

section Nested

-- the parser of the statements inside, and what it raises
variable {nested : Parser ν (Option (Statement ν))} {R : Raised → List (Token ν) → Prop}
  {what : String}

def bodyPass (nested : Parser ν (Option (Statement ν))) (what : String)
    (body : List (Statement ν)) : Parser ν (List (Statement ν)) := do
  if ← atEnd then error s!"unbalanced '\x7b' '\x7d' in {what}"
  else return body ++ (← nested).toList

def blockPass (nested : Parser ν (Option (Statement ν))) (parts : List (List (Statement ν))) :
    Parser ν (List (List (Statement ν))) := do
  if ← check .minus then
    let _ ← advance
    return parts ++ [[]]
  else if ← atEnd then error "unbalanced '(' ')' in union/difference block"
  else return parts.dropLast ++ [parts.getLastD [] ++ (← nested).toList]

/-- A statement in braces is refused, after others. -/
inductive BodyRefused (nested : Parser ν (Option (Statement ν)))
    (R : Raised → List (Token ν) → Prop) (what : String) (r : Raised) : List (Token ν) → Prop
  | statement {lbrace t : Token ν} {us vs : List (Token ν)} {body : List (Statement ν)}
      (hlbrace : lbrace.tok = .sym .lbrace)
      (hpasses : Passes (fun _ t => !isSym .rbrace t) (bodyPass nested what) [] us body (t :: vs))
      (hopen : t.tok ≠ .sym .rbrace) (hend : t.tok ≠ .eof) (hrefused : R r (t :: vs)) :
      BodyRefused nested R what r (lbrace :: us)

/-- A statement of a union or a difference is refused, after others. -/
inductive BlockRefused (nested : Parser ν (Option (Statement ν)))
    (R : Raised → List (Token ν) → Prop) (r : Raised) : List (Token ν) → Prop
  | statement {lparen t : Token ν} {us vs : List (Token ν)} {parts : List (List (Statement ν))}
      (hlparen : lparen.tok = .sym .lparen)
      (hpasses : Passes (fun _ t => !isSym .rparen t) (blockPass nested) [[]] us parts (t :: vs))
      (hopen : t.tok ≠ .sym .rparen) (hminus : t.tok ≠ .sym .minus) (hend : t.tok ≠ .eof)
      (hrefused : R r (t :: vs)) : BlockRefused nested R r (lparen :: us)

/-- The parser of the statements inside does what the rules say. -/
structure Follows (all : List (Token ν)) (nested : Parser ν (Option (Statement ν)))
    (R : Raised → List (Token ν) → Prop) : Prop where
  steps : ∀ {ts}, Left all ts → Steps all nested ts 1 fun r => R r ts
  raises : ∀ {ts r}, Left all ts → R r ts → nested ts = .error r

lemma Follows.progress_body (h : Follows all nested R) :
    Progress all (fun _ t => !isSym .rbrace t) (bodyPass nested what) fun _ ts r =>
      R r ts ∧ (currentOf ts).tok ≠ .eof := by
  intro body ts hts _
  obtain ⟨t, us, rfl⟩ := hts.cons
  refine steps_atEnd (fun _ => (reads_error _).steps hts) fun ht => ?_
  refine Steps.bind (l := 0) ?_ fun _ us _ hus => (reads_pure _).steps hus
  exact (h.steps hts).mono le_rfl fun r hr => ⟨hr, ht⟩

lemma Follows.progress_block (h : Follows all nested R) :
    Progress all (fun _ t => !isSym .rparen t) (blockPass nested) fun _ ts r =>
      R r ts ∧ (currentOf ts).tok ≠ .eof ∧ (currentOf ts).tok ≠ .sym .minus := by
  intro parts ts hts _
  obtain ⟨t, us, rfl⟩ := hts.cons
  refine steps_check (fun hminus => ?_) fun hminus =>
    steps_atEnd (fun _ => (reads_error _).steps hts) fun ht => ?_
  · exact steps_advance hts (by simp [hminus]) fun hus => (reads_pure _).steps hus
  · refine Steps.bind (l := 0) ?_ fun _ us _ hus => (reads_pure _).steps hus
    exact (h.steps hts).mono le_rfl fun r hr => ⟨hr, ht, hminus⟩

lemma steps_parseBody (h : Follows all nested R) (hts : Left all ts) :
    Steps all (parseBody nested what) ts 1 fun r => BodyRefused nested R what r ts := by
  obtain ⟨lbrace, us, rfl⟩ := hts.cons
  refine steps_expect hts fun hlbrace hus => Steps.bind (k := 0) (l := 0) ?_ fun body vs _ hvs =>
    ((reads_expect _).quiet.bind fun _ => reads_pure _).steps hvs
  refine (steps_whileLoop h.progress_body hus).mono le_rfl ?_
  rintro r ⟨body, vs, hpasses, hvs, hopen, hrefused, hend⟩
  obtain ⟨t, vs, rfl⟩ := hvs.cons
  refine .statement hlbrace hpasses (fun ht => ?_) hend hrefused
  have hsym : isSym .rbrace (currentOf (t :: vs)) = true := isSym_iff.mpr ht
  rw [hsym] at hopen
  cases hopen

lemma error_parseBody (h : Follows all nested R) (hts : Left all ts)
    (hrefused : BodyRefused nested R what r ts) : parseBody nested what ts = .error r := by
  obtain @⟨lbrace, t, us, vs, body, hlbrace, hpasses, hopen, hend, hR⟩ := hrefused
  have hus := hts.next (by simp [hlbrace])
  have hvs := hpasses.left h.progress_body hus
  have hpass : bodyPass nested what body (t :: vs) = .error r := by
    have hat : atEnd (t :: vs) = .ok (false, t :: vs) := by
      rw [← Bool.eq_false_iff.mpr fun hend' => hend (isEof_iff.mp hend')]
      rfl
    exact (bind_ok hat).trans (bind_error (h.raises hvs hR))
  have hsym : isSym .rbrace (currentOf (t :: vs)) = false :=
    Bool.eq_false_iff.mpr fun h => hopen (isSym_iff.mp h)
  refine (bind_ok (run_expect hlbrace hus.ne_nil)).trans (bind_error ?_)
  exact hpasses.error h.progress_body hus (by rw [hsym]; rfl) hpass

lemma steps_parseBlock (h : Follows all nested R) (hts : Left all ts) :
    Steps all (parseBlock nested) ts 1 fun r => BlockRefused nested R r ts := by
  obtain ⟨lparen, us, rfl⟩ := hts.cons
  refine steps_expect hts fun hlparen hus => Steps.bind (k := 0) (l := 0) ?_ fun parts vs _ hvs =>
    ?_
  · refine (steps_whileLoop h.progress_block hus).mono le_rfl ?_
    rintro r ⟨parts, vs, hpasses, hvs, hopen, hrefused, hend, hminus⟩
    obtain ⟨t, vs, rfl⟩ := hvs.cons
    refine .statement hlparen hpasses (fun ht => ?_) hminus hend hrefused
    have hsym : isSym .rparen (currentOf (t :: vs)) = true := isSym_iff.mpr ht
    rw [hsym] at hopen
    cases hopen
  · refine Reads.steps ((reads_expect _).quiet.after fun _ => reads_parseEnd.quiet.after
      fun outputSet => ?_) hvs
    split
    · exact reads_pure _
    · exact reads_pure _
    · exact reads_error _

lemma error_parseBlock (h : Follows all nested R) (hts : Left all ts)
    (hrefused : BlockRefused nested R r ts) : parseBlock nested ts = .error r := by
  obtain @⟨lparen, t, us, vs, parts, hlparen, hpasses, hopen, hminus, hend, hR⟩ := hrefused
  have hus := hts.next (by simp [hlparen])
  have hvs := hpasses.left h.progress_block hus
  have hpass : blockPass nested parts (t :: vs) = .error r := by
    have hcheck : check .minus (t :: vs) = .ok (false, t :: vs) := by
      rw [run_check, Bool.eq_false_iff.mpr fun hminus' => hminus (isSym_iff.mp hminus')]
    have hat : atEnd (t :: vs) = .ok (false, t :: vs) := by
      rw [← Bool.eq_false_iff.mpr fun hend' => hend (isEof_iff.mp hend')]
      rfl
    exact (bind_ok hcheck).trans ((bind_ok hat).trans (bind_error (h.raises hvs hR)))
  have hsym : isSym .rparen (currentOf (t :: vs)) = false :=
    Bool.eq_false_iff.mpr fun h => hopen (isSym_iff.mp h)
  refine (bind_ok (run_expect hlparen hus.ne_nil)).trans (bind_error ?_)
  exact hpasses.error h.progress_block hus (by rw [hsym]; rfl) hpass

/-- What a statement cannot take, with room for it. -/
inductive OpenRefused (fl : Floats ν) (cc : CharClasses) (text : List Char)
    (nested : Parser ν (Option (Statement ν))) (R : Raised → List (Token ν) → Prop) (r : Raised) :
    List (Token ν) → Prop
  | query {t : Token ν} {us : List (Token ν)} {word : String} {types : List ElementType}
      (ht : t.tok = .ident word) (htypes : queryTypes? word = some types)
      (hrefused : QueryRefused fl cc text r us) : OpenRefused fl cc text nested R r (t :: us)
  | out {t : Token ν} {us : List (Token ν)} (ht : t.tok = .ident "out")
    (hrefused : OutRefused fl "_" us)
      (hr : r = .overflowError) : OpenRefused fl cc text nested R r (t :: us)
  | dotOut {dot name out : Token ν} {us : List (Token ν)} {set : String}
    (hdot : dot.tok = .sym .dot)
      (hname : name.tok = .ident set) (hout : out.tok = .ident "out")
      (hrefused : OutRefused fl set us) (hr : r = .overflowError) :
      OpenRefused fl cc text nested R r (dot :: name :: out :: us)
  | timeline {t : Token ν} {us : List (Token ν)} (ht : t.tok = .ident "timeline")
    (hrefused : TimelineRefused fl us)
      (hr : r = .overflowError) : OpenRefused fl cc text nested R r (t :: us)
  | block {ts : List (Token ν)} (hrefused : BlockRefused nested R r ts) :
    OpenRefused fl cc text nested R r ts
  | foreach {t : Token ν} {us vs ws : List (Token ν)} {inputSet : Option String}
    {outputSet : String}
      (ht : t.tok = .ident "foreach") (hin : parseDotName us = .ok (inputSet, vs))
      (hout : parseOutputSet vs = .ok (outputSet, ws))
      (hrefused : BodyRefused nested R "foreach block" r ws) :
      OpenRefused fl cc text nested R r (t :: us)
  | if' {t : Token ν} {us vs : List (Token ν)} {condition : List Char} (ht : t.tok = .ident "if")
      (hcondition : parseCondition cc text us = .ok (condition, vs))
      (hrefused : BodyRefused nested R "if block" r vs) :
      OpenRefused fl cc text nested R r (t :: us)
  | else' {t u : Token ν} {us vs ws : List (Token ν)} {condition : List Char}
    {then' : List (Statement ν)}
      (ht : t.tok = .ident "if") (hcondition : parseCondition cc text us = .ok (condition, vs))
      (hthen : parseBody nested "if block" vs = .ok (then', u :: ws)) (hu : u.tok = .ident "else")
      (hrefused : BodyRefused nested R "else block" r ws) :
      OpenRefused fl cc text nested R r (t :: us)
  | retro {t : Token ν} {us vs : List (Token ν)} {timeExpr : List Char}
    (ht : t.tok = .ident "retro")
      (hcondition : parseCondition cc text us = .ok (timeExpr, vs))
      (hrefused : BodyRefused nested R "'retro' block" r vs) :
      OpenRefused fl cc text nested R r (t :: us)

/-- A word begins the statement, or a block or a set does. -/
lemma OpenRefused.front {t : Token ν} (h : OpenRefused fl cc text nested R r (t :: us)) :
    (∃ word, t.tok = .ident word) ∨ (t.tok = .sym .lparen ∧ BlockRefused nested R r (t :: us)) ∨
      (t.tok = .sym .dot ∧ r = .overflowError ∧ ∃ name out vs set, us = name :: out :: vs ∧
        name.tok = .ident set ∧ out.tok = .ident "out" ∧ OutRefused fl set vs) := by
  cases h with
  | query ht => exact Or.inl ⟨_, ht⟩
  | out ht => exact Or.inl ⟨_, ht⟩
  | dotOut hdot hname hout hrefused hr =>
    exact Or.inr (Or.inr ⟨hdot, hr, _, _, _, _, rfl, hname, hout, hrefused⟩)
  | timeline ht => exact Or.inl ⟨_, ht⟩
  | block hrefused =>
    cases hrefused with
    | statement hlparen hpasses hopen hminus hend hR =>
      exact Or.inr (Or.inl ⟨hlparen, .statement hlparen hpasses hopen hminus hend hR⟩)
  | foreach ht => exact Or.inl ⟨_, ht⟩
  | if' ht => exact Or.inl ⟨_, ht⟩
  | else' ht => exact Or.inl ⟨_, ht⟩
  | retro ht => exact Or.inl ⟨_, ht⟩

lemma steps_parseForeach {t : Token ν} (h : Follows all nested R) (hts : Left all (t :: us))
    (ht : t.tok = .ident "foreach") : Steps all (parseForeach nested) (t :: us) 1 fun r =>
      OpenRefused fl cc text nested R r (t :: us) := by
  refine steps_advance hts (by simp [ht]) fun hus => ?_
  refine Steps.bind (k := 0) (l := 0) (reads_parseDotName.steps hus) fun inputSet vs hin hvs => ?_
  refine Steps.bind (k := 0) (l := 0) (reads_parseOutputSet.steps hvs) fun outputSet ws hout hws =>
    ?_
  refine Steps.bind (k := 0) (l := 0) ?_ fun body xs _ hxs => (reads_pure _).steps hxs
  exact (steps_parseBody h hws).mono (by omega) fun r hr => .foreach ht hin hout hr

lemma steps_parseIfStatement {t : Token ν} (h : Follows all nested R) (hts : Left all (t :: us))
    (ht : t.tok = .ident "if") : Steps all (parseIfStatement cc text nested) (t :: us) 1 fun r =>
      OpenRefused fl cc text nested R r (t :: us) := by
  refine steps_advance hts (by simp [ht]) fun hus => ?_
  refine Steps.bind (k := 0) (l := 0) (reads_parseCondition.steps hus)
    fun condition vs hcondition hvs => ?_
  refine Steps.bind (k := 0) (l := 0) ?_ fun then' ws hthen hws => ?_
  · exact (steps_parseBody h hvs).mono (by omega) fun r hr => .if' ht hcondition hr
  obtain ⟨u, ws, rfl⟩ := hws.cons
  refine steps_current ?_
  split
  · rename_i hu
    refine (steps_advance (k := 0) hws (by simp [hu]) fun hws => ?_).mono (by omega) fun _ => id
    refine Steps.bind (k := 0) (l := 0) ?_ fun body xs _ hxs => (reads_pure _).steps hxs
    exact (steps_parseBody h hws).mono (by omega) fun r hr => .else' ht hcondition hthen hu hr
  · exact (reads_pure _).steps hws

lemma steps_parseRetro {t : Token ν} (h : Follows all nested R) (hts : Left all (t :: us))
    (ht : t.tok = .ident "retro") : Steps all (parseRetro cc text nested) (t :: us) 1 fun r =>
      OpenRefused fl cc text nested R r (t :: us) := by
  refine steps_advance hts (by simp [ht]) fun hus => ?_
  refine Steps.bind (k := 0) (l := 0) (reads_parseCondition.steps hus)
    fun timeExpr vs hcondition hvs => ?_
  refine Steps.bind (k := 0) (l := 0) ?_ fun body xs _ hxs => (reads_pure _).steps hxs
  exact (steps_parseBody h hvs).mono (by omega) fun r hr => .retro ht hcondition hr

/-- The statement that a word begins raises what the rules say. -/
lemma steps_wordStatement {t : Token ν} {word : String} (h : Follows all nested R)
    (hts : Left all (t :: us)) (ht : t.tok = .ident word) :
    Steps all (wordStatement fl cc text nested word) (t :: us) 1 fun r =>
      OpenRefused fl cc text nested R r (t :: us) := by
  have hne : t.tok ≠ .eof := by simp [ht]
  rw [wordStatement.eq_def]
  split
  · rename_i types htypes
    refine steps_advance hts hne fun hus =>
      Steps.bind (k := 0) (l := 0) ?_ fun query vs _ hvs => (reads_pure _).steps hvs
    exact (steps_parseQuery hus).mono le_rfl fun r hr => .query ht htypes hr
  split
  · refine steps_advance hts hne fun hus => ?_
    exact (steps_parseOut hus).mono le_rfl fun r ⟨hr, hrefused⟩ => .out ht hrefused hr
  · exact steps_parseForeach h hts ht
  · exact steps_parseIfStatement h hts ht
  · exact steps_advance hts hne fun hus => (reads_parseIsIn _).steps hus
  · exact steps_advance hts hne fun hus => (reads_parseMapToArea _).steps hus
  · exact steps_parseRetro h hts ht
  · exact (steps_parseTimeline hts hne).mono le_rfl fun r ⟨hr, hrefused⟩ => .timeline ht hrefused hr
  · exact (steps_parseUnsupportedBlock hts hne).mono le_rfl fun _ h => h.elim
  · exact (steps_parseUnsupportedBlock hts hne).mono le_rfl fun _ h => h.elim
  · exact (steps_parseUnsupportedBlock hts hne).mono le_rfl fun _ h => h.elim
  · exact (steps_parseUnsupportedSimple hts hne).mono le_rfl fun _ h => h.elim
  · exact (steps_parseUnsupportedSimple hts hne).mono le_rfl fun _ h => h.elim
  · exact (steps_parseUnsupportedSimple hts hne).mono le_rfl fun _ h => h.elim
  · exact (reads_error _).steps hts

lemma error_wordStatement {t : Token ν} {word : String} (h : Follows all nested R)
    (hts : Left all (t :: us)) (ht : t.tok = .ident word)
    (hrefused : OpenRefused fl cc text nested R r (t :: us)) :
    wordStatement fl cc text nested word (t :: us) = .error r := by
  have hus := hts.next (by simp [ht])
  cases hrefused with
  | @query _ _ word' types ht' htypes hquery =>
    cases ht.symm.trans ht'
    rw [wordStatement.eq_def, htypes]
    exact (run_advance hus.ne_nil _).trans (bind_error (error_parseQuery hus hquery))
  | out ht' hout hr =>
    cases ht.symm.trans ht'
    exact (run_advance hus.ne_nil _).trans (hr ▸ error_parseOut hus hout)
  | dotOut hdot => simp [ht] at hdot
  | timeline ht' htimeline hr =>
    cases ht.symm.trans ht'
    exact hr ▸ error_parseTimeline hus htimeline
  | block hblock =>
    cases hblock with
    | statement hlparen => simp [ht] at hlparen
  | foreach ht' hin hout hbody =>
    cases ht.symm.trans ht'
    have hvs := ((reads_parseDotName.steps (B := fun _ => False) hus).ok hin).1
    have hws := ((reads_parseOutputSet.steps (B := fun _ => False) hvs).ok hout).1
    refine (run_advance hus.ne_nil _).trans ((bind_ok hin).trans ((bind_ok hout).trans ?_))
    exact bind_error (error_parseBody h hws hbody)
  | if' ht' hcondition hbody =>
    cases ht.symm.trans ht'
    have hvs := ((reads_parseCondition.steps (B := fun _ => False) hus).ok hcondition).1
    refine (run_advance hus.ne_nil _).trans ((bind_ok hcondition).trans ?_)
    exact bind_error (error_parseBody h hvs hbody)
  | @else' _ u _ vs ws condition then' ht' hcondition hthen hu hbody =>
    cases ht.symm.trans ht'
    have hvs := ((reads_parseCondition.steps (B := fun _ => False) hus).ok hcondition).1
    have hws := ((steps_parseBody h hvs).ok hthen).1.next (by simp [hu])
    refine (run_advance hus.ne_nil _).trans ((bind_ok hcondition).trans ((bind_ok hthen).trans ?_))
    rw [run_current]
    simp only [hu]
    exact (run_advance hws.ne_nil _).trans (bind_error (error_parseBody h hws hbody))
  | retro ht' hcondition hbody =>
    cases ht.symm.trans ht'
    have hvs := ((reads_parseCondition.steps (B := fun _ => False) hus).ok hcondition).1
    refine (run_advance hus.ne_nil _).trans ((bind_ok hcondition).trans ?_)
    exact bind_error (error_parseBody h hvs hbody)

end Nested

/-! ### Statements with room for so many of them -/

section Statements

/-- What a statement cannot take; with no room left, none can be read. -/
def StatementRefused (fl : Floats ν) (cc : CharClasses) (text : List Char) :
    ℕ → Raised → List (Token ν) → Prop
  | 0, r, _ => r = .recursionError
  | depth + 1, r, ts =>
    OpenRefused fl cc text (parseStatement fl cc text depth)
      (StatementRefused fl cc text depth) r ts

lemma steps_parseRecurseOp {t : Token ν} {kind : RecurseOp} {inputSet : String}
    (hts : Left all (t :: us)) (ht : t.tok ≠ .eof) :
    Steps all (parseRecurseOp kind inputSet : Parser ν (Statement ν)) (t :: us) 1 fun _ => False :=
  steps_advance hts ht fun hus => (reads_parseEnd.quiet.bind fun _ => reads_pure _).steps hus

/-- **A statement raises what the rules say**, and nothing else but parse errors at tokens. -/
theorem follows_parseStatement (depth : ℕ) :
    Follows all (parseStatement fl cc text depth) (StatementRefused fl cc text depth) := by
  induction depth with
  | zero =>
    constructor
    · intro ts _
      exact Yields.of_error rfl (Or.inr rfl)
    · rintro ts r _ rfl
      rfl
  | succ depth ih =>
    constructor
    · intro ts hts
      obtain ⟨t, us, rfl⟩ := hts.cons
      refine steps_current ?_
      split
      · rename_i ht
        exact steps_advance hts (by simp [ht]) fun hus => (reads_pure _).steps hus
      · refine Steps.bind (l := 0) ?_ fun _ vs _ hvs => (reads_pure _).steps hvs
        exact (steps_parseBlock ih hts).mono le_rfl fun r hr => .block hr
      · rename_i ht
        refine Steps.bind (l := 0) ?_ fun _ vs _ hvs => (reads_pure _).steps hvs
        refine (steps_parseDotStatement hts (by simp [ht])).mono le_rfl ?_
        rintro r ⟨hr, name, out, vs, set, rfl, hname, hout, hrefused⟩
        exact .dotOut ht hname hout hrefused hr
      · rename_i word ht
        refine Steps.bind (l := 0) ?_ fun _ vs _ hvs => (reads_pure _).steps hvs
        exact steps_wordStatement ih hts ht
      · split
        · rename_i kind hkind
          refine Steps.bind (l := 0) ?_ fun _ vs _ hvs => (reads_pure _).steps hvs
          refine (steps_parseRecurseOp hts fun ht => ?_).mono le_rfl fun _ h => h.elim
          rw [recurseOp?, ht] at hkind
          cases hkind
        · exact (reads_error _).steps hts
    · intro ts r hts hrefused
      obtain ⟨t, us, rfl⟩ := hts.cons
      rw [parseStatement, run_current]
      rcases hrefused.front with
        ⟨word, ht⟩ | ⟨ht, hblock⟩ | ⟨ht, rfl, name, out, vs, set, rfl, hname, hout, hrefused⟩
      · simp only [ht]
        exact bind_error (error_wordStatement ih hts ht hrefused)
      · simp only [ht]
        exact bind_error (error_parseBlock ih hts hblock)
      · simp only [ht]
        exact bind_error (error_parseDotStatement (hts.next (by simp [ht])) hname hout hrefused)

def statementPass (fl : Floats ν) (cc : CharClasses) (text : List Char) (depth : ℕ)
    (statements : List (Statement ν)) : Parser ν (List (Statement ν)) := do
  return statements ++ (← parseStatement fl cc text depth).toList

/-- What a program cannot take: a setting, or a statement after others. -/
inductive ProgramRefused (fl : Floats ν) (cc : CharClasses) (text : List Char)
    (depth : ℕ) (r : Raised) (ts : List (Token ν)) : Prop
  | settings (hrefused : SettingsRefused fl ts) (hr : r = .overflowError)
  | statement {settings : Settings ν} {statements : List (Statement ν)} {t : Token ν}
    {us vs : List (Token ν)}
      (hsettings : parseSettings fl ts = .ok (settings, us))
      (hpasses : Passes (fun _ t => !isEof t) (statementPass fl cc text depth)
        [] us statements (t :: vs))
      (hend : t.tok ≠ .eof) (hrefused : StatementRefused fl cc text depth r (t :: vs))

lemma progress_statement {depth : ℕ} : Progress all (fun _ t => !isEof t)
    (statementPass fl cc text depth) fun _ ts r => StatementRefused fl cc text depth r ts := by
  intro statements ts hts _
  exact Steps.bind (l := 0) ((follows_parseStatement depth).steps hts) fun _ us _ hus =>
    (reads_pure _).steps hus

/-- **A program raises what the rules say.** -/
theorem steps_parseProgram {depth : ℕ} (hts : Left all ts) :
    Steps all (parseProgram fl cc text depth) ts 0 fun r =>
      ProgramRefused fl cc text depth r ts := by
  refine Steps.bind (k := 0) (l := 0) ?_ fun settings us hsettings hus => ?_
  · exact (steps_parseSettings hts).mono le_rfl fun r ⟨hr, hrefused⟩ => .settings hrefused hr
  refine Steps.bind (k := 0) (l := 0) ?_ fun statements vs _ hvs => (reads_pure _).steps hvs
  refine (steps_whileLoop progress_statement hus).mono le_rfl ?_
  rintro r ⟨statements, vs, hpasses, hvs, hopen, hrefused⟩
  obtain ⟨t, vs, rfl⟩ := hvs.cons
  refine .statement hsettings hpasses (fun ht => ?_) hrefused
  have heof : isEof (currentOf (t :: vs)) = true := isEof_iff.mpr ht
  rw [heof] at hopen
  cases hopen

theorem error_parseProgram {depth : ℕ} (hts : Left all ts)
    (h : ProgramRefused fl cc text depth r ts) : parseProgram fl cc text depth ts = .error r := by
  cases h with
  | settings hrefused hr => exact hr ▸ bind_error (error_parseSettings hts hrefused)
  | @statement settings statements t us vs hsettings hpasses hend hrefused =>
    have hus := ((steps_parseSettings hts).ok hsettings).1
    have hvs := hpasses.left progress_statement hus
    have heof : isEof (currentOf (t :: vs)) = false :=
      Bool.eq_false_iff.mpr fun h => hend (isEof_iff.mp h)
    have hpass : statementPass fl cc text depth statements (t :: vs) = .error r :=
      bind_error ((follows_parseStatement depth).raises hvs hrefused)
    refine (bind_ok hsettings).trans (bind_error ?_)
    exact hpasses.error progress_statement hus (by rw [heof]; rfl) hpass

end Statements

end OsmParquet.QlNesting
