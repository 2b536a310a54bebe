import OsmParquet.QlSteps

/-!
The functions of the parser that raise at tokens alone.

These are the readers of words, numbers, coordinates and sources, the tag filters, and the
statements without integers and without statements inside.
-/

namespace OsmParquet.QlReaders

open OsmParquet.Scanning OsmParquet.QlLexer OsmParquet.QlParser OsmParquet.Outcomes
  OsmParquet.QlSteps

variable {ν α β σ : Type} {all ts us : List (Token ν)} {t : Token ν} {fl : Floats ν}
  {cc : CharClasses} {text : List Char}

/-! ### Words and numbers -/

lemma ne_eof_of_isBareGlue (h : isBareGlue t = true) : t.tok ≠ .eof := by
  intro ht
  simp [isBareGlue, isIdent, isNumber, isSym, ht] at h

lemma ne_eof_of_isSym {s : Sym} (h : isSym s t = true) : t.tok ≠ .eof := by
  rw [isSym_iff.mp h]
  simp

/-- A pass that begins with a token that is not the end. -/
lemma progress_advance {cond : σ → Token ν → Bool} {body : σ → Token ν → Parser ν σ}
    (hcond : ∀ x t, cond x t = true → t.tok ≠ .eof) (hbody : ∀ x t, Reads all 0 (body x t)) :
    Progress all cond (fun x => advance >>= body x) fun _ _ _ => False := by
  intro x ts hts h
  obtain ⟨t, us, rfl⟩ := hts.cons
  exact steps_advance hts (hcond x t h) fun hus => (hbody x t).steps hus

lemma reads_parseBareOrString : Reads all 1 (parseBareOrString : Parser ν Text) := by
  intro ts hts
  obtain ⟨t, us, rfl⟩ := hts.cons
  refine steps_current ?_
  split
  · rename_i value ht
    exact steps_advance hts (by simp [ht]) fun hus => (reads_pure _).steps hus
  · split
    · rename_i hglue
      refine Steps.bind (l := 0) (steps_whileLoop_pos
        (progress_advance ?_ fun _ _ => reads_pure _) hts ?_)
        fun _ us _ hus => (reads_pure _).steps hus
      · intro x t h
        simp only [Bool.and_eq_true] at h
        exact ne_eof_of_isBareGlue h.1
      · have hcurrent : currentOf (t :: us) = t := rfl
        simp [hcurrent, hglue]
    · exact (reads_errorGot _).steps hts

lemma reads_parseSignedNumber : Reads all 0 (parseSignedNumber fl) := by
  refine reads_current.after fun t => ?_
  split
  · refine reads_advance.after fun _ => reads_current.after fun u => ?_
    split
    · split
      · exact reads_advance.bind fun _ => reads_pure _
      · exact reads_error _
    · exact reads_error _
  · exact reads_advance.bind fun _ => reads_pure _
  · exact reads_errorGot _

lemma reads_parseMore {item : Parser ν α} (hitem : Reads all 0 item) :
    Reads all 0 (parseMore item) :=
  reads_whileLoop (progress_advance (fun _ _ => ne_eof_of_isSym) fun _ _ =>
    hitem.bind fun _ => reads_pure _)

lemma reads_parseNumberList : Reads all 0 (parseNumberList fl) :=
  reads_parseSignedNumber.bind fun _ => (reads_parseMore reads_parseSignedNumber).bind
    fun _ => reads_pure _

/-! ### Sources and sets -/

lemma reads_captureUntilMatchingRparen :
    Reads all 0 (captureUntilMatchingRparen cc text : Parser ν (List Char)) := by
  refine reads_current.after fun t => (reads_whileLoop ?_).bind fun _ => reads_pure _
  intro x ts hts _
  obtain ⟨t, us, rfl⟩ := hts.cons
  refine steps_atEnd (fun _ => (reads_error _).steps hts) fun ht => ?_
  exact steps_advance hts ht fun hus => (reads_pure _).steps hus

lemma reads_parseOutputSet : Reads all 0 (parseOutputSet : Parser ν String) := by
  refine (reads_check _).after fun b => ?_
  split
  · exact reads_advance.after fun _ => (reads_expect _).quiet.after fun _ =>
      reads_expectIdentText.quiet
  · exact reads_pure _

lemma reads_parseDotName : Reads all 0 (parseDotName : Parser ν (Option String)) := by
  refine (reads_check _).after fun b => ?_
  split
  · exact reads_advance.after fun _ => reads_expectIdentText.quiet.bind fun _ => reads_pure _
  · exact reads_pure _

lemma reads_parseEnd : Reads all 1 (parseEnd : Parser ν String) :=
  reads_parseOutputSet.after fun _ => (reads_expect _).bind fun _ => reads_pure _

lemma reads_parseSecond : Reads all 0 (parseSecond : Parser ν (Option Text)) := by
  refine (reads_check _).after fun b => ?_
  split
  · exact reads_advance.after fun _ => reads_parseBareOrString.quiet.bind fun _ => reads_pure _
  · exact reads_pure _

/-! ### Settings -/

lemma reads_parseCsvField : Reads all 1 (parseCsvField : Parser ν Text) := by
  intro ts hts
  obtain ⟨t, us, rfl⟩ := hts.cons
  refine steps_current ?_
  have hpeek : peek (t :: us) = .ok (currentOf (advanceOf (t :: us)), t :: us) := rfl
  refine .congr (bind_ok hpeek) ?_
  split
  · rename_i h
    simp only [Bool.and_eq_true] at h
    refine steps_advance hts (ne_eof_of_isSym h.1) fun hus => Reads.steps ?_ hus
    exact reads_advance.after fun _ => reads_expectIdentText.quiet.bind fun _ => reads_pure _
  · exact reads_parseBareOrString.steps hts

lemma reads_parseCsv (settings : Settings ν) : Reads all 1 (parseCsv settings) := by
  have hfields : Reads all 0 (whileLoop (fun _ t => !isCsvEnd t) (fun fields => do
      let f ← parseCsvField
      let t ← current
      if isSym .comma t then
        let _ ← advance
        return fields ++ [f]
      else if isCsvEnd t then return fields ++ [f]
      else error "expected ',' in csv field list") [] : Parser ν (List Text)) := by
    refine reads_whileLoop fun fields ts hts _ => Reads.steps ?_ hts
    refine reads_parseCsvField.bind fun f => reads_current.after fun t => ?_
    split
    · exact reads_advance.bind fun _ => reads_pure _
    split
    · exact reads_pure _
    · exact reads_error _
  have hend : ∀ settings : Settings ν, Reads all 0 (do expect .rparen; return settings) :=
    fun _ => (reads_expect _).quiet.bind fun _ => reads_pure _
  refine (reads_expect _).bind fun _ => hfields.after fun fields =>
    (reads_check _).after fun b => ?_
  dsimp only
  split
  · refine reads_advance.after fun _ => reads_checkIdent.after fun b => ?_
    split
    · refine reads_expectIdentText.quiet.after fun _ => (reads_pure _).after fun _ =>
        (reads_check _).after fun b => ?_
      split
      · exact reads_advance.after fun _ => reads_parseBareOrString.quiet.after fun _ =>
          (reads_pure _).after hend
      · exact (reads_pure _).after hend
    · refine (reads_pure _).after fun _ => (reads_check _).after fun b => ?_
      split
      · exact reads_advance.after fun _ => reads_parseBareOrString.quiet.after fun _ =>
          (reads_pure _).after hend
      · exact (reads_pure _).after hend
  · exact (reads_pure _).after hend

lemma reads_parseBbox (message : String) : Reads all 0 (parseBbox fl message) := by
  refine reads_parseNumberList.bind fun nums => ?_
  split
  · exact reads_pure _
  · exact reads_error _

/-! ### Filters -/

lemma reads_parseOptionalIFlag : Reads all 0 (parseOptionalIFlag : Parser ν Bool) := by
  refine (reads_check _).after fun b => ?_
  split
  · refine reads_advance.after fun _ => reads_expectIdentText.quiet.after fun flag => ?_
    split
    · exact reads_error _
    · exact reads_pure _
  · exact reads_pure _

lemma reads_parseTagFilter : Reads all 1 (parseTagFilter : Parser ν TagFilter) := by
  refine (reads_expect _).bind fun _ => (reads_check _).after fun b => ?_
  split
  · exact reads_advance.after fun _ => reads_parseBareOrString.quiet.after fun _ =>
      (reads_expect _).quiet.bind fun _ => reads_pure _
  refine (reads_check _).after fun b => ?_
  split
  · exact reads_advance.after fun _ => reads_parseBareOrString.quiet.after fun _ =>
      (reads_expect _).quiet.after fun _ => reads_parseBareOrString.quiet.after fun _ =>
        reads_parseOptionalIFlag.after fun _ => (reads_expect _).quiet.bind fun _ => reads_pure _
  refine reads_parseBareOrString.quiet.after fun _ => (reads_check _).after fun b => ?_
  split
  · exact reads_advance.bind fun _ => reads_pure _
  refine reads_current.after fun t => ?_
  split
  · exact reads_errorGot _
  · exact reads_advance.after fun _ => reads_parseBareOrString.quiet.after fun _ =>
      reads_parseOptionalIFlag.after fun _ => (reads_expect _).quiet.bind fun _ => reads_pure _

lemma reads_parseAround : Reads all 0 (parseAround fl) := by
  refine reads_parseDotName.after fun _ => (reads_expect _).quiet.after fun _ =>
    reads_parseSignedNumber.after fun _ => (reads_parseMore reads_parseSignedNumber).after
      fun nums => ?_
  split
  · exact reads_pure _
  split
  · exact reads_error _
  · exact reads_pure _

lemma reads_parseRecurseFilter (kind : RecurseKind) :
    Reads all 0 (parseRecurseFilter kind : Parser ν (QlParser.Filter ν)) := by
  refine reads_parseDotName.after fun _ => (reads_check _).after fun b => ?_
  split
  · exact reads_advance.after fun _ => reads_parseBareOrString.quiet.bind fun _ => reads_pure _
  · exact reads_pure _

/-! ### Statements -/

lemma reads_parseRecurseOp (kind : RecurseOp) (inputSet : String) :
    Reads all 0 (parseRecurseOp kind inputSet : Parser ν (Statement ν)) :=
  reads_advance.after fun _ => reads_parseEnd.quiet.bind fun _ => reads_pure _

lemma reads_parseIsIn (inputSet : String) : Reads all 0 (parseIsIn fl inputSet) := by
  refine (reads_check _).after fun b => ?_
  dsimp only
  split
  · exact reads_advance.after fun _ => reads_parseSignedNumber.after fun _ =>
      (reads_expect _).quiet.after fun _ =>
      reads_parseSignedNumber.after fun _ => (reads_expect _).quiet.after fun _ =>
        (reads_pure _).after fun _ =>
        reads_parseEnd.quiet.bind fun _ => reads_pure _
  · exact (reads_pure _).after fun _ => reads_parseEnd.quiet.bind fun _ => reads_pure _

lemma reads_parseMapToArea (inputSet : String) :
    Reads all 0 (parseMapToArea inputSet : Parser ν (Statement ν)) :=
  reads_parseEnd.quiet.bind fun _ => reads_pure _

/-- The word after `out` is read, unless it is unknown. -/
lemma steps_parseOutModifier {word : String} {out : Out ν} (hts : Left all (t :: us))
    (ht : t.tok ≠ .eof) : Steps all (parseOutModifier fl word out) (t :: us) 1 fun _ => False := by
  have hpass : ∀ out : Out ν, Steps all (do let _ ← advance; return out)
      (t :: us) 1 fun _ => False :=
    fun _ => steps_advance hts ht fun hus => (reads_pure _).steps hus
  rw [parseOutModifier.eq_def]
  split
  · exact hpass _
  split
  · exact hpass _
  · refine steps_advance hts ht fun hus => Reads.steps ((reads_check _).after fun b => ?_) hus
    split
    · exact reads_advance.after fun _ => (reads_parseBbox _).after fun _ =>
        (reads_expect _).quiet.bind fun _ =>
        reads_pure _
    · exact reads_pure _
  · exact hpass _
  · exact hpass _
  · exact hpass _
  · exact hpass _
  · exact hpass _
  · exact (reads_error _).steps hts

/-! ### Statements that are kept as they are written -/

lemma progress_toEnd {cond : σ → Token ν → Bool} {message : String} {next : σ → Token ν → σ} :
    Progress all cond (fun x => do
      if ← atEnd then error message
      else
        let t ← advance
        return next x t) fun _ _ _ => False := by
  intro x ts hts _
  obtain ⟨t, us, rfl⟩ := hts.cons
  refine steps_atEnd (fun _ => (reads_error _).steps hts) fun ht => ?_
  exact steps_advance hts ht fun hus => (reads_pure _).steps hus

/-- The statement is read from its keyword on. -/
lemma steps_parseUnsupportedBlock {keyword : String} (hts : Left all (t :: us))
    (ht : t.tok ≠ .eof) :
    Steps all (parseUnsupportedBlock cc text keyword : Parser ν (Statement ν))
      (t :: us) 1 fun _ => False := by
  refine steps_advance hts ht fun hus => Reads.steps ?_ hus
  refine (reads_whileLoop progress_toEnd).after fun _ => reads_advance.after fun brace =>
    (reads_whileLoop progress_toEnd).after fun x => (reads_check _).after fun b => ?_
  split
  · exact reads_advance.bind fun _ => reads_pure _
  · exact reads_pure _

lemma steps_parseUnsupportedSimple {keyword : String} (hts : Left all (t :: us))
    (ht : t.tok ≠ .eof) :
    Steps all (parseUnsupportedSimple cc text keyword : Parser ν (Statement ν))
      (t :: us) 1 fun _ => False := by
  refine steps_advance hts ht fun hus => Reads.steps ?_ hus
  exact (reads_whileLoop progress_toEnd).after fun _ => reads_advance.bind fun _ => reads_pure _

lemma reads_parseCondition : Reads all 0 (parseCondition cc text : Parser ν (List Char)) :=
  (reads_expect _).quiet.after fun _ => reads_captureUntilMatchingRparen.after fun _ =>
    (reads_expect _).quiet.bind fun _ => reads_pure _

end OsmParquet.QlReaders
