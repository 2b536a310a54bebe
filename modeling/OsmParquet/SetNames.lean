import OsmParquet.ProgramMeaning

/-!
The sets that the statements of a program name.

What a statement reads depends on the sets it names and on no other set.
-/

namespace OsmParquet.SetNames

open OsmParquet.StatementReads OsmParquet.Statements OsmParquet.ProgramMeaning
open OsmParquet.QlParser (Bbox Statement Program Query)

variable {F γ : Type}

/-! ### Induction over statements -/

section Induction

variable {P : Statement F → Prop}

/-- A property of statements that those inside of a statement hand on to it. -/
structure Inherits (P : Statement F → Prop) : Prop where
  query : ∀ q, P (.query q)
  union : ∀ ss o, (∀ s ∈ ss, P s) → P (.union ss o)
  difference : ∀ a b o, P a → P b → P (.difference a b o)
  recurse : ∀ kind i o, P (.recurse kind i o)
  item : ∀ i o, P (.item i o)
  isIn : ∀ i o coords, P (.isIn i o coords)
  mapToArea : ∀ i o, P (.mapToArea i o)
  out : ∀ o, P (.out o)
  foreach : ∀ i o body, (∀ s ∈ body, P s) → P (.foreach i o body)
  if' : ∀ c then' otherwise, (∀ s ∈ then', P s) →
    (∀ s ∈ otherwise, P s) → P (.if' c then' otherwise)
  retro : ∀ t body, (∀ s ∈ body, P s) → P (.retro t body)
  timeline : ∀ t i v o, P (.timeline t i v o)
  unsupported : ∀ k source, P (.unsupported k source)

mutual

lemma Inherits.holds (h : Inherits P) : ∀ s, P s
  | .query q => h.query q
  | .union ss o => h.union ss o (h.holdsAll ss)
  | .difference a b o => h.difference a b o (h.holds a) (h.holds b)
  | .recurse kind i o => h.recurse kind i o
  | .item i o => h.item i o
  | .isIn i o coords => h.isIn i o coords
  | .mapToArea i o => h.mapToArea i o
  | .out o => h.out o
  | .foreach i o body => h.foreach i o body (h.holdsAll body)
  | .if' c then' otherwise => h.if' c then' otherwise (h.holdsAll then') (h.holdsAll otherwise)
  | .retro t body => h.retro t body (h.holdsAll body)
  | .timeline t i v o => h.timeline t i v o
  | .unsupported k source => h.unsupported k source

lemma Inherits.holdsAll (h : Inherits P) : ∀ ss : List (Statement F), ∀ s ∈ ss, P s
  | [] => fun _ hs => absurd hs List.not_mem_nil
  | s :: ss => fun x hx =>
    (List.mem_cons.mp hx).elim (fun hxs => hxs ▸ h.holds s) (h.holdsAll ss x)

end

end Induction

/-! ### Names -/

/-- The sets that a filter reads for its box and its condition. -/
def filterReads : QlParser.Filter F → List String
  | .around _ setName coords => (aroundSet setName coords).toList
  | .area setName areaId => if areaId.isNone then [setName.getD "_"] else []
  | .pivot setName => [setName]
  | _ => []

def queryReads (q : Query F) : List String :=
  if .area ∈ q.types then q.inputSets
  else q.filters.flatMap filterReads ++
    (recurseFilterFor q).elim q.inputSets fun f => [f.2.1]

def exprReads : Evaluator.Expr SqlValues.Number → List String
  | .setCount _ | .aggregate _ _ => ["_"]
  | .namedSetCount name _ => [name]
  | .unary _ e => exprReads e
  | .binOp _ left right => exprReads left ++ exprReads right
  | .ternary cond then' otherwise => exprReads cond ++ exprReads then' ++ exprReads otherwise
  | _ => []

def conditionReads (D : Dataset F γ) (source : List Char) : List String :=
  match Evaluator.parse D.cc D.number source with
  | .ok e => exprReads e
  | .error _ => []

def timeReads (D : Dataset F γ) (timeExpr : List Char) : List String :=
  if (quoted (QlParser.strip D.cc timeExpr)).isSome then [] else conditionReads D timeExpr

mutual

/-- The sets that a statement and those inside of it read or write. -/
def names (D : Dataset F γ) : Statement F → List String
  | .query q => q.outputSet :: queryReads q
  | .union ss o => o :: allNames D ss
  | .difference a b o => o :: (names D a ++ names D b)
  | .recurse _ i o | .item i o | .isIn i o _ | .mapToArea i o => [i, o]
  | .out o => [o.inputSet]
  | .foreach i o body => i :: o :: allNames D body
  | .if' c then' otherwise => conditionReads D c ++ (allNames D then' ++ allNames D otherwise)
  | .retro t body => timeReads D t ++ allNames D body
  | .timeline _ _ _ o => [o]
  | .unsupported _ _ => []

def allNames (D : Dataset F γ) : List (Statement F) → List String
  | [] => []
  | s :: ss => names D s ++ allNames D ss

end

lemma names_subset_allNames {D : Dataset F γ} {s : Statement F} {ss : List (Statement F)}
    (hs : s ∈ ss) : names D s ⊆ allNames D ss := by
  induction ss with
  | nil => cases hs
  | cons x ss ih =>
    intro n hn
    rw [allNames]
    rcases List.mem_cons.mp hs with rfl | hs
    · exact List.mem_append_left _ hn
    · exact List.mem_append_right _ (ih hs hn)

lemma outputSetName_ok {s : Statement F} {o : String} :
    outputSetName s = .ok o ↔ outputSet? s = some o := by
  rw [outputSetName]
  cases outputSet? s <;> simp

lemma output_mem_names {D : Dataset F γ} {s : Statement F} {o : String}
    (h : outputSet? s = some o) : o ∈ names D s := by
  cases s <;> simp_all [outputSet?, names]

/-! ### What a statement reads -/

section Congruence

variable {D : Dataset F γ} {globalBbox : Option (Bbox F)} {sets sets' : Sets F} {time : Option ℤ}

lemma requireSet_congr {name : String} (h : sets name = sets' name) :
    (requireSet sets name : Reading γ (Rows F)) = requireSet sets' name := by
  rw [requireSet, requireSet, h]

lemma areaGeom_congr {setName : Option String} {areaId : Option ℤ}
    (h : ∀ n ∈ filterReads (QlParser.Filter.area setName areaId : QlParser.Filter F), sets
      n = sets' n) :
    areaGeom D sets time (setName, areaId) = areaGeom D sets' time (setName, areaId) := by
  have htable : areaPolygonTable D sets time (setName, areaId) = areaPolygonTable D sets' time
      (setName, areaId) := by
    cases areaId with
    | some id => rfl
    | none =>
      simp only [areaPolygonTable, requireSet_congr (h (setName.getD "_") (by simp [filterReads]))]
  rw [areaGeom, areaGeom, htable]

lemma impliedBbox_congr {f : QlParser.Filter F} (h : ∀ n ∈ filterReads f, sets n = sets' n) :
    impliedBbox D sets time f = impliedBbox D sets' time f := by
  cases f with
  | around radius setName coords =>
    rw [impliedBbox, impliedBbox]
    cases hset : aroundSet setName coords with
    | none => rfl
    | some name => simp only [requireSet_congr (h name (by simp [filterReads, hset]))]
  | area setName areaId => simp only [impliedBbox, areaGeom_congr h]
  | pivot setName => simp only [impliedBbox, requireSet_congr (h setName (by simp [filterReads]))]
  | _ => rfl

lemma filterInput_congr {f : QlParser.Filter F} (h : ∀ n ∈ filterReads f, sets n = sets' n) :
    filterInput D sets time f = filterInput D sets' time f := by
  cases f with
  | around radius setName coords =>
    rw [filterInput, filterInput]
    cases hset : aroundSet setName coords with
    | none => rfl
    | some name => simp only [requireSet_congr (h name (by simp [filterReads, hset]))]
  | area setName areaId => simp only [filterInput, areaGeom_congr h]
  | pivot setName => simp only [filterInput, requireSet_congr (h setName (by simp [filterReads]))]
  | _ => rfl

lemma effectiveBbox_congr {q : Query F} (h : ∀ n ∈
    q.filters.flatMap filterReads, sets n = sets' n) :
    effectiveBbox D globalBbox sets time q = effectiveBbox D globalBbox sets' time q := by
  rw [effectiveBbox, effectiveBbox]
  generalize bboxFor globalBbox q = box
  generalize q.filters = fs at h ⊢
  induction fs generalizing box with
  | nil => rfl
  | cons f fs ih =>
    have hf : impliedBbox D sets time f = impliedBbox D sets' time f :=
      impliedBbox_congr fun n hn => h n (by simp [hn])
    have hfs := fun box => ih box fun n hn => h n (List.mem_append_right _ hn)
    simp only [List.foldlM_cons, hf, hfs]

lemma hookPredicates_congr {q : Query F} {base : Rows F} {fs : List (QlParser.Filter F)}
    (h : ∀ n ∈ fs.flatMap filterReads, sets n = sets' n) :
    hookPredicates D globalBbox sets time q base fs =
      hookPredicates D globalBbox sets' time q base fs := by
  induction fs with
  | nil => rfl
  | cons f fs ih =>
    have hf : filterInput D sets time f = filterInput D sets' time f :=
      filterInput_congr fun n hn => h n (by simp [hn])
    have hfs := ih fun n hn => h n (List.mem_append_right _ hn)
    simp only [hookPredicates, hf, hfs]

lemma mapM_requireSet_congr {names : List String} (h : ∀ n ∈ names, sets n = sets' n) :
    (names.mapM (requireSet sets) : Reading γ (List (Rows F))) = names.mapM (requireSet sets') := by
  induction names with
  | nil => rfl
  | cons n names ih =>
    simp only [List.mapM_cons, requireSet_congr (h n (by simp)), ih fun m hm => h m (by simp [hm])]

lemma baseSelect_congr {q : Query F} {bbox : Option (Bbox F)}
    (h : ∀ n ∈ (recurseFilterFor q).elim q.inputSets fun f => [f.2.1], sets n = sets' n) :
    baseSelect D sets time q bbox = baseSelect D sets' time q bbox := by
  rw [baseSelect, baseSelect]
  rcases hf : recurseFilterFor q with _ | ⟨kind, name, role⟩
  · have hin : ∀ n ∈ q.inputSets, sets n = sets' n := by simpa [hf] using h
    simp only [mapM_requireSet_congr hin]
  · rw [hf] at h
    simp only [requireSet_congr (h name (by simp))]

lemma queryRows_congr {q : Query F} (h : ∀ n ∈ queryReads q, sets n = sets' n) :
    queryRows D globalBbox sets time q = queryRows D globalBbox sets' time q := by
  unfold queryReads at h
  rw [queryRows, queryRows]
  by_cases harea : QlParser.ElementType.area ∈ q.types
  · rw [if_pos harea] at h
    rw [if_pos harea, if_pos harea, areaQueryRows, areaQueryRows]
    simp only [mapM_requireSet_congr h]
  · rw [if_neg harea] at h
    have hf : ∀ n ∈ q.filters.flatMap filterReads, sets n = sets' n := fun n hn =>
      h n (List.mem_append_left _ hn)
    have hb : ∀ bbox, baseSelect D sets time q bbox = baseSelect D sets' time q bbox := fun _ =>
      baseSelect_congr fun n hn => h n (List.mem_append_right _ hn)
    simp only [if_neg harea, effectiveBbox_congr hf, hb, hookPredicates_congr hf]

lemma querySet_congr {e : Evaluator.Expr SqlValues.Number}
    (h : ∀ n ∈ exprReads e, sets n = sets' n) :
    EvalSql.evaluateSet D.py (querySet D sets) e = EvalSql.evaluateSet D.py
      (querySet D sets') e := by
  fun_induction exprReads e with
  | case1 t => simp only [EvalSql.evaluateSet, querySet, requireSetTable, h "_" (by simp)]
  | case2 f e => simp only [EvalSql.evaluateSet, querySet, requireSetTable, h "_" (by simp)]
  | case3 name t => simp only [EvalSql.evaluateSet, querySet, requireSetTable, h name (by simp)]
  | case4 op e ih => cases op <;> simp only [EvalSql.evaluateSet, ih h]
  | case5 op left right ih₁ ih₂ =>
    simp only [EvalSql.evaluateSet, ih₁ fun n hn => h n (by simp [hn]),
      ih₂ fun n hn => h n (by simp [hn])]
  | case6 cond then' otherwise ih₁ ih₂ ih₃ =>
    simp only [EvalSql.evaluateSet, ih₁ fun n hn => h n (by simp [hn]),
      ih₂ fun n hn => h n (by simp [hn]), ih₃ fun n hn => h n (by simp [hn])]
  | case7 e => cases e <;> simp_all [EvalSql.evaluateSet]

lemma evaluateText_congr {source : List Char}
    (h : ∀ n ∈ conditionReads D source, sets n = sets' n) :
    evaluateText D sets source = evaluateText D sets' source := by
  unfold conditionReads at h
  rw [evaluateText, evaluateText]
  cases hparse : Evaluator.parse D.cc D.number source with
  | error e => rfl
  | ok e =>
    rw [hparse] at h
    simp only [querySet_congr h]

lemma evaluateRetroTime_congr {timeExpr : List Char}
    (h : ∀ n ∈ timeReads D timeExpr, sets n = sets' n) :
    evaluateRetroTime D sets timeExpr = evaluateRetroTime D sets' timeExpr := by
  unfold timeReads at h
  rw [evaluateRetroTime, evaluateRetroTime]
  cases hq : quoted (QlParser.strip D.cc timeExpr) with
  | some value => rfl
  | none =>
    rw [hq] at h
    simp only [evaluateText_congr h]

lemma executeRecurseRows_congr {kind : QlParser.RecurseOp} {i : String} (h : sets i = sets' i) :
    executeRecurseRows D sets time kind i = executeRecurseRows D sets' time kind i := by
  simp only [executeRecurseRows, requireSet_congr h]

lemma isInRows_congr {i : String} {coords : Option (F × F)} (h : coords = none → sets i = sets' i) :
    isInRows D sets time i coords = isInRows D sets' time i coords := by
  cases coords with
  | some p => rfl
  | none => simp only [isInRows, requireSet_congr (h rfl)]

lemma mapToAreaRows_congr {i : String} (h : sets i = sets' i) :
    mapToAreaRows D sets i = mapToAreaRows D sets' i := by
  simp only [mapToAreaRows, requireSet_congr h]

lemma outElements_congr {mode : Mode F} {o : QlParser.Out F}
    (h : sets o.inputSet = sets' o.inputSet) :
    outElements D mode o sets time = outElements D mode o sets' time := by
  simp only [outElements, requireSet_congr h]

end Congruence

end OsmParquet.SetNames
