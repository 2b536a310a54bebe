import OsmParquet.Programs

/-!
What a run of statements never does, however it ends.

The time that the dataset is read at is the same afterwards, also when a statement inside of a block
at another time raises. What has been printed and the warnings stay, no set disappears, and every
set has an element once.
-/

namespace OsmParquet.SteadyRuns

open OsmParquet.KeyedList OsmParquet.Elements OsmParquet.NamedTables OsmParquet.Procedures
open OsmParquet.StatementReads OsmParquet.Statements OsmParquet.SetNames OsmParquet.Programs
open OsmParquet.QlParser (Statement Program)

variable {F γ α β : Type}

/-! ### Notes -/

/-- Warnings stay, and files are counted on. -/
structure NotesGrow (n n' : Notes γ) : Prop where
  warnings : n.warnings <+: n'.warnings
  filesRead : n.filesRead ≤ n'.filesRead

instance : Std.Refl (NotesGrow (γ := γ)) := ⟨fun _ => ⟨List.prefix_rfl, le_rfl⟩⟩

lemma NotesGrow.trans {n n' n'' : Notes γ} (h : NotesGrow n n') (h' : NotesGrow n' n'') :
    NotesGrow n n'' :=
  ⟨h.warnings.trans h'.warnings, h.filesRead.trans h'.filesRead⟩

instance : IsTrans (Notes γ) NotesGrow := ⟨fun _ _ _ => NotesGrow.trans⟩

lemma prefix_addWarnings (ws : List Warning) (warnings : List QlLexer.Text) :
    warnings <+: ws.foldl addWarning warnings := by
  induction ws generalizing warnings with
  | nil => exact List.prefix_rfl
  | cons w ws ih =>
    refine List.IsPrefix.trans ?_ (ih (addWarning warnings w))
    rw [addWarning]
    split_ifs
    · exact List.prefix_rfl
    · exact List.prefix_append _ _

section Reading

variable {D : Dataset F γ} {mode : Mode F} {globalBbox : Option (QlParser.Bbox F)} {sets : Sets F}
  {time : Option ℤ} {n : Notes γ}

lemma warn_grows {ws : List Warning} : NotesGrow n (n.warn ws) :=
  ⟨prefix_addWarnings ws n.warnings, le_rfl⟩

lemma note_grows {filesRead : ℕ} {ws : List Warning} : Along NotesGrow (note filesRead ws) n :=
  .update ⟨prefix_addWarnings ws n.warnings, Nat.le_add_right _ _⟩

lemma reply_grows {r : Reply F} : Along NotesGrow (reply r) n :=
  .bind note_grows fun _ _ _ _ => .pure

lemma lift_grows {x : Except Raised α} : Along NotesGrow (lift x) n := by
  cases x with
  | ok a => exact .pure
  | error e => exact .throw

lemma requireSet_grows {name : String} : Along NotesGrow (requireSet sets name) n := by
  rw [requireSet]
  cases sets name with
  | some rows => exact .pure
  | none => exact .throw

lemma areaPolygonTable_grows {ref : AreaRef} :
    Along NotesGrow (areaPolygonTable D sets time ref) n := by
  rw [areaPolygonTable]
  cases ref.2 with
  | some id => exact .pure
  | none => exact .map requireSet_grows

lemma areaGeom_grows {ref : AreaRef} : Along NotesGrow (areaGeom D sets time ref) n := by
  refine .bind .read fun kept n' _ _ => ?_
  cases lookup Prod.fst ref kept.areaPolygons with
  | some x => exact .pure
  | none =>
    refine .bind areaPolygonTable_grows fun _ _ _ _ => .bind note_grows fun _ _ _ _ =>
      .bind (.update ?_) fun _ _ _ _ => .pure
    exact ⟨List.prefix_rfl, le_rfl⟩

lemma impliedBbox_grows {f : QlParser.Filter F} :
    Along NotesGrow (impliedBbox D sets time f) n := by
  cases f with
  | around radius setName coords =>
    rw [impliedBbox]
    cases aroundSet setName coords with
    | none => exact .pure
    | some name => exact .bind requireSet_grows fun _ _ _ _ => .pure
  | area setName areaId =>
    rw [impliedBbox]
    split_ifs
    · exact .bind note_grows fun _ _ _ _ => .bind areaGeom_grows fun _ _ _ _ => .pure
    · exact .bind areaGeom_grows fun _ _ _ _ => .pure
  | pivot setName => exact .bind requireSet_grows fun _ _ _ _ => .pure
  | _ => exact .pure

lemma filterInput_grows {f : QlParser.Filter F} :
    Along NotesGrow (filterInput D sets time f) n := by
  cases f with
  | around radius setName coords =>
    rw [filterInput]
    cases aroundSet setName coords with
    | none => exact .pure
    | some name => exact .map requireSet_grows
  | area setName areaId => exact .map areaGeom_grows
  | pivot setName => exact .map requireSet_grows
  | _ => exact .pure

lemma hookPredicates_grows {q : QlParser.Query F} {base : Rows F} {fs : List (QlParser.Filter F)} :
    Along NotesGrow (hookPredicates D globalBbox sets time q base fs) n := by
  induction fs generalizing n with
  | nil => exact .pure
  | cons f fs ih =>
    rw [hookPredicates]
    split_ifs
    · exact .bind filterInput_grows fun _ _ _ _ => .bind lift_grows fun _ _ _ _ => .bind note_grows
        fun _ _ _ _ => .bind ih fun _ _ _ _ => .pure
    · exact ih

lemma baseSelect_grows {q : QlParser.Query F} {bbox : Option (QlParser.Bbox F)} :
    Along NotesGrow (baseSelect D sets time q bbox) n := by
  rw [baseSelect]
  rcases recurseFilterFor q with _ | ⟨kind, name, role⟩
  · dsimp only
    split_ifs
    · exact .bind (.mapM fun _ _ => requireSet_grows) fun _ _ _ _ => .pure
    · exact .bind note_grows fun _ _ _ _ => .bind lift_grows fun _ _ _ _ => reply_grows
    · exact .bind lift_grows fun _ _ _ _ => reply_grows
  · exact .bind requireSet_grows fun _ _ _ _ => .bind lift_grows fun _ _ _ _ => reply_grows

lemma areaQueryRows_grows {q : QlParser.Query F} :
    Along NotesGrow (areaQueryRows D sets time q) n := by
  rw [areaQueryRows]
  by_cases havailable : (!D.areasAvailable) = true
  · rw [if_pos havailable]
    exact .bind note_grows fun _ _ _ _ => .pure
  · rw [if_neg havailable]
    cases q.filters.findSome? areaRefused with
    | some e => exact .throw
    | none =>
      dsimp only
      split_ifs
      · exact .bind (.mapM fun _ _ => requireSet_grows) fun _ _ _ _ => .pure
      · exact reply_grows

lemma queryRows_grows {q : QlParser.Query F} :
    Along NotesGrow (queryRows D globalBbox sets time q) n := by
  rw [queryRows]
  split_ifs
  · exact areaQueryRows_grows
  · refine .bind (.foldlM fun box f n' => ?_) fun bbox _ _ _ => ?_
    · split_ifs
      · exact .bind impliedBbox_grows fun _ _ _ _ => .pure
      · exact .pure
    · split_ifs
      · exact .pure
      · exact .bind baseSelect_grows fun _ _ _ _ => .bind hookPredicates_grows fun _ _ _ _ => .pure

end Reading

/-! ### Statements -/

/-- Every table has an element once. -/
def Single (tables : Tables F) : Prop := ∀ t ∈ tables.tables, Distinct OutRow.key t.content

/-- What is there stays. -/
structure Steady (c c' : Context F γ) : Prop where
  snapshot : c'.snapshot = c.snapshot
  next : c.next ≤ c'.next
  notes : NotesGrow c.notes c'.notes
  elements : c.elements <+: c'.elements
  tables : ∀ k, (c.tables.find k).isSome → (c'.tables.find k).isSome
  single : Single c.tables → Single c'.tables

instance : Std.Refl (Steady (F := F) (γ := γ)) :=
  ⟨fun _ => ⟨rfl, le_rfl, refl_of NotesGrow _, List.prefix_rfl, fun _ h => h, fun h => h⟩⟩

instance : IsTrans (Context F γ) Steady := ⟨fun _ _ _ h h' => {
  snapshot := h'.snapshot.trans h.snapshot
  next := h.next.trans h'.next
  notes := trans_of NotesGrow h.notes h'.notes
  elements := h.elements.trans h'.elements
  tables := fun k hk => h'.tables k (h.tables k hk)
  single := fun hs => h'.single (h.single hs) }⟩

section Statements

variable {D : Dataset F γ} {mode : Mode F} {c c' : Context F γ} {name : String} {rows : Rows F}
  {ss : List (Statement F)}

lemma distinct_select {tables : Tables F} (hs : Single tables)
    (h : tables.select name = some rows) : Distinct OutRow.key rows := by
  obtain ⟨t, ht, rfl⟩ := Option.map_eq_some_iff.mp h
  exact hs t (mem_of_lookup ht)

lemma distinct_byTypeAndId (h : Distinct OutRow.key rows) :
    Distinct OutRow.key (byTypeAndId rows) :=
  (((List.perm_insertionSort _ rows).map OutRow.key).nodup_iff).mpr h

lemma reading_steady {m : Sets F → Option ℤ → Reading γ α}
    (h : Along NotesGrow (m (setsOf c.tables) c.snapshot) c.notes) :
    Along Steady (reading m) c := by
  refine .bind .read fun _ c' hrun _ => ?_
  cases hrun
  refine .onPart (fun notes hnotes => ?_) h
  exact ⟨rfl, le_rfl, hnotes, List.prefix_rfl, fun _ h => h, fun h => h⟩

lemma raiseFrom_steady {x : Except Raised α} : Along Steady (raiseFrom x) c := by
  cases x with
  | ok a => exact .pure
  | error e => exact .throw

lemma createOrReplace_steady (h : Single c.tables → Distinct OutRow.key rows) :
    Along Steady (createOrReplace name rows) c := by
  refine .update ⟨rfl, le_rfl, refl_of NotesGrow _, List.prefix_rfl, fun k hk => ?_,
    fun hs t ht => ?_⟩
  · show ((c.tables.replace name rows).find k).isSome
    rw [Catalog.find_replace]
    split_ifs
    · rfl
    · exact hk
  · rcases Catalog.mem_replace ht with rfl | ht
    · exact h hs
    · exact hs t ht

lemma materialize_steady (hD : ∀ rows, Distinct OutRow.key (D.distinct rows)) :
    Along Steady (materialize D name rows) c := createOrReplace_steady fun _ => hD rows

lemma selectFrom_steady : Along Steady (selectFrom name) c := by
  cases h : c.tables.select name with
  | some rows => exact .ok (SetTables.selectFrom_ok h) (refl_of Steady c)
  | none => exact .error (SetTables.selectFrom_error h) (refl_of Steady c)

lemma distinct_selectFrom (h : selectFrom name c = .ok rows c') (hs : Single c'.tables) :
    Distinct OutRow.key rows := by
  cases hsel : c.tables.select name with
  | some rows' =>
    rw [SetTables.selectFrom_ok hsel] at h
    cases h
    exact distinct_select hs hsel
  | none =>
    rw [SetTables.selectFrom_error hsel] at h
    cases h

lemma freshNumber_steady : Along Steady freshNumber c :=
  .ok rfl ⟨rfl, Nat.le_succ _, refl_of NotesGrow _, List.prefix_rfl, fun _ h => h, fun h => h⟩

lemma capture_steady {x : Statement F} : Along Steady (capture x) c :=
  .bind raiseFrom_steady fun _ _ _ _ => .bind freshNumber_steady fun _ _ _ _ =>
    .bind selectFrom_steady fun _ _ hrun _ =>
      .bind (createOrReplace_steady (distinct_selectFrom hrun)) fun _ _ _ _ => .pure

lemma all_steady (hss : ∀ x ∈ ss, ∀ c, Along Steady (executeStatement D mode x) c) :
    Along Steady (executeAll D mode ss) c := by
  induction ss generalizing c with
  | nil => exact .pure
  | cons x ss ih =>
    rw [executeAll]
    exact .bind (hss x (by simp) c) fun _ _ _ _ => ih fun y hy => hss y (by simp [hy])

lemma parts_steady (hss : ∀ x ∈ ss, ∀ c, Along Steady (executeStatement D mode x) c) :
    Along Steady (executeParts D mode ss) c := by
  induction ss generalizing c with
  | nil => exact .pure
  | cons x ss ih =>
    rw [executeParts]
    exact .bind (hss x (by simp) c) fun _ _ _ _ => .bind capture_steady fun _ _ _ _ =>
      .bind (ih fun y hy => hss y (by simp [hy])) fun _ _ _ _ => .pure

/-- The rows of a set that is there. -/
lemma distinct_input {i : String} (h : reading (fun sets _ => requireSet sets i) c = .ok rows c')
    (hs : Single c'.tables) : Distinct OutRow.key rows := by
  have hrun :
      (reading (fun sets _ => requireSet sets i) c : EStateM.Result Raised (Context F γ) (Rows F)) =
    onPart Context.notes (fun notes c => { c with notes }) (requireSet (setsOf c.tables) i) c := rfl
  rw [hrun, requireSet] at h
  cases hsets : setsOf c.tables i with
  | none =>
    rw [hsets] at h
    cases h
  | some rows' =>
    rw [hsets] at h
    cases h
    rw [setsOf] at hsets
    split_ifs at hsets
    exact distinct_select hs hsets

lemma foreach_steady (hD : ∀ rows, Distinct OutRow.key (D.distinct rows)) {i o : String}
    (hss : ∀ x ∈ ss, ∀ c, Along Steady (executeStatement D mode x) c) :
    Along Steady (executeStatement D mode (.foreach i o ss)) c := by
  rw [executeStatement]
  refine .bind (reading_steady requireSet_grows) fun rows c₁ hrun _ => ?_
  refine .bind freshNumber_steady fun n c₂ hfresh _ => ?_
  refine .bind (createOrReplace_steady fun hs => distinct_byTypeAndId ?_) fun _ c₃ _ _ => ?_
  · cases hfresh
    exact distinct_input hrun hs
  refine .bind selectFrom_steady fun rows c₄ _ _ => ?_
  exact .loop fun row _ c₅ _ => .bind selectFrom_steady fun _ _ _ _ => .bind (materialize_steady hD)
    fun _ _ _ _ => all_steady hss

lemma find_restoreSets {before tables : Tables F} {k : List Char} (hk : (before.find k).isSome) :
    ((restoreSets before.tables tables).find k).isSome := by
  rw [restoreSets, Catalog.find_replaceAll before.once]
  show ((before.find k).or _).isSome
  obtain ⟨t, ht⟩ := Option.isSome_iff_exists.mp hk
  rw [ht]
  rfl

lemma single_restoreSets {before tables : Tables F} (hb : Single before) (h : Single tables) :
    Single (restoreSets before.tables tables) := by
  intro t ht
  rcases Catalog.mem_replaceAll ht with ht | ht
  · exact hb t ht
  · rcases Catalog.mem_replaceAll ht with ht | ht
    · obtain ⟨u, -, rfl⟩ := List.mem_map.mp ht
      exact distinct_nil
    · exact h t ht

/-- A block at another time gives back the time and the sets, whether it ends or raises. -/
lemma retro_steady {timeExpr : List Char} (hss :
    ∀ x ∈ ss, ∀ c, Along Steady (executeStatement D mode x) c) :
    Along Steady (executeStatement D mode (.retro timeExpr ss)) c := by
  rw [executeStatement]
  by_cases hhistory : (!D.hasHistory) = true
  · rw [if_pos hhistory]
    exact .throw
  rw [if_neg hhistory]
  refine .bind .read fun _ c₁ hread _ => ?_
  cases hread
  cases htime : evaluateRetroTime D (setsOf c.tables) timeExpr with
  | error e => exact .error (bind_error (raiseFrom_error rfl)) (refl_of Steady c)
  | ok u =>
    -- The block is run at its time, on the tables as they are.
    let inside : Context F γ := { c with
      notes := c.notes.warn (historyRemark D u).toList
      next := c.next + c.tables.tables.length
      snapshot := some u }
    have hback : ∀ after, Steady inside after → Steady c { after with
        snapshot := c.snapshot, tables := restoreSets c.tables.tables after.tables } :=
          fun after h => {
      snapshot := rfl
      next := (Nat.le_add_right _ _).trans h.next
      notes := (warn_grows (n := c.notes)).trans h.notes
      elements := h.elements
      tables := fun k hk => find_restoreSets hk
      single := fun hs => single_restoreSets hs (h.single hs) }
    refine Ends.congr (bind_ok (raiseFrom_ok rfl)) ?_
    refine Ends.congr (t := inside) (n := ensure (executeAll D mode ss) _) rfl ?_
    exact (all_steady (c := inside) hss).ensure (fun _ => hback) fun _ => hback

lemma steady (hD : ∀ rows, Distinct OutRow.key (D.distinct rows)) :
    Inherits fun x => ∀ c, Along Steady (executeStatement D mode x) c where
  query q c := by
    rw [executeStatement]
    exact .bind (reading_steady queryRows_grows) fun _ _ _ _ => materialize_steady hD
  union ss o hss c := by
    rw [executeStatement]
    exact .bind (parts_steady hss) fun _ _ _ _ => .bind (.mapM fun _ _ => selectFrom_steady)
      fun _ _ _ _ => materialize_steady hD
  difference a b o ha hb c := by
    rw [executeStatement]
    exact .bind (ha c) fun _ c₁ _ _ => .bind capture_steady fun _ c₂ _ _ =>
      .bind (hb c₂) fun _ _ _ _ =>
      .bind capture_steady fun _ _ _ _ => .bind selectFrom_steady fun _ _ _ _ =>
        .bind selectFrom_steady fun _ _ _ _ => materialize_steady hD
  recurse kind i o c := by
    rw [executeStatement]
    exact .bind (reading_steady (.bind requireSet_grows fun _ _ _ _ => reply_grows))
      fun _ _ _ _ => materialize_steady hD
  item i o c := by
    rw [executeStatement]
    exact .bind (reading_steady requireSet_grows) fun _ _ _ _ => materialize_steady hD
  isIn i o coords c := by
    rw [executeStatement]
    refine .bind (reading_steady ?_) fun _ _ _ _ => materialize_steady hD
    unfold isInRows
    split_ifs
    · exact .bind note_grows fun _ _ _ _ => .pure
    · cases coords with
      | some p => exact reply_grows
      | none => exact .bind requireSet_grows fun _ _ _ _ => reply_grows
  mapToArea i o c := by
    rw [executeStatement]
    refine .bind (reading_steady (.bind requireSet_grows fun _ _ _ _ => ?_)) fun _ _ _ _ =>
      materialize_steady hD
    split_ifs
    · exact .bind note_grows fun _ _ _ _ => .pure
    · exact reply_grows
  out o c := by
    rw [executeStatement, executeOut]
    refine .bind (reading_steady (.bind requireSet_grows fun _ _ _ _ => .pure))
      fun _ _ _ _ => .update ?_
    exact ⟨rfl, le_rfl, refl_of NotesGrow _, List.prefix_append _ _, fun _ h => h, fun h => h⟩
  foreach i o body hbody c := foreach_steady hD hbody
  if' condition then' otherwise hthen helse c := by
    rw [executeStatement]
    refine .bind .read fun _ _ _ _ => .bind raiseFrom_steady fun _ _ _ _ => ?_
    split_ifs
    · exact all_steady hthen
    · exact all_steady helse
  retro t body hbody c := retro_steady hbody
  timeline e i v o c := by
    rw [executeStatement]
    refine .bind (reading_steady ?_) fun _ _ _ _ => materialize_steady hD
    rw [timelineRows]
    split_ifs
    · exact .throw
    · exact .pure
  unsupported k source c := by
    rw [executeStatement]
    exact .throw

end Statements

/-- **A statement leaves the time as it was and takes nothing back**, also when it raises. -/
theorem executeStatement_steady (D : Dataset F γ)
    (hD : ∀ rows, Distinct OutRow.key (D.distinct rows)) (mode : Mode F)
    (x : Statement F) (c : Context F γ) :
    Ends (executeStatement D mode x) c (fun _ c' => Steady c c') fun _ c' => Steady c c' :=
      (steady hD).holds x c

/-- `retro("2020-01-01T00:00:00Z") { node; .a out; }`, which raises inside of the block. -/
def raisingRetro : Statement ℚ :=
  .retro "\"2020-01-01T00:00:00Z\"".toList [.query { types := [.node] }, .out { inputSet := "a" }]

theorem executeStatement_steady_raisingRetro :
    Ends (executeStatement (inMemory fun _ => twoNodesAndAWay) ⟨none, false, false⟩ raisingRetro)
      { snapshot := some 5 } (fun _ c' => Steady { snapshot := some 5 } c') fun _ c' =>
        Steady { snapshot := some 5 } c' :=
  executeStatement_steady _ (fun _ => distinct_firstPerKey) _ _ _

end OsmParquet.SteadyRuns
