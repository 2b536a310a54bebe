import OsmParquet.Programs

/-!
The `areas` of a count.

A count tells the areas of its set when the program mentions areas, and leaves them out otherwise.
What it leaves out is nothing: no set of such a program ever has an area.
-/

namespace OsmParquet.AreaCounts

open OsmParquet.KeyedList OsmParquet.Elements OsmParquet.NamedTables OsmParquet.Procedures
open OsmParquet.StatementReads OsmParquet.Statements OsmParquet.SetNames OsmParquet.Programs
open OsmParquet.QlParser (Bbox Statement Program Query)

variable {F γ α : Type}

/-! ### Readers -/

def isElement (row : OutRow F) : Prop := row.type = .node ∨ row.type = .way ∨ row.type = .relation

/-- What reads the files answers with the types that it is asked for. -/
structure Typed (D : Dataset F γ) : Prop where
  distinct : ∀ rows, D.distinct rows ⊆ rows
  dataset : ∀ time q bbox r, D.datasetRows time q bbox = .ok r →
    ∀ row ∈ r.rows, ∃ t ∈ q.types, isType t row.type
  recurseFilter : ∀ time q kind role src r, D.recurseFilterRows time q kind role src = .ok r →
    ∀ row ∈ r.rows, ∃ t ∈ q.types, isType t row.type
  recurse : ∀ time kind src, ∀ row ∈ (D.recurseRows time kind src).rows, isElement row
  areas : ∀ time q, ∀ row ∈ (D.areaRows time q).rows, row.type = .area ∨ row.type = .way
  isInPoint : ∀ p, ∀ row ∈ (D.isInPoint p).rows, row.type = .area ∨ row.type = .way
  isInSet : ∀ time src, ∀ row ∈ (D.isInSet time src).rows, row.type = .area ∨ row.type = .way
  mapToArea : ∀ src, ∀ row ∈ (D.mapToArea src).rows, row.type = .area ∨ row.type = .way
  timeline : ∀ t id version, ∀ row ∈ D.timelineRows t id version, row.type = .timeline

/-- A row of a set of a program that mentions areas or does not. -/
structure Fits (used : Bool) (row : OutRow F) : Prop where
  count : row.type ≠ .count
  area : row.type = .area → used = true

def Fit (used : Bool) (rows : Rows F) : Prop := ∀ row ∈ rows, Fits used row

section Reading

variable {D : Dataset F γ} {mode : Mode F} {sets : Sets F} {time : Option ℤ}
  {n : Notes γ} {used : Bool} {row : OutRow F} {rows : Rows F}

lemma fits_of_type {q : Query F} (h : ∃ t ∈ q.types, isType t row.type)
    (hq : .area ∈ q.types → used = true) : Fits used row := by
  obtain ⟨t, ht, htype⟩ := h
  refine ⟨fun hcount => ?_, fun harea => ?_⟩
  · rw [hcount] at htype
    cases t <;> cases htype
  · rw [harea] at htype
    cases t <;> first | exact hq ht | cases htype

lemma fits_of_element (h : isElement row) : Fits used row := by
  rcases h with h | h | h <;> exact ⟨by simp [h], by simp [h]⟩

lemma fits_of_area (h : row.type = .area ∨ row.type = .way) (hused : used = true) :
    Fits used row := by
  rcases h with h | h <;> exact ⟨by simp [h], fun _ => hused⟩

lemma Fit.sublist {rows' : Rows F} (h : Fit used rows) (hsub : rows' ⊆ rows) : Fit used rows' :=
  fun row hrow => h row (hsub hrow)

/-- The sets have rows of such a program. -/
def FitSets (used : Bool) (sets : Sets F) : Prop :=
  ∀ name rows, sets name = some rows → Fit used rows

/-- A reading that answers with such rows. -/
abbrev Answers (used : Bool) (m : Reading γ (Rows F)) : Prop :=
  ∀ n, Ends m n (fun rows _ => Fit used rows) fun _ _ => True

lemma ends_always {m : Reading γ α} : Ends m n (fun _ _ => True) fun _ _ => True := Along.always

lemma requireSet_fit (hs : FitSets used sets) (name : String) :
    Answers used (requireSet sets name : Reading γ (Rows F)) := by
  intro n
  rw [requireSet]
  cases h : sets name with
  | some rows => exact .pure (hs name rows h)
  | none => exact .throw trivial

lemma reply_fit {r : Reply F} (h : Fit used r.rows) :
    Answers used (reply r : Reading γ (Rows F)) := fun _ =>
  .bind ends_always fun _ _ _ _ => .pure h

lemma lift_ends {x : Except Raised α} {Q : α → Prop} (h : ∀ a, x = .ok a → Q a) :
    Ends (lift x) n (fun a _ => Q a) fun _ _ => True := by
  cases x with
  | ok a => exact .pure (h a rfl)
  | error e => exact .throw trivial

lemma mapM_fit (hs : FitSets used sets) {names : List String} :
    Ends (names.mapM (requireSet sets)) n (fun inputs _ => ∀ rows ∈ inputs, Fit used rows)
      fun _ _ => True := by
  induction names generalizing n with
  | nil =>
    rw [List.mapM_nil]
    exact .pure fun _ h => absurd h List.not_mem_nil
  | cons name names ih =>
    rw [List.mapM_cons]
    refine .bind (requireSet_fit hs name n) fun rows n₁ _ hrows =>
      .bind ih fun inputs n₂ _ hinputs => .pure ?_
    exact List.forall_mem_cons.mpr ⟨hrows, hinputs⟩

lemma fromSetRows_fit {types : List QlParser.ElementType} {filters : List QlParser.TagFilter}
    {ids : Option (List ℤ)} {bbox : Option (Bbox F)} {inputs : List (Rows F)}
    (h : ∀ rows ∈ inputs, Fit used rows) :
    Fit used (fromSetRows D types filters ids bbox inputs) := by
  cases inputs with
  | nil => exact fun _ h => absurd h List.not_mem_nil
  | cons first others => exact (h first (by simp)).sublist (List.filter_subset_self _)

lemma baseSelect_fit (hD : Typed D) (hs : FitSets used sets) {q : Query F}
    (hq : .area ∈ q.types → used = true) {bbox : Option (Bbox F)} :
    Answers used (baseSelect D sets time q bbox) := by
  intro n
  rw [baseSelect]
  rcases recurseFilterFor q with _ | ⟨kind, name, role⟩
  · dsimp only
    split_ifs
    · exact .bind (mapM_fit hs) fun inputs _ _ hinputs => .pure (fromSetRows_fit hinputs)
    · refine .bind ends_always fun _ _ _ _ => .bind (lift_ends fun r hr => ?_) fun r n₁ _ hr =>
        reply_fit hr n₁
      exact fun row hrow => fits_of_type (hD.dataset time q bbox r hr row hrow) hq
    · refine .bind (lift_ends fun r hr => ?_) fun r n₁ _ hr => reply_fit hr n₁
      exact fun row hrow => fits_of_type (hD.dataset time q bbox r hr row hrow) hq
  · refine .bind ends_always fun src _ _ _ => .bind (lift_ends fun r hr => ?_) fun r n₁ _ hr =>
      reply_fit hr n₁
    exact fun row hrow => fits_of_type (hD.recurseFilter time q kind role src r hr row hrow) hq

lemma areaQueryRows_fit (hD : Typed D) (hs : FitSets used sets) {q : Query F}
    (hused : used = true) : Answers used (areaQueryRows D sets time q) := by
  intro n
  rw [areaQueryRows]
  by_cases havailable : (!D.areasAvailable) = true
  · rw [if_pos havailable]
    exact .bind ends_always fun _ _ _ _ => .pure fun _ h => absurd h List.not_mem_nil
  · rw [if_neg havailable]
    cases q.filters.findSome? areaRefused with
    | some e => exact .throw trivial
    | none =>
      dsimp only
      split_ifs
      · refine .bind (mapM_fit hs) fun inputs _ _ hinputs => .pure ?_
        exact (fromSetRows_fit hinputs).sublist (List.filter_subset_self _)
      · exact reply_fit (fun row hrow => fits_of_area (hD.areas _ q row hrow) hused) n

lemma queryRows_fit (hD : Typed D) (hs : FitSets used sets) {q : Query F}
    (hq : .area ∈ q.types → used = true) :
    Answers used (queryRows D mode.globalBbox sets time q) := by
  intro n
  rw [queryRows]
  by_cases harea : QlParser.ElementType.area ∈ q.types
  · rw [if_pos harea]
    exact areaQueryRows_fit hD hs (hq harea) n
  · rw [if_neg harea]
    refine .bind ends_always fun bbox n₁ _ _ => ?_
    split_ifs
    · exact .pure fun _ h => absurd h List.not_mem_nil
    · exact .bind (baseSelect_fit hD hs hq n₁) fun base _ _ hbase =>
        .bind ends_always fun _ _ _ _ =>
        .pure (hbase.sublist (List.filter_subset_self _))

end Reading

/-! ### Statements -/

/-- An element tells the number of areas only if the program mentions them. -/
def Tells (used : Bool) (e : Element F) : Prop :=
  e.type = .count → ("areas" ∈ (e.tags.getD []).map Prod.fst ↔ used = true)

/-- All tables and all elements are those of such a program. -/
structure Proper (used : Bool) (c : Context F γ) : Prop where
  tables : ∀ t ∈ c.tables.tables, Fit used t.content
  elements : ∀ e ∈ c.elements, Tells used e

/-- A run that keeps it, and answers with what it should. -/
abbrev Properly (used : Bool) (m : Run F γ α) (Q : α → Prop) : Prop :=
  ∀ c, Proper used c → Ends m c (fun a c' => Proper used c' ∧ Q a) fun _ c' => Proper used c'

section Statements

variable {D : Dataset F γ} {mode : Mode F} {used : Bool} {c : Context F γ} {name : String}
  {rows : Rows F} {ss : List (Statement F)}

lemma Proper.sets (h : Proper used c) : FitSets used (setsOf c.tables) := by
  intro name rows hrows
  rw [setsOf] at hrows
  split_ifs at hrows
  obtain ⟨t, ht, rfl⟩ := Option.map_eq_some_iff.mp hrows
  exact h.tables t (mem_of_lookup ht)

lemma reading_properly {m : Sets F → Option ℤ → Reading γ α} {Q : α → Prop}
    (hm : ∀ sets time n, FitSets used sets → Ends (m sets time) n
      (fun a _ => Q a) fun _ _ => True) :
    Properly used (reading m) Q := by
  intro c hc
  refine .bind (.read (Q := fun c' _ => c' = c) rfl) fun c' c'' hrun hc' => ?_
  cases hrun
  exact .onPart (hm _ _ _ hc.sets) (fun _ _ hQ => ⟨⟨hc.tables, hc.elements⟩, hQ⟩)
    fun _ _ _ => ⟨hc.tables, hc.elements⟩

lemma raiseFrom_properly {x : Except Raised α} :
    Properly used (raiseFrom x : Run F γ α) fun _ => True := by
  intro c hc
  cases x with
  | ok a => exact .pure ⟨hc, trivial⟩
  | error e => exact .throw hc

lemma createOrReplace_properly (h : Fit used rows) :
    Properly used (createOrReplace name rows : Run F γ Unit) fun _ => True := fun _ hc =>
  .update ⟨⟨fun t ht => (Catalog.mem_replace ht).elim (fun hnew => hnew ▸ h) (hc.tables t),
    hc.elements⟩, trivial⟩

lemma materialize_properly (hD : Typed D) (h : Fit used rows) :
    Properly used (materialize D name rows) fun _ => True :=
  createOrReplace_properly (h.sublist (hD.distinct rows))

lemma selectFrom_properly : Properly used (selectFrom name : Run F γ (Rows F)) (Fit used) := by
  intro c hc
  cases h : c.tables.select name with
  | none => exact .error (SetTables.selectFrom_error h) hc
  | some rows =>
    obtain ⟨t, ht, rfl⟩ := Option.map_eq_some_iff.mp h
    exact .ok (SetTables.selectFrom_ok h) ⟨hc, hc.tables t (mem_of_lookup ht)⟩

lemma freshNumber_properly : Properly used (freshNumber : Run F γ ℕ) fun _ => True := fun _ hc =>
  .ok rfl ⟨⟨hc.tables, hc.elements⟩, trivial⟩

lemma capture_properly {x : Statement F} : Properly used (capture x : Run F γ String) fun _ =>
    True := fun c hc =>
  .bind (raiseFrom_properly c hc) fun _ c₁ _ h₁ =>
    .bind (freshNumber_properly c₁ h₁.1) fun _ c₂ _ h₂ =>
    .bind (selectFrom_properly c₂ h₂.1) fun _ c₃ _ h₃ =>
      .bind (createOrReplace_properly h₃.2 c₃ h₃.1) fun _ _ _ h₄ => .pure ⟨h₄.1, trivial⟩

/-- A statement that mentions no areas, in a program that mentions none. -/
def Allowed (used : Bool) (x : Statement F) : Prop := usesAreas x = true → used = true

/-- A statement keeps what sets and elements are like. -/
def Behaves (D : Dataset F γ) (mode : Mode F) (x : Statement F) : Prop :=
  Allowed mode.areasUsed x → Properly mode.areasUsed (executeStatement D mode x) fun _ => True

lemma allowed_mem {x : Statement F} (hx : x ∈ ss) (h : programUsesAreas ss = true → used = true) :
    Allowed used x := by
  induction ss with
  | nil => cases hx
  | cons y ss ih =>
    rw [programUsesAreas, Bool.or_eq_true] at h
    rcases List.mem_cons.mp hx with rfl | hx
    · exact fun hy => h (.inl hy)
    · exact ih hx fun hss => h (.inr hss)

/-- The statements of a block, each on its own. -/
abbrev Each (D : Dataset F γ) (mode : Mode F) (ss : List (Statement F)) : Prop :=
  ∀ x ∈ ss, Properly mode.areasUsed (executeStatement D mode x) fun _ => True

lemma each_of (hss : ∀ x ∈ ss, Behaves D mode x)
    (h : programUsesAreas ss = true → mode.areasUsed = true) :
    Each D mode ss := fun x hx => hss x hx (allowed_mem hx h)

lemma all_properly (hss : Each D mode ss) :
    Properly mode.areasUsed (executeAll D mode ss) fun _ => True := by
  induction ss with
  | nil => exact fun c hc => .pure ⟨hc, trivial⟩
  | cons x ss ih =>
    intro c hc
    rw [executeAll]
    exact .bind (hss x (by simp) c hc) fun _ c₁ _ h₁ =>
      ih (fun y hy => hss y (by simp [hy])) c₁ h₁.1

lemma parts_properly (hss : Each D mode ss) :
    Properly mode.areasUsed (executeParts D mode ss) fun _ => True := by
  induction ss with
  | nil => exact fun c hc => .pure ⟨hc, trivial⟩
  | cons x ss ih =>
    intro c hc
    rw [executeParts]
    exact .bind (hss x (by simp) c hc) fun _ c₁ _ h₁ =>
      .bind (capture_properly c₁ h₁.1) fun _ c₂ _ h₂ =>
      .bind (ih (fun y hy => hss y (by simp [hy])) c₂ h₂.1) fun _ _ _ h₃ => .pure h₃

lemma mapM_properly {names : List String} :
    Properly used (names.mapM selectFrom : Run F γ (List (Rows F))) fun parts =>
      ∀ rows ∈ parts, Fit used rows := by
  induction names with
  | nil =>
    rw [List.mapM_nil]
    exact fun c hc => .pure ⟨hc, fun _ h => absurd h List.not_mem_nil⟩
  | cons name names ih =>
    intro c hc
    rw [List.mapM_cons]
    refine .bind (selectFrom_properly c hc) fun rows c₁ _ h₁ =>
      .bind (ih c₁ h₁.1) fun parts c₂ _ h₂ => .pure ⟨h₂.1, ?_⟩
    exact List.forall_mem_cons.mpr ⟨h₁.2, h₂.2⟩

lemma fit_nil : Fit used ([] : Rows F) := fun _ h => absurd h List.not_mem_nil

/-- A statement that makes its set of what it has read. -/
lemma written_properly (hD : Typed D) {m : Sets F → Option ℤ → Reading γ (Rows F)} {o : String}
    (hm : ∀ sets time, FitSets used sets → Answers used (m sets time)) :
    Properly used (reading m >>= materialize D o) fun _ => True := fun c hc =>
  .bind (reading_properly (fun sets time n hs => hm sets time hs n) c hc) fun _ c₁ _ h₁ =>
    materialize_properly hD h₁.2 c₁ h₁.1

lemma tells_of_row {host : Host F} {row : OutRow F} {out : Elements.Out F} {found : Resolved F}
    (h : Fits used row) : Tells used (rowToElement host row out found) := fun htype => by
  rw [rowToElement_type] at htype
  exact absurd htype h.count

lemma fit_rowsToPrint {out : Elements.Out F} {found : Resolved F} (h : Fit used rows) :
    Fit used (rowsToPrint rows out found) := by
  have hsub : fetchOutRows rows out.order out.limit ⊆ rows := fun row hrow => by
    have hsort : row ∈ rows.insertionSort fun a b => outBefore out.order a b = true := by
      unfold fetchOutRows at hrow
      cases hlimit : out.limit with
      | none => rwa [hlimit] at hrow
      | some n =>
        rw [hlimit] at hrow
        exact List.mem_of_mem_take hrow
    exact (List.perm_insertionSort _ _).mem_iff.mp hsort
  rw [rowsToPrint]
  split_ifs
  · intro row hrow
    obtain ⟨row', hrow', rfl⟩ := List.mem_map.mp hrow
    have hfits := h row' (hsub hrow')
    have htype : (hydrate found row').type = row'.type := by
      rw [hydrate]
      split_ifs <;> rfl
    exact ⟨htype ▸ hfits.count, htype ▸ hfits.area⟩
  · exact h.sublist hsub

/-- A count has the areas if they are to be told, as there are none otherwise. -/
lemma tells_count (h : Fit used rows) : Tells used (countElement rows used) := by
  intro _
  rw [countElement]
  cases used with
  | true => simp
  | false =>
    have hnone : rows.filter (fun r => r.type = .area) = [] :=
      List.filter_eq_nil_iff.mpr fun row hrow harea => by
      have htype : row.type = .area := by simpa using harea
      exact absurd ((h row hrow).area htype) (by simp)
    simp [hnone]

lemma tells_buildElements {host : Host F} {out : Elements.Out F} {found : Resolved F}
    (h : Fit used rows) : ∀ e ∈ (buildElements host rows out found used).1, Tells used e := by
  intro e he
  rw [buildElements] at he
  split_ifs at he
  · obtain rfl := List.mem_singleton.mp he
    exact tells_count h
  · obtain ⟨row, hrow, rfl⟩ := List.mem_map.mp he
    exact tells_of_row (fit_rowsToPrint h row hrow)

lemma out_properly {o : QlParser.Out F} :
    Properly mode.areasUsed (executeOut D mode o) fun _ => True := by
  intro c hc
  have hprinted : ∀ (sets : Sets F) (time : Option ℤ) (n : Notes γ), FitSets mode.areasUsed sets →
      Ends (outElements D mode o sets time) n
        (fun printed _ => ∀ e ∈ printed.1, Tells mode.areasUsed e)
        fun _ _ => True := fun sets time n hs =>
    .bind (requireSet_fit hs o.inputSet n) fun _ _ _ hrows => .pure (tells_buildElements hrows)
  rw [executeOut]
  refine .bind (reading_properly hprinted c hc) fun printed c₁ _ h₁ =>
    .update ⟨⟨h₁.1.tables, fun e he => ?_⟩, trivial⟩
  exact (List.mem_append.mp he).elim (h₁.1.elements e) (h₁.2 e)

lemma foreach_properly (hD : Typed D) {i o : String} {body : List (Statement F)}
    (hbody : Each D mode body) :
    Properly mode.areasUsed (executeStatement D mode (.foreach i o body)) fun _ => True := by
  intro c hc
  rw [executeStatement]
  have hsort : ∀ {rows : Rows F}, Fit mode.areasUsed rows →
      Fit mode.areasUsed (byTypeAndId rows) := fun h =>
    h.sublist (List.perm_insertionSort _ _).subset
  refine .bind (reading_properly (fun _ _ n hs => requireSet_fit hs i n) c hc) fun rows c₁ _ h₁ =>
    ?_
  refine .bind (freshNumber_properly c₁ h₁.1) fun n c₂ _ h₂ => ?_
  refine .bind (createOrReplace_properly (hsort h₁.2) c₂ h₂.1) fun _ c₃ _ h₃ => ?_
  refine .bind (selectFrom_properly c₃ h₃.1) fun rows c₄ _ h₄ => ?_
  refine (Ends.loop (I := Proper mode.areasUsed) (fun row _ c₅ h₅ => ?_) h₄.1).mono
    (fun _ _ h => ⟨h, trivial⟩) fun _ _ h => h
  refine .bind (selectFrom_properly c₅ h₅) fun rows c₆ _ h₆ => ?_
  refine .bind (materialize_properly hD (h₆.2.sublist (List.filter_subset_self _)) c₆ h₆.1)
    fun _ c₇ _ h₇ => ?_
  exact (all_properly hbody c₇ h₇.1).mono (fun _ _ h => h.1) fun _ _ h => h

lemma restoreSets_fit {saved : List (Table String (Rows F))} {tables : Tables F}
    (hsaved : ∀ t ∈ saved, Fit used t.content) (h : ∀ t ∈ tables.tables, Fit used t.content) :
    ∀ t ∈ (restoreSets saved tables).tables, Fit used t.content := by
  intro t ht
  rcases Catalog.mem_replaceAll ht with ht | ht
  · exact hsaved t ht
  · rcases Catalog.mem_replaceAll ht with ht | ht
    · obtain ⟨u, -, rfl⟩ := List.mem_map.mp ht
      exact fit_nil
    · exact h t ht

lemma retro_properly {timeExpr : List Char} {body : List (Statement F)} (hbody : Each D mode body) :
    Properly mode.areasUsed (executeStatement D mode (.retro timeExpr body)) fun _ => True := by
  intro c hc
  rw [executeStatement]
  by_cases hhistory : (!D.hasHistory) = true
  · rw [if_pos hhistory]
    exact .throw hc
  rw [if_neg hhistory]
  refine .bind (.read (Q := fun c' _ => c' = c) rfl) fun _ c₁ hread hc₁ => ?_
  cases hread
  refine .bind (raiseFrom_properly c hc) fun u c₁ _ h₁ => ?_
  refine .bind (.update (Q := fun _ => Proper mode.areasUsed) ⟨h₁.1.tables, h₁.1.elements⟩)
    fun _ c₂ _ h₂ => ?_
  refine .bind (.ok (Q := fun saved c' => Proper mode.areasUsed c' ∧
    ∀ t ∈ saved, Fit mode.areasUsed t.content) rfl
    ⟨⟨h₂.tables, h₂.elements⟩, h₂.tables⟩) fun saved c₃ _ h₃ => ?_
  refine .bind (.update (Q := fun _ => Proper mode.areasUsed) ⟨h₃.1.tables, h₃.1.elements⟩)
    fun _ c₄ _ h₄ => ?_
  exact (all_properly hbody c₄ h₄).ensure
    (fun _ after h => ⟨⟨restoreSets_fit h₃.2 h.1.tables, h.1.elements⟩, trivial⟩)
    fun _ after h => ⟨restoreSets_fit h₃.2 h.tables, h.elements⟩

lemma behaves (hD : Typed D) : Inherits (Behaves D mode) where
  query q hx := by
    have hq : .area ∈ q.types → mode.areasUsed = true :=
      fun harea => hx (by simp [usesAreas, harea])
    simp only [executeStatement]
    exact written_properly hD fun _ _ hs => queryRows_fit hD hs hq
  union ss o hss hx c hc := by
    rw [executeStatement]
    refine .bind (parts_properly (each_of hss hx) c hc) fun parts c₁ _ h₁ => ?_
    refine .bind (mapM_properly c₁ h₁.1) fun rows c₂ _ h₂ =>
      materialize_properly hD (fun row hrow => ?_) c₂ h₂.1
    obtain ⟨part, hpart, hrow⟩ := List.mem_flatten.mp hrow
    exact h₂.2 part hpart row hrow
  difference a b o ha hb hx c hc := by
    have hxa : Allowed mode.areasUsed a := fun h => hx (by rw [usesAreas, h, Bool.true_or])
    have hxb : Allowed mode.areasUsed b := fun h => hx (by rw [usesAreas, h, Bool.or_true])
    rw [executeStatement]
    refine .bind (ha hxa c hc) fun _ c₁ _ h₁ => .bind (capture_properly c₁ h₁.1) fun _ c₂ _ h₂ => ?_
    refine .bind (hb hxb c₂ h₂.1) fun _ c₃ _ h₃ => .bind (capture_properly c₃ h₃.1) fun _ c₄ _ h₄ =>
      ?_
    refine .bind (selectFrom_properly c₄ h₄.1) fun rows c₅ _ h₅ =>
      .bind (selectFrom_properly c₅ h₅.1) fun others c₆ _ h₆ => ?_
    exact materialize_properly hD (h₅.2.sublist (List.filter_subset_self _)) c₆ h₆.1
  recurse kind i o _ := by
    simp only [executeStatement]
    refine written_properly hD fun _ time hs n => .bind (requireSet_fit hs i n) fun rows n₁ _ _ =>
      ?_
    exact reply_fit (fun row hrow => fits_of_element (hD.recurse time kind rows row hrow)) n₁
  item i o _ := by
    simp only [executeStatement]
    exact written_properly hD fun _ _ hs => requireSet_fit hs i
  isIn i o coords hx := by
    have hused := hx rfl
    simp only [executeStatement]
    refine written_properly hD fun _ _ hs n => ?_
    unfold isInRows
    split_ifs
    · exact .bind ends_always fun _ _ _ _ => .pure fit_nil
    · cases coords with
      | some p => exact reply_fit (fun row hrow => fits_of_area (hD.isInPoint p row hrow) hused) n
      | none =>
        refine .bind (requireSet_fit hs i n) fun rows n₁ _ _ => ?_
        exact reply_fit (fun row hrow => fits_of_area (hD.isInSet _ rows row hrow) hused) n₁
  mapToArea i o hx := by
    have hused := hx rfl
    simp only [executeStatement]
    refine written_properly hD fun _ _ hs n => .bind (requireSet_fit hs i n) fun rows n₁ _ _ => ?_
    split_ifs
    · exact .bind ends_always fun _ _ _ _ => .pure fit_nil
    · exact reply_fit (fun row hrow => fits_of_area (hD.mapToArea rows row hrow) hused) n₁
  out o _ := by
    simp only [executeStatement]
    exact out_properly
  foreach i o body hbody hx := foreach_properly hD (each_of hbody hx)
  if' condition then' otherwise hthen helse hx c hc := by
    have hxt : programUsesAreas then' = true → mode.areasUsed = true := fun h =>
      hx (by rw [usesAreas, h, Bool.true_or])
    have hxe : programUsesAreas otherwise = true → mode.areasUsed = true := fun h =>
      hx (by rw [usesAreas, h, Bool.or_true])
    rw [executeStatement]
    refine .bind (.read (Q := fun _ => Proper mode.areasUsed) hc) fun _ c₁ _ h₁ => ?_
    refine .bind (raiseFrom_properly c₁ h₁) fun _ c₂ _ h₂ => ?_
    split_ifs
    · exact all_properly (each_of hthen hxt) c₂ h₂.1
    · exact all_properly (each_of helse hxe) c₂ h₂.1
  retro t body hbody hx := retro_properly (each_of hbody hx)
  timeline e i v o _ := by
    simp only [executeStatement]
    refine written_properly hD fun _ _ _ n => ?_
    rw [timelineRows]
    split_ifs
    · exact .throw trivial
    · exact .pure fun row hrow =>
        ⟨by simp [hD.timeline e i v row hrow], by simp [hD.timeline e i v row hrow]⟩
  unsupported k source _ c hc := by
    rw [executeStatement]
    exact .throw hc

end Statements

/-! ### Programs -/

section Programs

variable {D : Dataset F γ} {p : Program F}

lemma atTime_properly {used : Bool} {t : ℤ} {m : Run F γ Unit}
    (hm : Properly used m fun _ => True) :
    Properly used (atTime t m) fun _ => True := fun c hc => by
  refine .bind (.read (Q := fun _ => Proper used) hc) fun _ c₁ _ h₁ => ?_
  refine .bind (.update (Q := fun _ => Proper used) ⟨h₁.tables, h₁.elements⟩) fun _ c₂ _ h₂ => ?_
  exact (hm c₂ h₂).ensure (fun _ _ h => ⟨⟨h.1.tables, h.1.elements⟩, trivial⟩)
    fun _ _ h => ⟨h.tables, h.elements⟩

lemma body_properly (diffMode : Bool) (hD : Typed D) :
    Properly (modeOf p diffMode).areasUsed (runProgramBody D p diffMode) fun _ => True := by
  intro c hc
  have hall : Properly (modeOf p diffMode).areasUsed (executeAll D (modeOf p diffMode) p.statements)
      fun _ => True :=
    all_properly (each_of (fun x _ => (behaves hD).holds x) fun h => h)
  have hempty : ∀ c : Context F γ, Proper (modeOf p diffMode).areasUsed c →
      Proper (modeOf p diffMode).areasUsed ({ c with notes := {}, elements := [], versions := [] } :
        Context F γ) :=
    fun c h => ⟨h.tables, fun _ he => absurd he List.not_mem_nil⟩
  refine .bind (.update (Q := fun _ => Proper (modeOf p diffMode).areasUsed) (hempty c hc))
    fun _ c₁ _ h₁ => ?_
  refine .bind (materialize_properly hD fit_nil c₁ h₁) fun _ c₂ _ h₂ => ?_
  refine .bind (.read (Q := fun _ => Proper (modeOf p diffMode).areasUsed) h₂.1) fun c' c₃ _ h₃ =>
    ?_
  cases ownDate p c'.snapshot with
  | none => exact hall c₃ h₃
  | some date =>
    refine .bind (raiseFrom_properly c₃ h₃) fun t c₄ _ h₄ => ?_
    refine .bind (.update (Q := fun _ => Proper (modeOf p diffMode).areasUsed) ⟨h₄.1.tables,
      h₄.1.elements⟩) fun _ c₅ _ h₅ => ?_
    exact atTime_properly hall c₅ h₅

end Programs

/-- **A count has `areas` just when the program mentions areas**, and what the others leave out is
nothing. -/
theorem areas_of_count (D : Dataset F γ) (hD : Typed D) (p : Program F) (k : ℕ) (c : Context F γ)
    (h : runProgram D p { next := k } = .ok () c) (e : Element F) (he : e ∈ c.elements)
    (hcount : e.type = .count) :
    "areas" ∈ (e.tags.getD []).map Prod.fst ↔ programUsesAreas p.statements = true := by
  have hstart : Proper (programUsesAreas p.statements) ({ next := k } : Context F γ) :=
    ⟨fun _ ht => absurd ht List.not_mem_nil, fun _ he => absurd he List.not_mem_nil⟩
  have hrun : Ends (runProgram D p) ({ next := k } : Context F γ) (fun _ c' =>
      Proper (programUsesAreas p.statements) c' ∧ True) fun _ c' => Proper
        (programUsesAreas p.statements) c' :=
    .bind (raiseFrom_properly _ hstart) fun _ c₁ _ h₁ => body_properly false hD c₁ h₁.1
  rcases hrun with ⟨run, hproper, -⟩ | ⟨run, -⟩
  · rw [h] at run
    cases run
    exact hproper.elements e he hcount
  · rw [h] at run
    cases run

lemma typed_inMemory (rows : Option ℤ → Rows ℚ) : Typed (inMemory rows) where
  distinct rows row hrow := mem_of_lookup (mem_firstPerKey.mp hrow)
  dataset time q bbox r h row hrow := by
    cases h
    simpa using (List.mem_filter.mp hrow).2
  recurseFilter time q kind role src r h row hrow := by
    cases h
    cases hrow
  recurse time kind src row hrow := by cases hrow
  areas _ q row hrow := .inl (by simpa using (List.mem_filter.mp hrow).2)
  isInPoint p row hrow := by cases hrow
  isInSet _ src row hrow := by cases hrow
  mapToArea src row hrow := by cases hrow
  timeline t id version row hrow := by cases hrow

/-- `node; out count;`. -/
def countNodes : Program ℚ where
  settings := {}
  statements := [.query { types := [.node] }, .out { count := true }]

lemma countNodes_runs : ∃ c, runProgram (inMemory fun _ => twoNodesAndAWay) countNodes
    { next := 1 } = .ok () c ∧ c.elements.map Element.key = [(.count, 0)] := ⟨_, rfl, rfl⟩

theorem areas_of_count_countNodes :
    ∃ c, runProgram (inMemory fun _ => twoNodesAndAWay) countNodes { next := 1 } = .ok () c ∧
    c.elements.map Element.key = [(.count, 0)] ∧ ∀ e ∈ c.elements, e.type = .count →
      ("areas" ∈ (e.tags.getD []).map Prod.fst ↔
        programUsesAreas countNodes.statements = true) := by
  obtain ⟨c, hc, hkeys⟩ := countNodes_runs
  exact ⟨c, hc, hkeys, fun e he hcount => areas_of_count _
    (typed_inMemory _) countNodes 1 c hc e he hcount⟩

end OsmParquet.AreaCounts
