import OsmParquet.SetNames

/-!
Programs that run on tables mean what they say.

The names of a program are clear if no two of them, and no copy, differ in case only. Then each set
has a table of its own, which is listed under the name it is read by, and the copies stay as they
are until they are read.
-/

namespace OsmParquet.SetTables

open OsmParquet.KeyedList OsmParquet.Elements OsmParquet.NamedTables OsmParquet.Procedures
open OsmParquet.StatementReads OsmParquet.Statements OsmParquet.SetNames
open OsmParquet.ProgramMeaning (State assign looking evalStatement evalStatement_unsupported evalAll
  evalParts output rowsOf_eq outside)
open OsmParquet.QlParser (Statement)

variable {F γ α : Type} {D : Dataset F γ} {mode : Mode F} {U : String → Prop}

/-! ### Names -/

/-- A name of a set of the program, or of a copy. -/
def Known (U : String → Prop) (n : String) : Prop := U n ∨ ∃ k, n = partName k ∨ n = foreachName k

/-- The database tells all names apart, and no set has the name of a copy. -/
structure Clear (U : String → Prop) : Prop where
  apart : ∀ a b, Known U a → Known U b → foldName a = foldName b → a = b
  own : ∀ n, U n → ∀ k, n ≠ partName k ∧ n ≠ foreachName k

lemma known_part (k : ℕ) : Known U (partName k) := .inr ⟨k, .inl rfl⟩

lemma known_foreach (k : ℕ) : Known U (foreachName k) := .inr ⟨k, .inr rfl⟩

section Numbered

variable {j k : ℕ}

lemma toLower_digit {c : Char} (h : c.isDigit = true) : c.toLower = c := by
  have hlt : ¬ (c.val ≥ 'A'.val ∧ c.val ≤ 'Z'.val) := by
    rintro ⟨hlow, -⟩
    simp only [Char.isDigit, Bool.and_eq_true, decide_eq_true_eq] at h
    exact absurd (UInt32.le_trans hlow h.2) (by decide)
  exact dif_neg hlt

lemma foldName_numbered {stem : String} (hstem :
    stem.toList.map Char.toLower = stem.toList) (k : ℕ) :
    foldName (stem ++ toString k) = stem.toList ++ Nat.toDigits 10 k := by
  have hdigits : (Nat.toDigits 10 k).map Char.toLower = (Nat.toDigits 10 k).map id :=
    List.map_congr_left fun c hc => toLower_digit
      (Nat.isDigit_of_mem_toDigits (by omega) (by omega) hc)
  rw [foldName, String.toList_append, List.map_append, hstem, Nat.toString_eq_repr,
    Nat.toList_repr, hdigits, List.map_id]

lemma foldName_partName (k : ℕ) : foldName (partName k) = "__part_".toList ++ Nat.toDigits 10 k :=
  foldName_numbered (by decide) k

lemma foldName_foreachName (k : ℕ) : foldName (foreachName k) = "__foreach_".toList ++
    Nat.toDigits 10 k :=
  foldName_numbered (by decide) k

lemma toDigits_injective (h : Nat.toDigits 10 j = Nat.toDigits 10 k) : j = k := by
  rw [← Nat.ofDigitChars_ten_toDigits (n := j), h, Nat.ofDigitChars_ten_toDigits]

lemma foldName_part_ne_foreach : foldName (partName j) ≠ foldName (foreachName k) := by
  rw [foldName_partName, foldName_foreachName]
  intro h
  have hthird := congrArg (fun l => l[2]?) h
  simp at hthird

/-- Two copies of one kind have one name only if they have one number. -/
lemma partName_injective (h : foldName (partName j) = foldName (partName k)) : j = k := by
  rw [foldName_partName, foldName_partName] at h
  exact toDigits_injective (List.append_cancel_left h)

lemma foreachName_injective (h : foldName (foreachName j) = foldName (foreachName k)) : j = k := by
  rw [foldName_foreachName, foldName_foreachName] at h
  exact toDigits_injective (List.append_cancel_left h)

end Numbered

/-- Names that do not begin with two underscores, of which no two differ in case only. -/
lemma clear_of (hcase : ∀ a b, U a → U b → foldName a = foldName b → a = b)
    (hown : ∀ a, U a → ¬ ['_', '_'] <+: foldName a) : Clear U := by
  have hpart : ∀ k, ['_', '_'] <+: foldName (partName k) := fun k => by
    rw [foldName_partName]
    exact ⟨_, rfl⟩
  have hforeach : ∀ k, ['_', '_'] <+: foldName (foreachName k) := fun k => by
    rw [foldName_foreachName]
    exact ⟨_, rfl⟩
  refine ⟨?_, fun n hn k => ⟨?_, ?_⟩⟩
  · rintro a b (ha | ⟨j, rfl | rfl⟩) (hb | ⟨k, rfl | rfl⟩) h
    · exact hcase a b ha hb h
    · exact absurd (h ▸ hpart k) (hown a ha)
    · exact absurd (h ▸ hforeach k) (hown a ha)
    · exact absurd (h ▸ hpart j) (hown b hb)
    · rw [partName_injective h]
    · exact absurd h foldName_part_ne_foreach
    · exact absurd (h ▸ hforeach j) (hown b hb)
    · exact absurd h.symm foldName_part_ne_foreach
    · rw [foreachName_injective h]
  · rintro rfl
    exact hown _ hn (hpart k)
  · rintro rfl
    exact hown _ hn (hforeach k)

/-- All tables have known names. -/
def Listed (U : String → Prop) (tables : Tables F) : Prop := ∀ n ∈ tables.names, Known U n

section Tables

variable {tables : Tables F} {a b : String} {rows : Rows F}

lemma setsOf_eq (hU : Clear U) (hl : Listed U tables) (ha : Known U a) :
    setsOf tables a = tables.select a := by
  rw [setsOf]
  by_cases h : tables.lists a = true
  · rw [if_pos h]
  · rw [if_neg h, Catalog.select]
    cases hf : tables.find (foldName a) with
    | none => rfl
    | some t =>
      have ht : t.name ∈ tables.names := Catalog.mem_names_of_mem (mem_of_lookup hf)
      have heq : t.name = a := hU.apart _ _ (hl _ ht) ha (Catalog.fold_of_find hf)
      exact absurd (Catalog.lists_iff.mpr (heq ▸ ht)) h

lemma select_replace (hU : Clear U) (ha : Known U a) (hb : Known U b) :
    (tables.replace a rows).select b = if a = b then some rows else tables.select b := by
  by_cases h : a = b
  · subst h
    rw [if_pos rfl, Catalog.select_replace_self]
  · rw [if_neg h, Catalog.select_replace_of_ne fun e => h (hU.apart a b ha hb e)]

lemma listed_replace (hl : Listed U tables) (ha : Known U a) :
    Listed U (tables.replace a rows) := by
  intro n hn
  obtain ⟨t, ht, rfl⟩ := List.mem_map.mp hn
  rcases Catalog.mem_replace ht with rfl | ht
  · exact ha
  · exact hl _ (Catalog.mem_names_of_mem ht)

/-- The tables after a block at another time: those from before have what they had, and the others
are empty. -/
lemma select_restoreSets (hU : Clear U) {before : Tables F} (hl : Listed U tables)
    (ha : Known U a) : (restoreSets before.tables tables).select a =
      match before.select a with
      | some rows => some rows
      | none => (tables.select a).map fun _ => [] := by
  have hfolded : ∀ t : Table String (Rows F),
      Table.folded foldName (⟨t.name, []⟩ : Table String (Rows F)) = Table.folded foldName t :=
        fun _ => rfl
  have hfresh :=
    (distinct_map hfolded).mpr (tables.once.filter fun t => t.name ∉ before.tables.map Table.name)
  rw [restoreSets, Catalog.select, Catalog.find_replaceAll before.once,
    Catalog.find_replaceAll hfresh, lookup_map hfolded, tables.once.lookup_filter, Catalog.select,
      Catalog.select]
  show ((before.find (foldName a)).or ((((tables.find (foldName a)).filter _).map _).or _)).map _ =
    _
  cases hbefore : before.find (foldName a) with
  | some t => rfl
  | none =>
    cases hafter : tables.find (foldName a) with
    | none => rfl
    | some t =>
      have hname : t.name = a :=
        hU.apart _ _ (hl _ (Catalog.mem_names_of_mem (mem_of_lookup hafter))) ha
          (Catalog.fold_of_find hafter)
      have hnot : t.name ∉ before.tables.map Table.name := fun h => by
        obtain ⟨x, hx⟩ := Catalog.mem_names.mp h
        rw [hname, hbefore] at hx
        cases hx
      simp [Option.filter, hnot]

lemma listed_restoreSets {before : Tables F} (hb : Listed U before) (hl : Listed U tables) :
    Listed U (restoreSets before.tables tables) := by
  intro n hn
  obtain ⟨t, ht, rfl⟩ := List.mem_map.mp hn
  rcases Catalog.mem_replaceAll ht with ht | ht
  · exact hb _ (Catalog.mem_names_of_mem ht)
  · rcases Catalog.mem_replaceAll ht with ht | ht
    · obtain ⟨u, hu, rfl⟩ := List.mem_map.mp ht
      have hname : u.name ∈ tables.names := Catalog.mem_names_of_mem (List.mem_of_mem_filter hu)
      exact hl _ hname
    · exact hl _ (Catalog.mem_names_of_mem ht)

end Tables

/-! ### Steps -/

/-- A run on tables is where the meaning is. -/
structure Models (U : String → Prop) (time : Option ℤ) (c : Context F γ) (s : State F γ) :
    Prop where
  sets : ∀ n, U n → c.tables.select n = s.sets n
  listed : Listed U c.tables
  snapshot : c.snapshot = time
  notes : c.notes = s.notes
  elements : c.elements = s.elements
  versions : c.versions = s.versions

/-- The copies that were there are as they were. -/
structure Later (c c' : Context F γ) : Prop where
  next : c.next ≤ c'.next
  part : ∀ k < c.next, c'.tables.select (partName k) = c.tables.select (partName k)
  foreach : ∀ k < c.next, c'.tables.select (foreachName k) = c.tables.select (foreachName k)

lemma Later.refl (c : Context F γ) : Later c c := ⟨le_rfl, fun _ _ => rfl, fun _ _ => rfl⟩

lemma Later.trans {c c' c'' : Context F γ} (h : Later c c') (h' : Later c' c'') : Later c c'' where
  next := h.next.trans h'.next
  part k hk := (h'.part k (hk.trans_le h.next)).trans (h.part k hk)
  foreach k hk := (h'.foreach k (hk.trans_le h.next)).trans (h.foreach k hk)

section Steps

variable {time : Option ℤ} {c c' : Context F γ} {s : State F γ} {o : String} {rows : Rows F}

lemma Models.setsOf_eq (hU : Clear U) (hm : Models U time c s) {n : String} (hn : U n) :
    setsOf c.tables n = s.sets n := by
  rw [SetTables.setsOf_eq hU hm.listed (.inl hn), hm.sets n hn]

lemma reading_alike {m : Sets F → Option ℤ → Reading γ α} {m' : Sets F → Reading γ α}
    (hm : Models U time c s) (h : m (setsOf c.tables) time = m' s.sets) :
    Alike (reading m) (looking true m') c s fun a b c' s' =>
      a = b ∧ Models U time c' s' ∧ Later c c' := by
  have hrun : (reading m : Run F γ α) c =
      onPart Context.notes (fun notes c => { c with notes }) (m' s.sets) c := by
    rw [← h, ← hm.snapshot]
    rfl
  have hrun' : looking true m' s = onPart (State.kept true) (fun notes s => { s with notes })
      (m' s.sets) s := rfl
  refine .congr hrun hrun' (.onPart hm.notes fun a notes => ⟨rfl, ?_, ?_⟩)
  · exact ⟨hm.sets, hm.listed, hm.snapshot, rfl, hm.elements, hm.versions⟩
  · exact ⟨le_rfl, fun _ _ => rfl, fun _ _ => rfl⟩

/-- A table is made for a set, or for a copy with a new number. -/
lemma later_replace (hU : Clear U) {a : String}
    (ha : U a ∨ ∃ k ≥ c.next, a = partName k ∨ a = foreachName k)
    (hnext : c.next ≤ c'.next) (htables : c'.tables = c.tables.replace a rows) : Later c c' := by
  have hknown : Known U a := ha.imp_right fun ⟨k, _, hk⟩ => ⟨k, hk⟩
  refine ⟨hnext, fun k hk => ?_, fun k hk => ?_⟩
  · rw [htables, select_replace hU hknown (known_part k), if_neg]
    rintro rfl
    rcases ha with ha | ⟨j, hj, hjk | hjk⟩
    · exact (hU.own _ ha k).1 rfl
    · have := partName_injective (congrArg foldName hjk)
      omega
    · exact foldName_part_ne_foreach (congrArg foldName hjk)
  · rw [htables, select_replace hU hknown (known_foreach k), if_neg]
    rintro rfl
    rcases ha with ha | ⟨j, hj, hjk | hjk⟩
    · exact (hU.own _ ha k).2 rfl
    · exact foldName_part_ne_foreach (congrArg foldName hjk).symm
    · have := foreachName_injective (congrArg foldName hjk)
      omega

lemma materialize_alike (hU : Clear U) (hm : Models U time c s) (ho : U o) :
    Alike (materialize D o rows) (assign D o rows) c s fun _ _ c' s' => Models U time c' s' ∧
      Later c c' := by
  refine .ok rfl rfl ⟨⟨fun n hn => ?_, listed_replace hm.listed (.inl ho), hm.snapshot,
    hm.notes, hm.elements, hm.versions⟩, later_replace hU (.inl ho) le_rfl rfl⟩
  show (c.tables.replace o (D.distinct rows)).select n = Function.update s.sets o
    (some (D.distinct rows)) n
  rw [select_replace hU (.inl ho) (.inl hn), Function.update_apply, hm.sets n hn]
  by_cases h : o = n
  · rw [if_pos h, if_pos h.symm]
  · rw [if_neg h, if_neg (Ne.symm h)]

lemma raiseFrom_alike {x y : Except Raised α} (hxy : x = y) :
    Alike (raiseFrom x) (ProgramMeaning.raiseFrom y) c s fun a b c' s' =>
      a = b ∧ x = .ok a ∧ c = c' ∧ s = s' := by
  subst hxy
  cases x with
  | error e => exact .error rfl rfl
  | ok a => exact .ok rfl rfl ⟨rfl, rfl, rfl, rfl⟩

lemma selectFrom_ok {name : String} (h : c.tables.select name = some rows) :
    selectFrom name c = .ok rows c := by
  have hget : (get : Run F γ (Context F γ)) c = .ok c c := rfl
  rw [selectFrom, bind_ok hget]
  rw [h]
  rfl

lemma selectFrom_error {name : String} (h : c.tables.select name = none) :
    selectFrom name c = .error (.catalogException name) c := by
  have hget : (get : Run F γ (Context F γ)) c = .ok c c := rfl
  rw [selectFrom, bind_ok hget]
  rw [h]
  rfl

/-- The copy of a part is under a new number. -/
def Copied (c : Context F γ) (name : String) (rows : Rows F) : Prop :=
  ∃ k < c.next, name = partName k ∧ c.tables.select name = some rows

lemma Copied.later {name : String} (h : Copied c name rows) (hl : Later c c') :
    Copied c' name rows := by
  obtain ⟨k, hk, rfl, hrows⟩ := h
  exact ⟨k, hk.trans_le hl.next, rfl, (hl.part k hk).trans hrows⟩

/-- A new copy. -/
lemma Models.copy (hU : Clear U) (hm : Models U time c s) {a : String} (rows : Rows F)
    (ha : a = partName c.next ∨ a = foreachName c.next) :
    Models U time { c with next := c.next + 1, tables := c.tables.replace a rows } s ∧
      Later c { c with next := c.next + 1, tables := c.tables.replace a rows } := by
  have hknown : Known U a := .inr ⟨_, ha⟩
  refine ⟨⟨fun n hn => ?_, listed_replace hm.listed hknown, hm.snapshot, hm.notes,
    hm.elements, hm.versions⟩, later_replace hU (.inr ⟨c.next, le_rfl, ha⟩) (Nat.le_succ _) rfl⟩
  have hne : a ≠ n := by
    rintro rfl
    rcases ha with ha | ha
    · exact (hU.own _ hn _).1 ha
    · exact (hU.own _ hn _).2 ha
  exact ((select_replace hU hknown (.inl hn)).trans (if_neg hne)).trans (hm.sets n hn)

lemma capture_alike (hU : Clear U) (hm : Models U time c s) {x : Statement F}
    (hx : ∀ n ∈ names D x, U n) : Alike (capture x) (output x) c s fun name rows c' s' =>
      Models U time c' s' ∧ Later c c' ∧ Copied c' name rows := by
  refine .bind (raiseFrom_alike rfl) fun produced _ c' s' _ hpost => ?_
  obtain ⟨hab, hname, hc, hs⟩ := hpost
  subst hab hc hs
  have ho : U produced := hx produced (output_mem_names (outputSetName_ok.mp hname))
  have hsel := hm.sets produced ho
  have hfresh : (freshNumber : Run F γ ℕ) c = .ok c.next { c with next := c.next + 1 } := rfl
  cases hrows : s.sets produced with
  | none =>
    rw [hrows] at hsel
    exact .error ((bind_ok hfresh).trans (bind_error (selectFrom_error hsel)))
      ((rowsOf_eq produced s).trans (by rw [hrows]; rfl))
  | some rows =>
    rw [hrows] at hsel
    obtain ⟨hmodels, hlater⟩ := hm.copy hU rows (.inl rfl)
    exact .ok ((bind_ok hfresh).trans (bind_ok (selectFrom_ok hsel)))
      ((rowsOf_eq produced s).trans (by rw [hrows]; rfl))
      ⟨hmodels, hlater, c.next, Nat.lt_succ_self _, rfl, Catalog.select_replace_self⟩

/-- What a statement reads becomes the table of its output. -/
lemma written_alike (hU : Clear U) (hm : Models U time c s) (ho : U o)
    {m : Sets F → Option ℤ → Reading γ (Rows F)} {m' : Sets F → Reading γ (Rows F)}
    (h : m (setsOf c.tables) time = m' s.sets) :
    Alike (reading m >>= materialize D o) (looking true m' >>= assign D o) c s
      fun _ _ c' s' => Models U time c' s' ∧ Later c c' := by
  refine .bind (reading_alike hm h) fun rows _ c₁ s₁ _ hpost => ?_
  obtain ⟨hrows, hm₁, hl₁⟩ := hpost
  subst hrows
  exact (materialize_alike hU hm₁ ho).mono fun _ _ _ _ hpost => ⟨hpost.1, hl₁.trans hpost.2⟩

lemma mapM_selectFrom {parts : List String} {rowss : List (Rows F)}
    (h : List.Forall₂ (Copied c) parts rowss) : (parts.mapM selectFrom) c = .ok rowss c := by
  induction h with
  | nil => rfl
  | cons hx _ ih =>
    obtain ⟨k, _, _, hrows⟩ := hx
    rw [List.mapM_cons]
    exact (bind_ok (selectFrom_ok hrows)).trans ((bind_ok ih).trans rfl)

end Steps

/-! ### Runs -/

/-- A statement does to the tables what it means. -/
def Simulates (D : Dataset F γ) (mode : Mode F) (U : String → Prop) (x : Statement F) : Prop :=
  (∀ n ∈ names D x, U n) → ∀ {time : Option ℤ} {c : Context F γ} {s : State F γ},
    Models U time c s → Alike (executeStatement D mode x) (evalStatement D mode true time x) c s
      fun _ _ c' s' => Models U time c' s' ∧ Later c c'

section Runs

variable {time : Option ℤ} {c : Context F γ} {s : State F γ} {ss : List (Statement F)}

lemma all_alike (hss : ∀ x ∈ ss, Simulates D mode U x) (hn : ∀ n ∈ allNames D ss, U n)
    (hm : Models U time c s) : Alike (executeAll D mode ss) (evalAll D mode true time ss) c s
      fun _ _ c' s' => Models U time c' s' ∧ Later c c' := by
  induction ss generalizing c s with
  | nil => exact .pure ⟨hm, .refl c⟩
  | cons x ss ih =>
    rw [executeAll, evalAll]
    have hx : ∀ n ∈ names D x, U n := fun n h => hn n (names_subset_allNames (by simp) h)
    refine .bind (hss x (by simp) hx hm) fun _ _ c₁ s₁ _ hpost => ?_
    obtain ⟨hm₁, hl₁⟩ := hpost
    refine (ih (fun y hy => hss y (by simp [hy])) (fun n h => hn n ?_) hm₁).mono
      fun _ _ _ _ hpost => ⟨hpost.1, hl₁.trans hpost.2⟩
    exact List.mem_append_right _ h

lemma parts_alike (hU : Clear U) (hss : ∀ x ∈ ss, Simulates D mode U x)
    (hn : ∀ n ∈ allNames D ss, U n) (hm : Models U time c s) :
      Alike (executeParts D mode ss) (evalParts D mode true time ss) c s
      fun parts rowss c' s' => Models U time c' s' ∧ Later c c' ∧
        List.Forall₂ (Copied c') parts rowss := by
  induction ss generalizing c s with
  | nil => exact .pure ⟨hm, .refl c, .nil⟩
  | cons x ss ih =>
    rw [executeParts, evalParts]
    have hx : ∀ n ∈ names D x, U n := fun n h => hn n (names_subset_allNames (by simp) h)
    refine .bind (hss x (by simp) hx hm) fun _ _ c₁ s₁ _ hpost => ?_
    obtain ⟨hm₁, hl₁⟩ := hpost
    refine .bind (capture_alike hU hm₁ hx) fun part rows c₂ s₂ _ hpost => ?_
    obtain ⟨hm₂, hl₂, hcopied⟩ := hpost
    refine .bind (ih (fun y hy => hss y (by simp [hy]))
      (fun n h => hn n (List.mem_append_right _ h)) hm₂) fun parts rowss c₃ s₃ _ hpost => ?_
    obtain ⟨hm₃, hl₃, hparts⟩ := hpost
    exact .pure ⟨hm₃, (hl₁.trans hl₂).trans hl₃, .cons (hcopied.later hl₃) hparts⟩

lemma byTypeAndId_idem (rows : Rows F) : byTypeAndId (byTypeAndId rows) = byTypeAndId rows := by
  have htotal : Std.Total fun a b : OutRow F => toLex (typeOrder a.type, a.id) ≤
      toLex (typeOrder b.type, b.id) :=
    ⟨fun _ _ => le_total _ _⟩
  have htrans : IsTrans (OutRow F) fun a b => toLex (typeOrder a.type, a.id) ≤
      toLex (typeOrder b.type, b.id) :=
    ⟨fun _ _ _ => le_trans⟩
  exact (List.pairwise_insertionSort _ _).insertionSort_eq

lemma union_simulates (hU : Clear U) {o : String} (hss : ∀ x ∈ ss, Simulates D mode U x) :
    Simulates D mode U (.union ss o) := by
  intro hn time c s hm
  rw [executeStatement, evalStatement]
  refine .bind (parts_alike hU hss (fun n h => hn n (List.mem_cons_of_mem _ h)) hm)
    fun parts rowss c₁ s₁ _ hpost => ?_
  obtain ⟨hm₁, hl₁, hparts⟩ := hpost
  refine .congr (bind_ok (mapM_selectFrom hparts)) rfl ?_
  exact (materialize_alike hU hm₁ (hn o (by simp [names]))).mono fun _ _ _ _ hpost =>
    ⟨hpost.1, hl₁.trans hpost.2⟩

lemma difference_simulates (hU : Clear U) {a b : Statement F} {o : String}
    (ha : Simulates D mode U a) (hb : Simulates D mode U b) :
    Simulates D mode U (.difference a b o) := by
  intro hn time c s hm
  have hna : ∀ n ∈ names D a, U n := fun n h => hn n (by simp [names, h])
  have hnb : ∀ n ∈ names D b, U n := fun n h => hn n (by simp [names, h])
  rw [executeStatement, evalStatement]
  refine .bind (ha hna hm) fun _ _ c₁ s₁ _ hpost => ?_
  obtain ⟨hm₁, hl₁⟩ := hpost
  refine .bind (capture_alike hU hm₁ hna) fun first rows c₂ s₂ _ hpost => ?_
  obtain ⟨hm₂, hl₂, hfirst⟩ := hpost
  refine .bind (hb hnb hm₂) fun _ _ c₃ s₃ _ hpost => ?_
  obtain ⟨hm₃, hl₃⟩ := hpost
  refine .bind (capture_alike hU hm₃ hnb) fun second others c₄ s₄ _ hpost => ?_
  obtain ⟨hm₄, hl₄, hsecond⟩ := hpost
  obtain ⟨_, _, _, hrows⟩ := (hfirst.later hl₃).later hl₄
  obtain ⟨_, _, _, hothers⟩ := hsecond
  refine .congr ((bind_ok (selectFrom_ok hrows)).trans (bind_ok (selectFrom_ok hothers))) rfl ?_
  exact (materialize_alike hU hm₄ (hn o (by simp [names]))).mono fun _ _ _ _ hpost =>
    ⟨hpost.1, ((hl₁.trans hl₂).trans (hl₃.trans hl₄)).trans hpost.2⟩

lemma foreach_simulates (hU : Clear U) {i o : String} {body : List (Statement F)}
    (hbody : ∀ x ∈ body, Simulates D mode U x) : Simulates D mode U (.foreach i o body) := by
  intro hn time c s hm
  have hnbody : ∀ n ∈ allNames D body, U n := fun n h => hn n (by simp [names, h])
  rw [executeStatement, evalStatement]
  refine .bind (reading_alike hm (requireSet_congr (hm.setsOf_eq hU (hn i (by simp [names])))))
    fun rows _ c₁ s₁ _ hpost => ?_
  obtain ⟨hrows, hm₁, hl₁⟩ := hpost
  subst hrows
  obtain ⟨hm₂, hl₂⟩ := hm₁.copy hU (byTypeAndId rows) (.inr rfl)
  have hcopy : ({ c₁ with
      next := c₁.next + 1, tables := c₁.tables.replace (foreachName c₁.next) (byTypeAndId rows) } :
        Context F γ).tables.select (foreachName c₁.next) = some (byTypeAndId rows) :=
    Catalog.select_replace_self
  have hfresh : (freshNumber : Run F γ ℕ) c₁ = .ok c₁.next { c₁ with next := c₁.next + 1 } := rfl
  have hcreate : (createOrReplace (foreachName c₁.next) (byTypeAndId rows) : Run F γ Unit)
      { c₁ with next := c₁.next + 1 } = .ok ()
        { c₁ with
          next := c₁.next + 1, tables := c₁.tables.replace (foreachName c₁.next)
            (byTypeAndId rows) } := rfl
  refine .congr ((bind_ok hfresh).trans ((bind_ok hcreate).trans (bind_ok (selectFrom_ok hcopy))))
    rfl ?_
  rw [byTypeAndId_idem]
  generalize hc₂ : ({ c₁ with
      next := c₁.next + 1, tables := c₁.tables.replace (foreachName c₁.next) (byTypeAndId rows) } :
        Context F γ) = c₂ at hm₂ hl₂ hcopy
  have hnext : c₁.next < c₂.next := hc₂ ▸ Nat.lt_succ_self _
  -- The copy of the input stays while the body runs.
  refine (Alike.loop (I := fun c' s' => Models U time c' s' ∧ Later c₂ c')
    (fun row _ c' s' hpre => ?_) ⟨hm₂, .refl c₂⟩).mono fun _ _ _ _ hpost =>
      ⟨hpost.1, (hl₁.trans hl₂).trans hpost.2⟩
  obtain ⟨hm', hl'⟩ := hpre
  refine .congr (bind_ok (selectFrom_ok ((hl'.foreach _ hnext).trans hcopy))) rfl ?_
  refine .bind (materialize_alike hU hm' (hn o (by simp [names]))) fun _ _ c₃ s₃ _ hpost => ?_
  obtain ⟨hm₃, hl₃⟩ := hpost
  exact (all_alike hbody hnbody hm₃).mono fun _ _ _ _ hpost =>
    ⟨hpost.1, (hl'.trans hl₃).trans hpost.2⟩

lemma if_simulates (hU : Clear U) {condition : List Char} {then' otherwise : List (Statement F)}
    (hthen : ∀ x ∈ then', Simulates D mode U x) (helse : ∀ x ∈ otherwise, Simulates D mode U x) :
    Simulates D mode U (.if' condition then' otherwise) := by
  intro hn time c s hm
  rw [executeStatement, evalStatement]
  have heq : evaluateText D (setsOf c.tables) condition = evaluateText D s.sets condition :=
    evaluateText_congr fun n h => hm.setsOf_eq hU (hn n (by simp [names, h]))
  refine .congr (bind_ok rfl) (bind_ok rfl) ?_
  refine .bind (raiseFrom_alike heq) fun value _ c₁ s₁ _ hpost => ?_
  obtain ⟨hvalue, _, hc, hs⟩ := hpost
  subst hvalue hc hs
  by_cases h : EvalSql.truthy value = true
  · rw [if_pos h, if_pos h]
    exact all_alike hthen (fun n hn' => hn n (by simp [names, hn'])) hm
  · rw [if_neg h, if_neg h]
    exact all_alike helse (fun n hn' => hn n (by simp [names, hn'])) hm

/-- Copies that were there when a block began are as they were when it has ended. -/
lemma later_restore (hU : Clear U) {c₁ c₂ : Context F γ} (hl₂ : Listed U c₂.tables)
    (h : Later c₁ c₂) (htables : c₁.tables = c.tables) (hnext : c.next ≤ c₁.next) (t : Option ℤ) :
    Later c { c₂ with snapshot := t, tables := restoreSets c.tables.tables c₂.tables } := by
  refine ⟨hnext.trans h.next, fun k hk => ?_, fun k hk => ?_⟩
  · show (restoreSets c.tables.tables c₂.tables).select (partName k) = _
    rw [select_restoreSets hU hl₂ (known_part k), h.part k (hk.trans_le hnext), htables]
    cases c.tables.select (partName k) <;> rfl
  · show (restoreSets c.tables.tables c₂.tables).select (foreachName k) = _
    rw [select_restoreSets hU hl₂ (known_foreach k), h.foreach k (hk.trans_le hnext), htables]
    cases c.tables.select (foreachName k) <;> rfl

lemma retro_simulates (hU : Clear U) {timeExpr : List Char} {body : List (Statement F)}
    (hbody : ∀ x ∈ body, Simulates D mode U x) : Simulates D mode U (.retro timeExpr body) := by
  intro hn time c s hm
  have hnbody : ∀ n ∈ allNames D body, U n := fun n h => hn n (by simp [names, h])
  have heq : evaluateRetroTime D (setsOf c.tables) timeExpr = evaluateRetroTime D s.sets timeExpr :=
    evaluateRetroTime_congr fun n h => hm.setsOf_eq hU (hn n (by simp [names, h]))
  rw [executeStatement, evalStatement]
  by_cases hhistory : (!D.hasHistory) = true
  · rw [if_pos hhistory, if_pos hhistory]
    exact .error rfl rfl
  rw [if_neg hhistory, if_neg hhistory]
  refine .congr (bind_ok rfl) (bind_ok rfl) ?_
  refine .bind (raiseFrom_alike heq) fun t _ c₀ s₀ _ hpost => ?_
  obtain ⟨ht, _, hc, hs⟩ := hpost
  subst ht hc hs
  refine .congr (bind_ok rfl) (bind_ok rfl) (.congr (bind_ok rfl) rfl (.congr (bind_ok rfl) rfl ?_))
  refine Alike.ensure (all_alike hbody hnbody ⟨hm.sets, hm.listed, rfl, ?_, hm.elements,
    hm.versions⟩) ?_
  · exact congrArg (fun notes => notes.warn (historyRemark D t).toList) hm.notes
  · rintro _ _ c₂ s₂ ⟨hm₂, hl₂⟩
    refine ⟨⟨fun n hn' => ?_, listed_restoreSets hm.listed hm₂.listed, hm.snapshot,
      hm₂.notes, hm₂.elements, hm₂.versions⟩,
        later_restore (c := c) hU hm₂.listed hl₂ rfl (Nat.le_add_right _ _) c.snapshot⟩
    show (restoreSets c.tables.tables c₂.tables).select n = outside s.sets s₂.sets n
    rw [select_restoreSets hU hm₂.listed (.inl hn'), hm.sets n hn', hm₂.sets n hn']
    rfl

/-- **A statement does to the tables what it means**, if its names are clear. -/
lemma simulates (hU : Clear U) : SetNames.Inherits (Simulates D mode U) where
  query q hn _ c s hm := by
    rw [executeStatement, evalStatement]
    exact written_alike hU hm (hn q.outputSet (by simp [names]))
      (queryRows_congr fun n h => hm.setsOf_eq hU (hn n (by simp [names, h])))
  union ss o hss := union_simulates hU hss
  difference a b o ha hb := difference_simulates hU ha hb
  recurse kind i o hn _ c s hm := by
    rw [executeStatement, evalStatement]
    exact written_alike hU hm (hn o (by simp [names]))
      (executeRecurseRows_congr (hm.setsOf_eq hU (hn i (by simp [names]))))
  item i o hn _ c s hm := by
    rw [executeStatement, evalStatement]
    exact written_alike hU hm (hn o (by simp [names]))
      (requireSet_congr (hm.setsOf_eq hU (hn i (by simp [names]))))
  isIn i o coords hn _ c s hm := by
    rw [executeStatement, evalStatement]
    exact written_alike hU hm (hn o (by simp [names]))
      (isInRows_congr fun _ => hm.setsOf_eq hU (hn i (by simp [names])))
  mapToArea i o hn _ c s hm := by
    rw [executeStatement, evalStatement]
    exact written_alike hU hm (hn o (by simp [names]))
      (mapToAreaRows_congr (hm.setsOf_eq hU (hn i (by simp [names]))))
  out o hn _ c s hm := by
    rw [executeStatement, evalStatement, executeOut]
    refine .bind
      (reading_alike hm (outElements_congr (hm.setsOf_eq hU (hn o.inputSet (by simp [names])))))
      fun printed _ c₁ s₁ _ hpost => ?_
    obtain ⟨hprinted, hm₁, hl₁⟩ := hpost
    subst hprinted
    refine .ok rfl rfl ⟨⟨hm₁.sets, hm₁.listed, hm₁.snapshot, hm₁.notes, ?_, ?_⟩, hl₁.next,
      hl₁.part, hl₁.foreach⟩
    · show c₁.elements ++ _ = s₁.elements ++ _
      rw [hm₁.elements]
    · show (if _ then c₁.versions ++ _ else c₁.versions) = if _ then s₁.versions ++ _
        else s₁.versions
      rw [hm₁.versions]
  foreach i o body hbody := foreach_simulates hU hbody
  if' c then' otherwise hthen helse := if_simulates hU hthen helse
  retro t body hbody := retro_simulates hU hbody
  timeline t i v o hn _ c s hm := by
    rw [executeStatement, evalStatement]
    exact written_alike hU hm (hn o (by simp [names])) rfl
  unsupported k source _ _ c s hm := by
    rw [executeStatement_unsupported, evalStatement_unsupported]
    exact .throw

end Runs

end OsmParquet.SetTables
