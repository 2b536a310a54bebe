import OsmParquet.AssignedSets

/-!
The polygons of areas, which are kept for a whole run.

They are kept under what a filter says. They are not looked up again when the set that it names is
written, nor when the area that it names by id is looked for at another time, where a way may have
been another one. The check goes through a program and follows which sets and ids have polygons that
are kept, and which of those would be others now. A program that passes prints what it would print
if every statement looked them up anew.
-/

namespace OsmParquet.KeptPolygons

open OsmParquet.KeyedList OsmParquet.Elements OsmParquet.Procedures OsmParquet.StatementReads
open OsmParquet.Statements OsmParquet.SetNames OsmParquet.Programs
open OsmParquet.ProgramMeaning (State Meaning assign looking evalStatement evalAll evalParts output
  rowsOf_eq outside)
open OsmParquet.QlParser (Bbox Statement Program Query)

variable {F γ α β : Type}

/-! ### Writing -/

mutual

/-- The sets that a statement and those inside of it write. -/
def writes : Statement F → List String
  | .query q => [q.outputSet]
  | .union ss o => o :: writesAll ss
  | .difference a b o => o :: (writes a ++ writes b)
  | .recurse _ _ o | .item _ o | .isIn _ o _ | .mapToArea _ o | .timeline _ _ _ o => [o]
  | .foreach _ o body => o :: writesAll body
  | .if' _ then' otherwise => writesAll then' ++ writesAll otherwise
  | .retro _ body => writesAll body
  | .out _ | .unsupported _ _ => []

def writesAll : List (Statement F) → List String
  | [] => []
  | s :: ss => writes s ++ writesAll ss

end

/-- All sets but those of a list are as they were. -/
def Beside (W : List String) (s s' : State F γ) : Prop := ∀ n ∉ W, s'.sets n = s.sets n

instance (W : List String) : Std.Refl (Beside (F := F) (γ := γ) W) := ⟨fun _ _ _ => rfl⟩

instance (W : List String) : IsTrans (State F γ) (Beside W) :=
  ⟨fun _ _ _ h h' n hn => (h' n hn).trans (h n hn)⟩

section Frame

variable {D : Dataset F γ} {mode : Mode F} {keep : Bool} {time : Option ℤ} {W : List String}
  {s : State F γ} {o : String} {rows : Rows F} {ss : List (Statement F)}

lemma raiseFrom_beside {x : Except Raised α} : Along (Beside W) (ProgramMeaning.raiseFrom x) s := by
  cases x with
  | ok a => exact .pure
  | error e => exact .throw

lemma looking_beside {m : Sets F → Reading γ α} : Along (Beside W) (looking keep m) s := by
  refine .bind .read fun s₁ s₂ hrun _ => ?_
  cases hrun
  exact .onPart (fun _ _ _ _ => rfl) .always

lemma assign_beside (ho : o ∈ W) : Along (Beside W) (assign D o rows) s := by
  refine .update fun n hn => ?_
  show Function.update s.sets o _ n = s.sets n
  rw [Function.update_apply, if_neg]
  rintro rfl
  exact hn ho

lemma written_beside {m : Sets F → Reading γ (Rows F)} (ho : o ∈ W) :
    Along (Beside W) (looking keep m >>= assign D o) s :=
  .bind looking_beside fun _ _ _ _ => assign_beside ho

lemma output_beside {x : Statement F} : Along (Beside W) (output x) s := by
  refine .bind raiseFrom_beside fun n s₁ _ _ => ?_
  cases hrows : s₁.sets n with
  | none => exact .error ((rowsOf_eq n s₁).trans (by rw [hrows]; rfl)) fun _ _ => rfl
  | some rows => exact .ok ((rowsOf_eq n s₁).trans (by rw [hrows]; rfl)) fun _ _ => rfl

/-- A statement changes no set that it does not write. -/
def Frames (D : Dataset F γ) (mode : Mode F) (keep : Bool) (x : Statement F) : Prop :=
  ∀ W, writes x ⊆ W → ∀ (time : Option ℤ) (s : State F γ),
    Along (Beside W) (evalStatement D mode keep time x) s

lemma all_beside (hss : ∀ x ∈ ss, Frames D mode keep x) (hW : writesAll ss ⊆ W) :
    Along (Beside W) (evalAll D mode keep time ss) s := by
  induction ss generalizing s with
  | nil => exact .pure
  | cons x ss ih =>
    obtain ⟨hx, hrest⟩ := List.append_subset.mp hW
    rw [evalAll]
    exact .bind (hss x (by simp) W hx time s) fun _ _ _ _ =>
      ih (fun y hy => hss y (by simp [hy])) hrest

lemma parts_beside (hss : ∀ x ∈ ss, Frames D mode keep x) (hW : writesAll ss ⊆ W) :
    Along (Beside W) (evalParts D mode keep time ss) s := by
  induction ss generalizing s with
  | nil => exact .pure
  | cons x ss ih =>
    obtain ⟨hx, hrest⟩ := List.append_subset.mp hW
    rw [evalParts]
    exact .bind (hss x (by simp) W hx time s) fun _ _ _ _ => .bind output_beside fun _ _ _ _ =>
      .bind (ih (fun y hy => hss y (by simp [hy])) hrest) fun _ _ _ _ => .pure

lemma retro_frames {timeExpr : List Char} {body : List (Statement F)}
    (hbody : ∀ x ∈ body, Frames D mode keep x) : Frames D mode keep (.retro timeExpr body) := by
  intro W hW time s
  rw [evalStatement]
  by_cases hhistory : (!D.hasHistory) = true
  · rw [if_pos hhistory]
    exact .throw
  rw [if_neg hhistory]
  refine .bind .read fun before s₁ hrun _ => ?_
  cases hrun
  refine .bind raiseFrom_beside fun t s₁ hrun _ => ?_
  refine .bind (.update (R := Beside W) fun _ _ => rfl) fun _ s₂ hrun' hs₂ => ?_
  have hs₁ : s₁ = s := by
    cases htime : evaluateRetroTime D s.sets timeExpr with
    | error e =>
      rw [htime] at hrun
      cases hrun
    | ok u =>
      rw [htime] at hrun
      cases hrun
      rfl
  subst hs₁
  cases hrun'
  -- What the block does not write is the same before and after it.
  have hback : ∀ after : State F γ, Beside W s₁ after →
      Beside W s₁ { after with sets := outside s₁.sets after.sets } := fun after h n hn => by
    show outside s₁.sets after.sets n = s₁.sets n
    rw [outside, h n hn]
    cases s₁.sets n <;> rfl
  exact (all_beside (s := { s₁ with notes := _ }) hbody hW).ensure (fun _ => hback) fun _ => hback

/-- **A statement writes its sets and no others**, also when it raises. -/
lemma frames : Inherits (Frames D mode keep) where
  query q W hW time s := by
    rw [evalStatement]
    exact written_beside (hW (by simp [writes]))
  union ss o hss W hW time s := by
    obtain ⟨ho, hW⟩ := List.cons_subset.mp hW
    rw [evalStatement]
    exact .bind (parts_beside hss hW) fun _ _ _ _ => assign_beside ho
  difference a b o ha hb W hW time s := by
    obtain ⟨ho, hW⟩ := List.cons_subset.mp hW
    obtain ⟨hWa, hWb⟩ := List.append_subset.mp hW
    rw [evalStatement]
    exact .bind (ha W hWa time s) fun _ _ _ _ => .bind output_beside fun _ s₂ _ _ =>
      .bind (hb W hWb time s₂) fun _ _ _ _ => .bind output_beside fun _ _ _ _ => assign_beside ho
  recurse kind i o W hW time s := by
    rw [evalStatement]
    exact written_beside (hW (by simp [writes]))
  item i o W hW time s := by
    rw [evalStatement]
    exact written_beside (hW (by simp [writes]))
  isIn i o coords W hW time s := by
    rw [evalStatement]
    exact written_beside (hW (by simp [writes]))
  mapToArea i o W hW time s := by
    rw [evalStatement]
    exact written_beside (hW (by simp [writes]))
  out o W hW time s := by
    rw [evalStatement]
    exact .bind looking_beside fun _ _ _ _ => .update fun _ _ => rfl
  foreach i o body hbody W hW time s := by
    obtain ⟨ho, hW⟩ := List.cons_subset.mp hW
    rw [evalStatement]
    exact .bind looking_beside fun rows _ _ _ => .loop fun row _ s₂ _ =>
      .bind (assign_beside ho) fun _ _ _ _ => all_beside hbody hW
  if' c then' otherwise hthen helse W hW time s := by
    obtain ⟨hWt, hWe⟩ := List.append_subset.mp hW
    rw [evalStatement]
    refine .bind .read fun _ _ _ _ => .bind raiseFrom_beside fun _ _ _ _ => ?_
    split_ifs
    · exact all_beside hthen hWt
    · exact all_beside helse hWe
  retro t body hbody := retro_frames hbody
  timeline e i v o W hW time s := by
    rw [evalStatement]
    exact written_beside (hW (by simp [writes]))
  unsupported k source W hW time s := by
    rw [evalStatement]
    exact .throw

end Frame

/-! ### The check -/

/-- The sets whose polygons may be kept, and those of them that may have been written since. The ids
of areas whose polygons may be kept, and those of them that may have been looked up at another
time. -/
structure Seen where
  kept : List String := []
  stale : List String := []
  ids : List ℤ := []
  staleIds : List ℤ := []

namespace Seen

variable {v w : Seen} {o n : String} {ns : List String} {is : List ℤ}

def write (v : Seen) (o : String) : Seen :=
  if o ∈ v.kept then { v with stale := o :: v.stale } else v

def look (v : Seen) (ns : List String) (is : List ℤ) : Seen :=
  { v with kept := ns ++ v.kept, ids := is ++ v.ids }

def join (v w : Seen) : Seen :=
  ⟨v.kept ++ w.kept, v.stale ++ w.stale, v.ids ++ w.ids, v.staleIds ++ w.staleIds⟩

/-- In a block with a time of its own. -/
def enter (v : Seen) : Seen := { v with staleIds := v.ids ++ v.staleIds }

/-- Behind such a block, which has written some sets: these are as they were before it, and only in
the block ids have been looked up at its time. -/
def leave (v inside : Seen) (ns : List String) : Seen :=
  { inside with
    stale := inside.kept.filter (· ∈ ns) ++ inside.stale
    staleIds := v.staleIds ++ inside.ids.filter (· ∉ v.ids) }

structure Below (v w : Seen) : Prop where
  kept : v.kept ⊆ w.kept
  stale : v.stale ⊆ w.stale
  ids : v.ids ⊆ w.ids
  staleIds : v.staleIds ⊆ w.staleIds

instance : Decidable (Below v w) :=
  decidable_of_iff (v.kept ⊆ w.kept ∧ v.stale ⊆ w.stale ∧ v.ids ⊆ w.ids ∧ v.staleIds ⊆ w.staleIds)
    ⟨fun h => ⟨h.1, h.2.1, h.2.2.1, h.2.2.2⟩, fun h => ⟨h.1, h.2, h.3, h.4⟩⟩

lemma Below.refl (v : Seen) : Below v v :=
  ⟨List.Subset.refl _, List.Subset.refl _, List.Subset.refl _, List.Subset.refl _⟩

lemma join_left : Below v (join v w) :=
  ⟨List.subset_append_left _ _, List.subset_append_left _ _, List.subset_append_left _ _,
    List.subset_append_left _ _⟩

lemma join_right : Below w (join v w) :=
  ⟨List.subset_append_right _ _, List.subset_append_right _ _, List.subset_append_right _ _,
    List.subset_append_right _ _⟩

lemma below_look : Below v (v.look ns is) :=
  ⟨List.subset_append_right _ _, List.Subset.refl _, List.subset_append_right _ _,
    List.Subset.refl _⟩

lemma below_write : Below v (v.write o) := by
  rw [write]
  split_ifs
  · exact ⟨List.Subset.refl _, List.subset_cons_self _ _, List.Subset.refl _, List.Subset.refl _⟩
  · exact .refl v

lemma stale_write (hn : n ∈ v.kept) : n ∈ (v.write n).stale := by
  rw [write, if_pos hn]
  exact List.mem_cons_self

end Seen

/-- The set of an area filter that names no area. -/
def areaSet : QlParser.Filter F → List String
  | .area setName areaId => if areaId.isNone then [setName.getD "_"] else []
  | _ => []

def areaId : QlParser.Filter F → List ℤ
  | .area _ areaId => areaId.toList
  | _ => []

/-- The sets whose polygons a query looks up. -/
def areaSets (q : Query F) : List String :=
  if .area ∈ q.types then [] else q.filters.flatMap areaSet

/-- The areas that a query looks up by id. -/
def areaIds (q : Query F) : List ℤ := if .area ∈ q.types then [] else q.filters.flatMap areaId

mutual

/-- No polygons are read that have been kept for a set with other rows, or for an id at another
time. -/
def fresh (v : Seen) : Statement F → Option Seen
  | .query q =>
    if (areaSets q).all (· ∉ v.stale) ∧ (areaIds q).all (· ∉ v.staleIds) then
      some ((v.look (areaSets q) (areaIds q)).write q.outputSet)
    else none
  | .union ss o => (freshAll v ss).map (·.write o)
  | .difference a b o => (fresh v a).bind fun v₁ => (fresh v₁ b).map (·.write o)
  | .recurse _ _ o | .item _ o | .isIn _ o _ | .mapToArea _ o | .timeline _ _ _ o =>
    some (v.write o)
  | .out _ | .unsupported _ _ => some v
  -- A pass after the first one has nothing to add.
  | .foreach _ o body => (freshAll (v.write o) body).bind fun v₁ =>
    (freshAll ((v.join v₁).write o) body).bind fun v₂ =>
      if Seen.Below v₂ (v.join v₁) then some (v.join v₁) else none
  | .if' _ then' otherwise => (freshAll v then').bind fun v₁ => (freshAll v otherwise).map v₁.join
  | .retro _ body => (freshAll v.enter body).map fun inside => v.leave inside (writesAll body)

def freshAll (v : Seen) : List (Statement F) → Option Seen
  | [] => some v
  | s :: ss => (fresh v s).bind fun v₁ => freshAll v₁ ss

end

/-! ### What is kept -/

/-- The block that a statement stands in: its time, and what was kept when it began, with ids that
no statement of the block looks up. -/
structure Block (γ : Type) where
  time : Option ℤ
  ids : List ℤ
  polygons : List (AreaRef × γ)

/-- Polygons that a lookup would find now. -/
structure Current (D : Dataset F γ) (B : Block γ) (sets : Sets F) (v : Seen) (ref : AreaRef)
    (polygons : γ) : Prop where
  byId : ∀ id, ref.2 = some id →
    id ∈ v.ids ∧ (id ∉ v.staleIds → polygons = (D.areaPolygonsById B.time id).1)
  before : ∀ id, ref.2 = some id → id ∈ B.ids → (ref, polygons) ∈ B.polygons
  kept : ref.2 = none → ref.1.getD "_" ∈ v.kept
  bySet : ref.2 = none → ref.1.getD "_" ∉ v.stale → ∃ rows, sets (ref.1.getD "_") = some rows ∧
    polygons = (D.areaPolygons rows).1

/-- Notes that differ in the polygons that are kept, and in how often they were looked up. -/
structure Looking (D : Dataset F γ) (B : Block γ) (sets : Sets F) (v : Seen) (n n' : Notes γ) :
    Prop where
  stale : B.ids ⊆ v.staleIds
  warnings : n.warnings = n'.warnings
  filesRead : n.filesRead ≤ n'.filesRead
  current : ∀ x ∈ n.areaPolygons, Current D B sets v x.1 x.2
  current' : ∀ x ∈ n'.areaPolygons, Current D B sets v x.1 x.2
  more : ∀ ref, ref ∈ n'.areaPolygons.map Prod.fst → ref ∈ n.areaPolygons.map Prod.fst

section Reading

variable {D : Dataset F γ} {sets : Sets F} {v : Seen} {globalBbox : Option (Bbox F)} {B : Block γ}

/-- A reading that does not depend on what is kept. -/
abbrev Even (D : Dataset F γ) (B : Block γ) (sets : Sets F) (v : Seen) (m : Reading γ α) : Prop :=
  Keeps (Looking D B sets v) m m

lemma note_even {filesRead : ℕ} {ws : List Warning} : Even D B sets v (note filesRead ws) :=
  .update fun _ _ h => ⟨h.stale, congrArg (ws.foldl addWarning) h.warnings,
    Nat.add_le_add_right h.filesRead _, h.current, h.current', h.more⟩

lemma reply_even {r : Reply F} : Even D B sets v (reply r) := .bind note_even fun _ => .pure

lemma lift_even {x : Except Raised α} : Even D B sets v (lift x) := by
  cases x with
  | ok a => exact .pure
  | error e => exact .throw

lemma requireSet_even {name : String} : Even D B sets v (requireSet sets name) := by
  rw [requireSet]
  cases sets name with
  | some rows => exact .pure
  | none => exact .throw

/-- A lookup in which nothing is stale. -/
structure Sound (v : Seen) (ref : AreaRef) : Prop where
  bySet : ref.2 = none → ref.1.getD "_" ∈ v.kept ∧ ref.1.getD "_" ∉ v.stale
  byId : ∀ id, ref.2 = some id → id ∈ v.ids ∧ id ∉ v.staleIds

lemma areaPolygonTable_cases (D : Dataset F γ) (sets : Sets F) {ref : AreaRef}
    (hstale : B.ids ⊆ v.staleIds) (href : Sound v ref) :
    (∃ found, (areaPolygonTable D sets B.time ref : Reading γ (γ × ℕ)) = pure found ∧
      Current D B sets v ref found.1) ∨
      ∃ e, (areaPolygonTable D sets B.time ref : Reading γ (γ × ℕ)) = throw e := by
  obtain ⟨setName, areaId⟩ := ref
  cases areaId with
  | some id =>
    obtain ⟨hid, hfresh⟩ := href.byId id rfl
    refine .inl ⟨D.areaPolygonsById B.time id, rfl, fun i hi => ?_, fun i hi hB => ?_,
      fun h => (nomatch h), fun h => (nomatch h)⟩
    · cases hi
      exact ⟨hid, fun _ => rfl⟩
    · cases hi
      exact absurd (hstale hB) hfresh
  | none =>
    obtain ⟨hkept, -⟩ := href.bySet rfl
    cases hrows : sets (setName.getD "_") with
    | some rows =>
      refine .inl ⟨D.areaPolygons rows, ?_, fun _ hi => (nomatch hi), fun _ hi => (nomatch hi),
        fun _ => hkept, fun _ _ => ⟨rows, hrows, rfl⟩⟩
      simp only [areaPolygonTable, requireSet, hrows]
      rfl
    | none =>
      refine .inr ⟨notSet (setName.getD "_"), ?_⟩
      simp only [areaPolygonTable, requireSet, hrows]
      rfl

/-- What is kept is what the lookup would find. -/
lemma Current.table {ref : AreaRef} {x : γ} (href : Sound v ref) (hx : Current D B sets v ref x) :
    ∃ found, (areaPolygonTable D sets B.time ref : Reading γ (γ × ℕ)) = pure found ∧
      found.1 = x := by
  obtain ⟨setName, areaId⟩ := ref
  cases areaId with
  | some id =>
    exact ⟨D.areaPolygonsById B.time id, rfl, ((hx.byId id rfl).2 (href.byId id rfl).2).symm⟩
  | none =>
    obtain ⟨rows, hrows, rfl⟩ := hx.bySet rfl (href.bySet rfl).2
    dsimp only at hrows
    refine ⟨D.areaPolygons rows, ?_, rfl⟩
    simp only [areaPolygonTable, requireSet, hrows]
    rfl

lemma Current.unique {ref : AreaRef} {x y : γ} (href : Sound v ref) (hx : Current D B sets v ref x)
    (hy : Current D B sets v ref y) : x = y := by
  cases hid : ref.2 with
  | some id =>
    have hfresh := (href.byId id hid).2
    rw [(hx.byId id hid).2 hfresh, (hy.byId id hid).2 hfresh]
  | none =>
    obtain ⟨rows, hrows, rfl⟩ := hx.bySet hid (href.bySet hid).2
    obtain ⟨rows', hrows', rfl⟩ := hy.bySet hid (href.bySet hid).2
    rw [hrows] at hrows'
    cases hrows'
    rfl

lemma areaGeom_found {ref : AreaRef} {n : Notes γ} {x : AreaRef × γ}
    (h : lookup Prod.fst ref n.areaPolygons = some x) :
    areaGeom D sets B.time ref n = .ok x.2 n := by
  have hget : (get : Reading γ (Notes γ)) n = .ok n n := rfl
  rw [areaGeom, bind_ok hget]
  rw [h]
  rfl

lemma areaGeom_looked {ref : AreaRef} {n : Notes γ} {found : γ × ℕ}
    (h : lookup Prod.fst ref n.areaPolygons = none)
    (hfound : (areaPolygonTable D sets B.time ref : Reading γ (γ × ℕ)) = pure found) :
    areaGeom D sets B.time ref n = .ok found.1 { n with
      filesRead := n.filesRead + found.2, areaPolygons := n.areaPolygons ++ [(ref, found.1)] } := by
  have hget : (get : Reading γ (Notes γ)) n = .ok n n := rfl
  rw [areaGeom, bind_ok hget]
  rw [h, hfound]
  rfl

lemma areaGeom_raised {ref : AreaRef} {n : Notes γ} {e : Raised}
    (h : lookup Prod.fst ref n.areaPolygons = none)
    (hraised : (areaPolygonTable D sets B.time ref : Reading γ (γ × ℕ)) = throw e) :
    areaGeom D sets B.time ref n = .error e n := by
  have hget : (get : Reading γ (Notes γ)) n = .ok n n := rfl
  rw [areaGeom, bind_ok hget]
  rw [h, hraised]
  rfl

lemma areaGeom_even {ref : AreaRef} (href : Sound v ref) :
    Even D B sets v (areaGeom D sets B.time ref) := by
  intro n n' h
  have hadd : ∀ {m : Notes γ} {x : γ}, (∀ y ∈ m.areaPolygons, Current D B sets v y.1 y.2) →
      Current D B sets v ref x →
      ∀ y ∈ m.areaPolygons ++ [(ref, x)], Current D B sets v y.1 y.2 := fun hm hx y hy => by
    rcases List.mem_append.mp hy with hy | hy
    · exact hm y hy
    · obtain rfl := List.mem_singleton.mp hy
      exact hx
  have hfirst : ∀ {m : Notes γ} {x : AreaRef × γ},
      (∀ y ∈ m.areaPolygons, Current D B sets v y.1 y.2) →
      lookup Prod.fst ref m.areaPolygons = some x → Current D B sets v ref x.2 := fun hm hx => by
    have hcurrent := hm _ (mem_of_lookup hx)
    rwa [key_of_lookup hx] at hcurrent
  cases hn : lookup Prod.fst ref n.areaPolygons with
  | some x =>
    have hx := hfirst h.current hn
    cases hn' : lookup Prod.fst ref n'.areaPolygons with
    | some x' =>
      exact .ok (areaGeom_found hn) (areaGeom_found hn') ⟨hx.unique href (hfirst h.current' hn'), h⟩
    | none =>
      obtain ⟨found, hfound, hsame⟩ := hx.table href
      refine .ok (areaGeom_found hn) (areaGeom_looked hn' hfound) ⟨hsame.symm, h.stale, h.warnings,
        ?_, h.current, hadd h.current' (hsame ▸ hx), fun r hr => ?_⟩
      · exact h.filesRead.trans (Nat.le_add_right _ _)
      · rw [List.map_append, List.mem_append] at hr
        rcases hr with hr | hr
        · exact h.more r hr
        · obtain rfl := List.mem_singleton.mp hr
          exact lookup_isSome.mp (hn ▸ rfl)
  | none =>
    have hn' : lookup Prod.fst ref n'.areaPolygons = none := lookup_eq_none.mpr fun hmem =>
      lookup_eq_none.mp hn (h.more ref hmem)
    rcases areaPolygonTable_cases D sets h.stale href with ⟨found, hfound, hcurrent⟩ | ⟨e, he⟩
    · refine .ok (areaGeom_looked hn hfound) (areaGeom_looked hn' hfound) ⟨rfl, h.stale, h.warnings,
        Nat.add_le_add_right h.filesRead _, hadd h.current hcurrent, hadd h.current' hcurrent,
          fun r hr => ?_⟩
      rw [List.map_append, List.mem_append] at hr ⊢
      exact hr.imp_left (h.more r)
    · exact .error (areaGeom_raised hn he) (areaGeom_raised hn' he)

/-- Of a filter no set and no id is stale. -/
structure FilterSound (v : Seen) (f : QlParser.Filter F) : Prop where
  bySet : ∀ n ∈ areaSet f, n ∈ v.kept ∧ n ∉ v.stale
  byId : ∀ i ∈ areaId f, i ∈ v.ids ∧ i ∉ v.staleIds

lemma FilterSound.area {setName : Option String} {areaId : Option ℤ}
    (h : FilterSound v (.area setName areaId : QlParser.Filter F)) : Sound v (setName, areaId) := by
  refine ⟨fun hid => h.bySet _ ?_, fun id hid => h.byId id ?_⟩
  · dsimp only at hid
    subst hid
    exact List.mem_singleton_self _
  · dsimp only at hid
    subst hid
    exact List.mem_singleton_self _

lemma impliedBbox_even {f : QlParser.Filter F} (h : FilterSound v f) :
    Even D B sets v (impliedBbox D sets B.time f) := by
  cases f with
  | around radius setName coords =>
    rw [impliedBbox]
    cases aroundSet setName coords with
    | none => exact .pure
    | some name => exact .bind requireSet_even fun _ => .pure
  | area setName areaId =>
    have hsound := h.area
    rw [impliedBbox]
    split_ifs
    · exact .bind note_even fun _ => .bind (areaGeom_even hsound) fun _ => .pure
    · exact .bind (areaGeom_even hsound) fun _ => .pure
  | pivot setName => exact .bind requireSet_even fun _ => .pure
  | _ => exact .pure

lemma filterInput_even {f : QlParser.Filter F} (h : FilterSound v f) :
    Even D B sets v (filterInput D sets B.time f) := by
  cases f with
  | around radius setName coords =>
    rw [filterInput]
    cases aroundSet setName coords with
    | none => exact .pure
    | some name => exact .map requireSet_even
  | area setName areaId => exact .map (areaGeom_even h.area)
  | pivot setName => exact .map requireSet_even
  | _ => exact .pure

lemma hookPredicates_even {q : Query F} {base : Rows F} {fs : List (QlParser.Filter F)}
    (h : ∀ f ∈ fs, FilterSound v f) :
    Even D B sets v (hookPredicates D globalBbox sets B.time q base fs) := by
  induction fs with
  | nil => exact .pure
  | cons f fs ih =>
    have ih := ih fun g hg => h g (by simp [hg])
    rw [hookPredicates]
    split_ifs
    · exact .bind (filterInput_even (h f (by simp))) fun _ => .bind lift_even fun _ =>
        .bind note_even fun _ =>
        .bind ih fun _ => .pure
    · exact ih

lemma baseSelect_even {q : Query F} {bbox : Option (Bbox F)} :
    Even D B sets v (baseSelect D sets B.time q bbox) := by
  rw [baseSelect]
  rcases recurseFilterFor q with _ | ⟨kind, name, role⟩
  · dsimp only
    split_ifs
    · exact .bind (.mapM fun _ _ => requireSet_even) fun _ => .pure
    · exact .bind note_even fun _ => .bind lift_even fun _ => reply_even
    · exact .bind lift_even fun _ => reply_even
  · exact .bind requireSet_even fun _ => .bind lift_even fun _ => reply_even

lemma areaQueryRows_even {q : Query F} : Even D B sets v (areaQueryRows D sets B.time q) := by
  rw [areaQueryRows]
  by_cases havailable : (!D.areasAvailable) = true
  · rw [if_pos havailable]
    exact .bind note_even fun _ => .pure
  · rw [if_neg havailable]
    cases q.filters.findSome? areaRefused with
    | some e => exact .throw
    | none =>
      dsimp only
      split_ifs
      · exact .bind (.mapM fun _ _ => requireSet_even) fun _ => .pure
      · exact reply_even

/-- A query that looks up no stale polygons. -/
lemma queryRows_even {q : Query F} (h : ∀ n ∈ areaSets q, n ∈ v.kept ∧ n ∉ v.stale)
    (hids : ∀ i ∈ areaIds q, i ∈ v.ids ∧ i ∉ v.staleIds) :
    Even D B sets v (queryRows D globalBbox sets B.time q) := by
  unfold areaSets at h
  unfold areaIds at hids
  rw [queryRows]
  by_cases harea : QlParser.ElementType.area ∈ q.types
  · rw [if_pos harea]
    exact areaQueryRows_even
  · rw [if_neg harea] at h hids ⊢
    have hf : ∀ f ∈ q.filters, FilterSound v f := fun f hf =>
      ⟨fun n hn => h n (List.mem_flatMap.mpr ⟨f, hf, hn⟩),
        fun i hi => hids i (List.mem_flatMap.mpr ⟨f, hf, hi⟩)⟩
    refine .bind (.foldlM fun box f hmem => ?_) fun bbox => ?_
    · split_ifs
      · exact .bind (impliedBbox_even (hf f hmem)) fun _ => .pure
      · exact .pure
    · split_ifs
      · exact .pure
      · exact .bind baseSelect_even fun _ => .bind (hookPredicates_even hf) fun _ => .pure

end Reading

/-! ### Runs that keep them, and runs that do not -/

/-- Two runs in which the sets have the same rows, and that have printed the same. -/
structure Faithful (D : Dataset F γ) (B : Block γ) (v : Seen) (s t : State F γ) : Prop where
  stale : B.ids ⊆ v.staleIds
  sets : s.sets = t.sets
  warnings : s.notes.warnings = t.notes.warnings
  filesRead : s.notes.filesRead ≤ t.notes.filesRead
  elements : s.elements = t.elements
  versions : s.versions = t.versions
  current : ∀ x ∈ s.notes.areaPolygons, Current D B s.sets v x.1 x.2

/-- A statement does the same, whether the polygons are kept or looked up. -/
def Told (D : Dataset F γ) (mode : Mode F) (x : Statement F) : Prop :=
  ∀ v v', fresh v x = some v' → ∀ (B : Block γ) (s t : State F γ), Faithful D B v s t →
    Alike (evalStatement D mode true B.time x) (evalStatement D mode false B.time x) s t
      fun _ _ s' t' => Faithful D B v' s' t'

section Runs

variable {D : Dataset F γ} {mode : Mode F} {B : Block γ} {v w : Seen} {s t : State F γ} {o : String}
  {rows : Rows F} {ss : List (Statement F)} {sets : Sets F}

lemma Current.mono {ref : AreaRef} {x : γ} (h : Current D B sets v ref x) (hvw : v.Below w) :
    Current D B sets w ref x :=
  ⟨fun id hid => ⟨hvw.ids (h.byId id hid).1, fun hn => (h.byId id hid).2 fun hs => hn
    (hvw.staleIds hs)⟩, h.before, fun hid => hvw.kept (h.kept hid),
      fun hid hn => h.bySet hid fun hs => hn (hvw.stale hs)⟩

lemma Faithful.mono (h : Faithful D B v s t) (hvw : v.Below w) : Faithful D B w s t :=
  { h with
    stale := List.Subset.trans h.stale hvw.staleIds
    current := fun x hx => (h.current x hx).mono hvw }

lemma looking_told {m : Sets F → Reading γ α} (h : Faithful D B v s t) (hvw : v.Below w)
    (hm : Even D B s.sets w (m s.sets)) :
    Alike (looking true m) (looking false m) s t fun a b s' t' => a = b ∧ Faithful D B w s' t' := by
  have hstart : Looking D B s.sets w (s.kept true) (t.kept false) :=
    ⟨List.Subset.trans h.stale hvw.staleIds, h.warnings, h.filesRead,
      fun x hx => (h.current x hx).mono hvw, fun _ hx => absurd hx List.not_mem_nil,
        fun _ hx => absurd hx List.not_mem_nil⟩
  have hrun : looking true m s = onPart (State.kept true) (fun notes s => { s with notes })
      (m s.sets) s := rfl
  have hrun' : looking false m t = onPart (State.kept false) (fun notes s => { s with notes })
      (m s.sets) t := by
    rw [h.sets]
    rfl
  refine .congr hrun hrun' (hm.onPart hstart fun n n' hn => ?_)
  exact ⟨hn.stale, h.sets, hn.warnings, hn.filesRead, h.elements, h.versions, hn.current⟩

lemma assign_told (h : Faithful D B v s t) : Alike (assign D o rows) (assign D o rows) s t
    fun _ _ s' t' => Faithful D B (v.write o) s' t' := by
  refine .ok rfl rfl ⟨List.Subset.trans h.stale Seen.below_write.staleIds,
    congrArg (Function.update · o _) h.sets, h.warnings, h.filesRead, h.elements, h.versions,
      fun x hx => ?_⟩
  have hcurrent := (h.current x hx).mono (Seen.below_write (o := o))
  refine ⟨hcurrent.byId, hcurrent.before, hcurrent.kept, fun hid hn => ?_⟩
  obtain ⟨rows', hrows', hx⟩ := hcurrent.bySet hid hn
  refine ⟨rows', ?_, hx⟩
  show Function.update s.sets o _ _ = _
  rw [Function.update_apply, if_neg, hrows']
  rintro rfl
  exact hn (Seen.stale_write ((h.current x ‹_›).kept hid))

lemma written_told {m : Sets F → Reading γ (Rows F)} (h : Faithful D B v s t) (hvw : v.Below w)
    (hm : Even D B s.sets w (m s.sets)) : Alike (looking true m >>= assign D o)
    (looking false m >>= assign D o) s t
      fun _ _ s' t' => Faithful D B (w.write o) s' t' := by
  refine .bind (looking_told h hvw hm) fun rows _ s₁ t₁ _ hpost => ?_
  obtain ⟨hrows, h₁⟩ := hpost
  subst hrows
  exact assign_told h₁

lemma raiseFrom_told {x y : Except Raised α} (hxy : x = y) :
    Alike (ProgramMeaning.raiseFrom x) (ProgramMeaning.raiseFrom y) s t fun a b s' t' => a = b ∧
      s = s' ∧ t = t' :=
  (AssignedSets.raiseFrom_alike hxy).mono fun _ _ _ _ h => ⟨h.1, h.2.2⟩

lemma output_told {x : Statement F} (h : Faithful D B v s t) :
    Alike (output x) (output x) s t fun a b s' t' => a = b ∧ Faithful D B v s' t' := by
  refine .bind (raiseFrom_told (y := outputSetName x) rfl) fun n _ s₁ t₁ _ hpost => ?_
  obtain ⟨hn, hs, ht⟩ := hpost
  subst hn hs ht
  have hsets : t.sets n = s.sets n := congrFun h.sets.symm n
  cases hrows : s.sets n with
  | none =>
    exact .error ((rowsOf_eq n s).trans (by rw [hrows]; rfl))
      ((rowsOf_eq n t).trans (by rw [hsets, hrows]; rfl))
  | some rows =>
    exact .ok ((rowsOf_eq n s).trans (by rw [hrows]; rfl))
      ((rowsOf_eq n t).trans (by rw [hsets, hrows]; rfl)) ⟨rfl, h⟩

lemma all_told (hss : ∀ x ∈ ss, Told D mode x) (hv : freshAll v ss = some w)
    (h : Faithful D B v s t) :
    Alike (evalAll D mode true B.time ss) (evalAll D mode false B.time ss) s t fun _ _ s' t' =>
      Faithful D B w s' t' := by
  induction ss generalizing v s t with
  | nil =>
    obtain rfl : v = w := Option.some.inj hv
    exact .pure h
  | cons x ss ih =>
    obtain ⟨v₁, hx, hrest⟩ := Option.bind_eq_some_iff.mp hv
    rw [evalAll, evalAll]
    exact .bind (hss x (by simp) v v₁ hx B s t h) fun _ _ s₁ t₁ _ h₁ =>
      ih (fun y hy => hss y (by simp [hy])) hrest h₁

lemma parts_told (hss : ∀ x ∈ ss, Told D mode x) (hv : freshAll v ss = some w)
    (h : Faithful D B v s t) :
    Alike (evalParts D mode true B.time ss) (evalParts D mode false B.time ss) s t
      fun a b s' t' => a = b ∧ Faithful D B w s' t' := by
  induction ss generalizing v s t with
  | nil =>
    obtain rfl : v = w := Option.some.inj hv
    exact .pure ⟨rfl, h⟩
  | cons x ss ih =>
    obtain ⟨v₁, hx, hrest⟩ := Option.bind_eq_some_iff.mp hv
    rw [evalParts, evalParts]
    refine .bind (hss x (by simp) v v₁ hx B s t h) fun _ _ s₁ t₁ _ h₁ => ?_
    refine .bind (output_told h₁) fun rows _ s₂ t₂ _ hpost => ?_
    obtain ⟨hrows, h₂⟩ := hpost
    refine .bind (ih (fun y hy => hss y (by simp [hy])) hrest h₂) fun parts _ s₃ t₃ _ hpost => ?_
    obtain ⟨hparts, h₃⟩ := hpost
    subst hrows hparts
    exact .pure ⟨rfl, h₃⟩

lemma foreach_told {i : String} {body : List (Statement F)} (hbody : ∀ x ∈ body, Told D mode x) :
    Told D mode (.foreach i o body) := by
  intro v v' hv B s t h
  obtain ⟨v₁, -, hv⟩ := Option.bind_eq_some_iff.mp hv
  obtain ⟨v₂, hpass, hv⟩ := Option.bind_eq_some_iff.mp hv
  split_ifs at hv with hbelow
  obtain rfl := Option.some.inj hv
  rw [evalStatement, evalStatement]
  refine .bind (looking_told (w := v.join v₁) h Seen.join_left requireSet_even)
    fun rows _ s₁ t₁ _ hpost => ?_
  obtain ⟨hrows, h₁⟩ := hpost
  subst hrows
  refine Alike.loop (I := Faithful D B (v.join v₁)) (fun row _ s t h => ?_) h₁
  refine .bind (assign_told h) fun _ _ s₂ t₂ _ h₂ => ?_
  exact (all_told hbody hpass h₂).mono fun _ _ _ _ h₃ => h₃.mono hbelow

lemma if_told {condition : List Char} {then' otherwise : List (Statement F)}
    (hthen : ∀ x ∈ then', Told D mode x) (helse : ∀ x ∈ otherwise, Told D mode x) :
    Told D mode (.if' condition then' otherwise) := by
  intro v v' hv B s t h
  obtain ⟨v₁, hv₁, hv⟩ := Option.bind_eq_some_iff.mp hv
  obtain ⟨v₂, hv₂, rfl⟩ := Option.map_eq_some_iff.mp hv
  rw [evalStatement, evalStatement]
  refine .congr (bind_ok rfl) (bind_ok rfl) ?_
  refine .bind (raiseFrom_told (by rw [h.sets])) fun value _ s₁ t₁ _ hpost => ?_
  obtain ⟨hvalue, hs, ht⟩ := hpost
  subst hvalue hs ht
  by_cases hv : EvalSql.truthy value = true
  · rw [if_pos hv, if_pos hv]
    exact (all_told hthen hv₁ h).mono fun _ _ _ _ h' => h'.mono Seen.join_left
  · rw [if_neg hv, if_neg hv]
    exact (all_told helse hv₂ h).mono fun _ _ _ _ h' => h'.mono Seen.join_right

/-- What is kept when a block begins was looked up before it. -/
lemma faithful_enter (h : Faithful D B v s t) (u : ℤ) :
    Faithful D ⟨some u, v.ids ++ v.staleIds, s.notes.areaPolygons⟩ v.enter s t := by
  refine { h with stale := List.Subset.refl _, current := fun x hx => ?_ }
  have hcurrent := h.current x hx
  refine ⟨fun id hid => ?_, fun _ _ _ => hx, hcurrent.kept, hcurrent.bySet⟩
  have hmem : id ∈ v.ids := (hcurrent.byId id hid).1
  exact ⟨hmem, fun hn => absurd (List.mem_append_left _ hmem) hn⟩

/-- Behind a block the polygons are stale that belong to a set which the block has written, or to an
id that was first looked up in it. -/
lemma current_outside {before after : Sets F} {ns : List String} {kept : List (AreaRef × γ)} {u : ℤ}
    {inside : Seen} {ref : AreaRef} {x : γ} (hstale : B.ids ⊆ v.staleIds)
    (hkept : ∀ y ∈ kept, Current D B before v y.1 y.2)
    (h : Current D ⟨some u, v.ids ++ v.staleIds, kept⟩ after inside ref x)
    (hbeside : ∀ n ∉ ns, after n = before n) :
    Current D B (outside before after) (v.leave inside ns) ref x := by
  refine ⟨fun id hid => ⟨(h.byId id hid).1, fun hn => ?_⟩, fun id hid hB => ?_, h.kept,
    fun hid hn => ?_⟩
  · have hmem : id ∈ v.ids := by
      by_contra hnew
      exact hn (List.mem_append_right _
        (List.mem_filter.mpr ⟨(h.byId id hid).1, decide_eq_true hnew⟩))
    have hold := hkept _ (h.before id hid (List.mem_append_left _ hmem))
    exact (hold.byId id hid).2 fun hs => hn (List.mem_append_left _ hs)
  · have hold := hkept _ (h.before id hid (List.mem_append_right _ (hstale hB)))
    exact hold.before id hid hB
  · have hwritten : ref.1.getD "_" ∉ ns := fun hmem =>
      hn (List.mem_append_left _ (List.mem_filter.mpr ⟨h.kept hid, by simpa using hmem⟩))
    obtain ⟨rows, hrows, hx⟩ := h.bySet hid fun hs => hn (List.mem_append_right _ hs)
    refine ⟨rows, ?_, hx⟩
    rw [outside, ← hbeside _ hwritten, hrows]

lemma retro_told {timeExpr : List Char} {body : List (Statement F)}
    (hbody : ∀ x ∈ body, Told D mode x) : Told D mode (.retro timeExpr body) := by
  intro v v' hv B s t h
  obtain ⟨inside, hinside, rfl⟩ := Option.map_eq_some_iff.mp hv
  rw [evalStatement, evalStatement]
  by_cases hhistory : (!D.hasHistory) = true
  · rw [if_pos hhistory, if_pos hhistory]
    exact .error rfl rfl
  rw [if_neg hhistory, if_neg hhistory]
  refine .congr (bind_ok rfl) (bind_ok rfl) ?_
  refine .bind (raiseFrom_told (by rw [h.sets])) fun u _ s₁ t₁ _ hpost => ?_
  obtain ⟨hu, hs, ht⟩ := hpost
  subst hu hs ht
  refine .congr (bind_ok rfl) (bind_ok rfl) ?_
  have henter : Faithful D ⟨some u, v.ids ++ v.staleIds, s.notes.areaPolygons⟩ v.enter
      { s with notes := s.notes.warn (historyRemark D u).toList }
      { t with notes := t.notes.warn (historyRemark D u).toList } :=
    { faithful_enter h u with
      warnings := congrArg ((historyRemark D u).toList.foldl addWarning) h.warnings }
  have hframes : ∀ x ∈ body, Frames D mode true x := fun x _ => frames.holds x
  refine ((all_told hbody hinside henter).and_ends (all_beside hframes (List.Subset.refl _))).ensure
    fun _ _ s₂ t₂ hpost => ?_
  obtain ⟨h₂, hbeside⟩ := hpost
  refine ⟨List.Subset.trans h.stale (List.subset_append_left _ _), ?_, h₂.warnings, h₂.filesRead,
    h₂.elements, h₂.versions, fun x hx => current_outside h.stale h.current
      (h₂.current x hx) hbeside⟩
  show outside s.sets s₂.sets = outside t.sets t₂.sets
  rw [h.sets, h₂.sets]

/-- **Polygons that are kept are those that would be looked up**, in statements that pass the
check. -/
lemma told : Inherits (Told D mode) where
  query q v v' hv B s t h := by
    rw [fresh] at hv
    split_ifs at hv with hfresh
    obtain rfl := Option.some.inj hv
    rw [evalStatement, evalStatement]
    have hsets : ∀ n ∈ areaSets q, n ∉ v.stale := fun n hn => by
      simpa using List.all_eq_true.mp hfresh.1 n hn
    have hids : ∀ i ∈ areaIds q, i ∉ v.staleIds := fun i hi => by
      simpa using List.all_eq_true.mp hfresh.2 i hi
    exact written_told h Seen.below_look (queryRows_even
      (fun n hn => ⟨List.mem_append_left _ hn, hsets n hn⟩)
      fun i hi => ⟨List.mem_append_left _ hi, hids i hi⟩)
  union ss o hss v v' hv B s t h := by
    obtain ⟨v₁, hparts, rfl⟩ := Option.map_eq_some_iff.mp hv
    rw [evalStatement, evalStatement]
    refine .bind (parts_told hss hparts h) fun parts _ s₁ t₁ _ hpost => ?_
    obtain ⟨hp, h₁⟩ := hpost
    subst hp
    exact assign_told h₁
  difference a b o ha hb v v' hv B s t h := by
    obtain ⟨v₁, hv₁, hv⟩ := Option.bind_eq_some_iff.mp hv
    obtain ⟨v₂, hv₂, rfl⟩ := Option.map_eq_some_iff.mp hv
    rw [evalStatement, evalStatement]
    refine .bind (ha v v₁ hv₁ B s t h) fun _ _ s₁ t₁ _ h₁ => ?_
    refine .bind (output_told h₁) fun rows _ s₂ t₂ _ hpost => ?_
    obtain ⟨hrows, h₂⟩ := hpost
    refine .bind (hb v₁ v₂ hv₂ B s₂ t₂ h₂) fun _ _ s₃ t₃ _ h₃ => ?_
    refine .bind (output_told h₃) fun others _ s₄ t₄ _ hpost => ?_
    obtain ⟨hothers, h₄⟩ := hpost
    subst hrows hothers
    exact assign_told h₄
  recurse kind i o v v' hv B s t h := by
    obtain rfl := Option.some.inj hv
    rw [evalStatement, evalStatement]
    exact written_told h (Seen.Below.refl v) (.bind requireSet_even fun _ => reply_even)
  item i o v v' hv B s t h := by
    obtain rfl := Option.some.inj hv
    rw [evalStatement, evalStatement]
    exact written_told h (Seen.Below.refl v) requireSet_even
  isIn i o coords v v' hv B s t h := by
    obtain rfl := Option.some.inj hv
    rw [evalStatement, evalStatement]
    refine written_told h (Seen.Below.refl v) ?_
    unfold isInRows
    split_ifs
    · exact .bind note_even fun _ => .pure
    · cases coords with
      | some p => exact reply_even
      | none => exact .bind requireSet_even fun _ => reply_even
  mapToArea i o v v' hv B s t h := by
    obtain rfl := Option.some.inj hv
    rw [evalStatement, evalStatement]
    refine written_told h (Seen.Below.refl v) (.bind requireSet_even fun _ => ?_)
    split_ifs
    · exact .bind note_even fun _ => .pure
    · exact reply_even
  out o v v' hv B s t h := by
    obtain rfl := Option.some.inj hv
    rw [evalStatement, evalStatement]
    refine .bind (looking_told h (Seen.Below.refl v) (.bind requireSet_even fun _ => .pure))
      fun printed _ s₁ t₁ _ hpost => ?_
    obtain ⟨hprinted, h₁⟩ := hpost
    subst hprinted
    refine .ok rfl rfl ⟨h₁.stale, h₁.sets, h₁.warnings, h₁.filesRead, ?_, ?_, h₁.current⟩
    · exact congrArg (· ++ printed.1) h₁.elements
    · exact congrArg (fun versions => if mode.diffMode then versions ++ printed.2
        else versions) h₁.versions
  foreach i o body hbody := foreach_told hbody
  if' c then' otherwise hthen helse := if_told hthen helse
  retro t body hbody := retro_told hbody
  timeline e i vs o v v' hv B s t h := by
    obtain rfl := Option.some.inj hv
    rw [evalStatement, evalStatement]
    refine written_told h (Seen.Below.refl v) ?_
    rw [timelineRows]
    split_ifs
    · exact .throw
    · exact .pure
  unsupported k source v v' hv B s t h := by
    rw [evalStatement, evalStatement]
    exact .throw

end Runs

/-! ### Programs -/

/-- No query of the program reads polygons that have been kept for a set with other rows, or for an
id at another time. -/
def ReadsFresh (p : Program F) : Prop := (freshAll {} p.statements).isSome = true

instance (p : Program F) : Decidable (ReadsFresh p) := inferInstanceAs (Decidable (_ = true))

/-- What a run has printed, without the number of files that it has read. -/
def printed (pass : Pass F) : DiffActions.PassResult F × List QlLexer.Text :=
  (pass.result, pass.warnings)

section Programs

variable {p : Program F}

lemma meaning_told (D : Dataset F γ) (diffMode : Bool) (time : Option ℤ) (sets : Sets F)
    (hp : ReadsFresh p) :
    Alike (programMeaning D p true diffMode time) (programMeaning D p false diffMode time)
      (start D sets) (start D sets) fun _ _ s t =>
        printed (State.pass s) = printed (State.pass t) ∧
          s.notes.filesRead ≤ t.notes.filesRead := by
  obtain ⟨v, hv⟩ := Option.isSome_iff_exists.mp hp
  have hall : ∀ {time : Option ℤ} {s t : State F γ}, Faithful D ⟨time, [], []⟩ {} s t →
      Alike (evalAll D (modeOf p diffMode) true time p.statements)
        (evalAll D (modeOf p diffMode) false time p.statements) s t fun _ _ s t =>
          printed (State.pass s) = printed (State.pass t) ∧ s.notes.filesRead ≤ t.notes.filesRead :=
    fun {t} _ _ h => (all_told (B := ⟨t, [], []⟩) (fun x _ => told.holds x) hv h).mono
      fun _ _ s t h => by
      refine ⟨?_, h.filesRead⟩
      rw [printed, printed, State.pass, State.pass, h.elements, h.versions, h.warnings]
  have hstart : ∀ time, Faithful D ⟨time, [], []⟩ {} (start D sets) (start D sets) := fun _ =>
    ⟨List.nil_subset _, rfl, rfl, le_rfl, rfl, rfl, fun _ hx => absurd hx List.not_mem_nil⟩
  rw [programMeaning, programMeaning]
  cases ownDate p time with
  | none => exact hall (hstart time)
  | some date =>
    refine .bind (raiseFrom_told rfl) fun u _ s₁ t₁ _ hpost => ?_
    obtain ⟨hu, hs, ht⟩ := hpost
    subst hu hs ht
    exact .congr (bind_ok rfl) (bind_ok rfl) (hall { hstart (some u) with warnings := rfl })

end Programs

/-- **A program that passes the check prints what it would print without keeping polygons**, and
reads no more files. -/
theorem answer_keeping_polygons (D : Dataset F γ) (p : Program F) (hp : ReadsFresh p)
    (diffMode : Bool) (time : Option ℤ) (sets : Sets F) :
    (answer D p true diffMode time sets).map printed =
    (answer D p false diffMode time sets).map printed ∧
      ∀ a b, answer D p true diffMode time sets = .ok a →
        answer D p false diffMode time sets = .ok b → a.filesRead ≤ b.filesRead := by
  rcases meaning_told D diffMode time sets hp with
    ⟨run, run', hprinted, hfiles⟩ | ⟨run, run'⟩
  · rw [answer, answer, outcome, outcome, run, run']
    refine ⟨congrArg Except.ok hprinted, fun a b ha hb => ?_⟩
    cases ha
    cases hb
    exact hfiles
  · rw [answer, answer, outcome, outcome, run, run']
    refine ⟨rfl, fun a b ha => ?_⟩
    cases ha

/-- A row with bounds, and with a position in their south. -/
def boxed (type : ElType) (id south north : ℤ) : OutRow ℚ :=
  { bareRow type id with
    xmin := some 0, xmax := some 10, ymin := some south, ymax := some north, latE7 :=
      some south, lonE7 := some 5 }

/-- Two areas, with a node in each. -/
def twoAreas : Rows ℚ :=
  [boxed .area 1 0 10, boxed .area 2 20 30, boxed .node 3 5 5, boxed .node 4 25 25]

/-- `area->.a; node(area.a)->.n; way(area.a)->.w; retro("2020-01-01T00:00:00Z"){ node(area:1)->.b; }
.n out;`. -/
def nodesInAreas : Program ℚ where
  settings := {}
  statements := [.query { types := [.area], outputSet := "a" },
    .query { types := [.node], filters := [.area (some "a") none], outputSet := "n" },
    .query { types := [.way], filters := [.area (some "a") none], outputSet := "w" },
    .retro "\"2020-01-01T00:00:00Z\"".toList
      [.query { types := [.node], filters := [.area none (some 1)], outputSet := "b" }],
    .out { inputSet := "n" }]

theorem answer_keeping_polygons_nodesInAreas :
    (answer (inMemory fun _ => twoAreas) nodesInAreas true false none fun _ => none).map printed =
        (answer (inMemory fun _ => twoAreas) nodesInAreas false false
          none fun _ => none).map printed ∧
      ∀ a b, answer (inMemory fun _ => twoAreas) nodesInAreas true false
        none (fun _ => none) = .ok a →
        answer (inMemory fun _ => twoAreas) nodesInAreas false false none (fun _ => none) = .ok b →
          a.filesRead ≤ b.filesRead :=
  answer_keeping_polygons _ _ (by decide) false none _

/-- `area->.as; foreach .as->.a { node(area.a)->.n; .n out; }` prints the node in the first area
twice. -/
example : (answer (inMemory fun _ => twoAreas) { nodesInAreas with statements := [
    .query { types := [.area], outputSet := "as" }, .foreach "as" "a" [
      .query { types := [.node], filters := [.area (some "a") none], outputSet := "n" },
      .out { inputSet := "n" }]] } true false none fun _ => none).map
        (fun a => a.result.elements.map fun e => e.id) =
    .ok [3, 3] := rfl

/-- The area with the id 1 is not looked up at two times. -/
example : ¬ ReadsFresh { nodesInAreas with statements := [
    .query { types := [.node], filters := [.area none (some 1)], outputSet := "a" },
    .retro "\"2020-01-01T00:00:00Z\"".toList
      [.query { types := [.node], filters := [.area none (some 1)], outputSet := "b" }]] } := by
  decide

end OsmParquet.KeptPolygons
