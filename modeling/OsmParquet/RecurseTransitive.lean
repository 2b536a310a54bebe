import OsmParquet.Recurse
import OsmParquet.FrontierSearch

/-!
Recursion as far as it goes: down to all parts of a set, and up to all that it is a part of.

One step down gives the nodes of ways and the nodes and ways of relations, with the nodes of these
ways; all steps down also give the relations in relations. What is found is fetched from the files
of the cells around the elements it was found by, and by id for what is not there. A search in
rounds does not give again what is in the set, except that going down it keeps the relations of the
set.
-/

namespace OsmParquet.RecurseTransitive

open OsmParquet.KeyedList OsmParquet.Layers OsmParquet.Rows OsmParquet.Tiers OsmParquet.TierSteps
open OsmParquet.ByidReads OsmParquet.CellTree OsmParquet.Updater OsmParquet.Resolves
open OsmParquet.PrevCells OsmParquet.SpatialReads OsmParquet.RunSteps OsmParquet.OneCell
open OsmParquet.Findable OsmParquet.RelationQuery OsmParquet.WayGeometry OsmParquet.RelationBoxes
open OsmParquet.Recurse OsmParquet.FrontierSearch

abbrev Key := Typ × ℤ

/-- A row of a set: the type of an element and its columns. -/
abbrev SetRow := (t : Typ) × Row (ByidCols t)

def keyOf (r : SetRow) : Key := (r.1, r.2.id)

def refsOf : SetRow → List ℤ
  | ⟨.way, r⟩ => r.cols.refs
  | _ => []

def membersOf : SetRow → List Member
  | ⟨.relation, r⟩ => r.cols.members
  | _ => []

def bboxOf : SetRow → Option BBox
  | ⟨.way, r⟩ => r.cols.bbox
  | ⟨.relation, r⟩ => r.cols.bbox
  | _ => none

/-- What a hop back reads of a row. -/
def elemOf : SetRow → Elem
  | ⟨.node, r⟩ => ⟨.node, r.id, r.cols.coord⟩
  | ⟨t, r⟩ => ⟨t, r.id, none⟩

def allTypes : List Typ := [.node, .way, .relation]

/-! ### One hop forward -/

/-- The nodes of ways, and the members of relations of the types `memberTypes`. There is no hop
from a set when neither its ways nor its relations are asked for. -/
def forwardNewIds (src : List SetRow) (restrict : List Typ) (role : Option String)
    (memberTypes : List Typ) : Option (List Key) :=
  let ways := if .way ∈ restrict then
    [src.flatMap fun r => (refsOf r).map fun n => (Typ.node, n)] else []
  let relations := if .relation ∈ restrict ∧ memberTypes ≠ [] then
    [src.flatMap fun r => ((membersOf r).filter fun m =>
      decide (m.type ∈ memberTypes) && roleOk role m.role).map fun m => (m.type, m.ref)] else []
  if ways ++ relations = [] then none else some (ways ++ relations).flatten

/-! ### Fetching by a box -/

/-- The box around the ways and relations of a set. -/
def unionBbox (hint : List SetRow) : Option BBox := boxAround (hint.filterMap bboxOf)

/-- The cells around a box that are read: none when they are more than a fraction of all leaves. -/
def hintCells (s : Root) (t : Typ) (maxCellFraction : ℚ) (b : BBox) : List Cell :=
  let cells := cellsForBbox (catalogOf s) t (some (boxOf b))
  if maxCellFraction * (max s.base.leafCells.length 1 : ℕ) < cells.length then [] else cells

/-- The rows of `ids` that pass the tag filters, from the files of the cells around a box. Nothing
is read without a box or without cells. -/
def foundInBox (s : Root) (t : Typ) (maxCellFraction : ℚ) (ids : List ℤ) (bbox : Option BBox)
    (bboxWhere : BBox → SpatialCols t → Bool) (tagWhere : ByidCols t → Bool) :
    List (Row (ByidCols t)) :=
  match bbox with
  | none => []
  | some b =>
    let cells := hintCells s t maxCellFraction b
    if cells = [] then []
    else (currentRows s.deltas cells (filesOf (s.base.spatial t) cells) fun r =>
      bboxWhere b r.cols && tagWhere (byidCols r.cols) && decide (r.id ∈ ids)).map
        (Row.map byidCols)

/-- What is not found around the box is fetched by id. -/
def hydrateViaBbox (s : Root) (t : Typ) (maxCellFraction : ℚ) (ids : List ℤ) (bbox : Option BBox)
    (bboxWhere : BBox → SpatialCols t → Bool) (tagWhere : ByidCols t → Bool) :
    List (Row (ByidCols t)) :=
  let found := foundInBox s t maxCellFraction ids bbox bboxWhere tagWhere
  found ++ buildByidSelect (s.base.byid t) s.deltas
    (ids.filter fun i => decide (i ∉ found.map Row.id)) tagWhere

/-- Of the ways in the files only those are read whose own box meets the box. -/
def wayHydrateViaBbox (s : Root) (maxCellFraction : ℚ) (ids : List ℤ) (hint : List SetRow)
    (tagWhere : ByidCols .way → Bool) : List SetRow :=
  (hydrateViaBbox s .way maxCellFraction ids (unionBbox hint)
    (fun b c => meets (boxOf b) c.byid.bbox) tagWhere).map (Sigma.mk .way)

def nodeHydrateViaBbox (s : Root) (maxCellFraction : ℚ) (ids : List ℤ) (hint : List SetRow)
    (tagWhere : ByidCols .node → Bool) : List SetRow :=
  (hydrateViaBbox s .node maxCellFraction ids (unionBbox hint) (fun _ _ => true) tagWhere).map
    (Sigma.mk .node)

/-- Relations found by a hop forward have no cell and are fetched by id. -/
def relationHydrate (s : Root) (ids : List ℤ) : List SetRow :=
  (buildByidSelect (s.base.byid .relation) s.deltas ids fun _ => true).map (Sigma.mk .relation)

def idsAt (t : Typ) (keys : List Key) : List ℤ := (keys.filter fun k => k.1 = t).map Prod.snd

/-! ### One step and all steps -/

/-- One step down. -/
def forwardOneHop (s : Root) (src : List SetRow) (maxCellFraction : ℚ) : List SetRow :=
  match forwardNewIds src allTypes none [.node, .way] with
  | none => []
  | some hop =>
    let ways := wayHydrateViaBbox s maxCellFraction (idsAt .way hop)
      (src.filter fun r => r.1 = .relation) fun _ => true
    let nodeIds := idsAt .node hop ++
      idsAt .node ((forwardNewIds ways [.way] none allTypes).getD [])
    ways ++ nodeHydrateViaBbox s maxCellFraction nodeIds (src ++ ways) fun _ => true

inductive Direction
  | forward | backward
  deriving DecidableEq, Repr

/-- What a round down fetches, around the ways and relations it has come from. -/
def forwardFetch (s : Root) (maxCellFraction : ℚ) (frontier : List SetRow) (new : List Key) :
    List SetRow :=
  wayHydrateViaBbox s maxCellFraction (idsAt .way new) frontier (fun _ => true) ++
    nodeHydrateViaBbox s maxCellFraction (idsAt .node new) frontier (fun _ => true) ++
    relationHydrate s (idsAt .relation new)

/-- What a round up goes on from. -/
def elemAt (s : Root) (k : Key) : Elem :=
  ⟨k.1, k.2, if k.1 = .node then curCoord s k.2 else none⟩

/-- A hop up. Without a file to look in there is no table of what it found; an empty one ends the
search all the same. -/
def backwardHop (s : Root) (maxCellFraction : ℚ) (src : List Elem) : Option (List Hop) :=
  let hops := backwardNewIds s src allTypes none maxCellFraction
  if hops.isEmpty then none else some hops

def hopKey (h : Hop) : Key := (h.type, h.id)

def elemKey (e : Elem) : Key := (e.type, e.id)

/-- The rounds after which the safety valve ends a search. -/
def maxHops : ℕ := 10000

def searchForward (s : Root) (input : List SetRow) (maxCellFraction : ℚ) : List SetRow × Exit :=
  rounds (fun src => forwardNewIds src allTypes none allTypes) id (forwardFetch s maxCellFraction)
    (maxHops + 1) (input.map keyOf) input

def searchBackward (s : Root) (input : List SetRow) (maxCellFraction : ℚ) : List Elem × Exit :=
  rounds (backwardHop s maxCellFraction) hopKey
    (fun _ new => (hydrateIds s (fun _ => true) new allTypes).map (elemAt s))
    (maxHops + 1) (input.map keyOf) (input.map elemOf)

/-- All steps down or up: what is found, and why the search ended. Going down, the relations of
the set are kept. -/
def recurseTransitive (s : Root) (input : List SetRow) (d : Direction) (maxCellFraction : ℚ) :
    List Key × Exit :=
  match d with
  | .forward =>
    let found := searchForward s input maxCellFraction
    (found.1.map keyOf ++ (input.filter fun r => r.1 = .relation).map keyOf, found.2)
  | .backward =>
    let found := searchBackward s input maxCellFraction
    (found.1.map elemKey, found.2)

/-! ### What should be found -/

def Alive (s : Root) (k : Key) : Prop := (cur s k.1 k.2).isSome

/-- A row as it is now. -/
def Current (s : Root) (r : SetRow) : Prop := cur s r.1 r.2.id = some r.2

/-- A way has a node, or a relation a member. -/
def Has (s : Root) : Key → Key → Prop
  | (.node, _), _ => False
  | (.way, i), k => ∃ r, cur s .way i = some r ∧ k.1 = .node ∧ k.2 ∈ r.cols.refs
  | (.relation, i), k => ∃ r, cur s .relation i = some r ∧ ∃ m ∈ r.cols.members, (m.type, m.ref) = k

/-- One step in a direction. -/
def Leads (s : Root) : Direction → Key → Key → Prop
  | .forward => fun j k => Has s j k
  | .backward => fun j k => Has s k j

/-- What exists and is reached from a set in one or more steps through what exists. -/
def Reachable (s : Root) (d : Direction) (input : List SetRow) : Key → Prop :=
  ReachedFrom (Leads s d) (Alive s) (input.map keyOf)

/-- Everything that is reached is reached in at most `n` steps. -/
def WithinHops (s : Root) (d : Direction) (input : List SetRow) (n : ℕ) : Prop :=
  ∀ k, Reachable s d input k → ∃ m ≤ n, StepsFrom (Leads s d) (Alive s) (input.map keyOf) m k

/-- What all steps should give. -/
def Wanted (s : Root) (d : Direction) (input : List SetRow) (k : Key) : Prop :=
  Reachable s d input k ∧ k ∉ input.map keyOf ∨
    d = .forward ∧ k.1 = .relation ∧ k ∈ input.map keyOf

/-! ### Fetching -/

/-- No row of an older tier is exposed, so that every fetch is an exact lookup. -/
def FetchesExact (s : Root) : Prop := ∀ t i, ¬ Exposed (tierRows s.deltas t i)

section Fetch

variable {s : Root} {t : Typ} {f : ℚ} {ids : List ℤ} {bbox : Option BBox}
  {bboxWhere : BBox → SpatialCols t → Bool} {tagWhere : ByidCols t → Bool} {r : Row (ByidCols t)}

lemma mem_buildByidSelect (hg : Good s.deltas) :
    r ∈ buildByidSelect (s.base.byid t) s.deltas ids tagWhere ↔
      r.id ∈ ids ∧ cur s t r.id = some r ∧ tagWhere r.cols = true := by
  have hu : Distinct Row.id (buildByidSelect (s.base.byid t) s.deltas ids tagWhere) :=
    distinct_buildByidSelect _ _ ids _
  have h : lookup Row.id r.id (buildByidSelect (s.base.byid t) s.deltas ids tagWhere) =
      if r.id ∈ ids then (cur s t r.id).filter fun r => tagWhere r.cols else none :=
    byId_buildByidSelect _ hg ids _ r.id
  rw [← and_iff_left (a := r ∈ buildByidSelect (s.base.byid t) s.deltas ids tagWhere)
    (rfl : r.id = r.id), ← hu.lookup_eq_some, h]
  by_cases hi : r.id ∈ ids
  · rw [if_pos hi, Option.filter_eq_some_iff, and_iff_right hi]
  · simp [hi]

lemma nodup_hintCells {b : BBox} : (hintCells s t f b).Nodup := by
  unfold hintCells
  simp only
  split_ifs
  · exact List.nodup_nil
  · exact nodup_cellsForBbox _ _ _

/-- What the files give: the current rows in the cells, and what an older tier has there. -/
lemma mem_foundInBox (hg : Good s.deltas) (hm : TiersRemember s) (ha : BaseAgrees s.base) :
    r ∈ foundInBox s t f ids bbox bboxWhere tagWhere ↔ ∃ b, bbox = some b ∧
      ∃ x, x.map byidCols = r ∧ (curSpatial s t x.id = some x ∧ inCells (hintCells s t f b) x.cell ∨
        StaleRow s t (hintCells s t f b) x.id x) ∧
      (bboxWhere b x.cols = true ∧ tagWhere (byidCols x.cols) = true) ∧ x.id ∈ ids := by
  unfold foundInBox
  cases bbox with
  | none => simp
  | some b =>
    simp only [Option.some.injEq, exists_eq_left']
    by_cases hcells : hintCells s t f b = []
    · rw [if_pos hcells, hcells]
      refine iff_of_false List.not_mem_nil ?_
      rintro ⟨x, -, ⟨-, hin⟩ | h, -⟩
      · cases hc : x.cell <;> simp [hc, inCells] at hin
      · exact not_staleRow_nil h
    · rw [if_neg hcells, List.mem_map]
      refine exists_congr fun x => ?_
      rw [mem_currentRows_stale hg hm ha nodup_hintCells, Bool.and_eq_true, Bool.and_eq_true,
        decide_eq_true_eq, and_comm]

/-- They are asked for, and current where no tier row is exposed. -/
lemma current_of_foundInBox (hg : Good s.deltas) (hm : TiersRemember s) (ha : BaseAgrees s.base)
    (hx : ∀ i, ¬ Exposed (tierRows s.deltas t i))
    (h : r ∈ foundInBox s t f ids bbox bboxWhere tagWhere) :
    r.id ∈ ids ∧ cur s t r.id = some r ∧ tagWhere r.cols = true := by
  obtain ⟨b, -, x, rfl, hrow, ⟨-, htags⟩, hid⟩ := (mem_foundInBox hg hm ha).mp h
  obtain ⟨hcur, -⟩ := hrow.resolve_right (not_staleRow hg hm ha hx nodup_hintCells)
  refine ⟨hid, ?_, htags⟩
  rw [cur_eq_curSpatial ha, Row.map_id, hcur]
  rfl

/-- **Fetching is an exact lookup**, wherever the rows are looked for. -/
lemma mem_hydrateViaBbox (hg : Good s.deltas) (hm : TiersRemember s) (ha : BaseAgrees s.base)
    (hx : ∀ i, ¬ Exposed (tierRows s.deltas t i)) :
    r ∈ hydrateViaBbox s t f ids bbox bboxWhere tagWhere ↔
      r.id ∈ ids ∧ cur s t r.id = some r ∧ tagWhere r.cols = true := by
  unfold hydrateViaBbox
  simp only
  rw [List.mem_append, mem_buildByidSelect hg, List.mem_filter]
  constructor
  · rintro (h | ⟨⟨h, -⟩, hc⟩)
    · exact current_of_foundInBox hg hm ha hx h
    · exact ⟨h, hc⟩
  · rintro ⟨hid, hc⟩
    by_cases hf : r.id ∈ (foundInBox s t f ids bbox bboxWhere tagWhere).map Row.id
    · obtain ⟨x, hx', hxid⟩ := List.mem_map.mp hf
      have hcx := (current_of_foundInBox hg hm ha hx hx').2.1
      rw [hxid, hc.1] at hcx
      rw [← Option.some.inj hcx] at hx'
      exact Or.inl hx'
    · exact Or.inr ⟨⟨hid, decide_eq_true hf⟩, hc⟩

/-- What an older tier has of an element around a box. -/
def StaleAround (s : Root) (t : Typ) (maxCellFraction : ℚ) (bbox : Option BBox)
    (bboxWhere : BBox → SpatialCols t → Bool) (tagWhere : ByidCols t → Bool) (i : ℤ) : Prop :=
  ∃ b, bbox = some b ∧ ∃ r, StaleRow s t (hintCells s t maxCellFraction b) i r ∧
    bboxWhere b r.cols = true ∧ tagWhere (byidCols r.cols) = true

/-- Of what is asked for everything that exists and passes the tag filters is fetched, and besides
only what an older tier has around the box. -/
lemma mem_hydrateViaBbox_ids (hg : Good s.deltas) (hm : TiersRemember s)
    (ha : BaseAgrees s.base) {i : ℤ} :
    i ∈ (hydrateViaBbox s t f ids bbox bboxWhere tagWhere).map Row.id ↔ i ∈ ids ∧
      ((∃ r, cur s t i = some r ∧ tagWhere r.cols = true) ∨
        StaleAround s t f bbox bboxWhere tagWhere i) := by
  unfold hydrateViaBbox
  simp only
  set found := foundInBox s t f ids bbox bboxWhere tagWhere with hfound
  have hfetched :
      ∀ {ids : List ℤ}, i ∈ (buildByidSelect (s.base.byid t) s.deltas ids tagWhere).map Row.id ↔
      i ∈ ids ∧ ∃ r, cur s t i = some r ∧ tagWhere r.cols = true := mem_byidSelect hg
  have hin : i ∈ found.map Row.id → i ∈ ids ∧ ((∃ r, cur s t i = some r ∧ tagWhere r.cols = true) ∨
      StaleAround s t f bbox bboxWhere tagWhere i) := by
    intro h
    obtain ⟨r, hr, rfl⟩ := List.mem_map.mp h
    obtain ⟨b, hb, x, rfl, hrow, ⟨hbox, htags⟩, hid⟩ := (mem_foundInBox hg hm ha).mp hr
    refine ⟨hid, ?_⟩
    rcases hrow with ⟨hcur, -⟩ | hstale
    · refine .inl ⟨x.map byidCols, ?_, htags⟩
      rw [cur_eq_curSpatial ha, Row.map_id, hcur]
      rfl
    · exact .inr ⟨b, hb, x, hstale, hbox, htags⟩
  rw [List.map_append, List.mem_append, hfetched, List.mem_filter, decide_eq_true_eq]
  constructor
  · rintro (h | ⟨⟨h, -⟩, hex⟩)
    · exact hin h
    · exact ⟨h, .inl hex⟩
  · rintro ⟨h, hex | ⟨b, hb, x, hstale, htests⟩⟩
    · by_cases hf : i ∈ found.map Row.id
      · exact .inl hf
      · exact .inr ⟨⟨h, hf⟩, hex⟩
    · obtain rfl := hstale.id_eq
      exact .inl (List.mem_map.mpr ⟨x.map byidCols, (mem_foundInBox hg hm ha).mpr
        ⟨b, hb, x, rfl, .inr hstale, htests, h⟩, rfl⟩)

lemma mem_idsAt {keys : List Key} {i : ℤ} : i ∈ idsAt t keys ↔ (t, i) ∈ keys := by
  unfold idsAt
  constructor
  · intro h
    obtain ⟨⟨t', i'⟩, hk, rfl⟩ := List.mem_map.mp h
    obtain ⟨hmem, ht⟩ := List.mem_filter.mp hk
    have ht : t' = t := of_decide_eq_true ht
    exact ht ▸ hmem
  · intro h
    exact List.mem_map.mpr ⟨(t, i), List.mem_filter.mpr ⟨h, decide_eq_true rfl⟩, rfl⟩

/-- The rows of one type as rows of a set. -/
lemma mem_map_mk {rows : List (Row (ByidCols t))} {p : SetRow → Prop} {x : SetRow}
    (h : ∀ r, r ∈ rows ↔ r.id ∈ ids ∧ cur s t r.id = some r ∧ p ⟨t, r⟩) :
    x ∈ rows.map (Sigma.mk t) ↔ x.1 = t ∧ x.2.id ∈ ids ∧ Current s x ∧ p x := by
  constructor
  · intro hx
    obtain ⟨r, hr, rfl⟩ := List.mem_map.mp hx
    exact ⟨rfl, (h r).mp hr⟩
  · obtain ⟨t', r⟩ := x
    rintro ⟨rfl, hr⟩
    exact List.mem_map.mpr ⟨r, (h r).mpr hr, rfl⟩

section Exact

variable (hg : Good s.deltas) (hm : TiersRemember s) (ha : BaseAgrees s.base) (hx : FetchesExact s)
  {hint : List SetRow} {x : SetRow}

include hg hm ha hx

lemma mem_wayHydrate : x ∈ wayHydrateViaBbox s f ids hint (fun _ => true) ↔
    x.1 = .way ∧ x.2.id ∈ ids ∧ Current s x := by
  rw [wayHydrateViaBbox, mem_map_mk (p := fun _ => true = true) fun _ =>
    mem_hydrateViaBbox hg hm ha (hx .way)]
  simp only [and_true]

lemma mem_nodeHydrate : x ∈ nodeHydrateViaBbox s f ids hint (fun _ => true) ↔
    x.1 = .node ∧ x.2.id ∈ ids ∧ Current s x := by
  rw [nodeHydrateViaBbox, mem_map_mk (p := fun _ => true = true) fun _ =>
    mem_hydrateViaBbox hg hm ha (hx .node)]
  simp only [and_true]

/-- **What a round down fetches**: the rows of what it found, as they are now. -/
lemma mem_forwardFetch {new : List Key} :
    x ∈ forwardFetch s f hint new ↔ keyOf x ∈ new ∧ Current s x := by
  have hrel : x ∈ relationHydrate s (idsAt .relation new) ↔
      x.1 = .relation ∧ x.2.id ∈ idsAt .relation new ∧ Current s x := by
    rw [relationHydrate, mem_map_mk (p := fun _ => true = true) fun _ => mem_buildByidSelect hg]
    simp only [and_true]
  unfold forwardFetch
  rw [List.mem_append, List.mem_append, mem_wayHydrate hg hm ha hx,
    mem_nodeHydrate hg hm ha hx, hrel]
  simp only [mem_idsAt]
  obtain ⟨t, r⟩ := x
  cases t <;> simp [keyOf]

end Exact

end Fetch

lemma exists_mem_keys {input : List SetRow} {P : Key → Prop} :
    (∃ x ∈ input.map keyOf, P x) ↔ ∃ r ∈ input, P (keyOf r) := by
  constructor
  · rintro ⟨x, hx, h⟩
    obtain ⟨r, hr, rfl⟩ := List.mem_map.mp hx
    exact ⟨r, hr, h⟩
  · rintro ⟨r, hr, h⟩
    exact ⟨_, List.mem_map_of_mem hr, h⟩

/-! ### Down -/

section Forward

variable {s : Root} {src : List SetRow} {k : Key}

/-- What is part of a row. -/
def partsOf (memberTypes : List Typ) (r : SetRow) : List Key :=
  (refsOf r).map (fun n => (Typ.node, n)) ++
    ((membersOf r).filter fun m => m.type ∈ memberTypes).map fun m => (m.type, m.ref)

lemma mem_forwardNewIds (src : List SetRow) {memberTypes : List Typ} (hne : memberTypes ≠ []) :
    ∃ hop, forwardNewIds src allTypes none memberTypes = some hop ∧
      ∀ k, k ∈ hop ↔ ∃ r ∈ src, k ∈ partsOf memberTypes r := by
  refine ⟨_, by simp [forwardNewIds, allTypes, hne]; rfl, fun k => ?_⟩
  simp only [List.mem_append, List.mem_flatMap, partsOf, roleOk, Option.all_none, Bool.and_true]
  constructor
  · rintro (⟨r, hr, h⟩ | ⟨r, hr, h⟩)
    · exact ⟨r, hr, Or.inl h⟩
    · exact ⟨r, hr, Or.inr h⟩
  · rintro ⟨r, hr, h | h⟩
    · exact Or.inl ⟨r, hr, h⟩
    · exact Or.inr ⟨r, hr, h⟩

/-- The parts of a row that is current are those it has. -/
lemma mem_partsOf {r : SetRow} (hr : Current s r) : k ∈ partsOf allTypes r ↔ Has s (keyOf r) k := by
  have hall : ∀ t : Typ, t ∈ allTypes := by intro t; cases t <;> simp [allTypes]
  obtain ⟨t, r⟩ := r
  obtain ⟨kt, ki⟩ := k
  cases t with
  | node => simp [partsOf, refsOf, membersOf, keyOf, Has]
  | way =>
    have hr : cur s .way r.id = some r := hr
    simp [partsOf, refsOf, membersOf, keyOf, Has, hr, and_comm, eq_comm]
  | relation =>
    have hr : cur s .relation r.id = some r := hr
    simp [partsOf, refsOf, membersOf, keyOf, Has, hr, hall]

lemma alive_of_current {r : SetRow} (h : Current s r) : Alive s (keyOf r) :=
  Option.isSome_of_eq_some h

/-- What exists has a current row. -/
lemma exists_current (hg : Good s.deltas) (h : Alive s k) : ∃ r, Current s r ∧ keyOf r = k := by
  obtain ⟨t, i⟩ := k
  obtain ⟨r, hr⟩ := Option.isSome_iff_exists.mp h
  have hid : r.id = i := id_of_cur hg hr
  exact ⟨⟨t, r⟩, by rw [Current, hid]; exact hr, Prod.ext rfl hid⟩

lemma finds_forward (hsrc : ∀ r ∈ src, Current s r) :
    Finds (fun src => forwardNewIds src allTypes none allTypes) id src k ↔
      ∃ r ∈ src, Has s (keyOf r) k := by
  have hne : allTypes ≠ [] := by simp [allTypes]
  obtain ⟨hop, hhop, hmem⟩ := mem_forwardNewIds src hne
  have hparts : (∃ r ∈ src, k ∈ partsOf allTypes r) ↔ ∃ r ∈ src, Has s (keyOf r) k :=
    exists_congr fun r => and_congr_right fun hr => mem_partsOf (hsrc r hr)
  rw [← hparts, ← hmem]
  simp [Finds, hhop]

lemma lawful_forward (hk : Kept s) (hx : FetchesExact s) (f : ℚ) :
    Lawful (fun src => forwardNewIds src allTypes none allTypes) id (forwardFetch s f) keyOf
      (Current s) (Has s) (Alive s) where
  finds rows hrows k := finds_forward hrows
  fetched frontier found fresh _ _ k := by
    constructor
    · rintro ⟨r, hr, rfl⟩
      obtain ⟨h1, h2⟩ := (mem_forwardFetch hk.good hk.remember hk.agrees hx).mp hr
      exact ⟨⟨_, h1, rfl⟩, alive_of_current h2⟩
    · rintro ⟨⟨h, hmem, rfl⟩, ha⟩
      obtain ⟨r, hr, hkey⟩ := exists_current hk.good ha
      exact ⟨r, (mem_forwardFetch hk.good hk.remember hk.agrees hx).mpr ⟨hkey ▸ hmem, hr⟩, hkey⟩
  ok frontier found fresh _ _ r hr :=
    ((mem_forwardFetch hk.good hk.remember hk.agrees hx).mp hr).2

/-- **All steps down are exact.** -/
lemma mem_searchForward (hk : Kept s) (hx : FetchesExact s) {input : List SetRow}
    (hin : ∀ r ∈ input, Current s r) (hwithin : WithinHops s .forward input maxHops) (f : ℚ) :
    (searchForward s input f).2 ≠ .valve ∧ ∀ k, k ∈ (searchForward s input f).1.map keyOf ↔
      Reachable s .forward input k ∧ k ∉ input.map keyOf := by
  have hfirst : ∀ k, Finds (fun src => forwardNewIds src allTypes none allTypes) id input k ↔
      ∃ x ∈ input.map keyOf, Has s x k := by
    intro k
    rw [finds_forward hin, exists_mem_keys]
  have hexact := rounds_exact (Leads s .forward) (lawful_forward hk hx f)
    (fun k h _ _ => (hfirst k).mpr h) (fun _ _ h => h)
    (fun k h ha _ => ⟨1, .one ⟨(hfirst k).mp h, ha⟩⟩)
    (fun j k ⟨n, hn⟩ h ha _ => ⟨n + 1, .more hn ⟨h, ha⟩⟩) hwithin
  refine ⟨hexact.1, fun k => ?_⟩
  rw [List.mem_map]
  exact hexact.2 k

end Forward

/-! ### Up -/

/-- The base's index of members has an element as a member of a relation. -/
def Listed (s : Root) (j k : Key) : Prop :=
  ∃ x ∈ s.base.member, (x.memberType, x.memberId) = j ∧ (Typ.relation, x.parentId) = k

/-- The files of the cells around the nodes of a set are read for their ways. -/
def ReadAround (s : Root) (f : ℚ) (src : List Elem) (b : BBox) : Prop :=
  bboxFromPoints src = some b ∧ cellsForBbox (catalogOf s) .way (some (boxOf b)) ≠ [] ∧
    (cellsForBbox (catalogOf s) .way (some (boxOf b))).length ≤ f *
    (max s.base.leafCells.length 1 : ℕ)

/-- A hop finds the ways outside the set that it should. Where it reads the files around the nodes,
the ways with one of the nodes are in these cells and around these nodes; where it goes by the index
and the tiers, the ways of the index that exist still have one of the nodes. -/
structure WaysFound (s : Root) (input : List SetRow) (f : ℚ) : Prop where
  files : ∀ b, ReadAround s f (input.map elemOf) b → ∀ w r, (.way, w) ∉ input.map keyOf →
    curSpatial s .way w = some r → HasRef s (idsOf .node (input.map elemOf)) w →
      inCells (cellsForBbox (catalogOf s) .way (some (boxOf b))) r.cell ∧
        meets (boxOf b) r.cols.byid.bbox
  index : (∀ b, ¬ ReadAround s f (input.map elemOf) b) → ∀ w, (.way, w) ∉ input.map keyOf →
    IndexWay s (idsOf .node (input.map elemOf)) w → Alive s (.way, w) →
      HasRef s (idsOf .node (input.map elemOf)) w

/-- What is looked up on the way up is fresh as far as it matters: the ways are found as they
should be, and no entry of the base's index leads from the set, or from what is reached from it, to
a relation outside that exists and is not reached anyhow. -/
structure LookupsFresh (s : Root) (input : List SetRow) (f : ℚ) : Prop where
  ways : WaysFound s input f
  relations : ∀ j k, j ∈ input.map keyOf ∨ Reachable s .backward input j → Listed s j k →
    Alive s k → k ∉ input.map keyOf → Reachable s .backward input k

section Backward

variable {s : Root} {src : List Elem} {f : ℚ} {k : Key}

lemma mem_idsOf {t : Typ} {i : ℤ} : i ∈ idsOf t src ↔ ∃ e ∈ src, elemKey e = (t, i) := by
  unfold idsOf
  simp only [List.mem_map, List.mem_filter, decide_eq_true_eq, elemKey, Prod.mk.injEq]
  exact exists_congr fun e => by rw [and_assoc]

/-- A node that is in no set has no way, so a hop from ways and relations finds none. -/
lemma backwardWays_of_no_node (h : ∀ e ∈ src, e.type ≠ .node) : backwardWays s src f = [] := by
  have hfilter : src.filter (fun e => e.type = .node) = [] := by
    refine List.filter_eq_nil_iff.mpr fun e he => ?_
    simpa using h e he
  have hids : idsOf .node src = [] := by rw [idsOf, hfilter]; rfl
  have hbox : bboxFromPoints src = none := by rw [bboxFromPoints, hfilter]; rfl
  unfold backwardWays
  rw [hbox, hids]
  simp [baseParentWays, deltaWayIdsByRef, deltaParentWays]

/-- **The relations a hop up finds**: those that have an element, and those the index lists. -/
lemma mem_backwardRelations (hk : Kept s) :
    (∃ h ∈ backwardRelations s src allTypes none, hopKey h = k) ↔
      k.1 = .relation ∧ ∃ e ∈ src, Has s k (elemKey e) ∨ Listed s (elemKey e) k := by
  have hall : ∀ t : Typ, t ∈ allTypes := by intro t; cases t <;> simp [allTypes]
  obtain ⟨t, i⟩ := k
  constructor
  · rintro ⟨h, hmem, hkey⟩
    obtain ⟨hty, hfrom⟩ := hasMember_of_hop hk hmem
    obtain ⟨rfl, rfl⟩ := Prod.mk.inj hkey
    refine ⟨hty, ?_⟩
    rw [hty]
    rcases hfrom with ⟨t, -, r, hr, m, hm, hmt, hin, -⟩ | ⟨x, hx, hp, -, hin, -⟩
    · obtain ⟨e, he, hek⟩ := mem_idsOf.mp hin
      exact ⟨e, he, Or.inl ⟨r, hr, m, hm, by rw [hek, hmt]⟩⟩
    · obtain ⟨e, he, hek⟩ := mem_idsOf.mp hin
      exact ⟨e, he, Or.inr ⟨x, hx, hek.symm, by rw [hp]⟩⟩
  · rintro ⟨hty, e, he, h⟩
    obtain rfl : t = .relation := hty
    rcases h with ⟨r, hr, m, hm, hmk⟩ | ⟨x, hx, hxk, hp⟩
    · have hmem : HasMember s m.type (idsOf m.type src) none i :=
        ⟨r, hr, m, hm, rfl, mem_idsOf.mpr ⟨e, he, hmk.symm⟩, rfl⟩
      obtain ⟨h, hh, hty, hid⟩ := hop_of_hasMember allTypes hk (hall _) hmem
      exact ⟨h, hh, by rw [hopKey, hty, hid]⟩
    · refine ⟨⟨.relation, x.parentId, x.parentCell⟩, List.mem_append_left _ ?_, hp⟩
      refine List.mem_map.mpr ⟨x, List.mem_filter.mpr ⟨hx, ?_⟩, rfl⟩
      have hin : x.memberId ∈ idsOf x.memberType src := mem_idsOf.mpr ⟨e, he, hxk.symm⟩
      simp [hall, hin, roleOk]

/-- What a hop up finds. -/
lemma finds_backward : Finds (backwardHop s f) hopKey src k ↔
    (∃ h ∈ backwardWays s src f, hopKey h = k) ∨
      ∃ h ∈ backwardRelations s src allTypes none, hopKey h = k := by
  have hmem : (∃ h ∈ backwardNewIds s src allTypes none f, hopKey h = k) ↔
      (∃ h ∈ backwardWays s src f, hopKey h = k) ∨
        ∃ h ∈ backwardRelations s src allTypes none, hopKey h = k := by
    simp only [backwardNewIds, List.mem_append, or_and_right, exists_or]
    simp [allTypes]
  rw [← hmem]
  unfold Finds backwardHop
  simp only
  split
  · rename_i he
    rw [List.isEmpty_iff.mp he]
    simp
  · simp

/-- From ways and relations a hop up finds the relations that have them or are listed. -/
lemma finds_backward_of_no_node (hk : Kept s) (h : ∀ e ∈ src, e.type ≠ .node) :
    Finds (backwardHop s f) hopKey src k ↔
      ∃ e ∈ src, Has s k (elemKey e) ∨ Listed s (elemKey e) k := by
  rw [finds_backward, backwardWays_of_no_node h, mem_backwardRelations hk]
  constructor
  · rintro (⟨x, hx, -⟩ | ⟨-, he⟩)
    · cases hx
    · exact he
  · rintro ⟨e, he, hor⟩
    refine Or.inr ⟨?_, e, he, hor⟩
    rcases hor with hhas | ⟨x, -, -, hxk⟩
    · obtain ⟨t, i⟩ := k
      cases t with
      | node => exact hhas.elim
      | way =>
        obtain ⟨r, -, hty, -⟩ := hhas
        exact absurd hty (h e he)
      | relation => rfl
    · rw [← hxk]

lemma type_of_backwardHop (hk : Kept s) (hx : NoneExposed s) {found : List Hop}
    (hf : backwardHop s f src = some found) {h : Hop} (hmem : h ∈ found) : h.type ≠ .node := by
  unfold backwardHop at hf
  simp only at hf
  split at hf
  · cases hf
  · cases hf
    unfold backwardNewIds at hmem
    rcases List.mem_append.mp hmem with h1 | h1
    · rw [(hasRef_of_hop hk hx (by simpa [allTypes] using h1)).1]
      simp
    · rw [(hasMember_of_hop hk h1).1]
      simp

lemma lawful_backward (hk : Kept s) (hx : NoneExposed s) (f : ℚ) :
    Lawful (backwardHop s f) hopKey (fun _ new =>
      (hydrateIds s (fun _ => true) new allTypes).map (elemAt s)) elemKey
      (fun e => e.type ≠ .node) (fun j k => Has s k j ∨ Listed s j k) (Alive s) where
  finds rows hrows k := finds_backward_of_no_node hk hrows
  fetched frontier found fresh hf hsub k := by
    obtain ⟨t, i⟩ := k
    have hty : t ∈ allTypes := by cases t <;> simp [allTypes]
    have hmem : (t, i) ∈ hydrateIds s (fun _ => true) fresh allTypes ↔ t ∈ allTypes ∧
        (∃ h ∈ fresh, h.type = t ∧ h.id = i) ∧ (cur s t i).isSome :=
      mem_hydrateIds hk.good hk.remember hk.agrees hx.1 hx.2
    simp only [List.mem_map]
    constructor
    · rintro ⟨-, ⟨⟨t', i'⟩, hk', rfl⟩, hkey⟩
      obtain ⟨rfl, rfl⟩ := Prod.mk.inj hkey
      obtain ⟨-, ⟨h, hh, h1, h2⟩, ha⟩ := hmem.mp hk'
      exact ⟨⟨h, hh, by rw [hopKey, h1, h2]⟩, ha⟩
    · rintro ⟨⟨h, hh, hkey⟩, ha⟩
      obtain ⟨h1, h2⟩ := Prod.mk.inj hkey
      exact ⟨_, ⟨(t, i), hmem.mpr ⟨hty, ⟨h, hh, h1, h2⟩, ha⟩, rfl⟩, rfl⟩
  ok frontier found fresh hf hsub e he := by
    obtain ⟨⟨t, i⟩, hk', rfl⟩ := List.mem_map.mp he
    obtain ⟨-, ⟨h, hh, h1, -⟩, -⟩ := (mem_hydrateIds hk.good hk.remember hk.agrees hx.1 hx.2).mp hk'
    exact h1 ▸ type_of_backwardHop hk hx hf (hsub hh)

lemma elemKey_elemOf (r : SetRow) : elemKey (elemOf r) = keyOf r := by
  obtain ⟨t, r⟩ := r
  cases t <;> rfl

lemma mem_keys_elemOf {input : List SetRow} {P : Key → Prop} :
    (∃ e ∈ input.map elemOf, P (elemKey e)) ↔ ∃ x ∈ input.map keyOf, P x := by
  rw [exists_mem_keys]
  constructor
  · rintro ⟨e, he, h⟩
    obtain ⟨r, hr, rfl⟩ := List.mem_map.mp he
    exact ⟨r, hr, elemKey_elemOf r ▸ h⟩
  · rintro ⟨r, hr, h⟩
    exact ⟨_, List.mem_map_of_mem hr, (elemKey_elemOf r).symm ▸ h⟩

variable {input : List SetRow}

/-- What the first hop up finds. -/
lemma finds_first (hk : Kept s) : Finds (backwardHop s f) hopKey (input.map elemOf) k ↔
    (∃ h ∈ backwardWays s (input.map elemOf) f, hopKey h = k) ∨
      k.1 = .relation ∧ ∃ x ∈ input.map keyOf, Has s k x ∨ Listed s x k := by
  rw [finds_backward, mem_backwardRelations hk,
    mem_keys_elemOf (P := fun x => Has s k x ∨ Listed s x k)]

lemma hopKey_of_way (hk : Kept s) (hx : NoneExposed s) :
    (∃ h ∈ backwardWays s src f, hopKey h = k) ↔
      k.1 = .way ∧ ∃ h ∈ backwardWays s src f, h.id = k.2 := by
  constructor
  · rintro ⟨h, hh, rfl⟩
    exact ⟨(hasRef_of_hop hk hx hh).1, h, hh, rfl⟩
  · rintro ⟨hty, h, hh, hid⟩
    exact ⟨h, hh, Prod.ext ((hasRef_of_hop hk hx hh).1.trans hty.symm) hid⟩

/-- **What a hop back finds as ways**: in the files around the nodes the ways that have one of them;
or else what the index says, and what has one of them. -/
lemma mem_backwardWays (hk : Kept s) (hx : NoneExposed s) {w : ℤ} :
    (∃ h ∈ backwardWays s src f, h.id = w) ↔
      (∃ b, ReadAround s f src b ∧ ∃ r, curSpatial s .way w = some r ∧
        (inCells (cellsForBbox (catalogOf s) .way (some (boxOf b))) r.cell ∧
          meets (boxOf b) r.cols.byid.bbox) ∧ HasRef s (idsOf .node src) w) ∨
      (∀ b, ¬ ReadAround s f src b) ∧ (IndexWay s (idsOf .node src) w ∨
        HasRef s (idsOf .node src) w) := by
  have hread : ∀ b, bboxFromPoints src = some b → (ReadAround s f src b ↔
      (wayBboxSemijoin s f (idsOf .node src) b).isSome) := by
    intro b hb
    unfold ReadAround wayBboxSemijoin
    simp only
    rw [and_iff_right hb]
    split_ifs with hguard
    · refine iff_of_false (fun h => ?_) (by simp)
      exact hguard.elim h.1 fun hlt => absurd h.2 (not_le.mpr hlt)
    · exact iff_of_true ⟨fun h => hguard (.inl h), not_lt.mp fun h => hguard (.inr h)⟩ rfl
  have hrefs : ∀ {r : Row WaySpatialCols}, curSpatial s .way w = some r →
      ((∃ n ∈ r.cols.byid.refs, n ∈ idsOf .node src) ↔ HasRef s (idsOf .node src) w) := by
    intro r hr
    have hcur : cur s .way w = some (Row.map (byidCols (t := .way)) r) := by
      rw [cur_eq_curSpatial hk.agrees, hr]
      rfl
    constructor
    · exact fun h => ⟨_, hcur, h⟩
    · rintro ⟨r', hr', h⟩
      cases hcur.symm.trans hr'
      exact h
  unfold backwardWays
  split
  · rename_i rows hrows
    obtain ⟨b, hb, hjoin⟩ := Option.bind_eq_some_iff.mp hrows
    have haround := (hread b hb).mpr (Option.isSome_of_eq_some hjoin)
    rw [or_iff_left fun h => h.1 b haround]
    constructor
    · rintro ⟨h, hh, rfl⟩
      obtain ⟨r, hr, rfl⟩ := List.mem_map.mp hh
      obtain ⟨⟨hcur, hin⟩, hn⟩ := (mem_wayBboxSemijoin hk hx hjoin).mp hr
      exact ⟨b, haround, r, hcur, hin, (hrefs hcur).mp hn⟩
    · rintro ⟨b', hb', r, hcur, hin, href⟩
      obtain rfl := Option.some.inj (hb.symm.trans hb'.1)
      have hid : r.id = w := id_of_curSpatial hcur
      have hr := (mem_wayBboxSemijoin hk hx hjoin).mpr ⟨⟨by rw [hid]; exact hcur, hin⟩,
        (hrefs hcur).mpr href⟩
      exact ⟨_, List.mem_map_of_mem hr, hid⟩
  · rename_i hnone
    have hnot : ∀ b, ¬ ReadAround s f src b := by
      intro b hb
      obtain ⟨rows, hrows⟩ := Option.isSome_iff_exists.mp ((hread b hb.1).mp hb)
      have hsome := Option.bind_eq_some_iff.mpr ⟨b, hb.1, hrows⟩
      exact Option.some_ne_none rows (hsome.symm.trans hnone)
    rw [or_iff_right fun ⟨b, hb, _⟩ => hnot b hb, and_iff_right hnot]
    constructor
    · rintro ⟨h, hh, rfl⟩
      obtain ⟨j, hj, rfl⟩ := List.mem_map.mp hh
      rcases List.mem_append.mp hj with hb | hd
      · exact .inl (indexWay_of_mem hb)
      · obtain ⟨r, hr, rfl⟩ := List.mem_map.mp hd
        obtain ⟨hal, hany⟩ := List.mem_filter.mp hr
        obtain ⟨n, hn, hin⟩ := List.any_eq_true.mp hany
        exact .inr ⟨r, cur_of_mem_alive hk.good hal, n, hn, of_decide_eq_true hin⟩
    · rintro (⟨p, hp, n, hn, hrow⟩ | ⟨r, hr, n, hn, hin⟩)
      · exact ⟨_,
          List.mem_map_of_mem (List.mem_append_left _ (mem_baseParentWays ⟨p, hp, hrow⟩ hn)), rfl⟩
      · exact ⟨_, List.mem_map_of_mem (mem_parentWays hk.good hk.nodeWay hr hn hin), rfl⟩

/-- A way has an element of the set when it has one of its nodes. -/
lemma exists_has_way {w : ℤ} :
    (∃ x ∈ input.map keyOf, Has s (.way, w) x) ↔ HasRef s (idsOf .node (input.map elemOf)) w := by
  rw [← mem_keys_elemOf (P := Has s (.way, w))]
  constructor
  · rintro ⟨e, he, r, hr, hty, hin⟩
    exact ⟨r, hr, _, hin, mem_idsOf.mpr ⟨e, he, Prod.ext hty rfl⟩⟩
  · rintro ⟨r, hr, n, hn, hin⟩
    obtain ⟨e, he, hkey⟩ := mem_idsOf.mp hin
    exact ⟨e, he, r, hr, by rw [hkey], by rw [hkey]; exact hn⟩

/-- The ways are found as they should be when a hop finds exactly those that have one of the
nodes. -/
lemma waysFound_iff (hk : Kept s) (hx : NoneExposed s) : WaysFound s input f ↔
    ∀ w, (.way, w) ∉ input.map keyOf → Alive s (.way, w) →
      ((∃ h ∈ backwardWays s (input.map elemOf) f, h.id = w) ↔
        ∃ x ∈ input.map keyOf, Has s (.way, w) x) := by
  simp only [exists_has_way, mem_backwardWays hk hx]
  constructor
  · rintro ⟨hfiles, hindex⟩ w hout hal
    constructor
    · rintro (⟨b, -, r, -, -, href⟩ | ⟨hno, h⟩)
      · exact href
      · exact h.elim (fun h => hindex hno w hout h hal) id
    · intro href
      by_cases hb : ∃ b, ReadAround s f (input.map elemOf) b
      · obtain ⟨b, hb⟩ := hb
        obtain ⟨rb, hr⟩ := Option.isSome_iff_exists.mp hal
        rw [cur_eq_curSpatial hk.agrees] at hr
        obtain ⟨r, hr, -⟩ := Option.map_eq_some_iff.mp hr
        exact .inl ⟨b, hb, r, hr, hfiles b hb w r hout hr href, href⟩
      · exact .inr ⟨not_exists.mp hb, .inr href⟩
  · intro h
    refine ⟨fun b hb w r hout hr href => ?_, fun hno w hout hidx hal => ?_⟩
    · have hal : Alive s (.way, w) := isSome_of_hasRef href
      rcases (h w hout hal).mpr href with ⟨b', hb', r', hr', hin, -⟩ | ⟨hno, -⟩
      · obtain rfl := Option.some.inj (hb.1.symm.trans hb'.1)
        cases hr.symm.trans hr'
        exact hin
      · exact absurd hb (hno b)
    · exact (h w hout hal).mp (.inr ⟨hno, .inl hidx⟩)

/-- What has something is a way or a relation. -/
lemma way_or_relation_of_has {j : Key} (h : Has s k j) : k.1 = .way ∨ k.1 = .relation := by
  obtain ⟨t, i⟩ := k
  cases t with
  | node => exact h.elim
  | way => exact Or.inl rfl
  | relation => exact Or.inr rfl

/-- Where the ways are found everything is that has an element of the set. -/
lemma finds_of_has (hk : Kept s) (hx : NoneExposed s) (hways : WaysFound s input f)
    (hhas : ∃ x ∈ input.map keyOf, Has s k x) (hal : Alive s k) (hout : k ∉ input.map keyOf) :
    Finds (backwardHop s f) hopKey (input.map elemOf) k := by
  obtain ⟨t, i⟩ := k
  obtain ⟨x, hxm, hxk⟩ := hhas
  rw [finds_first hk, hopKey_of_way hk hx]
  rcases way_or_relation_of_has hxk with rfl | rfl
  · exact Or.inl ⟨rfl, ((waysFound_iff hk hx).mp hways i hout hal).mpr ⟨x, hxm, hxk⟩⟩
  · exact Or.inr ⟨rfl, x, hxm, Or.inl hxk⟩

/-- **All steps up are exact where the lookups are fresh.** -/
lemma mem_searchBackward (hk : Kept s) (hx : NoneExposed s) (hfresh : LookupsFresh s input f)
    (hwithin : WithinHops s .backward input maxHops) :
    (searchBackward s input f).2 ≠ .valve ∧ ∀ k, k ∈ (searchBackward s input f).1.map elemKey ↔
      Reachable s .backward input k ∧ k ∉ input.map keyOf := by
  have hfirst : ∀ k, Finds (backwardHop s f) hopKey (input.map elemOf) k → Alive s k →
      k ∉ input.map keyOf → Reachable s .backward input k := by
    rintro ⟨t, i⟩ hfind hal hout
    rw [finds_first hk, hopKey_of_way hk hx] at hfind
    rcases hfind with ⟨rfl, h⟩ | ⟨-, x, hxm, h | h⟩
    · exact ⟨1, .one ⟨((waysFound_iff hk hx).mp hfresh.ways i hout hal).mp h, hal⟩⟩
    · exact ⟨1, .one ⟨⟨x, hxm, h⟩, hal⟩⟩
    · exact hfresh.relations x _ (Or.inl hxm) h hal hout
  have hmore : ∀ j k, Reachable s .backward input j → Has s k j ∨ Listed s j k → Alive s k →
      k ∉ input.map keyOf → Reachable s .backward input k := by
    rintro j k ⟨n, hn⟩ (h | h) hal hout
    · exact ⟨n + 1, .more hn ⟨h, hal⟩⟩
    · exact hfresh.relations j k (Or.inr ⟨n, hn⟩) h hal hout
  have hexact := rounds_exact (Leads s .backward) (lawful_backward hk hx f)
    (fun _ => finds_of_has hk hx hfresh.ways) (fun _ _ h => Or.inl h) hfirst hmore hwithin
  refine ⟨hexact.1, fun k => ?_⟩
  rw [List.mem_map]
  exact hexact.2 k

/-- The edges that a hop up follows. -/
def Followed (s : Root) (j k : Key) : Prop := Has s k j ∨ Listed s j k

lemma type_of_followed {j : Key} (h : Followed s j k) : k.1 ≠ .node := by
  rcases h with h | ⟨x, -, -, rfl⟩
  · rcases way_or_relation_of_has h with h | h <;> simp [h]
  · simp

/-- No node is reached on the way up, and so a way only from a node of the set. -/
lemma type_of_stepsFrom {n : ℕ} (h : StepsFrom (Leads s .backward) (Alive s)
    (input.map keyOf) n k) : k.1 ≠ .node :=
  Steps.invariant (P := fun k : Key => k.1 ≠ .node)
    (fun _ ⟨⟨_, _, hh⟩, _⟩ => type_of_followed (Or.inl hh))
    (fun _ _ _ hn => type_of_followed (Or.inl hn.1)) h

lemma type_of_reached (hk : Kept s) (hx : NoneExposed s) {n : ℕ}
    (h : Reached (backwardHop s f) hopKey (Followed s) (Alive s) (input.map keyOf)
      (input.map elemOf) n k) : k.1 ≠ .node := by
  refine Steps.invariant (P := fun k : Key => k.1 ≠ .node) (fun k hs => ?_)
    (fun j k _ hn => type_of_followed hn.1) h
  obtain ⟨found, hf, x, hxm, rfl⟩ := hs.1
  exact type_of_backwardHop hk hx hf hxm

/-- A way does not have ways or relations. -/
lemma not_has_of_way {w : ℤ} {j : Key} (hj : j.1 ≠ .node) : ¬ Has s (.way, w) j := by
  rintro ⟨r, -, hty, -⟩
  exact hj hty

lemma mem_searchBackward_iff (hk : Kept s) (hx : NoneExposed s) :
    k ∈ (searchBackward s input f).1.map elemKey ↔ ∃ m ≤ maxHops + 1,
      Reached (backwardHop s f) hopKey (Followed s) (Alive s) (input.map keyOf) (input.map elemOf) m
        k := by
  rw [List.mem_map]
  exact mem_rounds (lawful_backward hk hx f)

section Converse

variable (hk : Kept s) (hx : NoneExposed s)
  (h : ∀ k, k ∈ (searchBackward s input f).1.map elemKey ↔
    Reachable s .backward input k ∧ k ∉ input.map keyOf)

include hk hx h

lemma reached_iff_of_exact :
    (∃ m ≤ maxHops + 1, Reached (backwardHop s f) hopKey (Followed s) (Alive s)
    (input.map keyOf) (input.map elemOf) m k) ↔
      Reachable s .backward input k ∧ k ∉ input.map keyOf := by
  rw [← h k, mem_searchBackward_iff hk hx]

lemma waysFound_of_exact : WaysFound s input f := by
  refine (waysFound_iff hk hx).mpr fun w hout hal => ?_
  constructor
  · intro hfound
    have hfinds : Finds (backwardHop s f) hopKey (input.map elemOf) (.way, w) :=
      (finds_first hk).mpr (Or.inl ((hopKey_of_way hk hx).mpr ⟨rfl, hfound⟩))
    obtain ⟨⟨n, hn⟩, -⟩ := (reached_iff_of_exact hk hx h).mp ⟨1, by omega, .one ⟨hfinds, hal, hout⟩⟩
    cases hn with
    | one hs => exact hs.1
    | more hj hnext => exact absurd hnext.1 (not_has_of_way (type_of_stepsFrom hj))
  · rintro ⟨x, hxm, hxk⟩
    obtain ⟨m, -, hm⟩ := (reached_iff_of_exact (k := (.way, w)) hk hx h).mpr
      ⟨⟨1, .one ⟨⟨x, hxm, hxk⟩, hal⟩⟩, hout⟩
    cases hm with
    | one hs =>
      rcases (finds_first hk).mp hs.1 with hw | ⟨hty, -⟩
      · exact ((hopKey_of_way hk hx).mp hw).2
      · cases hty
    | more hj hnext =>
      rcases hnext.1 with hh | ⟨_, -, -, he⟩
      · exact absurd hh (not_has_of_way (type_of_reached hk hx hj))
      · cases he

/-- Where all steps up are exact the lookups are fresh. -/
lemma lookupsFresh_of_exact (hwithin : WithinHops s .backward input maxHops) :
    LookupsFresh s input f := by
  have hways := waysFound_of_exact hk hx h
  have hset : ∀ {j k}, j ∈ input.map keyOf → Listed s j k → Alive s k → k ∉ input.map keyOf →
      Reachable s .backward input k := by
    intro j k hj hl hal hout
    have hty : k.1 = .relation := by
      obtain ⟨x, -, -, rfl⟩ := hl
      rfl
    have hfinds : Finds (backwardHop s f) hopKey (input.map elemOf) k :=
      (finds_first hk).mpr (Or.inr ⟨hty, j, hj, Or.inr hl⟩)
    exact ((reached_iff_of_exact hk hx h).mp ⟨1, by omega, .one ⟨hfinds, hal, hout⟩⟩).1
  refine ⟨hways, fun j k hj hl hal hout => ?_⟩
  by_cases hin : j ∈ input.map keyOf
  · exact hset hin hl hal hout
  · -- what is reached outside the set is found before the last round, so one more is made from it
    obtain ⟨m, hm, hsteps⟩ := hwithin j (hj.resolve_left hin)
    have hedge : ∀ j k, Leads s .backward j k → Followed s j k := fun _ _ hh => Or.inl hh
    obtain ⟨m', hm', hr⟩ := reached_of_stepsFrom _
      (fun _ => finds_of_has hk hx hways) hedge hin hsteps
    exact ((reached_iff_of_exact hk hx h).mp ⟨m' + 1, by omega, .more hr ⟨Or.inr hl, hal, hout⟩⟩).1

end Converse

end Backward

/-- The ways are found as they should be where the index of nodes is fresh and the cells around the
nodes are those of their ways. -/
lemma waysFound_of_fresh {s : Root} {input : List SetRow} {f : ℚ} (hk : Kept s)
    (hsrc : NodesCurrent s (input.map elemOf)) (hreach : WaysReached s (input.map elemOf))
    (hfresh : WaysFresh s (idsOf .node (input.map elemOf))) : WaysFound s input f := by
  refine ⟨fun b hb w r _ hr href => ?_, fun _ w _ hidx hal => hfresh w hidx hal⟩
  obtain ⟨rb, hcur, n, hn, hin⟩ := href
  rw [cur_eq_curSpatial hk.agrees, hr] at hcur
  cases hcur
  exact ⟨hreach b hb.1 w r hr ⟨n, hn, hin⟩, meets_of_ref hk hsrc hr hn hin hb.1⟩

lemma noneExposed_of_fetchesExact {s : Root} (hx : FetchesExact s) : NoneExposed s :=
  ⟨hx .way, hx .relation⟩

/-- What all steps give is what is reached and, going down, the relations of the set. -/
lemma mem_recurseTransitive_forward {s : Root} {input : List SetRow} {f : ℚ} {k : Key} :
    k ∈ (recurseTransitive s input .forward f).1 ↔ k ∈ (searchForward s input f).1.map keyOf ∨
      k.1 = .relation ∧ k ∈ input.map keyOf := by
  simp only [recurseTransitive, List.mem_append]
  refine or_congr Iff.rfl ?_
  constructor
  · intro h
    obtain ⟨r, hr, rfl⟩ := List.mem_map.mp h
    obtain ⟨hmem, hty⟩ := List.mem_filter.mp hr
    exact ⟨of_decide_eq_true hty, List.mem_map_of_mem hmem⟩
  · rintro ⟨hty, h⟩
    obtain ⟨r, hr, rfl⟩ := List.mem_map.mp h
    exact List.mem_map.mpr ⟨r, List.mem_filter.mpr ⟨hr, decide_eq_true hty⟩, rfl⟩

/-- **When all steps are exact**: after any runs over a base the builder made, for every set of
current rows from which nothing is further than the valve allows. Going down they always are, and
the valve is not what ends the search; going up they are if and only if the lookups are fresh. -/
theorem recurseTransitive_exact_iff (b : Base) (ha : BaseAgrees b) (hn : NodeWayCovers b)
    (hm : MemberCovers b) (hw : WaysCurrent (fresh b)) (fs : List Fetched)
    (hx : FetchesExact (runs (fresh b) fs)) (input : List SetRow)
    (hin : ∀ r ∈ input, Current (runs (fresh b) fs) r) (d : Direction)
    (hwithin : WithinHops (runs (fresh b) fs) d input maxHops) (f : ℚ) :
    ((recurseTransitive (runs (fresh b) fs) input d f).2 ≠ .valve ∧
      ∀ k, k ∈ (recurseTransitive (runs (fresh b) fs) input d f).1 ↔
        Wanted (runs (fresh b) fs) d input k) ↔
      (d = .backward → LookupsFresh (runs (fresh b) fs) input f) := by
  have hk := kept_runs ha hn hm hw fs
  have hne := noneExposed_of_fetchesExact hx
  cases d with
  | forward =>
    obtain ⟨hvalve, hmem⟩ := mem_searchForward hk hx hin hwithin f
    refine ⟨fun _ h => absurd h (by decide), fun _ => ⟨hvalve, fun k => ?_⟩⟩
    rw [mem_recurseTransitive_forward, hmem, Wanted]
    simp
  | backward =>
    have hwanted : ∀ k, Wanted (runs (fresh b) fs) .backward input k ↔
        Reachable (runs (fresh b) fs) .backward input k ∧ k ∉ input.map keyOf := by
      intro k
      simp [Wanted]
    constructor
    · rintro ⟨-, hmem⟩ -
      exact lookupsFresh_of_exact hk hne (fun k => (hmem k).trans (hwanted k)) hwithin
    · intro hfresh
      obtain ⟨hvalve, hmem⟩ := mem_searchBackward hk hne (hfresh rfl) hwithin
      exact ⟨hvalve, fun k => (hmem k).trans (hwanted k).symm⟩

/-! ### One step and all steps -/

section OneStep

variable {s : Root} {input : List SetRow} {f : ℚ} {k : Key}

lemma mem_searchForward_iff (hk : Kept s) (hx : FetchesExact s) :
    k ∈ (searchForward s input f).1.map keyOf ↔ ∃ m ≤ maxHops + 1,
      Reached (fun src => forwardNewIds src allTypes none allTypes) id (Has s) (Alive s)
        (input.map keyOf) input m k := by
  rw [List.mem_map]
  exact mem_rounds (lawful_forward hk hx f)

lemma partsOf_subset {memberTypes : List Typ} {r : SetRow} (h : k ∈ partsOf memberTypes r) :
    k ∈ partsOf allTypes r := by
  have hall : ∀ t : Typ, t ∈ allTypes := by intro t; cases t <;> simp [allTypes]
  rcases List.mem_append.mp h with h | h
  · exact List.mem_append_left _ h
  · obtain ⟨m, hm, rfl⟩ := List.mem_map.mp h
    refine List.mem_append_right _ (List.mem_map.mpr ⟨m, List.mem_filter.mpr ⟨?_, ?_⟩, rfl⟩)
    · exact (List.mem_filter.mp hm).1
    · exact decide_eq_true (hall _)

/-- What exists outside the set and is part of something in it is found by the first round. -/
lemma reached_one (hin : ∀ r ∈ input, Current s r) (h : ∃ r ∈ input, Has s (keyOf r) k)
    (hal : Alive s k) (hout : k ∉ input.map keyOf) :
    Reached (fun src => forwardNewIds src allTypes none allTypes) id (Has s) (Alive s)
      (input.map keyOf) input 1 k :=
  .one ⟨(finds_forward hin).mpr h, hal, hout⟩

/-- The nodes of rows that are ways. -/
lemma mem_wayNodes {ways : List SetRow} {n : ℤ}
    (h : n ∈ idsAt .node ((forwardNewIds ways [.way] none allTypes).getD [])) :
    ∃ w ∈ ways, (Typ.node, n) ∈ partsOf allTypes w := by
  have h := mem_idsAt.mp h
  simp only [forwardNewIds] at h
  simp only [List.mem_singleton, if_true, reduceCtorEq, false_and, if_false, List.append_nil,
    List.cons_ne_self, Option.getD_some, List.flatten_cons, List.flatten_nil] at h
  obtain ⟨w, hw, hn⟩ := List.mem_flatMap.mp h
  exact ⟨w, hw, List.mem_append_left _ hn⟩

/-- **One step down gives nothing that all steps do not**, outside the set. -/
lemma forwardOneHop_subset (hk : Kept s) (hx : FetchesExact s) (hin : ∀ r ∈ input, Current s r)
    (h : k ∈ (forwardOneHop s input f).map keyOf) :
    k ∈ input.map keyOf ∨ k ∈ (searchForward s input f).1.map keyOf := by
  by_cases hout : k ∈ input.map keyOf
  · exact Or.inl hout
  refine Or.inr ((mem_searchForward_iff hk hx).mpr ?_)
  obtain ⟨r, hr, rfl⟩ := List.mem_map.mp h
  have hne : [Typ.node, .way] ≠ [] := by simp
  obtain ⟨hop, hhop, hmem⟩ := mem_forwardNewIds input hne
  -- what the hop finds is part of something in the set
  have hhas : ∀ k, k ∈ hop → ∃ r ∈ input, Has s (keyOf r) k := by
    intro k hk'
    obtain ⟨x, hxm, hp⟩ := (hmem k).mp hk'
    exact ⟨x, hxm, (mem_partsOf (hin x hxm)).mp (partsOf_subset hp)⟩
  unfold forwardOneHop at hr
  rw [hhop] at hr
  simp only at hr
  set ways := wayHydrateViaBbox s f (idsAt .way hop) (input.filter fun r => r.1 = .relation)
    fun _ => true
  have hways : ∀ w ∈ ways, Current s w ∧ ∃ r ∈ input, Has s (keyOf r) (keyOf w) := by
    intro w hw
    obtain ⟨hty, hid, hc⟩ := (mem_wayHydrate hk.good hk.remember hk.agrees hx).mp hw
    have hkey : keyOf w = (.way, w.2.id) := Prod.ext hty rfl
    exact ⟨hc, hhas _ (hkey ▸ mem_idsAt.mp hid)⟩
  rcases List.mem_append.mp hr with hw | hn
  · obtain ⟨hc, hp⟩ := hways r hw
    exact ⟨1, by omega, reached_one hin hp (alive_of_current hc) hout⟩
  · obtain ⟨hty, hid, hc⟩ := (mem_nodeHydrate hk.good hk.remember hk.agrees hx).mp hn
    have hal := alive_of_current hc
    have hkey : keyOf r = (.node, r.2.id) := Prod.ext hty rfl
    rcases List.mem_append.mp hid with hid | hid
    · exact ⟨1, by omega, reached_one hin (hhas _ (hkey ▸ mem_idsAt.mp hid)) hal hout⟩
    · obtain ⟨w, hw, hp⟩ := mem_wayNodes hid
      obtain ⟨hcw, hpw⟩ := hways w hw
      have hwr : Has s (keyOf w) (keyOf r) := (mem_partsOf hcw).mp (hkey ▸ hp)
      by_cases hwin : keyOf w ∈ input.map keyOf
      · -- the way is in the set, and its nodes are found by the first round
        obtain ⟨x, hxm, hxk⟩ := List.mem_map.mp hwin
        exact ⟨1, by omega, reached_one hin ⟨x, hxm, hxk ▸ hwr⟩ hal hout⟩
      · exact ⟨2, by decide, .more (reached_one hin hpw (alive_of_current hcw) hwin)
          ⟨hwr, hal, hout⟩⟩

/-- What one step up finds from the ways that it found. -/
lemma followed_of_extra (hk : Kept s) {src : List Elem} {h : Hop}
    (hmem : h ∈ backwardNewIds s ((backwardNewIds s src allTypes none f).map
      fun h => ⟨h.type, h.id, none⟩) [.way] none f) :
    h.type = .relation ∧ ∃ w ∈ backwardWays s src f, Followed s (.way, w.id) (hopKey h) := by
  unfold backwardNewIds at hmem
  simp only [List.mem_singleton, reduceCtorEq, if_false, List.nil_append] at hmem
  -- the elements that the second hop starts from are ways that the first one found
  have hway : ∀ {w}, w ∈ idsOf .way ((backwardNewIds s src allTypes none f).map
      fun h => (⟨h.type, h.id, none⟩ : Elem)) → ∃ x ∈ backwardWays s src f, x.id = w := by
    intro w hw
    obtain ⟨e, he, hkey⟩ := mem_idsOf.mp hw
    obtain ⟨x, hx', rfl⟩ := List.mem_map.mp he
    obtain ⟨hty, hid⟩ := Prod.mk.inj hkey
    unfold backwardNewIds at hx'
    rcases List.mem_append.mp hx' with h1 | h1
    · exact ⟨x, by simpa [allTypes] using h1, hid⟩
    · have hrel := (hasMember_of_hop hk h1).1
      rw [show x.type = .way from hty] at hrel
      cases hrel
  obtain ⟨hty, hfrom⟩ := hasMember_of_hop hk hmem
  refine ⟨hty, ?_⟩
  rcases hfrom with ⟨t, ht, r, hr, m, hm, hmt, hin, -⟩ | ⟨y, hy, hp, hyt, hyid, -⟩
  · rw [List.mem_singleton.mp ht] at hmt hin
    obtain ⟨x, hx', hid⟩ := hway hin
    refine ⟨x, hx', Or.inl ?_⟩
    rw [hopKey, hty]
    exact ⟨r, hr, m, hm, Prod.ext hmt hid.symm⟩
  · rw [List.mem_singleton.mp hyt] at hyid
    obtain ⟨x, hx', hid⟩ := hway hyid
    refine ⟨x, hx', Or.inr ⟨y, hy, Prod.ext (List.mem_singleton.mp hyt) hid.symm, ?_⟩⟩
    rw [hopKey, hty, hp]

/-- The ways that the base's index has for a node of the set and that do not exist any more. -/
def GoneWay (s : Root) (input : List SetRow) (w : ℤ) : Prop :=
  IndexWay s (idsOf .node (input.map elemOf)) w ∧ ¬ Alive s (.way, w)

/-- **One step up gives nothing that all steps do not**, outside the set, but for what it finds
from a way that is gone. -/
lemma backwardOneHop_subset (hk : Kept s) (hx : NoneExposed s)
    (h : k ∈ backwardOneHop s (input.map elemOf) f) :
    k ∈ input.map keyOf ∨ k ∈ (searchBackward s input f).1.map elemKey ∨
      ∃ w, GoneWay s input w ∧ Followed s (.way, w) k := by
  by_cases hout : k ∈ input.map keyOf
  · exact Or.inl hout
  refine Or.inr ?_
  rw [mem_searchBackward_iff hk hx]
  obtain ⟨t, i⟩ := k
  unfold backwardOneHop at h
  simp only at h
  rw [mem_hydrateIds hk.good hk.remember hk.agrees hx.1 hx.2] at h
  obtain ⟨-, ⟨x, hxm, rfl, rfl⟩, hal⟩ := h
  have hfirst : ∀ y ∈ backwardNewIds s (input.map elemOf) allTypes none f,
      Finds (backwardHop s f) hopKey (input.map elemOf) (hopKey y) := by
    intro y hy
    rw [finds_backward]
    unfold backwardNewIds at hy
    rcases List.mem_append.mp hy with h1 | h1
    · exact Or.inl ⟨y, by simpa [allTypes] using h1, rfl⟩
    · exact Or.inr ⟨y, h1, rfl⟩
  rcases List.mem_append.mp hxm with hx1 | hx2
  · exact Or.inl ⟨1, by omega, .one ⟨hfirst x hx1, hal, hout⟩⟩
  · obtain ⟨hty, w, hw, hfol⟩ := followed_of_extra hk hx2
    have hwkey : hopKey w = (.way, w.id) := Prod.ext (hasRef_of_hop hk hx hw).1 rfl
    by_cases hwin : (Typ.way, w.id) ∈ input.map keyOf
    · -- the way is in the set, and its relations are found by the first round
      have hfinds : Finds (backwardHop s f) hopKey (input.map elemOf) (x.type, x.id) :=
        (finds_first hk).mpr (Or.inr ⟨hty, _, hwin, hfol⟩)
      exact Or.inl ⟨1, by omega, .one ⟨hfinds, hal, hout⟩⟩
    · by_cases hwal : Alive s (.way, w.id)
      · have hmem : w ∈ backwardNewIds s (input.map elemOf) allTypes none f :=
          List.mem_append_left _ (by simpa [allTypes] using hw)
        exact Or.inl ⟨2, by decide, .more (.one ⟨hwkey ▸ hfirst w hmem, hwal, hwin⟩)
          ⟨hfol, hal, hout⟩⟩
      · refine Or.inr ⟨w.id, ⟨?_, hwal⟩, hfol⟩
        exact (hasRef_of_hop hk hx hw).2.resolve_left fun href => hwal (isSome_of_hasRef href)

end OneStep

/-- **All steps go at least as far as one step**, after any runs over a base the builder made: what
one step gives is in the set, or all steps give it too. One step up can moreover give a relation
that it finds only from a way that is gone. -/
theorem recurseTransitive_extends (b : Base) (ha : BaseAgrees b) (hn : NodeWayCovers b)
    (hm : MemberCovers b) (hw : WaysCurrent (fresh b)) (fs : List Fetched)
    (hx : FetchesExact (runs (fresh b) fs)) (input : List SetRow)
    (hin : ∀ r ∈ input, Current (runs (fresh b) fs) r) (f : ℚ) :
    (∀ k ∈ (forwardOneHop (runs (fresh b) fs) input f).map keyOf, k ∈ input.map keyOf ∨
      k ∈ (recurseTransitive (runs (fresh b) fs) input .forward f).1) ∧
    ∀ k ∈ backwardOneHop (runs (fresh b) fs) (input.map elemOf) f, k ∈ input.map keyOf ∨
      k ∈ (recurseTransitive (runs (fresh b) fs) input .backward f).1 ∨
        ∃ w, GoneWay (runs (fresh b) fs) input w ∧ Followed (runs (fresh b) fs) (.way, w) k := by
  have hk := kept_runs ha hn hm hw fs
  refine ⟨fun k h => ?_, fun k h => backwardOneHop_subset hk (noneExposed_of_fetchesExact hx) h⟩
  rw [mem_recurseTransitive_forward]
  rcases forwardOneHop_subset hk hx hin h with h | h
  · exact Or.inl h
  · exact Or.inr (Or.inl h)

/-! ### A way and a relation that drop a node -/

/-- The set of the elements with the given keys. -/
def setOf (s : Root) (keys : List Key) : List SetRow :=
  keys.filterMap fun k => (cur s k.1 k.2).map (Sigma.mk k.1)

lemma current_of_mem_setOf {s : Root} (hg : Good s.deltas) {keys : List Key} {r : SetRow}
    (h : r ∈ setOf s keys) : Current s r := by
  obtain ⟨k, -, hk⟩ := List.mem_filterMap.mp h
  obtain ⟨x, hx, rfl⟩ := Option.map_eq_some_iff.mp hk
  have hid : x.id = k.2 := id_of_cur hg hx
  rw [Current, hid]
  exact hx

lemma keys_setOf {s : Root} (hg : Good s.deltas) {keys : List Key} {k : Key}
    (h : k ∈ (setOf s keys).map keyOf) : k ∈ keys := by
  obtain ⟨r, hr, rfl⟩ := List.mem_map.mp h
  obtain ⟨k, hk, hsome⟩ := List.mem_filterMap.mp hr
  obtain ⟨x, hx, rfl⟩ := Option.map_eq_some_iff.mp hsome
  have hid : x.id = k.2 := id_of_cur hg hx
  have hkey : keyOf ⟨k.1, x⟩ = k := Prod.ext rfl hid
  rw [hkey]
  exact hk

lemma kept_rerouted : Kept rerouted :=
  kept_runs (baseAgrees _) (nodeWayCovers _) (memberCovers _) waysCurrent_path _

lemma good_rerouted : Good rerouted.deltas := kept_rerouted.good

/-- All members are nodes, so that nothing is reached in more than one step up. -/
lemma node_of_has_rerouted {j k : Key} (h : Has rerouted k j) : j.1 = .node := by
  have hall : ∀ r ∈ Compact.effective rerouted .relation, ∀ m ∈ r.cols.byid.members,
      m.type = .node := by
    decide
  obtain ⟨t, i⟩ := k
  cases t with
  | node => exact h.elim
  | way =>
    obtain ⟨r, -, hty, -⟩ := h
    exact hty
  | relation =>
    obtain ⟨r, hr, m, hm, rfl⟩ := h
    rw [cur_eq_curSpatial kept_rerouted.agrees] at hr
    obtain ⟨x, hx, rfl⟩ := Option.map_eq_some_iff.mp hr
    exact hall x (mem_effective hx) m hm

lemma one_of_stepsFrom_rerouted {input : List SetRow} {n : ℕ} {k : Key}
    (h : StepsFrom (Leads rerouted .backward) (Alive rerouted) (input.map keyOf) n k) :
    (∃ x ∈ input.map keyOf, Has rerouted k x) ∧ Alive rerouted k := by
  cases h with
  | one hs => exact hs
  | more hj hnext => exact absurd (node_of_has_rerouted hnext.1) (type_of_stepsFrom hj)

lemma withinHops_rerouted (input : List SetRow) : WithinHops rerouted .backward input maxHops := by
  rintro k ⟨n, hn⟩
  exact ⟨1, by decide, .one (one_of_stepsFrom_rerouted hn)⟩

/-- For the second node, which the way has kept, the lookups are fresh. -/
lemma lookupsFresh_rerouted : LookupsFresh rerouted (setOf rerouted [(.node, 20)]) (1 / 2) := by
  have helems : (setOf rerouted [(.node, 20)]).map elemOf = [⟨.node, 20, some ⟨10, 20⟩⟩] := by
    rfl
  have hlisted : ∀ x ∈ rerouted.base.member, (x.memberType, x.memberId) = (.node, 10) := by
    decide
  refine ⟨?_, fun j k hj hl hal hout => ?_⟩
  · refine waysFound_of_fresh kept_rerouted ?_ ?_ ?_
    · rw [helems]; exact nodesCurrent_rerouted
    · rw [helems]; exact waysReached_rerouted
    · rw [helems]; exact allFresh_rerouted.ways
  · obtain ⟨x, hx, rfl, -⟩ := hl
    rw [hlisted x hx] at hj
    rcases hj with hj | ⟨n, hn⟩
    · exact absurd (keys_setOf good_rerouted hj) (by decide)
    · exact absurd rfl (type_of_stepsFrom hn)

/-- From the second node all steps up give the way and the relation, and nothing else. -/
theorem recurseTransitive_rerouted : LookupsFresh rerouted (setOf rerouted [(.node, 20)]) (1 / 2) ∧
    (recurseTransitive rerouted (setOf rerouted [(.node, 20)]) .backward (1 / 2)).2 ≠ .valve ∧
    ∀ k, k ∈ (recurseTransitive rerouted (setOf rerouted [(.node, 20)]) .backward (1 / 2)).1 ↔
      Wanted rerouted .backward (setOf rerouted [(.node, 20)]) k :=
  ⟨lookupsFresh_rerouted, (recurseTransitive_exact_iff path.base (baseAgrees _) (nodeWayCovers _)
    (memberCovers _) waysCurrent_path _ not_exposed_rerouted _
    (fun _ => current_of_mem_setOf good_rerouted) .backward (withinHops_rerouted _) (1 / 2)).mpr
      fun _ => lookupsFresh_rerouted⟩

/-- From the way and one of its nodes: outside the set all steps give what one step gives, down and
up. -/
theorem recurseTransitive_extends_rerouted :
    (∀ r ∈ setOf rerouted [(.way, 1), (.node, 20)], Current rerouted r) ∧
    (∀ k ∈ (forwardOneHop rerouted (setOf rerouted [(.way, 1), (.node, 20)]) (1 / 2)).map keyOf,
      k ∈ (setOf rerouted [(.way, 1), (.node, 20)]).map keyOf ∨
        k ∈ (recurseTransitive rerouted (setOf rerouted [(.way, 1), (.node, 20)])
          .forward (1 / 2)).1) ∧
    ∀ k ∈ backwardOneHop rerouted ((setOf rerouted [(.way, 1), (.node, 20)]).map elemOf) (1 / 2),
      k ∈ (setOf rerouted [(.way, 1), (.node, 20)]).map keyOf ∨
        k ∈ (recurseTransitive rerouted (setOf rerouted [(.way, 1), (.node, 20)])
          .backward (1 / 2)).1 ∨
        ∃ w, GoneWay rerouted (setOf rerouted [(.way, 1), (.node, 20)]) w ∧
          Followed rerouted (.way, w) k :=
  ⟨fun _ => current_of_mem_setOf good_rerouted, recurseTransitive_extends path.base (baseAgrees _)
    (nodeWayCovers _) (memberCovers _) waysCurrent_path _ not_exposed_rerouted _
    (fun _ => current_of_mem_setOf good_rerouted) (1 / 2)⟩

/-- But one step down gives the node again, and one step up the way, and all steps do not. -/
theorem recurseTransitive_keeps_out :
    (∀ r ∈ setOf rerouted [(.way, 1), (.node, 20)], Current rerouted r) ∧
    (.node, 20) ∈ (forwardOneHop rerouted (setOf rerouted [(.way, 1), (.node, 20)])
      (1 / 2)).map keyOf ∧
    (.node, 20) ∉ (recurseTransitive rerouted (setOf rerouted [(.way, 1), (.node, 20)]) .forward
      (1 / 2)).1 ∧
    (.way, 1) ∈ backwardOneHop rerouted ((setOf rerouted [(.way, 1), (.node, 20)]).map elemOf)
      (1 / 2) ∧
    (.way, 1) ∉ (recurseTransitive rerouted (setOf rerouted [(.way, 1), (.node, 20)]) .backward
      (1 / 2)).1 := by
  refine ⟨fun _ => current_of_mem_setOf good_rerouted, ?_, ?_, ?_, ?_⟩ <;> decide +kernel

/-- From the first node the relation is still found that has dropped it. -/
theorem recurseTransitive_stale :
    (∀ r ∈ setOf rerouted [(.node, 10)], Current rerouted r) ∧
    WithinHops rerouted .backward (setOf rerouted [(.node, 10)]) maxHops ∧
    (.relation, 2) ∈ (recurseTransitive rerouted
      (setOf rerouted [(.node, 10)]) .backward (1 / 2)).1 ∧
    ¬ Wanted rerouted .backward (setOf rerouted [(.node, 10)]) (.relation, 2) := by
  refine ⟨fun _ => current_of_mem_setOf good_rerouted, withinHops_rerouted _, by decide +kernel, ?_⟩
  rintro (⟨⟨n, hn⟩, -⟩ | ⟨h, -⟩)
  · obtain ⟨⟨x, hx, r, hr, m, hm, hmk⟩, -⟩ := one_of_stepsFrom_rerouted hn
    have hmem : (cur rerouted .relation 2).map (fun r => r.cols.members) =
        some [⟨.node, 20, ""⟩] := by
      decide
    rw [hr] at hmem
    have hm' : m ∈ [(⟨.node, 20, ""⟩ : Member)] := Option.some.inj hmem ▸ hm
    rw [List.mem_singleton.mp hm'] at hmk
    rw [← hmk] at hx
    exact absurd (keys_setOf good_rerouted hx) (by decide)
  · cases h

end OsmParquet.RecurseTransitive
