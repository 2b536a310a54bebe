import OsmParquet.RecurseTransitive
import OsmParquet.TaggedNodes

/-!
The filters of a query statement.

A statement names types, sets and filters, and means the elements that are in all of the sets and
pass all of the filters. The planner has four ways to find them: it fetches what a recurse filter
leads to, takes the rows of the sets, looks rows up by id, or reads the files of cells. Each way
hands on some of the filters, and the others are dropped. Besides, what a way reads is not always
what there is: an index may be stale, a file of nodes without tags is not always read, and an older
tier may still have a row.

So a statement means what it says as long as nothing it means is missed, the dropped filters exclude
nothing, and no row of an older tier gets in. How a regular expression matches and whether a line
meets a box are parameters.
-/

namespace OsmParquet.QueryFilters

open OsmParquet.KeyedList OsmParquet.Rows OsmParquet.Tiers OsmParquet.TierSteps
open OsmParquet.ByidReads OsmParquet.CellTree OsmParquet.Updater OsmParquet.Resolves
open OsmParquet.PrevCells OsmParquet.SpatialReads OsmParquet.RunSteps OsmParquet.Findable
open OsmParquet.RelationQuery OsmParquet.OneCell OsmParquet.Recurse OsmParquet.SetFilter
open OsmParquet.TaggedNodes
open OsmParquet.RecurseTransitive (Key allTypes refsOf membersOf elemOf forwardNewIds
  unionBbox idsAt mem_idsAt hopKey nodup_hintCells wayHydrateViaBbox nodeHydrateViaBbox StaleAround
    mem_hydrateViaBbox_ids)

/-! ### Statements -/

inductive RecurseKind
  | w
  | r
  | bn
  | bw
  | br
  deriving DecidableEq, Repr

structure RecurseFilter where
  kind : RecurseKind
  setName : String
  role : Option String
  deriving DecidableEq, Repr

/-- A filter. The parser gives a list of ids at least one. -/
inductive Filter
  | tag (f : TagFilter)
  | bbox (q : Box)
  | ids (first : ℤ) (rest : List ℤ)
  | recurse (f : RecurseFilter)

structure Query where
  types : List Typ
  filters : List Filter
  inputSets : List String

/-- The box of the whole program and the sets that statements before this one have made. -/
structure Context where
  globalBbox : Option Box
  sets : String → Option (List SetRow)

/-! ### The planner -/

def Query.bboxes (q : Query) : List Box :=
  q.filters.filterMap fun | .bbox b => some b | _ => none

def Query.idLists (q : Query) : List (List ℤ) :=
  q.filters.filterMap fun | .ids i is => some (i :: is) | _ => none

def Query.tagFilters (q : Query) : List TagFilter :=
  q.filters.filterMap fun | .tag f => some f | _ => none

def Query.recurseFilters (q : Query) : List RecurseFilter :=
  q.filters.filterMap fun | .recurse f => some f | _ => none

/-- The first box of the statement, else that of the program. -/
def bboxFor (q : Query) (globalBbox : Option Box) : Option Box := q.bboxes.head?.or globalBbox

/-- The first list of ids. -/
def idsFor (q : Query) : Option (List ℤ) := q.idLists.head?

def isEmptyBbox (b : Box) : Bool := b.south > b.north || b.west > b.east

/-- No hop reads more than half of all leaves. -/
def maxCellFraction : ℚ := 1 / 2

section Sources

variable (intersects : List Point → Box → Bool) (regexpMatches : String → String → Bool → Bool)
variable {s : Root} (S : SplitNodes s) (hasIndex : Bool)

/-- The tag filters on the columns of a row. -/
def tagWhere (s : Root) (fs : List TagFilter) {t : Typ} (c : ByidCols t) : Bool :=
  decide (tagFiltersSql regexpMatches s.base.promotedKeys fs (attrs c) = some true)

/-- A row of a set has no columns of promoted keys. -/
def setTagWhere (fs : List TagFilter) (x : SetRow) : Bool :=
  decide (tagFiltersSql regexpMatches [] fs (attrs x.2.cols) = some true)

/-- The tests of a row besides that for the box. -/
def rowWhere (s : Root) (fs : List TagFilter) (ids : Option (List ℤ)) {t : Typ}
    (r : Row (SpatialCols t)) : Bool :=
  ids.all (fun ids => ids.isEmpty || decide (r.id ∈ ids)) && tagWhere regexpMatches s fs
    (byidCols r.cols)

/-- The elements of a type in a box. -/
def spatialSelect (bbox : Option Box) (fs : List TagFilter) (ids : Option (List ℤ)) : Typ → List ℤ
  | .node => (buildNodeSpatialSelect regexpMatches S hasIndex bbox fs ids).map Row.id
  | .way =>
    (waySpatialSelect intersects s (rowWhere (t := .way) regexpMatches s fs ids) bbox).map Row.id
  | .relation =>
    (relationSpatialSelect intersects s (rowWhere (t := .relation) regexpMatches s fs ids) bbox).map
    Row.id

/-- The elements of a type: by id if there are ids and no box, else by the files of cells. -/
def typeSelect (q : Query) (bbox : Option Box) (t : Typ) : List ℤ :=
  match idsFor q, bbox with
  | some ids, none =>
    (buildByidSelect (s.base.byid t) s.deltas ids
      (tagWhere regexpMatches s q.tagFilters)).map Row.id
  | ids, bbox => spatialSelect intersects regexpMatches S hasIndex bbox q.tagFilters ids t

def fromDataset (q : Query) (bbox : Option Box) : List (Typ × ℤ) :=
  q.types.flatMap fun t =>
    (typeSelect intersects regexpMatches S hasIndex q bbox t).map fun i => (t, i)

/-- A hop forward knows no cells. -/
def forwardHops (keys : Option (List Key)) : List Hop :=
  (keys.getD []).map fun k => ⟨k.1, k.2, none⟩

/-- Where a recurse filter leads from a set. -/
def hopsFor (s : Root) (f : RecurseFilter) (src : List SetRow) : List Hop :=
  match f.kind with
  | .w => forwardHops (forwardNewIds src [.way] none allTypes)
  | .r => forwardHops (forwardNewIds src [.relation] f.role allTypes)
  | .bn => backwardNewIds s (src.map elemOf) [.node] f.role maxCellFraction
  | .bw => backwardNewIds s (src.map elemOf) [.way] f.role maxCellFraction
  | .br => backwardNewIds s (src.map elemOf) [.relation] f.role maxCellFraction

/-- The elements that a hop has led to: nodes of ways and ways of relations from the files around
the elements of the set, all others as after any hop. -/
def hydrate (s : Root) (f : RecurseFilter) (src : List SetRow) (types : List Typ)
    (fs : List TagFilter) : List (Typ × ℤ) :=
  let hops := hopsFor s f src
  if f.kind = .w ∧ .node ∈ types then
    (nodeHydrateViaBbox s maxCellFraction (idsAt .node (hops.map hopKey))
      (src.filter fun x => x.1 = .way) (tagWhere regexpMatches s fs)).map SetRow.key
  else if f.kind = .r ∧ .way ∈ types then
    (wayHydrateViaBbox s maxCellFraction (idsAt .way (hops.map hopKey))
      (src.filter fun x => x.1 = .relation) (tagWhere regexpMatches s fs)).map SetRow.key ++
      hydrateIds s (tagWhere regexpMatches s fs) hops (types.filter fun t => t ≠ .way)
  else hydrateIds s (tagWhere regexpMatches s fs) hops types

def notSet (name : String) : String :=
  "runtime error: set \"." ++ name ++ "\" has not been set before"

def requireSet (ctx : Context) (name : String) : Except String (List SetRow) :=
  (ctx.sets name).elim (.error (notSet name)) .ok

/-- The elements a query statement writes to its output set. -/
def executeQuery (ctx : Context) (q : Query) : Except String (List (Typ × ℤ)) :=
  let bbox := bboxFor q ctx.globalBbox
  if bbox.any isEmptyBbox then .ok []
  else match q.recurseFilters with
  | f :: _ => do
    let src ← requireSet ctx f.setName
    return hydrate regexpMatches s f src q.types q.tagFilters
  | [] =>
    if q.inputSets = [] then .ok (fromDataset intersects regexpMatches S hasIndex q bbox)
    else do
      let sets ← q.inputSets.mapM (requireSet ctx)
      return (fromSetSelect (sets.headD []) sets.tail q.types
        (setTagWhere regexpMatches q.tagFilters) (idsFor q) bbox).map SetRow.key

end Sources

/-! ### What a statement means -/

section Meaning

variable (intersects : List Point → Box → Bool) (regexpMatches : String → String → Bool → Bool)
variable (s : Root) (ctx : Context)

/-- Whether an element is in a box: a node by its position, a way by its line, a relation by its
members as they are now, the last two after a test of their boxes. -/
def inBox (q : Box) : {t : Typ} → SpatialCols t → Bool
  | .node, c => inside q c.coord
  | .way, c => meets q c.byid.bbox && c.geometry.any fun g => intersects g q
  | .relation, c => meets q c.byid.bbox && c.byid.members.any
    (hit intersects (curCoord s) (currentLine s) q)

/-- An element in a box. Nothing is in a box that ends before it begins. -/
def Within (b : Box) {t : Typ} (r : Row (SpatialCols t)) : Prop :=
  isEmptyBbox b = false ∧ inBox intersects s b r.cols

/-- Tag filters are about the tags. -/
def Tagged (fs : List TagFilter) {t : Typ} (r : Row (SpatialCols t)) : Prop :=
  ∀ f ∈ fs, tagFilterSql regexpMatches [] f (attrs (byidCols r.cols)) = some true

/-- An element has one of the elements of a type in a set, in the role if one is given. A role is
asked of relations only. -/
def IsParent (k : Typ) (src : List SetRow) (role : Option String) (t : Typ) (i : ℤ) : Prop :=
  t = .way ∧ k = .node ∧ HasRef s (idsOf .node (src.map elemOf)) i ∨
    t = .relation ∧ HasMember s k (idsOf k (src.map elemOf)) role i

/-- A recurse filter leads from a set to an element. -/
def LeadsFrom (f : RecurseFilter) (src : List SetRow) (t : Typ) (i : ℤ) : Prop :=
  match f.kind with
  | .w => t = .node ∧ ∃ x ∈ src, i ∈ refsOf x
  | .r => ∃ x ∈ src, ∃ m ∈ membersOf x, m.type = t ∧ m.ref = i ∧ roleOk f.role m.role
  | .bn => IsParent s .node src f.role t i
  | .bw => IsParent s .way src f.role t i
  | .br => IsParent s .relation src f.role t i

def Leads (f : RecurseFilter) {t : Typ} (r : Row (SpatialCols t)) : Prop :=
  ∃ src, ctx.sets f.setName = some src ∧ LeadsFrom s f src t r.id

def Belongs (name : String) {t : Typ} (r : Row (SpatialCols t)) : Prop :=
  ∃ rows, ctx.sets name = some rows ∧ (t, r.id) ∈ rows.map SetRow.key

/-- An element passes a filter. -/
def Holds : Filter → {t : Typ} → Row (SpatialCols t) → Prop
  | .tag f, _, r => tagFilterSql regexpMatches [] f (attrs (byidCols r.cols)) = some true
  | .bbox b, _, r => Within intersects s b r
  | .ids i is, _, r => r.id ∈ i :: is
  | .recurse f, _, r => Leads s ctx f r

/-- **What a statement means**: the elements of the types that pass every filter and belong to
every set; the box of the program counts for a statement without one. -/
def Means (q : Query) {t : Typ} (r : Row (SpatialCols t)) : Prop :=
  t ∈ q.types ∧ (∀ f ∈ q.filters, Holds intersects regexpMatches s ctx f r) ∧
    (q.bboxes = [] → ∀ b ∈ ctx.globalBbox, Within intersects s b r) ∧
    ∀ n ∈ q.inputSets, Belongs ctx n r

/-- The boxes that count for a statement. -/
def boxesFor (q : Query) : List Box := if q.bboxes = [] then ctx.globalBbox.toList else q.bboxes

/-- What a statement asks of an element besides its type and tags. -/
structure Passes (q : Query) {t : Typ} (r : Row (SpatialCols t)) : Prop where
  ids : ∀ ids ∈ q.idLists, r.id ∈ ids
  boxes : ∀ b ∈ boxesFor ctx q, Within intersects s b r
  recurse : ∀ f ∈ q.recurseFilters, Leads s ctx f r
  sets : ∀ n ∈ q.inputSets, Belongs ctx n r

/-- The sets hold rows of the dataset. -/
def SetsExist : Prop :=
  ∀ name rows, ctx.sets name = some rows → ∀ x ∈ rows, cur s x.1 x.2.id = some x.2

end Meaning

/-- The sets that a statement names have been set. -/
structure Defined (ctx : Context) (q : Query) : Prop where
  inputs : ∀ n ∈ q.inputSets, (ctx.sets n).isSome
  sources : ∀ f ∈ q.recurseFilters, (ctx.sets f.setName).isSome

/-! ### What the planner goes by -/

section Planned

variable (intersects : List Point → Box → Bool) (regexpMatches : String → String → Bool → Bool)
variable {s : Root} (S : SplitNodes s) (ctx : Context)

/-- Rows are looked up by id. -/
def byIds (q : Query) : Bool := (idsFor q).isSome && (bboxFor q ctx.globalBbox).isNone

/-- The cells that are read for a type. -/
def cellsRead (s : Root) (q : Query) (t : Typ) : List Cell :=
  cellsForBbox (catalogOf s) t (bboxFor q ctx.globalBbox)

/-- The test for the box, as the base knows the members of relations. -/
def BoxTest (s : Root) (q : Query) {t : Typ} (r : Row (SpatialCols t)) : Prop :=
  ∀ b ∈ bboxFor q ctx.globalBbox, rowInBox intersects s b r.cols

/-- A node in a file that is not read. -/
def Unread (q : Query) : {t : Typ} → Row (SpatialCols t) → Prop
  | .node, r => Skipped S (bboxFor q ctx.globalBbox) q.tagFilters r
  | _, _ => False

/-- What the planner finds a current row by, besides its type and tags: the hop of the first recurse
filter; or the sets, the first list of ids and the first box by the columns of the rows; or the
first list of ids; or the files of the cells for the first box. -/
def GoesBy (q : Query) {t : Typ} (r : Row (SpatialCols t)) : Prop :=
  match q.recurseFilters with
  | f :: _ => ∃ src, ctx.sets f.setName = some src ∧ (t, r.id) ∈ (hopsFor s f src).map hopKey
  | [] => (∀ n ∈ q.inputSets, Belongs ctx n r) ∧ (∀ ids ∈ idsFor q, r.id ∈ ids) ∧
      if q.inputSets = [] then byIds ctx q = false →
        inCells (cellsRead ctx s q t) r.cell ∧ ¬ Unread S ctx q r ∧ BoxTest intersects ctx s q r
      else ∀ b ∈ bboxFor q ctx.globalBbox, colsInBox b (byidCols r.cols)

/-- What an older tier has of an element that a hop leads to. -/
def StaleLed (s : Root) (f : RecurseFilter) (src : List SetRow) (fs : List TagFilter)
    (t : Typ) (i : ℤ) : Prop :=
  match f.kind with
  | .w => t = .node ∧ StaleAround s .node maxCellFraction
    (unionBbox (src.filter fun x => x.1 = .way))
      (fun _ _ => true) (tagWhere regexpMatches s fs) i
  | .r => t = .way ∧ StaleAround s .way maxCellFraction
    (unionBbox (src.filter fun x => x.1 = .relation))
      (fun b c => meets (boxOf b) c.byid.bbox) (tagWhere regexpMatches s fs) i
  | _ => StaleHop s (tagWhere regexpMatches s fs) (hopsFor s f src) t i

/-- An element is found by what an older tier has of it. -/
def StaleFound (s : Root) (q : Query) (t : Typ) (i : ℤ) : Prop :=
  match q.recurseFilters with
  | f :: _ => ∃ src, ctx.sets f.setName = some src ∧ (t, i) ∈ (hopsFor s f src).map hopKey ∧
      StaleLed regexpMatches s f src q.tagFilters t i
  | [] => q.inputSets = [] ∧ byIds ctx q = false ∧ ∃ r, StaleRow s t (cellsRead ctx s q t) i r ∧
      BoxTest intersects ctx s q r ∧ rowWhere regexpMatches s q.tagFilters (idsFor q) r

/-- **Nothing is missed**: everything the statement means is found. -/
def NothingMissed (q : Query) : Prop :=
  ∀ t i r, curSpatial s t i = some r → Means intersects regexpMatches s ctx q r →
    GoesBy intersects S ctx q r ∨ StaleFound intersects regexpMatches ctx s q t i

/-- **The filters that the planner drops exclude nothing** of what it finds, unless the box it goes
by is empty anyway. -/
def NothingDropped (q : Query) : Prop :=
  (∀ b ∈ bboxFor q ctx.globalBbox, isEmptyBbox b = false) → ∀ t ∈ q.types, ∀ i r,
    curSpatial s t i = some r → Tagged regexpMatches q.tagFilters r → GoesBy intersects S ctx q r →
      Passes intersects s ctx q r

/-- **Nothing stale gets in**: what is found by an older tier is meant all the same. -/
def NothingStale (s : Root) (q : Query) : Prop :=
  (∀ b ∈ bboxFor q ctx.globalBbox, isEmptyBbox b = false) → ∀ t ∈ q.types, ∀ i,
    StaleFound intersects regexpMatches ctx s q t i →
      ∃ r, curSpatial s t i = some r ∧ Means intersects regexpMatches s ctx q r

end Planned

section Lemmas

variable {intersects : List Point → Box → Bool} {regexpMatches : String → String → Bool → Bool}
variable {s : Root} {ctx : Context} {q : Query} {t : Typ} {r : Row (SpatialCols t)}

/-- The meaning, one kind of filter at a time. -/
lemma means_iff : Means intersects regexpMatches s ctx q r ↔ t ∈ q.types ∧
    Tagged regexpMatches q.tagFilters r ∧ Passes intersects s ctx q r := by
  have hboxes : (∀ b ∈ boxesFor ctx q, Within intersects s b r) ↔
      (∀ b ∈ q.bboxes, Within intersects s b r) ∧
        (q.bboxes = [] → ∀ b ∈ ctx.globalBbox, Within intersects s b r) := by
    unfold boxesFor
    split
    · rename_i h
      simp [h]
    · rename_i h
      simp [h]
  unfold Means Tagged Query.tagFilters
  constructor
  · rintro ⟨ht, hf, hg, hs⟩
    refine ⟨ht, fun f h => ?_, fun ids h => ?_, hboxes.mpr ⟨fun b h => ?_, hg⟩, fun f h => ?_, hs⟩
    all_goals
      obtain ⟨x, hx, he⟩ := List.mem_filterMap.mp h
      have hh := hf x hx
      cases x <;> cases he
      exact hh
  · rintro ⟨ht, h1, h⟩
    refine ⟨ht, fun f hf => ?_, (hboxes.mp h.boxes).2, h.sets⟩
    cases f with
    | tag f => exact h1 f (List.mem_filterMap.mpr ⟨_, hf, rfl⟩)
    | bbox b => exact (hboxes.mp h.boxes).1 b (List.mem_filterMap.mpr ⟨_, hf, rfl⟩)
    | ids i is => exact h.ids (i :: is) (List.mem_filterMap.mpr ⟨_, hf, rfl⟩)
    | recurse f => exact h.recurse f (List.mem_filterMap.mpr ⟨_, hf, rfl⟩)

/-- The box the planner goes by is one that counts. -/
lemma bboxFor_mem {b : Box} (h : b ∈ bboxFor q ctx.globalBbox) : b ∈ boxesFor ctx q := by
  unfold bboxFor at h
  unfold boxesFor
  rcases hb : q.bboxes with _ | ⟨a, as⟩
  · rw [hb] at h
    simpa using h
  · rw [hb] at h
    cases h
    simp

/-- The first test for a box is the test that the columns of a row allow. -/
lemma colsInBox_of_inBox {b : Box} (h : inBox intersects s b r.cols) :
    colsInBox b (byidCols r.cols) := by
  cases t with
  | node => exact h
  | way => exact (Bool.and_eq_true_iff.mp h).1
  | relation => exact (Bool.and_eq_true_iff.mp h).1

/-- The columns of a current row say as much of its tags as the tags do. -/
lemma tagWhere_iff (ha : BaseAgrees s.base) (hp : Promoted s) {i : ℤ}
    (hr : curSpatial s t i = some r) {fs : List TagFilter} :
    tagWhere regexpMatches s fs (byidCols r.cols) = true ↔
      Tagged regexpMatches fs r := by
  have hcur : cur s t i = some (r.map byidCols) := by rw [cur_eq_curSpatial ha, hr]; rfl
  have hpromoted : (attrs (byidCols r.cols)).promoted =
      s.base.promotedKeys.map (tagValue (attrs (byidCols r.cols)).tags) := hp t i _ hcur
  rw [tagWhere, decide_eq_true_iff, tagFiltersSql_eq_true]
  exact forall₂_congr fun f _ => by rw [tagFilterSql_promoted hpromoted]

/-- A list of ids in a statement is not empty, so the test for an empty one is never met. -/
lemma all_idsFor {i : ℤ} : (idsFor q).all (fun ids => ids.isEmpty || decide (i ∈ ids)) = true ↔
    ∀ ids ∈ idsFor q, i ∈ ids := by
  rw [Option.all_eq_true]
  refine forall_congr' fun ids => forall_congr' fun h => ?_
  obtain ⟨f, -, hf⟩ := List.mem_filterMap.mp (List.mem_of_head? h)
  cases f <;> cases hf
  simp

end Lemmas

/-! ### After a hop -/

section Hops

variable {regexpMatches : String → String → Bool → Bool} {s : Root} {f : RecurseFilter}
variable {src : List SetRow} {types : List Typ} {fs : List TagFilter} {t : Typ} {i : ℤ}

lemma mem_hopKeys {hops : List Hop} : (∃ h ∈ hops, h.type = t ∧ h.id = i) ↔
    (t, i) ∈ hops.map hopKey := by
  simp [hopKey]

lemma mem_forwardHops {keys : Option (List Key)} : (t, i) ∈ (forwardHops keys).map hopKey ↔
    (t, i) ∈ keys.getD [] := by
  simp [forwardHops, hopKey]

lemma cell_forwardHops {keys : Option (List Key)} {h : Hop} (hh : h ∈ forwardHops keys) :
    h.cell = none := by
  obtain ⟨k, -, rfl⟩ := List.mem_map.mp hh
  rfl

/-- A hop forward leads to what its filter means. -/
lemma mem_hops_w (hw : f.kind = .w) : (t, i) ∈ (hopsFor s f src).map hopKey ↔
    LeadsFrom s f src t i := by
  simp only [hopsFor, LeadsFrom, hw, mem_forwardHops]
  simp only [forwardNewIds, List.mem_singleton, if_true, reduceCtorEq, false_and, if_false,
    List.append_nil, List.cons_ne_nil, Option.getD_some, List.flatten_cons, List.flatten_nil,
    List.mem_flatMap, List.mem_map, Prod.mk.injEq]
  constructor
  · rintro ⟨x, hx, n, hn, rfl, rfl⟩
    exact ⟨rfl, x, hx, hn⟩
  · rintro ⟨rfl, x, hx, hn⟩
    exact ⟨x, hx, i, hn, rfl, rfl⟩

lemma mem_hops_r (hr : f.kind = .r) : (t, i) ∈ (hopsFor s f src).map hopKey ↔
    LeadsFrom s f src t i := by
  have hall : ∀ t : Typ, t ∈ allTypes := by intro t; cases t <;> simp [allTypes]
  have hne : allTypes ≠ [] := by simp [allTypes]
  simp only [hopsFor, LeadsFrom, hr, mem_forwardHops]
  simp only [forwardNewIds, List.mem_singleton, reduceCtorEq, if_false, hne, ne_eq,
    not_false_eq_true, and_self, if_true, List.nil_append, List.cons_ne_nil, Option.getD_some,
    List.flatten_cons, List.flatten_nil, List.append_nil, List.mem_flatMap, List.mem_map,
    List.mem_filter, hall, decide_true, Bool.true_and, Prod.mk.injEq]
  constructor
  · rintro ⟨x, hx, m, ⟨hm, hrole⟩, rfl, rfl⟩
    exact ⟨x, hx, m, hm, rfl, rfl, hrole⟩
  · rintro ⟨x, hx, m, hm, rfl, rfl, hrole⟩
    exact ⟨x, hx, m, ⟨hm, hrole⟩, rfl, rfl⟩

/-- Where its index is fresh a hop back leads to what its filter means too. -/
lemma mem_hops_back (hk : Kept s) (hx : NoneExposed s) {k : Typ}
    (hkind : f.kind = .bn ∧ k = .node ∨ f.kind = .bw ∧ k = .way ∨ f.kind = .br ∧ k = .relation)
    (hnodes : k = .node → NodesCurrent s (src.map elemOf) ∧ WaysReached s (src.map elemOf) ∧
      WaysFresh s (idsOf .node (src.map elemOf)))
    (hrels : RelationsFresh s (src.map elemOf) [k] f.role) (hex : (cur s t i).isSome) :
    (t, i) ∈ (hopsFor s f src).map hopKey ↔ LeadsFrom s f src t i := by
  have hhops : hopsFor s f src = backwardNewIds s (src.map elemOf) [k] f.role maxCellFraction := by
    rcases hkind with ⟨hf, rfl⟩ | ⟨hf, rfl⟩ | ⟨hf, rfl⟩ <;> rw [hopsFor, hf]
  have hleads : LeadsFrom s f src t i ↔ IsParent s k src f.role t i := by
    rcases hkind with ⟨hf, rfl⟩ | ⟨hf, rfl⟩ | ⟨hf, rfl⟩ <;> rw [LeadsFrom, hf]
  rw [hhops, hleads, ← mem_hopKeys, exists_hop_iff hk hx hnodes hrels hex, IsParent]

end Hops

section Hydrate

variable {regexpMatches : String → String → Bool → Bool} {s : Root} {f : RecurseFilter}
variable {src : List SetRow} {types : List Typ} {fs : List TagFilter} {t : Typ} {i : ℤ}

lemma mem_keys_mk {rows : List (Row (ByidCols t))} {t' : Typ} :
    (t', i) ∈ (rows.map (Sigma.mk t)).map SetRow.key ↔ t' = t ∧ i ∈ rows.map Row.id := by
  simp only [List.map_map, List.mem_map, Function.comp_apply, SetRow.key, Prod.mk.injEq]
  constructor
  · rintro ⟨r, hr, rfl, rfl⟩
    exact ⟨rfl, r, hr, rfl⟩
  · rintro ⟨rfl, r, hr, rfl⟩
    exact ⟨r, hr, rfl, rfl⟩

/-- **What is fetched after a hop**: of what it leads to everything that exists and passes the tag
filters, and what an older tier has. -/
lemma mem_hydrate (hg : Good s.deltas) (hm : TiersRemember s) (ha : BaseAgrees s.base) :
    (t, i) ∈ hydrate regexpMatches s f src types fs ↔ t ∈ types ∧
    (t, i) ∈ (hopsFor s f src).map hopKey ∧
      ((∃ r, cur s t i = some r ∧ tagWhere regexpMatches s fs r.cols = true) ∨
        StaleLed regexpMatches s f src fs t i) := by
  have hids : ∀ only, (t, i) ∈ hydrateIds s (tagWhere regexpMatches s fs) (hopsFor s f src) only ↔
      t ∈ only ∧ (t, i) ∈ (hopsFor s f src).map hopKey ∧
        ((∃ r, cur s t i = some r ∧ tagWhere regexpMatches s fs r.cols = true) ∨
          StaleHop s (tagWhere regexpMatches s fs) (hopsFor s f src) t i) := by
    intro only
    rw [mem_hydrateIds_stale hg hm ha, mem_hopKeys]
  -- a hop forward knows no cells, so nothing is read for it but around the set
  have hnocell : ∀ keys, hopsFor s f src = forwardHops keys →
      ¬ StaleHop s (tagWhere regexpMatches s fs) (hopsFor s f src) t i := by
    rintro keys hkeys ⟨-, ⟨h, hh, -, -, hcell⟩, -⟩
    rw [hkeys] at hh
    rw [cell_forwardHops hh] at hcell
    cases hcell
  unfold hydrate StaleLed
  simp only
  cases hkind : f.kind with
  | w =>
    have hnode : (t, i) ∈ (hopsFor s f src).map hopKey → t = .node := fun h => by
      have hleads := (mem_hops_w hkind).mp h
      rw [LeadsFrom, hkind] at hleads
      exact hleads.1
    by_cases htypes : Typ.node ∈ types
    · rw [if_pos ⟨rfl, htypes⟩, nodeHydrateViaBbox, mem_keys_mk,
        mem_hydrateViaBbox_ids hg hm ha, mem_idsAt]
      constructor
      · rintro ⟨rfl, hkey, h⟩
        exact ⟨htypes, hkey, h.imp_right fun h => ⟨rfl, h⟩⟩
      · rintro ⟨-, hkey, h⟩
        obtain rfl := hnode hkey
        exact ⟨rfl, hkey, h.imp_right And.right⟩
    · rw [if_neg fun h => htypes h.2, if_neg (by simp), hids]
      refine and_congr_right fun ht => and_congr_right fun hkey => ?_
      exact absurd (hnode hkey ▸ ht) htypes
  | r =>
    have hfwd : ¬ StaleHop s (tagWhere regexpMatches s fs) (hopsFor s f src) t i := by
      refine hnocell (forwardNewIds src [.relation] f.role allTypes) ?_
      rw [hopsFor, hkind]
    rw [if_neg (by simp)]
    by_cases htypes : Typ.way ∈ types
    · rw [if_pos ⟨rfl, htypes⟩, List.mem_append, hids, wayHydrateViaBbox, mem_keys_mk,
        mem_hydrateViaBbox_ids hg hm ha, mem_idsAt, or_iff_left hfwd, List.mem_filter]
      constructor
      · rintro (⟨rfl, hkey, h⟩ | ⟨⟨ht, -⟩, hkey, h⟩)
        · exact ⟨htypes, hkey, h.imp_right fun h => ⟨rfl, h⟩⟩
        · exact ⟨ht, hkey, .inl h⟩
      · rintro ⟨ht, hkey, h⟩
        by_cases hway : t = .way
        · subst hway
          exact .inl ⟨rfl, hkey, h.imp_right And.right⟩
        · exact .inr ⟨⟨ht, by simpa using hway⟩, hkey, h.resolve_right fun h => hway h.1⟩
    · rw [if_neg fun h => htypes h.2, hids, or_iff_left hfwd]
      refine and_congr_right fun ht => and_congr_right fun _ => (or_iff_left fun h => ?_).symm
      exact htypes (h.1 ▸ ht)
  | bn => rw [if_neg (by simp), if_neg (by simp), hids]
  | bw => rw [if_neg (by simp), if_neg (by simp), hids]
  | br => rw [if_neg (by simp), if_neg (by simp), hids]

end Hydrate

/-! ### From the files -/

section Files

variable {intersects : List Point → Box → Bool} {regexpMatches : String → String → Bool → Bool}
variable {s : Root} {S : SplitNodes s} {hasIndex : Bool} {ctx : Context} {q : Query}
  {t : Typ} {i : ℤ}

/-- The ids of rows that are current or of an older tier. -/
lemma mem_ids_stale {cells : List Cell} {rows : List (Row (SpatialCols t))}
    {P : Row (SpatialCols t) → Prop} (h : ∀ r, r ∈ rows ↔
      (curSpatial s t r.id = some r ∧ inCells cells r.cell ∨ StaleRow s t cells r.id r) ∧ P r) :
    i ∈ rows.map Row.id ↔ (∃ r, curSpatial s t i = some r ∧ inCells cells r.cell ∧ P r) ∨
      ∃ r, StaleRow s t cells i r ∧ P r := by
  rw [List.mem_map]
  constructor
  · rintro ⟨r, hr, rfl⟩
    obtain ⟨⟨hcur, hin⟩ | hstale, hP⟩ := (h r).mp hr
    · exact .inl ⟨r, hcur, hin, hP⟩
    · exact .inr ⟨r, hstale, hP⟩
  · rintro (⟨r, hcur, hin, hP⟩ | ⟨r, hstale, hP⟩)
    · obtain rfl := id_of_curSpatial hcur
      exact ⟨r, (h r).mpr ⟨.inl ⟨hcur, hin⟩, hP⟩, rfl⟩
    · obtain rfl := hstale.id_eq
      exact ⟨r, (h r).mpr ⟨.inr hstale, hP⟩, rfl⟩

lemma nodup_cellsRead : (cellsRead ctx s q t).Nodup := nodup_cellsForBbox _ _ _

lemma mem_nodeSelect (hg : Good s.deltas) (hm : TiersRemember s) (ha : BaseAgrees s.base)
    {r : Row (SpatialCols .node)} : r ∈ buildNodeSpatialSelect regexpMatches S hasIndex
        (bboxFor q ctx.globalBbox) q.tagFilters (idsFor q) ↔
      (curSpatial s .node r.id = some r ∧ inCells (cellsRead ctx s q .node) r.cell ∨
        StaleRow s .node (cellsRead ctx s q .node) r.id r) ∧ ¬ Unread S ctx q r ∧
      BoxTest intersects ctx s q r ∧ rowWhere regexpMatches s q.tagFilters (idsFor q) r := by
  have hc : (cellsRead ctx s q .node).Nodup := nodup_cellsRead
  have hread := mem_currentRows_stale (t := .node) hg hm ha hc (r := r) (p := fun r =>
    (bboxFor q ctx.globalBbox).all (fun b => inside b r.cols.coord) &&
      nodeWhere (s := s) regexpMatches q.tagFilters (idsFor q) r)
  rw [mem_build_iff]
  refine (and_congr_left' hread).trans ?_
  rw [Bool.and_eq_true, Option.all_eq_true, and_assoc, and_comm (b := ¬ Skipped S _ _ r)]
  rfl

lemma mem_waySelect (hg : Good s.deltas) (hm : TiersRemember s) (ha : BaseAgrees s.base)
    {r : Row (SpatialCols .way)} : r ∈ waySpatialSelect intersects s
        (rowWhere (t := .way) regexpMatches s q.tagFilters (idsFor q))
        (bboxFor q ctx.globalBbox) ↔
      (curSpatial s .way r.id = some r ∧ inCells (cellsRead ctx s q .way) r.cell ∨
        StaleRow s .way (cellsRead ctx s q .way) r.id r) ∧
      BoxTest intersects ctx s q r ∧ rowWhere regexpMatches s q.tagFilters (idsFor q) r := by
  have hc : (cellsRead ctx s q .way).Nodup := nodup_cellsRead
  refine (mem_currentRows_stale hg hm ha hc).trans (and_congr_right fun _ => ?_)
  rw [Bool.and_eq_true, Option.all_eq_true]
  rfl

/-- Relations are tested for the box a second time, by their members. -/
lemma mem_relationSelect (hg : Good s.deltas) (hm : TiersRemember s) (ha : BaseAgrees s.base)
    {r : Row (SpatialCols .relation)} : r ∈ relationSpatialSelect intersects s
        (rowWhere (t := .relation) regexpMatches s q.tagFilters (idsFor q))
        (bboxFor q ctx.globalBbox) ↔
      (curSpatial s .relation r.id = some r ∧ inCells (cellsRead ctx s q .relation) r.cell ∨
        StaleRow s .relation (cellsRead ctx s q .relation) r.id r) ∧
      BoxTest intersects ctx s q r ∧ rowWhere regexpMatches s q.tagFilters (idsFor q) r := by
  have hc : (cellsRead ctx s q .relation).Nodup := nodup_cellsRead
  unfold relationSpatialSelect BoxTest cellsRead
  unfold cellsRead at hc
  generalize bboxFor q ctx.globalBbox = bbox at hc ⊢
  cases bbox with
  | none =>
    refine (mem_currentRows_stale (t := .relation) hg hm ha hc).trans (and_congr_right fun _ => ?_)
    simp
  | some b =>
    simp only
    rw [mem_exactFilter (ha .way)]
    refine (and_congr_left' (mem_currentRows_stale (t := .relation) hg hm ha hc)).trans ?_
    rw [and_assoc, Option.elim_some, Bool.and_eq_true]
    refine and_congr_right fun _ => ?_
    simp only [Option.mem_def, Option.some.injEq, forall_eq', rowInBox, Bool.and_eq_true]
    tauto

/-- **What the files give**: current rows in the cells, unless they are in a file that is not read,
and rows of older tiers, all by the same tests. -/
lemma mem_spatialSelect (hg : Good s.deltas) (hm : TiersRemember s) (ha : BaseAgrees s.base) :
    i ∈ spatialSelect intersects regexpMatches S hasIndex (bboxFor q ctx.globalBbox) q.tagFilters
        (idsFor q) t ↔
      (∃ r, curSpatial s t i = some r ∧ inCells (cellsRead ctx s q t) r.cell ∧ ¬ Unread S ctx q r ∧
        BoxTest intersects ctx s q r ∧ rowWhere regexpMatches s q.tagFilters (idsFor q) r) ∨
      ∃ r, StaleRow s t (cellsRead ctx s q t) i r ∧ BoxTest intersects ctx s q r ∧
        rowWhere regexpMatches s q.tagFilters (idsFor q) r := by
  cases t with
  | node =>
    refine (mem_ids_stale fun r => mem_nodeSelect hg hm ha).trans (or_congr_right
      (exists_congr fun r => and_congr_right fun h => ?_))
    exact and_iff_right fun hskip => hskip.2.2 (shadowed_of_stale hg h)
  | way =>
    refine (mem_ids_stale fun r => mem_waySelect hg hm ha).trans
      (or_congr_left (exists_congr fun r => ?_))
    simp only [Unread, not_false_eq_true, true_and]
  | relation =>
    refine (mem_ids_stale fun r => mem_relationSelect hg hm ha).trans
      (or_congr_left (exists_congr fun r => ?_))
    simp only [Unread, not_false_eq_true, true_and]

/-- By id exactly what there is is found, and nothing of an older tier. -/
lemma mem_typeSelect_byIds (hg : Good s.deltas) (ha : BaseAgrees s.base) (hp : Promoted s)
    (hby : byIds ctx q = true) :
    i ∈ typeSelect intersects regexpMatches S hasIndex q (bboxFor q ctx.globalBbox) t ↔
      ∃ r, curSpatial s t i = some r ∧ Tagged regexpMatches q.tagFilters r ∧
        ∀ ids ∈ idsFor q, r.id ∈ ids := by
  obtain ⟨hsome, hnone⟩ := Bool.and_eq_true_iff.mp hby
  obtain ⟨ids, hids⟩ := Option.isSome_iff_exists.mp hsome
  have hsel : typeSelect intersects regexpMatches S hasIndex q (bboxFor q ctx.globalBbox) t =
      (buildByidSelect (s.base.byid t) s.deltas ids
        (tagWhere regexpMatches s q.tagFilters)).map Row.id := by
    unfold typeSelect
    rw [hids, Option.isNone_iff_eq_none.mp hnone]
  rw [hsel, mem_byidSelect hg, cur_eq_curSpatial ha]
  simp only [Option.map_eq_some_iff, exists_exists_and_eq_and]
  constructor
  · rintro ⟨hi, r, hr, htags⟩
    refine ⟨r, hr, (tagWhere_iff ha hp hr).mp htags, fun ids' h => ?_⟩
    rw [← Option.some.inj (hids.symm.trans h), id_of_curSpatial hr]
    exact hi
  · rintro ⟨r, hr, htags, hi⟩
    exact ⟨id_of_curSpatial hr ▸ hi ids hids, r, hr, (tagWhere_iff ha hp hr).mpr htags⟩

lemma typeSelect_files (hby : byIds ctx q = false) :
    typeSelect intersects regexpMatches S hasIndex q (bboxFor q ctx.globalBbox) t =
      spatialSelect intersects regexpMatches S hasIndex (bboxFor q ctx.globalBbox) q.tagFilters
        (idsFor q) t := by
  unfold typeSelect
  unfold byIds at hby
  cases hids : idsFor q <;> cases hbox : bboxFor q ctx.globalBbox <;> simp [hids, hbox] at hby ⊢

/-- **What the planner finds in the dataset**, by id or by the files. -/
lemma mem_fromDataset (hg : Good s.deltas) (hm : TiersRemember s) (ha : BaseAgrees s.base)
    (hp : Promoted s) (hrec : q.recurseFilters = []) (hin : q.inputSets = []) :
    (t, i) ∈ fromDataset intersects regexpMatches S hasIndex q
    (bboxFor q ctx.globalBbox) ↔ t ∈ q.types ∧
      ((∃ r, curSpatial s t i = some r ∧ Tagged regexpMatches q.tagFilters r ∧
        GoesBy intersects S ctx q r) ∨ StaleFound intersects regexpMatches ctx s q t i) := by
  have hmem : (t, i) ∈ fromDataset intersects regexpMatches S hasIndex q
      (bboxFor q ctx.globalBbox) ↔
      t ∈ q.types ∧ i ∈ typeSelect intersects regexpMatches S hasIndex q
        (bboxFor q ctx.globalBbox) t := by
    simp only [fromDataset, List.mem_flatMap, List.mem_map, Prod.mk.injEq]
    constructor
    · rintro ⟨t', ht, i', hi, rfl, rfl⟩
      exact ⟨ht, hi⟩
    · rintro ⟨ht, hi⟩
      exact ⟨t, ht, i, hi, rfl, rfl⟩
  have hgoes : ∀ r : Row (SpatialCols t), GoesBy intersects S ctx q r ↔
      (∀ ids ∈ idsFor q, r.id ∈ ids) ∧
      (byIds ctx q = false → inCells (cellsRead ctx s q t) r.cell ∧ ¬ Unread S ctx q r ∧
        BoxTest intersects ctx s q r) := by
    intro r
    rw [GoesBy, hrec]
    simp [hin]
  rw [hmem]
  refine and_congr_right fun _ => ?_
  cases hby : byIds ctx q with
  | true =>
    have hstale : ¬ StaleFound intersects regexpMatches ctx s q t i := by
      rw [StaleFound, hrec, hby]
      rintro ⟨-, ⟨⟩, -⟩
    rw [or_iff_left hstale, mem_typeSelect_byIds hg ha hp hby]
    simp only [hgoes, hby, Bool.true_eq_false, false_implies, and_true]
  | false =>
    rw [typeSelect_files hby, mem_spatialSelect hg hm ha]
    refine or_congr (exists_congr fun r => and_congr_right fun hr => ?_) ?_
    · rw [hgoes, rowWhere, Bool.and_eq_true, all_idsFor, tagWhere_iff ha hp hr]
      simp only [hby, true_implies]
      tauto
    · rw [StaleFound, hrec]
      simp only [hin, hby, true_and]

end Files

/-! ### From the sets -/

section Sets

variable {intersects : List Point → Box → Bool} {regexpMatches : String → String → Bool → Bool}
variable {s : Root} {S : SplitNodes s} {ctx : Context} {q : Query} {t : Typ} {i : ℤ}

lemma mapM_requireSet {names : List String} (h : ∀ n ∈ names, (ctx.sets n).isSome) :
    names.mapM (requireSet ctx) = .ok (names.map fun n => (ctx.sets n).getD []) := by
  induction names with
  | nil => rfl
  | cons n names ih =>
    obtain ⟨rows, hrows⟩ := Option.isSome_iff_exists.mp (h n List.mem_cons_self)
    rw [List.mapM_cons, ih fun m hm => h m (List.mem_cons_of_mem _ hm), requireSet, hrows,
      List.map_cons, hrows]
    rfl

lemma belongs_iff {n : String} (hdef : (ctx.sets n).isSome) {r : Row (SpatialCols t)} :
    Belongs ctx n r ↔ (t, r.id) ∈ ((ctx.sets n).getD []).map SetRow.key := by
  obtain ⟨rows, hrows⟩ := Option.isSome_iff_exists.mp hdef
  simp only [Belongs, hrows, Option.some.injEq, exists_eq_left', Option.getD_some]

/-- The rows of a set are those of the dataset. -/
lemma row_of_set (ha : BaseAgrees s.base) (hsets : SetsExist s ctx) {n : String}
    (hdef : (ctx.sets n).isSome) {x : Row (ByidCols t)}
    (hx : (⟨t, x⟩ : SetRow) ∈ (ctx.sets n).getD []) :
    ∃ r, curSpatial s t x.id = some r ∧ r.map byidCols = x := by
  obtain ⟨rows, hrows⟩ := Option.isSome_iff_exists.mp hdef
  rw [hrows, Option.getD_some] at hx
  have hcur : cur s t x.id = some x := hsets n rows hrows ⟨t, x⟩ hx
  rw [cur_eq_curSpatial ha] at hcur
  exact Option.map_eq_some_iff.mp hcur

/-- **What the planner finds in the sets.** -/
lemma mem_sets (ha : BaseAgrees s.base) (hsets : SetsExist s ctx) {n : String} {ns : List String}
    (hdef : ∀ m ∈ n :: ns, (ctx.sets m).isSome) :
    (t, i) ∈ (fromSetSelect ((ctx.sets n).getD []) (ns.map fun m => (ctx.sets m).getD []) q.types
        (setTagWhere regexpMatches q.tagFilters) (idsFor q)
        (bboxFor q ctx.globalBbox)).map SetRow.key ↔
      t ∈ q.types ∧ ∃ r, curSpatial s t i = some r ∧ Tagged regexpMatches q.tagFilters r ∧
        (∀ m ∈ n :: ns, Belongs ctx m r) ∧ (∀ ids ∈ idsFor q, r.id ∈ ids) ∧
        ∀ b ∈ bboxFor q ctx.globalBbox, colsInBox b (byidCols r.cols) := by
  have hn := hdef n List.mem_cons_self
  have htagged : ∀ r : Row (SpatialCols t), setTagWhere regexpMatches q.tagFilters
      ⟨t, r.map byidCols⟩ = true ↔
      Tagged regexpMatches q.tagFilters r := by
    intro r
    rw [setTagWhere, decide_eq_true_iff, tagFiltersSql_eq_true]
    rfl
  simp only [fromSetSelect, List.mem_map, List.mem_filter, Bool.and_eq_true, decide_eq_true_eq,
    List.all_eq_true, List.any_eq_true, forall_exists_index, and_imp, forall_apply_eq_imp_iff₂]
  constructor
  · rintro ⟨⟨t', x⟩, ⟨hx, ⟨⟨⟨⟨hothers, htypes⟩, hids⟩, hbox⟩, htags⟩⟩, hkey⟩
    cases hkey
    obtain ⟨r, hr, rfl⟩ := row_of_set ha hsets hn hx
    refine ⟨htypes, r, hr, (htagged r).mp htags, fun m hm => (belongs_iff (hdef m hm)).mpr ?_,
      all_idsFor.mp hids, (Option.all_eq_true _ _).mp hbox⟩
    rcases List.mem_cons.mp hm with rfl | hm'
    · exact List.mem_map.mpr ⟨_, hx, rfl⟩
    · exact List.mem_map.mpr (hothers m hm')
  · rintro ⟨htypes, r, hr, htags, hall, hids, hbox⟩
    obtain ⟨⟨t', x⟩, hx, hkey⟩ := List.mem_map.mp ((belongs_iff hn).mp (hall n List.mem_cons_self))
    obtain ⟨rfl, hid⟩ := Prod.mk.inj hkey
    obtain ⟨r₀, hr₀, rfl⟩ := row_of_set ha hsets hn hx
    obtain rfl := id_of_curSpatial hr
    rw [show (r₀.map byidCols).id = r.id from hid] at hr₀
    cases hr.symm.trans hr₀
    refine ⟨_, ⟨hx, ⟨⟨⟨⟨fun m hm => ?_, htypes⟩, all_idsFor.mpr hids⟩,
      (Option.all_eq_true _ _).mpr hbox⟩, (htagged _).mpr htags⟩⟩, rfl⟩
    have hm' := List.mem_cons_of_mem n hm
    exact List.mem_map.mp ((belongs_iff (hdef m hm')).mp (hall m hm'))

end Sets

/-! ### All filters together -/

section Together

variable {intersects : List Point → Box → Bool} {regexpMatches : String → String → Bool → Bool}
variable {s : Root} {S : SplitNodes s} {hasIndex : Bool} {ctx : Context} {q : Query}

/-- What the planner finds. -/
def Found (intersects : List Point → Box → Bool) (regexpMatches : String → String → Bool → Bool)
    {s : Root} (S : SplitNodes s) (ctx : Context) (q : Query) (t : Typ) (i : ℤ) : Prop :=
  (∀ b ∈ bboxFor q ctx.globalBbox, isEmptyBbox b = false) ∧ t ∈ q.types ∧
    ((∃ r, curSpatial s t i = some r ∧ Tagged regexpMatches q.tagFilters r ∧
      GoesBy intersects S ctx q r) ∨ StaleFound intersects regexpMatches ctx s q t i)

lemma nonempty_bbox_iff : (bboxFor q ctx.globalBbox).any isEmptyBbox = false ↔
    ∀ b ∈ bboxFor q ctx.globalBbox, isEmptyBbox b = false := by
  rcases bboxFor q ctx.globalBbox with _ | b <;> simp

/-- After a hop the planner finds what the hop leads to. -/
lemma mem_recursed (hg : Good s.deltas) (hm : TiersRemember s) (ha : BaseAgrees s.base)
    (hp : Promoted s) {f : RecurseFilter} {rest : List RecurseFilter} {src : List SetRow}
    (hrec : q.recurseFilters = f :: rest) (hsrc : ctx.sets f.setName = some src) {t : Typ} {i : ℤ} :
    (t, i) ∈ hydrate regexpMatches s f src q.types q.tagFilters ↔ t ∈ q.types ∧
      ((∃ r, curSpatial s t i = some r ∧ Tagged regexpMatches q.tagFilters r ∧
        GoesBy intersects S ctx q r) ∨ StaleFound intersects regexpMatches ctx s q t i) := by
  rw [mem_hydrate hg hm ha, and_or_left]
  refine and_congr_right fun _ => or_congr ?_ ?_
  · rw [cur_eq_curSpatial ha]
    simp only [Option.map_eq_some_iff, exists_exists_and_eq_and]
    constructor
    · rintro ⟨hkey, r, hr, htags⟩
      refine ⟨r, hr, (tagWhere_iff ha hp hr).mp htags, ?_⟩
      rw [GoesBy, hrec]
      exact ⟨src, hsrc, by rw [id_of_curSpatial hr]; exact hkey⟩
    · rintro ⟨r, hr, htags, hgoes⟩
      rw [GoesBy, hrec] at hgoes
      obtain ⟨src', hsrc', hkey⟩ := hgoes
      cases hsrc.symm.trans hsrc'
      exact ⟨id_of_curSpatial hr ▸ hkey, r, hr, (tagWhere_iff ha hp hr).mpr htags⟩
  · rw [StaleFound, hrec]
    constructor
    · exact fun h => ⟨src, hsrc, h⟩
    · rintro ⟨src', hsrc', h⟩
      cases hsrc.symm.trans hsrc'
      exact h

/-- From the sets the planner finds their rows, and nothing of an older tier. -/
lemma mem_sets_goesBy (ha : BaseAgrees s.base) (hsets : SetsExist s ctx) {n : String}
    {ns : List String} (hdef : ∀ m ∈ n :: ns, (ctx.sets m).isSome) (hrec : q.recurseFilters = [])
    (hin : q.inputSets = n :: ns) {t : Typ} {i : ℤ} :
    (t, i) ∈ (fromSetSelect ((ctx.sets n).getD []) (ns.map fun m => (ctx.sets m).getD []) q.types
        (setTagWhere regexpMatches q.tagFilters) (idsFor q)
        (bboxFor q ctx.globalBbox)).map SetRow.key ↔
      t ∈ q.types ∧ ((∃ r, curSpatial s t i = some r ∧ Tagged regexpMatches q.tagFilters r ∧
        GoesBy intersects S ctx q r) ∨ StaleFound intersects regexpMatches ctx s q t i) := by
  rw [mem_sets ha hsets hdef]
  refine and_congr_right fun _ => ?_
  rw [or_iff_left]
  · refine exists_congr fun r => and_congr_right fun _ => and_congr_right fun _ => ?_
    rw [GoesBy, hrec, hin]
    simp
  · rw [StaleFound, hrec, hin]
    simp

/-- The planner finds what it goes by, in each of the ways. -/
lemma executeQuery_found (hg : Good s.deltas) (hm : TiersRemember s) (ha : BaseAgrees s.base)
    (hp : Promoted s) (hsets : SetsExist s ctx) (hdef : Defined ctx q) :
    ∃ out, executeQuery intersects regexpMatches S hasIndex ctx q = .ok out ∧ ∀ t i, (t, i) ∈ out ↔
      Found intersects regexpMatches S ctx q t i := by
  unfold executeQuery Found
  rw [← nonempty_bbox_iff]
  cases hempty : (bboxFor q ctx.globalBbox).any isEmptyBbox with
  | true => exact ⟨[], by simp [hempty], fun t i => by simp⟩
  | false =>
    simp only [hempty, Bool.false_eq_true, if_false, true_and]
    rcases hrec : q.recurseFilters with _ | ⟨f, rest⟩
    · rcases hin : q.inputSets with _ | ⟨n, ns⟩
      · exact ⟨_, if_pos rfl, fun t i => mem_fromDataset hg hm ha hp hrec hin⟩
      · have hall : ∀ m ∈ n :: ns, (ctx.sets m).isSome := fun m hm => hdef.inputs m (hin ▸ hm)
        simp only [reduceCtorEq, if_false, mapM_requireSet hall]
        exact ⟨_, rfl, fun t i => mem_sets_goesBy ha hsets hall hrec hin⟩
    · obtain ⟨src, hsrc⟩ := Option.isSome_iff_exists.mp
        (hdef.sources f (hrec ▸ List.mem_cons_self))
      refine ⟨hydrate regexpMatches s f src q.types q.tagFilters, ?_, fun t i =>
        mem_recursed hg hm ha hp hrec hsrc⟩
      simp only [requireSet, hsrc, Option.elim_some]
      rfl

/-- What is found is what is meant when nothing is missed or dropped and nothing stale gets in. -/
lemma found_iff_means : (∀ t i, Found intersects regexpMatches S ctx q t i ↔
      ∃ r, curSpatial s t i = some r ∧ Means intersects regexpMatches s ctx q r) ↔
    NothingMissed intersects regexpMatches S ctx q ∧
      NothingDropped intersects regexpMatches S ctx q ∧
      NothingStale intersects regexpMatches ctx s q := by
  constructor
  · intro h
    refine ⟨fun t i r hr hmeans => ?_, fun hne t ht i r hr htags hgoes => ?_,
      fun hne t ht i hstale => ?_⟩
    · obtain ⟨-, -, ⟨r', hr', -, hgoes⟩ | hstale⟩ := (h t i).mpr ⟨r, hr, hmeans⟩
      · cases hr.symm.trans hr'
        exact .inl hgoes
      · exact .inr hstale
    · obtain ⟨r', hr', hmeans⟩ := (h t i).mp ⟨hne, ht, .inl ⟨r, hr, htags, hgoes⟩⟩
      cases hr.symm.trans hr'
      exact (means_iff.mp hmeans).2.2
    · exact (h t i).mp ⟨hne, ht, .inr hstale⟩
  · rintro ⟨hmissed, hdropped, hstale⟩ t i
    constructor
    · rintro ⟨hne, ht, ⟨r, hr, htags, hgoes⟩ | h⟩
      · exact ⟨r, hr, means_iff.mpr ⟨ht, htags, hdropped hne t ht i r hr htags hgoes⟩⟩
      · exact hstale hne t ht i h
    · rintro ⟨r, hr, hmeans⟩
      obtain ⟨ht, htags, hpasses⟩ := means_iff.mp hmeans
      refine ⟨fun b hb => (hpasses.boxes b (bboxFor_mem hb)).1, ht, ?_⟩
      exact (hmissed t i r hr hmeans).imp_left fun h => ⟨r, hr, htags, h⟩

end Together

/-! ### Exact reads -/

/-- The index that a hop back goes by is fresh for the set. -/
def HopFresh (s : Root) (f : RecurseFilter) (src : List SetRow) : Prop :=
  ∀ k : Typ, f.kind = .bn ∧ k = .node ∨ f.kind = .bw ∧ k = .way ∨ f.kind = .br ∧ k = .relation →
    Kept s ∧ NoneExposed s ∧ (k = .node → NodesCurrent s (src.map elemOf) ∧
      WaysReached s (src.map elemOf) ∧ WaysFresh s (idsOf .node (src.map elemOf))) ∧
    RelationsFresh s (src.map elemOf) [k] f.role

/-- What is read is what there is: no tier row is exposed, the index is fresh, and the cells for the
box have every element in it, none in a file that is not read, and where the base knows of the
members of relations what the tiers know. -/
structure ReadsExact (intersects : List Point → Box → Bool) {s : Root} (S : SplitNodes s)
    (ctx : Context) (q : Query) : Prop where
  unexposed : ∀ t i, ¬ Exposed (tierRows s.deltas t i)
  hops : ∀ f rest src, q.recurseFilters = f :: rest → ctx.sets f.setName = some src →
    HopFresh s f src
  files : q.recurseFilters = [] → q.inputSets = [] →
    ∀ t ∈ q.types, ∀ i r, curSpatial s t i = some r →
    (∀ b ∈ bboxFor q ctx.globalBbox, inBox intersects s b r.cols) →
      inCells (cellsRead ctx s q t) r.cell ∧ ¬ Unread S ctx q r ∧ BoxTest intersects ctx s q r

section Exact

variable {intersects : List Point → Box → Bool} {regexpMatches : String → String → Bool → Bool}
variable {s : Root} {S : SplitNodes s} {ctx : Context} {q : Query}

/-- **A hop leads to what its filter means**, forward always and back where the index is fresh. -/
lemma mem_hops_iff {f : RecurseFilter} {src : List SetRow} (hfresh : HopFresh s f src)
    {t : Typ} {i : ℤ} (hex : (cur s t i).isSome) :
    (t, i) ∈ (hopsFor s f src).map hopKey ↔ LeadsFrom s f src t i := by
  have hback : ∀ k : Typ, f.kind = .bn ∧ k = .node ∨ f.kind = .bw ∧ k = .way ∨ f.kind = .br ∧
      k = .relation → ((t, i) ∈ (hopsFor s f src).map hopKey ↔ LeadsFrom s f src t i) := by
    intro k hkind
    obtain ⟨hk, hx, hnodes, hrels⟩ := hfresh k hkind
    exact mem_hops_back hk hx hkind hnodes hrels hex
  cases hkind : f.kind with
  | w => exact mem_hops_w hkind
  | r => exact mem_hops_r hkind
  | bn => exact hback .node (.inl ⟨hkind, rfl⟩)
  | bw => exact hback .way (.inr (.inl ⟨hkind, rfl⟩))
  | br => exact hback .relation (.inr (.inr ⟨hkind, rfl⟩))

/-- Exact reads miss nothing. -/
lemma nothingMissed_of_exact (ha : BaseAgrees s.base) (hx : ReadsExact intersects S ctx q) :
    NothingMissed intersects regexpMatches S ctx q := by
  intro t i r hr hmeans
  obtain ⟨ht, -, hpasses⟩ := means_iff.mp hmeans
  have hboxes : ∀ b ∈ bboxFor q ctx.globalBbox, Within intersects s b r :=
    fun b hb => hpasses.boxes b (bboxFor_mem hb)
  refine .inl ?_
  unfold GoesBy
  rcases hrec : q.recurseFilters with _ | ⟨f, rest⟩
  · refine ⟨hpasses.sets, fun ids h => hpasses.ids ids (List.mem_of_head? h), ?_⟩
    split_ifs with hin
    · exact fun _ => hx.files hrec hin t ht i r hr fun b hb => (hboxes b hb).2
    · exact fun b hb => colsInBox_of_inBox (hboxes b hb).2
  · obtain ⟨src, hsrc, hleads⟩ := hpasses.recurse f (hrec ▸ List.mem_cons_self)
    have hex : (cur s t r.id).isSome := by
      rw [id_of_curSpatial hr, cur_eq_curSpatial ha, hr]
      rfl
    exact ⟨src, hsrc, (mem_hops_iff (hx.hops f rest src hrec hsrc) hex).mpr hleads⟩

/-- Exact reads have nothing stale. -/
lemma nothingStale_of_exact (hg : Good s.deltas) (hm : TiersRemember s) (ha : BaseAgrees s.base)
    (hx : ReadsExact intersects S ctx q) : NothingStale intersects regexpMatches ctx s q := by
  intro _ t _ i hstale
  unfold StaleFound at hstale
  rcases hrec : q.recurseFilters with _ | ⟨f, rest⟩
  · rw [hrec] at hstale
    obtain ⟨-, -, r, hrow, -⟩ := hstale
    exact absurd hrow (not_staleRow hg hm ha (hx.unexposed t) (nodup_cellsForBbox _ _ _))
  · rw [hrec] at hstale
    obtain ⟨src, -, -, hled⟩ := hstale
    have haround : ∀ {t : Typ} {bbox : Option BBox} {bboxWhere : BBox → SpatialCols t → Bool}
        {tags : ByidCols t → Bool}, ¬ StaleAround s t maxCellFraction bbox bboxWhere tags i := by
      rintro t bbox bboxWhere tags ⟨b, -, r, hrow, -⟩
      exact not_staleRow hg hm ha (hx.unexposed t) nodup_hintCells hrow
    have hhop : ¬ StaleHop s (tagWhere regexpMatches s q.tagFilters) (hopsFor s f src) t i :=
      not_staleHop hg hm ha fun _ => hx.unexposed t
    unfold StaleLed at hled
    cases hkind : f.kind with
    | w => rw [hkind] at hled; exact absurd hled.2 haround
    | r => rw [hkind] at hled; exact absurd hled.2 haround
    | bn => rw [hkind] at hled; exact absurd hled hhop
    | bw => rw [hkind] at hled; exact absurd hled hhop
    | br => rw [hkind] at hled; exact absurd hled hhop

end Exact

/-- Two nodes without tags. -/
def twoNodes : World where
  rows
    | .node => [node 1 ⟨0, 0⟩, node 2 ⟨50, 50⟩]
    | .way => []
    | .relation => []
  once t := by cases t <;> simp [Distinct, node]
  placed t := by cases t <;> simp [node]
  refs := no_refs

/-- They are in a file of nodes without tags. -/
def twoNodesFiles : SplitNodes (fresh twoNodes.base) where
  table := [{
    cell := []
    part
      | .tagged => none
      | .untagged => some ⟨twoNodes.rows .node, [], fun h => absurd rfl h⟩
    hasTags := by rintro f ⟨⟩
    noTags := by
      rintro f ⟨⟩ r hr
      simp only [twoNodes, List.mem_cons, List.not_mem_nil, or_false] at hr
      rcases hr with rfl | rfl <;> exact ⟨rfl, by simp [node, plain]⟩ }]
  same := rfl

lemma promoted_twoNodes : Promoted (fresh twoNodes.base) := by
  intro t i p hp
  obtain ⟨hrow, -⟩ := mem_of_cur _ hp
  cases t with
  | node =>
    simp only [twoNodes, List.map_cons, List.map_nil, List.mem_cons, List.not_mem_nil,
      or_false] at hrow
    rcases hrow with rfl | rfl <;> rfl
  | way => cases hrow
  | relation => cases hrow

/-- The start of a program without a box. -/
def blank : Context := ⟨none, fun _ => none⟩

lemma setsExist_blank (s : Root) : SetsExist s blank := by
  intro name rows h
  cases h

/-- The node `1`, in a box. -/
def oneInBox : Query := ⟨[.node], [.ids 1 [], .bbox ⟨-10, -10, 10, 10⟩], []⟩

/-- Two lists of ids. -/
def twoIds (i j : ℤ) : Query := ⟨[.node], [.ids i [], .ids j []], []⟩

lemma defined_oneInBox : Defined blank oneInBox :=
  ⟨fun _ h => absurd h List.not_mem_nil, fun _ h => absurd h List.not_mem_nil⟩

lemma readsExact_oneInBox : ReadsExact cornerInside twoNodesFiles blank oneInBox := by
  refine ⟨not_exposed_fresh _, fun f rest src hr => ?_, fun _ _ t ht i r hr hbox => ?_⟩
  · cases hr
  · obtain rfl := List.mem_singleton.mp ht
    have hcells : inCells (cellsRead blank (fresh twoNodes.base) oneInBox .node)
        (some []) = true := by
      decide
    refine ⟨?_, fun h => h.1 rfl, hbox⟩
    rw [(twoNodes.placed .node r (mem_of_curSpatial _ hr)).1]
    exact hcells

end OsmParquet.QueryFilters
