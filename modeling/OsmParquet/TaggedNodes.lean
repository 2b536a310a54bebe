import OsmParquet.RowGroups
import OsmParquet.SetFilter
import OsmParquet.SqlValues

/-!
Nodes with tags and nodes without, in files of their own.

Most nodes have no tags, and a query with tag filters that no such node can pass does not read
their files. Whether it has to is decided by the operators of the filters. A node without tags
passes `[!k]`, `[k!=v]` and `[k!~v]`, and the decision forgets the last of them.
-/

namespace OsmParquet.TaggedNodes

open OsmParquet.KeyedList OsmParquet.Rows OsmParquet.Tiers OsmParquet.TierSteps OsmParquet.ByidReads
open OsmParquet.PrevCells OsmParquet.CellTree OsmParquet.Updater
open OsmParquet.SpatialReads OsmParquet.Findable OsmParquet.RelationQuery OsmParquet.SetFilter
open OsmParquet.SqlValues OsmParquet.RowGroups

/-! ### Tag filters -/

inductive TagOp
  | eq
  | ne
  | regex
  | notRegex
  | present
  | absent
  deriving DecidableEq, Repr

structure TagFilter where
  key : String
  op : TagOp
  value : Option String
  keyIsRegex : Bool
  caseInsensitive : Bool
  deriving DecidableEq, Repr

def identOk : List Char := "abcdefghijklmnopqrstuvwxyz0123456789_".toList

def isPromotableIdent (key : String) : Bool := !key.isEmpty && key.toList.all fun c => c ∈ identOk

/-- The value of a key: from its own column if it has one, else from the tags. -/
def colRef (promotedKeys : List String) (a : Attrs) (key : String) : Option String :=
  if key ∈ promotedKeys ∧ isPromotableIdent key then
    ((promotedKeys.zip a.promoted).find? fun kv => kv.1 = key).bind Prod.snd
  else tagValue a.tags key

/-- Of no values at all it is not known whether one is true. -/
def listBoolOr (l : List Bool) : Option Bool := if l = [] then none else some (l.any id)

section Sql

variable (regexpMatches : String → String → Bool → Bool) (promotedKeys : List String)

def tagFilterSql (f : TagFilter) (a : Attrs) : Option Bool :=
  if f.keyIsRegex then
    and₃ (some a.tags.isSome) (a.tags.bind fun tags => listBoolOr (tags.map fun e =>
      regexpMatches e.1 f.key false && regexpMatches e.2 (f.value.getD "") f.caseInsensitive))
  else
    let v := colRef promotedKeys a f.key
    match f.op with
    | .present => some v.isSome
    | .absent => some v.isNone
    | .eq => v.map fun x => decide (x = f.value.getD "")
    | .ne => or₃ (some v.isNone) (v.map fun x => decide (x ≠ f.value.getD ""))
    | .regex =>
      and₃ (some v.isSome) (v.map fun x => regexpMatches x (f.value.getD "") f.caseInsensitive)
    | .notRegex =>
      or₃ (some v.isNone) (v.map fun x => !regexpMatches x (f.value.getD "") f.caseInsensitive)

def tagFiltersSql (fs : List TagFilter) (a : Attrs) : Option Bool :=
  (fs.map fun f => tagFilterSql regexpMatches promotedKeys f a).foldl and₃ (some true)

end Sql

def isNegativeOnly (fs : List TagFilter) : Bool := fs.all fun f => f.op = .ne || f.op = .absent

/-! ### Files -/

/-- A node without tags has nothing in the columns of the promoted keys either. -/
structure Untagged (a : Attrs) : Prop where
  tags : a.tags = none
  promoted : ∀ v ∈ a.promoted, v = none

/-- A file of nodes, with the boxes of its row groups if the index has them. -/
structure NodeFile where
  rows : List (Row NodeCols)
  groups : List BBox
  covered : Covers (fun r : Row NodeCols => r.cols.coord.map BBox.ofPoint) groups rows

inductive Partition
  | tagged | untagged
  deriving DecidableEq, Repr

/-- The files of a cell. -/
structure NodeCell where
  cell : Cell
  part : Partition → Option NodeFile
  hasTags : ∀ f, part .tagged = some f → ∀ r ∈ f.rows, r.cols.attrs.tags ≠ none
  noTags : ∀ f, part .untagged = some f → ∀ r ∈ f.rows, Untagged r.cols.attrs

def NodeCell.files (c : NodeCell) : CellFiles NodeCols :=
  ⟨c.cell, ((c.part .tagged).toList ++ (c.part .untagged).toList).map NodeFile.rows⟩

/-- The node files of a root. -/
structure SplitNodes (s : Root) where
  table : List NodeCell
  same : s.base.spatial .node = table.map NodeCell.files

section Select

variable (regexpMatches : String → String → Bool → Bool) {s : Root} (S : SplitNodes s)

def nodeFiles (cells : List Cell) (partition : Partition) : List NodeFile :=
  cells.filterMap fun c => (lookup NodeCell.cell c S.table).bind fun e => e.part partition

/-- The files that have a row group which meets the box. -/
def pruneFilesByBbox (hasIndex : Bool) (q : Box) (files : List NodeFile) : List NodeFile :=
  if hasIndex then files.filter fun f => keepsFile f.groups q else files

/-- The tests of a row besides that for the box. -/
def nodeWhere (fs : List TagFilter) (ids : Option (List ℤ)) (r : Row NodeCols) : Bool :=
  ids.all (fun ids => ids.isEmpty || decide (r.id ∈ ids)) &&
    decide (tagFiltersSql regexpMatches s.base.promotedKeys fs r.cols.attrs = some true)

def buildNodeSpatialSelect (hasIndex : Bool) (bbox : Option Box) (fs : List TagFilter)
    (ids : Option (List ℤ)) : List (Row NodeCols) :=
  let cells := cellsForBbox (catalogOf s) .node bbox
  let files := nodeFiles S cells .tagged ++
    if isNegativeOnly fs then nodeFiles S cells .untagged else []
  let files := bbox.elim files fun q => pruneFilesByBbox hasIndex q files
  currentRows (t := .node) s.deltas cells (files.flatMap NodeFile.rows) fun r =>
    bbox.all (fun q => inside q r.cols.coord) && nodeWhere (s := s) regexpMatches fs ids r

end Select

/-! ### What is missed -/

/-- A node without tags passes the filter. -/
def acceptsUntagged (f : TagFilter) : Bool :=
  !f.keyIsRegex && (f.op = .absent || f.op = .ne || f.op = .notRegex)

/-- The ids of which the tiers know more than the base. -/
def shadowed (s : Root) (cells : List Cell) : List ℤ :=
  (spatialDeltaLayer s.deltas .node cells).elim [] DeltaLayer.shadow

/-- The filters let nodes without tags pass, one of them is `[k!~v]`, and there is such a node in
the box. -/
def MissesUntagged {s : Root} (S : SplitNodes s) (bbox : Option Box) (fs : List TagFilter)
    (ids : Option (List ℤ)) : Prop :=
  (∀ f ∈ fs, acceptsUntagged f = true) ∧ (∃ f ∈ fs, f.op = .notRegex) ∧
    ∃ r ∈ (nodeFiles S (cellsForBbox (catalogOf s) .node bbox) .untagged).flatMap NodeFile.rows,
      r.id ∉ shadowed s (cellsForBbox (catalogOf s) .node bbox) ∧
      bbox.all (fun q => inside q r.cols.coord) = true ∧
      ids.all (fun ids => ids.isEmpty || decide (r.id ∈ ids)) = true

/-- A row of a file of nodes without tags that is not read, and that the tiers do not shadow. -/
def Skipped {s : Root} (S : SplitNodes s) (bbox : Option Box) (fs : List TagFilter)
    (r : Row NodeCols) : Prop :=
  ¬ isNegativeOnly fs = true ∧
    r ∈ (nodeFiles S (cellsForBbox (catalogOf s) .node bbox) .untagged).flatMap NodeFile.rows ∧
    r.id ∉ shadowed s (cellsForBbox (catalogOf s) .node bbox)

/-! ### Filters on nodes without tags -/

section Filters

variable {regexpMatches : String → String → Bool → Bool} {promotedKeys : List String} {a : Attrs}

lemma colRef_untagged (h : Untagged a) (key : String) : colRef promotedKeys a key = none := by
  unfold colRef
  split_ifs
  · cases hf : (promotedKeys.zip a.promoted).find? fun kv => kv.1 = key with
    | none => rfl
    | some kv => exact h.promoted kv.2 (List.of_mem_zip (List.mem_of_find?_eq_some hf)).2
  · rw [tagValue, h.tags]
    rfl

/-- A key has the same value in its own column as among the tags, where the columns are filled in
from the tags. -/
lemma colRef_promoted (h : a.promoted = promotedKeys.map (tagValue a.tags)) (key : String) :
    colRef promotedKeys a key = colRef [] a key := by
  have hfind : ∀ keys : List String, key ∈ keys →
      ((keys.zip (keys.map (tagValue a.tags))).find? fun kv => kv.1 = key) =
        some (key, tagValue a.tags key) := by
    intro keys
    induction keys with
    | nil => simp
    | cons k keys ih =>
      intro hk
      by_cases he : k = key
      · simp [he]
      · simpa [he] using ih ((List.mem_cons.mp hk).resolve_left (Ne.symm he))
  unfold colRef
  split_ifs with hk h'
  · exact absurd h'.1 List.not_mem_nil
  · rw [h, hfind _ hk.1]
    rfl
  · exact absurd ‹key ∈ [] ∧ _›.1 List.not_mem_nil
  · rfl

lemma tagFilterSql_promoted (h : a.promoted = promotedKeys.map (tagValue a.tags)) (f : TagFilter) :
    tagFilterSql regexpMatches promotedKeys f a = tagFilterSql regexpMatches [] f a := by
  unfold tagFilterSql
  rw [colRef_promoted h]

lemma tagFilterSql_untagged (h : Untagged a) (f : TagFilter) :
    tagFilterSql regexpMatches promotedKeys f a = some true ↔ acceptsUntagged f = true := by
  unfold tagFilterSql acceptsUntagged
  by_cases hk : f.keyIsRegex = true
  · simp [hk, h.tags, and₃]
  · simp only [hk, colRef_untagged h]
    cases f.op <;> simp [and₃, or₃]

lemma and₃_eq_true {x y : Option Bool} : and₃ x y = some true ↔ x = some true ∧ y = some true := by
  rcases x with _ | _ | _ <;> rcases y with _ | _ | _ <;> simp [and₃]

lemma tagFiltersSql_eq_true {fs : List TagFilter} :
    tagFiltersSql regexpMatches promotedKeys fs a = some true ↔
      ∀ f ∈ fs, tagFilterSql regexpMatches promotedKeys f a = some true := by
  have hfold : ∀ (l : List (Option Bool)) (x : Option Bool),
      l.foldl and₃ x = some true ↔ x = some true ∧ ∀ y ∈ l, y = some true := by
    intro l
    induction l with
    | nil => simp
    | cons y l ih =>
      intro x
      rw [List.foldl_cons, ih, and₃_eq_true, List.forall_mem_cons, and_assoc]
  rw [tagFiltersSql, hfold]
  simp

/-- What the decision forgets. -/
lemma notRegex_of_not_negativeOnly {fs : List TagFilter} (hneg : ¬ isNegativeOnly fs = true)
    (hall : ∀ f ∈ fs, acceptsUntagged f = true) : ∃ f ∈ fs, f.op = .notRegex := by
  by_contra hno
  apply hneg
  refine List.all_eq_true.mpr fun f hf => ?_
  have haccept := hall f hf
  have hop : f.op ≠ .notRegex := fun he => hno ⟨f, hf, he⟩
  simp only [acceptsUntagged, Bool.and_eq_true, Bool.or_eq_true, decide_eq_true_eq] at haccept ⊢
  tauto

lemma not_negativeOnly {fs : List TagFilter} {f : TagFilter} (hf : f ∈ fs)
    (hop : f.op = .notRegex) : ¬ isNegativeOnly fs = true := by
  intro hneg
  have := List.all_eq_true.mp hneg f hf
  simp [hop] at this

end Filters

/-! ### Reading the files -/

section Reading

variable {s : Root} {S : SplitNodes s} {cells : List Cell} {r : Row NodeCols}

lemma mem_nodeFiles {partition : Partition} :
    r ∈ (nodeFiles S cells partition).flatMap NodeFile.rows ↔
      ∃ c ∈ cells, ∃ e, lookup NodeCell.cell c S.table = some e ∧
        ∃ f, e.part partition = some f ∧ r ∈ f.rows := by
  simp only [nodeFiles, List.mem_flatMap, List.mem_filterMap, Option.bind_eq_some_iff]
  constructor
  · rintro ⟨f, ⟨c, hc, e, he, hf⟩, hr⟩
    exact ⟨c, hc, e, he, f, hf, hr⟩
  · rintro ⟨c, hc, e, he, f, hf, hr⟩
    exact ⟨f, ⟨c, hc, e, he, hf⟩, hr⟩

lemma mem_files_rows {e : NodeCell} : r ∈ e.files.rows ↔
    (∃ f, e.part .tagged = some f ∧ r ∈ f.rows) ∨ ∃ f, e.part .untagged = some f ∧ r ∈ f.rows := by
  simp [NodeCell.files, CellFiles.rows]

/-- The files of the base are those of the two kinds. -/
lemma mem_filesOf : r ∈ filesOf (s.base.spatial .node) cells ↔
    r ∈ (nodeFiles S cells .tagged).flatMap NodeFile.rows ∨
      r ∈ (nodeFiles S cells .untagged).flatMap NodeFile.rows := by
  have hlook : ∀ c, lookup CellFiles.cell c (s.base.spatial .node) =
      (lookup NodeCell.cell c S.table).map NodeCell.files := by
    intro c
    rw [S.same]
    exact lookup_map fun _ => rfl
  have hcell :
      ∀ c, r ∈ ((lookup CellFiles.cell c (s.base.spatial .node)).map CellFiles.rows).getD [] ↔
      ∃ e, lookup NodeCell.cell c S.table = some e ∧ r ∈ e.files.rows := by
    intro c
    rw [hlook]
    cases lookup NodeCell.cell c S.table <;> simp
  rw [mem_nodeFiles, mem_nodeFiles, filesOf, List.mem_flatMap]
  simp only [hcell, mem_files_rows, and_or_left, exists_or]

/-- The box of a position meets the query box if the position is in it. -/
lemma meets_ofPoint {q : Box} {c : Option Point} : meets q (c.map BBox.ofPoint) = inside q c := by
  cases c with
  | none => rfl
  | some p =>
    simp only [meets, inside, BBox.ofPoint, Option.map_some, Option.any_some]
    grind

lemma mem_pruned {hasIndex : Bool} {q : Box} {files : List NodeFile}
    (hin : inside q r.cols.coord = true) :
    r ∈ (pruneFilesByBbox hasIndex q files).flatMap NodeFile.rows ↔
      r ∈ files.flatMap NodeFile.rows := by
  unfold pruneFilesByBbox
  split_ifs
  · simp only [List.mem_flatMap, List.mem_filter]
    constructor
    · rintro ⟨f, ⟨hf, -⟩, hr⟩
      exact ⟨f, hf, hr⟩
    · rintro ⟨f, hf, hr⟩
      refine ⟨f, ⟨hf, keepsFile_of_covers f.covered hr ?_⟩, hr⟩
      rw [meets_ofPoint]
      exact hin
  · rfl

/-- The rows of the base that the tiers do not shadow, and the rows of the tiers. -/
lemma mem_currentRows_shadowed {baseRows : List (Row NodeCols)} {p : Row NodeCols → Bool} :
    r ∈ currentRows (t := .node) s.deltas cells baseRows p ↔
      p r = true ∧ (r ∈ baseRows ∧ r.id ∉ shadowed s cells ∨
        ∃ layer, spatialDeltaLayer s.deltas .node cells = some layer ∧
          r ∈ aliveRows layer.cand) := by
  unfold currentRows shadowed
  cases spatialDeltaLayer s.deltas .node cells with
  | none => simp [and_comm]
  | some layer =>
    simp only [List.mem_append, List.mem_filter, Bool.and_eq_true, decide_eq_true_eq,
      Option.elim_some, Option.some.injEq, exists_eq_left']
    tauto

lemma shadowed_of_alive {layer : DeltaLayer .node}
    (hl : spatialDeltaLayer s.deltas .node cells = some layer) (hr : r ∈ aliveRows layer.cand) :
    r.id ∈ shadowed s cells := by
  obtain ⟨d, hd, halive⟩ := List.mem_filterMap.mp hr
  rw [shadowed, hl, Option.elim_some, DeltaRow.alive_id halive]
  unfold spatialDeltaLayer at hl
  split_ifs at hl
  obtain rfl := Option.some.inj hl
  exact List.mem_dedup.mpr (List.mem_append_left _ (List.mem_map_of_mem hd))

lemma shadowed_of_stale (hg : Good s.deltas) {i : ℤ} (h : StaleRow s .node cells i r) :
    r.id ∈ shadowed s cells := by
  obtain ⟨d, hd, halive⟩ := Option.bind_eq_some_iff.mp h.2
  have hcand : d ∈ spatialCand s.deltas .node cells :=
    mem_of_lookup ((deltaById_spatialCand hg i).trans hd)
  unfold shadowed spatialDeltaLayer
  split_ifs with hempty
  · rw [spatialCand_eq_nil hempty] at hcand
    cases hcand
  · rw [DeltaRow.alive_id halive, Option.elim_some]
    exact List.mem_dedup.mpr (List.mem_append_left _ (List.mem_map_of_mem hcand))

end Reading

section Invisible

variable {regexpMatches : String → String → Bool → Bool} {s : Root} {S : SplitNodes s}
  {hasIndex : Bool} {bbox : Option Box} {fs : List TagFilter} {ids : Option (List ℤ)}
  {r : Row NodeCols}

/-- What the select reads of the base. -/
lemma mem_readFiles (hin : bbox.all (fun q => inside q r.cols.coord) = true)
    {files : List NodeFile} :
    r ∈ (bbox.elim files fun q => pruneFilesByBbox hasIndex q files).flatMap NodeFile.rows ↔
      r ∈ files.flatMap NodeFile.rows := by
  cases bbox with
  | none => rfl
  | some q => exact mem_pruned (by simpa using hin)

lemma mem_buildNodeSpatialSelect : r ∈ buildNodeSpatialSelect regexpMatches S hasIndex bbox fs ids ↔
    (bbox.all (fun q => inside q r.cols.coord) &&
      nodeWhere (s := s) regexpMatches fs ids r) = true ∧
      ((r ∈ (nodeFiles S (cellsForBbox (catalogOf s) .node bbox) .tagged).flatMap NodeFile.rows ∨
          isNegativeOnly fs = true ∧
            r ∈ (nodeFiles S (cellsForBbox (catalogOf s) .node bbox) .untagged).flatMap
              NodeFile.rows) ∧
          r.id ∉ shadowed s (cellsForBbox (catalogOf s) .node bbox) ∨
        ∃ layer, spatialDeltaLayer s.deltas .node
          (cellsForBbox (catalogOf s) .node bbox) = some layer ∧ r ∈ aliveRows layer.cand) := by
  unfold buildNodeSpatialSelect
  simp only
  rw [mem_currentRows_shadowed]
  refine and_congr_right fun hwhere => ?_
  rw [mem_readFiles (Bool.and_eq_true_iff.mp hwhere).1, List.flatMap_append, List.mem_append]
  by_cases hneg : isNegativeOnly fs = true
  · rw [if_pos hneg, and_iff_right hneg]
  · rw [if_neg hneg, iff_false_intro (fun h => hneg h.1 : ¬ (isNegativeOnly fs = true ∧ _)),
      List.flatMap_nil, iff_false_intro List.not_mem_nil]

lemma mem_nodeSpatialSelect (S : SplitNodes s) :
    r ∈ nodeSpatialSelect s (nodeWhere (s := s) regexpMatches fs ids) bbox ↔
    (bbox.all (fun q => inside q r.cols.coord) &&
      nodeWhere (s := s) regexpMatches fs ids r) = true ∧
      ((r ∈ (nodeFiles S (cellsForBbox (catalogOf s) .node bbox) .tagged).flatMap NodeFile.rows ∨
          r ∈ (nodeFiles S (cellsForBbox (catalogOf s) .node bbox) .untagged).flatMap
          NodeFile.rows) ∧ r.id ∉ shadowed s (cellsForBbox (catalogOf s) .node bbox) ∨
        ∃ layer, spatialDeltaLayer s.deltas .node
          (cellsForBbox (catalogOf s) .node bbox) = some layer ∧ r ∈ aliveRows layer.cand) := by
  unfold nodeSpatialSelect
  simp only
  rw [mem_currentRows_shadowed, mem_filesOf (S := S)]

/-- **What is missing among the rows read as one.** -/
lemma mem_build_iff : r ∈ buildNodeSpatialSelect regexpMatches S hasIndex bbox fs ids ↔
    r ∈ nodeSpatialSelect s (nodeWhere (s := s) regexpMatches fs ids) bbox ∧
      ¬ Skipped S bbox fs r := by
  rw [mem_buildNodeSpatialSelect, mem_nodeSpatialSelect S, and_assoc]
  refine and_congr_right fun _ => ?_
  constructor
  · rintro (⟨htagged | ⟨hneg, hunt⟩, hshadow⟩ | ⟨layer, hl, halive⟩)
    · refine ⟨.inl ⟨.inl htagged, hshadow⟩, fun ⟨_, hunt, _⟩ => ?_⟩
      obtain ⟨c, -, e, -, file, hpart, hrow⟩ := mem_nodeFiles.mp htagged
      obtain ⟨c', -, e', -, file', hpart', hrow'⟩ := mem_nodeFiles.mp hunt
      exact e.hasTags file hpart r hrow (e'.noTags file' hpart' r hrow').tags
    · exact ⟨.inl ⟨.inr hunt, hshadow⟩, fun h => h.1 hneg⟩
    · exact ⟨.inr ⟨layer, hl, halive⟩, fun h => h.2.2 (shadowed_of_alive hl halive)⟩
  · rintro ⟨⟨htagged | hunt, hshadow⟩ | hlayer, hskip⟩
    · exact .inl ⟨.inl htagged, hshadow⟩
    · refine .inl ⟨.inr ⟨?_, hunt⟩, hshadow⟩
      by_contra hneg
      exact hskip ⟨hneg, hunt, hshadow⟩
    · exact .inr hlayer

/-- The tests of a node without tags. -/
lemma nodeWhere_untagged (hu : Untagged r.cols.attrs) :
    nodeWhere (s := s) regexpMatches fs ids r = true ↔
      ids.all (fun ids => ids.isEmpty || decide (r.id ∈ ids)) = true ∧
        ∀ f ∈ fs, acceptsUntagged f = true := by
  rw [nodeWhere, Bool.and_eq_true, decide_eq_true_eq, tagFiltersSql_eq_true]
  refine and_congr_right fun _ => forall₂_congr fun f _ => tagFilterSql_untagged hu f

end Invisible

/-- **The files are read as one if and only if no node without tags is missed.** -/
theorem buildNodeSpatialSelect_iff (regexpMatches : String → String → Bool → Bool) {s : Root}
    (S : SplitNodes s) (hasIndex : Bool) (bbox : Option Box) (fs : List TagFilter)
    (ids : Option (List ℤ)) :
    (∀ r, r ∈ buildNodeSpatialSelect regexpMatches S hasIndex bbox fs ids ↔
        r ∈ nodeSpatialSelect s (nodeWhere (s := s) regexpMatches fs ids) bbox) ↔
      ¬ MissesUntagged S bbox fs ids := by
  constructor
  · rintro hsame ⟨hall, ⟨f, hf, hop⟩, r, hr, hshadow, hin, hids⟩
    obtain ⟨c, -, e, -, file, hpart, hrow⟩ := mem_nodeFiles.mp hr
    have htests : nodeWhere (s := s) regexpMatches fs ids r = true :=
      (nodeWhere_untagged (e.noTags file hpart r hrow)).mpr ⟨hids, hall⟩
    have hread := (hsame r).mpr ((mem_nodeSpatialSelect S).mpr
      ⟨Bool.and_eq_true_iff.mpr ⟨hin, htests⟩, .inl ⟨.inr hr, hshadow⟩⟩)
    exact (mem_build_iff.mp hread).2 ⟨not_negativeOnly hf hop, hr, hshadow⟩
  · intro hno r
    rw [mem_build_iff]
    refine and_iff_left_of_imp fun hread ⟨hneg, hr, hshadow⟩ => ?_
    obtain ⟨c, -, e, -, file, hpart, hrow⟩ := mem_nodeFiles.mp hr
    obtain ⟨hin, htests⟩ := Bool.and_eq_true_iff.mp ((mem_nodeSpatialSelect S).mp hread).1
    obtain ⟨hids, hall⟩ := (nodeWhere_untagged (e.noTags file hpart r hrow)).mp htests
    exact hno ⟨hall, notRegex_of_not_negativeOnly hneg hall, r, hr, hshadow, hin, hids⟩

/-- One node, without tags. -/
def oneUntagged : SplitNodes (PrevCells.fresh oneNode) where
  table := [{
    cell := [0]
    part
      | .tagged => none
      | .untagged => some ⟨[nodeRow], [], covers_nil⟩
    hasTags := by rintro f ⟨⟩
    noTags := by
      rintro f ⟨⟩ r hr
      obtain rfl := List.mem_singleton.mp hr
      exact ⟨rfl, by simp [nodeRow]⟩ }]
  same := rfl

/-- The query `node[highway!~"x"]` does not find it. -/
theorem notRegex_misses_untagged :
    ¬ ∀ (regexpMatches : String → String → Bool → Bool) (s : Root) (S : SplitNodes s)
      (hasIndex : Bool) (bbox : Option Box) (fs : List TagFilter) (ids : Option (List ℤ))
      (r : Row NodeCols), r ∈ buildNodeSpatialSelect regexpMatches S hasIndex bbox fs ids ↔
        r ∈ nodeSpatialSelect s (nodeWhere (s := s) regexpMatches fs ids) bbox := by
  intro hall
  have hsame := hall (fun value pattern _ => value == pattern) _ oneUntagged false none
    [⟨"highway", .notRegex, some "x", false, false⟩] none nodeRow
  have hfound : nodeRow ∈ nodeSpatialSelect (PrevCells.fresh oneNode)
      (nodeWhere (s := PrevCells.fresh oneNode) (fun value pattern _ => value == pattern)
        [⟨"highway", .notRegex, some "x", false, false⟩] none) none := by
    decide
  have hread := hsame.mpr hfound
  revert hread
  decide

end OsmParquet.TaggedNodes
