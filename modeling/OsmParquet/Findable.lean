import OsmParquet.CellTree
import OsmParquet.Updater

/-!
Which cells a query reads, and whether they include the cell of an element it should find.

A query takes the leaves its box meets, and the allowed ancestors of these leaves. Elements are
placed in a leaf or in an allowed ancestor, but not every ancestor has leaves all over it: where
the base had no nodes there are gaps. A query that lies in a gap meets no leaf at all. Only the
cells that none but the tiers have are tested by their own box.

The sides of boxes are rational numbers here. In the source they are floating point numbers, but
the sides of cells are exact ones. Cells are compared by their digits; the root's key in the
source is a word, and its first letters are the key of no cell.
-/

namespace OsmParquet.Findable

open OsmParquet.Rows OsmParquet.Tiers OsmParquet.ByidReads OsmParquet.Cells OsmParquet.CellTree
open OsmParquet.Updater

/-! ### The catalog -/

/-- What the manifest says of the cells. -/
structure Catalog where
  leafCells : List Cell
  ancestorDepths : List ℕ
  tableCells : Typ → List Cell
  deltaPresentCells : Typ → List Cell

/-- The catalog of a dataset: the cells of the base files, and those of the rows of the tiers. -/
def catalogOf (s : Root) : Catalog where
  leafCells := s.base.leafCells
  ancestorDepths := s.base.ancestorDepths
  tableCells t := (s.base.spatial t).map CellFiles.cell
  deltaPresentCells t :=
    ((deltaTiers s.deltas).flatMap fun m => (m.files t).spatial.filterMap DeltaRow.cell).dedup

def bboxIntersects (a b : Box) : Bool :=
  a.south ≤ b.north && a.north ≥ b.south && (a.west ≤ b.east && a.east ≥ b.west)

def ancestorsAndSelf (leaf : Cell) : List Cell :=
  (List.range (leaf.length + 1)).map fun d => leaf.take d

/-- A leaf and its ancestors at the allowed depths, the root always included. -/
def allowedAncestors (depths : List ℕ) (leaf : Cell) : List Cell :=
  leaf :: ((0 :: depths).filter fun d => d ≤ leaf.length).map fun d => leaf.take d

/-- A cell as a column of the database has it: the text of a key, or a number. -/
inductive CellValue
  | text (c : Cell)
  | number (n : ℕ)
  deriving DecidableEq

/-- The key that the value is the text of. A number is the key of nothing. -/
def CellValue.key : CellValue → Option Cell
  | .text c => some c
  | .number _ => none

/-- The digits of a key as a decimal number. -/
def keyNumber (c : Cell) : ℕ := c.foldl (fun n d => 10 * n + d) 0

/-- The cells of rows that are read from the files of some cells, by the names of the directories.
The database makes numbers of the keys if every one of them is an integer of 64 bits; the root is
not. -/
def hiveCell (files : List Cell) (c : Cell) : CellValue :=
  if files.all fun k => k ≠ [] && keyNumber k < 2 ^ 63 then .number (keyNumber c) else .text c

/-- A number as text again: the zeros before it are gone. -/
def numberText : Cell → Cell
  | d :: d' :: c => if d = 0 then numberText (d' :: c) else d :: d' :: c
  | c => c

variable (cat : Catalog)

def leavesIntersecting (q : Box) : List Cell :=
  cat.leafCells.filter fun leaf => bboxIntersects q (cellBBox leaf)

/-- The cells that are read for a leaf. -/
def above (t : Typ) (leaf : Cell) : List Cell :=
  match t with
  | .node => ancestorsAndSelf leaf
  | .way | .relation => allowedAncestors cat.ancestorDepths leaf

def present (t : Typ) : List Cell := cat.tableCells t ++ cat.deltaPresentCells t

/-- The cells a query reads. Without a box it reads everything. -/
def cellsForBbox (t : Typ) (bbox : Option Box) : List Cell :=
  match bbox with
  | none => (present cat t).dedup
  | some q =>
    let wanted := (leavesIntersecting cat q).flatMap (above cat t)
    let extraOnly := (present cat t).filter fun c => c ∉ cat.tableCells t
    let extra := extraOnly.filter fun c => c ∉ wanted ∧ bboxIntersects q (cellBBox c)
    ((wanted ++ extra).filter fun c => c ∈ present cat t).dedup

/-! ### Queries that meet an element -/

/-- A box that is not empty. -/
def Box.Proper (q : Box) : Prop := q.south ≤ q.north ∧ q.west ≤ q.east

def boxOf (b : BBox) : Box := ⟨b.ymin, b.xmin, b.ymax, b.xmax⟩

/-- Every query whose box meets that of an element reads the cell `c`. -/
def Found (t : Typ) (b : BBox) (c : Cell) : Prop :=
  ∀ q : Box, Box.Proper q → bboxIntersects q (boxOf b) → c ∈ cellsForBbox cat t (some q)

section Queries

variable {cat : Catalog} {t : Typ} {b : BBox} {c : Cell}

/-- A cell that is present is read through a leaf, or by its own box if only the tiers have it. -/
lemma mem_cellsForBbox (hc : c ∈ present cat t) {q : Box} : c ∈ cellsForBbox cat t (some q) ↔
    (∃ leaf ∈ cat.leafCells, c ∈ above cat t leaf ∧ bboxIntersects q (cellBBox leaf)) ∨
      c ∉ cat.tableCells t ∧ bboxIntersects q (cellBBox c) := by
  have hwanted : c ∈ (leavesIntersecting cat q).flatMap (above cat t) ↔
      ∃ leaf ∈ cat.leafCells, c ∈ above cat t leaf ∧ bboxIntersects q (cellBBox leaf) := by
    simp only [leavesIntersecting, List.mem_flatMap, List.mem_filter]
    exact ⟨fun ⟨l, ⟨h1, h2⟩, h3⟩ => ⟨l, h1, h3, h2⟩, fun ⟨l, h1, h2, h3⟩ => ⟨l, ⟨h1, h3⟩, h2⟩⟩
  unfold cellsForBbox
  simp only
  rw [List.mem_dedup, List.mem_filter, List.mem_append, List.mem_filter, List.mem_filter,
    ← hwanted]
  simp only [decide_eq_true_eq, hc, true_and, and_true]
  tauto

/-- The query for a single position. -/
lemma bboxIntersects_point {lat lon : ℚ} {b : Box} :
    bboxIntersects ⟨lat, lon, lat, lon⟩ b ↔ b.Holds lat lon := by
  simp only [bboxIntersects, Bool.and_eq_true, decide_eq_true_eq, Box.Holds, ge_iff_le]
  tauto

/-- Two boxes that meet have a position in common. -/
lemma exists_holds {q : Box} {b : Box} (hq : Box.Proper q) (hb : Box.Proper b)
    (h : bboxIntersects q b) : ∃ lat lon, q.Holds lat lon ∧ b.Holds lat lon := by
  simp only [bboxIntersects, Bool.and_eq_true, decide_eq_true_eq, ge_iff_le] at h
  obtain ⟨⟨h1, h2⟩, h3, h4⟩ := h
  refine ⟨max q.south b.south, max q.west b.west, ?_, ?_⟩
  · exact ⟨le_max_left _ _, max_le hq.1 h2, le_max_left _ _, max_le hq.2 h4⟩
  · exact ⟨le_max_right _ _, max_le h1 hb.1, le_max_right _ _, max_le h3 hb.2⟩

lemma intersects_of_holds {q b : Box} {lat lon : ℚ} (hq : q.Holds lat lon) (hb : b.Holds lat lon) :
    bboxIntersects q b := by
  obtain ⟨h1, h2, h3, h4⟩ := hq
  obtain ⟨g1, g2, g3, g4⟩ := hb
  simp only [bboxIntersects, Bool.and_eq_true, decide_eq_true_eq, ge_iff_le]
  exact ⟨⟨h1.trans g2, g1.trans h2⟩, h3.trans g4, g3.trans h4⟩

/-- It is enough to look at the queries for one position of the element. -/
lemma found_iff (hc : c ∈ present cat t) (hb : Box.Proper (boxOf b)) : Found cat t b c ↔
    ∀ lat lon, (boxOf b).Holds lat lon →
      (∃ leaf ∈ cat.leafCells, c ∈ above cat t leaf ∧ (cellBBox leaf).Holds lat lon) ∨
        c ∉ cat.tableCells t ∧ (cellBBox c).Holds lat lon := by
  constructor
  · intro h lat lon hl
    have hin := h ⟨lat, lon, lat, lon⟩ ⟨le_rfl, le_rfl⟩ (bboxIntersects_point.mpr hl)
    rw [mem_cellsForBbox hc] at hin
    simpa only [bboxIntersects_point] using hin
  · intro h q hq hmeet
    obtain ⟨lat, lon, h1, h2⟩ := exists_holds hq hb hmeet
    rw [mem_cellsForBbox hc]
    rcases h lat lon h2 with ⟨leaf, hl, ha, hin⟩ | ⟨hn, hin⟩
    · exact Or.inl ⟨leaf, hl, ha, intersects_of_holds h1 hin⟩
    · exact Or.inr ⟨hn, intersects_of_holds h1 hin⟩

/-- The cells read for a leaf are above it. -/
lemma prefix_of_above {leaf : Cell} (h : c ∈ above cat t leaf) : c <+: leaf := by
  have hway : c ∈ allowedAncestors cat.ancestorDepths leaf → c <+: leaf := by
    intro h
    rcases List.mem_cons.mp h with rfl | h
    · exact List.prefix_rfl
    · obtain ⟨d, -, rfl⟩ := List.mem_map.mp h
      exact List.take_prefix d leaf
  cases t with
  | node =>
    obtain ⟨d, -, rfl⟩ := List.mem_map.mp h
    exact List.take_prefix d leaf
  | way => exact hway h
  | relation => exact hway h

lemma self_mem_above (t : Typ) (leaf : Cell) : leaf ∈ above cat t leaf := by
  cases t with
  | node =>
    refine List.mem_map.mpr ⟨leaf.length, ?_, List.take_length⟩
    rw [List.mem_range]; omega
  | way => exact List.mem_cons_self
  | relation => exact List.mem_cons_self

end Queries

/-! ### Nodes -/

section Nodes

variable {cat : Catalog}

/-- The leaves are as a build makes them. -/
structure LeavesOk (leaves : List Cell) (depth : ℕ) : Prop where
  prefixFree : PrefixFree leaves
  length : ∀ c ∈ leaves, c.length ≤ depth
  nonempty : leaves ≠ []

lemma leavesOk_selectLeafCells (nodes : List Point) (n : ℕ) {depth : ℕ} (hd : depth ≤ maxDepth) :
    LeavesOk (selectLeafCells nodes n depth) depth :=
  ⟨prefixFree_selectLeafCells _ _ _, fun _ h => length_selectLeafCells h,
    selectLeafCells_ne_nil _ _ hd⟩

lemma proper_ofPoint (p : Point) : Box.Proper (boxOf (BBox.ofPoint p)) := ⟨le_rfl, le_rfl⟩

lemma holds_ofPoint {p : Point} {lat lon : ℚ} :
    (boxOf (BBox.ofPoint p)).Holds lat lon ↔ lat = p.lat ∧ lon = p.lon := by
  simp only [Box.Holds, boxOf, BBox.ofPoint]
  constructor
  · rintro ⟨h1, h2, h3, h4⟩
    exact ⟨le_antisymm h2 h1, le_antisymm h4 h3⟩
  · rintro ⟨rfl, rfl⟩
    exact ⟨le_rfl, le_rfl, le_rfl, le_rfl⟩

/-- **When the cell of a node is read by every query for the node**: when a leaf covers the node,
or when in a gap the neighbouring leaf it is placed in has the node on its border. -/
lemma node_found_iff {depth : ℕ} (hl : LeavesOk cat.leafCells depth) (hd : depth ≤ maxDepth)
    {p : Point} (hw : InWorld p) (hc : pointCell cat.leafCells p ∈ present cat .node) :
    Found cat .node (BBox.ofPoint p) (pointCell cat.leafCells p) ↔
      (∃ leaf ∈ cat.leafCells, Covers leaf (pointToQk p)) ∨
        (cellBBox (pointCell cat.leafCells p)).Holds p.lat p.lon := by
  have hmem : pointCell cat.leafCells p ∈ cat.leafCells := leafForQk_mem hl.nonempty _
  rw [found_iff hc (proper_ofPoint p)]
  constructor
  · intro h
    rcases h p.lat p.lon (holds_ofPoint.mpr ⟨rfl, rfl⟩) with ⟨leaf, hleaf, ha, hin⟩ | ⟨-, hin⟩
    · refine Or.inr ?_
      rw [hl.prefixFree _ hmem leaf hleaf (prefix_of_above ha)]
      exact hin
    · exact Or.inr hin
  · intro h lat lon hpos
    obtain ⟨rfl, rfl⟩ := holds_ofPoint.mp hpos
    refine Or.inl ⟨_, hmem, self_mem_above .node _, ?_⟩
    rcases h with ⟨leaf, hleaf, hcov⟩ | hin
    · have hlen := fun c hc => (hl.length c hc).trans hd
      have heq : pointCell cat.leafCells p = leaf :=
        leafForQk_of_covers hl.prefixFree hlen hleaf hcov
      rw [heq]
      exact holds_of_prefix hw ((covers_iff (hlen leaf hleaf) (length_pointDigits p)).mp hcov)
    · exact hin

end Nodes

/-! ### Ways and relations -/

lemma length_le_commonPrefix {a x y : Cell} (hx : a <+: x) (hy : a <+: y) :
    a.length ≤ commonPrefix x y := by
  induction a generalizing x y with
  | nil => exact Nat.zero_le _
  | cons d a ih =>
    obtain ⟨x, rfl⟩ := hx
    obtain ⟨y, rfl⟩ := hy
    have h := ih (List.prefix_append a x) (List.prefix_append a y)
    simp only [List.cons_append, commonPrefix, if_true, List.length_cons]
    omega

lemma take_of_le_commonPrefix {x y : Cell} {n : ℕ} (h : n ≤ commonPrefix x y) :
    x.take n = y.take n := by
  induction x generalizing y n with
  | nil =>
    have h0 : n = 0 := by cases y <;> simpa [commonPrefix] using h
    rw [h0, List.take_zero, List.take_zero]
  | cons a x ih =>
    rcases y with _ | ⟨b, y⟩
    · have h0 : n = 0 := by simpa [commonPrefix] using h
      rw [h0, List.take_zero, List.take_zero]
    rcases n with _ | n
    · rfl
    unfold commonPrefix at h
    split at h
    · rename_i hab
      have hn : n ≤ commonPrefix x y := by omega
      rw [List.take_succ_cons, List.take_succ_cons, hab, ih hn]
    · omega

section Boxes

variable {cat : Catalog} {b : BBox} {depth : ℕ}

/-- The corners of a bounding box. -/
def southWest (b : BBox) : Point := ⟨b.ymin, b.xmin⟩

def northEast (b : BBox) : Point := ⟨b.ymax, b.xmax⟩

/-- A bounding box of elements of the world. -/
structure BoxOk (b : BBox) : Prop where
  lat : b.ymin ≤ b.ymax
  lon : b.xmin ≤ b.xmax
  southWest : InWorld (southWest b)
  northEast : InWorld (northEast b)

lemma proper_boxOf (hb : BoxOk b) : Box.Proper (boxOf b) :=
  ⟨Int.cast_le.mpr hb.lat, Int.cast_le.mpr hb.lon⟩

/-- A cell with both corners has the whole box. -/
lemma holds_of_corners (hb : BoxOk b) {c : Cell} (h1 : c <+: pointDigits (southWest b))
    (h2 : c <+: pointDigits (northEast b)) {lat lon : ℚ} (h : (boxOf b).Holds lat lon) :
    (cellBBox c).Holds lat lon := by
  obtain ⟨s1, -, s3, -⟩ := holds_of_prefix hb.southWest h1
  obtain ⟨-, n2, -, n4⟩ := holds_of_prefix hb.northEast h2
  obtain ⟨b1, b2, b3, b4⟩ := h
  exact ⟨s1.trans b1, b2.trans n2, s3.trans b3, b4.trans n4⟩

/-- A box within one leaf is placed in this leaf. -/
lemma containingCellV2_of_leaf (hl : LeavesOk cat.leafCells depth) (hd : depth ≤ maxDepth)
    {leaf : Cell} (hleaf : leaf ∈ cat.leafCells) (h1 : Covers leaf (pointToQk (southWest b)))
    (h2 : Covers leaf (pointToQk (northEast b))) :
    containingCellV2 cat.leafCells cat.ancestorDepths depth b = leaf := by
  have hlen := fun c hc => (hl.length c hc).trans hd
  have p1 := (covers_iff (hlen leaf hleaf) (length_pointDigits _)).mp h1
  have p2 := (covers_iff (hlen leaf hleaf) (length_pointDigits _)).mp h2
  have hfind : leafForQk cat.leafCells (keyToValue (pointDigits (southWest b))) = leaf :=
    leafForQk_of_covers hl.prefixFree hlen hleaf h1
  have hcommon := length_le_commonPrefix p1 p2
  have hdepth := hl.length leaf hleaf
  have hcontains : containsQk leaf (keyToValue (pointDigits (southWest b))) = true :=
    decide_eq_true h1.2
  have htrunc : min (min depth (commonPrefix (pointDigits (southWest b))
      (pointDigits (northEast b)))) leaf.length = leaf.length := by omega
  unfold containingCellV2
  simp only
  rw [show (⟨b.ymin, b.xmin⟩ : Point) = southWest b from rfl,
    show (⟨b.ymax, b.xmax⟩ : Point) = northEast b from rfl, hfind, htrunc,
    if_pos ⟨rfl, hcontains⟩, List.take_take, Nat.min_eq_left hdepth]
  exact (List.prefix_iff_eq_take.mp p1).symm

/-- The box of a way or relation is within one leaf; or only the tiers have its cell and this
has the whole box; or the leaves for which its cell is read leave no gap in the box. -/
def BoxReached (cat : Catalog) (t : Typ) (depth : ℕ) (b : BBox) : Prop :=
  let c := containingCellV2 cat.leafCells cat.ancestorDepths depth b
  (∃ leaf ∈ cat.leafCells, Covers leaf (pointToQk (southWest b)) ∧
      Covers leaf (pointToQk (northEast b))) ∨
    (c ∉ cat.tableCells t ∧ ∀ lat lon, (boxOf b).Holds lat lon → (cellBBox c).Holds lat lon) ∨
    ∀ lat lon, (boxOf b).Holds lat lon →
      ∃ leaf ∈ cat.leafCells, c ∈ above cat t leaf ∧ (cellBBox leaf).Holds lat lon

/-- **When the cell of a way or relation is read by every query its box meets.** -/
lemma box_found_iff (hl : LeavesOk cat.leafCells depth) (hd : depth ≤ maxDepth) {t : Typ}
    (hb : BoxOk b)
    (hc : containingCellV2 cat.leafCells cat.ancestorDepths depth b ∈ present cat t) :
    Found cat t b (containingCellV2 cat.leafCells cat.ancestorDepths depth b) ↔
      BoxReached cat t depth b := by
  rw [found_iff hc (proper_boxOf hb), BoxReached]
  constructor
  · intro h
    by_cases hn : containingCellV2 cat.leafCells cat.ancestorDepths depth b ∈ cat.tableCells t
    · refine Or.inr (Or.inr fun lat lon hpos => ?_)
      exact (h lat lon hpos).resolve_right fun hx => hx.1 hn
    · refine Or.inr (Or.inl ⟨hn, fun lat lon hpos => ?_⟩)
      rcases h lat lon hpos with ⟨leaf, -, ha, hin⟩ | ⟨-, hin⟩
      · exact holds_of_under (prefix_of_above ha) hin
      · exact hin
  · rintro (⟨leaf, hleaf, h1, h2⟩ | ⟨hn, hin⟩ | h) lat lon hpos
    · have hlen := (hl.length leaf hleaf).trans hd
      rw [containingCellV2_of_leaf hl hd hleaf h1 h2]
      refine Or.inl ⟨leaf, hleaf, self_mem_above t leaf, ?_⟩
      exact holds_of_corners hb ((covers_iff hlen (length_pointDigits _)).mp h1)
        ((covers_iff hlen (length_pointDigits _)).mp h2) hpos
    · exact Or.inr ⟨hn, hin lat lon hpos⟩
    · exact Or.inl (h lat lon hpos)

end Boxes

/-- **When the cell of an element is read by every query that meets the element**, over the
leaves of any set of nodes: for a node when it is in no gap, or on the border of the leaf it is
placed in; for a way or relation when no gap cuts its box off from its cell. -/
theorem cells_found_iff (nodes : List Point) (n depth : ℕ) (hd : depth ≤ maxDepth) (cat : Catalog)
    (hcat : cat.leafCells = selectLeafCells nodes n depth) :
    (∀ p, InWorld p → pointCell cat.leafCells p ∈ present cat .node →
      (Found cat .node (BBox.ofPoint p) (pointCell cat.leafCells p) ↔
        (∃ leaf ∈ cat.leafCells, Covers leaf (pointToQk p)) ∨
          (cellBBox (pointCell cat.leafCells p)).Holds p.lat p.lon)) ∧
    ∀ t ≠ .node, ∀ b, BoxOk b →
      containingCellV2 cat.leafCells cat.ancestorDepths depth b ∈ present cat t →
      (Found cat t b (containingCellV2 cat.leafCells cat.ancestorDepths depth b) ↔
        BoxReached cat t depth b) := by
  have hl : LeavesOk cat.leafCells depth := hcat ▸ leavesOk_selectLeafCells nodes n hd
  exact ⟨fun p hw hc => node_found_iff hl hd hw hc, fun t _ b hb hc => box_found_iff hl hd hb hc⟩

/-! ### Two nodes in opposite quarters of the world -/

def corners : List Point := [⟨450000000, 900000000⟩, ⟨-450000000, -900000000⟩]

/-- A node in the north-east and one in the south-west, and a way from one to the other. -/
def diagonal : Catalog where
  leafCells := selectLeafCells corners 1 1
  ancestorDepths := [0, 3, 6, 9, 12]
  tableCells
    | .node => [[1], [2]]
    | .way => [[]]
    | .relation => []
  deltaPresentCells _ := []

/-- Every query for the first node reads its cell. -/
theorem diagonal_node_found : InWorld ⟨450000000, 900000000⟩ ∧
    pointCell diagonal.leafCells ⟨450000000, 900000000⟩ ∈ present diagonal .node ∧
    Found diagonal .node (BBox.ofPoint ⟨450000000, 900000000⟩)
      (pointCell diagonal.leafCells ⟨450000000, 900000000⟩) := by
  have hw : InWorld ⟨450000000, 900000000⟩ := by decide
  have hc : pointCell diagonal.leafCells ⟨450000000, 900000000⟩ ∈ present diagonal .node := by
    decide
  refine ⟨hw, hc,
    ((cells_found_iff corners 1 1 (by decide) diagonal rfl).1 _ hw hc).mpr (Or.inl ?_)⟩
  exact @exists_leaf_of_mem corners 1 1 (by decide) _ (by decide)

/-- A query in the north-west finds neither the way whose box is all around it nor a node that
was placed there later. -/
theorem diagonal_gap : BoxOk ⟨-450000000, -900000000, 450000000, 900000000⟩ ∧
    containingCellV2 diagonal.leafCells diagonal.ancestorDepths 1
      ⟨-450000000, -900000000, 450000000, 900000000⟩ ∈ present diagonal .way ∧
    ¬ Found diagonal .way ⟨-450000000, -900000000, 450000000, 900000000⟩
      (containingCellV2 diagonal.leafCells diagonal.ancestorDepths 1
        ⟨-450000000, -900000000, 450000000, 900000000⟩) ∧
    pointCell diagonal.leafCells ⟨450000000, -900000000⟩ ∈ present diagonal .node ∧
    ¬ Found diagonal .node (BBox.ofPoint ⟨450000000, -900000000⟩)
      (pointCell diagonal.leafCells ⟨450000000, -900000000⟩) := by
  refine ⟨⟨by decide, by decide, by decide, by decide⟩, by decide, ?_, by decide, ?_⟩
  · intro h
    have hq := h ⟨450000000, -900000000, 450000000, -900000000⟩ ⟨le_rfl, le_rfl⟩ (by decide)
    revert hq
    decide +kernel
  · intro h
    have hq := h ⟨450000000, -900000000, 450000000, -900000000⟩ ⟨le_rfl, le_rfl⟩ (by decide)
    revert hq
    decide +kernel

end OsmParquet.Findable
