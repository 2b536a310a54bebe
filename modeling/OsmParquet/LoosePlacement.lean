import OsmParquet.LeafSearch

/-!
Loose placement: the cell of a bounding box among leaves and a few allowed depths.

The cell is the one that the digits common to both corners name, cut where a leaf stops the
tree. A leaf is used as it is; any other depth is rounded up the tree to an allowed one, as
readers look in the leaves and at the allowed depths only.

The search for the leaf of the south-west corner gives some leaf for a corner in a gap too. A gap
after the end of that leaf is noticed, and the depth is rounded. A gap before the first leaf is
not: the corner is not after the end of the first leaf, which so counts as the leaf of the corner,
and the box gets a cell at the depth of a leaf it has nothing to do with.
-/

namespace OsmParquet.LoosePlacement

open OsmParquet.Rows OsmParquet.Cells OsmParquet.CellTree OsmParquet.RawPlacement
  OsmParquet.Findable
open OsmParquet.LeafSearch

/-- The digit of a quadkey at a depth: two bits, the most significant ones first. -/
def qkDigit (qk i : ℕ) : Digit := Fin.ofNat 4 (qk >>> (2 * (maxDepth - 1 - i)))

/-- A pass of the search for the common prefix: the depth found, and whether the digits before it
are still the same. -/
def lcpStep (qkSw qkNe : ℕ) (s : ℕ × Bool) (i : ℕ) : ℕ × Bool :=
  let mismatch := s.2 && qkDigit qkSw i != qkDigit qkNe i
  (if mismatch then i else s.1, s.2 && !mismatch)

def lcpDepth (depth qkSw qkNe : ℕ) : ℕ :=
  ((List.range depth).foldl (lcpStep qkSw qkNe) (depth, true)).1

/-- The cell of one box. -/
def placeRow (index : LeafIndex) (adSorted : List ℕ) (depth : ℕ) (b : BBox) : Cell :=
  let qkSw := pointToQk (southWest b)
  let qkNe := pointToQk (northEast b)
  let leafIdx := index.leafIndexForQk qkSw
  let leafDepth := ((index.keysByLo.map List.length)[leafIdx]?).getD 0
  let leafValid := index.containsQk leafIdx qkSw
  let truncatedDepth := min (lcpDepth depth qkSw qkNe) leafDepth
  let isLeafC := truncatedDepth == leafDepth && leafValid
  let roundedDepth := (adSorted[searchClipped adSorted truncatedDepth]?).getD 0
  let finalDepth := if isLeafC then truncatedDepth else roundedDepth
  ((List.range depth).map (qkDigit qkSw)).take finalDepth

/-- The cells of boxes, one for each. Without a leaf, or without a depth to round to, the clipped
search gives the place before the first one. -/
def containingCellsV2Np (boxes : List BBox) (leaves : List Cell) (ancestorDepths : List ℕ)
    (depth : ℕ) : Except String (List Cell) :=
  if boxes = [] then .ok []
  else if maxDepth < depth then
    .error s!"max_depth {depth} exceeds the module MAX_DEPTH {maxDepth}"
  else if leaves = [] ∨ ancestorDepths = [] then
    .error "index -1 is out of bounds for axis 0 with size 0"
  else
    .ok (boxes.map (placeRow (leafIndex leaves) (ancestorDepths.dedup.insertionSort (· ≤ ·)) depth))

/-! ### What is computed -/

section Computed

variable {leaves : List Cell} {depths : List ℕ} {depth : ℕ} {b : BBox} {p : Point}

lemma qkDigit_pointToQk {i : ℕ} (hi : i < (pointDigits p).length) :
    qkDigit (pointToQk p) i = (pointDigits p)[i] := by
  have h := keyToValue_digit hi
  rwa [length_pointDigits] at h

/-- The digits taken out of the quadkey are those it was made of. -/
lemma map_qkDigit (hd : depth ≤ maxDepth) (p : Point) :
    (List.range depth).map (qkDigit (pointToQk p)) = (pointDigits p).take depth := by
  have hlen := length_pointDigits p
  refine List.ext_getElem (by simp [hlen, hd]) fun i h1 h2 => ?_
  have hi : i < (pointDigits p).length := by
    rw [List.length_map, List.length_range] at h1
    omega
  rw [List.getElem_map, List.getElem_range, List.getElem_take, qkDigit_pointToQk hi]

/-- The loop after `n` passes: the digits before `n` agree, or the first difference is found. -/
lemma foldl_lcpStep (hd : depth ≤ maxDepth) {n : ℕ} (hn : n ≤ depth) :
    (List.range n).foldl (lcpStep (pointToQk (southWest b)) (pointToQk (northEast b)))
    (depth, true) =
      if n ≤ sharedDepth b then (depth, true) else (sharedDepth b, false) := by
  induction n with
  | zero => simp
  | succ n ih =>
    rw [List.range_succ, List.foldl_append, ih (by omega), List.foldl_cons, List.foldl_nil]
    by_cases hle : n ≤ sharedDepth b
    · have hsw : n < (pointDigits (southWest b)).length := by rw [length_pointDigits]; omega
      have hne : n < (pointDigits (northEast b)).length := by rw [length_pointDigits]; omega
      have hnext := lt_commonPrefix_iff hsw hne hle
      rw [if_pos hle, lcpStep, qkDigit_pointToQk hsw, qkDigit_pointToQk hne]
      generalize (pointDigits (southWest b))[n] = x at hnext ⊢
      generalize (pointDigits (northEast b))[n] = y at hnext ⊢
      by_cases heq : x = y
      · have hlt : n + 1 ≤ sharedDepth b := hnext.mpr heq
        simp [heq, hlt]
      · have hstop : sharedDepth b = n := le_antisymm (Nat.not_lt.mp (hnext.not.mpr heq)) hle
        simp [heq, hstop]
    · have hle' : ¬ n + 1 ≤ sharedDepth b := by omega
      rw [if_neg hle, if_neg hle']
      simp [lcpStep]

lemma lcpDepth_eq (hd : depth ≤ maxDepth) (b : BBox) :
    lcpDepth depth (pointToQk (southWest b)) (pointToQk (northEast b)) =
      min depth (sharedDepth b) := by
  rw [lcpDepth, foldl_lcpStep hd le_rfl]
  split
  · exact (Nat.min_eq_left ‹_›).symm
  · exact (Nat.min_eq_right (by omega)).symm

/-- The depth found in the sorted depths is the one that rounding gives. -/
lemma rounded_eq (hne : depths ≠ []) (d : ℕ) :
    ((depths.dedup.insertionSort (· ≤ ·))[searchClipped
      (depths.dedup.insertionSort (· ≤ ·)) d]?).getD 0 =
      roundDepth depths d := by
  have hmem : ∀ e, e ∈ depths.dedup.insertionSort (· ≤ ·) ↔ e ∈ depths := fun e => by
    rw [List.mem_insertionSort, List.mem_dedup]
  have hne' : depths.dedup.insertionSort (· ≤ ·) ≠ [] :=
    List.ne_nil_of_mem ((hmem _).mpr (List.head_mem hne))
  obtain ⟨x, hx, hspec⟩ := searchClipped_spec (List.pairwise_insertionSort _ _) hne' d
  have hxmem : x ∈ depths := (hmem x).mp (List.mem_of_getElem? hx)
  rw [hx, Option.getD_some, roundDepth]
  rcases hspec with ⟨h1, h2⟩ | ⟨h1, h2⟩
  · have hmax : (depths.filter (· ≤ d)).max? = some x := by
      refine List.max?_eq_some_iff.mpr ⟨List.mem_filter.mpr ⟨hxmem, decide_eq_true h1⟩,
        fun e he => ?_⟩
      obtain ⟨he1, he2⟩ := List.mem_filter.mp he
      exact h2 e ((hmem e).mpr he1) (of_decide_eq_true he2)
    rw [hmax, Option.some_or, Option.getD_some]
  · have hnone : depths.filter (· ≤ d) = [] := by
      refine List.filter_eq_nil_iff.mpr fun e he => ?_
      have h := h1 e ((hmem e).mpr he)
      simpa using h
    have hmin : depths.min? = some x :=
      List.min?_eq_some_iff.mpr ⟨hxmem, fun e he => h2 e ((hmem e).mpr he)⟩
    rw [hnone, List.max?_nil, Option.none_or, hmin, Option.getD_some]

/-- **The cell of a row** is the one the updater places the box in. -/
lemma placeRow_eq (hl : LeavesOk leaves depth) (hd : depth ≤ maxDepth)
    (hne : depths ≠ []) (b : BBox) :
    placeRow (leafIndex leaves) (depths.dedup.insertionSort (· ≤ ·)) depth b =
      containingCellV2 leaves depths depth b := by
  have hlen := fun c hc => (hl.length c hc).trans hd
  have hkey := (leafIndexForQk_spec hl.prefixFree hlen hl.nonempty (pointToQk (southWest b))).1
  unfold placeRow
  simp only
  rw [List.getElem?_map, hkey, Option.map_some, Option.getD_some,
    leafIndex_containsQk hl.prefixFree hlen hl.nonempty, lcpDepth_eq hd, rounded_eq hne,
    map_qkDigit hd]
  simp only [Bool.and_eq_true, beq_iff_eq]
  rfl

end Computed

/-! ### What is asked for -/

/-- What a box is to be given: a cell with both corners, which is a leaf or at an allowed depth.
Where a leaf has the south-west corner it is this leaf, if the leaf has the other corner too, and
else the cell at the greatest allowed depth down to which the corners are together. -/
structure Placed (leaves : List Cell) (depths : List ℕ) (b : BBox) (cell : Cell) : Prop where
  corners : cell <+: pointDigits (southWest b) ∧ cell <+: pointDigits (northEast b)
  found : cell ∈ leaves ∨ cell.length ∈ depths
  leaf : ∀ leaf ∈ leaves, leaf <+: pointDigits (southWest b) → leaf <+: pointDigits (northEast b) →
    cell = leaf
  above : ∀ leaf ∈ leaves, leaf <+: pointDigits (southWest b) →
    ¬ leaf <+: pointDigits (northEast b) → IsGreatest {d | d ∈ depths ∧
      d ≤ commonPrefix (pointDigits (southWest b)) (pointDigits (northEast b))} cell.length

/-- The south-west corner is before every leaf, the corners are together down to the depth of the
first leaf or further, and that depth is not an allowed one. -/
def BeforeFirstLeaf (leaves : List Cell) (depths : List ℕ) (b : BBox) : Prop :=
  ∃ first ∈ leaves, (∀ leaf ∈ leaves, (qkRange first).1 ≤ (qkRange leaf).1) ∧
    pointToQk (southWest b) < (qkRange first).1 ∧
    first.length ≤ commonPrefix (pointDigits (southWest b)) (pointDigits (northEast b)) ∧
    first.length ∉ depths

section Asked

variable {leaves : List Cell} {depths : List ℕ} {depth : ℕ} {b : BBox} {leaf : Cell} {n : ℕ}

/-- With the root among the allowed depths there is always one to round to. -/
lemma roundDepth_greatest (h0 : 0 ∈ depths) (d : ℕ) :
    IsGreatest {e | e ∈ depths ∧ e ≤ d} (roundDepth depths d) := by
  have hin : 0 ∈ depths.filter (· ≤ d) := List.mem_filter.mpr ⟨h0, by simp⟩
  obtain ⟨m, hm⟩ := Option.isSome_iff_exists.mp
    (List.isSome_max?_of_ne_nil (List.ne_nil_of_mem hin))
  obtain ⟨hmem, hmax⟩ := List.max?_eq_some_iff.mp hm
  obtain ⟨h1, h2⟩ := List.mem_filter.mp hmem
  rw [roundDepth, hm, Option.some_or, Option.getD_some]
  refine ⟨⟨h1, of_decide_eq_true h2⟩, fun e he => ?_⟩
  exact hmax e (List.mem_filter.mpr ⟨he.1, decide_eq_true he.2⟩)

/-- Digits the corners have in common name a cell with both. -/
lemma corners_take (h : n ≤ sharedDepth b) :
    (pointDigits (southWest b)).take n <+: pointDigits (southWest b) ∧
      (pointDigits (southWest b)).take n <+: pointDigits (northEast b) := by
  refine ⟨List.take_prefix _ _, ?_⟩
  rw [take_of_le_commonPrefix h]
  exact List.take_prefix _ _

lemma length_take_digits (h : n ≤ maxDepth) : ((pointDigits (southWest b)).take n).length = n := by
  rw [List.length_take, length_pointDigits, Nat.min_eq_left h]

/-- A leaf with the south-west corner has the other one when the corners are together so far. -/
lemma prefix_northEast_iff (hpre : leaf <+: pointDigits (southWest b)) :
    leaf <+: pointDigits (northEast b) ↔ leaf.length ≤ sharedDepth b := by
  constructor
  · exact fun h => length_le_commonPrefix hpre h
  · intro h
    have hcorner := (corners_take h).2
    rwa [← List.prefix_iff_eq_take.mp hpre] at hcorner

/-- Where a leaf has the south-west corner the placement is as asked for. -/
lemma placed_of_leaf (hl : LeavesOk leaves depth) (hd : depth ≤ maxDepth) (h0 : 0 ∈ depths)
    (hleaf : leaf ∈ leaves) (hpre : leaf <+: pointDigits (southWest b)) :
    Placed leaves depths b (containingCellV2 leaves depths depth b) := by
  have hlen := hl.length leaf hleaf
  have hcov : Covers leaf (pointToQk (southWest b)) :=
    (covers_iff (by omega) (length_pointDigits _)).mpr hpre
  have hfind : leafForQk leaves (pointToQk (southWest b)) = leaf :=
    leafForQk_of_covers hl.prefixFree (fun c hc => (hl.length c hc).trans hd) hleaf hcov
  have hcontains : containsQk leaf (pointToQk (southWest b)) = true := decide_eq_true hcov.2
  have hself : leaf = (pointDigits (southWest b)).take leaf.length :=
    List.prefix_iff_eq_take.mp hpre
  rw [containingCellV2_eq, hfind]
  simp only [hcontains, and_true]
  by_cases hs : leaf.length ≤ sharedDepth b
  · -- the leaf has the whole box
    rw [if_pos (by omega), Nat.min_eq_right hlen, ← hself]
    refine ⟨⟨hpre, (prefix_northEast_iff hpre).mpr hs⟩, Or.inl hleaf, fun c hc h1 _ => ?_,
      fun c hc h1 h2 => ?_⟩
    · exact leaf_unique hl hc hleaf h1 hpre
    · rw [← leaf_unique hl hc hleaf h1 hpre] at h2
      exact absurd ((prefix_northEast_iff hpre).mpr hs) h2
  · rw [if_neg (by omega), show min (min depth (sharedDepth b)) leaf.length =
      sharedDepth b by omega]
    obtain ⟨⟨hmem, hle⟩, hmax⟩ := roundDepth_greatest h0 (sharedDepth b)
    rw [Nat.min_eq_right (by omega)]
    have hlength := length_take_digits (b := b) (n := roundDepth depths (sharedDepth b)) (by omega)
    refine ⟨corners_take hle, Or.inr (hlength.symm ▸ hmem), fun c hc h1 h2 => ?_, fun _ _ _ _ => ?_⟩
    · rw [leaf_unique hl hleaf hc hpre h1] at h2
      exact absurd ((prefix_northEast_iff hpre).mp h2) hs
    · rw [hlength]
      exact ⟨⟨hmem, hle⟩, hmax⟩

/-- The first leaf counts as the leaf of a corner before it. -/
lemma first_eq_leafForQk (hl : LeavesOk leaves depth) (hd : depth ≤ maxDepth) {first : Cell}
    (hf : first ∈ leaves) (hmin : ∀ leaf ∈ leaves, (qkRange first).1 ≤ (qkRange leaf).1)
    (hlt : pointToQk (southWest b) < (qkRange first).1) :
    first = leafForQk leaves (pointToQk (southWest b)) := by
  have hlen := fun c hc => (hl.length c hc).trans hd
  refine Looked.unique (fun a ha b hb => lo_inj hl.prefixFree hlen ha hb) ?_
    (looked_leafForQk hl.nonempty (pointToQk (southWest b)))
  exact ⟨hf, Or.inr ⟨fun l hl' => lt_of_lt_of_le hlt (hmin l hl'), hmin⟩⟩

/-- In a gap every allowed depth down to which the corners are together will do. -/
lemma placed_take_of_gap (hgap : ∀ leaf ∈ leaves, ¬ leaf <+: pointDigits (southWest b))
    (hn : n ≤ maxDepth) (hle : n ≤ sharedDepth b) (hin : n ∈ depths) :
    Placed leaves depths b ((pointDigits (southWest b)).take n) :=
  ⟨corners_take hle, Or.inr ((length_take_digits hn).symm ▸ hin),
    fun c hc h1 _ => absurd h1 (hgap c hc), fun c hc h1 _ => absurd h1 (hgap c hc)⟩

/-- In a gap the placement is as asked for except before the first leaf. -/
lemma placed_iff_of_gap (hl : LeavesOk leaves depth) (hd : depth ≤ maxDepth) (h0 : 0 ∈ depths)
    (hgap : ∀ leaf ∈ leaves, ¬ leaf <+: pointDigits (southWest b)) :
    Placed leaves depths b (containingCellV2 leaves depths depth b) ↔
      ¬ BeforeFirstLeaf leaves depths b := by
  obtain ⟨hmem, hspec⟩ := looked_leafForQk hl.nonempty (pointToQk (southWest b))
  have hnear := hl.length _ hmem
  have hcontains := containsQk_iff_of_gap hl hd hgap
  rw [containingCellV2_eq]
  simp only [hcontains]
  set near := leafForQk leaves (pointToQk (southWest b))
  by_cases hbad : near.length ≤ min depth (sharedDepth b) ∧
      ∀ leaf ∈ leaves, pointToQk (southWest b) < (qkRange leaf).1
  · -- the first leaf counts as the leaf of the corner
    obtain ⟨hle, hbefore⟩ := hbad
    rw [if_pos ⟨hle, hbefore⟩, Nat.min_eq_right hnear]
    have hlength := length_take_digits (b := b) (n := near.length) (by omega)
    have hmin : ∀ leaf ∈ leaves, (qkRange near).1 ≤ (qkRange leaf).1 := by
      rcases hspec with ⟨h, -⟩ | ⟨-, h⟩
      · exact absurd h (Nat.not_le.mpr (hbefore near hmem))
      · exact h
    constructor
    · rintro hplaced ⟨first, hf, hfmin, hflt, -, hout⟩
      rw [first_eq_leafForQk hl hd hf hfmin hflt] at hout
      rcases hplaced.found with h | h
      · exact hgap _ h (List.take_prefix _ _)
      · exact hout (hlength ▸ h)
    · intro hno
      have hin : near.length ∈ depths := by
        by_contra hout
        exact hno ⟨near, hmem, hmin, hbefore near hmem,
          hle.trans (Nat.min_le_right _ _), hout⟩
      exact placed_take_of_gap hgap (hnear.trans hd) (hle.trans (Nat.min_le_right _ _)) hin
  · rw [if_neg hbad]
    obtain ⟨⟨hin, hle⟩, -⟩ := roundDepth_greatest h0 (min (min depth (sharedDepth b)) near.length)
    rw [Nat.min_eq_right (by omega)]
    refine iff_of_true (placed_take_of_gap hgap (by omega) (by omega) hin) ?_
    rintro ⟨first, hf, hfmin, hflt, hfle, -⟩
    have heq : first = near := first_eq_leafForQk hl hd hf hfmin hflt
    refine hbad ⟨?_, fun l hl' => lt_of_lt_of_le hflt (hfmin l hl')⟩
    rw [← heq]
    exact Nat.le_min.mpr ⟨hl.length first hf, hfle⟩

/-- A leaf that begins the digits of the corner starts at or before it. -/
lemma not_beforeFirstLeaf (hl : LeavesOk leaves depth) (hd : depth ≤ maxDepth)
    (hleaf : leaf ∈ leaves) (hpre : leaf <+: pointDigits (southWest b)) :
    ¬ BeforeFirstLeaf leaves depths b := by
  rintro ⟨first, -, hmin, hlt, -⟩
  have hcov : Covers leaf (pointToQk (southWest b)) :=
    (covers_iff ((hl.length leaf hleaf).trans hd) (length_pointDigits _)).mpr hpre
  exact absurd (hlt.trans_le (hmin leaf hleaf)) (Nat.not_lt.mpr hcov.1)

lemma placed_iff (hl : LeavesOk leaves depth) (hd : depth ≤ maxDepth) (h0 : 0 ∈ depths) (b : BBox) :
    Placed leaves depths b (containingCellV2 leaves depths depth b) ↔
      ¬ BeforeFirstLeaf leaves depths b := by
  by_cases hcov : ∃ leaf ∈ leaves, leaf <+: pointDigits (southWest b)
  · obtain ⟨leaf, hleaf, hpre⟩ := hcov
    exact iff_of_true (placed_of_leaf hl hd h0 hleaf hpre) (not_beforeFirstLeaf hl hd hleaf hpre)
  · exact placed_iff_of_gap hl hd h0 fun leaf hleaf hpre => hcov ⟨leaf, hleaf, hpre⟩

/-- **Loose placement.** For any leaves that do not lie in each other, any depths with that of the
root and any limit that no leaf is below, boxes are refused only when the limit is below the grid;
and the cells they get are as asked for exactly when no box has its corner before the first leaf,
under the depth of that leaf, which is not an allowed one. -/
theorem loosePlacement_iff (leaves : List Cell) (hne : leaves ≠ []) (hp : PrefixFree leaves)
    (depths : List ℕ) (h0 : 0 ∈ depths) (depth : ℕ) (hl : ∀ c ∈ leaves, c.length ≤ depth)
    (boxes : List BBox) :
    ((∃ cells, containingCellsV2Np boxes leaves depths depth = .ok cells) ↔
      boxes = [] ∨ depth ≤ maxDepth) ∧
    ((∀ cells, containingCellsV2Np boxes leaves depths depth = .ok cells →
        List.Forall₂ (Placed leaves depths) boxes cells) ↔
      maxDepth < depth ∨ ∀ b ∈ boxes, ¬ BeforeFirstLeaf leaves depths b) := by
  have hdepths : depths ≠ [] := List.ne_nil_of_mem h0
  rcases eq_or_ne boxes [] with rfl | hboxes
  · have hempty : containingCellsV2Np [] leaves depths depth = .ok [] := rfl
    refine ⟨iff_of_true ⟨[], hempty⟩ (Or.inl rfl), iff_of_true ?_ (Or.inr (by simp))⟩
    intro cells h
    rw [hempty] at h
    cases h
    exact List.Forall₂.nil
  rcases Nat.lt_or_ge maxDepth depth with hdeep | hd
  · obtain ⟨message, herror⟩ : ∃ message,
        containingCellsV2Np boxes leaves depths depth = .error message := by
      rw [containingCellsV2Np, if_neg hboxes, if_pos hdeep]
      exact ⟨_, rfl⟩
    rw [herror]
    refine ⟨iff_of_false (by simp) ?_, iff_of_true (by simp) (Or.inl hdeep)⟩
    rintro (h | h)
    · exact hboxes h
    · omega
  have hok : LeavesOk leaves depth := ⟨hp, hl, hne⟩
  have hcells : containingCellsV2Np boxes leaves depths depth =
      .ok (boxes.map (containingCellV2 leaves depths depth)) := by
    rw [containingCellsV2Np, if_neg hboxes, if_neg (Nat.not_lt.mpr hd),
      if_neg (by rintro (h | h) <;> contradiction)]
    exact congrArg Except.ok (List.map_congr_left fun b _ => placeRow_eq hok hd hdepths b)
  rw [hcells]
  refine ⟨iff_of_true ⟨_, rfl⟩ (Or.inr hd), ?_⟩
  have hone : (∀ cells, Except.ok (ε := String) (boxes.map (containingCellV2 leaves depths depth)) =
      .ok cells → List.Forall₂ (Placed leaves depths) boxes cells) ↔
      ∀ b ∈ boxes, Placed leaves depths b (containingCellV2 leaves depths depth b) := by
    constructor
    · intro h
      exact List.forall₂_map_right_iff.mp (h _ rfl) |> List.forall₂_same.mp
    · rintro h cells ⟨⟩
      exact List.forall₂_map_right_iff.mpr (List.forall₂_same.mpr h)
  rw [hone]
  constructor
  · exact fun h => Or.inr fun b hb => (placed_iff hok hd h0 b).mp (h b hb)
  · rintro (h | h) b hb
    · omega
    · exact (placed_iff hok hd h0 b).mpr (h b hb)

/-- A leaf in the north-east quarter and a box in the south-west of it: the cell of the box is the
leaf, and nothing is before the first leaf. -/
theorem loosePlacement_in_leaf :
    (∃ cells, containingCellsV2Np [⟨100000000, 100000000, 200000000, 200000000⟩] [[1, 2]]
        [0, 3, 6, 9, 12] 13 = .ok cells) ∧
      ∀ cells, containingCellsV2Np [⟨100000000, 100000000, 200000000, 200000000⟩] [[1, 2]]
        [0, 3, 6, 9, 12] 13 = .ok cells →
        List.Forall₂ (Placed [[1, 2]] [0, 3, 6, 9, 12])
          [⟨100000000, 100000000, 200000000, 200000000⟩] cells := by
  have hp : PrefixFree [[1, 2]] := by
    intro a ha b hb _
    rw [List.mem_singleton.mp ha, List.mem_singleton.mp hb]
  have h := loosePlacement_iff [[1, 2]] (by simp) hp [0, 3, 6, 9, 12] (by simp) 13 (by simp)
    [⟨100000000, 100000000, 200000000, 200000000⟩]
  refine ⟨h.1.mpr (Or.inr (by decide)), h.2.mpr (Or.inr fun b hb => ?_)⟩
  rw [List.mem_singleton.mp hb]
  rintro ⟨first, hf, -, hlt, -⟩
  rw [List.mem_singleton.mp hf] at hlt
  exact absurd hlt (by decide)

/-- One leaf in the south-east and a small box in the north-west, before it: the box is placed at
the depth of the leaf, where there is no leaf and no allowed depth. -/
theorem box_before_first_leaf :
    PrefixFree [[3, 3]] ∧
      containingCellsV2Np [⟨800000000, -1700000000, 800000001, -1699999999⟩] [[3, 3]]
        [0, 3, 6, 9, 12] 13 = .ok [[0, 0]] ∧
      ¬ Placed [[3, 3]] [0, 3, 6, 9, 12] ⟨800000000, -1700000000, 800000001,
        -1699999999⟩ [0, 0] := by
  refine ⟨fun a ha b hb _ => ?_, by decide, fun h => ?_⟩
  · rw [List.mem_singleton.mp ha, List.mem_singleton.mp hb]
  · rcases h.found with h | h
    · exact absurd h (by decide)
    · exact absurd h (by decide)

end Asked

end OsmParquet.LoosePlacement
