import Mathlib.Tactic.IntervalCases
import OsmParquet.Findable

/-!
The placement of the raw extractor against the placement of the updater.

The extractor writes the base: it looks a point up among the leaves at the resolution of the
deepest leaf, and places a box by walking down from the root as long as exactly one child has
the whole box, its border included. The updater looks both up at the resolution of the grid and
takes the digits that the two corners of the box have in common, where a point on a border is
in the eastern and northern cell only.

Points come out in the same leaf. A box comes out in the same cell as long as its upper corner
is on no border that matters, a leaf covers its lower corner, and the depths the updater is
given round as those of the extractor do.
-/

namespace OsmParquet.RawPlacement

open OsmParquet.Rows OsmParquet.Cells OsmParquet.CellTree OsmParquet.Halving OsmParquet.Findable

/-! ### The extractor -/

/-- Column and row of a point on the grid of a depth, clipped to the world. -/
def gridXY (order : ℕ) (p : Point) : ℕ × ℕ :=
  ((max 0 (min ((p.lon + 1800000000) * 2 ^ order / 3600000000) (2 ^ order - 1))).toNat,
    (max 0 (min ((p.lat + 900000000) * 2 ^ order / 1800000000) (2 ^ order - 1))).toNat)

/-- The quadkey of a point at a depth. -/
def qkDigits (order : ℕ) (p : Point) : Cell :=
  (List.range order).map fun k => digitAt (gridXY order p).1 (gridXY order p).2 (order - 1 - k)

def qkCode (order : ℕ) (p : Point) : ℕ := keyToValue (qkDigits order p)

/-- The first quadkey of a cell at the resolution of a depth. -/
def codeLo (depth : ℕ) (c : Cell) : ℕ := keyToValue c * 2 ^ (2 * (depth - c.length))

/-- The leaves of the index, sorted by where they start. -/
def keysByLo (leaves : List Cell) (depth : ℕ) : List Cell :=
  leaves.insertionSort fun a b => codeLo depth a ≤ codeLo depth b

/-- A search in a sorted list: the place of the value, or the place it would be put at. -/
def binarySearch (los : List ℕ) (code : ℕ) : Except ℕ ℕ :=
  let i := los.findIdx fun lo => code ≤ lo
  if los[i]? = some code then .ok i else .error i

def leafIdxForCode (los : List ℕ) (code : ℕ) : ℕ :=
  match binarySearch los code with
  | .ok i => i
  | .error 0 => 0
  | .error (i + 1) => i

def leafForPoint (leaves : List Cell) (depth : ℕ) (p : Point) : Cell :=
  let byLo := keysByLo leaves depth
  (byLo[leafIdxForCode (byLo.map (codeLo depth)) (qkCode depth p)]?).getD []

def ancestorDepths : List ℕ := [0, 3, 6, 9, 12]

def bboxContains (outer inner : Box) : Bool :=
  inner.south ≥ outer.south ∧ inner.west ≥ outer.west ∧ inner.north ≤ outer.north ∧
    inner.east ≤ outer.east

def snapToAncestorDepth (keyAtStop : Cell) : Cell :=
  keyAtStop.take (((ancestorDepths.filter (· ≤ keyAtStop.length)).max?).getD 0)

/-- The walk down from a cell, at most `left` levels. -/
def walkDown (leaves : List Cell) (bbox : Box) : ℕ → Cell → Box → Cell
  | 0, key, _ => if key ∈ leaves then key else snapToAncestorDepth key
  | left + 1, key, cur =>
    if key ∈ leaves then key
    else match ([0, 1, 2, 3] : List Digit).filter fun d => bboxContains (quarter cur d) bbox with
      | [d] => walkDown leaves bbox left (key ++ [d]) (quarter cur d)
      | _ => snapToAncestorDepth key

def containingCell (leaves : List Cell) (depth : ℕ) (b : BBox) : Cell :=
  walkDown leaves (boxOf b) depth [] world

/-! ### The updater -/

/-- The updater's placement, with the calls it refuses: a depth below the grid, and no depth to
round to. -/
def containingCellsV2 (leaves : List Cell) (depths : List ℕ) (depth : ℕ) (b : BBox) : Option Cell :=
  if maxDepth < depth ∨ depths = [] then none else some (containingCellV2 leaves depths depth b)

/-! ### Points -/

/-- What a search among leaves gives: the last one that starts at or before the quadkey, and the
first one where there is none. -/
def Looked (lo : Cell → ℕ) (leaves : List Cell) (qk : ℕ) (m : Cell) : Prop :=
  m ∈ leaves ∧ ((lo m ≤ qk ∧ ∀ l ∈ leaves, lo l ≤ qk → lo l ≤ lo m) ∨
    ((∀ l ∈ leaves, qk < lo l) ∧ ∀ l ∈ leaves, lo m ≤ lo l))

section Points

variable {leaves : List Cell} {depth qk : ℕ} {a b : Cell} {p : Point}

lemma Looked.unique {lo : Cell → ℕ} (hinj : ∀ a ∈ leaves, ∀ b ∈ leaves, lo a = lo b → a = b)
    {qk : ℕ} (ha : Looked lo leaves qk a) (hb : Looked lo leaves qk b) : a = b := by
  obtain ⟨hma, ha⟩ := ha
  obtain ⟨hmb, hb⟩ := hb
  refine hinj a hma b hmb (le_antisymm ?_ ?_)
  · rcases ha with ⟨h1, -⟩ | ⟨-, h2⟩
    · rcases hb with ⟨-, h⟩ | ⟨h, -⟩
      · exact h a hma h1
      · exact absurd h1 (Nat.not_le.mpr (h a hma))
    · exact h2 b hmb
  · rcases hb with ⟨h1, -⟩ | ⟨-, h2⟩
    · rcases ha with ⟨-, h⟩ | ⟨h, -⟩
      · exact h b hmb h1
      · exact absurd h1 (Nat.not_le.mpr (h b hmb))
    · exact h2 a hma

lemma looked_leafForQk (hne : leaves ≠ []) (qk : ℕ) :
    Looked (fun c => (qkRange c).1) leaves qk (leafForQk leaves qk) := by
  refine ⟨leafForQk_mem hne qk, ?_⟩
  have hsorted := sorted_leavesByLo leaves
  rw [leafForQk]
  simp only
  rcases hl : ((leavesByLo leaves).filter fun k => (qkRange k).1 ≤ qk).getLast? with _ | m
  · have hnone : ∀ l ∈ leaves, qk < (qkRange l).1 := by
      intro l hl'
      have hnil := List.getLast?_eq_none_iff.mp hl
      have h := List.filter_eq_nil_iff.mp hnil l (mem_leavesByLo.mpr hl')
      simpa using h
    obtain ⟨c, rest, hsplit⟩ := List.exists_cons_of_ne_nil
      (List.ne_nil_of_mem (mem_leavesByLo.mpr (List.head_mem hne)))
    refine Or.inr ⟨hnone, fun l hl' => ?_⟩
    rw [hsplit] at hsorted
    simp only [Option.none_or, hsplit, List.head?_cons, Option.getD_some]
    have hmem : l ∈ c :: rest := by rw [← hsplit]; exact mem_leavesByLo.mpr hl'
    rcases List.mem_cons.mp hmem with rfl | h
    · exact le_rfl
    · exact (List.pairwise_cons.mp hsorted).1 l h
  · obtain ⟨init, hsplit⟩ := List.getLast?_eq_some_iff.mp hl
    have hm := (List.mem_filter.mp (List.mem_of_getLast? hl)).2
    refine Or.inl ⟨by simpa using hm, fun l hl' hlo => ?_⟩
    have hin : l ∈ (leavesByLo leaves).filter fun k => (qkRange k).1 ≤ qk :=
      List.mem_filter.mpr ⟨mem_leavesByLo.mpr hl', decide_eq_true hlo⟩
    have hfil := hsorted.filter fun k => (qkRange k).1 ≤ qk
    rw [hsplit] at hfil hin
    simp only [Option.some_or, Option.getD_some]
    rcases List.mem_append.mp hin with h | h
    · exact (List.pairwise_append.mp hfil).2.2 l h m (by simp)
    · rw [List.mem_singleton.mp h]

/-- Before the place of a search in a sorted list the starts are less than the code, from it on they
are not. -/
lemma findIdx_sorted {los : List ℕ} (hs : los.SortedLE) (code : ℕ) (j : ℕ) (hj : j < los.length) :
    los[j] < code ↔ j < los.findIdx fun lo => code ≤ lo := by
  constructor
  · intro hlt
    by_contra hij
    have hi := lt_of_le_of_lt (Nat.not_lt.mp hij) hj
    have hfound : code ≤ los[los.findIdx fun lo => code ≤ lo] := by
      simpa using List.findIdx_getElem (w := hi)
    exact absurd (hfound.trans (hs.getElem_le_getElem_of_le (Nat.not_lt.mp hij)))
      (Nat.not_le.mpr hlt)
  · intro hji
    simpa using List.not_of_lt_findIdx hji

/-- The place a search in a sorted list ends at: nothing before the next place is too late. -/
lemma leafIdxForCode_spec {los : List ℕ} (hs : los.Pairwise (· ≤ ·)) (hne : los ≠ []) (code : ℕ) :
    ∃ lo, los[leafIdxForCode los code]? = some lo ∧
      ((lo ≤ code ∧ ∀ l ∈ los, l ≤ code → l ≤ lo) ∨
        ((∀ l ∈ los, code < l) ∧ ∀ l ∈ los, lo ≤ l)) := by
  have hsort : los.SortedLE := hs.sortedLE
  have hpos : 0 < los.length := List.length_pos_iff.mpr hne
  have hplace := findIdx_sorted hsort code
  have hile : (los.findIdx fun lo => code ≤ lo) ≤ los.length := List.findIdx_le_length
  unfold leafIdxForCode binarySearch
  simp only
  generalize (los.findIdx fun lo => code ≤ lo) = i at hplace hile ⊢
  by_cases heq : los[i]? = some code
  · rw [if_pos heq]
    exact ⟨code, heq, Or.inl ⟨le_rfl, fun l _ h => h⟩⟩
  rw [if_neg heq]
  -- from the place on every start is after the code
  have hafter : ∀ j (hj : j < los.length), i ≤ j → code < los[j] := by
    intro j hj hij
    have hfrom : ∀ k (hk : k < los.length), i ≤ k → code ≤ los[k] := fun k hk hik =>
      Nat.not_lt.mp fun h => absurd ((hplace k hk).mp h) (Nat.not_lt.mpr hik)
    refine lt_of_le_of_ne (hfrom j hj hij) fun h => heq ?_
    have hlt : i < los.length := lt_of_le_of_lt hij hj
    rw [List.getElem?_eq_getElem hlt]
    congr 1
    exact le_antisymm ((hsort.getElem_le_getElem_of_le hij).trans h.symm.le) (hfrom i hlt le_rfl)
  rcases i with _ | k
  · refine ⟨los[0], List.getElem?_eq_getElem hpos, Or.inr ⟨?_, ?_⟩⟩
    · intro l hl
      obtain ⟨j, hj, rfl⟩ := List.getElem_of_mem hl
      exact hafter j hj (Nat.zero_le j)
    · intro l hl
      obtain ⟨j, hj, rfl⟩ := List.getElem_of_mem hl
      exact hsort.getElem_le_getElem_of_le (Nat.zero_le j)
  · have hk : k < los.length := by omega
    refine ⟨los[k], List.getElem?_eq_getElem hk,
      Or.inl ⟨((hplace k hk).mpr (Nat.lt_succ_self k)).le, ?_⟩⟩
    intro l hl hle
    obtain ⟨j, hj, rfl⟩ := List.getElem_of_mem hl
    have hji : j ≤ k := by
      by_contra hcon
      exact absurd hle (Nat.not_le.mpr (hafter j hj (by omega)))
    exact hsort.getElem_le_getElem_of_le hji

lemma mem_keysByLo {c : Cell} : c ∈ keysByLo leaves depth ↔ c ∈ leaves := by
  rw [keysByLo, List.mem_insertionSort]

lemma sorted_keysByLo (leaves : List Cell) (depth : ℕ) :
    ((keysByLo leaves depth).map (codeLo depth)).Pairwise (· ≤ ·) := by
  have htotal : Std.Total fun a b : Cell => codeLo depth a ≤ codeLo depth b :=
    ⟨fun _ _ => le_total _ _⟩
  have htrans : IsTrans Cell fun a b => codeLo depth a ≤ codeLo depth b := ⟨fun _ _ _ => le_trans⟩
  exact List.pairwise_map.mpr (List.pairwise_insertionSort _ _)

lemma looked_leafForPoint (hne : leaves ≠ []) (depth : ℕ) (p : Point) :
    Looked (codeLo depth) leaves (qkCode depth p) (leafForPoint leaves depth p) := by
  have hne' : (keysByLo leaves depth).map (codeLo depth) ≠ [] := by
    rw [ne_eq, List.map_eq_nil_iff]
    exact List.ne_nil_of_mem (mem_keysByLo.mpr (List.head_mem hne))
  obtain ⟨lo, hlo, hspec⟩ := leafIdxForCode_spec (sorted_keysByLo leaves depth) hne'
    (qkCode depth p)
  rw [List.getElem?_map, Option.map_eq_some_iff] at hlo
  obtain ⟨m, hm, rfl⟩ := hlo
  have hmem : ∀ l ∈ leaves, codeLo depth l ∈ (keysByLo leaves depth).map (codeLo depth) :=
    fun l hl => List.mem_map_of_mem (mem_keysByLo.mpr hl)
  have hleaf : leafForPoint leaves depth p = m := by
    rw [leafForPoint]
    simp only [hm, Option.getD_some]
  rw [hleaf]
  refine ⟨mem_keysByLo.mp (List.mem_of_getElem? hm), ?_⟩
  rcases hspec with ⟨h1, h2⟩ | ⟨h1, h2⟩
  · exact Or.inl ⟨h1, fun l hl => h2 _ (hmem l hl)⟩
  · exact Or.inr ⟨fun l hl => h1 _ (hmem l hl), fun l hl => h2 _ (hmem l hl)⟩

/-- Leaves that do not lie in each other start at different quadkeys. -/
lemma lo_inj (hp : PrefixFree leaves) (hl : ∀ c ∈ leaves, c.length ≤ maxDepth) (ha : a ∈ leaves)
    (hb : b ∈ leaves) (h : (qkRange a).1 = (qkRange b).1) : a = b := by
  have hla := hl a ha
  have hlb := hl b hb
  rw [lo_eq, lo_eq] at h
  have heq := keyToValue_inj (by simp; omega) h
  have h1 : a <+: b ++ List.replicate (maxDepth - b.length) 0 := heq ▸ List.prefix_append _ _
  rcases List.prefix_or_prefix_of_prefix h1 (List.prefix_append b _) with h | h
  · exact hp a ha b hb h
  · exact (hp b hb a ha h).symm

lemma lo_eq_codeLo (hd : depth ≤ maxDepth) (hc : a.length ≤ depth) :
    (qkRange a).1 = codeLo depth a * 4 ^ (maxDepth - depth) := by
  have hpow : (4 : ℕ) ^ (maxDepth - a.length) = 4 ^ (depth - a.length) *
      4 ^ (maxDepth - depth) := by
    rw [← pow_add]; congr 1; omega
  have hfour : (2 : ℕ) ^ (2 * (depth - a.length)) = 4 ^ (depth - a.length) := by
    rw [pow_mul]; norm_num
  rw [qkRange_eq, codeLo, hfour, hpow, mul_assoc]

lemma toNat_ediv {z : ℤ} (hz : 0 ≤ z) (k : ℕ) : (z / k).toNat = z.toNat / k := by
  lift z to ℕ using hz
  rw [← Int.natCast_div, Int.toNat_natCast, Int.toNat_natCast]

/-- A coarser grid is a finer one with columns joined, at the edges of the world too. -/
lemma clip_div {a s : ℤ} (hs : 0 < s) {order fine : ℕ} (ho : order ≤ fine) :
    (max 0 (min (a * 2 ^ order / s) (2 ^ order - 1))).toNat =
      (max 0 (min (a * 2 ^ fine / s) (2 ^ fine - 1))).toNat / 2 ^ (fine - order) := by
  set K : ℕ := 2 ^ (fine - order) with hK
  have hKpos : (0 : ℤ) < K := by rw [hK]; positivity
  have hpow : (2 : ℤ) ^ fine = 2 ^ order * K := by
    rw [hK]; push_cast; rw [← pow_add]; congr 1; omega
  have hN : (0 : ℤ) < 2 ^ order := by positivity
  set N : ℤ := 2 ^ order
  set z : ℤ := a * 2 ^ fine / s with hz
  have hjoin : a * N / s = z / K := by
    rw [hz, hpow, Int.ediv_ediv_of_nonneg hs.le, ← mul_assoc,
      Int.mul_ediv_mul_of_pos_left _ _ hKpos]
  rw [hjoin, hpow]
  rcases lt_or_ge z 0 with hneg | hnonneg
  · have hq : z / K < 0 := Int.ediv_neg_of_neg_of_pos hneg hKpos
    have h1 : (max 0 (min (z / K) (N - 1))).toNat = 0 := by omega
    have h2 : (max 0 (min z (N * K - 1))).toNat = 0 := by omega
    rw [h1, h2, Nat.zero_div]
  rcases lt_or_ge z (N * K) with hin | hout
  · have hq : z / K < N := Int.ediv_lt_of_lt_mul hKpos hin
    have hq0 : 0 ≤ z / K := Int.ediv_nonneg hnonneg hKpos.le
    rw [min_eq_left (by omega), max_eq_right hq0, min_eq_left (by omega), max_eq_right hnonneg]
    exact toNat_ediv hnonneg K
  · have hq : N ≤ z / K := (Int.le_ediv_iff_mul_le hKpos).mpr hout
    have hNK : 0 < N * K := by positivity
    rw [min_eq_right (by omega), max_eq_right (by omega), min_eq_right (by omega),
      max_eq_right (by omega)]
    have hlast : (N * K - 1) / K = N - 1 := by
      refine le_antisymm ?_ ?_
      · have h : (N * K - 1) / K < N := Int.ediv_lt_of_lt_mul hKpos (by omega)
        omega
      · refine (Int.le_ediv_iff_mul_le hKpos).mpr ?_
        rw [sub_mul]
        omega
    rw [← hlast]
    exact toNat_ediv (by omega) K

lemma gridXY_eq {order fine : ℕ} (ho : order ≤ fine) (p : Point) : gridXY order p =
    ((gridXY fine p).1 / 2 ^ (fine - order), (gridXY fine p).2 / 2 ^ (fine - order)) :=
  Prod.ext (clip_div (by norm_num) ho) (clip_div (by norm_num) ho)

/-- **The quadkey at a depth is the beginning of the quadkey at a greater depth.** -/
lemma qkDigits_take {order fine : ℕ} (ho : order ≤ fine) (p : Point) :
    qkDigits order p = (qkDigits fine p).take order := by
  rw [qkDigits, qkDigits, ← List.map_take, List.take_range, Nat.min_eq_left ho, gridXY_eq ho]
  refine List.map_congr_left fun k hk => ?_
  have hk := List.mem_range.mp hk
  have hbit : order - 1 - k + (fine - order) = fine - 1 - k := by omega
  simp only [digitAt, Nat.testBit_div_two_pow, hbit]

lemma qkDigits_eq {order : ℕ} (ho : order ≤ maxDepth) (p : Point) :
    qkDigits order p = (pointDigits p).take order := qkDigits_take ho p

/-- A leaf starts at or before a point at one resolution exactly when it does at the other. -/
lemma codeLo_le_iff (hd : depth ≤ maxDepth) (ha : a.length ≤ depth) :
    codeLo depth a ≤ qkCode depth p ↔ (qkRange a).1 ≤ pointToQk p := by
  have hpos : 0 < 4 ^ (maxDepth - depth) := by positivity
  have hsplit : pointToQk p = qkCode depth p * 4 ^ (maxDepth - depth) +
      keyToValue ((pointDigits p).drop depth) := by
    have h := keyToValue_append (a := (pointDigits p).take depth) (b := (pointDigits p).drop depth)
    rwa [List.take_append_drop, List.length_drop, length_pointDigits, ← qkDigits_eq hd] at h
  have hlt : keyToValue ((pointDigits p).drop depth) < 4 ^ (maxDepth - depth) := by
    have h := keyToValue_lt ((pointDigits p).drop depth)
    rwa [List.length_drop, length_pointDigits] at h
  rw [hsplit, lo_eq_codeLo hd ha]
  constructor
  · intro h
    exact (Nat.mul_le_mul_right _ h).trans (Nat.le_add_right _ _)
  · intro h
    have hsucc : codeLo depth a * 4 ^ (maxDepth - depth) <
        (qkCode depth p + 1) * 4 ^ (maxDepth - depth) := by
      rw [add_mul]
      omega
    exact Nat.le_of_lt_succ (Nat.lt_of_mul_lt_mul_right hsucc)

/-- **Points are placed alike**: extractor and updater give the same leaf. -/
lemma leafForPoint_eq (hl : LeavesOk leaves depth) (hd : depth ≤ maxDepth) (p : Point) :
    leafForPoint leaves depth p = pointCell leaves p := by
  have hlen := fun c hc => (hl.length c hc).trans hd
  have hpos : 0 < 4 ^ (maxDepth - depth) := by positivity
  have hle : ∀ l ∈ leaves, ∀ m ∈ leaves,
      (codeLo depth l ≤ codeLo depth m ↔ (qkRange l).1 ≤ (qkRange m).1) := by
    intro l hl' m hm
    rw [lo_eq_codeLo hd (hl.length l hl'), lo_eq_codeLo hd (hl.length m hm)]
    exact (Nat.mul_le_mul_right_iff hpos).symm
  have hpoint := fun l hl' => codeLo_le_iff (p := p) hd (hl.length l hl')
  have hinj : ∀ a ∈ leaves, ∀ b ∈ leaves, (qkRange a).1 = (qkRange b).1 → a = b :=
    fun a ha b hb h => lo_inj hl.prefixFree hlen ha hb h
  refine Looked.unique hinj ?_ (looked_leafForQk hl.nonempty (pointToQk p))
  obtain ⟨hm, hspec⟩ := looked_leafForPoint hl.nonempty depth p
  refine ⟨hm, ?_⟩
  rcases hspec with ⟨h1, h2⟩ | ⟨h1, h2⟩
  · refine Or.inl ⟨(hpoint _ hm).mp h1, fun l hl' h => ?_⟩
    exact (hle l hl' _ hm).mp (h2 l hl' ((hpoint l hl').mpr h))
  · refine Or.inr ⟨fun l hl' => ?_, fun l hl' => (hle _ hm l hl').mp (h2 l hl')⟩
    exact Nat.not_le.mp fun h => Nat.not_le.mpr (h1 l hl') ((hpoint l hl').mpr h)

end Points

/-! ### Boxes -/

/-- The column that ends at or after a longitude and starts before it. -/
def gridXBelow (lon : ℤ) : ℕ :=
  (max 0 (min (((lon + 1800000000) * 2 ^ maxDepth - 1) / 3600000000) (2 ^ maxDepth - 1))).toNat

def gridYBelow (lat : ℤ) : ℕ :=
  (max 0 (min (((lat + 900000000) * 2 ^ maxDepth - 1) / 1800000000) (2 ^ maxDepth - 1))).toNat

/-- The digits of a place of the grid. -/
def gridDigits (x y : ℕ) : Cell :=
  (List.range maxDepth).map fun k => digitAt x y (maxDepth - 1 - k)

/-- The quadkey of a point that counts, where it is on a border, to the cell south and west. -/
def pointDigitsBelow (p : Point) : Cell := gridDigits (gridXBelow p.lon) (gridYBelow p.lat)

/-- How many digits the corners of a box have in common. -/
def sharedDepth (b : BBox) : ℕ :=
  commonPrefix (pointDigits (southWest b)) (pointDigits (northEast b))

/-- How far down cells have the whole box, their borders included. -/
def closedDepth (b : BBox) : ℕ :=
  if bboxContains world (boxOf b) then
    commonPrefix (pointDigits (southWest b)) (pointDigitsBelow (northEast b))
  else 0

section Boxes

variable {leaves : List Cell} {b : BBox} {d : ℕ} {x y : ℕ}

lemma eastern_gridDigits (hd : d ≤ maxDepth) :
    ((gridDigits x y).take d).map eastern = leadingBits maxDepth x d := by
  rw [gridDigits, ← List.map_take, List.take_range, Nat.min_eq_left hd, List.map_map]
  exact List.map_congr_left fun k _ => eastern_digitAt _ _ _

lemma northern_gridDigits (hd : d ≤ maxDepth) :
    ((gridDigits x y).take d).map northern = leadingBits maxDepth y d := by
  rw [gridDigits, ← List.map_take, List.take_range, Nat.min_eq_left hd, List.map_map]
  exact List.map_congr_left fun k _ => northern_digitAt _ _ _

lemma length_gridDigits : (gridDigits x y).length = maxDepth := by simp [gridDigits]

lemma getElem_gridDigits (hd : d < (gridDigits x y).length) :
    (gridDigits x y)[d] = digitAt x y (maxDepth - 1 - d) := by simp [gridDigits]

/-- How columns and rows compare with the borders between them. -/
lemma le_clip_iff {a s : ℤ} (hs : 0 < s) {m : ℕ} (h0 : 0 < m) (h1 : m < 2 ^ maxDepth) :
    m ≤ (max 0 (min (a / s) (2 ^ maxDepth - 1))).toNat ↔ (m : ℤ) * s ≤ a := by
  have hpow : (m : ℤ) < 2 ^ maxDepth := by exact_mod_cast h1
  rw [← Int.le_ediv_iff_mul_le hs]
  omega

lemma border_le_iff {h v : ℤ} {m : ℕ} : (-h : ℚ) + (h - -h) * m / 2 ^ maxDepth ≤ v ↔
    (m : ℤ) * (2 * h) ≤ (v + h) * 2 ^ maxDepth := by
  have hpow : (0 : ℚ) < 2 ^ maxDepth := by positivity
  rw [← Int.cast_le (R := ℚ), ← le_sub_iff_add_le', div_le_iff₀ hpow]
  push_cast
  constructor
  · intro hle; linarith
  · intro hle; linarith

lemma border_lt_iff {h v : ℤ} {m : ℕ} : (-h : ℚ) + (h - -h) * m / 2 ^ maxDepth < v ↔
    (m : ℤ) * (2 * h) ≤ (v + h) * 2 ^ maxDepth - 1 := by
  have hpow : (0 : ℚ) < 2 ^ maxDepth := by positivity
  rw [Int.le_sub_one_iff, ← Int.cast_lt (R := ℚ), ← lt_sub_iff_add_lt', div_lt_iff₀ hpow]
  push_cast
  constructor
  · intro hlt; linarith
  · intro hlt; linarith

/-- A bounded place of the grid. -/
lemma clip_lt (q : ℤ) : (max 0 (min q (2 ^ maxDepth - 1))).toNat < 2 ^ maxDepth := by
  have hpow : (2 : ℤ) ^ maxDepth = ((2 ^ maxDepth : ℕ) : ℤ) := by push_cast; rfl
  have hpos : 0 < 2 ^ maxDepth := Nat.two_pow_pos _
  rw [hpow]
  omega

/-- The middle of the cell that the first digits of a place of the grid name. -/
def midLon (c : Cell) : ℚ := ((cellBBox c).west + (cellBBox c).east) / 2

def midLat (c : Cell) : ℚ := ((cellBBox c).south + (cellBBox c).north) / 2

lemma midLon_eq (hd : d ≤ maxDepth) : midLon ((gridDigits x y).take d) =
    ((descend (((-1800000000 : ℤ) : ℚ), ((1800000000 : ℤ) : ℚ)) (leadingBits maxDepth x d)).1 +
    (descend (((-1800000000 : ℤ) : ℚ), ((1800000000 : ℤ) : ℚ)) (leadingBits maxDepth x d)).2) / 2 := by
  rw [midLon, cellBBox_eq, eastern_gridDigits hd]
  norm_num

lemma midLat_eq (hd : d ≤ maxDepth) : midLat ((gridDigits x y).take d) =
    ((descend (((-900000000 : ℤ) : ℚ), ((900000000 : ℤ) : ℚ)) (leadingBits maxDepth y d)).1 +
      (descend (((-900000000 : ℤ) : ℚ), ((900000000 : ℤ) : ℚ)) (leadingBits maxDepth y d)).2) / 2 := by
  rw [midLat, cellBBox_eq, northern_gridDigits hd]
  norm_num

/-- **The next digit of a corner compares it with the middle of the cell**: of the lower corner
with the border counted to the upper half, of the upper corner with the border counted to the
lower half. -/
lemma gridX_testBit (hd : d < maxDepth) (lon : ℤ) : (gridX lon).testBit (maxDepth - 1 - d) = true ↔
    midLon ((gridDigits (gridX lon) y).take d) ≤ lon := by
  rw [midLon_eq hd.le]
  refine testBit_iff_middle (P := fun m => m ≤ lon) (clip_lt _) hd fun m h0 h1 => ?_
  push_cast
  exact (le_clip_iff (by norm_num) h0 h1).trans (border_le_iff (h := 1800000000)).symm

lemma gridY_testBit (hd : d < maxDepth) (lat : ℤ) : (gridY lat).testBit (maxDepth - 1 - d) = true ↔
    midLat ((gridDigits x (gridY lat)).take d) ≤ lat := by
  rw [midLat_eq hd.le]
  refine testBit_iff_middle (P := fun m => m ≤ lat) (clip_lt _) hd fun m h0 h1 => ?_
  push_cast
  exact (le_clip_iff (by norm_num) h0 h1).trans (border_le_iff (h := 900000000)).symm

lemma gridXBelow_testBit (hd : d < maxDepth) (lon : ℤ) :
    (gridXBelow lon).testBit (maxDepth - 1 - d) = true ↔
      midLon ((gridDigits (gridXBelow lon) y).take d) < lon := by
  rw [midLon_eq hd.le]
  refine testBit_iff_middle (P := fun m => m < lon) (clip_lt _) hd fun m h0 h1 => ?_
  push_cast
  exact (le_clip_iff (by norm_num) h0 h1).trans (border_lt_iff (h := 1800000000)).symm

lemma gridYBelow_testBit (hd : d < maxDepth) (lat : ℤ) :
    (gridYBelow lat).testBit (maxDepth - 1 - d) = true ↔
      midLat ((gridDigits x (gridYBelow lat)).take d) < lat := by
  rw [midLat_eq hd.le]
  refine testBit_iff_middle (P := fun m => m < lat) (clip_lt _) hd fun m h0 h1 => ?_
  push_cast
  exact (le_clip_iff (by norm_num) h0 h1).trans (border_lt_iff (h := 900000000)).symm

/-- The children of a cell that have the whole box, when the cell itself has it. -/
lemma bboxContains_quarter {c : Cell} (hc : bboxContains (cellBBox c)
    (boxOf b) = true) (e : Digit) : bboxContains (quarter (cellBBox c) e) (boxOf b) =
      ((if eastern e then decide (midLon c ≤ b.xmin) else !decide (midLon c < b.xmax)) &&
        (if northern e then decide (midLat c ≤ b.ymin) else !decide (midLat c < b.ymax))) := by
  simp only [bboxContains, boxOf, ge_iff_le, decide_eq_true_eq] at hc
  obtain ⟨h1, h2, h3, h4⟩ := hc
  have hlon : ((cellBBox c).west + (cellBBox c).east) / 2 = midLon c := rfl
  have hlat : ((cellBBox c).south + (cellBBox c).north) / 2 = midLat c := rfl
  rw [Bool.eq_iff_iff]
  have hdigit : ∀ e : Digit, e = 0 ∨ e = 1 ∨ e = 2 ∨ e = 3 := by decide
  rcases hdigit e with rfl | rfl | rfl | rfl <;>
    simp [bboxContains, quarter, eastern, northern, boxOf, hlon, hlat, h1, h2, h3, h4, and_comm]

/-- The children left over when in each direction the upper half and the lower half have the box
or not. -/
def childrenLeft (e₁ e₂ n₁ n₂ : Bool) : List Digit :=
  ([0, 1, 2, 3] : List Digit).filter fun e =>
    (if eastern e then e₁ else !e₂) && (if northern e then n₁ else !n₂)

lemma childrenLeft_same (x y i : ℕ) :
    childrenLeft (x.testBit i) (x.testBit i) (y.testBit i) (y.testBit i) = [digitAt x y i] := by
  unfold digitAt
  cases x.testBit i <;> cases y.testBit i <;> rfl

lemma childrenLeft_ne {x' y' i : ℕ} (h : digitAt x y i ≠ digitAt x' y' i) (e : Digit) :
    childrenLeft (x.testBit i) (x'.testBit i) (y.testBit i) (y'.testBit i) ≠ [e] := by
  unfold digitAt at h
  intro hone
  have hlen := congrArg List.length hone
  revert h hlen
  cases x.testBit i <;> cases x'.testBit i <;> cases y.testBit i <;> cases y'.testBit i <;>
    simp [childrenLeft, eastern, northern]

lemma testBit_of_digitAt {x' y' i : ℕ} (h : digitAt x y i = digitAt x' y' i) :
    x.testBit i = x'.testBit i ∧ y.testBit i = y'.testBit i := by
  rw [← eastern_digitAt x y, ← eastern_digitAt x' y', ← northern_digitAt x y,
    ← northern_digitAt x' y', h]
  exact ⟨rfl, rfl⟩

lemma cellBBox_snoc (c : Cell) (e : Digit) : cellBBox (c ++ [e]) = quarter (cellBBox c) e := by
  simp [cellBBox, List.foldl_append]

/-- As long as the corners have the same digits, the next digits say which children have the
whole box. -/
lemma children_eq (hd : d < maxDepth)
    (htake : (pointDigits (southWest b)).take d = (pointDigitsBelow (northEast b)).take d)
    (hin : bboxContains (cellBBox ((pointDigits (southWest b)).take d)) (boxOf b) = true) :
    (([0, 1, 2, 3] : List Digit).filter fun e =>
      bboxContains (quarter (cellBBox ((pointDigits (southWest b)).take d)) e) (boxOf b)) =
      childrenLeft ((gridX b.xmin).testBit (maxDepth - 1 - d))
        ((gridXBelow b.xmax).testBit (maxDepth - 1 - d)) ((gridY b.ymin).testBit (maxDepth - 1 - d))
        ((gridYBelow b.ymax).testBit (maxDepth - 1 - d)) := by
  have e₁ := gridX_testBit (y := gridY b.ymin) hd b.xmin
  have n₁ := gridY_testBit (x := gridX b.xmin) hd b.ymin
  have e₂ := gridXBelow_testBit (y := gridYBelow b.ymax) hd b.xmax
  have n₂ := gridYBelow_testBit (x := gridXBelow b.xmax) hd b.ymax
  rw [show gridDigits (gridX b.xmin) (gridY b.ymin) = pointDigits (southWest b) from rfl] at e₁ n₁
  rw [show gridDigits (gridXBelow b.xmax) (gridYBelow b.ymax) = pointDigitsBelow
    (northEast b) from rfl, ← htake] at e₂ n₂
  have h1 : decide (midLon ((pointDigits (southWest b)).take d) ≤ b.xmin) =
      (gridX b.xmin).testBit (maxDepth - 1 - d) := by rw [Bool.eq_iff_iff, decide_eq_true_iff, e₁]
  have h2 : decide (midLon ((pointDigits (southWest b)).take d) < b.xmax) =
      (gridXBelow b.xmax).testBit (maxDepth - 1 - d) := by
    rw [Bool.eq_iff_iff, decide_eq_true_iff, e₂]
  have h3 : decide (midLat ((pointDigits (southWest b)).take d) ≤ b.ymin) =
      (gridY b.ymin).testBit (maxDepth - 1 - d) := by rw [Bool.eq_iff_iff, decide_eq_true_iff, n₁]
  have h4 : decide (midLat ((pointDigits (southWest b)).take d) < b.ymax) =
      (gridYBelow b.ymax).testBit (maxDepth - 1 - d) := by
    rw [Bool.eq_iff_iff, decide_eq_true_iff, n₂]
  rw [childrenLeft, ← h1, ← h2, ← h3, ← h4]
  exact congrArg (List.filter · _) (funext fun e => bboxContains_quarter hin e)

/-- Where the common digits of two keys end. -/
lemma lt_commonPrefix_iff {u v : Cell} {d : ℕ} (hu : d < u.length) (hv : d < v.length)
    (h : d ≤ commonPrefix u v) : d < commonPrefix u v ↔ u[d] = v[d] := by
  induction u generalizing v d with
  | nil => simp at hu
  | cons a u ih =>
    rcases v with _ | ⟨c, v⟩
    · simp at hv
    unfold commonPrefix at h ⊢
    rcases d with _ | d
    · by_cases hac : a = c
      · simp [hac]
      · simp [hac]
    · by_cases hac : a = c
      · simp only [hac, if_true, List.length_cons, List.getElem_cons_succ] at hu hv h ⊢
        rw [Nat.add_lt_add_iff_right]
        exact ih (by omega) (by omega) (by omega)
      · simp [hac] at h

/-- The next common digit names the only child that has the whole box. -/
lemma children_one (hd : d < (pointDigits (southWest b)).length)
    (h : d < commonPrefix (pointDigits (southWest b)) (pointDigitsBelow (northEast b)))
    (hin : bboxContains (cellBBox ((pointDigits (southWest b)).take d)) (boxOf b) = true) :
    (([0, 1, 2, 3] : List Digit).filter fun e =>
      bboxContains (quarter (cellBBox ((pointDigits (southWest b)).take d)) e) (boxOf b)) =
      [(pointDigits (southWest b))[d]] := by
  have hlt : d < maxDepth := length_pointDigits (southWest b) ▸ hd
  have hd' : d < (pointDigitsBelow (northEast b)).length :=
    (length_gridDigits (x := gridXBelow b.xmax) (y := gridYBelow b.ymax)).symm ▸ hlt
  have hsw : (pointDigits (southWest b))[d] =
      digitAt (gridX b.xmin) (gridY b.ymin) (maxDepth - 1 - d) := getElem_gridDigits hd
  have hne : (pointDigitsBelow (northEast b))[d] =
      digitAt (gridXBelow b.xmax) (gridYBelow b.ymax) (maxDepth - 1 - d) := getElem_gridDigits hd'
  have hsame := (lt_commonPrefix_iff hd hd' h.le).mp h
  obtain ⟨hx, hy⟩ := testBit_of_digitAt (hsw.symm.trans (hsame.trans hne))
  rw [children_eq hlt (take_of_le_commonPrefix h.le) hin, ← hx, ← hy, childrenLeft_same]
  exact congrArg (fun e => [e]) hsw.symm

/-- Where the common digits end, no child or more than one has the whole box. -/
lemma children_not_one (hlt : d < maxDepth)
    (h : commonPrefix (pointDigits (southWest b)) (pointDigitsBelow (northEast b)) = d)
    (hin : bboxContains (cellBBox ((pointDigits (southWest b)).take d))
      (boxOf b) = true) (e : Digit) :
    (([0, 1, 2, 3] : List Digit).filter fun e =>
      bboxContains (quarter (cellBBox ((pointDigits (southWest b)).take d)) e) (boxOf b)) ≠ [e] := by
  have hd : d < (pointDigits (southWest b)).length := (length_pointDigits (southWest b)).symm ▸ hlt
  have hd' : d < (pointDigitsBelow (northEast b)).length :=
    (length_gridDigits (x := gridXBelow b.xmax) (y := gridYBelow b.ymax)).symm ▸ hlt
  have hdiff : (pointDigits (southWest b))[d] ≠ (pointDigitsBelow (northEast b))[d] := fun heq =>
    absurd ((lt_commonPrefix_iff hd hd' h.ge).mpr heq) (by omega)
  have hsw : (pointDigits (southWest b))[d] =
      digitAt (gridX b.xmin) (gridY b.ymin) (maxDepth - 1 - d) := getElem_gridDigits hd
  have hne : (pointDigitsBelow (northEast b))[d] =
      digitAt (gridXBelow b.xmax) (gridYBelow b.ymax) (maxDepth - 1 - d) := getElem_gridDigits hd'
  rw [children_eq hlt (take_of_le_commonPrefix h.ge) hin]
  exact childrenLeft_ne (fun heq => hdiff (hsw.trans (heq.trans hne.symm))) e

lemma snapToAncestorDepth_eq (c : Cell) :
    snapToAncestorDepth c = c.take (roundDepth ancestorDepths c.length) := by
  have hin : 0 ∈ ancestorDepths.filter (· ≤ c.length) :=
    List.mem_filter.mpr ⟨by decide, by simp⟩
  obtain ⟨m, hm⟩ := Option.isSome_iff_exists.mp
    (List.isSome_max?_of_ne_nil (List.ne_nil_of_mem hin))
  rw [snapToAncestorDepth, roundDepth, hm, Option.some_or]

lemma roundDepth_ancestorDepths_le (n : ℕ) : roundDepth ancestorDepths n ≤ n := by
  have hin : 0 ∈ ancestorDepths.filter (· ≤ n) := List.mem_filter.mpr ⟨by decide, by simp⟩
  obtain ⟨m, hm⟩ := Option.isSome_iff_exists.mp
    (List.isSome_max?_of_ne_nil (List.ne_nil_of_mem hin))
  rw [roundDepth, hm, Option.some_or, Option.getD_some]
  simpa using (List.mem_filter.mp (List.max?_mem hm)).2

/-- What the walk gives: a leaf on the way, or the stop rounded to an allowed depth. -/
def Walked (leaves : List Cell) (digits : Cell) (first stop : ℕ) (out : Cell) : Prop :=
  (out ∈ leaves ∧ out <+: digits ∧ out.length ≤ stop) ∨
    ((∀ n, first ≤ n → n ≤ stop → digits.take n ∉ leaves) ∧
      out = (digits.take stop).take (roundDepth ancestorDepths stop))

lemma Walked.of_leaf {digits : Cell} (first : ℕ) {stop : ℕ} (h : digits.take first ∈ leaves)
    (hf : first ≤ stop) : Walked leaves digits first stop (digits.take first) :=
  Or.inl ⟨h, List.take_prefix _ _, by rw [List.length_take]; omega⟩

lemma Walked.of_stop {digits : Cell} (stop : ℕ) (h : digits.take stop ∉ leaves)
    (hs : stop ≤ digits.length) :
    Walked leaves digits stop stop (snapToAncestorDepth (digits.take stop)) := by
  refine Or.inr ⟨fun n h1 h2 => ?_, ?_⟩
  · rwa [le_antisymm h2 h1]
  · rw [snapToAncestorDepth_eq, List.length_take, Nat.min_eq_left hs]

/-- One level more above the walk. -/
lemma Walked.step {digits out : Cell} {first stop : ℕ}
    (h : Walked leaves digits (first + 1) stop out)
    (hleaf : digits.take first ∉ leaves) : Walked leaves digits first stop out := by
  rcases h with h | ⟨h, hout⟩
  · exact Or.inl h
  · refine Or.inr ⟨fun n h1 h2 => ?_, hout⟩
    rcases h1.eq_or_lt with rfl | hlt
    · exact hleaf
    · exact h n hlt h2

/-- **Where the walk of a box within the world ends**, from every cell on its way: no further
than cells have the whole box, and no deeper than the leaves go. -/
lemma walked (leaves : List Cell) (left : ℕ) (hmd : d + left ≤ maxDepth)
    (hd : d ≤ commonPrefix (pointDigits (southWest b)) (pointDigitsBelow (northEast b)))
    (hin : bboxContains (cellBBox ((pointDigits (southWest b)).take d)) (boxOf b) = true) :
    Walked leaves (pointDigits (southWest b)) d
      (min (d + left) (commonPrefix (pointDigits (southWest b)) (pointDigitsBelow (northEast b))))
      (walkDown leaves (boxOf b) left ((pointDigits (southWest b)).take d)
        (cellBBox ((pointDigits (southWest b)).take d))) := by
  have hlen := length_pointDigits (southWest b)
  induction left generalizing d with
  | zero =>
    rw [walkDown, Nat.add_zero, Nat.min_eq_left hd]
    split
    · exact Walked.of_leaf d ‹_› le_rfl
    · exact Walked.of_stop d ‹_› (by omega)
  | succ left ih =>
    rw [walkDown]
    split
    · exact Walked.of_leaf d ‹_› (by omega)
    rename_i hleaf
    by_cases hnext : d < commonPrefix (pointDigits (southWest b)) (pointDigitsBelow (northEast b))
    · have hlt : d < (pointDigits (southWest b)).length := by omega
      have hone := children_one hlt hnext hin
      have hmem := List.mem_singleton_self (pointDigits (southWest b))[d]
      rw [← hone] at hmem
      have hbox : quarter (cellBBox ((pointDigits (southWest b)).take d))
          (pointDigits (southWest b))[d] = cellBBox ((pointDigits (southWest b)).take (d + 1)) := by
        rw [← List.take_append_getElem hlt, cellBBox_snoc]
      rw [hone]
      simp only [List.take_append_getElem hlt, hbox]
      have hrec := ih (d := d + 1) (by omega) hnext (hbox ▸ (List.mem_filter.mp hmem).2)
      rw [show d + (left + 1) = d + 1 + left by omega]
      exact hrec.step hleaf
    · have hstop : commonPrefix (pointDigits (southWest b))
          (pointDigitsBelow (northEast b)) = d := by
        omega
      rw [hstop, Nat.min_eq_right (by omega)]
      split
      · rename_i e he
        exact absurd he (children_not_one (by omega) hstop hin e)
      · exact Walked.of_stop d hleaf (by omega)

/-- No child of the root has a box that goes beyond the world. -/
lemma walked_outside (hout : bboxContains world (boxOf b) = false) (depth : ℕ) :
    Walked leaves (pointDigits (southWest b)) 0 0 (containingCell leaves depth b) := by
  have hnone : (([0, 1, 2, 3] : List Digit).filter fun e =>
      bboxContains (quarter world e) (boxOf b)) = [] := by
    refine List.filter_eq_nil_iff.mpr fun e _ hc => ?_
    rw [Bool.eq_false_iff] at hout
    refine hout ?_
    simp only [bboxContains, decide_eq_true_eq] at hc ⊢
    obtain ⟨h1, h2, h3, h4⟩ := hc
    match e with
    | 0 | 1 | 2 | 3 =>
      simp only [quarter, world] at h1 h2 h3 h4 ⊢
      refine ⟨?_, ?_, ?_, ?_⟩ <;> linarith
  have hroot : (pointDigits (southWest b)).take 0 = [] := rfl
  unfold containingCell
  rcases depth with _ | depth
  · rw [walkDown]
    split
    · exact Walked.of_leaf 0 ‹_› le_rfl
    · exact Walked.of_stop 0 ‹_› (Nat.zero_le _)
  · rw [walkDown, hnone]
    split
    · exact Walked.of_leaf 0 ‹_› le_rfl
    · exact Walked.of_stop 0 ‹_› (Nat.zero_le _)

lemma walked_containingCell (leaves : List Cell) {depth : ℕ} (hd : depth ≤ maxDepth) (b : BBox) :
    Walked leaves (pointDigits (southWest b)) 0 (min depth (closedDepth b))
      (containingCell leaves depth b) := by
  unfold closedDepth
  split
  · rename_i hw
    have h := walked leaves (b := b) (d := 0) depth (by omega) (Nat.zero_le _) hw
    rwa [Nat.zero_add] at h
  · rw [Nat.min_zero]
    exact walked_outside (Bool.eq_false_iff.mpr ‹_›) depth

end Boxes

/-! ### Both placements -/

section Placements

variable {leaves : List Cell} {depths : List ℕ} {depth : ℕ} {b : BBox} {leaf : Cell}

/-- Of the leaves only one begins the digits of a point. -/
lemma leaf_unique (hl : LeavesOk leaves depth) {c digits : Cell} (hleaf : leaf ∈ leaves)
    (hc : c ∈ leaves) (h1 : leaf <+: digits) (h2 : c <+: digits) : c = leaf := by
  rcases List.prefix_or_prefix_of_prefix h1 h2 with h | h
  · exact (hl.prefixFree leaf hleaf c hc h).symm
  · exact hl.prefixFree c hc leaf hleaf h

/-- The extractor stops at the leaf with the lower corner when cells down to it have the box. -/
lemma containingCell_of_le (hl : LeavesOk leaves depth) (hd : depth ≤ maxDepth)
    (hleaf : leaf ∈ leaves) (hpre : leaf <+: pointDigits (southWest b))
    (h : leaf.length ≤ closedDepth b) : containingCell leaves depth b = leaf := by
  have hlen := hl.length leaf hleaf
  rcases walked_containingCell leaves hd b with ⟨h1, h2, -⟩ | ⟨h1, -⟩
  · exact leaf_unique hl hleaf h1 hpre h2
  · refine absurd ?_ (h1 leaf.length (Nat.zero_le _) (by omega))
    rwa [← List.prefix_iff_eq_take.mp hpre]

/-- Otherwise it rounds the depth down to which they have it. -/
lemma containingCell_of_lt (hl : LeavesOk leaves depth) (hd : depth ≤ maxDepth)
    (hleaf : leaf ∈ leaves) (hpre : leaf <+: pointDigits (southWest b))
    (h : closedDepth b < leaf.length) : containingCell leaves depth b =
      (pointDigits (southWest b)).take (roundDepth ancestorDepths (closedDepth b)) := by
  have hlen := hl.length leaf hleaf
  have hmin : min depth (closedDepth b) = closedDepth b := by omega
  rcases walked_containingCell leaves hd b with ⟨h1, h2, h3⟩ | ⟨-, h2⟩
  · rw [leaf_unique hl hleaf h1 hpre h2] at h3
    omega
  · rw [h2, hmin, List.take_take, Nat.min_eq_left (roundDepth_ancestorDepths_le _)]

/-- In a gap it does the same. -/
lemma containingCell_of_gap (hd : depth ≤ maxDepth)
    (hgap : ∀ leaf ∈ leaves, ¬ leaf <+: pointDigits (southWest b)) :
    containingCell leaves depth b =
      (pointDigits (southWest b)).take (roundDepth ancestorDepths (min depth (closedDepth b))) := by
  rcases walked_containingCell leaves hd b with ⟨h1, h2, -⟩ | ⟨-, h2⟩
  · exact absurd h2 (hgap _ h1)
  · rw [h2, List.take_take, Nat.min_eq_left (roundDepth_ancestorDepths_le _)]

lemma containingCellV2_eq : containingCellV2 leaves depths depth b =
    (pointDigits (southWest b)).take (min depth
      (if (leafForQk leaves (pointToQk (southWest b))).length ≤ min depth (sharedDepth b) ∧
          containsQk (leafForQk leaves (pointToQk (southWest b))) (pointToQk (southWest b)) then
        (leafForQk leaves (pointToQk (southWest b))).length
      else roundDepth depths (min (min depth (sharedDepth b))
        (leafForQk leaves (pointToQk (southWest b))).length))) := by
  have hcut : ∀ (p n : ℕ) (C : Prop) [Decidable C], (if min p n = n ∧ C then min p n
      else roundDepth depths (min p n)) = if n ≤ p ∧ C then n else roundDepth depths (min p n) := by
    intro p n C _
    by_cases h : n ≤ p
    · simp only [Nat.min_eq_right h, h, true_and]
    · rw [if_neg (fun hc => h (by omega)), if_neg (fun hc => h hc.1)]
  unfold containingCellV2
  simp only
  rw [List.take_take, hcut, min_comm]
  rfl

/-- Where the digits of a point are cut the depth can be read off. -/
lemma take_eq_take_iff {n k : ℕ} {p : Point} (hn : n ≤ maxDepth) (hk : k ≤ maxDepth) :
    (pointDigits p).take n = (pointDigits p).take k ↔ n = k := by
  refine ⟨fun h => ?_, fun h => by rw [h]⟩
  have hlen := congrArg List.length h
  rw [List.length_take, List.length_take, length_pointDigits] at hlen
  omega

/-- The extractor and the updater place a box alike.

The updater must have a depth to round to. Where a leaf has the lower corner of the box, either
both get down to the leaf, or neither does and they round to the same depth. Where none has it,
what the updater makes of the depth of the neighbouring leaf is the depth the extractor rounds
to; before the first leaf the updater takes the depth of the neighbour for that of a leaf. -/
structure SamePlacement (leaves : List Cell) (depths : List ℕ) (depth : ℕ) (b : BBox) : Prop where
  rounds : depths ≠ []
  leaf : ∀ leaf ∈ leaves, leaf <+: pointDigits (southWest b) → leaf.length ≤ closedDepth b →
    leaf.length ≤ sharedDepth b ∨ min depth (roundDepth depths (sharedDepth b)) = leaf.length
  above : ∀ leaf ∈ leaves, leaf <+: pointDigits (southWest b) → closedDepth b < leaf.length →
    sharedDepth b < leaf.length ∧
      min depth (roundDepth depths (sharedDepth b)) = roundDepth ancestorDepths (closedDepth b)
  gap : (∀ leaf ∈ leaves, ¬ leaf <+: pointDigits (southWest b)) →
    let near := leafForQk leaves (pointToQk (southWest b))
    let shared := min depth (sharedDepth b)
    (if near.length ≤ shared ∧ ∀ leaf ∈ leaves, pointToQk (southWest b) < (qkRange leaf).1
      then near.length else min depth (roundDepth depths (min shared near.length))) =
        roundDepth ancestorDepths (min depth (closedDepth b))

/-- The cells come out the same where a leaf has the lower corner of the box. -/
lemma same_iff_of_leaf (hl : LeavesOk leaves depth) (hd : depth ≤ maxDepth) (hleaf : leaf ∈ leaves)
    (hpre : leaf <+: pointDigits (southWest b)) :
    containingCell leaves depth b = containingCellV2 leaves depths depth b ↔
      (leaf.length ≤ closedDepth b → leaf.length ≤ sharedDepth b ∨
          min depth (roundDepth depths (sharedDepth b)) = leaf.length) ∧
        (closedDepth b < leaf.length → sharedDepth b < leaf.length ∧
          min depth (roundDepth depths (sharedDepth b)) =
            roundDepth ancestorDepths (closedDepth b)) := by
  have hlen := hl.length leaf hleaf
  have hcov : Covers leaf (pointToQk (southWest b)) :=
    (covers_iff (by omega) (length_pointDigits _)).mpr hpre
  have hfind : leafForQk leaves (pointToQk (southWest b)) = leaf :=
    leafForQk_of_covers hl.prefixFree (fun c hc => (hl.length c hc).trans hd) hleaf hcov
  have hcontains : containsQk leaf (pointToQk (southWest b)) = true := decide_eq_true hcov.2
  have hself : leaf = (pointDigits (southWest b)).take leaf.length :=
    List.prefix_iff_eq_take.mp hpre
  have hround := roundDepth_ancestorDepths_le (closedDepth b)
  rw [containingCellV2_eq, hfind]
  simp only [hcontains, and_true]
  rcases Nat.lt_or_ge (closedDepth b) leaf.length with hc | hc
  · rw [containingCell_of_lt hl hd hleaf hpre hc, take_eq_take_iff (by omega) (by omega)]
    split
    · rename_i hs
      refine ⟨fun h => by omega, fun h => absurd (h.2 hc).1 (by omega)⟩
    · rename_i hs
      rw [show min (min depth (sharedDepth b)) leaf.length = sharedDepth b by omega]
      exact ⟨fun h => ⟨fun h' => by omega, fun _ => ⟨by omega, h.symm⟩⟩, fun h => (h.2 hc).2.symm⟩
  · rw [containingCell_of_le hl hd hleaf hpre hc]
    nth_rewrite 1 [hself]
    rw [take_eq_take_iff (by omega) (by omega)]
    split
    · rename_i hs
      exact ⟨fun _ => ⟨fun _ => Or.inl (by omega), fun h => by omega⟩, fun _ => by omega⟩
    · rename_i hs
      rw [show min (min depth (sharedDepth b)) leaf.length = sharedDepth b by omega]
      refine ⟨fun h => ⟨fun _ => Or.inr h.symm, fun h => by omega⟩, fun h => ?_⟩
      exact ((h.1 hc).resolve_left (by omega)).symm

/-- In a gap the neighbour counts as a leaf of the corner exactly when it lies after it. -/
lemma containsQk_iff_of_gap (hl : LeavesOk leaves depth) (hd : depth ≤ maxDepth)
    (hgap : ∀ leaf ∈ leaves, ¬ leaf <+: pointDigits (southWest b)) :
    containsQk (leafForQk leaves (pointToQk (southWest b))) (pointToQk (southWest b)) = true ↔
      ∀ leaf ∈ leaves, pointToQk (southWest b) < (qkRange leaf).1 := by
  have hcov := fun leaf hleaf => (covers_iff ((hl.length leaf hleaf).trans hd)
    (length_pointDigits (southWest b))).not.mpr (hgap leaf hleaf)
  obtain ⟨hmem, hspec⟩ := looked_leafForQk hl.nonempty (pointToQk (southWest b))
  rw [containsQk, decide_eq_true_iff]
  constructor
  · intro h
    rcases hspec with ⟨h1, -⟩ | ⟨h1, -⟩
    · exact absurd ⟨h1, h⟩ (hcov _ hmem)
    · exact h1
  · intro h
    have hlo := h _ hmem
    have hpos : 0 < 4 ^ (maxDepth - (leafForQk leaves (pointToQk (southWest b))).length) := by
      positivity
    rw [qkRange_eq] at hlo ⊢
    simp only at hlo ⊢
    omega

/-- The cells come out the same in a gap. -/
lemma same_iff_of_gap (hl : LeavesOk leaves depth) (hd : depth ≤ maxDepth)
    (hgap : ∀ leaf ∈ leaves, ¬ leaf <+: pointDigits (southWest b)) :
    containingCell leaves depth b = containingCellV2 leaves depths depth b ↔
      (let near := leafForQk leaves (pointToQk (southWest b))
        let shared := min depth (sharedDepth b)
        (if near.length ≤ shared ∧ ∀ leaf ∈ leaves, pointToQk (southWest b) < (qkRange leaf).1
          then near.length else min depth (roundDepth depths (min shared near.length))) =
          roundDepth ancestorDepths (min depth (closedDepth b))) := by
  have hmem : leafForQk leaves (pointToQk (southWest b)) ∈ leaves := leafForQk_mem hl.nonempty _
  have hlen := hl.length _ hmem
  have hround := roundDepth_ancestorDepths_le (min depth (closedDepth b))
  have hcontains := containsQk_iff_of_gap hl hd hgap
  rw [containingCell_of_gap hd hgap, containingCellV2_eq]
  simp only [hcontains]
  rw [take_eq_take_iff (by omega) (by omega), eq_comm]
  split
  · rw [Nat.min_eq_right hlen]
  · rfl

/-- **Extractor and updater.** For the leaves that any nodes give, any depths to round to and any
box, the two place the box in the same cell exactly within the depth of the grid and under the
condition above; and within that depth they place every point in the same leaf. -/
theorem placements_same_iff (nodes : List Point) (n depth : ℕ) (depths : List ℕ) (b : BBox) :
    (containingCellsV2 (selectLeafCells nodes n depth) depths depth b =
        some (containingCell (selectLeafCells nodes n depth) depth b) ↔
      depth ≤ maxDepth ∧ SamePlacement (selectLeafCells nodes n depth) depths depth b) ∧
    (depth ≤ maxDepth → ∀ p, leafForPoint (selectLeafCells nodes n depth) depth p =
      pointCell (selectLeafCells nodes n depth) p) := by
  refine ⟨?_, fun hd => leafForPoint_eq (leavesOk_selectLeafCells nodes n hd) hd⟩
  by_cases hd : depth ≤ maxDepth
  swap
  · have hnone : containingCellsV2 (selectLeafCells nodes n depth) depths depth b = none :=
      if_pos (.inl (not_le.mp hd))
    exact iff_of_false (by rw [hnone]; simp) fun h => hd h.1
  have hl := leavesOk_selectLeafCells nodes n hd
  rw [and_iff_right hd]
  generalize selectLeafCells nodes n depth = leaves at hl
  unfold containingCellsV2
  constructor
  · intro h
    split at h
    · cases h
    rename_i hr
    have h := (Option.some.inj h).symm
    refine ⟨fun hnil => hr (Or.inr hnil), fun leaf hleaf hpre => ?_, fun leaf hleaf hpre => ?_,
      fun hgap => ?_⟩
    · exact ((same_iff_of_leaf hl hd hleaf hpre).mp h).1
    · exact ((same_iff_of_leaf hl hd hleaf hpre).mp h).2
    · exact (same_iff_of_gap hl hd hgap).mp h
  · rintro ⟨h1, h2, h3, h4⟩
    rw [if_neg (by rintro (h | h) <;> [omega; exact h1 h])]
    by_cases hcov : ∃ leaf ∈ leaves, leaf <+: pointDigits (southWest b)
    · obtain ⟨leaf, hleaf, hpre⟩ := hcov
      rw [(same_iff_of_leaf hl hd hleaf hpre).mpr ⟨h2 leaf hleaf hpre, h3 leaf hleaf hpre⟩]
    · have hgap : ∀ leaf ∈ leaves, ¬ leaf <+: pointDigits (southWest b) :=
        fun leaf hleaf hpre => hcov ⟨leaf, hleaf, hpre⟩
      rw [(same_iff_of_gap hl hd hgap).mpr (h4 hgap)]

/-- Two nodes, one on each side of the meridian: both northern quarters are leaves, and a box
inside the western one is placed alike. -/
theorem placement_inside :
    SamePlacement (selectLeafCells [⟨100000000, -100000000⟩, ⟨100000000, 100000000⟩] 1 2)
        [0, 3, 6, 9, 12] 2 ⟨100000000, -200000000, 200000000, -100000000⟩ ∧
      leafForPoint (selectLeafCells [⟨100000000, -100000000⟩, ⟨100000000, 100000000⟩] 1 2) 2
          ⟨100000000, 0⟩ =
        pointCell (selectLeafCells [⟨100000000, -100000000⟩, ⟨100000000, 100000000⟩] 1 2)
          ⟨100000000, 0⟩ :=
  ⟨((placements_same_iff _ 1 2 _ _).1.mp (by decide +kernel)).2,
    (placements_same_iff _ 1 2 [0] ⟨0, 0, 0, 0⟩).2 (by decide) _⟩

/-- A box in the western leaf that ends on the meridian: the extractor places it in the leaf, the
updater in the root. -/
theorem placement_on_meridian :
    BoxOk ⟨100000000, -200000000, 200000000, 0⟩ ∧ 2 ≤ maxDepth ∧
      containingCell (selectLeafCells [⟨100000000, -100000000⟩, ⟨100000000, 100000000⟩] 1 2) 2
        ⟨100000000, -200000000, 200000000, 0⟩ = [0] ∧
      containingCellsV2 (selectLeafCells [⟨100000000, -100000000⟩, ⟨100000000, 100000000⟩] 1 2)
        [0, 3, 6, 9, 12] 2 ⟨100000000, -200000000, 200000000, 0⟩ = some [] :=
  ⟨⟨by decide, by decide, by decide, by decide⟩, by decide, by decide +kernel, by decide⟩

end Placements

end OsmParquet.RawPlacement
