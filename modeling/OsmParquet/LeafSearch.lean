import Mathlib.Data.List.Lex
import Mathlib.Order.Fin.Basic
import OsmParquet.RawPlacement

/-!
The index over a set of leaves, and the two ways to find the leaf of a point.

The index keeps where each leaf starts and ends, sorted by the start. A search in the sorted
starts gives the last leaf that begins at or before a quadkey; it is clipped to the list, so
that a quadkey before every leaf gets the first one. The other way walks down from the root
and takes at each level the quarter the point lies in, until the key is a leaf.

Where a leaf covers a point both give this leaf.
-/

namespace OsmParquet.LeafSearch

open OsmParquet.Rows OsmParquet.Cells OsmParquet.CellTree OsmParquet.RawPlacement

/-! ### The index -/

/-- Keys in the order of their texts: `root` comes after every digit. -/
def keyLe (a b : Cell) : Bool :=
  if b = [] then true else if a = [] then false else decide (a ≤ b)

/-- Starts, ends and keys of the leaves, in the order of the starts. -/
structure LeafIndex where
  los : List ℕ
  his : List ℕ
  keysByLo : List Cell
  deriving DecidableEq

def leafIndex (leaves : List Cell) : LeafIndex :=
  let sorted := leaves.dedup.insertionSort fun a b => keyLe a b
  let ranges := (sorted.map fun k => ((qkRange k).1, (qkRange k).2, k)).insertionSort
    fun s t => s.1 ≤ t.1
  ⟨ranges.map (·.1), ranges.map (·.2.1), ranges.map (·.2.2)⟩

/-- The place after the last of the sorted values that is not greater. -/
def searchsortedRight (sorted : List ℕ) (v : ℕ) : ℕ := sorted.findIdx fun x => v < x

def clip (v lo hi : ℤ) : ℤ := min (max v lo) hi

/-- The place before the one a search gives, clipped to the list. -/
def searchClipped (sorted : List ℕ) (v : ℕ) : ℕ :=
  (clip ((searchsortedRight sorted v : ℤ) - 1) 0 ((sorted.length : ℤ) - 1)).toNat

def LeafIndex.leafIndexForQk (ix : LeafIndex) (qk : ℕ) : ℕ := searchClipped ix.los qk

/-- Whether a quadkey is in the range of the leaf at a place: only the end is compared. -/
def LeafIndex.containsQk (ix : LeafIndex) (idx qk : ℕ) : Bool := qk ≤ (ix.his[idx]?).getD 0

def LeafIndex.leafForQk (ix : LeafIndex) (qk : ℕ) : Cell :=
  (ix.keysByLo[ix.leafIndexForQk qk]?).getD []

def pointCellsNp (leaves : List Cell) (points : List Point) : List Cell :=
  points.map fun p => (leafIndex leaves).leafForQk (pointToQk p)

section Index

variable {leaves : List Cell} {depths : List ℕ}

/-- What a clipped search among sorted values gives: the last one that is not greater, and the
first one where there is none. -/
lemma searchClipped_spec {sorted : List ℕ} (hs : sorted.Pairwise (· ≤ ·))
    (hne : sorted ≠ []) (v : ℕ) : ∃ x, sorted[searchClipped sorted v]? = some x ∧
      ((x ≤ v ∧ ∀ y ∈ sorted, y ≤ v → y ≤ x) ∨ ((∀ y ∈ sorted, v < y) ∧ ∀ y ∈ sorted, x ≤ y)) := by
  have hsort : sorted.SortedLE := hs.sortedLE
  have hpos : 0 < sorted.length := List.length_pos_iff.mpr hne
  have hplace := findIdx_sorted hsort (v + 1)
  have hile : (sorted.findIdx fun x => v < x) ≤ sorted.length := List.findIdx_le_length
  unfold searchClipped searchsortedRight clip
  simp only [Nat.succ_le_iff] at hplace
  generalize (sorted.findIdx fun x => v < x) = i at hplace hile ⊢
  rcases i with _ | k
  · have hzero : (min (max (((0 : ℕ) : ℤ) - 1) 0) ((sorted.length : ℤ) - 1)).toNat = 0 := by omega
    rw [hzero]
    refine ⟨sorted[0], List.getElem?_eq_getElem hpos, Or.inr ⟨?_, ?_⟩⟩
    · intro y hy
      obtain ⟨j, hj, rfl⟩ := List.getElem_of_mem hy
      have h := (hplace j hj).not.mpr (Nat.not_lt_zero j)
      omega
    · intro y hy
      obtain ⟨j, hj, rfl⟩ := List.getElem_of_mem hy
      exact hsort.getElem_le_getElem_of_le (Nat.zero_le j)
  · have hk : (min (max (((k + 1 : ℕ) : ℤ) - 1) 0) ((sorted.length : ℤ) - 1)).toNat = k := by omega
    have hlt : k < sorted.length := by omega
    rw [hk]
    refine ⟨sorted[k], List.getElem?_eq_getElem hlt, Or.inl ⟨?_, ?_⟩⟩
    · have h := (hplace k hlt).mpr (Nat.lt_succ_self k)
      omega
    · intro y hy hle
      obtain ⟨j, hj, rfl⟩ := List.getElem_of_mem hy
      have h := (hplace j hj).mp (by omega)
      exact hsort.getElem_le_getElem_of_le (by omega)

/-- The index holds each leaf with its range, sorted by the start of the range. -/
lemma leafIndex_eq (leaves : List Cell) : ∃ keys : List Cell, (∀ c, c ∈ keys ↔ c ∈ leaves) ∧
    (keys.map fun k => (qkRange k).1).Pairwise (· ≤ ·) ∧
    leafIndex leaves = ⟨keys.map fun k => (qkRange k).1,
      keys.map fun k => (qkRange k).2, keys⟩ := by
  set sorted := leaves.dedup.insertionSort fun a b => keyLe a b with hsorted
  set entry : Cell → ℕ × ℕ × Cell := fun k => ((qkRange k).1, (qkRange k).2, k) with hentry
  set ranges := (sorted.map entry).insertionSort fun s t => s.1 ≤ t.1 with hranges
  have hmem : ∀ r, r ∈ ranges ↔ ∃ k ∈ sorted, entry k = r := fun r => by
    rw [hranges, List.mem_insertionSort, List.mem_map]
  have hkeys : ranges = (ranges.map (·.2.2)).map entry := by
    rw [List.map_map]
    refine (List.map_id _).symm.trans (List.map_congr_left fun r hr => ?_)
    obtain ⟨k, -, rfl⟩ := (hmem r).mp hr
    rfl
  refine ⟨ranges.map (·.2.2), fun c => ?_, ?_, ?_⟩
  · have hin : c ∈ sorted ↔ c ∈ leaves := by
      rw [hsorted, List.mem_insertionSort, List.mem_dedup]
    rw [← hin, List.mem_map]
    constructor
    · rintro ⟨r, hr, rfl⟩
      obtain ⟨k, hk, rfl⟩ := (hmem r).mp hr
      exact hk
    · exact fun hc => ⟨entry c, (hmem _).mpr ⟨c, hc, rfl⟩, rfl⟩
  · have htotal : Std.Total fun s t : ℕ × ℕ × Cell => s.1 ≤ t.1 := ⟨fun _ _ => le_total _ _⟩
    have htrans : IsTrans (ℕ × ℕ × Cell) fun s t => s.1 ≤ t.1 := ⟨fun _ _ _ => le_trans⟩
    have hpair : ranges.Pairwise fun s t => s.1 ≤ t.1 := List.pairwise_insertionSort _ _
    rw [hkeys, List.pairwise_map] at hpair
    exact List.pairwise_map.mpr hpair
  · have hfields : leafIndex leaves = ⟨ranges.map (·.1), ranges.map (·.2.1), ranges.map (·.2.2)⟩ :=
      rfl
    have hlos : ranges.map (·.1) = (ranges.map (·.2.2)).map fun k => (qkRange k).1 := by
      nth_rewrite 1 [hkeys]
      rw [List.map_map]
      rfl
    have hhis : ranges.map (·.2.1) = (ranges.map (·.2.2)).map fun k => (qkRange k).2 := by
      nth_rewrite 1 [hkeys]
      rw [List.map_map]
      rfl
    rw [hfields, hlos, hhis]

/-- **The search in the index.** The place it gives is that of the last leaf that starts at or
before the quadkey, or of the first leaf; end and key at the place are those of this leaf. -/
lemma leafIndexForQk_spec (hp : PrefixFree leaves) (hl : ∀ c ∈ leaves, c.length ≤ maxDepth)
    (hne : leaves ≠ []) (qk : ℕ) :
    (leafIndex leaves).keysByLo[(leafIndex leaves).leafIndexForQk qk]? =
      some (leafForQk leaves qk) ∧ (leafIndex leaves).his[(leafIndex leaves).leafIndexForQk qk]? =
        some (qkRange (leafForQk leaves qk)).2 := by
  obtain ⟨keys, hmem, hsorted, hix⟩ := leafIndex_eq leaves
  have hne' : (keys.map fun k => (qkRange k).1) ≠ [] := by
    rw [ne_eq, List.map_eq_nil_iff]
    exact List.ne_nil_of_mem ((hmem _).mpr (List.head_mem hne))
  obtain ⟨lo, hlo, hspec⟩ := searchClipped_spec hsorted hne' qk
  rw [hix]
  unfold LeafIndex.leafIndexForQk
  simp only at hlo ⊢
  rw [List.getElem?_map, Option.map_eq_some_iff] at hlo
  obtain ⟨m, hm, rfl⟩ := hlo
  have hlooked : Looked (fun c => (qkRange c).1) leaves qk m := by
    have hin : ∀ l ∈ leaves, (qkRange l).1 ∈ keys.map fun k => (qkRange k).1 :=
      fun l hl => List.mem_map_of_mem ((hmem l).mpr hl)
    refine ⟨(hmem m).mp (List.mem_of_getElem? hm), ?_⟩
    rcases hspec with ⟨h1, h2⟩ | ⟨h1, h2⟩
    · exact Or.inl ⟨h1, fun l hl => h2 _ (hin l hl)⟩
    · exact Or.inr ⟨fun l hl => h1 _ (hin l hl), fun l hl => h2 _ (hin l hl)⟩
  have heq : m = leafForQk leaves qk :=
    Looked.unique (fun a ha b hb => lo_inj hp hl ha hb) hlooked (looked_leafForQk hne qk)
  rw [List.getElem?_map, hm, heq]
  exact ⟨rfl, rfl⟩

lemma leafIndex_leafForQk (hp : PrefixFree leaves) (hl : ∀ c ∈ leaves, c.length ≤ maxDepth)
    (hne : leaves ≠ []) (qk : ℕ) : (leafIndex leaves).leafForQk qk = leafForQk leaves qk := by
  rw [LeafIndex.leafForQk, (leafIndexForQk_spec hp hl hne qk).1, Option.getD_some]

lemma leafIndex_containsQk (hp : PrefixFree leaves) (hl : ∀ c ∈ leaves, c.length ≤ maxDepth)
    (hne : leaves ≠ []) (qk : ℕ) :
    (leafIndex leaves).containsQk ((leafIndex leaves).leafIndexForQk qk) qk =
      containsQk (leafForQk leaves qk) qk := by
  rw [LeafIndex.containsQk, (leafIndexForQk_spec hp hl hne qk).2, Option.getD_some, containsQk]

end Index

/-! ### The walk down -/

/-- The quarter of a box that a position lies in; on a border it is the eastern and northern one. -/
def quarterOf (b : Box) (lat lon : ℚ) : Digit :=
  let northHalf : Bool := lat ≥ (b.south + b.north) / 2
  let eastHalf : Bool := lon ≥ (b.west + b.east) / 2
  match northHalf, eastHalf with
  | true, false => 0
  | true, true => 1
  | false, false => 2
  | false, true => 3

/-- The walk down from a cell with a box, at most `left` levels. -/
def pointCellFrom (leaves : List Cell) (lat lon : ℚ) : ℕ → Cell → Box → Cell
  | 0, key, _ => key
  | left + 1, key, cur =>
    if key ∈ leaves then key
    else
      let digit := quarterOf cur lat lon
      pointCellFrom leaves lat lon left (key ++ [digit]) (quarter cur digit)

/-- The world in degrees. -/
def worldDegrees : Box := ⟨-90, -180, 90, 180⟩

/-- The leaf of a position in degrees. -/
def pointCell (leaves : List Cell) (lat lon : ℚ) : Cell :=
  pointCellFrom leaves lat lon maxDepth [] worldDegrees

/-- A box in the units of the coordinates, in degrees. -/
def degrees (b : Box) : Box :=
  ⟨b.south / 10000000, b.west / 10000000, b.north / 10000000, b.east / 10000000⟩

section Walk

variable {leaves : List Cell} {leaf : Cell} {p : Point}

lemma degrees_world : degrees world = worldDegrees := by
  unfold degrees world worldDegrees
  norm_num

lemma quarter_degrees (b : Box) (d : Digit) : quarter (degrees b) d = degrees (quarter b d) := by
  have hmid : ∀ x y : ℚ, (x / 10000000 + y / 10000000) / 2 = (x + y) / 2 / 10000000 := by
    intro x y
    ring
  match d with
  | 0 | 1 | 2 | 3 => simp only [quarter, degrees, hmid]

/-- **The walk takes the next digit of the quadkey.** -/
lemma quarterOf_eq {d : ℕ} (hd : d < (pointDigits p).length) :
    quarterOf (degrees (cellBBox ((pointDigits p).take d))) (p.lat / 10000000) (p.lon / 10000000) =
      (pointDigits p)[d] := by
  have hlt : d < maxDepth := length_pointDigits p ▸ hd
  have hgrid : gridDigits (gridX p.lon) (gridY p.lat) = pointDigits p := rfl
  have hx := gridX_testBit (y := gridY p.lat) hlt p.lon
  have hy := gridY_testBit (x := gridX p.lon) hlt p.lat
  rw [hgrid, midLon] at hx
  rw [hgrid, midLat] at hy
  have hten : (0 : ℚ) < 10000000 := by norm_num
  have hmid : ∀ x y v : ℚ, (v / 10000000 ≥ (x / 10000000 + y / 10000000) / 2) ↔
      (x + y) / 2 ≤ v := by
    intro x y v
    rw [ge_iff_le, show (x / 10000000 + y / 10000000) / 2 = (x + y) / 2 / 10000000 by ring,
      div_le_div_iff_of_pos_right hten]
  have hdigit : (pointDigits p)[d] = digitAt (gridX p.lon) (gridY p.lat) (maxDepth - 1 - d) :=
    getElem_gridDigits hd
  refine Eq.trans ?_ hdigit.symm
  rw [quarterOf, digitAt]
  simp only [degrees, hmid, ← hx, ← hy, Bool.decide_eq_true]
  cases (gridX p.lon).testBit (maxDepth - 1 - d) <;>
    cases (gridY p.lat).testBit (maxDepth - 1 - d) <;> rfl

/-- The walk along the quadkey of a point comes to the leaf that covers the point. -/
lemma pointCellFrom_eq (hp : PrefixFree leaves) (hleaf : leaf ∈ leaves)
    (hpre : leaf <+: pointDigits p) {left d : ℕ} (hd : d + left = maxDepth)
    (hle : d ≤ leaf.length) :
    pointCellFrom leaves (p.lat / 10000000) (p.lon / 10000000) left ((pointDigits p).take d)
      (degrees (cellBBox ((pointDigits p).take d))) = leaf := by
  have hlen : leaf.length ≤ maxDepth := by
    have h := hpre.length_le
    rwa [length_pointDigits] at h
  have hself : leaf = (pointDigits p).take leaf.length := List.prefix_iff_eq_take.mp hpre
  induction left generalizing d with
  | zero =>
    have hall : leaf.length = d := by omega
    rw [pointCellFrom, ← hall, ← hself]
  | succ left ih =>
    rw [pointCellFrom]
    split
    · rename_i hin
      refine hp _ hin leaf hleaf ?_
      rw [hself]
      exact List.take_prefix_take_left hle
    · rename_i hout
      have hlt : d < leaf.length := by
        refine lt_of_le_of_ne hle fun h => hout ?_
        rw [h, ← hself]
        exact hleaf
      have hin : d < (pointDigits p).length := by
        rw [length_pointDigits]
        omega
      simp only
      rw [quarterOf_eq hin, quarter_degrees, ← cellBBox_snoc, List.take_append_getElem hin]
      exact ih (by omega) hlt

/-- **Both ways to a leaf.** A point that a leaf covers is found in this leaf by the search in the
index and by the walk down. -/
lemma found_of_covers (hp : PrefixFree leaves) (hl : ∀ c ∈ leaves, c.length ≤ maxDepth)
    (hleaf : leaf ∈ leaves) (hcov : Covers leaf (pointToQk p)) :
    pointCellsNp leaves [p] = [leaf] ∧
      pointCell leaves (p.lat / 10000000) (p.lon / 10000000) = leaf := by
  have hpre : leaf <+: pointDigits p := (covers_iff (hl leaf hleaf) (length_pointDigits p)).mp hcov
  constructor
  · rw [pointCellsNp, List.map_singleton, leafIndex_leafForQk hp hl (List.ne_nil_of_mem hleaf),
      leafForQk_of_covers hp hl hleaf hcov]
  · have h := pointCellFrom_eq hp hleaf hpre (d := 0) (Nat.zero_add maxDepth) (Nat.zero_le _)
    rw [List.take_zero] at h
    rw [pointCell, ← degrees_world]
    exact h

end Walk

end OsmParquet.LeafSearch
