import OsmParquet.Cells
import OsmParquet.Halving

/-!
The tree of cells: ranges of quadkeys, leaves, and boxes.

A cell covers a quadkey exactly when its digits are the first ones of the quadkey, so of two
cells one lies in the other or they have nothing in common. The leaves of a dataset are never
one inside the other. Where a leaf covers a quadkey the search for it gives that leaf; and a
point lies in the box of every cell its first digits name.
-/

namespace OsmParquet.CellTree

open OsmParquet.Rows OsmParquet.Cells OsmParquet.Halving

/-! ### Keys as numbers -/

section Keys

variable {a b c : Cell} {d : Digit}

lemma keyToValue_snoc : keyToValue (c ++ [d]) = keyToValue c * 4 + d := by
  simp [keyToValue, List.foldl_append]

lemma keyToValue_append : keyToValue (a ++ b) = keyToValue a * 4 ^ b.length + keyToValue b := by
  induction b using List.reverseRecOn with
  | nil => simp [keyToValue]
  | append_singleton b d ih =>
    rw [← List.append_assoc, keyToValue_snoc, ih, keyToValue_snoc, List.length_append,
      List.length_singleton, pow_succ]
    ring

lemma keyToValue_lt (c : Cell) : keyToValue c < 4 ^ c.length := by
  induction c using List.reverseRecOn with
  | nil => simp [keyToValue]
  | append_singleton c d ih =>
    have hd := d.isLt
    rw [keyToValue_snoc, List.length_append, List.length_singleton, pow_succ]
    omega

lemma keyToValue_inj (hl : a.length = b.length) (h : keyToValue a = keyToValue b) : a = b := by
  induction a using List.reverseRecOn generalizing b with
  | nil => exact (List.length_eq_zero_iff.mp hl.symm).symm
  | append_singleton a d ih =>
    rcases List.eq_nil_or_concat' b with rfl | ⟨b, e, rfl⟩
    · simp at hl
    rw [keyToValue_snoc, keyToValue_snoc] at h
    have hd := d.isLt
    have he := e.isLt
    have hab : a = b := ih (by simpa using hl) (by omega)
    have hde : d = e := Fin.ext (by rw [hab] at h; omega)
    rw [hab, hde]

/-- The digits of a key are pairs of bits of its number. -/
lemma keyToValue_digit {i : ℕ} (hi : i < c.length) :
    Fin.ofNat 4 (keyToValue c >>> (2 * (c.length - 1 - i))) = (c)[i] := by
  have hsplit := keyToValue_append (a := c.take (i + 1)) (b := c.drop (i + 1))
  have hlt := keyToValue_lt (c.drop (i + 1))
  have hlen : (c.drop (i + 1)).length = c.length - 1 - i := by
    rw [List.length_drop]
    omega
  rw [List.take_append_drop, ← List.take_append_getElem hi, keyToValue_snoc, hlen] at hsplit
  rw [hlen] at hlt
  have hpow : 2 ^ (2 * (c.length - 1 - i)) = 4 ^ (c.length - 1 - i) := by
    rw [pow_mul]
    norm_num
  have hd := ((c)[i]).isLt
  have hquot : keyToValue c / 4 ^ (c.length - 1 - i) = keyToValue (c.take i) * 4 + (c)[i] := by
    rw [hsplit, Nat.add_comm, Nat.add_mul_div_right _ _ (by positivity), Nat.div_eq_of_lt hlt,
      Nat.zero_add]
  apply Fin.ext
  show (keyToValue c >>> (2 * (c.length - 1 - i))) % 4 = _
  rw [Nat.shiftRight_eq_div_pow, hpow, hquot]
  omega

lemma keyToValue_zeros (n : ℕ) : keyToValue (List.replicate n 0) = 0 := by
  induction n with
  | zero => rfl
  | succ n ih => rw [List.replicate_succ', keyToValue_snoc, ih]; rfl

end Keys

/-! ### Ranges -/

/-- Whether a quadkey is in the range of a cell. -/
def Covers (c : Cell) (qk : ℕ) : Prop := (qkRange c).1 ≤ qk ∧ qk ≤ (qkRange c).2

instance (c : Cell) (qk : ℕ) : Decidable (Covers c qk) := inferInstanceAs (Decidable (_ ∧ _))

section Ranges

variable {c ds : Cell}

lemma qkRange_eq (c : Cell) : qkRange c = (keyToValue c * 4 ^ (maxDepth - c.length),
    keyToValue c * 4 ^ (maxDepth - c.length) + 4 ^ (maxDepth - c.length) - 1) := by
  simp only [qkRange, pow_mul]
  norm_num

/-- Longer keys are in the range of a key, as numbers of the longer length, exactly when they begin
with it. -/
lemma range_iff (hc : c.length ≤ ds.length) :
    (keyToValue c * 4 ^ (ds.length - c.length) ≤ keyToValue ds ∧
      keyToValue ds ≤ keyToValue c * 4 ^ (ds.length - c.length) + 4 ^ (ds.length - c.length) - 1) ↔
      c <+: ds := by
  have hsplit : keyToValue ds = keyToValue (ds.take c.length) * 4 ^ (ds.length - c.length) +
      keyToValue (ds.drop c.length) := by
    have h := keyToValue_append (a := ds.take c.length) (b := ds.drop c.length)
    rwa [List.take_append_drop, List.length_drop] at h
  have hlt : keyToValue (ds.drop c.length) < 4 ^ (ds.length - c.length) := by
    have h := keyToValue_lt (ds.drop c.length)
    rwa [List.length_drop] at h
  have hpos : 0 < 4 ^ (ds.length - c.length) := by positivity
  have hlen : (ds.take c.length).length = c.length := by simp [hc]
  rw [hsplit, List.prefix_iff_eq_take]
  set M := 4 ^ (ds.length - c.length)
  set t := keyToValue (ds.take c.length)
  constructor
  · rintro ⟨h1, h2⟩
    have hlow : keyToValue c < t + 1 := by
      refine lt_of_mul_lt_mul_right (a := M) ?_ hpos.le
      rw [add_mul]
      omega
    have hhigh : t < keyToValue c + 1 := by
      refine lt_of_mul_lt_mul_right (a := M) ?_ hpos.le
      rw [add_mul]
      omega
    exact keyToValue_inj hlen.symm (by omega)
  · intro h
    have ht : keyToValue c = t := congrArg keyToValue h
    rw [ht]
    constructor
    · exact Nat.le_add_right _ _
    · show t * M + _ ≤ t * M + M - 1
      omega

/-- **A cell covers the quadkeys that begin with its digits.** -/
lemma covers_iff (hc : c.length ≤ maxDepth) (hds : ds.length = maxDepth) :
    Covers c (keyToValue ds) ↔ c <+: ds := by
  rw [Covers, qkRange_eq, ← hds]
  exact range_iff (hds ▸ hc)

/-- The first quadkey of a cell goes on with zeros. -/
lemma lo_eq (c : Cell) :
    (qkRange c).1 = keyToValue (c ++ List.replicate (maxDepth - c.length) 0) := by
  rw [qkRange_eq, keyToValue_append, keyToValue_zeros, List.length_replicate, add_zero]

end Ranges

/-! ### Leaves -/

/-- No cell lies in another one of the list. -/
def PrefixFree (cells : List Cell) : Prop := ∀ a ∈ cells, ∀ b ∈ cells, a <+: b → a = b

lemma mem_digits (d : Digit) : d ∈ ([0, 1, 2, 3] : List Digit) := by
  match d with
  | 0 => simp
  | 1 => simp
  | 2 => simp
  | 3 => simp

/-- A longer key goes on below a cell in one of its children. -/
lemma exists_child {key ds : Cell} (h : key <+: ds) (hlt : key.length < ds.length) :
    ∃ d, key ++ [d] <+: ds := by
  obtain ⟨rest, rfl⟩ := h
  rcases rest with _ | ⟨d, rest⟩
  · simp at hlt
  · exact ⟨d, rest, by simp⟩

lemma length_pointDigits (p : Point) : (pointDigits p).length = maxDepth := by simp [pointDigits]

section Leaves

variable {leaves : List Cell} {qks : List ℕ} {n : ℕ}

/-- What comes of a cell begins with its digits, and is at most `fuel` digits longer. -/
lemma splitCell_under {fuel : ℕ} {key c : Cell} (h : c ∈ splitCell qks n fuel key) :
    key <+: c ∧ c.length ≤ key.length + fuel := by
  have hself : ∀ {p : Prop} [Decidable p], c ∈ (if p then [key] else []) → c = key := by
    intro p _ h
    split at h
    · exact List.mem_singleton.mp h
    · cases h
  induction fuel generalizing key with
  | zero => rw [hself h]; exact ⟨List.prefix_rfl, le_rfl⟩
  | succ fuel ih =>
    unfold splitCell at h
    simp only at h
    split at h
    · rw [hself h]; exact ⟨List.prefix_rfl, by omega⟩
    · obtain ⟨d, -, hd⟩ := List.mem_flatMap.mp h
      obtain ⟨h1, h2⟩ := ih hd fun h => by
        split at h
        · exact List.mem_singleton.mp h
        · cases h
      refine ⟨(List.prefix_append key [d]).trans h1, ?_⟩
      rw [List.length_append, List.length_singleton] at h2
      omega

lemma prefixFree_splitCell (fuel : ℕ) (key : Cell) : PrefixFree (splitCell qks n fuel key) := by
  have hone : ∀ {key : Cell} {p : Prop} [Decidable p], PrefixFree (if p then [key] else []) := by
    intro key p _ a ha b hb _
    split at ha
    · rw [if_pos ‹p›] at hb
      rw [List.mem_singleton.mp ha, List.mem_singleton.mp hb]
    · cases ha
  induction fuel generalizing key with
  | zero => exact hone
  | succ fuel ih =>
    unfold splitCell
    simp only
    split
    · exact hone
    · intro a ha b hb hab
      obtain ⟨d, -, ha⟩ := List.mem_flatMap.mp ha
      obtain ⟨e, -, hb⟩ := List.mem_flatMap.mp hb
      -- a cell inside another has the same child above it
      have h1 : key ++ [d] <+: b := (splitCell_under ha).1.trans hab
      have h2 : key ++ [e] <+: b := (splitCell_under hb).1
      have heq : key ++ [d] = key ++ [e] :=
        (List.prefix_of_prefix_length_le h1 h2 (by simp)).eq_of_length (by simp)
      obtain rfl : d = e := by simpa using heq
      exact ih _ a ha b hb hab

lemma prefixFree_selectLeafCells (nodes : List Point) (n depth : ℕ) :
    PrefixFree (selectLeafCells nodes n depth) := by
  unfold selectLeafCells
  split
  · intro a ha b hb _
    rw [List.mem_singleton.mp ha, List.mem_singleton.mp hb]
  · exact prefixFree_splitCell _ _

lemma length_selectLeafCells {nodes : List Point} {n depth : ℕ} {c : Cell}
    (h : c ∈ selectLeafCells nodes n depth) : c.length ≤ depth := by
  unfold selectLeafCells at h
  split at h
  · rw [List.mem_singleton.mp h]; exact Nat.zero_le _
  · have h2 := (splitCell_under h).2
    rwa [List.length_nil, zero_add] at h2

lemma mem_leavesByLo {c : Cell} : c ∈ leavesByLo leaves ↔ c ∈ leaves := by
  rw [leavesByLo, List.mem_insertionSort, List.mem_dedup]

lemma sorted_leavesByLo (leaves : List Cell) :
    (leavesByLo leaves).Pairwise fun a b => (qkRange a).1 ≤ (qkRange b).1 := by
  have htotal : Std.Total fun a b : Cell => (qkRange a).1 ≤ (qkRange b).1 :=
    ⟨fun _ _ => le_total _ _⟩
  have htrans : IsTrans Cell fun a b => (qkRange a).1 ≤ (qkRange b).1 := ⟨fun _ _ _ => le_trans⟩
  exact List.pairwise_insertionSort _ _

/-- **Where a leaf covers a quadkey the search gives this leaf.** -/
lemma leafForQk_of_covers (hp : PrefixFree leaves) (hl : ∀ c ∈ leaves, c.length ≤ maxDepth)
    {leaf : Cell} (hmem : leaf ∈ leaves) {qk : ℕ} (hc : Covers leaf qk) :
    leafForQk leaves qk = leaf := by
  have hin : leaf ∈ (leavesByLo leaves).filter fun k => (qkRange k).1 ≤ qk :=
    List.mem_filter.mpr ⟨mem_leavesByLo.mpr hmem, decide_eq_true hc.1⟩
  obtain ⟨m, hm⟩ := Option.isSome_iff_exists.mp
    (List.getLast?_isSome.mpr (List.ne_nil_of_mem hin))
  obtain ⟨init, hsplit⟩ := List.getLast?_eq_some_iff.mp hm
  have hmin : m ∈ (leavesByLo leaves).filter fun k => (qkRange k).1 ≤ qk := by rw [hsplit]; simp
  obtain ⟨hmleaf, hmlo⟩ := List.mem_filter.mp hmin
  have hmleaf : m ∈ leaves := mem_leavesByLo.mp hmleaf
  have hlo : (qkRange leaf).1 ≤ (qkRange m).1 := by
    have hsorted := (sorted_leavesByLo leaves).filter fun k => (qkRange k).1 ≤ qk
    rw [hsplit] at hsorted hin
    rcases List.mem_append.mp hin with h | h
    · exact (List.pairwise_append.mp hsorted).2.2 leaf h m (by simp)
    · rw [List.mem_singleton.mp h]
  -- the last leaf starts inside the covering one, so the two are the same
  have hcov : Covers leaf (qkRange m).1 := ⟨hlo, le_trans (of_decide_eq_true hmlo) hc.2⟩
  have hml := hl m hmleaf
  rw [lo_eq m, covers_iff (hl leaf hmem) (by simp; omega)] at hcov
  have heq : m = leaf := by
    rcases List.prefix_or_prefix_of_prefix hcov (List.prefix_append m _) with h | h
    · exact (hp leaf hmem m hmleaf h).symm
    · exact hp m hmleaf leaf hmem h
  rw [leafForQk]
  simp only [hm, Option.some_or, Option.getD_some, heq]

/-- A cell with a node in it ends in a leaf that covers the node. -/
lemma exists_leaf_of_covers {p : Point} {fuel : ℕ} {key : Cell} (hp : pointToQk p ∈ qks)
    (hlen : key.length + fuel ≤ maxDepth) (hk : key <+: pointDigits p) :
    ∃ leaf ∈ splitCell qks n fuel key, Covers leaf (pointToQk p) := by
  have hcov : Covers key (pointToQk p) :=
    (covers_iff (by omega) (length_pointDigits p)).mpr hk
  have hcount : 0 < (qks.filter fun q => (qkRange key).1 ≤ q ∧ q ≤ (qkRange key).2).length :=
    List.length_pos_of_mem (List.mem_filter.mpr ⟨hp, decide_eq_true hcov⟩)
  induction fuel generalizing key with
  | zero => exact ⟨key, by simp only [splitCell, if_pos (Or.inl hcount), List.mem_singleton], hcov⟩
  | succ fuel ih =>
    unfold splitCell
    simp only
    split
    · exact ⟨key, by simp only [if_pos (Or.inl hcount), List.mem_singleton], hcov⟩
    · -- the node goes on into one of the four children
      obtain ⟨d, hchild⟩ := exists_child hk (by rw [length_pointDigits]; omega)
      have hclen : (key ++ [d]).length + fuel ≤ maxDepth := by
        rw [List.length_append, List.length_singleton]; omega
      have hccov : Covers (key ++ [d]) (pointToQk p) :=
        (covers_iff (by omega) (length_pointDigits p)).mpr hchild
      obtain ⟨leaf, hleaf, hcov⟩ := ih hclen hchild hccov
        (List.length_pos_of_mem (List.mem_filter.mpr ⟨hp, decide_eq_true hccov⟩))
      exact ⟨leaf, List.mem_flatMap.mpr ⟨d, mem_digits d, hleaf⟩, hcov⟩

/-- **Every node of the build is covered by a leaf.** -/
theorem exists_leaf_of_mem {nodes : List Point} {n depth : ℕ} (hd : depth ≤ maxDepth) {p : Point}
    (hp : p ∈ nodes) : ∃ leaf ∈ selectLeafCells nodes n depth, Covers leaf (pointToQk p) := by
  rw [selectLeafCells, if_neg (List.ne_nil_of_mem hp)]
  exact exists_leaf_of_covers (List.mem_map_of_mem hp) (by simpa using hd) List.nil_prefix

lemma selectLeafCells_ne_nil (nodes : List Point) (n : ℕ) {depth : ℕ} (hd : depth ≤ maxDepth) :
    selectLeafCells nodes n depth ≠ [] := by
  rcases nodes with _ | ⟨p, nodes⟩
  · simp [selectLeafCells]
  · obtain ⟨leaf, hleaf, -⟩ := exists_leaf_of_mem (n := n) hd
      (List.mem_cons_self (a := p) (l := nodes))
    exact List.ne_nil_of_mem hleaf

/-- What the search gives is a leaf, if only a neighbour. -/
lemma leafForQk_mem (hne : leaves ≠ []) (qk : ℕ) : leafForQk leaves qk ∈ leaves := by
  obtain ⟨c, rest, hsplit⟩ := List.exists_cons_of_ne_nil
    (List.ne_nil_of_mem (mem_leavesByLo.mpr (List.head_mem hne)))
  rw [leafForQk]
  rcases hl : ((leavesByLo leaves).filter fun k => (qkRange k).1 ≤ qk).getLast? with _ | m
  · simp only [Option.none_or, hsplit, List.head?_cons, Option.getD_some]
    exact mem_leavesByLo.mp (by rw [hsplit]; simp)
  · simp only [Option.some_or, Option.getD_some]
    exact mem_leavesByLo.mp (List.mem_filter.mp (List.mem_of_getLast? hl)).1

end Leaves

/-! ### Boxes -/

/-- A box with rational sides, in the units of the coordinates. The sides of cells are not whole
numbers of them. -/
structure Box where
  south : ℚ
  west : ℚ
  north : ℚ
  east : ℚ
  deriving DecidableEq

/-- Whether a position is in a box, its border included. -/
def Box.Holds (b : Box) (lat lon : ℚ) : Prop :=
  b.south ≤ lat ∧ lat ≤ b.north ∧ b.west ≤ lon ∧ lon ≤ b.east

instance (b : Box) (lat lon : ℚ) : Decidable (b.Holds lat lon) :=
  inferInstanceAs (Decidable (_ ∧ _ ∧ _ ∧ _))

def world : Box := ⟨-900000000, -1800000000, 900000000, 1800000000⟩

/-- A quarter of a box. -/
def quarter (b : Box) (d : Digit) : Box :=
  let midLon := (b.west + b.east) / 2
  let midLat := (b.south + b.north) / 2
  match d with
  | 0 => ⟨midLat, b.west, b.north, midLon⟩
  | 1 => ⟨midLat, midLon, b.north, b.east⟩
  | 2 => ⟨b.south, b.west, midLat, midLon⟩
  | 3 => ⟨b.south, midLon, midLat, b.east⟩

/-- The box of a cell. -/
def cellBBox (c : Cell) : Box := c.foldl quarter world

/-- Whether a digit keeps the eastern, and whether it keeps the northern half. -/
def eastern (d : Digit) : Bool := d = 1 ∨ d = 3

def northern (d : Digit) : Bool := d = 0 ∨ d = 1

/-- A point of the world. -/
def InWorld (p : Point) : Prop :=
  -900000000 ≤ p.lat ∧ p.lat ≤ 900000000 ∧ -1800000000 ≤ p.lon ∧ p.lon ≤ 1800000000

instance (p : Point) : Decidable (InWorld p) := inferInstanceAs (Decidable (_ ∧ _ ∧ _ ∧ _))

section Boxes

variable {c : Cell} {p : Point}

/-- The two directions are halved apart from each other. -/
lemma cellBBox_eq (c : Cell) : cellBBox c =
    ⟨(descend (-900000000, 900000000) (c.map northern)).1,
      (descend (-1800000000, 1800000000) (c.map eastern)).1,
      (descend (-900000000, 900000000) (c.map northern)).2,
      (descend (-1800000000, 1800000000) (c.map eastern)).2⟩ := by
  induction c using List.reverseRecOn with
  | nil => rfl
  | append_singleton c d ih =>
    have hsnoc : cellBBox (c ++ [d]) = quarter (cellBBox c) d := by
      simp [cellBBox, List.foldl_append]
    rw [hsnoc, ih, List.map_append, List.map_append, List.map_singleton, List.map_singleton,
      descend_snoc, descend_snoc]
    match d with
    | 0 => rfl
    | 1 => rfl
    | 2 => rfl
    | 3 => rfl

lemma eastern_digitAt (x y i : ℕ) : eastern (digitAt x y i) = x.testBit i := by
  unfold digitAt
  cases x.testBit i <;> cases y.testBit i <;> rfl

lemma northern_digitAt (x y i : ℕ) : northern (digitAt x y i) = y.testBit i := by
  unfold digitAt
  cases x.testBit i <;> cases y.testBit i <;> rfl

lemma eastern_pointDigits {d : ℕ} (hd : d ≤ maxDepth) :
    ((pointDigits p).take d).map eastern = leadingBits maxDepth (gridX p.lon) d := by
  rw [pointDigits, ← List.map_take, List.take_range, Nat.min_eq_left hd, List.map_map]
  exact List.map_congr_left fun k _ => eastern_digitAt _ _ _

lemma northern_pointDigits {d : ℕ} (hd : d ≤ maxDepth) :
    ((pointDigits p).take d).map northern = leadingBits maxDepth (gridY p.lat) d := by
  rw [pointDigits, ← List.map_take, List.take_range, Nat.min_eq_left hd, List.map_map]
  exact List.map_congr_left fun k _ => northern_digitAt _ _ _

/-- Of the world's eastern and northern edges only the last cell of the grid has a part. -/
lemma gridX_spec {lon : ℤ} (h1 : -1800000000 ≤ lon) (h2 : lon ≤ 1800000000) :
    gridX lon < 2 ^ maxDepth ∧ (gridX lon : ℤ) * 3600000000 ≤ (lon + 1800000000) * 2 ^ maxDepth ∧
      (lon + 1800000000) * 2 ^ maxDepth ≤ ((gridX lon : ℤ) + 1) * 3600000000 := by
  have hpow : (2 : ℤ) ^ maxDepth = 1048576 := by norm_num [maxDepth]
  have hpow' : (2 : ℕ) ^ maxDepth = 1048576 := by norm_num [maxDepth]
  unfold gridX
  rw [hpow, hpow']
  omega

lemma gridY_spec {lat : ℤ} (h1 : -900000000 ≤ lat) (h2 : lat ≤ 900000000) :
    gridY lat < 2 ^ maxDepth ∧ (gridY lat : ℤ) * 1800000000 ≤ (lat + 900000000) * 2 ^ maxDepth ∧
      (lat + 900000000) * 2 ^ maxDepth ≤ ((gridY lat : ℤ) + 1) * 1800000000 := by
  have hpow : (2 : ℤ) ^ maxDepth = 1048576 := by norm_num [maxDepth]
  have hpow' : (2 : ℕ) ^ maxDepth = 1048576 := by norm_num [maxDepth]
  unfold gridY
  rw [hpow, hpow']
  omega

/-- **A point lies in the box of every cell its digits begin with.** -/
theorem holds_of_prefix (hp : InWorld p) (h : c <+: pointDigits p) :
    (cellBBox c).Holds p.lat p.lon := by
  obtain ⟨h1, h2, h3, h4⟩ := hp
  have hd : c.length ≤ maxDepth := by
    have hlen := h.length_le
    rwa [length_pointDigits] at hlen
  have hc : c = (pointDigits p).take c.length := List.prefix_iff_eq_take.mp h
  obtain ⟨hx, hx1, hx2⟩ := gridX_spec h3 h4
  obtain ⟨hy, hy1, hy2⟩ := gridY_spec h1 h2
  have hpow : (0 : ℚ) < 2 ^ maxDepth := by positivity
  have hx1 : (gridX p.lon : ℚ) * 3600000000 ≤ (p.lon + 1800000000) * 2 ^ maxDepth := by
    exact_mod_cast hx1
  have hx2 : ((p.lon : ℚ) + 1800000000) * 2 ^ maxDepth ≤ (gridX p.lon + 1) * 3600000000 := by
    exact_mod_cast hx2
  have hy1 : (gridY p.lat : ℚ) * 1800000000 ≤ (p.lat + 900000000) * 2 ^ maxDepth := by
    exact_mod_cast hy1
  have hy2 : ((p.lat : ℚ) + 900000000) * 2 ^ maxDepth ≤ (gridY p.lat + 1) * 1800000000 := by
    exact_mod_cast hy2
  have hlat := mem_descend (i := (-900000000, 900000000)) (a := p.lat) hy hd (by norm_num)
    (by
      have h : (1800000000 : ℚ) * gridY p.lat / 2 ^ maxDepth ≤ p.lat + 900000000 := by
        rw [div_le_iff₀ hpow]; linarith
      norm_num at h ⊢
      linarith)
    (by
      have h : (p.lat : ℚ) + 900000000 ≤ 1800000000 * (gridY p.lat + 1) / 2 ^ maxDepth := by
        rw [le_div_iff₀ hpow]; linarith
      norm_num at h ⊢
      linarith)
  have hlon := mem_descend (i := (-1800000000, 1800000000)) (a := p.lon) hx hd (by norm_num)
    (by
      have h : (3600000000 : ℚ) * gridX p.lon / 2 ^ maxDepth ≤ p.lon + 1800000000 := by
        rw [div_le_iff₀ hpow]; linarith
      norm_num at h ⊢
      linarith)
    (by
      have h : (p.lon : ℚ) + 1800000000 ≤ 3600000000 * (gridX p.lon + 1) / 2 ^ maxDepth := by
        rw [le_div_iff₀ hpow]; linarith
      norm_num at h ⊢
      linarith)
  rw [hc, cellBBox_eq, eastern_pointDigits hd, northern_pointDigits hd]
  exact ⟨hlat.1, hlat.2, hlon.1, hlon.2⟩

/-- A cell lies in the cells above it. -/
lemma holds_of_under {a : Cell} (h : a <+: c) {lat lon : ℚ} (hc : (cellBBox c).Holds lat lon) :
    (cellBBox a).Holds lat lon := by
  obtain ⟨rest, rfl⟩ := h
  have hstep : ∀ (b : Box) (d : Digit), (quarter b d).Holds lat lon → b.Holds lat lon := by
    intro b d hq
    match d with
    | 0 | 1 | 2 | 3 =>
      obtain ⟨h1, h2, h3, h4⟩ := hq
      simp only [quarter] at h1 h2 h3 h4
      refine ⟨?_, ?_, ?_, ?_⟩ <;> linarith
  rw [cellBBox, List.foldl_append, ← cellBBox] at hc
  generalize cellBBox a = b at hc ⊢
  induction rest generalizing b with
  | nil => exact hc
  | cons d rest ih => exact hstep b d (ih _ hc)

end Boxes

end OsmParquet.CellTree
