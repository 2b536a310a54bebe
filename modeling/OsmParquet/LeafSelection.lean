import OsmParquet.Histogram
import OsmParquet.LeafSearch

/-!
The selection of leaves by the builder and by the raw extractor.

Both split a cell as long as it has too many nodes and is not at the greatest depth, and keep the
cells with nodes in them. The builder counts the nodes of a cell in the cumulative counts of the
distinct quadkeys of the grid; the extractor has one counter for each cell of the greatest depth and
names cells by numbers. The leaves are the same, in the same order.

The builder does not split a cell at the depth of the grid and gives up there, so that a greater
depth is of use only as long as no quadkey has too many nodes. The counters of the extractor are
32-bit numbers that stop at the greatest one, which can be seen only with a limit as high as this.
-/

namespace OsmParquet.LeafSelection

open OsmParquet.Rows OsmParquet.Cells OsmParquet.CellTree OsmParquet.RawPlacement
  OsmParquet.LeafSearch
open OsmParquet.Histogram

/-! ### The builder -/

def keyText (key : Cell) : String :=
  if key = [] then "root" else String.join (key.map fun d => toString d.val)

def children (key : Cell) : Except String (List Cell) :=
  if maxDepth ≤ key.length then
    .error s!"cell '{keyText key}' is already at max depth {maxDepth}"
  else .ok (([0, 1, 2, 3] : List Digit).map fun d => key ++ [d])

/-- The place of the first of the sorted values that is not less. -/
def searchsortedLeft (sorted : List ℕ) (v : ℕ) : ℕ := sorted.findIdx fun x => v ≤ x

/-- A cell where the splitting stops is kept when it has nodes, and the root always. -/
def keepCell (n : ℕ) (key : Cell) : List Cell := if 0 < n ∨ key = [] then [key] else []

/-- The leaves under a cell, at most `left` levels down. -/
def recurse (count : Cell → ℕ) (maxNodesPerCell : ℕ) : ℕ → Cell → Except String (List Cell)
  | 0, key => .ok (keepCell (count key) key)
  | left + 1, key =>
    if count key ≤ maxNodesPerCell then .ok (keepCell (count key) key)
    else do
      let below ← children key
      let parts ← below.mapM (recurse count maxNodesPerCell left)
      return parts.flatten

def selectLeafCells (nodes : List Point) (maxNodesPerCell depth : ℕ) : Except String (List Cell) :=
  if nodes = [] then .ok [[]]
  else
    let qk := nodes.map pointToQk
    let codes := uniqueCodes qk
    let cum := cumulative (uniqueCounts qk)
    let rangeCount := fun lo hi => between cum (searchsortedLeft codes lo)
      (searchsortedRight codes hi)
    recurse (fun key => rangeCount (qkRange key).1 (qkRange key).2) maxNodesPerCell depth []

/-! ### The extractor -/

def u32Max : ℕ := 4294967295

/-- One counter for each cell of the greatest depth. -/
def histogramPass (nodes : List Point) (depth : ℕ) : List ℕ :=
  capped u32Max (1 <<< (2 * depth)) (nodes.map (qkCode depth))

def childCodes (codeAtDepth : ℕ) : List ℕ :=
  let base := codeAtDepth <<< 2 % 2 ^ 64
  [base, base ||| 1, base ||| 2, base ||| 3]

/-- First and last code of a cell at the resolution of the greatest depth. -/
def codeRangeAt (value depth maxDepth : ℕ) : ℕ × ℕ :=
  let shift := 2 * (maxDepth - depth)
  let lo := value <<< shift % 2 ^ 64
  let span := 1 <<< shift % 2 ^ 64
  (lo, lo + span - 1)

def codeToKey (code depth : ℕ) : Cell :=
  (List.range depth).reverse.map fun i => Fin.ofNat 4 (code >>> (2 * i))

/-- The leaves under the cell with a code at a depth, at most `left` levels down. -/
def recurseCodes (rangeCount : ℕ → ℕ → ℕ) (maxNodes maxDepth : ℕ) : ℕ → ℕ → ℕ → List Cell
  | 0, value, depth =>
    let n := rangeCount (codeRangeAt value depth maxDepth).1 (codeRangeAt value depth maxDepth).2
    if 0 < n ∨ depth = 0 ∧ value = 0 then [codeToKey value depth] else []
  | left + 1, value, depth =>
    let n := rangeCount (codeRangeAt value depth maxDepth).1 (codeRangeAt value depth maxDepth).2
    if n ≤ maxNodes then (if 0 < n ∨ depth = 0 ∧ value = 0 then [codeToKey value depth] else [])
    else (childCodes value).flatMap fun cv =>
      recurseCodes rangeCount maxNodes maxDepth left cv (depth + 1)

def selectLeaves (counts : List ℕ) (maxNodesPerCell depth : ℕ) : List Cell :=
  let cum := cumulative counts
  let leaves := recurseCodes (fun lo hi => between cum lo (hi + 1)) maxNodesPerCell depth depth 0 0
  if leaves = [] then [[]] else leaves

/-! ### The nodes of a cell -/

/-- How many nodes a cell covers. -/
def nodesIn (nodes : List Point) (c : Cell) : ℕ := nodes.countP fun p => Covers c (pointToQk p)

section Counts

variable {nodes : List Point} {c : Cell} {n depth : ℕ}

/-- The number that the splitting goes by. -/
lemma length_filter_eq (nodes : List Point) (c : Cell) :
    ((nodes.map pointToQk).filter fun q => (qkRange c).1 ≤ q ∧ q ≤ (qkRange c).2).length =
      nodesIn nodes c := by
  rw [← List.countP_eq_length_filter, List.countP_map]
  rfl

/-- **The builder counts the nodes of a cell.** -/
lemma rangeCount_eq (nodes : List Point) (c : Cell) :
    between (cumulative (uniqueCounts (nodes.map pointToQk)))
        (searchsortedLeft (uniqueCodes (nodes.map pointToQk)) (qkRange c).1)
        (searchsortedRight (uniqueCodes (nodes.map pointToQk)) (qkRange c).2) =
          nodesIn nodes c := by
  have hle : (qkRange c).1 ≤ (qkRange c).2 := by
    have hpos : 0 < 4 ^ (maxDepth - c.length) := by positivity
    rw [qkRange_eq]
    simp only
    omega
  rw [searchsortedLeft, searchsortedRight, between_unique _ hle, List.countP_eq_length_filter,
    length_filter_eq]

/-- The nodes of a cell are those whose quadkey at any depth below begins with the cell. -/
lemma nodesIn_eq (hc : c.length ≤ maxDepth) (hd : c.length ≤ depth) :
    nodesIn nodes c = nodes.countP fun p => c <+: qkDigits depth p := by
  refine List.countP_congr fun p _ => ?_
  rw [decide_eq_true_iff, decide_eq_true_iff, pointToQk, covers_iff hc (length_pointDigits p)]
  have hgrid : pointDigits p = qkDigits maxDepth p := rfl
  rw [hgrid]
  rcases Nat.le_total depth maxDepth with h | h
  · rw [qkDigits_take h, List.prefix_take_iff, and_iff_left hd]
  · rw [qkDigits_take h, List.prefix_take_iff, and_iff_left hc]

/-- At the depth of the grid a cell has one quadkey. -/
lemma nodesIn_of_length (hc : c.length = maxDepth) :
    nodesIn nodes c = (nodes.map pointToQk).count (keyToValue c) := by
  rw [nodesIn, List.count, List.countP_map]
  refine List.countP_congr fun p _ => ?_
  rw [decide_eq_true_iff, Function.comp_apply, beq_iff_eq, Covers, qkRange_eq, hc,
    Nat.sub_self, pow_zero]
  simp only
  omega

lemma length_qkDigits (depth : ℕ) (p : Point) : (qkDigits depth p).length = depth := by
  simp [qkDigits]

/-- The range of a cell in the codes of a depth. -/
lemma codeRangeAt_eq (hc : c.length ≤ depth) (hd : depth < 32) :
    codeRangeAt (keyToValue c) c.length depth = (keyToValue c * 4 ^ (depth - c.length),
      keyToValue c * 4 ^ (depth - c.length) + 4 ^ (depth - c.length) - 1) ∧
      keyToValue c * 4 ^ (depth - c.length) + 4 ^ (depth - c.length) ≤ 4 ^ depth := by
  have hpow : 2 ^ (2 * (depth - c.length)) = 4 ^ (depth - c.length) := by
    rw [pow_mul]
    norm_num
  have hend : keyToValue c * 4 ^ (depth - c.length) + 4 ^ (depth - c.length) ≤ 4 ^ depth := by
    calc keyToValue c * 4 ^ (depth - c.length) + 4 ^ (depth - c.length) =
        (keyToValue c + 1) * 4 ^ (depth - c.length) := by ring
      _ ≤ 4 ^ c.length * 4 ^ (depth - c.length) := Nat.mul_le_mul_right _ (keyToValue_lt c)
      _ = 4 ^ depth := by rw [← pow_add]; congr 1; omega
  have hfit : (4 : ℕ) ^ depth < 2 ^ 64 := by
    calc (4 : ℕ) ^ depth < 4 ^ 32 := Nat.pow_lt_pow_right (by norm_num) hd
      _ = 2 ^ 64 := by norm_num
  have hpos : 0 < 4 ^ (depth - c.length) := by positivity
  refine ⟨?_, hend⟩
  unfold codeRangeAt
  simp only [Nat.shiftLeft_eq, hpow, Nat.one_mul]
  rw [Nat.mod_eq_of_lt (by omega), Nat.mod_eq_of_lt (by omega)]

/-- What the extractor counts for a cell: the sum of the counters in its range. -/
lemma between_histogramPass (nodes : List Point) (hc : c.length ≤ depth) (hd : depth < 32) :
    between (cumulative (histogramPass nodes depth)) (codeRangeAt (keyToValue c) c.length depth).1
        ((codeRangeAt (keyToValue c) c.length depth).2 + 1) =
      ((List.range' (keyToValue c * 4 ^ (depth - c.length))
        (4 ^ (depth - c.length))).map fun code =>
        min ((nodes.map (qkCode depth)).count code) u32Max).sum := by
  obtain ⟨hrange, hend⟩ := codeRangeAt_eq hc hd
  have hpos : 0 < 4 ^ (depth - c.length) := by positivity
  have hsize : 1 <<< (2 * depth) = 4 ^ depth := by
    rw [Nat.shiftLeft_eq, Nat.one_mul, pow_mul]
    norm_num
  have hlast : ∀ x : ℕ, x + 4 ^ (depth - c.length) - 1 + 1 = x + 4 ^ (depth - c.length) := by omega
  rw [hrange, histogramPass, hsize]
  simp only [hlast]
  exact between_capped hend

/-- Without a cap it would be the number of nodes of the cell. -/
lemma sum_count_codes (nodes : List Point) (hc : c.length ≤ maxDepth) (hd : c.length ≤ depth) :
    ((List.range' (keyToValue c * 4 ^ (depth - c.length)) (4 ^ (depth - c.length))).map fun code =>
      (nodes.map (qkCode depth)).count code).sum = nodesIn nodes c := by
  rw [sum_count_range, List.countP_map, nodesIn_eq hc hd]
  refine List.countP_congr fun p _ => ?_
  have hlen := length_qkDigits depth p
  have hpos : 0 < 4 ^ (depth - c.length) := by positivity
  have hle : c.length ≤ (qkDigits depth p).length := hlen.symm ▸ hd
  have hiff := range_iff hle
  rw [hlen] at hiff
  rw [Function.comp_apply, decide_eq_true_iff, decide_eq_true_iff, ← hiff, qkCode]
  omega

end Counts

/-! ### The splitting -/

section Splitting

variable {nodes : List Point} {c key : Cell} {n depth left : ℕ}

/-- No quadkey of the grid has more than `n` nodes. -/
def NoneOver (nodes : List Point) (n : ℕ) : Prop :=
  ∀ p ∈ nodes, (nodes.map pointToQk).count (pointToQk p) ≤ n

lemma splitCell_zero : splitCell (nodes.map pointToQk) n 0 key =
    keepCell (nodesIn nodes key) key := by
  rw [splitCell, keepCell]
  simp only [length_filter_eq]

lemma splitCell_succ : splitCell (nodes.map pointToQk) n (left + 1) key =
    if nodesIn nodes key ≤ n then keepCell (nodesIn nodes key) key
    else ([0, 1, 2, 3] : List Digit).flatMap fun d =>
      splitCell (nodes.map pointToQk) n left (key ++ [d]) := by
  rw [splitCell, keepCell]
  simp only [length_filter_eq]

lemma nodesIn_le_of_noneOver (h : NoneOver nodes n) (hc : c.length = maxDepth) :
    nodesIn nodes c ≤ n := by
  rw [nodesIn_of_length hc]
  by_contra hover
  have hmem : keyToValue c ∈ nodes.map pointToQk := List.count_pos_iff.mp (by omega)
  obtain ⟨p, hp, heq⟩ := List.mem_map.mp hmem
  exact hover (heq ▸ h p hp)

/-- **Below the grid nothing is split** where no quadkey has too many nodes. -/
lemma splitCell_cut (h : NoneOver nodes n) (hlen : key.length + left = maxDepth) (more : ℕ) :
    splitCell (nodes.map pointToQk) n (left + more) key =
      splitCell (nodes.map pointToQk) n left key := by
  induction left generalizing key with
  | zero =>
    rcases more with _ | more
    · rfl
    · rw [Nat.zero_add, splitCell_succ, if_pos (nodesIn_le_of_noneOver h hlen), splitCell_zero]
  | succ left ih =>
    rw [show left + 1 + more = left + more + 1 by omega, splitCell_succ, splitCell_succ]
    congr 1
    exact List.flatMap_congr fun d _ =>
      ih (by rw [List.length_append, List.length_singleton]; omega)

lemma splitCell_min (h : depth ≤ maxDepth ∨ NoneOver nodes n) :
    splitCell (nodes.map pointToQk) n depth [] =
      splitCell (nodes.map pointToQk) n (min depth maxDepth) [] := by
  rcases Nat.le_total depth maxDepth with hd | hd
  · rw [Nat.min_eq_left hd]
  · rw [Nat.min_eq_right hd]
    rcases h with h | h
    · rw [le_antisymm h hd]
    · have hcut : splitCell (nodes.map pointToQk) n (maxDepth + (depth - maxDepth)) [] =
          splitCell (nodes.map pointToQk) n maxDepth [] := splitCell_cut h (Nat.zero_add _) _
      rwa [Nat.add_sub_cancel' hd] at hcut

lemma mem_keepCell {m : ℕ} (h : c ∈ keepCell m key) : c = key := by
  rw [keepCell] at h
  split at h
  · exact List.mem_singleton.mp h
  · cases h

/-- A leaf has few nodes, or is as deep as cells can be. -/
lemma nodesIn_leaf (h : c ∈ splitCell (nodes.map pointToQk) n left key) :
    nodesIn nodes c ≤ n ∨ c.length = key.length + left := by
  induction left generalizing key with
  | zero =>
    rw [splitCell_zero] at h
    rw [mem_keepCell h]
    exact Or.inr rfl
  | succ left ih =>
    rw [splitCell_succ] at h
    split at h
    · rw [mem_keepCell h]
      exact Or.inl ‹_›
    · obtain ⟨d, -, hd⟩ := List.mem_flatMap.mp h
      refine (ih hd).imp_right fun hlen => ?_
      rw [hlen, List.length_append, List.length_singleton]
      omega

/-- The cell above a leaf has too many nodes. -/
lemma nodesIn_above (h : c ∈ splitCell (nodes.map pointToQk) n left key) :
    c = key ∨ n < nodesIn nodes c.dropLast := by
  induction left generalizing key with
  | zero =>
    rw [splitCell_zero] at h
    exact Or.inl (mem_keepCell h)
  | succ left ih =>
    rw [splitCell_succ] at h
    split at h
    · exact Or.inl (mem_keepCell h)
    · rename_i hover
      obtain ⟨d, -, hd⟩ := List.mem_flatMap.mp h
      rcases ih hd with rfl | h
      · rw [List.dropLast_concat]
        exact Or.inr (Nat.not_le.mp hover)
      · exact Or.inr h

lemma nodup_splitCell (qks : List ℕ) (n left : ℕ) (key : Cell) :
    (splitCell qks n left key).Nodup := by
  have hkeep : ∀ {key : Cell} {p : Prop} [Decidable p], (if p then [key] else []).Nodup := by
    intro key p _
    split <;> simp
  induction left generalizing key with
  | zero => exact hkeep
  | succ left ih =>
    unfold splitCell
    simp only
    split
    · exact hkeep
    · refine List.nodup_flatMap.mpr ⟨fun d _ => ih _, ?_⟩
      have hne : ([0, 1, 2, 3] : List Digit).Nodup := by decide
      refine hne.imp fun {d e} hde => ?_
      -- what comes of two children begins with different digits
      intro c hc hc'
      have h1 := (splitCell_under hc).1
      have h2 := (splitCell_under hc').1
      have heq : key ++ [d] = key ++ [e] :=
        (List.prefix_of_prefix_length_le h1 h2 (by simp)).eq_of_length (by simp)
      exact hde (by simpa using heq)

end Splitting

/-! ### Both programs split alike -/

section Both

variable {nodes : List Point} {c key : Cell} {n depth left : ℕ} {p : Point}

lemma mapM_ok {ε α β : Type} {f : α → Except ε β} {g : α → β} {xs : List α}
    (h : ∀ x ∈ xs, f x = .ok (g x)) : xs.mapM f = .ok (xs.map g) := by
  induction xs with
  | nil => rfl
  | cons x xs ih =>
    rw [List.mapM_cons, h x List.mem_cons_self, ih fun y hy => h y (List.mem_cons_of_mem _ hy)]
    rfl

lemma mapM_error {ε α β : Type} {f : α → Except ε β} {xs : List α} {x : α} (hx : x ∈ xs) {e : ε}
    (h : f x = .error e) : ∃ e', xs.mapM f = .error e' := by
  induction xs with
  | nil => cases hx
  | cons y xs ih =>
    rw [List.mapM_cons]
    rcases hy : f y with e' | b
    · exact ⟨e', rfl⟩
    · have hne : x ≠ y := by
        rintro rfl
        rw [h] at hy
        cases hy
      obtain ⟨e', he'⟩ := ih ((List.mem_cons.mp hx).resolve_left hne)
      rw [he']
      exact ⟨e', rfl⟩

/-- The builder splits cells, unless it comes to one that it cannot split. -/
lemma recurse_ok (h : key.length + left ≤ maxDepth ∨ NoneOver nodes n)
    (hk : key.length ≤ maxDepth) :
    recurse (nodesIn nodes) n left key = .ok (splitCell (nodes.map pointToQk) n left key) := by
  induction left generalizing key with
  | zero => rw [recurse, splitCell_zero]
  | succ left ih =>
    rw [recurse, splitCell_succ]
    split
    · rfl
    · rename_i hover
      have hlt : key.length < maxDepth := by
        rcases h with h | h
        · omega
        · exact lt_of_le_of_ne hk fun heq => hover (nodesIn_le_of_noneOver h heq)
      have hbelow : children key = .ok (([0, 1, 2, 3] : List Digit).map fun d => key ++ [d]) := by
        rw [children, if_neg (Nat.not_le.mpr hlt)]
      have hparts : (([0, 1, 2, 3] : List Digit).map fun d => key ++ [d]).mapM
          (recurse (nodesIn nodes) n left) =
          .ok ((([0, 1, 2, 3] : List Digit).map fun d => key ++ [d]).map
            (splitCell (nodes.map pointToQk) n left)) := by
        refine mapM_ok fun child hchild => ?_
        obtain ⟨d, -, rfl⟩ := List.mem_map.mp hchild
        have hlen : (key ++ [d]).length = key.length + 1 := by simp
        exact ih (h.imp_left fun h => by omega) (by omega)
      rw [hbelow]
      show (List.mapM (recurse (nodesIn nodes) n left) _ >>=
        fun parts : List (List Cell) => pure parts.flatten) = _
      rw [hparts, List.map_map]
      rfl

lemma count_le_nodesIn (hpre : key <+: pointDigits p) :
    (nodes.map pointToQk).count (pointToQk p) ≤ nodesIn nodes key := by
  have hk : key.length ≤ maxDepth := by
    have h := hpre.length_le
    rwa [length_pointDigits] at h
  have hcov : Covers key (pointToQk p) := (covers_iff hk (length_pointDigits p)).mpr hpre
  rw [List.count, List.countP_map, nodesIn]
  refine List.countP_mono_left fun q _ hq => ?_
  rw [Function.comp_apply, beq_iff_eq] at hq
  rw [hq]
  exact decide_eq_true hcov

/-- It comes to one when a quadkey has too many nodes and the depth goes below the grid. -/
lemma recurse_error (hp : n < (nodes.map pointToQk).count (pointToQk p))
    (hpre : key <+: pointDigits p) (hlen : maxDepth < key.length + left) :
    ∃ e, recurse (nodesIn nodes) n left key = .error e := by
  have hk : key.length ≤ maxDepth := by
    have h := hpre.length_le
    rwa [length_pointDigits] at h
  induction left generalizing key with
  | zero => omega
  | succ left ih =>
    have hle := @count_le_nodesIn nodes key p hpre
    rw [recurse, if_neg (by omega)]
    by_cases hdeep : maxDepth ≤ key.length
    · rw [children, if_pos hdeep]
      exact ⟨_, rfl⟩
    · -- the node goes on into one of the four children
      obtain ⟨d, hchild⟩ := exists_child hpre (by rw [length_pointDigits]; omega)
      have hclen : (key ++ [d]).length = key.length + 1 := by simp
      obtain ⟨e, he⟩ := ih hchild (by omega) (by omega)
      have hbelow : children key = .ok (([0, 1, 2, 3] : List Digit).map fun d => key ++ [d]) := by
        rw [children, if_neg hdeep]
      have hmem : key ++ [d] ∈ ([0, 1, 2, 3] : List Digit).map fun d => key ++ [d] :=
        List.mem_map_of_mem (mem_digits d)
      obtain ⟨e', he'⟩ := mapM_error hmem he
      rw [hbelow]
      show ∃ e, (List.mapM (recurse (nodesIn nodes) n left) _ >>=
        fun parts : List (List Cell) => pure parts.flatten) = Except.error e
      rw [he']
      exact ⟨e', rfl⟩

lemma codeToKey_eq (c : Cell) : codeToKey (keyToValue c) c.length = c := by
  refine List.ext_getElem (by simp [codeToKey]) fun i h1 h2 => ?_
  have hrev : i < (List.range c.length).reverse.length := by simpa using h2
  simp only [codeToKey, List.getElem_map, List.getElem_reverse, List.getElem_range,
    List.length_range]
  exact keyToValue_digit h2

/-- The codes of the children of a cell. -/
lemma childCodes_eq (hc : c.length < 31) :
    childCodes (keyToValue c) = ([0, 1, 2, 3] : List Digit).map fun d => keyToValue (c ++ [d]) := by
  have hlt : keyToValue c * 4 < 2 ^ 64 := by
    calc keyToValue c * 4 < 4 ^ c.length * 4 := by
          have h := keyToValue_lt c
          omega
      _ = 4 ^ (c.length + 1) := (pow_succ 4 _).symm
      _ ≤ 4 ^ 32 := Nat.pow_le_pow_right (by norm_num) (by omega)
      _ = 2 ^ 64 := by norm_num
  have hbase : keyToValue c <<< 2 % 2 ^ 64 = keyToValue c <<< 2 := by
    rw [Nat.shiftLeft_eq]
    exact Nat.mod_eq_of_lt hlt
  have hor : ∀ k < 4, keyToValue c <<< 2 ||| k = keyToValue c * 4 + k := by
    intro k hk
    rw [← Nat.shiftLeft_add_eq_or_of_lt hk, Nat.shiftLeft_eq]
  unfold childCodes
  simp only [hbase, hor 1 (by norm_num), hor 2 (by norm_num), hor 3 (by norm_num), List.map_cons,
    List.map_nil, keyToValue_snoc]
  rw [Nat.shiftLeft_eq]
  rfl

/-- The extractor decides about a cell as its nodes say, with counters that are not at the cap or a
limit below the cap. -/
lemma counted_iff (hcap : n < u32Max ∨ ∀ code, (nodes.map (qkCode depth)).count code ≤ u32Max)
    (hd : depth < 32) (hc : c.length ≤ depth) (hk : c.length ≤ maxDepth) :
    (between (cumulative (histogramPass nodes depth)) (codeRangeAt (keyToValue c) c.length depth).1
        ((codeRangeAt (keyToValue c) c.length depth).2 + 1) ≤ n ↔ nodesIn nodes c ≤ n) ∧
      (0 < between (cumulative (histogramPass nodes depth))
          (codeRangeAt (keyToValue c) c.length depth).1
          ((codeRangeAt (keyToValue c) c.length depth).2 + 1) ↔ 0 < nodesIn nodes c) := by
  rw [between_histogramPass nodes hc hd, ← sum_count_codes nodes hk hc]
  exact ⟨sum_capped_le_iff (hcap.imp_right fun h code _ => h code), sum_capped_pos_iff (by decide)⟩

/-- **The extractor splits cells as the builder does.** -/
lemma recurseCodes_eq (hcap : n < u32Max ∨ ∀ code, (nodes.map (qkCode depth)).count code ≤ u32Max)
    (hd : depth < 32) (h : depth ≤ maxDepth ∨ NoneOver nodes n) (hc : c.length ≤ maxDepth)
    (hlen : c.length + left = depth) :
    recurseCodes (fun lo hi => between (cumulative (histogramPass nodes depth)) lo
      (hi + 1)) n depth left
        (keyToValue c) c.length = splitCell (nodes.map pointToQk) n left c := by
  have hroot : ∀ c : Cell, c.length = 0 ∧ keyToValue c = 0 ↔ c = [] := by
    intro c
    constructor
    · exact fun h => List.length_eq_zero_iff.mp h.1
    · rintro rfl
      exact ⟨rfl, rfl⟩
  induction left generalizing c with
  | zero =>
    obtain ⟨-, hpos⟩ := counted_iff hcap hd (c := c) (by omega) hc
    rw [recurseCodes, splitCell_zero, keepCell]
    simp only [hpos, hroot, codeToKey_eq]
  | succ left ih =>
    obtain ⟨hle, hpos⟩ := counted_iff hcap hd (c := c) (by omega) hc
    rw [recurseCodes, splitCell_succ, keepCell]
    simp only [hle, hpos, hroot, codeToKey_eq]
    split
    · rfl
    · rename_i hover
      have hlt : c.length < maxDepth := by
        rcases h with h | h
        · omega
        · exact lt_of_le_of_ne hc fun heq => hover (nodesIn_le_of_noneOver h heq)
      rw [childCodes_eq (by omega), List.flatMap_map]
      refine List.flatMap_congr fun d _ => ?_
      have hclen : (c ++ [d]).length = c.length + 1 := by simp
      rw [← hclen]
      exact ih (by omega) (by omega)

/-- There is always a leaf. -/
lemma splitCell_ne_nil (hd : depth ≤ maxDepth) :
    splitCell (nodes.map pointToQk) n depth [] ≠ [] := by
  rcases nodes with _ | ⟨p, nodes⟩
  · have hzero : nodesIn [] [] = 0 := rfl
    rcases depth with _ | depth
    · rw [splitCell_zero, keepCell, if_pos (Or.inr rfl)]
      simp
    · rw [splitCell_succ, hzero, if_pos (Nat.zero_le _), keepCell, if_pos (Or.inr rfl)]
      simp
  · obtain ⟨leaf, hleaf, -⟩ : ∃ leaf ∈ splitCell ((p :: nodes).map pointToQk) n depth [],
        Covers leaf (pointToQk p) :=
      exists_leaf_of_covers (List.mem_map_of_mem List.mem_cons_self)
        (by simpa using hd) List.nil_prefix
    exact List.ne_nil_of_mem hleaf

lemma selectLeaves_eq (hcap : n < u32Max ∨ ∀ code, (nodes.map (qkCode depth)).count code ≤ u32Max)
    (hd : depth < 32) (h : depth ≤ maxDepth ∨ NoneOver nodes n) :
    selectLeaves (histogramPass nodes depth) n depth =
      splitCell (nodes.map pointToQk) n depth [] := by
  have heq := recurseCodes_eq hcap hd h (Nat.zero_le maxDepth) (Nat.zero_add depth) (c := [])
  have hne : splitCell (nodes.map pointToQk) n depth [] ≠ [] := by
    rw [splitCell_min h]
    exact splitCell_ne_nil (Nat.min_le_right _ _)
  rw [selectLeaves]
  rw [show recurseCodes _ n depth depth 0 0 = splitCell (nodes.map pointToQk) n depth [] from heq,
    if_neg hne]

lemma selectLeafCells_eq (nodes : List Point) (n depth : ℕ) :
    selectLeafCells nodes n depth = recurse (nodesIn nodes) n depth [] := by
  rw [selectLeafCells]
  split
  · rename_i hnil
    subst hnil
    have hzero : nodesIn [] [] = 0 := rfl
    rcases depth with _ | depth
    · rfl
    · rw [recurse, hzero, if_pos (Nat.zero_le _)]
      rfl
  · simp only [rangeCount_eq]

lemma selectLeafCells_ok (h : depth ≤ maxDepth ∨ NoneOver nodes n) :
    selectLeafCells nodes n depth = .ok (splitCell (nodes.map pointToQk) n depth []) := by
  rw [selectLeafCells_eq]
  exact recurse_ok (h.imp_left fun h => by simpa using h) (Nat.zero_le _)

end Both

/-! ### The leaves -/

/-- What the leaves for some nodes are to be: none lies in another, every node has one, a leaf has
few nodes or is at the greatest depth, and the cell above a leaf has too many nodes. -/
structure Selected (nodes : List Point) (n depth : ℕ) (leaves : List Cell) : Prop where
  prefixFree : PrefixFree leaves
  nodup : leaves.Nodup
  one : ∀ p ∈ nodes, ∃! leaf, leaf ∈ leaves ∧ Covers leaf (pointToQk p)
  few : ∀ leaf ∈ leaves, nodesIn nodes leaf ≤ n ∨ leaf.length = depth
  above : ∀ leaf ∈ leaves, leaf ≠ [] → n < nodesIn nodes leaf.dropLast

section Leaves

variable {nodes : List Point} {n depth : ℕ}

lemma length_splitCell {c : Cell} (hd : depth ≤ maxDepth)
    (h : c ∈ splitCell (nodes.map pointToQk) n depth []) : c.length ≤ maxDepth := by
  have hlen := (splitCell_under h).2
  rw [List.length_nil, Nat.zero_add] at hlen
  exact hlen.trans hd

lemma selected_splitCell (hd : depth ≤ maxDepth) :
    Selected nodes n depth (splitCell (nodes.map pointToQk) n depth []) := by
  have hfree : PrefixFree (splitCell (nodes.map pointToQk) n depth []) := prefixFree_splitCell _ _
  refine ⟨hfree, nodup_splitCell _ _ _ _, fun p hp => ?_, fun leaf hleaf => ?_,
    fun leaf hleaf hne => ?_⟩
  · obtain ⟨leaf, hleaf, hcov⟩ : ∃ leaf ∈ splitCell (nodes.map pointToQk) n depth [],
        Covers leaf (pointToQk p) :=
      exists_leaf_of_covers (List.mem_map_of_mem hp) (by simpa using hd) List.nil_prefix
    refine ⟨leaf, ⟨hleaf, hcov⟩, fun other hother => ?_⟩
    -- the search gives one of them only
    have hlen : ∀ c ∈ splitCell (nodes.map pointToQk) n depth [], c.length ≤ maxDepth :=
      fun c hc => length_splitCell hd hc
    exact (leafForQk_of_covers hfree hlen hother.1 hother.2).symm.trans
      (leafForQk_of_covers hfree hlen hleaf hcov)
  · have h := nodesIn_leaf hleaf
    rwa [List.length_nil, Nat.zero_add] at h
  · exact (nodesIn_above hleaf).resolve_left hne

/-- The leaves are as they are to be also for a depth below the grid, as long as no quadkey has too
many nodes. -/
lemma selected_of_noneOver (h : depth ≤ maxDepth ∨ NoneOver nodes n) :
    Selected nodes n depth (splitCell (nodes.map pointToQk) n depth []) := by
  rcases Nat.le_total depth maxDepth with hd | hd
  · exact selected_splitCell hd
  · have hmin := splitCell_min h
    rw [Nat.min_eq_right hd] at hmin
    obtain ⟨h1, h2, h3, h4, h5⟩ := @selected_splitCell nodes n maxDepth le_rfl
    rw [hmin]
    refine ⟨h1, h2, h3, fun leaf hleaf => ?_, h5⟩
    rcases h with h | h
    · exact (h4 leaf hleaf).imp_right fun hlen => hlen.trans (le_antisymm hd h)
    · exact Or.inl ((h4 leaf hleaf).elim id fun hlen => nodesIn_le_of_noneOver h hlen)

/-- **Leaf selection.** For any nodes, any limit and any depth whose codes have 64 bits, with a
limit below the greatest counter or no counter at it: the builder gives up exactly when the depth
goes below the grid and a quadkey has too many nodes. Otherwise extractor and builder give the same
leaves, which are as they are to be; and a point that one of them covers is found in it by the
search in the index and by the walk down. -/
theorem leafSelection (nodes : List Point) (n depth : ℕ) (hd : depth < 32)
    (hcap : n < 2 ^ 32 - 1 ∨ ∀ code, (nodes.map (qkCode depth)).count code < 2 ^ 32) :
    ((∃ message, selectLeafCells nodes n depth = .error message) ↔
      maxDepth < depth ∧ ∃ p ∈ nodes, n < (nodes.map pointToQk).count (pointToQk p)) ∧
    ∀ leaves, selectLeafCells nodes n depth = .ok leaves →
      selectLeaves (histogramPass nodes depth) n depth = leaves ∧ Selected nodes n depth leaves ∧
      ∀ p, ∀ leaf ∈ leaves, Covers leaf (pointToQk p) →
        pointCellsNp leaves [p] = [leaf] ∧
          LeafSearch.pointCell leaves (p.lat / 10000000) (p.lon / 10000000) = leaf := by
  have hcap' : n < u32Max ∨ ∀ code, (nodes.map (qkCode depth)).count code ≤ u32Max := by
    refine hcap.imp (fun h => h) fun h code => ?_
    exact Nat.le_of_lt_succ (h code)
  by_cases h : depth ≤ maxDepth ∨ NoneOver nodes n
  · have hok := selectLeafCells_ok h
    constructor
    · rw [hok]
      refine iff_of_false (by simp) ?_
      rintro ⟨hdeep, p, hp, hover⟩
      rcases h with h | h
      · omega
      · exact absurd (h p hp) (Nat.not_le.mpr hover)
    · intro leaves hleaves
      rw [hok] at hleaves
      obtain rfl := Except.ok.inj hleaves
      have hsel := selected_of_noneOver h
      refine ⟨selectLeaves_eq hcap' hd h, hsel, fun p leaf hleaf hcov => ?_⟩
      refine found_of_covers hsel.prefixFree (fun c hc => ?_) hleaf hcov
      rw [splitCell_min h] at hc
      exact length_splitCell (Nat.min_le_right _ _) hc
  · rw [not_or, Nat.not_le, NoneOver] at h
    push Not at h
    obtain ⟨hdeep, p, hp, hover⟩ := h
    obtain ⟨message, herror⟩ : ∃ message, selectLeafCells nodes n depth = .error message := by
      rw [selectLeafCells_eq]
      exact recurse_error hover List.nil_prefix (by simpa using hdeep)
    rw [herror]
    exact ⟨iff_of_true ⟨message, rfl⟩ ⟨hdeep, p, hp, hover⟩, fun leaves h => by cases h⟩

/-- Two nodes, one on each side of the meridian, in a leaf each. -/
theorem leafSelection_of_two :
    selectLeafCells [⟨100000000, -100000000⟩, ⟨100000000, 100000000⟩] 1 2 = .ok [[0], [1]] ∧
      selectLeaves (histogramPass [⟨100000000, -100000000⟩, ⟨100000000, 100000000⟩] 2) 1 2 =
        [[0], [1]] := by
  have hpy : selectLeafCells [⟨100000000, -100000000⟩, ⟨100000000, 100000000⟩] 1 2 =
      .ok [[0], [1]] := by decide
  exact ⟨hpy, ((leafSelection _ 1 2 (by decide) (Or.inl (by decide))).2 _ hpy).1⟩

/-- With more nodes in one place than a counter can hold and a limit as high as the greatest
counter, the extractor does not split the root. -/
lemma selectLeaves_at_cap {k : ℕ} (hk : u32Max < k) :
    selectLeafCells (List.replicate k ⟨0, 0⟩) u32Max 1 ≠
      .ok (selectLeaves (histogramPass (List.replicate k ⟨0, 0⟩) 1) u32Max 1) := by
  have hcode : qkCode 1 ⟨0, 0⟩ = 1 := by decide
  have hcount : between (cumulative (histogramPass (List.replicate k ⟨0, 0⟩) 1))
      (codeRangeAt 0 0 1).1 ((codeRangeAt 0 0 1).2 + 1) ≤ u32Max := by
    have h := between_histogramPass (c := []) (List.replicate k ⟨0, 0⟩)
      (Nat.zero_le 1) (by norm_num)
    refine h.le.trans ?_
    rw [List.map_replicate, hcode]
    simp only [List.count_replicate]
    have hroot : keyToValue [] = 0 := rfl
    show min _ _ + (min _ _ + (min _ _ + (min _ _ + 0))) ≤ _
    simp [hroot]
  have hrust : selectLeaves (histogramPass (List.replicate k ⟨0, 0⟩) 1) u32Max 1 = [[]] := by
    rw [selectLeaves, recurseCodes]
    simp only [hcount, if_true, and_self, or_true]
    rfl
  rw [hrust]
  intro hpy
  rw [selectLeafCells_ok (Or.inl (by decide))] at hpy
  have hsel : Selected (List.replicate k ⟨0, 0⟩) u32Max 1 [[]] := by
    rw [← Except.ok.inj hpy]
    exact selected_splitCell (by decide)
  rcases hsel.few [] (List.mem_singleton.mpr rfl) with h | h
  · have hall : nodesIn (List.replicate k ⟨0, 0⟩) [] = k := by
      rw [nodesIn, List.countP_replicate, if_pos (by decide)]
    omega
  · cases h

/-- Two nodes in one place and a depth below the grid, where the builder gives up; and too many
nodes for a counter, where the leaves are not the same. -/
theorem selections_differ :
    (∃ message, selectLeafCells [⟨0, 0⟩, ⟨0, 0⟩] 1 21 = .error message) ∧
      selectLeafCells (List.replicate (2 ^ 32) ⟨0, 0⟩) u32Max 1 ≠
        .ok (selectLeaves (histogramPass (List.replicate (2 ^ 32) ⟨0, 0⟩) 1) u32Max 1) := by
  refine ⟨?_, selectLeaves_at_cap (by decide)⟩
  rw [selectLeafCells_eq]
  exact recurse_error (p := ⟨0, 0⟩) (by decide) List.nil_prefix (by decide)

end Leaves

end OsmParquet.LeafSelection
