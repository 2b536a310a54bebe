import Mathlib.Algebra.Group.Int.Defs
import Mathlib.Algebra.Group.Nat.Defs
import Mathlib.Data.List.Sort
import OsmParquet.Rows

/-!
Quadtree cells over plain longitude and latitude.

The root cell is the whole world; every split gives four children. A point has a quadkey
of twenty digits, found on a grid of `2 ^ 20` columns and rows, and as a number written in
base four the quadkeys of a cell at any depth are a range. The leaves of the tree are cut
where there are nodes, so on an extract there are gaps that no leaf covers.

The source computes the grid position in floating point. Boundaries of the grid fall on
whole units of `1e-7` degrees only at depths where the division is exact, and every other
coordinate is further from a boundary than the rounding error, so that integer division
gives the same position.
-/

namespace OsmParquet.Cells

open OsmParquet.Rows

/-- The depth of the grid. -/
def maxDepth : ℕ := 20

/-- Column of a longitude on the grid, clipped to the world. -/
def gridX (lon : ℤ) : ℕ :=
  (max 0 (min ((lon + 1800000000) * 2 ^ maxDepth / 3600000000) (2 ^ maxDepth - 1))).toNat

/-- Row of a latitude on the grid, counted from the south. -/
def gridY (lat : ℤ) : ℕ :=
  (max 0 (min ((lat + 900000000) * 2 ^ maxDepth / 1800000000) (2 ^ maxDepth - 1))).toNat

/-- The digit that bit `i` of a column and of a row counted from the south makes: the row
bit is inverted, as digits count from the north. -/
def digitAt (x y i : ℕ) : Digit :=
  match x.testBit i, y.testBit i with
  | false, true => 0
  | true, true => 1
  | false, false => 2
  | true, false => 3

/-- The quadkey of a point, the most significant digit first. -/
def pointDigits (p : Point) : Cell :=
  (List.range maxDepth).map fun k => digitAt (gridX p.lon) (gridY p.lat) (maxDepth - 1 - k)

/-- The digits of a key as a number in base four. -/
def keyToValue (c : Cell) : ℕ := c.foldl (fun v d => v * 4 + d) 0

def pointToQk (p : Point) : ℕ := keyToValue (pointDigits p)

/-- The first and the last quadkey a cell covers. -/
def qkRange (c : Cell) : ℕ × ℕ :=
  let shift := 2 * (maxDepth - c.length)
  (keyToValue c * 2 ^ shift, keyToValue c * 2 ^ shift + 2 ^ shift - 1)

/-- The leaves in the order of their ranges. -/
def leavesByLo (leaves : List Cell) : List Cell :=
  leaves.dedup.insertionSort fun a b => (qkRange a).1 ≤ (qkRange b).1

/-- The last leaf that starts at or before a quadkey, or the first leaf. When leaves tile the
world this is the leaf that covers the quadkey; in a gap it is only a neighbour. -/
def leafForQk (leaves : List Cell) (qk : ℕ) : Cell :=
  let byLo := leavesByLo leaves
  (((byLo.filter fun k => (qkRange k).1 ≤ qk).getLast?).or byLo.head?).getD []

/-- Whether a quadkey is not after the end of a leaf that `leafForQk` gave. -/
def containsQk (leaf : Cell) (qk : ℕ) : Bool := qk ≤ (qkRange leaf).2

/-- The leaf a point is placed in. -/
def pointCell (leaves : List Cell) (p : Point) : Cell := leafForQk leaves (pointToQk p)

/-- The number of digits two keys begin with in common. -/
def commonPrefix : Cell → Cell → ℕ
  | a :: as, b :: bs => if a = b then commonPrefix as bs + 1 else 0
  | _, _ => 0

/-- The greatest of the `depths` up to `d`, or the least of them. -/
def roundDepth (depths : List ℕ) (d : ℕ) : ℕ :=
  (((depths.filter (· ≤ d)).max?).or depths.min?).getD 0

/-- The cell a bounding box is placed in: the smallest that contains both corners, cut at the
leaf that covers the south-west one; when that is not a leaf, the ancestor at the next
allowed depth above. -/
def containingCellV2 (leaves : List Cell) (ancestorDepths : List ℕ) (depth : ℕ) (b : BBox) : Cell :=
  let sw := pointDigits ⟨b.ymin, b.xmin⟩
  let ne := pointDigits ⟨b.ymax, b.xmax⟩
  let lcpDepth := min depth (commonPrefix sw ne)
  let leaf := leafForQk leaves (keyToValue sw)
  let truncated := min lcpDepth leaf.length
  let final :=
    if truncated = leaf.length ∧ containsQk leaf (keyToValue sw) then truncated
    else roundDepth ancestorDepths truncated
  (sw.take depth).take final

/-- Splitting a cell with too many nodes, at most `fuel` levels down. A cell without nodes is
not a leaf unless it is the root. -/
def splitCell (qks : List ℕ) (maxNodesPerCell : ℕ) : ℕ → Cell → List Cell
  | 0, key =>
    let n := (qks.filter fun q => (qkRange key).1 ≤ q ∧ q ≤ (qkRange key).2).length
    if 0 < n ∨ key = [] then [key] else []
  | fuel + 1, key =>
    let n := (qks.filter fun q => (qkRange key).1 ≤ q ∧ q ≤ (qkRange key).2).length
    if n ≤ maxNodesPerCell then (if 0 < n ∨ key = [] then [key] else [])
    else ([0, 1, 2, 3] : List Digit).flatMap fun d =>
      splitCell qks maxNodesPerCell fuel (key ++ [d])

def selectLeafCells (nodes : List Point) (maxNodesPerCell depth : ℕ) : List Cell :=
  if nodes = [] then [[]] else splitCell (nodes.map pointToQk) maxNodesPerCell depth []

/-! ### The Hilbert key -/

/-- One bit of the classic `xy2d` algorithm after another; `k` bits are left. -/
def hilbertLoop : ℕ → ℕ → ℕ → ℕ → ℕ
  | 0, _, _, d => d
  | k + 1, x, y, d =>
    let s := 2 ^ k
    let rx := if x.testBit k then 1 else 0
    let ry := if y.testBit k then 1 else 0
    let d := d + s * s * ((3 * rx) ^^^ ry)
    if ry = 0 then
      if rx = 1 then hilbertLoop k (2 ^ maxDepth - 1 - y) (2 ^ maxDepth - 1 - x) d
      else hilbertLoop k y x d
    else hilbertLoop k x y d

def hilbertKey (p : Point) : ℕ := hilbertLoop maxDepth (gridX p.lon) (gridY p.lat) 0

/-- Half of a number, rounded to the nearest whole one and halves to even. -/
def roundHalf (s : ℤ) : ℤ :=
  if s % 2 = 0 ∨ s / 2 % 2 = 0 then s / 2 else s / 2 + 1

/-- The middle of a bounding box. -/
def bboxCentroid (b : BBox) : Point := ⟨roundHalf (b.ymin + b.ymax), roundHalf (b.xmin + b.xmax)⟩

end OsmParquet.Cells
