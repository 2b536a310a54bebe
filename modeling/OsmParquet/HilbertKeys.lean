import Mathlib.Data.Nat.Bitwise
import Mathlib.Data.Option.NAry
import Mathlib.Data.Rat.Floor
import OsmParquet.Cells
import OsmParquet.HilbertCurve

/-!
The Hilbert keys that files are sorted by, and the copies of the algorithm that compute them.

`hilbert_xy2d` walks the bits of a column and of a row from the highest down; at each bit it
adds the place of the quadrant and turns the square. The loop never cuts off the bits that it
has used, and reflects in the whole grid instead of in the quadrant, so that only the low bits
of its state mean anything. There are five copies: the scalar one and the `numpy` one of the
layout, the scalar one and the `pyarrow` one of the engine, and the one of the raw builder on
words of 64 bits.
-/

namespace OsmParquet.HilbertKeys

open OsmParquet.HilbertCurve

/-- The order of the grid that keys are taken on. -/
def hilbertOrder : ℕ := 20

/-- `while s > 0: ...; s //= 2`. -/
def whileHalving {σ : Type*} (body : ℕ → σ → σ) (s : ℕ) (st : σ) : σ :=
  if s = 0 then st else whileHalving body (s / 2) (body s st)
termination_by s

lemma whileHalving_zero {σ : Type*} (body : ℕ → σ → σ) (st : σ) : whileHalving body 0 st = st := by
  rw [whileHalving, if_pos rfl]

lemma whileHalving_pow {σ : Type*} (body : ℕ → σ → σ) (k : ℕ) (st : σ) :
    whileHalving body (2 ^ (k + 1) / 2) st = whileHalving body (2 ^ k / 2) (body (2 ^ k) st) := by
  have hs : 2 ^ (k + 1) / 2 = 2 ^ k := by rw [pow_succ, Nat.mul_div_cancel _ (by omega)]
  rw [hs, whileHalving, if_neg (by positivity)]

/-- A relation between two states that every turn of two loops keeps holds at their ends. -/
lemma whileHalving_rel {σ τ : Type*} {f : ℕ → σ → σ} {g : ℕ → τ → τ} {R : σ → τ → Prop}
    (hstep : ∀ s a b, R a b → R (f s a) (g s b)) {s : ℕ} {a : σ} {b : τ} (h : R a b) :
    R (whileHalving f s a) (whileHalving g s b) := by
  induction s using Nat.strong_induction_on generalizing a b with
  | _ s ih =>
    rw [whileHalving, whileHalving.eq_def g]
    by_cases hs : s = 0
    · rwa [if_pos hs, if_pos hs]
    · rw [if_neg hs, if_neg hs]
      exact ih (s / 2) (by omega) (hstep s a b h)

/-- A loop over a list of states at once is the loop at every place of it. -/
lemma whileHalving_map {σ : Type*} (body : ℕ → σ → σ) (s : ℕ) (l : List σ) :
    whileHalving (fun s l => l.map (body s)) s l = l.map (whileHalving body s) := by
  induction s using Nat.strong_induction_on generalizing l with
  | _ s ih =>
    rw [whileHalving]
    by_cases hs : s = 0
    · subst hs
      rw [if_pos rfl, show whileHalving body 0 = id from funext (whileHalving_zero body),
        List.map_id]
    · rw [if_neg hs, ih (s / 2) (by omega), List.map_map]
      refine List.map_congr_left fun a _ => ?_
      rw [Function.comp_apply, whileHalving.eq_def body s, if_neg hs]

/-! ### The copies of the algorithm -/

/-- The state of the loop: the turned column and row, and the sum so far. -/
structure Walk where
  x : ℕ
  y : ℕ
  d : ℕ
  deriving DecidableEq, Repr

def bitOf (v s : ℕ) : ℕ := if 0 < v &&& s then 1 else 0

/-- One turn of the loop of `hilbert_xy2d`. -/
def hilbertStep (n s : ℕ) (w : Walk) : Walk :=
  let rx := bitOf w.x s
  let ry := bitOf w.y s
  let d := w.d + s * s * ((3 * rx) ^^^ ry)
  if ry = 0 then
    if rx = 1 then ⟨n - 1 - w.y, n - 1 - w.x, d⟩
    else ⟨w.y, w.x, d⟩
  else ⟨w.x, w.y, d⟩

def hilbertXy2d (order x y : ℕ) : ℕ :=
  let n := 1 <<< order
  (whileHalving (hilbertStep n) (n / 2) ⟨x, y, 0⟩).d

/-- The engine's reflection and swap. -/
def rot (n x y rx ry : ℕ) : ℕ × ℕ :=
  if ry = 0 then
    let (x, y) := if rx = 1 then (n - 1 - x, n - 1 - y) else (x, y)
    (y, x)
  else (x, y)

/-- One turn of the engine's loop. -/
def xy2dStep (n s : ℕ) (w : Walk) : Walk :=
  let rx := bitOf w.x s
  let ry := bitOf w.y s
  let d := w.d + s * s * ((3 * rx) ^^^ ry)
  let (x, y) := rot n w.x w.y rx ry
  ⟨x, y, d⟩

def xy2d (order x y : ℕ) : ℕ :=
  let n := 1 <<< order
  (whileHalving (xy2dStep n) (n / 2) ⟨x, y, 0⟩).d

/-- Columns of the `numpy` loop, a place for each point. Values stay below `2 ^ 40`, so that
neither the signed nor the unsigned columns overflow. -/
structure NpWalk where
  x : List ℕ
  y : List ℕ
  d : List ℕ

/-- Choice by a mask, place by place. -/
def npWhere (mask : List Bool) (a b : List ℕ) : List ℕ :=
  List.zipWith (fun m (v : ℕ × ℕ) => if m then v.1 else v.2) mask (a.zip b)

/-- One turn of the loop of `hilbert_keys`. -/
def npStep (n s : ℕ) (w : NpWalk) : NpWalk :=
  let rx := w.x.map (bitOf · s)
  let ry := w.y.map (bitOf · s)
  let d := List.zipWith (· + ·) w.d
    ((List.zipWith (fun a b => (3 * a) ^^^ b) rx ry).map (s * s * ·))
  let swapMask := ry.map (decide <| · = 0)
  let flipMask := List.zipWith (· && ·) swapMask (rx.map (decide <| · = 1))
  let x := npWhere flipMask (w.x.map (n - 1 - ·)) w.x
  let y := npWhere flipMask (w.y.map (n - 1 - ·)) w.y
  ⟨npWhere swapMask y x, npWhere swapMask x y, d⟩

/-- The loop of `hilbert_keys` over columns and rows that are clipped to the grid. -/
def npXy2d (x y : List ℕ) : List ℕ :=
  let n := 1 <<< hilbertOrder
  (whileHalving (npStep n) (n / 2) ⟨x, y, x.map fun _ => 0⟩).d

/-- Columns of the `pyarrow` loop, with nulls. -/
structure PaWalk where
  x : List (Option ℕ)
  y : List (Option ℕ)
  d : List (Option ℕ)

/-- A binary function of `pyarrow.compute`: null where either side is. -/
def pc₂ {α β γ : Type*} (f : α → β → γ) (a : List (Option α)) (b : List (Option β)) :
    List (Option γ) :=
  List.zipWith (Option.map₂ f) a b

/-- A function of a column and of scalars. -/
def pc₁ {α β : Type*} (f : α → β) (a : List (Option α)) : List (Option β) := a.map (Option.map f)

/-- `pc.if_else`: null where the condition is, else the chosen side. -/
def pcIfElse (cond : List (Option Bool)) (a b : List (Option ℕ)) : List (Option ℕ) :=
  List.zipWith (fun c (v : Option ℕ × Option ℕ) => c.bind fun c => if c then v.1 else v.2)
    cond (a.zip b)

/-- One turn of the loop of `_vec_xy2d`. -/
def paStep (side s : ℕ) (w : PaWalk) : PaWalk :=
  let rx := pc₁ (bitOf · s) w.x
  let ry := pc₁ (bitOf · s) w.y
  let d := pc₂ (· + ·) w.d (pc₁ (s * s * ·) (pc₂ (· ^^^ ·) (pc₁ (3 * ·) rx) ry))
  let neg := pc₂ (· && ·) (pc₁ (decide <| · = 0) ry) (pc₁ (decide <| · = 1) rx)
  let x2 := pcIfElse neg (pc₁ (side - 1 - ·) w.x) w.x
  let y2 := pcIfElse neg (pc₁ (side - 1 - ·) w.y) w.y
  let swap := pc₁ (decide <| · = 0) ry
  ⟨pcIfElse swap y2 w.x, pcIfElse swap x2 w.y, d⟩

def vecXy2d (x y : List (Option ℕ)) : List (Option ℕ) :=
  let side := 1 <<< hilbertOrder
  (whileHalving (paStep side) (side / 2) ⟨x, y, pc₁ (· * 0) x⟩).d

/-- The loop of the raw builder; words wrap around. -/
def hilbertLoopU64 (n s x y d : UInt64) : UInt64 :=
  if h : 0 < s then
    let rx : UInt64 := if 0 < x &&& s then 1 else 0
    let ry : UInt64 := if 0 < y &&& s then 1 else 0
    let d := d + s * s * ((3 * rx) ^^^ ry)
    if ry = 0 then
      if rx = 1 then hilbertLoopU64 n (s / 2) (n - 1 - y) (n - 1 - x) d
      else hilbertLoopU64 n (s / 2) y x d
    else hilbertLoopU64 n (s / 2) x y d
  else d
termination_by s.toNat
decreasing_by all_goals
  have : 0 < s.toNat := UInt64.lt_iff_toNat_lt.mp h
  simp only [UInt64.toNat_div]
  exact Nat.div_lt_self this (by decide)

def hilbertXy2dU64 (order : UInt32) (x y : UInt64) : UInt64 :=
  let n := (1 : UInt64) <<< order.toUInt64
  hilbertLoopU64 n (n / 2) x y 0

/-! ### The loop walks the curve -/

lemma bitOf_two_pow (v k : ℕ) : bitOf v (2 ^ k) = v / 2 ^ k % 2 := by
  have hpos : 0 < 2 ^ k := by positivity
  have hbit : v.testBit k = decide (v / 2 ^ k % 2 = 1) := Nat.testBit_eq_decide_div_mod_eq
  rw [bitOf, Nat.and_two_pow, hbit]
  rcases Nat.mod_two_eq_zero_or_one (v / 2 ^ k) with h | h <;> simp [h]

/-- What is left of a number at one bit more: the bit tells the half. -/
lemma mod_pow_succ_eq (v k : ℕ) : v % 2 ^ (k + 1) = v % 2 ^ k + 2 ^ k * bitOf v (2 ^ k) := by
  rw [bitOf_two_pow, Nat.mod_pow_succ]

lemma bitOf_cases (v s : ℕ) : bitOf v s = 0 ∨ bitOf v s = 1 := by
  unfold bitOf
  split_ifs
  · exact .inr rfl
  · exact .inl rfl

/-- Reflection in the whole grid reflects the low bits in the quadrant. -/
lemma reflect_mod {order k v : ℕ} (hk : k ≤ order) (hv : v < 2 ^ order) :
    (2 ^ order - 1 - v) % 2 ^ k = 2 ^ k - 1 - v % 2 ^ k := by
  have hn : 2 ^ order = 2 ^ k * 2 ^ (order - k) := by rw [← pow_add]; congr 1; omega
  rw [Nat.sub_sub, add_comm 1 v, hn, Nat.mul_sub_mod (hn ▸ hv)]
  omega

/-- The bits of a column and of a row that a loop at bit `k` still has to read. -/
def Walk.low (k : ℕ) (w : Walk) : ℕ × ℕ := (w.x % 2 ^ k, w.y % 2 ^ k)

def Walk.OnGrid (order : ℕ) (w : Walk) : Prop := w.x < 2 ^ order ∧ w.y < 2 ^ order

variable {order k : ℕ} {w : Walk}

lemma hilbertStep_onGrid (s : ℕ) (h : w.OnGrid order) :
    (hilbertStep (2 ^ order) s w).OnGrid order := by
  obtain ⟨hx, hy⟩ := h
  unfold hilbertStep Walk.OnGrid
  dsimp only
  split_ifs <;> constructor <;> dsimp only <;> omega

/-- One turn adds the quadrant's place. -/
lemma hilbertStep_d : (hilbertStep (2 ^ order) (2 ^ k) w).d =
    w.d + quadrant (2 ^ k) (w.low (k + 1)) * 4 ^ k := by
  have hs : 2 ^ k * 2 ^ k = 4 ^ k := by rw [← mul_pow]; rfl
  have hx := Nat.mod_lt w.x (show 0 < 2 ^ k by positivity)
  have hy := Nat.mod_lt w.y (show 0 < 2 ^ k by positivity)
  have hd : (hilbertStep (2 ^ order) (2 ^ k) w).d =
      w.d + 4 ^ k * ((3 * bitOf w.x (2 ^ k)) ^^^ bitOf w.y (2 ^ k)) := by
    unfold hilbertStep
    dsimp only
    split_ifs <;> rw [hs]
  rw [hd, Walk.low, mod_pow_succ_eq, mod_pow_succ_eq, quadrant, mul_comm (4 ^ k)]
  rcases bitOf_cases w.x (2 ^ k) with h₁ | h₁ <;> rcases bitOf_cases w.y (2 ^ k) with h₂ | h₂ <;>
    simp [h₁, h₂, hx, hy]

/-- One turn goes on in the quadrant's copy of the curve. -/
lemma hilbertStep_low (hk : k ≤ order) (h : w.OnGrid order) :
    (hilbertStep (2 ^ order) (2 ^ k) w).low k = enter (2 ^ k) (w.low (k + 1)) := by
  have hx := Nat.mod_lt w.x (show 0 < 2 ^ k by positivity)
  have hy := Nat.mod_lt w.y (show 0 < 2 ^ k by positivity)
  have rx := reflect_mod hk h.1
  have ry := reflect_mod hk h.2
  unfold Walk.low
  rw [mod_pow_succ_eq, mod_pow_succ_eq, enter, hilbertStep]
  rcases bitOf_cases w.x (2 ^ k) with h₁ | h₁ <;> rcases bitOf_cases w.y (2 ^ k) with h₂ | h₂ <;>
    simp [h₁, h₂, hx, hy, rx, ry]
  omega

lemma whileHalving_index (hk : k ≤ order) (h : w.OnGrid order) :
    (whileHalving (hilbertStep (2 ^ order)) (2 ^ k / 2) w).d = w.d + index k (w.low k) := by
  induction k generalizing w with
  | zero => rw [show 2 ^ 0 / 2 = 0 from rfl, whileHalving_zero, index, add_zero]
  | succ k ih =>
    rw [whileHalving_pow, ih (by omega) (hilbertStep_onGrid _ h), hilbertStep_d,
      hilbertStep_low (by omega) h, index, add_assoc]

/-- **The loop computes the place along the curve.** -/
theorem hilbertXy2d_eq_index {x y : ℕ} (hx : x < 2 ^ order) (hy : y < 2 ^ order) :
    hilbertXy2d order x y = index order (x, y) := by
  unfold hilbertXy2d
  dsimp only
  rw [Nat.one_shiftLeft, @whileHalving_index order order ⟨x, y, 0⟩ le_rfl ⟨hx, hy⟩,
    Walk.low, Nat.mod_eq_of_lt hx, Nat.mod_eq_of_lt hy, zero_add]

/-! ### The copies agree -/

lemma xy2dStep_eq (n s : ℕ) (w : Walk) : xy2dStep n s w = hilbertStep n s w := by
  unfold xy2dStep rot hilbertStep
  dsimp only
  split_ifs <;> rfl

theorem xy2d_eq (order x y : ℕ) : xy2d order x y = hilbertXy2d order x y := by
  unfold xy2d hilbertXy2d
  dsimp only
  rw [show xy2dStep (1 <<< order) = hilbertStep (1 <<< order) from
    funext fun s => funext fun w => xy2dStep_eq _ s w]

/-- The columns of a `numpy` loop that hold these walks. -/
def NpWalk.ofWalks (ws : List Walk) : NpWalk := ⟨ws.map Walk.x, ws.map Walk.y, ws.map Walk.d⟩

lemma npWhere_map {α : Type*} (c : α → Bool) (f g : α → ℕ) (l : List α) :
    npWhere (l.map c) (l.map f) (l.map g) = l.map fun a => if c a then f a else g a := by
  rw [npWhere, List.zip_map', List.zipWith_map, List.zipWith_self]

/-- A turn of the `numpy` loop is a turn of the scalar one at every place. -/
lemma npStep_ofWalks (n s : ℕ) (ws : List Walk) :
    npStep n s (NpWalk.ofWalks ws) = NpWalk.ofWalks (ws.map (hilbertStep n s)) := by
  simp only [npStep, NpWalk.ofWalks, List.map_map, List.zipWith_map, List.zipWith_self, npWhere_map,
    NpWalk.mk.injEq]
  refine ⟨List.map_congr_left ?_, List.map_congr_left ?_, List.map_congr_left ?_⟩ <;>
    intro w _ <;> simp only [hilbertStep, Function.comp_apply] <;>
    rcases bitOf_cases w.x s with h₁ | h₁ <;> rcases bitOf_cases w.y s with h₂ | h₂ <;>
    simp [h₁, h₂]

theorem npXy2d_eq (ps : List (ℕ × ℕ)) :
    npXy2d (ps.map Prod.fst) (ps.map Prod.snd) = ps.map fun p =>
      hilbertXy2d hilbertOrder p.1 p.2 := by
  have hrel := whileHalving_rel (f := npStep (1 <<< hilbertOrder))
    (g := fun s ws => ws.map (hilbertStep (1 <<< hilbertOrder) s))
    (R := fun a ws => a = NpWalk.ofWalks ws) (fun s a ws h => by rw [h, npStep_ofWalks])
    (s := 1 <<< hilbertOrder / 2) (b := ps.map fun p => ⟨p.1, p.2, 0⟩) rfl
  have hstart : NpWalk.ofWalks (ps.map fun p => ⟨p.1, p.2, 0⟩) =
      ⟨ps.map Prod.fst, ps.map Prod.snd, (ps.map Prod.fst).map fun _ => 0⟩ := by
    simp [NpWalk.ofWalks, Function.comp_def]
  rw [npXy2d, ← hstart, hrel, whileHalving_map]
  simp only [NpWalk.ofWalks, List.map_map]
  rfl

/-- A place of the `pyarrow` columns. -/
structure PaPlace where
  x : Option ℕ
  y : Option ℕ
  d : Option ℕ

/-- The columns of a `pyarrow` loop that hold these places. -/
def PaWalk.ofPlaces (ps : List PaPlace) : PaWalk :=
  ⟨ps.map PaPlace.x, ps.map PaPlace.y, ps.map PaPlace.d⟩

/-- A place that holds a walk. -/
def PaPlace.ofWalk (w : Walk) : PaPlace := ⟨some w.x, some w.y, some w.d⟩

/-- A turn of the `pyarrow` loop at one place. -/
def placeStep (side s : ℕ) (p : PaPlace) : PaPlace :=
  let rx := p.x.map (bitOf · s)
  let ry := p.y.map (bitOf · s)
  let neg := Option.map₂ (· && ·) (ry.map (decide <| · = 0)) (rx.map (decide <| · = 1))
  let x2 := neg.bind fun c => if c then p.x.map (side - 1 - ·) else p.x
  let y2 := neg.bind fun c => if c then p.y.map (side - 1 - ·) else p.y
  let swap := ry.map (decide <| · = 0)
  ⟨swap.bind fun c => if c then y2 else p.x, swap.bind fun c => if c then x2 else p.y,
    Option.map₂ (· + ·) p.d ((Option.map₂ (· ^^^ ·) (rx.map (3 * ·)) ry).map (s * s * ·))⟩

lemma pcIfElse_map {α : Type*} (c : α → Option Bool) (f g : α → Option ℕ) (l : List α) :
    pcIfElse (l.map c) (l.map f) (l.map g) =
      l.map fun a => (c a).bind fun c => if c then f a else g a := by
  rw [pcIfElse, List.zip_map', List.zipWith_map, List.zipWith_self]

lemma pc₂_map {α β γ δ : Type*} (h : β → γ → δ) (f : α → Option β) (g : α → Option γ) (l : List α) :
    pc₂ h (l.map f) (l.map g) = l.map fun a => Option.map₂ h (f a) (g a) := by
  rw [pc₂, List.zipWith_map, List.zipWith_self]

lemma pc₁_map {α β γ : Type*} (h : β → γ) (f : α → Option β) (l : List α) :
    pc₁ h (l.map f) = l.map fun a => (f a).map h := by
  rw [pc₁, List.map_map]
  rfl

lemma paStep_ofPlaces (side s : ℕ) (ps : List PaPlace) :
    paStep side s (PaWalk.ofPlaces ps) = PaWalk.ofPlaces (ps.map (placeStep side s)) := by
  simp only [paStep, PaWalk.ofPlaces, pc₁_map, pc₂_map, pcIfElse_map, List.map_map, PaWalk.mk.injEq]
  exact ⟨rfl, rfl, rfl⟩

/-- Where nothing is null a turn is a turn of the scalar loop. -/
lemma placeStep_ofWalk (side s : ℕ) (w : Walk) :
    placeStep side s (PaPlace.ofWalk w) = PaPlace.ofWalk (hilbertStep side s w) := by
  simp only [placeStep, PaPlace.ofWalk, hilbertStep]
  rcases bitOf_cases w.x s with h₁ | h₁ <;> rcases bitOf_cases w.y s with h₂ | h₂ <;>
    simp [h₁, h₂]

/-- A null never becomes a number again. -/
lemma placeStep_null (side s : ℕ) {p : PaPlace} (h : p.d = none ∨ p.x = none ∨ p.y = none) :
    (placeStep side s p).d = none := by
  rcases h with h | h | h <;> simp [placeStep, h]

lemma whileHalving_null (side s : ℕ) {p : PaPlace} (h : p.d = none) :
    (whileHalving (placeStep side) s p).d = none :=
  whileHalving_rel (g := fun _ (_ : Unit) => ()) (R := fun (p : PaPlace) _ => p.d = none)
    (fun s _ _ h => placeStep_null side s (.inl h)) (b := ()) h

lemma whileHalving_ofWalk (side s : ℕ) (w : Walk) :
    whileHalving (placeStep side) s (PaPlace.ofWalk w) =
      PaPlace.ofWalk (whileHalving (hilbertStep side) s w) :=
  whileHalving_rel (R := fun p w => p = PaPlace.ofWalk w)
    (fun s p w h => by rw [h, placeStep_ofWalk]) rfl

/-- The loop at one place: null where a coordinate is. -/
lemma whileHalving_place (x y : Option ℕ) :
    (whileHalving (placeStep (2 ^ hilbertOrder)) (2 ^ hilbertOrder / 2) ⟨x, y, x.map (· * 0)⟩).d =
      Option.map₂ (hilbertXy2d hilbertOrder) x y := by
  cases x with
  | none =>
    rw [whileHalving_null _ _ rfl]
    rfl
  | some x =>
    cases y with
    | none =>
      rw [show hilbertOrder = 19 + 1 from rfl, whileHalving_pow,
        whileHalving_null _ _ (placeStep_null _ _ (.inr (.inr rfl)))]
      rfl
    | some y =>
      have := whileHalving_ofWalk (2 ^ hilbertOrder) (2 ^ hilbertOrder / 2) ⟨x, y, 0⟩
      simp only [PaPlace.ofWalk] at this
      rw [Option.map_some, Nat.mul_zero, this, Option.map₂_some_some, hilbertXy2d,
        Nat.one_shiftLeft]

theorem vecXy2d_eq (ps : List (Option ℕ × Option ℕ)) :
    vecXy2d (ps.map Prod.fst) (ps.map Prod.snd) =
      ps.map fun p => Option.map₂ (hilbertXy2d hilbertOrder) p.1 p.2 := by
  have hrel := whileHalving_rel (f := paStep (2 ^ hilbertOrder))
    (g := fun s ps => ps.map (placeStep (2 ^ hilbertOrder) s))
    (R := fun a ps => a = PaWalk.ofPlaces ps) (fun s a ps h => by rw [h, paStep_ofPlaces])
    (s := 2 ^ hilbertOrder / 2) (b := ps.map fun p => (⟨p.1, p.2, p.1.map (· * 0)⟩ : PaPlace)) rfl
  have hstart : PaWalk.ofPlaces (ps.map fun p => ⟨p.1, p.2, p.1.map (· * 0)⟩) =
      ⟨ps.map Prod.fst, ps.map Prod.snd, pc₁ (· * 0) (ps.map Prod.fst)⟩ := by
    simp only [PaWalk.ofPlaces, pc₁_map, List.map_map]
    rfl
  rw [vecXy2d, Nat.one_shiftLeft, ← hstart, hrel, whileHalving_map]
  simp only [PaWalk.ofPlaces, List.map_map]
  exact List.map_congr_left fun p _ => whileHalving_place p.1 p.2

/-- Words and numbers: a turn of the loop of the raw builder. -/
lemma toNat_bit (x s : UInt64) :
    (if 0 < x &&& s then 1 else 0 : UInt64).toNat = bitOf x.toNat s.toNat := by
  have h : 0 < x &&& s ↔ 0 < x.toNat &&& s.toNat := by
    rw [UInt64.lt_iff_toNat_lt, UInt64.toNat_and]
    rfl
  unfold bitOf
  by_cases h' : 0 < x &&& s
  · rw [if_pos h', if_pos (h.mp h')]
    rfl
  · rw [if_neg h', if_neg (mt h.mpr h')]
    rfl

lemma toNat_digit {rx ry : UInt64} (hx : rx.toNat = 0 ∨ rx.toNat = 1) :
    ((3 * rx) ^^^ ry).toNat = (3 * rx.toNat) ^^^ ry.toNat := by
  rw [UInt64.toNat_xor, UInt64.toNat_mul]
  rcases hx with h | h <;> rw [h] <;> rfl

/-- The sum of the raw builder is the sum of the scalar loop, in 64 bits. -/
lemma toNat_sum {d s c : UInt64} {e : ℕ} (hd : d.toNat = e % 2 ^ 64) :
    (d + s * s * c).toNat = (e + s.toNat * s.toNat * c.toNat) % 2 ^ 64 := by
  rw [UInt64.toNat_add, UInt64.toNat_mul, UInt64.toNat_mul, hd, ← Nat.add_mod, Nat.add_mod e,
    Nat.add_mod e, Nat.mod_mul_mod]

lemma toNat_reflect {n x : UInt64} (h : x.toNat < n.toNat) :
    (n - 1 - x).toNat = n.toNat - 1 - x.toNat := by
  have h1 : (n - 1).toNat = n.toNat - 1 := UInt64.toNat_sub_of_le _ _ (by
    rw [UInt64.le_iff_toNat_le]
    exact Nat.one_le_of_lt h)
  rw [UInt64.toNat_sub_of_le _ _ (by rw [UInt64.le_iff_toNat_le, h1]; omega), h1]

lemma toNat_sum_bits {d s x y : UInt64} {e : ℕ} (hd : d.toNat = e % 2 ^ 64) :
    (d + s * s * ((3 * (if 0 < x &&& s then 1 else 0)) ^^^ (if 0 < y &&& s then 1 else 0))).toNat =
      (e + s.toNat * s.toNat * ((3 * bitOf x.toNat s.toNat) ^^^ bitOf y.toNat s.toNat)) % 2 ^ 64 := by
  rw [toNat_sum hd, toNat_digit (by rw [toNat_bit]; exact bitOf_cases _ _), toNat_bit, toNat_bit]

lemma whileHalving_pos {σ : Type*} {body : ℕ → σ → σ} {s : UInt64} {st : σ} (h : 0 < s) :
    whileHalving body s.toNat st = whileHalving body (s / 2).toNat (body s.toNat st) := by
  have hs : s.toNat ≠ 0 := (UInt64.lt_iff_toNat_lt.mp h).ne'
  rw [whileHalving, if_neg hs, UInt64.toNat_div]
  rfl

/-- The loop of the raw builder follows the scalar loop. -/
lemma toNat_hilbertLoopU64 (n s x y d : UInt64) (e : ℕ) (hx : x.toNat < n.toNat)
    (hy : y.toNat < n.toNat) (hd : d.toNat = e % 2 ^ 64) :
    (hilbertLoopU64 n s x y d).toNat =
      (whileHalving (hilbertStep n.toNat) s.toNat ⟨x.toNat, y.toNat, e⟩).d % 2 ^ 64 := by
  fun_induction hilbertLoopU64 n s x y d generalizing e with
  | case1 s x y d h rx ry d' hry hrx ih =>
    have hrx' : bitOf x.toNat s.toNat = 1 := by rw [← toNat_bit]; exact congrArg UInt64.toNat hrx
    have hry' : bitOf y.toNat s.toNat = 0 := by rw [← toNat_bit]; exact congrArg UInt64.toNat hry
    rw [ih _ (by rw [toNat_reflect hy]; omega) (by rw [toNat_reflect hx]; omega)
      (toNat_sum_bits hd), toNat_reflect hx, toNat_reflect hy, whileHalving_pos h, hilbertStep]
    simp [hrx', hry']
  | case2 s x y d h rx ry d' hry hrx ih =>
    have hrx' : bitOf x.toNat s.toNat ≠ 1 := by
      rw [← toNat_bit]
      exact fun h => hrx (UInt64.toNat_inj.mp h)
    have hry' : bitOf y.toNat s.toNat = 0 := by rw [← toNat_bit]; exact congrArg UInt64.toNat hry
    rw [ih _ hy hx (toNat_sum_bits hd), whileHalving_pos h, hilbertStep]
    simp [hrx', hry']
  | case3 s x y d h rx ry d' hry ih =>
    have hry' : bitOf y.toNat s.toNat ≠ 0 := by
      rw [← toNat_bit]
      exact fun h => hry (UInt64.toNat_inj.mp h)
    rw [ih _ hx hy (toNat_sum_bits hd), whileHalving_pos h, hilbertStep]
    simp [hry']
  | case4 s x y d h =>
    have hs : s.toNat = 0 := by
      rw [UInt64.lt_iff_toNat_lt] at h
      exact Nat.eq_zero_of_not_pos h
    rw [hs, whileHalving_zero, hd]

/-- **The raw builder's index is the index**, in the 64 bits that hold it. -/
theorem toNat_hilbertXy2dU64 {order : UInt32} {x y : UInt64} (ho : order.toNat < 64)
    (hx : x.toNat < 2 ^ order.toNat) (hy : y.toNat < 2 ^ order.toNat) :
    (hilbertXy2dU64 order x y).toNat = hilbertXy2d order.toNat x.toNat y.toNat % 2 ^ 64 := by
  have hn : ((1 : UInt64) <<< order.toUInt64).toNat = 2 ^ order.toNat := by
    rw [UInt64.toNat_shiftLeft]
    have : (1 : UInt64).toNat <<< (order.toUInt64.toNat % 64) = 2 ^ order.toNat := by
      rw [UInt32.toNat_toUInt64, Nat.mod_eq_of_lt ho]
      exact Nat.one_shiftLeft _
    rw [this]
    exact Nat.mod_eq_of_lt (Nat.pow_lt_pow_right (by omega) ho)
  rw [hilbertXy2dU64, toNat_hilbertLoopU64 _ _ _ _ _ 0 (by rwa [hn]) (by rwa [hn]) rfl, hn,
    UInt64.toNat_div, hn, hilbertXy2d, Nat.one_shiftLeft]
  rfl

/-! ### From coordinates to keys

The place on the grid is computed in doubles. Nothing below depends on how they round: every
copy does the same operations in the same order, except that some round down and some
towards zero, and that the two ways of halving a sum are the same number.
-/

/-- Double arithmetic, with what the copies rely on. -/
structure Doubles where
  F : Type
  ofInt : ℤ → F
  add : F → F → F
  mul : F → F → F
  div : F → F → F
  floor : F → ℤ
  trunc : F → ℤ
  trunc_of_nonneg : ∀ v, 0 ≤ floor v → trunc v = floor v
  trunc_of_neg : ∀ v, floor v < 0 → trunc v ≤ 0
  /-- Sums of two coordinates are exact. -/
  add_ofInt : ∀ a b : ℤ, |a| ≤ 2 ^ 31 → |b| ≤ 2 ^ 31 → add (ofInt a) (ofInt b) = ofInt (a + b)
  /-- Halving is exact, so that both sides round the same number. -/
  half_div : ∀ s : ℤ, |s| ≤ 2 ^ 32 → div (div (ofInt s) (ofInt 2)) (ofInt 10000000) =
    div (ofInt s) (mul (ofInt 2) (ofInt 10000000))

namespace Doubles

variable (D : Doubles)

/-- A coordinate in degrees. -/
def degrees (e7 : ℤ) : D.F := D.div (D.ofInt e7) (D.ofInt 10000000)

def scaleX (lon : D.F) : D.F :=
  D.mul (D.div (D.add lon (D.ofInt 180)) (D.ofInt 360)) (D.ofInt (2 ^ hilbertOrder))

def scaleY (lat : D.F) : D.F :=
  D.mul (D.div (D.add lat (D.ofInt 90)) (D.ofInt 180)) (D.ofInt (2 ^ hilbertOrder))

/-- The layout's grid position. -/
def gridXy (lat lon : ℤ) : ℕ × ℕ :=
  let n : ℤ := 2 ^ hilbertOrder
  ((min (max (D.trunc (D.scaleX (D.degrees lon))) 0) (n - 1)).toNat,
    (min (max (D.trunc (D.scaleY (D.degrees lat))) 0) (n - 1)).toNat)

def hilbertKey (lat lon : ℤ) : ℕ :=
  let p := D.gridXy lat lon
  hilbertXy2d hilbertOrder p.1 p.2

def npClip (v : ℤ) : ℕ := (min (max v 0) (2 ^ hilbertOrder - 1)).toNat

def hilbertKeys (lat lon : List ℤ) : List ℕ :=
  npXy2d (lon.map fun l => npClip (D.floor (D.scaleX (D.degrees l))))
    (lat.map fun l => npClip (D.floor (D.scaleY (D.degrees l))))

/-- The engine's grid position, of degrees. -/
def lonlatToXy (lon lat : D.F) : ℕ × ℕ :=
  let maxcoord : ℤ := 2 ^ hilbertOrder - 1
  ((max 0 (min maxcoord (D.trunc (D.scaleX lon)))).toNat,
    (max 0 (min maxcoord (D.trunc (D.scaleY lat)))).toNat)

def lonlatToHilbert (lon lat : D.F) : ℕ :=
  let p := D.lonlatToXy lon lat
  xy2d hilbertOrder p.1 p.2

def e7ToHilbert (lon lat : ℤ) : ℕ := D.lonlatToHilbert (D.degrees lon) (D.degrees lat)

def bboxE7CenterHilbert (xmin ymin xmax ymax : ℤ) : ℕ :=
  let lon := D.div (D.div (D.ofInt (xmin + xmax)) (D.ofInt 2)) (D.ofInt 10000000)
  let lat := D.div (D.div (D.ofInt (ymin + ymax)) (D.ofInt 2)) (D.ofInt 10000000)
  D.lonlatToHilbert lon lat

/-- The `pyarrow` grid position: a column or a row of a whole column of degrees. -/
def vecClip (v : List (Option D.F)) (scale : D.F → D.F) : List (Option ℕ) :=
  pc₁ (fun v => (max (min (D.trunc (scale v)) (2 ^ hilbertOrder - 1)) 0).toNat) v

def vecHilbertFromDegrees (lon lat : List (Option D.F)) : List (Option ℕ) :=
  vecXy2d (D.vecClip lon D.scaleX) (D.vecClip lat D.scaleY)

def vecNodeHilbert (lon lat : List (Option ℤ)) : List (Option ℕ) :=
  D.vecHilbertFromDegrees (pc₁ D.degrees lon) (pc₁ D.degrees lat)

/-- The middle of a side, added as doubles and divided by twice the scale. -/
def vecMiddle (lo hi : List (Option ℤ)) : List (Option D.F) :=
  pc₁ (fun v => D.div v (D.mul (D.ofInt 2) (D.ofInt 10000000)))
    (pc₂ D.add (pc₁ D.ofInt lo) (pc₁ D.ofInt hi))

def vecBboxHilbert (xmin ymin xmax ymax : List (Option ℤ)) : List (Option ℕ) :=
  D.vecHilbertFromDegrees (D.vecMiddle xmin xmax) (D.vecMiddle ymin ymax)

/-- The raw builder's clip. -/
def rawClip (v : ℤ) : UInt64 :=
  let maxI : ℤ := 2 ^ hilbertOrder - 1
  UInt64.ofNat (if v < 0 then 0 else if v > maxI then maxI else v).toNat

def rawHilbertKey (lat lon : ℤ) : UInt64 :=
  hilbertXy2dU64 20 (rawClip (D.floor (D.scaleX (D.degrees lon))))
    (rawClip (D.floor (D.scaleY (D.degrees lat))))

variable {D}

/-- Rounding down and rounding towards zero give one grid position. -/
lemma npClip_floor (v : D.F) : npClip (D.floor v) =
    (min (max (D.trunc v) 0) (2 ^ hilbertOrder - 1)).toNat := by
  unfold npClip
  by_cases h : 0 ≤ D.floor v
  · rw [D.trunc_of_nonneg v h]
  · rw [max_eq_right (by omega), max_eq_right (D.trunc_of_neg v (by omega))]

lemma gridXy_eq (lat lon : ℤ) : D.gridXy lat lon =
    (npClip (D.floor (D.scaleX (D.degrees lon))), npClip (D.floor (D.scaleY (D.degrees lat)))) := by
  rw [npClip_floor, npClip_floor]
  rfl

lemma npClip_lt (v : ℤ) : npClip v < 2 ^ hilbertOrder := by
  have : (2 : ℤ) ^ hilbertOrder = 1048576 := rfl
  have : 2 ^ hilbertOrder = 1048576 := rfl
  unfold npClip
  omega

lemma toNat_rawClip (v : ℤ) : (rawClip v).toNat = npClip v := by
  have hn : (2 : ℤ) ^ hilbertOrder = 1048576 := rfl
  unfold rawClip npClip
  dsimp only
  rw [hn, UInt64.toNat_ofNat', Nat.mod_eq_of_lt (by split_ifs <;> omega)]
  split_ifs <;> omega

theorem hilbertKeys_eq (ps : List (ℤ × ℤ)) :
    D.hilbertKeys (ps.map Prod.fst) (ps.map Prod.snd) = ps.map fun p => D.hilbertKey p.1 p.2 := by
  have := npXy2d_eq (ps.map fun p => D.gridXy p.1 p.2)
  simp only [List.map_map, gridXy_eq, Function.comp_def] at this
  rw [hilbertKeys, List.map_map, List.map_map]
  exact this.trans (by simp only [hilbertKey, gridXy_eq])

lemma lonlatToHilbert_eq (lon lat : D.F) : D.lonlatToHilbert lon lat =
    hilbertXy2d hilbertOrder (npClip (D.trunc (D.scaleX lon)))
      (npClip (D.trunc (D.scaleY lat))) := by
  have hclip : ∀ v : ℤ, (max 0 (min ((2 : ℤ) ^ hilbertOrder - 1) v)).toNat = npClip v := by
    intro v
    have hn : (2 : ℤ) ^ hilbertOrder = 1048576 := rfl
    unfold npClip
    omega
  simp only [lonlatToHilbert, lonlatToXy, xy2d_eq, hclip]

theorem e7ToHilbert_eq (lat lon : ℤ) : D.e7ToHilbert lon lat = D.hilbertKey lat lon := by
  rw [e7ToHilbert, lonlatToHilbert_eq]
  rfl

/-- The whole-column computation from degrees is the scalar one at every place. -/
lemma vecHilbertFromDegrees_eq (ps : List (Option D.F × Option D.F)) :
    D.vecHilbertFromDegrees (ps.map Prod.fst) (ps.map Prod.snd) =
      ps.map fun p => Option.map₂ D.lonlatToHilbert p.1 p.2 := by
  have hclip : ∀ v : ℤ, (max (min v ((2 : ℤ) ^ hilbertOrder - 1)) 0).toNat = npClip v := by
    intro v
    have hn : (2 : ℤ) ^ hilbertOrder = 1048576 := rfl
    unfold npClip
    omega
  have := vecXy2d_eq (ps.map fun p => (p.1.map fun v => npClip (D.trunc (D.scaleX v)),
    p.2.map fun v => npClip (D.trunc (D.scaleY v))))
  simp only [List.map_map, Function.comp_def] at this
  simp only [vecHilbertFromDegrees, vecClip, pc₁_map, hclip]
  rw [this]
  refine List.map_congr_left fun p _ => ?_
  cases p.1 <;> cases p.2 <;> simp [lonlatToHilbert_eq]

theorem vecNodeHilbert_eq (ps : List (Option ℤ × Option ℤ)) :
    D.vecNodeHilbert (ps.map Prod.snd) (ps.map Prod.fst) =
      ps.map fun p => Option.map₂ D.hilbertKey p.1 p.2 := by
  have := vecHilbertFromDegrees_eq (ps.map fun p => (p.2.map D.degrees, p.1.map D.degrees))
  simp only [List.map_map, Function.comp_def] at this
  rw [vecNodeHilbert, pc₁_map, pc₁_map, this]
  refine List.map_congr_left fun p _ => ?_
  cases p.1 <;> cases p.2 <;> simp [← e7ToHilbert_eq, e7ToHilbert]

theorem toNat_rawHilbertKey (lat lon : ℤ) :
    (D.rawHilbertKey lat lon).toNat = D.hilbertKey lat lon := by
  have hx := npClip_lt (D.floor (D.scaleX (D.degrees lon)))
  have hy := npClip_lt (D.floor (D.scaleY (D.degrees lat)))
  have ho : (20 : UInt32).toNat = hilbertOrder := rfl
  rw [rawHilbertKey, toNat_hilbertXy2dU64 (by rw [ho]; decide) (by rwa [ho, toNat_rawClip])
    (by rwa [ho, toNat_rawClip]), toNat_rawClip, toNat_rawClip, ho, hilbertKey, gridXy_eq]
  refine Nat.mod_eq_of_lt ?_
  rw [hilbertXy2d_eq_index hx hy]
  exact (index_lt _ _).trans (by decide)

/-- A coordinate as the files store it. -/
def IsE7 (v : ℤ) : Prop := |v| ≤ 2 ^ 31

lemma middle_eq {a b : ℤ} (ha : IsE7 a) (hb : IsE7 b) :
    D.div (D.add (D.ofInt a) (D.ofInt b)) (D.mul (D.ofInt 2) (D.ofInt 10000000)) =
      D.div (D.div (D.ofInt (a + b)) (D.ofInt 2)) (D.ofInt 10000000) := by
  have hs : |a + b| ≤ 2 ^ 32 := by
    have := abs_add_le a b
    unfold IsE7 at ha hb
    omega
  rw [D.add_ofInt a b ha hb, D.half_div _ hs]

theorem vecBboxHilbert_eq (bs : List (ℤ × ℤ × ℤ × ℤ))
    (h : ∀ b ∈ bs, IsE7 b.1 ∧ IsE7 b.2.1 ∧ IsE7 b.2.2.1 ∧ IsE7 b.2.2.2) :
    D.vecBboxHilbert (bs.map fun b => some b.1) (bs.map fun b => some b.2.1)
        (bs.map fun b => some b.2.2.1) (bs.map fun b => some b.2.2.2) =
      bs.map fun b => some (D.bboxE7CenterHilbert b.1 b.2.1 b.2.2.1 b.2.2.2) := by
  have hmid : ∀ f g : ℤ × ℤ × ℤ × ℤ → ℤ, (∀ b ∈ bs, IsE7 (f b) ∧ IsE7 (g b)) →
      D.vecMiddle (bs.map fun b => some (f b)) (bs.map fun b => some (g b)) =
        bs.map fun b => some (D.div (D.div (D.ofInt (f b + g b)) (D.ofInt 2))
          (D.ofInt 10000000)) := by
    intro f g hfg
    simp only [vecMiddle, pc₁_map, pc₂_map]
    refine List.map_congr_left fun b hb => ?_
    simp [middle_eq (hfg b hb).1 (hfg b hb).2]
  have := vecHilbertFromDegrees_eq (D := D) (bs.map fun b =>
    (some (D.div (D.div (D.ofInt (b.1 + b.2.2.1)) (D.ofInt 2)) (D.ofInt 10000000)),
      some (D.div (D.div (D.ofInt (b.2.1 + b.2.2.2)) (D.ofInt 2)) (D.ofInt 10000000))))
  simp only [List.map_map, Function.comp_def] at this
  rw [vecBboxHilbert, hmid (·.1) (·.2.2.1) fun b hb => ⟨(h b hb).1, (h b hb).2.2.1⟩,
    hmid (·.2.1) (·.2.2.2) fun b hb => ⟨(h b hb).2.1, (h b hb).2.2.2⟩, this]
  rfl

/-- Rational arithmetic, for coordinates whose scaling is exact. -/
def rational : Doubles where
  F := ℚ
  ofInt := fun v => v
  add := (· + ·)
  mul := (· * ·)
  div := (· / ·)
  floor := fun v => ⌊v⌋
  trunc := fun v => if 0 ≤ ⌊v⌋ then ⌊v⌋ else ⌈v⌉
  trunc_of_nonneg := fun _ h => if_pos h
  trunc_of_neg := by
    intro v h
    rw [if_neg (by omega), Int.ceil_le]
    exact_mod_cast (Int.floor_lt.mp h).le
  add_ofInt := fun a b _ _ => (Int.cast_add a b).symm
  half_div := fun s _ => div_div _ _ _

end Doubles

/-! ### The keys of the layout are places along the curve -/

lemma hilbertLoop_eq {k x y d : ℕ} : Cells.hilbertLoop k x y d =
    (whileHalving (hilbertStep (2 ^ Cells.maxDepth)) (2 ^ k / 2) ⟨x, y, d⟩).d := by
  have hbit : ∀ v k, (if Nat.testBit v k then 1 else 0) = bitOf v (2 ^ k) := by
    intro v k
    rw [bitOf_two_pow, Nat.testBit_eq_decide_div_mod_eq]
    rcases Nat.mod_two_eq_zero_or_one (v / 2 ^ k) with h | h <;> simp [h]
  induction k generalizing x y d with
  | zero => rw [show 2 ^ 0 / 2 = 0 from rfl, whileHalving_zero, Cells.hilbertLoop]
  | succ k ih =>
    rw [whileHalving_pow, Cells.hilbertLoop, hilbertStep]
    simp only [hbit]
    split_ifs
    · exact ih
    · exact ih
    · exact ih

/-- The key of the cell model is the key that the layout computes on the same grid. -/
theorem cells_hilbertKey_eq (p : Rows.Point) :
    Cells.hilbertKey p = hilbertXy2d hilbertOrder (Cells.gridX p.lon) (Cells.gridY p.lat) := by
  rw [Cells.hilbertKey, hilbertLoop_eq, hilbertXy2d, Nat.one_shiftLeft]
  rfl

open Doubles in
/-- **Keys are places along a Hilbert curve, and every copy computes the same key.** The index
of the raw builder is a word of 64 bits, which is enough up to order 32. -/
theorem hilbert_copies_agree (D : Doubles) (k : ℕ) :
    Set.BijOn (fun p => hilbertXy2d k p.1 p.2) (grid k) (Set.Iio (4 ^ k)) ∧
    (∀ p ∈ grid k, ∀ q ∈ grid k, hilbertXy2d k q.1 q.2 = hilbertXy2d k p.1 p.2 + 1 →
      Neighbours p q) ∧
    (∀ x y, xy2d k x y = hilbertXy2d k x y) ∧
    (∀ (order : UInt32) (x y : UInt64), order.toNat = k → k ≤ 32 → (x.toNat, y.toNat) ∈ grid k →
      (hilbertXy2dU64 order x y).toNat = hilbertXy2d k x.toNat y.toNat) ∧
    (∀ ps : List (ℕ × ℕ), npXy2d (ps.map Prod.fst) (ps.map Prod.snd) =
      ps.map fun p => hilbertXy2d hilbertOrder p.1 p.2) ∧
    (∀ ps : List (Option ℕ × Option ℕ), vecXy2d (ps.map Prod.fst) (ps.map Prod.snd) =
      ps.map fun p => Option.map₂ (hilbertXy2d hilbertOrder) p.1 p.2) ∧
    (∀ ps : List (ℤ × ℤ), D.hilbertKeys (ps.map Prod.fst) (ps.map Prod.snd) =
      ps.map fun p => D.hilbertKey p.1 p.2) ∧
    (∀ ps : List (Option ℤ × Option ℤ), D.vecNodeHilbert (ps.map Prod.snd) (ps.map Prod.fst) =
      ps.map fun p => Option.map₂ D.hilbertKey p.1 p.2) ∧
    (∀ lat lon, D.e7ToHilbert lon lat = D.hilbertKey lat lon ∧
      (D.rawHilbertKey lat lon).toNat = D.hilbertKey lat lon) ∧
    (∀ bs : List (ℤ × ℤ × ℤ × ℤ),
      (∀ b ∈ bs, IsE7 b.1 ∧ IsE7 b.2.1 ∧ IsE7 b.2.2.1 ∧ IsE7 b.2.2.2) →
      D.vecBboxHilbert (bs.map fun b => some b.1) (bs.map fun b => some b.2.1)
          (bs.map fun b => some b.2.2.1) (bs.map fun b => some b.2.2.2) =
        bs.map fun b => some (D.bboxE7CenterHilbert b.1 b.2.1 b.2.2.1 b.2.2.2)) := by
  have hindex : Set.EqOn (fun p => hilbertXy2d k p.1 p.2) (index k) (grid k) :=
    fun p hp => hilbertXy2d_eq_index hp.1 hp.2
  refine ⟨(hindex.bijOn_iff).mpr (index_bijOn k), ?_, xy2d_eq k, ?_, npXy2d_eq, vecXy2d_eq,
    hilbertKeys_eq, vecNodeHilbert_eq, fun lat lon => ⟨e7ToHilbert_eq lat lon,
      toNat_rawHilbertKey lat lon⟩, vecBboxHilbert_eq⟩
  · intro p hp q hq h
    rw [hilbertXy2d_eq_index hp.1 hp.2, hilbertXy2d_eq_index hq.1 hq.2] at h
    exact index_neighbours hp hq h
  · rintro order x y rfl hk ⟨hx, hy⟩
    rw [toNat_hilbertXy2dU64 (by omega) hx hy]
    refine Nat.mod_eq_of_lt ?_
    rw [hilbertXy2d_eq_index hx hy]
    calc index order.toNat (x.toNat, y.toNat) < 4 ^ order.toNat := index_lt _ _
      _ ≤ 4 ^ 32 := Nat.pow_le_pow_right (by omega) hk
      _ = 2 ^ 64 := by norm_num

/-- The square of side two: the curve goes up, right and down, and the copies agree on its corners
and on a position of each of three kinds. -/
theorem hilbert_copies_agree_at_one :
    Set.BijOn (fun p => hilbertXy2d 1 p.1 p.2) (grid 1) (Set.Iio 4) ∧
      (hilbertXy2d 1 0 1 = hilbertXy2d 1 0 0 + 1 → Neighbours (0, 0) (0, 1)) ∧
      xy2d 1 1 0 = hilbertXy2d 1 1 0 ∧
      (hilbertXy2dU64 1 1 1).toNat = hilbertXy2d 1 1 1 ∧
      npXy2d [1] [0] = [hilbertXy2d hilbertOrder 1 0] ∧
      vecXy2d [some 1, none] [some 0, some 0] = [some (hilbertXy2d hilbertOrder 1 0), none] ∧
      Doubles.rational.hilbertKeys [5] [7] = [Doubles.rational.hilbertKey 5 7] ∧
      Doubles.rational.vecNodeHilbert [some 7] [some 5] = [some (Doubles.rational.hilbertKey 5 7)] ∧
      (Doubles.rational.e7ToHilbert 0 0 = Doubles.rational.hilbertKey 0 0 ∧
        (Doubles.rational.rawHilbertKey 0 0).toNat = Doubles.rational.hilbertKey 0 0) ∧
      Doubles.rational.vecBboxHilbert [some 1] [some 2] [some 3] [some 4] =
        [some (Doubles.rational.bboxE7CenterHilbert 1 2 3 4)] := by
  obtain ⟨h1, h2, h3, h4, h5, h6, h7, h8, h9, h10⟩ := hilbert_copies_agree Doubles.rational 1
  have hgrid : ∀ x y : ℕ, x < 2 → y < 2 → (x, y) ∈ grid 1 := fun x y hx hy => ⟨hx, hy⟩
  refine ⟨h1, h2 (0, 0) (hgrid 0 0 (by decide) (by decide)) (0, 1)
    (hgrid 0 1 (by decide) (by decide)), h3 1 0,
    h4 1 1 1 rfl (by decide) (hgrid 1 1 (by decide) (by decide)),
    h5 [(1, 0)], h6 [(some 1, some 0), (none, some 0)], h7 [(5, 7)], h8 [(some 5, some 7)], h9 0 0,
      ?_⟩
  exact h10 [(1, 2, 3, 4)] (by simp [Doubles.IsE7])

end OsmParquet.HilbertKeys
