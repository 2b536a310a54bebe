import Mathlib.Order.Lattice
import OsmParquet.ByteCodec

/-!
Files that are mapped into memory, and binary search in their records.

A mapped file has a length and a byte at every place below it; it may be sparse, so that it is a
function and not a list. Reading or writing a slice beyond the end fails, as indexing does. What a
slice holds after a write is what was written there, or what was there before if the slices
do not meet.
-/

namespace OsmParquet.MappedFile

open OsmParquet.ByteCodec

structure Mmap where
  len : ℕ
  byteAt : ℕ → UInt8

/-- A file of zeros, as one that has only been sized. -/
def Mmap.zeros (len : ℕ) : Mmap := ⟨len, fun _ => 0⟩

def Mmap.read (m : Mmap) (off n : ℕ) : Option Bytes :=
  if off + n ≤ m.len then some ((List.range n).map fun i => m.byteAt (off + i)) else none

def Mmap.write (m : Mmap) (off : ℕ) (bs : Bytes) : Option Mmap :=
  if off + bs.length ≤ m.len then
    some ⟨m.len, fun i => if off ≤ i ∧ i < off + bs.length then bs.getD (i - off) 0 else m.byteAt i⟩
  else none

/-- The file cut at a length. -/
def Mmap.truncate (m : Mmap) (len : ℕ) : Mmap := ⟨len, m.byteAt⟩

section Slices

variable {m m' : Mmap} {off off' n len : ℕ} {bs : Bytes}

lemma write_eq_none (h : m.len < off + bs.length) : m.write off bs = none := by
  rw [Mmap.write, if_neg (by omega)]

lemma exists_write (h : off + bs.length ≤ m.len) :
    ∃ m', m.write off bs = some m' ∧ m'.len = m.len :=
  ⟨_, if_pos h, rfl⟩

/-- What a write does. -/
lemma eq_of_write (h : m.write off bs = some m') : off + bs.length ≤ m.len ∧ m' =
    ⟨m.len, fun i => if off ≤ i ∧ i < off + bs.length then bs.getD (i - off) 0
      else m.byteAt i⟩ := by
  rw [Mmap.write, Option.ite_none_right_eq_some] at h
  exact ⟨h.1, (Option.some_inj.mp h.2).symm⟩

lemma length_of_write (h : m.write off bs = some m') : m'.len = m.len := by
  rw [(eq_of_write h).2]

/-- A slice that was written is read back. -/
lemma read_write_same (h : m.write off bs = some m') : m'.read off bs.length = some bs := by
  obtain ⟨hlen, rfl⟩ := eq_of_write h
  unfold Mmap.read
  dsimp only
  rw [if_pos hlen]
  refine congrArg some (List.ext_getElem (by simp) fun i hi hi' => ?_)
  simp only [List.length_map, List.length_range] at hi
  simp [hi]

/-- A slice apart from what was written is as before. -/
lemma read_write_other (h : m.write off bs = some m')
    (hapart : off' + n ≤ off ∨ off + bs.length ≤ off') : m'.read off' n = m.read off' n := by
  obtain ⟨-, rfl⟩ := eq_of_write h
  unfold Mmap.read
  dsimp only
  split_ifs with hlen
  · refine congrArg some (List.map_congr_left fun i hi => ?_)
    have := List.mem_range.mp hi
    exact if_neg (by omega)
  · rfl

lemma read_zeros (h : off + n ≤ len) : (Mmap.zeros len).read off n = some (List.replicate n 0) := by
  unfold Mmap.read Mmap.zeros
  dsimp only
  rw [if_pos h, List.map_const', List.length_range]

/-- Cutting a file changes nothing before the cut. -/
lemma read_truncate (h : off + n ≤ len) (hlen : len ≤ m.len) :
    (m.truncate len).read off n = m.read off n := by
  unfold Mmap.read Mmap.truncate
  dsimp only
  rw [if_pos h, if_pos (by omega)]

end Slices

/-! ### Search -/

variable {κ : Type*} [LinearOrder κ]

/-- Binary search between `lo` and `hi` for a record with the key; reading a record may fail. -/
def searchLoop (record : ℕ → Option κ) (k : κ) (lo hi : ℕ) : Option (Option ℕ) :=
  if lo < hi then
    let mid := lo + (hi - lo) / 2
    match record mid with
    | none => none
    | some v =>
      if v < k then searchLoop record k (mid + 1) hi
      else if k < v then searchLoop record k lo mid
      else some (some mid)
  else some none
termination_by hi - lo

/-- **Binary search finds the record**, if the keys ascend. -/
theorem searchLoop_found {record : ℕ → Option κ} {key : ℕ → κ} {n i : ℕ}
    (hrec : ∀ j < n, record j = some (key j)) (hasc : ∀ j l, j < l → l < n → key j < key l)
    (hi : i < n) {lo hi' : ℕ} (hlo : lo ≤ i) (hhi : i < hi') (hn : hi' ≤ n) :
    searchLoop record (key i) lo hi' = some (some i) := by
  fun_induction searchLoop record (key i) lo hi' with
  | case1 lo hi' hlt mid hnone =>
    rw [hrec mid (by omega)] at hnone
    cases hnone
  | case2 lo hi' hlt mid v hv hless ih =>
    rw [hrec mid (by omega), Option.some_inj] at hv
    refine ih ?_ hhi hn
    by_contra hle
    rcases Nat.lt_or_eq_of_le (show i ≤ mid by omega) with h | h
    · exact absurd (hasc i mid h (by omega)) (not_lt.mpr (le_of_lt (hv ▸ hless)))
    · exact absurd hless (by rw [← hv, h]; exact lt_irrefl _)
  | case3 lo hi' hlt mid v hv hless hmore ih =>
    rw [hrec mid (by omega), Option.some_inj] at hv
    refine ih hlo ?_ (by omega)
    by_contra hle
    rcases Nat.lt_or_eq_of_le (show mid ≤ i by omega) with h | h
    · exact absurd (hasc mid i h hi) (not_lt.mpr (le_of_lt (hv ▸ hmore)))
    · exact absurd hmore (by rw [← hv, h]; exact lt_irrefl _)
  | case4 lo hi' hlt mid v hv hless hmore =>
    rw [hrec mid (by omega), Option.some_inj] at hv
    have heq : key mid = key i := le_antisymm (hv ▸ not_lt.mp hmore) (hv ▸ not_lt.mp hless)
    rcases Nat.lt_trichotomy mid i with h | h | h
    · exact absurd (hasc mid i h hi) (by rw [heq]; exact lt_irrefl _)
    · rw [h]
    · exact absurd (hasc i mid h (by omega)) (by rw [heq]; exact lt_irrefl _)
  | case5 lo hi' hlt => omega

/-- **Binary search finds nothing else.** -/
theorem searchLoop_absent {record : ℕ → Option κ} {key : ℕ → κ} {n : ℕ} {k : κ}
    (hrec : ∀ j < n, record j = some (key j)) (habsent : ∀ j < n, key j ≠ k) {lo hi : ℕ}
    (hn : hi ≤ n) : searchLoop record k lo hi = some none := by
  fun_induction searchLoop record k lo hi with
  | case1 lo hi hlt mid hnone =>
    rw [hrec mid (by omega)] at hnone
    cases hnone
  | case2 lo hi hlt mid v hv hless ih => exact ih hn
  | case3 lo hi hlt mid v hv hless hmore ih => exact ih (by omega)
  | case4 lo hi hlt mid v hv hless hmore =>
    rw [hrec mid (by omega), Option.some_inj] at hv
    exact absurd (le_antisymm (hv ▸ not_lt.mp hmore) (hv ▸ not_lt.mp hless))
      (habsent mid (by omega))
  | case5 lo hi hlt => rfl

end OsmParquet.MappedFile
