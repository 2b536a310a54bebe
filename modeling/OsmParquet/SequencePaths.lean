import Mathlib.Data.List.Basic
import Mathlib.Data.Int.Notation
import Mathlib.Tactic.Common
import OsmParquet.Scanning

/-!
Texts of a replication source: the paths of its sequences, and its `state.txt`.

A path has the digits of a sequence number in three groups, each padded to three characters; the
first one is longer where it has to be. A state is a properties file, of which only two keys are
read.
-/

namespace OsmParquet.SequencePaths

open OsmParquet.Scanning

abbrev Text := List Char

/-! ### Paths -/

/-- `f"{n:03d}"` -/
def pad3 (n : ℕ) : Text := List.replicate (3 - (Nat.toDigits 10 n).length) '0' ++ Nat.toDigits 10 n

/-- `AAA/BBB/CCC` -/
def sequencePath (seq : ℕ) : Text :=
  pad3 (seq / 1000000) ++ '/' :: (pad3 (seq / 1000 % 1000) ++ '/' :: pad3 (seq % 1000))

lemma value_pad3 (n : ℕ) : Nat.ofDigitChars 10 (pad3 n) 0 = n := by
  rw [pad3, Nat.ofDigitChars_append, Nat.ofDigitChars_replicate_zero, Nat.mul_zero,
    Nat.ofDigitChars_ten_toDigits]

lemma pad3_injective : Function.Injective pad3 := Function.LeftInverse.injective value_pad3

lemma slash_notMem_pad3 (n : ℕ) : '/' ∉ pad3 n := by
  intro h
  rcases List.mem_append.mp h with h | h
  · exact absurd (List.eq_of_mem_replicate h) (by decide)
  · exact absurd (Nat.isDigit_of_mem_toDigits (by omega) (by omega) h) (by decide)

lemma group_eq {m n : ℕ} {rest rest' : Text} (h : pad3 m ++ '/' :: rest = pad3 n ++ '/' :: rest') :
    m = n ∧ rest = rest' := by
  have hgroup : ∀ (k : ℕ) (text : Text), (pad3 k ++ '/' :: text).takeWhile (· ≠ '/') = pad3 k := by
    intro k text
    have hall : ∀ c ∈ pad3 k, decide (c ≠ '/') = true := fun c hc =>
      decide_eq_true fun e => slash_notMem_pad3 k (e ▸ hc)
    rw [takeWhile_append_stop (by simp), List.takeWhile_eq_self_iff.mpr hall]
  have hpad : pad3 m = pad3 n := by rw [← hgroup m rest, h, hgroup]
  rw [hpad, List.append_cancel_left_eq] at h
  exact ⟨pad3_injective hpad, List.tail_eq_of_cons_eq h⟩

/-- Every sequence has a path of its own. -/
lemma sequencePath_injective : Function.Injective sequencePath := by
  intro a b h
  obtain ⟨hmillions, h⟩ := group_eq h
  obtain ⟨hthousands, h⟩ := group_eq h
  have hunits := pad3_injective h
  omega

example : sequencePath 6012345 = "006/012/345".toList := rfl

/-! ### States -/

def isSpace (c : Char) : Bool := decide (c.toNat ∈ [9, 10, 11, 12, 13, 28, 29, 30, 31, 32])

def isLineBreak (c : Char) : Bool :=
  decide (c.toNat ∈ [10, 11, 12, 13, 28, 29, 30, 0x85, 0x2028, 0x2029])

/-- A character at the beginning of the first line. -/
def onFirst (c : Char) : List Text → List Text
  | [] => [[c]]
  | line :: lines => (c :: line) :: lines

def splitlines : Text → List Text
  | [] => []
  | '\r' :: '\n' :: text => [] :: splitlines text
  | c :: text => if isLineBreak c then [] :: splitlines text else onFirst c (splitlines text)

def strip (text : Text) : Text := ((text.dropWhile isSpace).reverse.dropWhile isSpace).reverse

/-- `text.replace(ab, c)`, for two characters and one. -/
def replacePair (a b c : Char) : Text → Text
  | x :: y :: text => if x = a ∧ y = b then c :: replacePair a b c text
    else x :: replacePair a b c (y :: text)
  | text => text

def unescape (value : Text) : Text := replacePair '\\' '\\' '\\' (replacePair '\\' ':' ':' value)

/-- Digits, with single underscores between them. -/
def digits? (text : Text) : Option ℕ :=
  if (text.splitOn '_').all fun group => !group.isEmpty && group.all Char.isDigit then
    some (Nat.ofDigitChars 10 (text.filter (· ≠ '_')) 0)
  else none

/-- `int(text)`, or a `ValueError` -/
def int? (text : Text) : Option ℤ :=
  match strip text with
  | '-' :: rest => (digits? rest).map fun n => -(n : ℤ)
  | '+' :: rest => (digits? rest).map fun n => (n : ℤ)
  | rest => (digits? rest).map fun n => (n : ℤ)

/-- The number and the timestamp of a state, as far as they have been read. -/
structure State where
  seq : Option ℤ := none
  ts : Option Text := none
  deriving DecidableEq

def readLine (state : State) (line : Text) : Option State :=
  let line := strip line
  if line.isEmpty || line.head? = some '#' || !line.contains '=' then some state
  else
    let key := line.takeWhile (· ≠ '=')
    let value := unescape ((line.dropWhile (· ≠ '=')).drop 1)
    if key = "sequenceNumber".toList then (int? value).map fun seq => { state with seq := some seq }
    else if key = "timestamp".toList then some { state with ts := some value }
    else some state

/-- The number and the timestamp of a state, or a `ValueError`. -/
def parseStateText (text : Text) : Option (ℤ × Option Text) := do
  let state ← (splitlines text).foldlM readLine {}
  return (← state.seq, state.ts)

def aState : Text :=
  "#Sat Sep 19\nsequenceNumber=6012345\ntimestamp=2026-09-19T00\\:23\\:06Z\n".toList

example : parseStateText aState = some (6012345, some "2026-09-19T00:23:06Z".toList) := by decide

/-- What is left of a state may well be read. -/
example : parseStateText (aState.take 62) = some (6012345,
    some "2026-09-19T00:23".toList) := by decide

end OsmParquet.SequencePaths
