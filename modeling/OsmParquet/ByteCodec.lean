import Mathlib.Algebra.Ring.Nat
import Mathlib.Data.Nat.Init
import Mathlib.Tactic.Common

/-!
Readers of bytes, and what it means that a reader gives back what a writer wrote.

A reader takes bytes off the front of a cursor and fails when there are too few. `Reads g bs a`
says that `g` takes exactly the bytes `bs` and gives `a`, whatever follows them. Readers that are
run one after another read the bytes of their writers one after another, so that the round
trip of a record is put together from those of its fields.
-/

namespace OsmParquet.ByteCodec

abbrev Bytes := List UInt8

/-- A reader; it fails where the program would read beyond the end of a slice. -/
abbrev Get (α : Type) := StateT Bytes Option α

/-- The reader takes these bytes and nothing of what follows. -/
def Reads {α : Type} (g : Get α) (bs : Bytes) (a : α) : Prop :=
  ∀ rest, g.run (bs ++ rest) = some (a, rest)

section Rules

variable {α β : Type} {g : Get α} {f : α → Get β} {bs cs : Bytes} {a : α} {b : β}

lemma Reads.pure (a : α) : Reads (Pure.pure a) [] a := fun _ => rfl

lemma Reads.bind (hg : Reads g bs a) (hf : Reads (f a) cs b) : Reads (g >>= f) (bs ++ cs) b := by
  intro rest
  rw [StateT.run_bind, List.append_assoc, hg]
  exact hf rest

lemma Reads.map (hg : Reads g bs a) (f : α → β) : Reads (f <$> g) bs (f a) := by
  intro rest
  rw [StateT.run_map, hg]
  rfl

/-- The last reader of a record. -/
lemma Reads.last (hg : Reads g bs a) (f : α → β) :
    Reads (g >>= fun a => Pure.pure (f a)) bs (f a) := by
  have h : Reads (g >>= fun a => Pure.pure (f a)) (bs ++ []) (f a) := hg.bind (Reads.pure (f a))
  rwa [List.append_nil] at h

/-- What is read when nothing follows. -/
lemma Reads.run (h : Reads g bs a) : g.run bs = some (a, []) := by
  rw [← h [], List.append_nil]

end Rules

/-- Whatever the reader gives has the property. -/
def Yields {α : Type} (g : Get α) (P : α → Prop) : Prop :=
  ∀ cur a rest, g.run cur = some (a, rest) → P a

section Yields

variable {α β : Type} {g : Get α} {f : α → Get β} {P : α → Prop} {Q : β → Prop}

lemma Yields.any : Yields g fun _ => True := fun _ _ _ _ => trivial

lemma Yields.pure {a : α} (h : P a) : Yields (Pure.pure a) P := by
  intro cur b rest hrun
  cases hrun
  exact h

lemma Yields.bind (hg : Yields g P) (hf : ∀ a, P a → Yields (f a) Q) : Yields (g >>= f) Q := by
  intro cur b rest hrun
  rw [StateT.run_bind] at hrun
  obtain ⟨⟨a, cur'⟩, ha, hb⟩ := Option.bind_eq_some_iff.mp hrun
  exact hf a (hg cur a cur' ha) cur' b rest hb

end Yields

/-! ### Bytes and words -/

def takeBytes (n : ℕ) : Get Bytes := fun bs =>
  if n ≤ bs.length then some (bs.take n, bs.drop n) else none

lemma Reads.takeBytes (bs : Bytes) : Reads (takeBytes bs.length) bs bs := by
  intro rest
  simp [ByteCodec.takeBytes, StateT.run]

/-- The lowest `n` bytes of a number, the least significant first. -/
def leBytes : ℕ → ℕ → Bytes
  | 0, _ => []
  | n + 1, v => UInt8.ofNat (v % 256) :: leBytes n (v / 256)

def leValue : Bytes → ℕ
  | [] => 0
  | b :: bs => b.toNat + 256 * leValue bs

@[simp] lemma length_leBytes (n v : ℕ) : (leBytes n v).length = n := by
  induction n generalizing v with
  | zero => rfl
  | succ n ih => simp [leBytes, ih]

lemma leValue_leBytes {n v : ℕ} (h : v < 256 ^ n) : leValue (leBytes n v) = v := by
  induction n generalizing v with
  | zero =>
    have : v = 0 := by simpa using h
    subst this
    rfl
  | succ n ih =>
    have hdiv : v / 256 < 256 ^ n := by
      rw [Nat.div_lt_iff_lt_mul (by omega), ← Nat.pow_succ]
      exact h
    have hbyte : (UInt8.ofNat (v % 256)).toNat = v % 256 := by simp
    rw [leBytes, leValue, ih hdiv, hbyte]
    omega

def getNat (n : ℕ) : Get ℕ := leValue <$> takeBytes n

lemma Reads.getNat {n v : ℕ} (h : v < 256 ^ n) : Reads (getNat n) (leBytes n v) v := by
  have hread := (Reads.takeBytes (leBytes n v)).map leValue
  rwa [length_leBytes, leValue_leBytes h] at hread

def putU32 (v : UInt32) : Bytes := leBytes 4 v.toNat
def getU32 : Get UInt32 := UInt32.ofNat <$> getNat 4

def putU64 (v : UInt64) : Bytes := leBytes 8 v.toNat
def getU64 : Get UInt64 := UInt64.ofNat <$> getNat 8

def putI32 (v : Int32) : Bytes := putU32 v.toUInt32
def getI32 : Get Int32 := UInt32.toInt32 <$> getU32

def putI64 (v : Int64) : Bytes := putU64 v.toUInt64
def getI64 : Get Int64 := UInt64.toInt64 <$> getU64

lemma Reads.getU32 (v : UInt32) : Reads getU32 (putU32 v) v := by
  have hread := (Reads.getNat (n := 4) v.toNat_lt).map UInt32.ofNat
  rwa [UInt32.ofNat_toNat] at hread

lemma Reads.getU64 (v : UInt64) : Reads getU64 (putU64 v) v := by
  have hread := (Reads.getNat (n := 8) v.toNat_lt).map UInt64.ofNat
  rwa [UInt64.ofNat_toNat] at hread

lemma Reads.getI32 (v : Int32) : Reads getI32 (putI32 v) v := by
  have hread := (Reads.getU32 v.toUInt32).map UInt32.toInt32
  rwa [Int32.toInt32_toUInt32] at hread

lemma Reads.getI64 (v : Int64) : Reads getI64 (putI64 v) v := by
  have hread := (Reads.getU64 v.toUInt64).map UInt64.toInt64
  rwa [Int64.toInt64_toUInt64] at hread

/-! ### Repetition -/

def getMany {α : Type} (g : Get α) : ℕ → Get (List α)
  | 0 => Pure.pure []
  | n + 1 => do
    let a ← g
    let as ← getMany g n
    Pure.pure (a :: as)

lemma Reads.getMany {α : Type} {g : Get α} {put : α → Bytes} {as : List α}
    (h : ∀ a ∈ as, Reads g (put a) a) : Reads (getMany g as.length) (as.flatMap put) as := by
  induction as with
  | nil => exact Reads.pure []
  | cons a as ih =>
    have hrest := ih fun b hb => h b (List.mem_cons_of_mem _ hb)
    have hall :=
      (h a List.mem_cons_self).bind (f := fun a => ByteCodec.getMany g as.length >>= fun as =>
      Pure.pure (a :: as)) (hrest.bind (Reads.pure _))
    rwa [List.append_nil] at hall

/-! ### Frames

Records of any length one after another in a file, each after its length in four bytes.
-/

def frame (payload : Bytes) : Bytes := putU32 (UInt32.ofNat payload.length) ++ payload

/-- The next frame of a file: `none` at the end of the file, which may also fall into a length;
a file that ends in a payload is an error. -/
def readFrame (file : Bytes) : Option (Option (Bytes × Bytes)) :=
  match getU32.run file with
  | none => some none
  | some (len, rest) => ((takeBytes len.toNat).run rest).map some

lemma takeBytes_length {n : ℕ} {bs x rest : Bytes} (h : (takeBytes n).run bs = some (x, rest)) :
    rest.length ≤ bs.length := by
  simp only [takeBytes, StateT.run, Option.ite_none_right_eq_some, Option.some.injEq,
    Prod.mk.injEq] at h
  rw [← h.2.2, List.length_drop]
  omega

lemma run_getU32 (bs : Bytes) : getU32.run bs =
    if 4 ≤ bs.length then some (UInt32.ofNat (leValue (bs.take 4)), bs.drop 4) else none := by
  rw [getU32, getNat, StateT.run_map, StateT.run_map]
  simp only [takeBytes, StateT.run]
  split_ifs <;> rfl

lemma getU32_length {bs rest : Bytes} {v : UInt32} (h : getU32.run bs = some (v, rest)) :
    rest.length < bs.length := by
  rw [run_getU32, Option.ite_none_right_eq_some, Option.some.injEq, Prod.mk.injEq] at h
  rw [← h.2.2, List.length_drop]
  omega

lemma readFrame_length {file payload rest : Bytes}
    (h : readFrame file = some (some (payload, rest))) : rest.length < file.length := by
  unfold readFrame at h
  split at h
  · cases h
  · rename_i len r hlen
    rw [Option.map_eq_some_iff] at h
    obtain ⟨p, hp, he⟩ := h
    cases he
    exact Nat.lt_of_le_of_lt (takeBytes_length hp) (getU32_length hlen)

/-- Every record of a file. -/
def readFrames (file : Bytes) : Option (List Bytes) :=
  match _h : readFrame file with
  | none => none
  | some none => some []
  | some (some (payload, rest)) => (readFrames rest).map (payload :: ·)
termination_by file.length
decreasing_by exact readFrame_length _h

lemma readFrames_of_none {file : Bytes} (h : readFrame file = none) : readFrames file = none := by
  rw [readFrames]
  split <;> simp_all

lemma readFrames_of_end {file : Bytes} (h : readFrame file = some none) :
    readFrames file = some [] := by
  rw [readFrames]
  split <;> simp_all

lemma readFrames_of_frame {file payload rest : Bytes}
    (h : readFrame file = some (some (payload, rest))) :
    readFrames file = (readFrames rest).map (payload :: ·) := by
  rw [readFrames]
  split <;> simp_all

lemma readFrame_nil : readFrame [] = some none := rfl

lemma readFrame_frame {payload : Bytes} (h : payload.length < 2 ^ 32) (rest : Bytes) :
    readFrame (frame payload ++ rest) = some (some (payload, rest)) := by
  have hlen : (UInt32.ofNat payload.length).toNat = payload.length := by
    rw [UInt32.toNat_ofNat', Nat.mod_eq_of_lt h]
  unfold readFrame frame
  rw [List.append_assoc, Reads.getU32]
  simp only [hlen]
  rw [Reads.takeBytes]
  rfl

/-- **What was written frame by frame is read frame by frame.** -/
theorem readFrames_frames {payloads : List Bytes} (h : ∀ p ∈ payloads, p.length < 2 ^ 32) :
    readFrames (payloads.flatMap frame) = some payloads := by
  induction payloads with
  | nil => exact readFrames_of_end readFrame_nil
  | cons p ps ih =>
    rw [List.flatMap_cons, readFrames_of_frame (readFrame_frame (h p List.mem_cons_self) _),
      ih fun q hq => h q (List.mem_cons_of_mem _ hq)]
    rfl

end OsmParquet.ByteCodec
