import Mathlib.Data.Prod.Lex
import OsmParquet.ByteCodec
import OsmParquet.NodeWayIndex

/-!
The raw builder's pass over the refs of the ways.

Every ref is written to the file of a bucket of its node, each bucket is sorted on its own, and the
sorted buckets are written one after another. The bucket is a piece of the id: the bits above the
lowest 26, cut off after eight of them, so that from `2 ^ 34` on ids come back to the first
buckets. The range of a part is kept while its batches are written.
-/

namespace OsmParquet.NodeWayBuild

open OsmParquet.ByteCodec OsmParquet.PartFiles OsmParquet.NodeWayIndex

/-- A way as the builder reads it: the list of refs may be missing, and a ref may. -/
structure WayRecord where
  id : Int64
  refs : Option (List (Option Int64))

/-- The refs with their ways, in the order they are read. -/
def refPairs (ways : List WayRecord) : List (Int64 × Int64) :=
  ways.flatMap fun w => (w.refs.getD []).filterMap fun n => n.map fun n => (n, w.id)

/-! ### Buckets -/

def record (p : Int64 × Int64) : Bytes := putI64 p.1 ++ putI64 p.2

def writeRecord (files : ℕ → Bytes) (p : Int64 × Int64) : ℕ → Bytes :=
  let b := bucketFor p.1.toInt
  Function.update files b (files b ++ record p)

def bucketFiles (ways : List WayRecord) : ℕ → Bytes := (refPairs ways).foldl writeRecord fun _ => []

/-- The number at a place of a file. -/
def i64At (buf : Bytes) (off : ℕ) : ℤ :=
  (UInt64.ofNat (leValue ((buf.drop off).take 8))).toInt64.toInt

def readPairs (buf : Bytes) : List (ℤ × ℤ) :=
  (List.range (buf.length / 16)).map fun i => (i64At buf (i * 16), i64At buf (i * 16 + 8))

def sortedBuckets (ways : List WayRecord) : List (List (ℤ × ℤ)) :=
  (List.range nBuckets).map fun b =>
    (readPairs (bucketFiles ways b)).insertionSort fun x y => toLex x ≤ toLex y

/-! ### Parts with their ranges -/

structure PartInfo where
  rows : List (ℤ × ℤ)
  minId : Option ℤ
  maxId : Option ℤ
  deriving DecidableEq

structure RangeWriter where
  writer : Option (List (ℤ × ℤ))
  parts : List PartInfo
  partMinId : Option ℤ
  partMaxId : Option ℤ

def RangeWriter.closePart (w : RangeWriter) : RangeWriter :=
  match w.writer with
  | some rows => ⟨none, w.parts ++ [⟨rows, w.partMinId, w.partMaxId⟩], none, none⟩
  | none => w

def RangeWriter.writeBatch (w : RangeWriter) (batch : List (ℤ × ℤ)) (lo hi : ℤ) : RangeWriter :=
  let rows := w.writer.getD [] ++ batch
  let w : RangeWriter := ⟨some rows, w.parts, some (w.partMinId.elim lo (min · lo)),
    some (w.partMaxId.elim hi (max · hi))⟩
  if rows.length ≥ nodeWayPartRows then w.closePart else w

/-- The batch that is being filled with the ids it spans, and the writer. -/
structure RangePass where
  batch : List (ℤ × ℤ)
  batchLo : ℤ
  batchHi : ℤ
  writer : RangeWriter

def i64Max : ℤ := 2 ^ 63 - 1
def i64Min : ℤ := -2 ^ 63

def RangePass.append (p : RangePass) (r : ℤ × ℤ) : RangePass :=
  let batch := p.batch ++ [r]
  let lo := min p.batchLo r.1
  let hi := max p.batchHi r.1
  if batch.length ≥ ByidLookup.batchRows then ⟨[], i64Max, i64Min, p.writer.writeBatch batch lo hi⟩
  else ⟨batch, lo, hi, p.writer⟩

def RangePass.finish (p : RangePass) : List PartInfo :=
  (if p.batch.length > 0 then p.writer.writeBatch p.batch p.batchLo p.batchHi
    else p.writer).closePart.parts

def RangePass.new : RangePass := ⟨[], i64Max, i64Min, ⟨none, [], none, none⟩⟩

/-- The parts of the index. -/
def writeNodeWayIndex (ways : List WayRecord) : List PartInfo :=
  ((sortedBuckets ways).flatten.foldl RangePass.append RangePass.new).finish

/-! ### The rows of the parts -/

/-- A writer without its ranges. -/
def RangeWriter.erase (w : RangeWriter) : PartWriter (ℤ × ℤ) :=
  ⟨nodeWayPartRows, w.writer, w.parts.map PartInfo.rows⟩

def RangePass.erase (p : RangePass) : Pass (ℤ × ℤ) := ⟨p.batch, p.writer.erase⟩

lemma erase_closePart (w : RangeWriter) : w.closePart.erase = closePart w.erase := by
  rcases w with ⟨_ | rows, parts, lo, hi⟩ <;>
    simp [RangeWriter.closePart, RangeWriter.erase, PartFiles.closePart]

lemma erase_writeBatch (w : RangeWriter) (batch : List (ℤ × ℤ)) (lo hi : ℤ) :
    (w.writeBatch batch lo hi).erase = writeBatch w.erase batch := by
  by_cases h : (w.writer.getD [] ++ batch).length ≥ nodeWayPartRows
  · simp only [RangeWriter.writeBatch, if_pos h, erase_closePart]
    exact (if_pos h).symm
  · simp only [RangeWriter.writeBatch, if_neg h]
    exact (if_neg h).symm

lemma erase_append (p : RangePass) (r : ℤ × ℤ) :
    (p.append r).erase = p.erase.append ByidLookup.batchRows r := by
  by_cases h : (p.batch ++ [r]).length ≥ ByidLookup.batchRows
  · simp only [RangePass.append, if_pos h, RangePass.erase, erase_writeBatch]
    exact (if_pos h).symm
  · simp only [RangePass.append, if_neg h, RangePass.erase]
    exact (if_neg h).symm

lemma erase_run (p : RangePass) (rows : List (ℤ × ℤ)) :
    (rows.foldl RangePass.append p).erase = rows.foldl
    (Pass.append ByidLookup.batchRows) p.erase := by
  induction rows generalizing p with
  | nil => rfl
  | cons r rows ih => rw [List.foldl_cons, ih, erase_append, List.foldl_cons]

lemma rows_finish (p : RangePass) : p.finish.map PartInfo.rows = p.erase.finish := by
  have hclose : ∀ w : RangeWriter, w.closePart.parts.map PartInfo.rows = w.erase.finish := by
    intro w
    rw [PartWriter.finish, ← erase_closePart]
    rfl
  by_cases h : p.batch.length > 0
  · rw [RangePass.finish, if_pos h, hclose, erase_writeBatch]
    exact (congrArg PartWriter.finish (if_pos h)).symm
  · rw [RangePass.finish, if_neg h, hclose]
    exact (congrArg PartWriter.finish (if_neg h)).symm

/-- The rows of the parts are cut as those of any other table. -/
lemma map_rows_writeNodeWayIndex (ways : List WayRecord) :
    (writeNodeWayIndex ways).map PartInfo.rows =
      writeParts nodeWayPartRows ByidLookup.batchRows (sortedBuckets ways).flatten := by
  rw [writeNodeWayIndex, rows_finish, erase_run]
  rfl

/-! ### The ranges of the parts -/

/-- The least and the greatest node of some rows. -/
structure Spans (rows : List (ℤ × ℤ)) (lo hi : ℤ) : Prop where
  least : ∃ r ∈ rows, r.1 = lo
  greatest : ∃ r ∈ rows, r.1 = hi
  covers : ∀ r ∈ rows, lo ≤ r.1 ∧ r.1 ≤ hi

lemma Spans.append {rows rows' : List (ℤ × ℤ)} {lo hi lo' hi' : ℤ} (h : Spans rows lo hi)
    (h' : Spans rows' lo' hi') : Spans (rows ++ rows') (min lo lo') (max hi hi') where
  least := by
    rcases min_choice lo lo' with hc | hc <;> rw [hc]
    · obtain ⟨r, hr, he⟩ := h.least
      exact ⟨r, List.mem_append_left _ hr, he⟩
    · obtain ⟨r, hr, he⟩ := h'.least
      exact ⟨r, List.mem_append_right _ hr, he⟩
  greatest := by
    rcases max_choice hi hi' with hc | hc <;> rw [hc]
    · obtain ⟨r, hr, he⟩ := h.greatest
      exact ⟨r, List.mem_append_left _ hr, he⟩
    · obtain ⟨r, hr, he⟩ := h'.greatest
      exact ⟨r, List.mem_append_right _ hr, he⟩
  covers := by
    intro r hr
    rcases List.mem_append.mp hr with hr | hr
    · exact ⟨(min_le_left _ _).trans (h.covers r hr).1, (h.covers r hr).2.trans (le_max_left _ _)⟩
    · exact ⟨(min_le_right _ _).trans (h'.covers r hr).1,
        (h'.covers r hr).2.trans (le_max_right _ _)⟩

lemma spans_single (r : ℤ × ℤ) : Spans [r] r.1 r.1 :=
  ⟨⟨r, List.mem_singleton_self r, rfl⟩, ⟨r, List.mem_singleton_self r, rfl⟩, fun x hx => by
    rw [List.mem_singleton.mp hx]
    exact ⟨le_rfl, le_rfl⟩⟩

/-- A part has the range of its rows. -/
def PartInfo.Ranged (p : PartInfo) : Prop :=
  ∃ lo hi, p.minId = some lo ∧ p.maxId = some hi ∧ Spans p.rows lo hi

/-- Every part has its range, and so has the open one; without an open part no range is kept. -/
structure RangeWriter.Ranged (w : RangeWriter) : Prop where
  parts : ∀ p ∈ w.parts, p.Ranged
  writer : match w.writer with
    | some rows => PartInfo.Ranged ⟨rows, w.partMinId, w.partMaxId⟩
    | none => w.partMinId = none ∧ w.partMaxId = none

lemma ranged_closePart {w : RangeWriter} (h : w.Ranged) : w.closePart.Ranged := by
  obtain ⟨_ | rows, parts, lo, hi⟩ := w
  · exact h
  · refine ⟨fun p hp => ?_, rfl, rfl⟩
    rcases List.mem_append.mp hp with hp | hp
    · exact h.parts p hp
    · rw [List.mem_singleton.mp hp]
      exact h.writer

lemma ranged_writeBatch {w : RangeWriter} (h : w.Ranged) {batch : List (ℤ × ℤ)} {lo hi : ℤ}
    (hb : Spans batch lo hi) : (w.writeBatch batch lo hi).Ranged := by
  have hopen : RangeWriter.Ranged ⟨some (w.writer.getD [] ++ batch), w.parts,
      some (w.partMinId.elim lo (min · lo)), some (w.partMaxId.elim hi (max · hi))⟩ := by
    refine ⟨h.parts, ?_⟩
    have hw := h.writer
    obtain ⟨_ | rows, parts, pmin, pmax⟩ := w
    · obtain ⟨rfl, rfl⟩ := hw
      exact ⟨lo, hi, rfl, rfl, hb⟩
    · obtain ⟨lo', hi', rfl, rfl, hs⟩ := hw
      exact ⟨_, _, rfl, rfl, hs.append hb⟩
  unfold RangeWriter.writeBatch
  dsimp only
  split_ifs
  · exact ranged_closePart hopen
  · exact hopen

/-- Between two rows: the batch has the ids it spans, or has been started anew. -/
structure RangePass.Ranged (p : RangePass) : Prop where
  writer : p.writer.Ranged
  batch : (p.batch = [] ∧ p.batchLo = i64Max ∧ p.batchHi = i64Min) ∨
    Spans p.batch p.batchLo p.batchHi

/-- A node id of the files. -/
def IsI64 (n : ℤ) : Prop := i64Min ≤ n ∧ n ≤ i64Max

lemma step_ranged {p : RangePass} (h : p.Ranged) {r : ℤ × ℤ} (hr : IsI64 r.1) :
    (p.append r).Ranged := by
  have hbatch : Spans (p.batch ++ [r]) (min p.batchLo r.1) (max p.batchHi r.1) := by
    rcases h.batch with ⟨hnil, hlo, hhi⟩ | hs
    · rw [hnil, hlo, hhi, min_eq_right hr.2, max_eq_right hr.1]
      exact spans_single r
    · exact hs.append (spans_single r)
  unfold RangePass.append
  dsimp only
  split_ifs
  · exact ⟨ranged_writeBatch h.writer hbatch, Or.inl ⟨rfl, rfl, rfl⟩⟩
  · exact ⟨h.writer, Or.inr hbatch⟩

lemma run_ranged {p : RangePass} (h : p.Ranged) {rows : List (ℤ × ℤ)} (hr : ∀ r ∈ rows, IsI64 r.1) :
    (rows.foldl RangePass.append p).Ranged := by
  induction rows generalizing p with
  | nil => exact h
  | cons r rows ih =>
    exact ih (step_ranged h (hr r List.mem_cons_self)) fun x hx => hr x (List.mem_cons_of_mem _ hx)

lemma finish_ranged {p : RangePass} (h : p.Ranged) : ∀ q ∈ p.finish, q.Ranged := by
  unfold RangePass.finish
  split_ifs with hpos
  · rcases h.batch with ⟨hnil, -, -⟩ | hs
    · rw [hnil] at hpos
      cases hpos
    · exact (ranged_closePart (ranged_writeBatch h.writer hs)).parts
  · exact (ranged_closePart h.writer).parts

/-! ### The buckets read back -/

/-- The refs with their ways, as numbers. -/
def idPairs (ways : List WayRecord) : List (ℤ × ℤ) :=
  (refPairs ways).map fun p => (p.1.toInt, p.2.toInt)

/-- Refs that go to one bucket. -/
def inBucket (b : ℕ) (l : List (ℤ × ℤ)) : List (ℤ × ℤ) := l.filter fun p => bucketFor p.1 = b

lemma run_writeRecord (files : ℕ → Bytes) (pairs : List (Int64 × Int64)) (b : ℕ) :
    pairs.foldl writeRecord files b =
      files b ++ (pairs.filter fun p => bucketFor p.1.toInt = b).flatMap record := by
  induction pairs generalizing files with
  | nil => simp
  | cons p pairs ih =>
    rw [List.foldl_cons, ih, writeRecord]
    by_cases hb : bucketFor p.1.toInt = b
    · subst hb
      simp
    · simp [hb, Function.update_of_ne (Ne.symm hb)]

lemma length_putI64 (v : Int64) : (putI64 v).length = 8 := length_leBytes 8 _

lemma i64At_putI64 (v : Int64) (rest : Bytes) : i64At (putI64 v ++ rest) 0 = v.toInt := by
  have hval : leValue (putI64 v) = v.toUInt64.toNat := leValue_leBytes v.toUInt64.toNat_lt
  rw [i64At, List.drop_zero, List.take_left' (length_putI64 v), hval, UInt64.ofNat_toNat,
    Int64.toInt64_toUInt64]

lemma i64At_append {bs : Bytes} {k : ℕ} (h : bs.length = k) (rest : Bytes) (off : ℕ) :
    i64At (bs ++ rest) (k + off) = i64At rest off := by
  subst h
  rw [i64At, i64At, ← List.drop_drop, List.drop_left]

lemma length_record (p : Int64 × Int64) : (record p).length = 16 := by
  rw [record, List.length_append, length_putI64, length_putI64]

lemma readPairs_record (p : Int64 × Int64) (rest : Bytes) :
    readPairs (record p ++ rest) = (p.1.toInt, p.2.toInt) :: readPairs rest := by
  have hlen := length_record p
  have hcount : (record p ++ rest).length / 16 = rest.length / 16 + 1 := by
    rw [List.length_append, hlen]
    omega
  have hfst : i64At (record p ++ rest) (0 * 16) = p.1.toInt := by
    rw [record, List.append_assoc, Nat.zero_mul, i64At_putI64]
  have hsnd : i64At (record p ++ rest) (0 * 16 + 8) = p.2.toInt := by
    rw [record, List.append_assoc, show 0 * 16 + 8 = 8 + 0 from rfl,
      i64At_append (length_putI64 p.1), i64At_putI64]
  have hshift : ∀ i, i64At (record p ++ rest) ((i + 1) * 16) = i64At rest (i * 16) ∧
      i64At (record p ++ rest) ((i + 1) * 16 + 8) = i64At rest (i * 16 + 8) := by
    intro i
    rw [show (i + 1) * 16 = 16 + i * 16 by omega, i64At_append hlen, add_assoc, i64At_append hlen]
    exact ⟨rfl, rfl⟩
  rw [readPairs, hcount, List.range_succ_eq_map, List.map_cons, List.map_map, hfst, hsnd]
  refine congrArg _ (List.map_congr_left fun i _ => ?_)
  simp only [Function.comp_apply, Nat.succ_eq_add_one, (hshift i).1, (hshift i).2]

lemma readPairs_records (pairs : List (Int64 × Int64)) :
    readPairs (pairs.flatMap record) = pairs.map fun p => (p.1.toInt, p.2.toInt) := by
  induction pairs with
  | nil => rfl
  | cons p pairs ih => rw [List.flatMap_cons, readPairs_record, ih, List.map_cons]

/-- A bucket that is read has the refs of its nodes. -/
lemma sortedBuckets_eq (ways : List WayRecord) : sortedBuckets ways =
    (List.range nBuckets).map fun b =>
      (inBucket b (idPairs ways)).insertionSort fun x y => toLex x ≤ toLex y := by
  refine List.map_congr_left fun b _ => ?_
  rw [bucketFiles, run_writeRecord, List.nil_append, readPairs_records, inBucket, idPairs,
    List.filter_map]
  rfl

/-! ### The order of the rows -/

lemma flatMap_filter_perm {α : Type*} (f : α → ℕ) (n : ℕ) (l : List α) (h : ∀ a ∈ l, f a < n) :
    ((List.range n).flatMap fun b => l.filter fun a => f a = b).Perm l := by
  induction n generalizing l with
  | zero =>
    have : l = [] := List.eq_nil_iff_forall_not_mem.mpr fun a ha =>
      absurd (h a ha) (Nat.not_lt_zero _)
    subst this
    rfl
  | succ n ih =>
    have hlow := ih (l.filter fun a => f a < n) fun a ha => by simpa using (List.mem_filter.mp ha).2
    have hsame : ∀ b ∈ List.range n, (l.filter fun a => f a = b) =
        (l.filter fun a => f a < n).filter fun a => f a = b := by
      intro b hb
      rw [List.filter_filter]
      refine List.filter_congr fun a _ => ?_
      have := List.mem_range.mp hb
      rw [← Bool.decide_and]
      exact decide_eq_decide.mpr ⟨fun h => ⟨h, by omega⟩, fun h => h.1⟩
    have hhigh : (l.filter fun a => f a = n) = l.filter fun a => !decide (f a < n) := by
      refine List.filter_congr fun a ha => ?_
      have := h a ha
      rw [← decide_not]
      exact decide_eq_decide.mpr (by omega)
    rw [List.range_succ, List.flatMap_append, List.flatMap_congr hsame,
      List.flatMap_singleton, hhigh]
    exact (hlow.append_right _).trans (List.filter_append_perm _ l)

lemma bucketFor_lt (n : ℤ) : bucketFor n < nBuckets := Nat.mod_lt _ (by decide)

lemma sortedBuckets_perm (ways : List WayRecord) :
    (sortedBuckets ways).flatten.Perm (idPairs ways) := by
  have hbuckets := flatMap_filter_perm (fun p : ℤ × ℤ => bucketFor p.1) nBuckets (idPairs ways)
    fun p _ => bucketFor_lt p.1
  rw [sortedBuckets_eq, ← List.flatMap_def]
  exact (List.Perm.flatMap_left _ fun b _ => List.perm_insertionSort _ _).trans hbuckets

/-- Nodes of greater id are in no earlier bucket. -/
def BucketsAscend (nodes : List ℤ) : Prop :=
  ∀ n ∈ nodes, ∀ m ∈ nodes, n < m → bucketFor n ≤ bucketFor m

lemma mem_sorted_bucket {l : List (ℤ × ℤ)} {b : ℕ} {x : ℤ × ℤ} :
    x ∈ (inBucket b l).insertionSort (fun x y => toLex x ≤ toLex y) ↔ x ∈ l ∧
      bucketFor x.1 = b := by
  rw [List.mem_insertionSort, inBucket, List.mem_filter, decide_eq_true_eq]

/-- **The rows are in order exactly if the buckets are.** -/
lemma sorted_iff (ways : List WayRecord) :
    (sortedBuckets ways).flatten.Pairwise (fun x y => toLex x ≤ toLex y) ↔
      BucketsAscend ((idPairs ways).map Prod.fst) := by
  have htotal : Std.Total fun x y : ℤ × ℤ => toLex x ≤ toLex y := ⟨fun _ _ => le_total _ _⟩
  have htrans : IsTrans (ℤ × ℤ) fun x y => toLex x ≤ toLex y := ⟨fun _ _ _ => le_trans⟩
  rw [sortedBuckets_eq, List.pairwise_flatten, List.pairwise_map]
  constructor
  · rintro ⟨-, hacross⟩ n hn m hm hlt
    obtain ⟨x, hx, rfl⟩ := List.mem_map.mp hn
    obtain ⟨y, hy, rfl⟩ := List.mem_map.mp hm
    by_contra hnot
    -- the greater node would come before the smaller one
    have hle := List.pairwise_iff_getElem.mp hacross (bucketFor y.1) (bucketFor x.1)
      (by simpa using bucketFor_lt y.1) (by simpa using bucketFor_lt x.1) (not_le.mp hnot) y
      (by rw [List.getElem_range]; exact mem_sorted_bucket.mpr ⟨hy, rfl⟩) x
      (by rw [List.getElem_range]; exact mem_sorted_bucket.mpr ⟨hx, rfl⟩)
    rcases Prod.Lex.le_iff.mp hle with h | h
    · exact absurd hlt (not_lt.mpr (le_of_lt h))
    · exact absurd hlt (not_lt.mpr (le_of_eq h.1))
  · intro hasc
    refine ⟨fun l hl => ?_, List.pairwise_lt_range.imp fun {b b'} hbb x hx y hy => ?_⟩
    · obtain ⟨b, -, rfl⟩ := List.mem_map.mp hl
      exact List.pairwise_insertionSort _ _
    · obtain ⟨hxm, rfl⟩ := mem_sorted_bucket.mp hx
      obtain ⟨hym, rfl⟩ := mem_sorted_bucket.mp hy
      rcases lt_trichotomy x.1 y.1 with hlt | heq | hgt
      · exact Prod.Lex.le_iff.mpr (Or.inl hlt)
      · rw [heq] at hbb
        exact absurd hbb (lt_irrefl _)
      · exact absurd (hasc y.1 (List.mem_map_of_mem hym) x.1 (List.mem_map_of_mem hxm) hgt)
          (not_le.mpr hbb)

/-! ### The index as a whole -/

/-- What the index is for: its rows are the refs in the order of nodes and ways, and the parts cut
the nodes into ranges that meet at most at their ends. -/
structure GloballySorted (ways : List WayRecord) : Prop where
  sorted : ((writeNodeWayIndex ways).flatMap PartInfo.rows).Pairwise fun x y => toLex x ≤ toLex y
  pairs : ((writeNodeWayIndex ways).flatMap PartInfo.rows).Perm (idPairs ways)
  ranges : (writeNodeWayIndex ways).Pairwise fun p q =>
    ∃ lo hi lo' hi', p.minId = some lo ∧ p.maxId = some hi ∧ q.minId = some lo' ∧
      q.maxId = some hi' ∧ lo ≤ lo' ∧ hi ≤ lo' ∧ hi ≤ hi'
  covers : ∀ p ∈ writeNodeWayIndex ways, ∃ lo hi, p.minId = some lo ∧ p.maxId = some hi ∧
    ∀ r ∈ p.rows, lo ≤ r.1 ∧ r.1 ≤ hi

variable {ways : List WayRecord}

lemma flatMap_rows (ways : List WayRecord) :
    (writeNodeWayIndex ways).flatMap PartInfo.rows = (sortedBuckets ways).flatten := by
  rw [List.flatMap_def, map_rows_writeNodeWayIndex]
  exact (writeParts_spec _ _ _).1

lemma isI64_toInt (v : Int64) : IsI64 v.toInt := by
  have h₁ := v.le_toInt
  have h₂ := v.toInt_lt
  unfold IsI64 i64Min i64Max
  omega

lemma ranged_writeNodeWayIndex (ways : List WayRecord) :
    ∀ p ∈ writeNodeWayIndex ways, p.Ranged := by
  have hnew : RangePass.new.Ranged :=
    ⟨⟨fun p hp => (List.not_mem_nil hp).elim, rfl, rfl⟩, Or.inl ⟨rfl, rfl, rfl⟩⟩
  refine finish_ranged (run_ranged hnew fun r hr => ?_)
  have hmem := (sortedBuckets_perm ways).mem_iff.mp hr
  obtain ⟨p, -, rfl⟩ := List.mem_map.mp hmem
  exact isI64_toInt p.1

/-- In rows that are in order, parts follow each other. -/
lemma ranges_of_sorted
    (h : ((writeNodeWayIndex ways).flatMap PartInfo.rows).Pairwise fun x y => toLex x ≤ toLex y) :
    (writeNodeWayIndex ways).Pairwise fun p q => ∃ lo hi lo' hi', p.minId = some lo ∧
      p.maxId = some hi ∧
      q.minId = some lo' ∧ q.maxId = some hi' ∧ lo ≤ lo' ∧ hi ≤ lo' ∧ hi ≤ hi' := by
  rw [List.flatMap_def, List.pairwise_flatten, List.pairwise_map] at h
  refine List.Pairwise.imp_of_mem (fun {p q} hp hq hpq => ?_) h.2
  obtain ⟨lo, hi, hlo, hhi, hs⟩ := ranged_writeNodeWayIndex ways p hp
  obtain ⟨lo', hi', hlo', hhi', hs'⟩ := ranged_writeNodeWayIndex ways q hq
  have hmono : ∀ x ∈ p.rows, ∀ y ∈ q.rows, x.1 ≤ y.1 := by
    intro x hx y hy
    rcases Prod.Lex.le_iff.mp (hpq x hx y hy) with h | h
    · exact le_of_lt h
    · exact le_of_eq h.1
  obtain ⟨x, hx, rfl⟩ := hs.least
  obtain ⟨y, hy, rfl⟩ := hs.greatest
  obtain ⟨z, hz, rfl⟩ := hs'.least
  obtain ⟨t, ht, rfl⟩ := hs'.greatest
  exact ⟨_, _, _, _, hlo, hhi, hlo', hhi', hmono x hx z hz, hmono y hy z hz, hmono y hy t ht⟩

/-- **The index is sorted exactly if no node of greater id falls into an earlier bucket.** -/
theorem globallySorted_iff (ways : List WayRecord) :
    GloballySorted ways ↔ BucketsAscend ((idPairs ways).map Prod.fst) := by
  rw [← sorted_iff, ← flatMap_rows]
  constructor
  · exact fun h => h.sorted
  · intro h
    refine ⟨h, ?_, ranges_of_sorted h, fun p hp => ?_⟩
    · rw [flatMap_rows]
      exact sortedBuckets_perm ways
    · obtain ⟨lo, hi, hlo, hhi, hs⟩ := ranged_writeNodeWayIndex ways p hp
      exact ⟨lo, hi, hlo, hhi, hs.covers⟩

/-- Ids of 34 bits have a bucket each for every `2 ^ 26` of them. -/
theorem bucketsAscend_of_small {nodes : List ℤ} (h : ∀ n ∈ nodes, 0 ≤ n ∧ n < 2 ^ 34) :
    BucketsAscend nodes := by
  intro n hn m hm hlt
  have hn' := h n hn
  have hm' := h m hm
  unfold bucketFor bucketShift nBuckets
  omega

/-- A way with the first node of the second bucket and the first one after the last bucket. -/
def wrappedWay : List WayRecord := [⟨7, some [some (2 ^ 26), some (2 ^ 34)]⟩]

/-- The greater node comes back to the first bucket, before the smaller one. -/
theorem wrapped_node_unsorted :
    (∀ p ∈ idPairs wrappedWay, 0 ≤ p.1 ∧ 0 ≤ p.2) ∧ ¬ GloballySorted wrappedWay := by
  refine ⟨by decide, fun h => ?_⟩
  have hsorted := h.sorted
  rw [flatMap_rows, sorted_iff] at hsorted
  exact absurd (hsorted (2 ^ 26) (by decide) (2 ^ 34) (by decide) (by decide)) (by decide)

/-! ### The parts that readers and compaction start from -/

lemma indexPartOf_of_spans {rows : List (ℤ × ℤ)} {lo hi : ℤ} (h : Spans rows lo hi) :
    ∃ q, indexPartOf rows = some q ∧ q.minId = lo ∧ q.maxId = hi ∧ q.rows = rows := by
  obtain ⟨x, hx, rfl⟩ := h.least
  obtain ⟨y, hy, rfl⟩ := h.greatest
  have hlo : (rows.map Prod.fst).min? = some x.1 := List.min?_eq_some_iff.mpr
    ⟨List.mem_map_of_mem hx, by simpa using fun a b hr => (h.covers (a, b) hr).1⟩
  have hhi : (rows.map Prod.fst).max? = some y.1 := List.max?_eq_some_iff.mpr
    ⟨List.mem_map_of_mem hy, by simpa using fun a b hr => (h.covers (a, b) hr).2⟩
  unfold indexPartOf
  split
  · rename_i lo hi hlo' hhi'
    exact ⟨_, rfl, Option.some_inj.mp (hlo'.symm.trans hlo),
      Option.some_inj.mp (hhi'.symm.trans hhi), rfl⟩
  · rename_i hnot
    exact absurd hhi (hnot _ _ hlo)

/-- **The pass writes the parts that the index is modelled by elsewhere**, with their ranges. -/
theorem writeNodeWayIndex_eq {rows : List (Rows.Row Rows.WayCols)}
    (h : idPairs ways = nodeWayPairs rows) :
    (buildNodeWayIndex rows).map (fun q => (⟨q.rows, some q.minId, some q.maxId⟩ : PartInfo)) =
      writeNodeWayIndex ways := by
  have hsorted : sortedPairs rows = (sortedBuckets ways).flatten := by
    rw [sortedBuckets_eq, h, ← List.flatMap_def]
    rfl
  rw [buildNodeWayIndex, hsorted, ← map_rows_writeNodeWayIndex, List.filterMap_map,
    List.map_filterMap]
  have hpart : ∀ p ∈ writeNodeWayIndex ways, ((indexPartOf ∘ PartInfo.rows) p).map
      (fun q => (⟨q.rows, some q.minId, some q.maxId⟩ : PartInfo)) = some p := by
    intro p hp
    obtain ⟨lo, hi, hlo, hhi, hs⟩ := ranged_writeNodeWayIndex ways p hp
    obtain ⟨q, hq, h₁, h₂, h₃⟩ := indexPartOf_of_spans hs
    rw [Function.comp_apply, hq, Option.map_some, h₁, h₂, h₃, ← hlo, ← hhi]
  rw [List.filterMap_congr hpart, List.filterMap_some]

end OsmParquet.NodeWayBuild
