import Mathlib.Data.List.Sort
import Mathlib.Data.Prod.Lex
import Mathlib.Order.Lattice.Nat
import Mathlib.Algebra.Order.Ring.Int
import OsmParquet.RunMerge
import OsmParquet.SpillRecords

/-!
Sorting the ways of a cell.

A small spill file is decoded and sorted as a whole. A large one is cut into chunks by the number
of bytes read; each chunk is sorted and written to a run file in the format of the spill file, and
the runs are merged. The rows are the same, wherever the cuts fall.
-/

namespace OsmParquet.WayRuns

open OsmParquet.ByteCodec OsmParquet.SpillRecords OsmParquet.RunMerge

/-- What rows are sorted by. -/
def wayKey (r : WaySpillRow) : ℕ ×ₗ ℤ := toLex (r.hilbert.toNat, r.id.toInt)

def sortByKey (rows : List WaySpillRow) : List WaySpillRow :=
  rows.insertionSort fun a b => wayKey a ≤ wayKey b

def decodeAndSortInMemory (file : Bytes) : Option (List WaySpillRow) := do
  let records ← readRecords file
  let rows ← records.mapM WaySpillRow.decode
  pure (sortByKey rows)

/-- The bytes of a run file. -/
def writeSortedRun (buf : List WaySpillRow) : Bytes :=
  (sortByKey buf).flatMap fun row => frame row.encode

/-- The loop over the records of a spill file. Bytes are counted in 64 bits. -/
def spillLoop (chunkBytes : UInt64) (file : Bytes) (buf : List WaySpillRow) (bufBytes : UInt64)
    (runs : List Bytes) : Option (List Bytes) :=
  match _h : readFrame file with
  | none => none
  | some none => some (if buf.isEmpty then runs else runs ++ [writeSortedRun buf])
  | some (some (payload, rest)) =>
    match WaySpillRow.decode payload with
    | none => none
    | some row =>
      let bufBytes := bufBytes + UInt64.ofNat payload.length
      if bufBytes ≥ chunkBytes then
        spillLoop chunkBytes rest [] 0 (runs ++ [writeSortedRun (buf ++ [row])])
      else spillLoop chunkBytes rest (buf ++ [row]) bufBytes runs
termination_by file.length
decreasing_by all_goals exact readFrame_length _h

/-- The run files, in the order they are written. -/
def spillToSortedRuns (file : Bytes) (chunkBytes : UInt64) : Option (List Bytes) :=
  spillLoop chunkBytes file [] 0 []

/-- The next record of a run file, and what is left of the file. -/
def readOneRecord (r : Bytes) : Option (Option (WaySpillRow × Bytes)) :=
  match readFrame r with
  | none => none
  | some none => some none
  | some (some (payload, rest)) => (WaySpillRow.decode payload).map fun row => some (row, rest)

abbrev WayRunMerge := Merge WaySpillRow Bytes

def WayRunMerge.new (runs : List Bytes) : Option WayRunMerge := RunMerge.start readOneRecord runs

def WayRunMerge.next (m : WayRunMerge) : Option (Option (WaySpillRow × WayRunMerge)) :=
  RunMerge.next wayKey readOneRecord m

/-- The rows that the iterator gives until its end. -/
def WayRunMerge.collect (fuel : ℕ) (m : WayRunMerge) : Option (List WaySpillRow) :=
  RunMerge.collect wayKey readOneRecord fuel m

/-- A spill file with these rows. A row that is read can be written again: its record has a length
of 32 bits. -/
structure IsSpillFile (file : Bytes) (rows : List WaySpillRow) : Prop where
  decodes : ∃ payloads, readRecords file = some payloads ∧
    payloads.mapM WaySpillRow.decode = some rows
  fits : ∀ r ∈ rows, r.encode.length < 2 ^ 32

section

variable {file : Bytes} {rows buf : List WaySpillRow} {runs : List Bytes}
  {chunkBytes bufBytes : UInt64}

/-! ### The runs -/

lemma sortByKey_perm (rows : List WaySpillRow) : (sortByKey rows).Perm rows :=
  List.perm_insertionSort _ _

lemma sortByKey_sorted (rows : List WaySpillRow) :
    (sortByKey rows).Pairwise fun a b => wayKey a ≤ wayKey b := by
  have htotal : Std.Total fun a b : WaySpillRow => wayKey a ≤ wayKey b := ⟨fun _ _ => le_total _ _⟩
  have htrans : IsTrans WaySpillRow fun a b => wayKey a ≤ wayKey b := ⟨fun _ _ _ => le_trans⟩
  exact List.pairwise_insertionSort _ _

lemma readFrames_eq_nil (h : readFrames file = some []) : readFrame file = some none := by
  rcases hf : readFrame file with _ | _ | ⟨p, rest⟩
  · rw [readFrames_of_none hf] at h
    cases h
  · rfl
  · rw [readFrames_of_frame hf] at h
    simp at h

lemma readFrames_eq_cons {p : Bytes} {ps : List Bytes} (h : readFrames file = some (p :: ps)) :
    ∃ rest, readFrame file = some (some (p, rest)) ∧ readFrames rest = some ps := by
  rcases hf : readFrame file with _ | _ | ⟨q, rest⟩
  · rw [readFrames_of_none hf] at h
    cases h
  · rw [readFrames_of_end hf] at h
    cases h
  · rw [readFrames_of_frame hf, Option.map_eq_some_iff] at h
    obtain ⟨qs, hqs, he⟩ := h
    cases he
    exact ⟨rest, rfl, hqs⟩

/-- **The runs are the chunks of the file**, wherever it is cut. -/
lemma spillLoop_chunks {payloads : List Bytes} (hfile : readFrames file = some payloads)
    (hdec : payloads.mapM WaySpillRow.decode = some rows) :
    ∃ chunks : List (List WaySpillRow), chunks.flatten = buf ++ rows ∧
      spillLoop chunkBytes file buf bufBytes runs = some (runs ++ chunks.map writeSortedRun) := by
  induction payloads generalizing file rows buf bufBytes runs with
  | nil =>
    cases hdec
    have hend := readFrames_eq_nil hfile
    refine ⟨if buf.isEmpty then [] else [buf], ?_, ?_⟩
    · cases buf <;> simp
    · rw [spillLoop]
      split <;> simp_all
      cases buf <;> simp
  | cons p ps ih =>
    obtain ⟨rest, hframe, hrest⟩ := readFrames_eq_cons hfile
    rw [List.mapM_cons] at hdec
    obtain ⟨row, hrow, hdec⟩ := Option.bind_eq_some_iff.mp hdec
    obtain ⟨rows', hrows, he⟩ := Option.bind_eq_some_iff.mp hdec
    cases he
    have hloop : spillLoop chunkBytes file buf bufBytes runs =
        if bufBytes + UInt64.ofNat p.length ≥ chunkBytes then
          spillLoop chunkBytes rest [] 0 (runs ++ [writeSortedRun (buf ++ [row])])
        else spillLoop chunkBytes rest (buf ++ [row]) (bufBytes + UInt64.ofNat p.length) runs := by
      rw [spillLoop]
      split <;> simp_all
    rw [hloop]
    split_ifs
    · obtain ⟨chunks, hflat, hspill⟩ := @ih rest rows' []
        (runs ++ [writeSortedRun (buf ++ [row])]) 0 hrest hrows
      exact ⟨(buf ++ [row]) :: chunks, by simp [hflat], by simp [hspill]⟩
    · obtain ⟨chunks, hflat, hspill⟩ := @ih rest rows' (buf ++ [row]) runs
        (bufBytes + UInt64.ofNat p.length) hrest hrows
      exact ⟨chunks, by simp [hflat], hspill⟩

/-- A run file gives back its rows. -/
lemma produces_run (h : ∀ r ∈ rows, r.NoSentinel ∧ r.encode.length < 2 ^ 32) :
    Produces readOneRecord (rows.flatMap fun r => frame r.encode) rows := by
  induction rows with
  | nil => exact Produces.done rfl
  | cons r rows ih =>
    obtain ⟨hs, hlen⟩ := h r List.mem_cons_self
    refine Produces.step ?_ (ih fun x hx => h x (List.mem_cons_of_mem _ hx))
    rw [List.flatMap_cons, readOneRecord, readFrame_frame hlen]
    simp only [decode_way hs hlen, Option.map_some]

/-- The rows of a run, which are rows of the file in the order of their keys. -/
lemma produces_sortedRun (h : ∀ r ∈ rows, r.NoSentinel ∧ r.encode.length < 2 ^ 32) :
    Produces readOneRecord (writeSortedRun rows) (sortByKey rows) :=
  produces_run fun r hr => h r ((sortByKey_perm rows).mem_iff.mp hr)

/-! ### The files that the builder writes -/

lemma mapM_decode (h : ∀ r ∈ rows, r.NoSentinel ∧ r.encode.length < 2 ^ 32) :
    (rows.map WaySpillRow.encode).mapM WaySpillRow.decode = some rows := by
  induction rows with
  | nil => rfl
  | cons r rows ih =>
    obtain ⟨hs, hlen⟩ := h r List.mem_cons_self
    rw [List.map_cons, List.mapM_cons, decode_way hs hlen,
      ih fun x hx => h x (List.mem_cons_of_mem _ hx)]
    rfl

/-- Rows appended to a spill file make a spill file. -/
theorem isSpillFile_of_rows (h : ∀ r ∈ rows, r.NoSentinel ∧ r.encode.length < 2 ^ 32) :
    IsSpillFile ((rows.map WaySpillRow.encode).flatMap frame) rows := by
  refine ⟨⟨rows.map WaySpillRow.encode, readFrames_frames fun p hp => ?_, mapM_decode h⟩,
    fun r hr => (h r hr).2⟩
  obtain ⟨r, hr, rfl⟩ := List.mem_map.mp hp
  exact (h r hr).2

lemma IsSpillFile.noSentinel (h : IsSpillFile file rows) : ∀ r ∈ rows, r.NoSentinel := by
  obtain ⟨payloads, -, hdec⟩ := h.decodes
  clear h
  induction payloads generalizing rows with
  | nil =>
    cases hdec
    exact fun r hr => (List.not_mem_nil hr).elim
  | cons p ps ih =>
    rw [List.mapM_cons] at hdec
    obtain ⟨row, hrow, hdec⟩ := Option.bind_eq_some_iff.mp hdec
    obtain ⟨rows', hrows, he⟩ := Option.bind_eq_some_iff.mp hdec
    cases he
    intro r hr
    rcases List.mem_cons.mp hr with rfl | hr
    · exact noSentinel_of_decode hrow
    · exact ih hrows r hr

/-! ### The merge is the sort -/

/-- Rows without a tie have one order. -/
lemma eq_sortByKey {out : List WaySpillRow} (hkeys : (rows.map wayKey).Nodup)
    (hperm : out.Perm rows) (hsorted : out.Pairwise fun a b => wayKey a ≤ wayKey b) :
    out = sortByKey rows := by
  refine List.Perm.eq_of_pairwise (fun a b ha hb hab hba => ?_) hsorted (sortByKey_sorted rows)
    (hperm.trans (sortByKey_perm rows).symm)
  exact List.inj_on_of_nodup_map hkeys (hperm.mem_iff.mp ha) ((sortByKey_perm rows).mem_iff.mp hb)
    (le_antisymm hab hba)

/-- **The external sort is the sort in memory**, for every size of the chunks. -/
theorem wayRunMerge_eq_sort (hfile : IsSpillFile file rows) (hkeys : (rows.map wayKey).Nodup)
    (chunkBytes : UInt64) :
    ∃ sorted runs m, decodeAndSortInMemory file = some sorted ∧ sorted.Perm rows ∧
      spillToSortedRuns file chunkBytes = some runs ∧ WayRunMerge.new runs = some m ∧
      ∀ fuel, rows.length < fuel → m.collect fuel = some sorted := by
  obtain ⟨payloads, hread, hdec⟩ := hfile.decodes
  have hrows : ∀ r ∈ rows, r.NoSentinel ∧ r.encode.length < 2 ^ 32 := fun r hr =>
    ⟨hfile.noSentinel r hr, hfile.fits r hr⟩
  obtain ⟨chunks, hflat, hspill⟩ : ∃ chunks : List (List WaySpillRow), chunks.flatten = [] ++ rows ∧
    spillToSortedRuns file chunkBytes = some ([] ++ chunks.map writeSortedRun) :=
    spillLoop_chunks hread hdec
  rw [List.nil_append] at hflat hspill
  -- every run gives the rows of its chunk in their order
  have hproduces : List.Forall₂ (Produces readOneRecord) (chunks.map writeSortedRun)
      (chunks.map sortByKey) := by
    rw [List.forall₂_map_left_iff, List.forall₂_map_right_iff, List.forall₂_same]
    intro chunk hchunk
    refine produces_sortedRun fun r hr => hrows r ?_
    rw [← hflat]
    exact List.mem_flatten.mpr ⟨chunk, hchunk, hr⟩
  have hsorted : ∀ l ∈ chunks.map sortByKey, l.Pairwise fun a b => wayKey a ≤ wayKey b := by
    intro l hl
    obtain ⟨chunk, -, rfl⟩ := List.mem_map.mp hl
    exact sortByKey_sorted chunk
  have hperm : (chunks.map sortByKey).flatten.Perm rows := by
    rw [← hflat]
    exact List.Perm.flatten_congr (by
      rw [List.forall₂_map_left_iff, List.forall₂_same]
      exact fun chunk _ => sortByKey_perm chunk)
  obtain ⟨m, hstart, hcollect⟩ := collect_start hproduces hsorted
  refine ⟨sortByKey rows, chunks.map writeSortedRun, m, ?_, sortByKey_perm rows, hspill, hstart,
    fun fuel hfuel => ?_⟩
  · rw [decodeAndSortInMemory, hread]
    change (payloads.mapM WaySpillRow.decode >>= fun rows => pure (sortByKey rows)) = _
    rw [hdec]
    rfl
  · obtain ⟨out, hout, hp, hs⟩ := hcollect fuel (hperm.length_eq ▸ hfuel)
    rw [WayRunMerge.collect, hout, eq_sortByKey hkeys (hp.trans hperm) hs]

end

/-- A way of two nodes. -/
def plainWay (id : Int64) (hilbert : UInt64) : WaySpillRow :=
  ⟨id, [1, 2], [("highway", "path")], ⟨some 1, none, none, none, none⟩, none, none,
    none, none, none, false, false, none, none, hilbert⟩

/-- Three ways in three runs, as every record is over the budget of its chunk. -/
theorem wayRunMerge_of_three : ∃ sorted runs m,
    decodeAndSortInMemory
      (([plainWay 5 9, plainWay 7 2, plainWay 6 2].map WaySpillRow.encode).flatMap frame) =
      some sorted ∧ sorted.Perm [plainWay 5 9, plainWay 7 2, plainWay 6 2] ∧
      spillToSortedRuns
        (([plainWay 5 9, plainWay 7 2, plainWay 6 2].map WaySpillRow.encode).flatMap frame)
        16 = some runs ∧ WayRunMerge.new runs = some m ∧
      ∀ fuel, 3 < fuel → m.collect fuel = some sorted := by
  refine wayRunMerge_eq_sort (isSpillFile_of_rows ?_) (by decide) 16
  simp only [List.forall_mem_cons]
  exact ⟨⟨by decide, by decide⟩, ⟨by decide, by decide⟩, ⟨by decide, by decide⟩,
    fun _ h => (List.not_mem_nil h).elim⟩

end OsmParquet.WayRuns
