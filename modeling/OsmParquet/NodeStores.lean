import Mathlib.Algebra.Order.Ring.Int
import Mathlib.Data.List.Basic
import Mathlib.Data.List.Pairwise
import OsmParquet.MappedFile

/-!
The three stores of node coordinates.

The second pass puts every node with its coordinates in the order of ids; later passes look them up.
One store is a list in memory and one a file of records, both searched by halving. The third is a
sparse file with a place for every id up to the greatest, where zeros stand for an absent
node. Offsets are computed in 64 bits and wrap around.
-/

namespace OsmParquet.NodeStores

open OsmParquet.ByteCodec OsmParquet.MappedFile

abbrev Coords := Int32 × Int32

/-- A node: its id, latitude and longitude. -/
abbrev Entry := Int64 × Coords

def sortedFileRecordBytes : ℕ := 16

inductive NodeStoreBuilder
  | sortedMem (v : List Entry)
  | denseFile (mmap : Mmap) (maxId : Int64)
  | sortedFile (mmap : Mmap) (written capacity : ℕ)

inductive NodeStore
  | sortedMem (v : List Entry)
  | denseFile (mmap : Mmap)
  | sortedFile (mmap : Mmap) (len : ℕ)

/-! ### Numbers in mapped files -/

def leI32 (bs : Bytes) : Int32 := (UInt32.ofNat (leValue bs)).toInt32
def leI64 (bs : Bytes) : Int64 := (UInt64.ofNat (leValue bs)).toInt64

def writeCoords (m : Mmap) (off : ℕ) (c : Coords) : Option Mmap := do
  let m ← m.write off (putI32 c.1)
  m.write (off + 4) (putI32 c.2)

def readCoords (m : Mmap) (off : ℕ) : Option Coords := do
  let lat ← m.read off 4
  let lon ← m.read (off + 4) 4
  pure (leI32 lat, leI32 lon)

/-! ### Building a store -/

def NodeStoreBuilder.newSortedMem : NodeStoreBuilder := .sortedMem []

def NodeStoreBuilder.newDenseFile (maxId : Int64) : NodeStoreBuilder :=
  let len := ((max maxId.toInt 0).toNat + 1) * 8 % 2 ^ 64
  .denseFile (Mmap.zeros len) maxId

/-- The file is sized to the number of records; an empty file cannot be mapped. -/
def NodeStoreBuilder.newSortedFile (nodeCount : ℕ) : NodeStoreBuilder :=
  let len := nodeCount * sortedFileRecordBytes % 2 ^ 64
  .sortedFile (Mmap.zeros (max len 1)) 0 nodeCount

/-- `none` where indexing panics. -/
def NodeStoreBuilder.put (b : NodeStoreBuilder) (e : Entry) : Option NodeStoreBuilder :=
  match b with
  | .sortedMem v => some (.sortedMem (v ++ [e]))
  | .denseFile m maxId =>
    if e.1.toInt < 0 ∨ e.1.toInt > maxId.toInt then some (.denseFile m maxId)
    else do
      let off := e.1.toUInt64.toNat * 8 % 2 ^ 64
      let m ← writeCoords m off e.2
      pure (.denseFile m maxId)
  | .sortedFile m written capacity =>
    if written ≥ capacity then some (.sortedFile m written capacity)
    else do
      let off := written * sortedFileRecordBytes % 2 ^ 64
      let m ← m.write off (putI64 e.1)
      let m ← writeCoords m (off + 8) e.2
      pure (.sortedFile m (written + 1) capacity)

def NodeStoreBuilder.finish : NodeStoreBuilder → NodeStore
  | .sortedMem v => .sortedMem v
  | .denseFile m _ => .denseFile m
  | .sortedFile m written _ =>
    let actualLen := written * sortedFileRecordBytes % 2 ^ 64
    .sortedFile (m.truncate (max actualLen 1)) actualLen

/-! ### Looking up a node -/

/-- `none` where indexing panics, else the coordinates if there are any. -/
def NodeStore.get (s : NodeStore) (id : Int64) : Option (Option Coords) :=
  match s with
  | .sortedMem v => do
    let found ← searchLoop (fun i => v[i]?.map fun e => e.1.toInt) id.toInt 0 v.length
    match found with
    | none => pure none
    | some i => (v[i]?.map Prod.snd).map some
  | .denseFile m =>
    if id.toInt < 0 then some none
    else
      let off := id.toUInt64.toNat * 8 % 2 ^ 64
      if (off + 8) % 2 ^ 64 > m.len then some none
      else (readCoords m off).map fun c => if c.1 = 0 ∧ c.2 = 0 then none else some c
  | .sortedFile m len => do
    let n := len / sortedFileRecordBytes
    let found ← searchLoop (fun i => (m.read (i * sortedFileRecordBytes) 8).map fun bs =>
      (leI64 bs).toInt) id.toInt 0 n
    match found with
    | none => pure none
    | some i => (readCoords m (i * sortedFileRecordBytes + 8)).map some

/-- The greatest id as the first pass computes it. -/
def maxIdOf (rows : List Entry) : Int64 :=
  rows.foldl (fun m e => if m.toInt < e.1.toInt then e.1 else m) 0

def build (b : NodeStoreBuilder) (rows : List Entry) : Option NodeStore :=
  (rows.foldlM NodeStoreBuilder.put b).map NodeStoreBuilder.finish

/-! ### What the stores are for -/

/-- The coordinates that were put for an id. -/
def lookup (rows : List Entry) (id : Int64) : Option Coords :=
  (rows.find? fun e => e.1 = id).map Prod.snd

/-- Coordinates as the dense file shows them: zeros are an absent node. -/
def shown (c : Coords) : Option Coords := if c.1 = 0 ∧ c.2 = 0 then none else some c

/-- What the dense file should show for an id. -/
def denseLookup (rows : List Entry) (id : Int64) : Option Coords := (lookup rows id).bind shown

/-- A store that gives these coordinates for every probe below `2 ^ 60`. -/
def Answers (s : Option NodeStore) (f : Int64 → Option Coords) : Prop :=
  ∃ store, s = some store ∧ ∀ id : Int64, id.toInt < 2 ^ 60 → store.get id = some (f id)

/-- The stores made from the same nodes agree. -/
structure StoresAgree (rows : List Entry) : Prop where
  sortedMem : Answers (build .newSortedMem rows) (lookup rows)
  sortedFile : Answers (build (.newSortedFile rows.length) rows) (lookup rows)
  denseFile : Answers (build (.newDenseFile (maxIdOf rows)) rows) (denseLookup rows)

/-- Strictly ascending ids, none negative. -/
structure Ascending (rows : List Entry) : Prop where
  ids : rows.Pairwise fun a b => a.1.toInt < b.1.toInt
  nonneg : ∀ e ∈ rows, 0 ≤ e.1.toInt

/-! ### Numbers read back -/

lemma leI32_putI32 (v : Int32) : leI32 (putI32 v) = v := by
  have hval : leValue (putI32 v) = v.toUInt32.toNat := leValue_leBytes v.toUInt32.toNat_lt
  rw [leI32, hval, UInt32.ofNat_toNat, Int32.toInt32_toUInt32]

lemma leI64_putI64 (v : Int64) : leI64 (putI64 v) = v := by
  have hval : leValue (putI64 v) = v.toUInt64.toNat := leValue_leBytes v.toUInt64.toNat_lt
  rw [leI64, hval, UInt64.ofNat_toNat, Int64.toInt64_toUInt64]

lemma length_putI32 (v : Int32) : (putI32 v).length = 4 := length_leBytes 4 _

lemma length_putI64 (v : Int64) : (putI64 v).length = 8 := length_leBytes 8 _

section Coords

variable {m : Mmap} {off : ℕ} {c : Coords}

lemma readCoords_of_reads {lat lon : Int32} (h₁ : m.read off 4 = some (putI32 lat))
    (h₂ : m.read (off + 4) 4 = some (putI32 lon)) : readCoords m off = some (lat, lon) := by
  unfold readCoords
  rw [h₁, h₂]
  simp only [Option.bind_eq_bind, Option.bind_some, leI32_putI32]
  rfl

/-- Coordinates are written where there is room, and nothing else is changed. -/
lemma writeCoords_some (h : off + 8 ≤ m.len) (c : Coords) : ∃ m', writeCoords m off c = some m' ∧
    m'.len = m.len ∧ readCoords m' off = some c ∧
      ∀ o n, o + n ≤ off ∨ off + 8 ≤ o → m'.read o n = m.read o n := by
  obtain ⟨m₁, hw₁, hl₁⟩ := @exists_write m off (putI32 c.1) (by rw [length_putI32]; omega)
  obtain ⟨m₂, hw₂, hl₂⟩ := @exists_write m₁ (off + 4) (putI32 c.2)
    (by rw [length_putI32]; omega)
  refine ⟨m₂, by rw [writeCoords, hw₁]; exact hw₂, hl₂.trans hl₁, ?_, fun o n hapart => ?_⟩
  · have h₁ := read_write_same hw₁
    have h₂ := read_write_same hw₂
    rw [length_putI32] at h₁ h₂
    refine readCoords_of_reads ?_ h₂
    rw [read_write_other hw₂ (Or.inl le_rfl), h₁]
  · rw [read_write_other hw₂ (by rw [length_putI32]; omega),
      read_write_other hw₁ (by rw [length_putI32]; omega)]

lemma writeCoords_none (h : m.len < off + 8) (c : Coords) : writeCoords m off c = none := by
  unfold writeCoords
  rcases hw : m.write off (putI32 c.1) with _ | m₁
  · rfl
  · refine write_eq_none ?_
    rw [length_of_write hw, length_putI32]
    omega

lemma readCoords_congr {m' : Mmap} (h : ∀ o n, off ≤ o → o + n ≤ off + 8 →
    m'.read o n = m.read o n) : readCoords m' off = readCoords m off := by
  unfold readCoords
  rw [h off 4 le_rfl (by omega), h (off + 4) 4 (by omega) (by omega)]

end Coords

/-! ### Search over ascending ids -/

section Search

variable {rows : List Entry} {id : Int64}

/-- The id at a place. -/
def idAt (rows : List Entry) (i : ℕ) : ℤ := (rows.getD i (0, 0, 0)).1.toInt

lemma idAt_eq {i : ℕ} (h : i < rows.length) : idAt rows i = rows[i].1.toInt := by
  simp [idAt, h]

lemma idAt_lt (h : Ascending rows) : ∀ j l, j < l → l < rows.length →
    idAt rows j < idAt rows l := by
  intro j l hjl hl
  rw [idAt_eq (hjl.trans hl), idAt_eq hl]
  exact List.pairwise_iff_getElem.mp h.ids j l (hjl.trans hl) hl hjl

lemma lookup_getElem (h : Ascending rows) {i : ℕ} (hi : i < rows.length) :
    lookup rows rows[i].1 = some rows[i].2 := by
  have hfind : rows.find? (fun e => e.1 = rows[i].1) = some rows[i] := by
    rw [List.find?_eq_some_iff_getElem]
    refine ⟨by simp, i, hi, rfl, fun j hj => ?_⟩
    have hlt := List.pairwise_iff_getElem.mp h.ids j i (hj.trans hi) hi hj
    simp only [Bool.not_eq_true', decide_eq_false_iff_not]
    intro he
    rw [he] at hlt
    exact lt_irrefl _ hlt
  rw [lookup, hfind]
  rfl

lemma lookup_eq_none (h : ∀ e ∈ rows, e.1 ≠ id) : lookup rows id = none := by
  rw [lookup, List.find?_eq_none.mpr (by simpa using h)]
  rfl

lemma lookup_of_mem (h : Ascending rows) {e : Entry} (he : e ∈ rows) :
    lookup rows e.1 = some e.2 := by
  obtain ⟨i, hi, rfl⟩ := List.mem_iff_getElem.mp he
  exact lookup_getElem h hi

/-- **Search in records with these ids gives what was put for an id**, if coordinates can be read
there. -/
lemma search_eq_lookup (h : Ascending rows) {record : ℕ → Option ℤ} {coords : ℕ → Option Coords}
    (hrec : ∀ j < rows.length, record j = some (idAt rows j))
    (hcoords : ∀ j (hj : j < rows.length), coords j = some rows[j].2) (id : Int64) :
    (searchLoop record id.toInt 0 rows.length).bind
      (fun found => match found with | none => some none | some i => (coords i).map some) =
      some (lookup rows id) := by
  by_cases hex : ∃ i, ∃ hi : i < rows.length, rows[i].1 = id
  · obtain ⟨i, hi, rfl⟩ := hex
    have hfound := searchLoop_found hrec (idAt_lt h) hi (Nat.zero_le i) hi le_rfl
    rw [idAt_eq hi] at hfound
    rw [hfound, Option.bind_some, lookup_getElem h hi]
    simp only [hcoords i hi, Option.map_some]
  · have habsent : ∀ j < rows.length, idAt rows j ≠ id.toInt := by
      intro j hj he
      rw [idAt_eq hj] at he
      exact hex ⟨j, hj, Int64.toInt_inj.mp he⟩
    rw [searchLoop_absent hrec habsent le_rfl, Option.bind_some, lookup_eq_none]
    intro e he heq
    obtain ⟨i, hi, rfl⟩ := List.mem_iff_getElem.mp he
    exact hex ⟨i, hi, heq⟩

end Search

/-! ### The sorted stores -/

section Sorted

variable {rows : List Entry}

lemma build_sortedMem (rows : List Entry) : build .newSortedMem rows = some (.sortedMem rows) := by
  have hrun : ∀ v, rows.foldlM NodeStoreBuilder.put (.sortedMem v) =
      some (.sortedMem (v ++ rows)) := by
    induction rows with
    | nil => simp
    | cons e rows ih =>
      intro v
      rw [List.foldlM_cons]
      change rows.foldlM NodeStoreBuilder.put (.sortedMem (v ++ [e])) = _
      rw [ih, List.append_assoc, List.singleton_append]
  rw [build, NodeStoreBuilder.newSortedMem, hrun]
  rfl

lemma answers_sortedMem (h : Ascending rows) : Answers (build .newSortedMem rows) (lookup rows) :=
  ⟨.sortedMem rows, build_sortedMem rows, fun id _ => search_eq_lookup h
    (fun j hj => by simp [idAt, hj]) (fun j hj => by simp [hj]) id⟩

/-- The records of a file: id and coordinates at their places. -/
structure Holds (m : Mmap) (rows : List Entry) : Prop where
  id : ∀ i (hi : i < rows.length), m.read (i * 16) 8 = some (putI64 rows[i].1)
  coords : ∀ i (hi : i < rows.length), readCoords m (i * 16 + 8) = some rows[i].2

/-- One record more, where there is room. -/
lemma step_put_sortedFile {m : Mmap} {capacity : ℕ} (h : Holds m rows)
    (hcap : rows.length < capacity) (hroom : (rows.length + 1) * 16 ≤ m.len)
    (hlen : m.len < 2 ^ 64) (e : Entry) :
    ∃ m', NodeStoreBuilder.put (.sortedFile m rows.length capacity) e =
      some (.sortedFile m' (rows.length + 1) capacity) ∧ m'.len = m.len ∧
        Holds m' (rows ++ [e]) := by
  have hoff : rows.length * 16 % 2 ^ 64 = rows.length * 16 := Nat.mod_eq_of_lt (by omega)
  obtain ⟨m₁, hw₁, hl₁⟩ := @exists_write m (rows.length * 16) (putI64 e.1)
    (by rw [length_putI64]; omega)
  obtain ⟨m₂, hw₂, hl₂, hread, hother⟩ := @writeCoords_some m₁ (rows.length * 16 + 8) (by omega) e.2
  have hearlier : ∀ o n, o + n ≤ rows.length * 16 → m₂.read o n = m.read o n := by
    intro o n ho
    rw [hother o n (Or.inl (by omega)), read_write_other hw₁ (Or.inl ho)]
  refine ⟨m₂, ?_, hl₂.trans hl₁, ⟨fun i hi => ?_, fun i hi => ?_⟩⟩
  · simp only [NodeStoreBuilder.put, if_neg (not_le.mpr hcap), sortedFileRecordBytes, hoff, hw₁,
      Option.bind_eq_bind, Option.bind_some, hw₂]
    rfl
  · rcases Nat.lt_or_ge i rows.length with hlt | hge
    · rw [hearlier _ _ (by omega), h.id i hlt, List.getElem_append_left hlt]
    · obtain rfl : i = rows.length := by simp at hi; omega
      have hid := read_write_same hw₁
      rw [length_putI64] at hid
      rw [hother _ _ (Or.inl le_rfl), hid, List.getElem_concat_length rfl]
  · rcases Nat.lt_or_ge i rows.length with hlt | hge
    · rw [readCoords_congr fun o n _ ho => hearlier o n (by omega), h.coords i hlt,
        List.getElem_append_left hlt]
    · obtain rfl : i = rows.length := by simp at hi; omega
      rw [hread, List.getElem_concat_length rfl]

/-- Records that find room are written one after another. -/
lemma run_put_sortedFile {m : Mmap} {capacity : ℕ} (h : Holds m rows) {more : List Entry}
    (hcap : (rows ++ more).length ≤ capacity) (hroom : (rows ++ more).length * 16 ≤ m.len)
    (hlen : m.len < 2 ^ 64) :
    ∃ m', more.foldlM NodeStoreBuilder.put (.sortedFile m rows.length capacity) =
      some (.sortedFile m' (rows ++ more).length capacity) ∧ m'.len = m.len ∧
        Holds m' (rows ++ more) := by
  induction more generalizing m rows with
  | nil => exact ⟨m, by simp, rfl, by simpa using h⟩
  | cons e more ih =>
    rw [List.length_append, List.length_cons] at hcap hroom
    have hcap' : rows.length < capacity := by omega
    obtain ⟨m₁, hput, hl₁, h₁⟩ := step_put_sortedFile h hcap' (by omega) hlen e
    have happend : rows ++ e :: more = rows ++ [e] ++ more := by simp
    obtain ⟨m₂, hrun, hl₂, h₂⟩ := @ih (rows ++ [e]) m₁ h₁ (by simp; omega)
      (by simp; omega) (by omega)
    refine ⟨m₂, ?_, hl₂.trans hl₁, happend ▸ h₂⟩
    rw [List.foldlM_cons, hput, happend, ← hrun, List.length_append, List.length_singleton]
    rfl

lemma holds_nil (m : Mmap) : Holds m [] :=
  ⟨fun i hi => absurd hi (Nat.not_lt_zero i), fun i hi => absurd hi (Nat.not_lt_zero i)⟩

lemma answers_sortedFile (h : Ascending rows) (hcount : rows.length < 2 ^ 60) :
    Answers (build (.newSortedFile rows.length) rows) (lookup rows) := by
  have hbytes : rows.length * 16 % 2 ^ 64 = rows.length * 16 := Nat.mod_eq_of_lt (by omega)
  have hm : (Mmap.zeros (max (rows.length * 16) 1)).len = max (rows.length * 16) 1 := rfl
  obtain ⟨m, hrun, hlen, hholds⟩ := @run_put_sortedFile [] (Mmap.zeros (max (rows.length * 16) 1))
    rows.length (holds_nil _) rows (by simp) (by rw [hm, List.nil_append]; omega) (by omega)
  rw [List.nil_append] at hrun hholds
  rw [List.length_nil] at hrun
  have hcut : ∀ o n, o + n ≤ rows.length * 16 →
      (m.truncate (max (rows.length * 16) 1)).read o n = m.read o n := fun o n ho =>
    read_truncate (by omega) (by omega)
  refine ⟨.sortedFile (m.truncate (max (rows.length * 16) 1)) (rows.length * 16), ?_,
    fun id _ => ?_⟩
  · rw [build, NodeStoreBuilder.newSortedFile, sortedFileRecordBytes, hbytes, hrun, Option.map_some,
      NodeStoreBuilder.finish, sortedFileRecordBytes, hbytes]
  · have hn : rows.length * 16 / 16 = rows.length := Nat.mul_div_cancel _ (by omega)
    simp only [NodeStore.get, sortedFileRecordBytes, hn]
    refine search_eq_lookup h (fun j hj => ?_) (fun j hj => ?_) id
    · rw [hcut _ _ (by omega), hholds.id j hj, Option.map_some, leI64_putI64, idAt_eq hj]
    · rw [readCoords_congr fun o n _ ho => hcut o n (by omega), hholds.coords j hj]

lemma foldlM_eq_none {σ α : Type} {f : σ → α → Option σ} {l : List α} {a : α} {s s' : σ}
    (rest : List α) (h : l.foldlM f s = some s') (ha : f s' a = none) :
    (l ++ a :: rest).foldlM f s = none := by
  rw [List.foldlM_append, h]
  change (a :: rest).foldlM f s' = none
  rw [List.foldlM_cons, ha]
  rfl

/-- From `2 ^ 60` records on the size of the file wraps around, and a record lies behind its end. -/
lemma build_sortedFile_none (hcount : 2 ^ 60 ≤ rows.length) (hlt : rows.length < 2 ^ 64) :
    build (.newSortedFile rows.length) rows = none := by
  set k := rows.length % 2 ^ 60 with hk
  have hklt : k < rows.length := by omega
  have hbytes : rows.length * 16 % 2 ^ 64 = k * 16 := by omega
  have hsplit : rows = rows.take k ++ rows[k] :: rows.drop (k + 1) := by
    rw [← List.drop_eq_getElem_cons hklt, List.take_append_drop]
  have hm : (Mmap.zeros (max (k * 16) 1)).len = max (k * 16) 1 := rfl
  have htake : (rows.take k).length = k := by rw [List.length_take]; omega
  obtain ⟨m, hrun, hlen, -⟩ := @run_put_sortedFile [] (Mmap.zeros (max (k * 16) 1)) rows.length
    (holds_nil _) (rows.take k) (by simp) (by rw [hm, List.nil_append, htake]; omega) (by omega)
  rw [List.nil_append, htake, List.length_nil] at hrun
  have hput : NodeStoreBuilder.put (.sortedFile m k rows.length) rows[k] = none := by
    have hoff : k * 16 % 2 ^ 64 = k * 16 := Nat.mod_eq_of_lt (by omega)
    have hfull : m.write (k * 16) (putI64 rows[k].1) = none :=
      write_eq_none (by rw [hlen, hm, length_putI64]; omega)
    simp only [NodeStoreBuilder.put, if_neg (not_le.mpr hklt), sortedFileRecordBytes, hoff, hfull,
      Option.bind_eq_bind, Option.bind_none]
  have hall : rows.foldlM NodeStoreBuilder.put
      (.sortedFile (Mmap.zeros (max (k * 16) 1)) 0 rows.length) =
      none := by
    have hnone := foldlM_eq_none (rows.drop (k + 1)) hrun hput
    rwa [← hsplit] at hnone
  rw [build, NodeStoreBuilder.newSortedFile, sortedFileRecordBytes, hbytes, hall]
  rfl

end Sorted

/-! ### The dense store -/

/-- The place of a node in the dense file: offsets wrap around after `2 ^ 61` places. -/
def slot (id : Int64) : ℕ := id.toInt.toNat % 2 ^ 61

/-- The number of places the file has. -/
def slotCount (rows : List Entry) : ℕ := ((maxIdOf rows).toInt.toNat + 1) % 2 ^ 61

/-- What is at a place after the nodes are put: the last one that belongs there. -/
def slotAt (rows : List Entry) (k : ℕ) : Coords :=
  (((rows.filter fun e => slot e.1 = k).getLast?).map Prod.snd).getD (0, 0)

/-- Every node has its place within the file, and where an id from `2 ^ 61` on is the last one at
its place, the place shows what the node with the number of the place shows. -/
def DenseSafe (rows : List Entry) : Prop :=
  (∀ e ∈ rows, slot e.1 < slotCount rows) ∧
  ∀ e ∈ rows, 2 ^ 61 ≤ e.1.toInt → slot e.1 < 2 ^ 60 →
    (∀ e' ∈ rows, slot e'.1 = slot e.1 → e'.1.toInt ≤ e.1.toInt) →
    shown e.2 = denseLookup rows (Int64.ofNat (slot e.1))

section Dense

variable {rows : List Entry}

lemma toNat_toUInt64 {id : Int64} (h : 0 ≤ id.toInt) : id.toUInt64.toNat = id.toInt.toNat := by
  have hcond := BitVec.toInt_eq_toNat_cond id.toBitVec
  have hlt := id.toBitVec.isLt
  change id.toBitVec.toNat = _
  change 0 ≤ id.toBitVec.toInt at h
  change _ = id.toBitVec.toInt.toNat
  rw [hcond] at h ⊢
  split_ifs at h ⊢ <;> omega

lemma maxIdOf_spec (rows : List Entry) :
    0 ≤ (maxIdOf rows).toInt ∧ ∀ e ∈ rows, e.1.toInt ≤ (maxIdOf rows).toInt := by
  have hrun : ∀ (l : List Entry) (m : Int64),
      m.toInt ≤ (l.foldl (fun m e => if m.toInt < e.1.toInt then e.1 else m) m).toInt ∧
        ∀ e ∈ l, e.1.toInt ≤
          (l.foldl (fun m e => if m.toInt < e.1.toInt then e.1 else m) m).toInt := by
    intro l
    induction l with
    | nil => exact fun m => ⟨le_rfl, fun e he => (List.not_mem_nil he).elim⟩
    | cons a l ih =>
      intro m
      rw [List.foldl_cons]
      obtain ⟨hm, hl⟩ := ih (if m.toInt < a.1.toInt then a.1 else m)
      split_ifs at hm hl ⊢ with hlt
      · refine ⟨hlt.le.trans hm, fun e he => ?_⟩
        rcases List.mem_cons.mp he with rfl | he
        · exact hm
        · exact hl e he
      · refine ⟨hm, fun e he => ?_⟩
        rcases List.mem_cons.mp he with rfl | he
        · exact (not_lt.mp hlt).trans hm
        · exact hl e he
  exact hrun rows 0

lemma slotAt_snoc (rows : List Entry) (e : Entry) (k : ℕ) :
    slotAt (rows ++ [e]) k = if slot e.1 = k then e.2 else slotAt rows k := by
  unfold slotAt
  by_cases h : slot e.1 = k <;> simp [List.filter_append, h]

/-- A node is put at its place if the file has it; else the builder fails. -/
lemma step_put_dense {m : Mmap} {count : ℕ} {maxId : Int64} {e : Entry} (hm : m.len = count * 8)
    (hpos : 0 ≤ e.1.toInt) (hmax : e.1.toInt ≤ maxId.toInt) :
    (count ≤ slot e.1 ∧ NodeStoreBuilder.put (.denseFile m maxId) e = none) ∨
      (slot e.1 < count ∧ ∃ m', NodeStoreBuilder.put (.denseFile m maxId) e =
        some (.denseFile m' maxId) ∧ m'.len = m.len ∧ ∀ k, readCoords m' (k * 8) =
          if slot e.1 = k then some e.2 else readCoords m (k * 8)) := by
  have hoff : e.1.toUInt64.toNat * 8 % 2 ^ 64 = slot e.1 * 8 := by
    rw [toNat_toUInt64 hpos, slot]
    omega
  have hin : ¬(e.1.toInt < 0 ∨ e.1.toInt > maxId.toInt) := by omega
  rcases Nat.lt_or_ge (slot e.1) count with hlt | hge
  · right
    obtain ⟨m', hw, hl, hread, hother⟩ := @writeCoords_some m (slot e.1 * 8) (by omega) e.2
    refine ⟨hlt, m', ?_, hl, fun k => ?_⟩
    · simp only [NodeStoreBuilder.put, if_neg hin, hoff, hw, Option.bind_eq_bind, Option.bind_some]
      rfl
    · split_ifs with hk
      · rw [← hk, hread]
      · exact readCoords_congr fun o n ho hn => hother o n (by omega)
  · left
    refine ⟨hge, ?_⟩
    simp only [NodeStoreBuilder.put, if_neg hin, hoff,
      writeCoords_none (show m.len < slot e.1 * 8 + 8 by omega), Option.bind_eq_bind,
        Option.bind_none]

/-- All nodes are put, or one of them has no place. -/
lemma run_put_dense {m : Mmap} {count : ℕ} {maxId : Int64} {done : List Entry}
    (hm : m.len = count * 8) (hshow : ∀ k < count, readCoords m (k * 8) = some (slotAt done k))
    {more : List Entry} (hpos : ∀ e ∈ more, 0 ≤ e.1.toInt)
    (hmax : ∀ e ∈ more, e.1.toInt ≤ maxId.toInt) :
    ((∃ e ∈ more, count ≤ slot e.1) ∧ more.foldlM NodeStoreBuilder.put
      (.denseFile m maxId) = none) ∨ ((∀ e ∈ more, slot e.1 < count) ∧ ∃ m',
        more.foldlM NodeStoreBuilder.put (.denseFile m maxId) = some (.denseFile m' maxId) ∧
          m'.len = count * 8 ∧ ∀ k < count, readCoords m' (k * 8) =
            some (slotAt (done ++ more) k)) := by
  induction more generalizing m done with
  | nil => exact Or.inr ⟨fun e he => (List.not_mem_nil he).elim, m, rfl, hm, by simpa using hshow⟩
  | cons e more ih =>
    have hpos' : ∀ x ∈ more, 0 ≤ x.1.toInt := fun x hx => hpos x (List.mem_cons_of_mem _ hx)
    have hmax' : ∀ x ∈ more, x.1.toInt ≤ maxId.toInt :=
      fun x hx => hmax x (List.mem_cons_of_mem _ hx)
    rw [List.foldlM_cons]
    rcases step_put_dense hm (hpos e List.mem_cons_self) (hmax e List.mem_cons_self) with
      ⟨hge, hput⟩ | ⟨hlt, m₁, hput, hl, hread⟩
    · rw [hput]
      exact Or.inl ⟨⟨e, List.mem_cons_self, hge⟩, rfl⟩
    · rw [hput]
      have hshow₁ : ∀ k < count, readCoords m₁ (k * 8) = some (slotAt (done ++ [e]) k) := by
        intro k hk
        rw [hread, slotAt_snoc]
        split_ifs
        · rfl
        · exact hshow k hk
      rcases ih (hl.trans hm) hshow₁ hpos' hmax' with ⟨⟨x, hx, hge⟩, hnone⟩ | ⟨hall, m₂,
        hrun, hl₂, hread₂⟩
      · exact Or.inl ⟨⟨x, List.mem_cons_of_mem _ hx, hge⟩, hnone⟩
      · refine Or.inr ⟨fun x hx => ?_, m₂, hrun, hl₂, by simpa using hread₂⟩
        rcases List.mem_cons.mp hx with rfl | hx
        · exact hlt
        · exact hall x hx

lemma toInt_ofNat_of_lt {n : ℕ} (h : n < 2 ^ 63) : (Int64.ofNat n).toInt = n := by
  rw [← Int64.ofInt_eq_ofNat, Int64.toInt_ofInt_of_le (by omega) (by omega)]

/-- What the dense file gives for an id below `2 ^ 60`. -/
lemma get_dense {m : Mmap} {count : ℕ} (hm : m.len = count * 8)
    (hshow : ∀ k < count, readCoords m (k * 8) = some (slotAt rows k)) {id : Int64}
    (hid : id.toInt < 2 ^ 60) : (NodeStore.denseFile m).get id =
      some (if id.toInt < 0 ∨ count ≤ id.toInt.toNat then none else shown
        (slotAt rows id.toInt.toNat)) := by
  unfold NodeStore.get
  dsimp only
  by_cases hneg : id.toInt < 0
  · rw [if_pos hneg, if_pos (Or.inl hneg)]
  · have hoff : id.toUInt64.toNat * 8 % 2 ^ 64 = id.toInt.toNat * 8 := by
      rw [toNat_toUInt64 (by omega)]
      omega
    have hend : (id.toInt.toNat * 8 + 8) % 2 ^ 64 = id.toInt.toNat * 8 + 8 :=
      Nat.mod_eq_of_lt (by omega)
    rw [if_neg hneg, hoff, hend, hm]
    by_cases hge : count ≤ id.toInt.toNat
    · rw [if_pos (by omega), if_pos (Or.inr hge)]
    · rw [if_neg (by omega), if_neg (by omega), hshow _ (by omega)]
      rfl

/-- A place without a node shows nothing. -/
lemma slotAt_of_forall_ne {k : ℕ} (h : ∀ e ∈ rows, slot e.1 ≠ k) : slotAt rows k = (0, 0) := by
  rw [slotAt, List.filter_eq_nil_iff.mpr (by simpa using h)]
  rfl

/-- The node with the greatest id at a place is the one that is seen. -/
lemma slotAt_of_last (h : Ascending rows) {e : Entry} (he : e ∈ rows)
    (hlast : ∀ e' ∈ rows, slot e'.1 = slot e.1 → e'.1.toInt ≤ e.1.toInt) :
    slotAt rows (slot e.1) = e.2 := by
  have hmem : e ∈ rows.filter fun x => slot x.1 = slot e.1 := List.mem_filter.mpr ⟨he, by simp⟩
  have hne := List.ne_nil_of_mem hmem
  obtain ⟨hin, hslot⟩ := List.mem_filter.mp (List.getLast_mem hne)
  have hids : (rows.filter fun x => slot x.1 = slot e.1).Pairwise fun a b =>
      a.1.toInt < b.1.toInt :=
    h.ids.filter _
  have heq : List.getLast _ hne = e := by
    have hle := hlast _ hin (by simpa using hslot)
    have hmem' := hmem
    rw [← List.dropLast_concat_getLast hne] at hmem'
    rcases List.mem_append.mp hmem' with hd | hd
    · exact absurd (hids.rel_dropLast_getLast hd) (not_lt.mpr hle)
    · exact (List.mem_singleton.mp hd).symm
  rw [slotAt, List.getLast?_eq_some_getLast hne, heq]
  rfl

/-- The file shows the right coordinates at every place below `2 ^ 60`. -/
lemma shown_slotAt_iff (h : Ascending rows) :
    (∀ id : Int64, 0 ≤ id.toInt → id.toInt < 2 ^ 60 →
      shown (slotAt rows id.toInt.toNat) = denseLookup rows id) ↔
    ∀ e ∈ rows, 2 ^ 61 ≤ e.1.toInt → slot e.1 < 2 ^ 60 →
      (∀ e' ∈ rows, slot e'.1 = slot e.1 → e'.1.toInt ≤ e.1.toInt) →
      shown e.2 = denseLookup rows (Int64.ofNat (slot e.1)) := by
  constructor
  · intro hall e he _ hslot hlast
    have hid := toInt_ofNat_of_lt (show slot e.1 < 2 ^ 63 by omega)
    have heq := hall (Int64.ofNat (slot e.1)) (by omega) (by omega)
    rwa [hid, Int.toNat_natCast, slotAt_of_last h he hlast] at heq
  · intro hsafe id hpos hlt
    have hslot : slot id = id.toInt.toNat := Nat.mod_eq_of_lt (by omega)
    rcases hl : (rows.filter fun e => slot e.1 = id.toInt.toNat).getLast? with _ | e
    · -- no node at this place, and none with this id
      have hnone : ∀ e ∈ rows, slot e.1 ≠ id.toInt.toNat := by
        simpa using List.getLast?_eq_none_iff.mp hl
      rw [slotAt_of_forall_ne hnone, denseLookup,
        lookup_eq_none fun e he heq => hnone e he (by rw [heq, hslot])]
      rfl
    · obtain ⟨he, heslot⟩ := List.mem_filter.mp (List.mem_of_getLast? hl)
      have heslot : slot e.1 = id.toInt.toNat := by simpa using heslot
      have hat : slotAt rows id.toInt.toNat = e.2 := by
        rw [slotAt, hl]
        rfl
      rcases lt_or_ge e.1.toInt (2 ^ 61) with hsmall | hbig
      · -- the node itself
        have hself : slot e.1 = e.1.toInt.toNat :=
          Nat.mod_eq_of_lt (by have := h.nonneg e he; omega)
        have hid : e.1 = id := Int64.toInt_inj.mp (by have := h.nonneg e he; omega)
        rw [hat, ← hid, denseLookup, lookup_of_mem h he]
        rfl
      · have hlast : ∀ e' ∈ rows, slot e'.1 = slot e.1 → e'.1.toInt ≤ e.1.toInt := by
          intro e' he' hs
          have hmem : e' ∈ rows.filter fun x => slot x.1 = id.toInt.toNat :=
            List.mem_filter.mpr ⟨he', by simpa [heslot] using hs⟩
          obtain ⟨init, hsplit⟩ := List.getLast?_eq_some_iff.mp hl
          have hids := h.ids.filter fun x => slot x.1 = id.toInt.toNat
          rw [hsplit] at hmem hids
          rcases List.mem_append.mp hmem with hi | hi
          · exact ((List.pairwise_append.mp hids).2.2 e' hi e (List.mem_singleton_self e)).le
          · rw [List.mem_singleton.mp hi]
        have hback : Int64.ofNat (slot e.1) = id :=
          Int64.toInt_inj.mp (by rw [toInt_ofNat_of_lt (by omega), heslot]; omega)
        have := hsafe e he hbig (by omega) hlast
        rwa [hback, ← hat] at this

/-- A dense store that shows every place answers as it should exactly if the places do. Ids that are
negative or behind the end have not been put. -/
lemma answers_denseFile_iff {m : Mmap} {count : ℕ} (h : Ascending rows)
    (hall : ∀ e ∈ rows, slot e.1 < count) (hm : m.len = count * 8)
    (hshow : ∀ k < count, readCoords m (k * 8) = some (slotAt rows k)) :
    Answers (some (.denseFile m)) (denseLookup rows) ↔ ∀ id :
      Int64, 0 ≤ id.toInt → id.toInt < 2 ^ 60 →
      shown (slotAt rows id.toInt.toNat) = denseLookup rows id := by
  constructor
  · rintro ⟨store, hs, hget⟩ id hpos hlt
    cases hs
    have hid := hget id hlt
    rw [get_dense hm hshow hlt, Option.some_inj] at hid
    split_ifs at hid with hout
    · rw [← hid]
      have hne : ∀ e ∈ rows, slot e.1 ≠ id.toInt.toNat := fun e he => by
        have := hall e he
        omega
      rw [slotAt_of_forall_ne hne]
      rfl
    · exact hid
  · intro heq
    refine ⟨_, rfl, fun id hlt => ?_⟩
    rw [get_dense hm hshow hlt]
    split_ifs with hout
    · have habsent : ∀ e ∈ rows, e.1 ≠ id := by
        rintro e he rfl
        have h₁ := hall e he
        have h₂ := h.nonneg e he
        have h₃ : slot e.1 = e.1.toInt.toNat := Nat.mod_eq_of_lt (by omega)
        omega
      rw [denseLookup, lookup_eq_none habsent]
      rfl
    · rw [heq id (by omega) hlt]

/-- **The dense store answers as it should exactly if no offset that wraps around shows.** -/
lemma answers_dense_iff (h : Ascending rows) :
    Answers (build (.newDenseFile (maxIdOf rows)) rows) (denseLookup rows) ↔ DenseSafe rows := by
  obtain ⟨hmax0, hmax⟩ := maxIdOf_spec rows
  have hlen : ((max (maxIdOf rows).toInt 0).toNat + 1) * 8 % 2 ^ 64 = slotCount rows * 8 := by
    rw [max_eq_left hmax0, slotCount]
    omega
  have hzero : ∀ k < slotCount rows, readCoords (Mmap.zeros (slotCount rows * 8)) (k * 8) =
      some (slotAt [] k) := by
    intro k hk
    unfold readCoords
    rw [read_zeros (by omega), read_zeros (by omega)]
    rfl
  rcases @run_put_dense (Mmap.zeros (slotCount rows * 8)) (slotCount rows)
    (maxIdOf rows) [] rfl hzero rows h.nonneg hmax with ⟨⟨e, he, hge⟩, hnone⟩ | ⟨hall, m,
      hrun, hm, hshow⟩
  · -- the builder fails
    constructor
    · rintro ⟨store, hstore, -⟩
      rw [build, NodeStoreBuilder.newDenseFile, hlen, hnone] at hstore
      cases hstore
    · intro hsafe
      exact absurd (hsafe.1 e he) (not_lt.mpr hge)
  · rw [List.nil_append] at hshow
    have hbuild : build (.newDenseFile (maxIdOf rows)) rows = some (.denseFile m) := by
      rw [build, NodeStoreBuilder.newDenseFile, hlen, hrun]
      rfl
    rw [hbuild, answers_denseFile_iff h hall hm hshow, shown_slotAt_iff h]
    exact ⟨fun hs => ⟨hall, hs⟩, fun hs => hs.2⟩

end Dense

/-! ### The stores agree -/

lemma length_lt_of_ascending {rows : List Entry} (h : Ascending rows) : rows.length < 2 ^ 64 := by
  have hlow : ∀ i (hi : i < rows.length), (i : ℤ) ≤ rows[i].1.toInt := by
    intro i
    induction i with
    | zero => exact fun hi => h.nonneg _ (List.getElem_mem hi)
    | succ i ih =>
      intro hi
      have hprev := ih (by omega)
      have hlt := List.pairwise_iff_getElem.mp h.ids i (i + 1) (by omega) hi (by omega)
      omega
  rcases Nat.eq_zero_or_pos rows.length with h0 | hpos
  · omega
  · have hlast := hlow (rows.length - 1) (by omega)
    have hmax := rows[rows.length - 1].1.toInt_lt
    omega

/-- **The stores agree exactly if there are fewer than `2 ^ 60` nodes and no id whose place in the
dense file wraps around shows.** -/
theorem storesAgree_iff {rows : List Entry} (h : Ascending rows) :
    StoresAgree rows ↔ rows.length < 2 ^ 60 ∧ DenseSafe rows := by
  constructor
  · intro hs
    refine ⟨?_, (answers_dense_iff h).mp hs.denseFile⟩
    by_contra hnot
    obtain ⟨store, hstore, -⟩ := hs.sortedFile
    rw [build_sortedFile_none (not_lt.mp hnot) (length_lt_of_ascending h)] at hstore
    cases hstore
  · rintro ⟨hcount, hsafe⟩
    exact ⟨answers_sortedMem h, answers_sortedFile h hcount, (answers_dense_iff h).mpr hsafe⟩

/-- Ids that are small enough never wrap around. -/
theorem denseSafe_of_small {rows : List Entry} (h : Ascending rows)
    (hsmall : (maxIdOf rows).toInt + 1 < 2 ^ 61) : DenseSafe rows := by
  obtain ⟨hmax0, hmax⟩ := maxIdOf_spec rows
  refine ⟨fun e he => ?_, fun e he hbig => ?_⟩
  · have hle := hmax e he
    have hpos := h.nonneg e he
    have hslot : slot e.1 = e.1.toInt.toNat := Nat.mod_eq_of_lt (by omega)
    have hcount : slotCount rows = (maxIdOf rows).toInt.toNat + 1 := Nat.mod_eq_of_lt (by omega)
    omega
  · have hle := hmax e he
    omega

/-- Two nodes and a gap between them. -/
def fewNodes : List Entry := [(3, 10, 20), (5, 0, 0)]

theorem stores_of_fewNodes : Ascending fewNodes ∧ StoresAgree fewNodes := by
  have h : Ascending fewNodes := ⟨by decide, by simp [fewNodes]⟩
  exact ⟨h, (storesAgree_iff h).mpr ⟨by decide, denseSafe_of_small h (by decide)⟩⟩

/-- One node with the id `2 ^ 61`. -/
def farNode : List Entry := [(2305843009213693952, 1, 1)]

/-- The dense file of the far node has one place, the node is put there, and node 0 is found. -/
theorem farNode_read_as_zero : Ascending farNode ∧ lookup farNode 0 = none ∧
    (build (.newDenseFile (maxIdOf farNode)) farNode).bind (fun s => s.get 0) = some (some (1, 1)) ∧
    ¬ StoresAgree farNode := by
  have hget : (build (.newDenseFile (maxIdOf farNode)) farNode).bind (fun s => s.get 0) =
      some (some (1, 1)) := by decide
  refine ⟨⟨List.pairwise_singleton _ _, by simp [farNode]⟩, by decide, hget, fun h => ?_⟩
  obtain ⟨store, hstore, hanswer⟩ := h.denseFile
  rw [hstore, Option.bind_some, hanswer 0 (by decide)] at hget
  exact absurd hget (by decide)

end OsmParquet.NodeStores
