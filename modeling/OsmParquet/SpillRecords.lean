import OsmParquet.ByteCodec
import OsmParquet.Utf8

/-!
The records of the spill files.

The raw builder writes the rows of a cell to a spill file as they come and sorts the file
later. A row is a record of fixed and variable fields; an optional number that is absent is
written as the smallest number of its type, an optional geometry that is absent as length zero,
one more than its length otherwise. Lengths are written in 32 bits.
-/

namespace OsmParquet.SpillRecords

open OsmParquet.ByteCodec

/-! ### Fields -/

def putStr (s : String) : Bytes :=
  let bytes := Utf8.encode s.toList
  putU32 (UInt32.ofNat bytes.length) ++ bytes

/-- What is not UTF-8 is replaced. -/
def getStr : Get String := do
  let len ← getU32
  let bytes ← takeBytes len.toNat
  pure (String.ofList (Utf8.decode bytes))

def putI32Opt (v : Option Int32) : Bytes := putI32 (v.getD Int32.minValue)

def getI32Opt : Get (Option Int32) := do
  let v ← getI32
  pure (if v = Int32.minValue then none else some v)

def putI64Opt (v : Option Int64) : Bytes := putI64 (v.getD Int64.minValue)

def getI64Opt : Get (Option Int64) := do
  let v ← getI64
  pure (if v = Int64.minValue then none else some v)

def putU8 (v : UInt8) : Bytes := [v]

def getU8 : Get UInt8 := fun bs =>
  match bs with
  | [] => none
  | b :: rest => some (b, rest)

def putBytesOpt : Option Bytes → Bytes
  | none => putU32 0
  | some b => putU32 (UInt32.ofNat b.length + 1) ++ b

def getBytesOpt : Get (Option Bytes) := do
  let lenPlus1 ← getU32
  if lenPlus1.toNat = 0 then pure none
  else do
    let v ← takeBytes (lenPlus1.toNat - 1)
    pure (some v)

/-- The list fields: their length, then the items. -/
def putList {α : Type} (put : α → Bytes) (l : List α) : Bytes :=
  putU32 (UInt32.ofNat l.length) ++ l.flatMap put

def getList {α : Type} (get : Get α) : Get (List α) := do
  let n ← getU32
  getMany get n.toNat

def putTags : List (String × String) → Bytes := putList fun t => putStr t.1 ++ putStr t.2

def getTags : Get (List (String × String)) :=
  getList do
    let k ← getStr
    let v ← getStr
    pure (k, v)

structure Meta where
  version : Option Int32
  changeset : Option Int64
  timestampUs : Option Int64
  uid : Option Int32
  user : Option String
  deriving DecidableEq

def encodeMetaWithFlag (m : Meta) : Bytes :=
  putI32Opt m.version ++ (putI64Opt m.changeset ++ (putI64Opt m.timestampUs ++ (putI32Opt m.uid ++
    match m.user with
    | none => putU8 0 ++ putStr ""
    | some u => putU8 1 ++ putStr u)))

def decodeMetaWithFlag : Get Meta := do
  let version ← getI32Opt
  let changeset ← getI64Opt
  let timestampUs ← getI64Opt
  let uid ← getI32Opt
  let flag ← getU8
  let s ← getStr
  pure ⟨version, changeset, timestampUs, uid, if flag = 0 then none else some s⟩

/-! ### Rows -/

structure NodeSpillRow where
  id : Int64
  latE7 : Int32
  lonE7 : Int32
  hilbert : UInt64
  tags : List (String × String)
  info : Meta
  deriving DecidableEq

def NodeSpillRow.encode (r : NodeSpillRow) : Bytes :=
  putI64 r.id ++ (putI32 r.latE7 ++ (putI32 r.lonE7 ++ (putU64 r.hilbert ++ (putTags r.tags ++
    encodeMetaWithFlag r.info))))

def NodeSpillRow.get : Get NodeSpillRow := do
  let id ← getI64
  let latE7 ← getI32
  let lonE7 ← getI32
  let hilbert ← getU64
  let tags ← getTags
  let info ← decodeMetaWithFlag
  pure ⟨id, latE7, lonE7, hilbert, tags, info⟩

/-- A row from the bytes of a record; bytes after the row are not looked at. -/
def NodeSpillRow.decode (cur : Bytes) : Option NodeSpillRow :=
  (NodeSpillRow.get.run cur).map Prod.fst

structure WaySpillRow where
  id : Int64
  refs : List Int64
  tags : List (String × String)
  info : Meta
  xminE7 : Option Int32
  yminE7 : Option Int32
  xmaxE7 : Option Int32
  ymaxE7 : Option Int32
  geometryWkb : Option Bytes
  isClosed : Bool
  isArea : Bool
  centroidLatE7 : Option Int32
  centroidLonE7 : Option Int32
  hilbert : UInt64
  deriving DecidableEq

def putBool (b : Bool) : Bytes := putU8 (if b then 1 else 0)

def getBool : Get Bool := do
  let v ← getU8
  pure (v != 0)

def WaySpillRow.encode (r : WaySpillRow) : Bytes :=
  putI64 r.id ++ (putList putI64 r.refs ++ (putTags r.tags ++ (encodeMetaWithFlag r.info ++
    (putI32Opt r.xminE7 ++ (putI32Opt r.yminE7 ++ (putI32Opt r.xmaxE7 ++ (putI32Opt r.ymaxE7 ++
    (putBytesOpt r.geometryWkb ++ (putBool r.isClosed ++ (putBool r.isArea ++
    (putI32Opt r.centroidLatE7 ++ (putI32Opt r.centroidLonE7 ++ putU64 r.hilbert))))))))))))

def WaySpillRow.get : Get WaySpillRow := do
  let id ← getI64
  let refs ← getList getI64
  let tags ← getTags
  let info ← decodeMetaWithFlag
  let xminE7 ← getI32Opt
  let yminE7 ← getI32Opt
  let xmaxE7 ← getI32Opt
  let ymaxE7 ← getI32Opt
  let geometryWkb ← getBytesOpt
  let isClosed ← getBool
  let isArea ← getBool
  let centroidLatE7 ← getI32Opt
  let centroidLonE7 ← getI32Opt
  let hilbert ← getU64
  pure ⟨id, refs, tags, info, xminE7, yminE7, xmaxE7, ymaxE7, geometryWkb, isClosed, isArea,
    centroidLatE7, centroidLonE7, hilbert⟩

def WaySpillRow.decode (cur : Bytes) : Option WaySpillRow := (WaySpillRow.get.run cur).map Prod.fst

/-! ### Spill files -/

/-- A file for each cell, with what has been written to it. -/
structure SpillSet where
  writers : Std.HashMap String Bytes

def SpillSet.new : SpillSet := ⟨∅⟩

def SpillSet.append (s : SpillSet) (cell : String) (payload : Bytes) : SpillSet :=
  ⟨s.writers.insert cell (s.writers.getD cell [] ++ frame payload)⟩

/-- The files, in the order of their cells. -/
def SpillSet.finish (s : SpillSet) : List (String × Bytes) :=
  s.writers.toList.mergeSort fun a b => a.1 ≤ b.1

def readRecords (file : Bytes) : Option (List Bytes) := readFrames file

/-! ### Fields read back -/

/-- The number of bytes of a text. -/
def byteLength (s : String) : ℕ := (Utf8.encode s.toList).length

lemma toNat_ofNat_of_lt {n : ℕ} (h : n < 2 ^ 32) : (UInt32.ofNat n).toNat = n := by
  rw [UInt32.toNat_ofNat', Nat.mod_eq_of_lt h]

lemma reads_getStr {s : String} (h : byteLength s < 2 ^ 32) : Reads getStr (putStr s) s := by
  refine (Reads.getU32 _).bind ?_
  rw [show (UInt32.ofNat (Utf8.encode s.toList).length).toNat = (Utf8.encode s.toList).length from
    toNat_ofNat_of_lt h]
  have hread := (Reads.takeBytes (Utf8.encode s.toList)).last fun bytes =>
    String.ofList (Utf8.decode bytes)
  rwa [Utf8.decode_encode, String.ofList_toList] at hread

lemma reads_getI32Opt {v : Option Int32} (h : v ≠ some Int32.minValue) :
    Reads getI32Opt (putI32Opt v) v := by
  have hread := (Reads.getI32 (v.getD Int32.minValue)).last fun v =>
    if v = Int32.minValue then none else some v
  cases v with
  | none => exact hread
  | some v =>
    have hv : v ≠ Int32.minValue := fun hv => h (congrArg some hv)
    rw [Option.getD_some, if_neg hv] at hread
    exact hread

lemma reads_getI64Opt {v : Option Int64} (h : v ≠ some Int64.minValue) :
    Reads getI64Opt (putI64Opt v) v := by
  have hread := (Reads.getI64 (v.getD Int64.minValue)).last fun v =>
    if v = Int64.minValue then none else some v
  cases v with
  | none => exact hread
  | some v =>
    have hv : v ≠ Int64.minValue := fun hv => h (congrArg some hv)
    rw [Option.getD_some, if_neg hv] at hread
    exact hread

lemma reads_getU8 (v : UInt8) : Reads getU8 (putU8 v) v := fun _ => rfl

lemma reads_getBool (b : Bool) : Reads getBool (putBool b) b := by
  have hread := (reads_getU8 (if b then 1 else 0)).last (· != 0)
  cases b <;> exact hread

lemma reads_getBytesOpt {v : Option Bytes} (h : ∀ b ∈ v, b.length + 1 < 2 ^ 32) :
    Reads getBytesOpt (putBytesOpt v) v := by
  cases v with
  | none => exact (Reads.getU32 0).bind (Reads.pure none)
  | some b =>
    have hb := h b rfl
    have hlen : (UInt32.ofNat b.length + 1).toNat = b.length + 1 := by
      rw [UInt32.toNat_add, toNat_ofNat_of_lt (by omega)]
      exact Nat.mod_eq_of_lt hb
    refine (Reads.getU32 _).bind ?_
    rw [hlen, if_neg (Nat.succ_ne_zero _)]
    exact (Reads.takeBytes b).last some

lemma reads_getList {α : Type} {get : Get α} {put : α → Bytes} {l : List α}
    (hlen : l.length < 2 ^ 32) (h : ∀ a ∈ l, Reads get (put a) a) :
    Reads (getList get) (putList put l) l := by
  refine (Reads.getU32 _).bind ?_
  rw [toNat_ofNat_of_lt hlen]
  exact Reads.getMany h

lemma reads_getTags {tags : List (String × String)} (hlen : tags.length < 2 ^ 32)
    (h : ∀ t ∈ tags, byteLength t.1 < 2 ^ 32 ∧ byteLength t.2 < 2 ^ 32) :
    Reads getTags (putTags tags) tags :=
  reads_getList hlen fun t ht => (reads_getStr (h t ht).1).bind
    ((reads_getStr (h t ht).2).last (Prod.mk t.1))

/-- No optional number is the one that stands for its absence. -/
structure Meta.NoSentinel (m : Meta) : Prop where
  version : m.version ≠ some Int32.minValue
  changeset : m.changeset ≠ some Int64.minValue
  timestampUs : m.timestampUs ≠ some Int64.minValue
  uid : m.uid ≠ some Int32.minValue

instance (m : Meta) : Decidable m.NoSentinel :=
  decidable_of_iff (m.version ≠ some Int32.minValue ∧ m.changeset ≠ some Int64.minValue ∧
      m.timestampUs ≠ some Int64.minValue ∧ m.uid ≠ some Int32.minValue)
    ⟨fun ⟨a, b, c, d⟩ => ⟨a, b, c, d⟩, fun ⟨a, b, c, d⟩ => ⟨a, b, c, d⟩⟩

lemma reads_decodeMetaWithFlag {m : Meta} (h : m.NoSentinel)
    (hu : ∀ u ∈ m.user, byteLength u < 2 ^ 32) :
    Reads decodeMetaWithFlag (encodeMetaWithFlag m) m := by
  refine (reads_getI32Opt h.version).bind ((reads_getI64Opt h.changeset).bind
    ((reads_getI64Opt h.timestampUs).bind ((reads_getI32Opt h.uid).bind ?_)))
  obtain ⟨version, changeset, timestampUs, uid, user⟩ := m
  cases user with
  | none => exact (reads_getU8 0).bind ((reads_getStr (s := "") (by decide)).last _)
  | some u => exact (reads_getU8 1).bind ((reads_getStr (hu u rfl)).last _)

/-! ### Rows read back -/

structure WaySpillRow.NoSentinel (r : WaySpillRow) : Prop where
  info : r.info.NoSentinel
  xminE7 : r.xminE7 ≠ some Int32.minValue
  yminE7 : r.yminE7 ≠ some Int32.minValue
  xmaxE7 : r.xmaxE7 ≠ some Int32.minValue
  ymaxE7 : r.ymaxE7 ≠ some Int32.minValue
  centroidLatE7 : r.centroidLatE7 ≠ some Int32.minValue
  centroidLonE7 : r.centroidLonE7 ≠ some Int32.minValue

instance (r : WaySpillRow) : Decidable r.NoSentinel :=
  decidable_of_iff (r.info.NoSentinel ∧ r.xminE7 ≠ some Int32.minValue ∧
      r.yminE7 ≠ some Int32.minValue ∧ r.xmaxE7 ≠ some Int32.minValue ∧
      r.ymaxE7 ≠ some Int32.minValue ∧ r.centroidLatE7 ≠ some Int32.minValue ∧
      r.centroidLonE7 ≠ some Int32.minValue)
    ⟨fun ⟨a, b, c, d, e, f, g⟩ => ⟨a, b, c, d, e, f, g⟩,
      fun ⟨a, b, c, d, e, f, g⟩ => ⟨a, b, c, d, e, f, g⟩⟩

lemma length_le_flatMap {α : Type} {f : α → Bytes} {l : List α} (h : ∀ a, 0 < (f a).length) :
    l.length ≤ (l.flatMap f).length := by
  induction l with
  | nil => simp
  | cons a l ih =>
    have := h a
    rw [List.flatMap_cons, List.length_append, List.length_cons]
    omega

lemma length_item_le {α : Type} {f : α → Bytes} {l : List α} {a : α} (h : a ∈ l) :
    (f a).length ≤ (l.flatMap f).length := by
  obtain ⟨l₁, l₂, rfl⟩ := List.append_of_mem h
  rw [List.flatMap_append, List.flatMap_cons, List.length_append, List.length_append]
  omega

lemma length_putStr (s : String) : (putStr s).length = 4 + byteLength s := by
  simp [putStr, putU32, byteLength]

/-- The length of a record bounds the lengths of what is in it. -/
lemma tags_of_length {tags : List (String × String)} (h : (putTags tags).length < 2 ^ 32) :
    tags.length < 2 ^ 32 ∧ ∀ t ∈ tags, byteLength t.1 < 2 ^ 32 ∧ byteLength t.2 < 2 ^ 32 := by
  have hput :
      (putTags tags).length = 4 + (tags.flatMap fun t => putStr t.1 ++ putStr t.2).length := by
    simp [putTags, putList, putU32]
  have hpos : ∀ t : String × String, 0 < (putStr t.1 ++ putStr t.2).length := by
    intro t
    rw [List.length_append, length_putStr]
    omega
  refine ⟨Nat.lt_of_le_of_lt (length_le_flatMap hpos) (by omega), fun t ht => ?_⟩
  have hitem := length_item_le (f := fun t : String × String => putStr t.1 ++ putStr t.2) ht
  rw [List.length_append, length_putStr, length_putStr] at hitem
  omega

lemma user_of_length {m : Meta} (h : (encodeMetaWithFlag m).length < 2 ^ 32) :
    ∀ u ∈ m.user, byteLength u < 2 ^ 32 := by
  intro u hu
  obtain ⟨version, changeset, timestampUs, uid, user⟩ := m
  cases hu
  simp only [encodeMetaWithFlag, List.length_append, length_putStr] at h
  omega

/-- **A node row is read back from its record.** -/
theorem reads_node {r : NodeSpillRow} (hs : r.info.NoSentinel) (hlen : r.encode.length < 2 ^ 32) :
    Reads NodeSpillRow.get r.encode r := by
  simp only [NodeSpillRow.encode, List.length_append] at hlen
  obtain ⟨htags, hitems⟩ := @tags_of_length r.tags (by omega)
  have huser := user_of_length (m := r.info) (by omega)
  exact (Reads.getI64 _).bind ((Reads.getI32 _).bind ((Reads.getI32 _).bind ((Reads.getU64 _).bind
    ((reads_getTags htags hitems).bind ((reads_decodeMetaWithFlag hs huser).last _)))))

/-- **A way row is read back from its record.** -/
theorem reads_way {r : WaySpillRow} (hs : r.NoSentinel) (hlen : r.encode.length < 2 ^ 32) :
    Reads WaySpillRow.get r.encode r := by
  simp only [WaySpillRow.encode, List.length_append] at hlen
  obtain ⟨htags, hitems⟩ := @tags_of_length r.tags (by omega)
  have huser := user_of_length (m := r.info) (by omega)
  have hrefs : r.refs.length < 2 ^ 32 := by
    have hle := length_le_flatMap (f := putI64) (l := r.refs) fun v => by simp [putI64, putU64]
    have hput : (putList putI64 r.refs).length = 4 + (r.refs.flatMap putI64).length := by
      simp [putList, putU32]
    omega
  have hgeom : ∀ b ∈ r.geometryWkb, b.length + 1 < 2 ^ 32 := by
    intro b hb
    have hput : (putBytesOpt r.geometryWkb).length = 4 + b.length := by
      rw [Option.mem_def.mp hb]
      simp [putBytesOpt, putU32]
    omega
  exact (Reads.getI64 _).bind ((reads_getList hrefs fun v _ => Reads.getI64 v).bind
    ((reads_getTags htags hitems).bind ((reads_decodeMetaWithFlag hs.info huser).bind
    ((reads_getI32Opt hs.xminE7).bind ((reads_getI32Opt hs.yminE7).bind
    ((reads_getI32Opt hs.xmaxE7).bind ((reads_getI32Opt hs.ymaxE7).bind
    ((reads_getBytesOpt hgeom).bind ((reads_getBool _).bind ((reads_getBool _).bind
    ((reads_getI32Opt hs.centroidLatE7).bind ((reads_getI32Opt hs.centroidLonE7).bind
    ((Reads.getU64 _).last _)))))))))))))

theorem decode_node {r : NodeSpillRow} (hs : r.info.NoSentinel) (hlen : r.encode.length < 2 ^ 32) :
    NodeSpillRow.decode r.encode = some r := by
  rw [NodeSpillRow.decode, (reads_node hs hlen).run]
  rfl

theorem decode_way {r : WaySpillRow} (hs : r.NoSentinel) (hlen : r.encode.length < 2 ^ 32) :
    WaySpillRow.decode r.encode = some r := by
  rw [WaySpillRow.decode, (reads_way hs hlen).run]
  rfl

/-! ### What is read has no sentinel -/

lemma yields_getI32Opt : Yields getI32Opt (· ≠ some Int32.minValue) := by
  refine Yields.any.bind fun v _ => Yields.pure ?_
  split_ifs with h
  · exact Option.some_ne_none _ |>.symm
  · exact fun hv => h (Option.some_inj.mp hv)

lemma yields_getI64Opt : Yields getI64Opt (· ≠ some Int64.minValue) := by
  refine Yields.any.bind fun v _ => Yields.pure ?_
  split_ifs with h
  · exact Option.some_ne_none _ |>.symm
  · exact fun hv => h (Option.some_inj.mp hv)

lemma yields_decodeMetaWithFlag : Yields decodeMetaWithFlag Meta.NoSentinel :=
  yields_getI32Opt.bind fun _ h₁ => yields_getI64Opt.bind fun _ h₂ =>
    yields_getI64Opt.bind fun _ h₃ =>
    yields_getI32Opt.bind fun _ h₄ => Yields.any.bind fun _ _ => Yields.any.bind fun _ _ =>
      Yields.pure ⟨h₁, h₂, h₃, h₄⟩

lemma yields_way : Yields WaySpillRow.get WaySpillRow.NoSentinel :=
  Yields.any.bind fun _ _ => Yields.any.bind fun _ _ => Yields.any.bind fun _ _ =>
    yields_decodeMetaWithFlag.bind fun _ h₀ => yields_getI32Opt.bind fun _ h₁ =>
    yields_getI32Opt.bind fun _ h₂ => yields_getI32Opt.bind fun _ h₃ =>
    yields_getI32Opt.bind fun _ h₄ => Yields.any.bind fun _ _ => Yields.any.bind fun _ _ =>
    Yields.any.bind fun _ _ => yields_getI32Opt.bind fun _ h₅ => yields_getI32Opt.bind fun _ h₆ =>
    Yields.any.bind fun _ _ => Yields.pure ⟨h₀, h₁, h₂, h₃, h₄, h₅, h₆⟩

lemma noSentinel_of_decode {bs : Bytes} {r : WaySpillRow} (h : WaySpillRow.decode bs = some r) :
    r.NoSentinel := by
  obtain ⟨⟨r', rest⟩, hrun, rfl⟩ := Option.map_eq_some_iff.mp h
  exact yields_way bs r' rest hrun

/-! ### Files read back -/

/-- Records appended one after another, each to the file of its cell. -/
def SpillSet.appendAll (s : SpillSet) (records : List (String × Bytes)) : SpillSet :=
  records.foldl (fun s r => s.append r.1 r.2) s

/-- The payloads of one cell, in their order. -/
def payloadsOf (cell : String) (records : List (String × Bytes)) : List Bytes :=
  (records.filter (·.1 = cell)).map Prod.snd

section Files

variable {s : SpillSet} {cell : String} {records : List (String × Bytes)}

lemma getD_appendAll : (s.appendAll records).writers.getD cell [] =
    s.writers.getD cell [] ++ (payloadsOf cell records).flatMap frame := by
  induction records generalizing s with
  | nil => simp [SpillSet.appendAll, payloadsOf]
  | cons r records ih =>
    change ((s.append r.1 r.2).appendAll records).writers.getD cell [] = _
    rw [ih, SpillSet.append, Std.HashMap.getD_insert]
    by_cases h : r.1 = cell
    · simp [payloadsOf, h]
    · simp [payloadsOf, h]

lemma mem_appendAll : cell ∈ (s.appendAll records).writers ↔
    cell ∈ s.writers ∨ cell ∈ records.map Prod.fst := by
  induction records generalizing s with
  | nil => simp [SpillSet.appendAll]
  | cons r records ih =>
    change cell ∈ ((s.append r.1 r.2).appendAll records).writers ↔ _
    rw [ih, SpillSet.append, Std.HashMap.mem_insert, beq_iff_eq, List.map_cons, List.mem_cons]
    tauto

lemma mem_finish {file : Bytes} : (cell, file) ∈ s.finish ↔ s.writers[cell]? = some file := by
  rw [SpillSet.finish, List.mem_mergeSort, Std.HashMap.mem_toList_iff_getElem?_eq_some]

/-- The file of a cell is the frames of its records. -/
lemma file_of_mem_finish {file : Bytes} (h : (cell, file) ∈
    (SpillSet.new.appendAll records).finish) : file = (payloadsOf cell records).flatMap frame := by
  have hget := @getD_appendAll SpillSet.new cell records
  rw [Std.HashMap.getD_eq_getD_getElem?, mem_finish.mp h] at hget
  simpa [SpillSet.new] using hget

lemma mem_keys_finish : cell ∈ (SpillSet.new.appendAll records).finish.map Prod.fst ↔
    cell ∈ records.map Prod.fst := by
  have hmem : cell ∈ (SpillSet.new.appendAll records).finish.map Prod.fst ↔
      cell ∈ (SpillSet.new.appendAll records).writers := by
    rw [Std.HashMap.mem_iff_isSome_getElem?, Option.isSome_iff_exists]
    simp [← mem_finish]
  rw [hmem, mem_appendAll]
  simp [SpillSet.new]

lemma nodup_keys_finish : (s.finish.map Prod.fst).Nodup := by
  have hkeys : (s.writers.toList.map Prod.fst).Nodup := by
    rw [List.Nodup, List.pairwise_map]
    exact Std.HashMap.distinct_keys_toList.imp fun h => by simpa using h
  exact ((List.mergeSort_perm s.writers.toList _).map Prod.fst).nodup_iff.mpr hkeys

end Files

/-- **Rows and files are read back as they were written.** The length of a record bounds that of
every text, list and geometry in it, so that no other bound is needed. -/
theorem spill_round_trip :
    (∀ r : NodeSpillRow, r.info.NoSentinel → r.encode.length < 2 ^ 32 →
      NodeSpillRow.decode r.encode = some r) ∧
    (∀ r : WaySpillRow, r.NoSentinel → r.encode.length < 2 ^ 32 →
      WaySpillRow.decode r.encode = some r) ∧
    ∀ records : List (String × Bytes), (∀ r ∈ records, r.2.length < 2 ^ 32) →
      ((SpillSet.new.appendAll records).finish.map Prod.fst).Nodup ∧
      (∀ cell, cell ∈ (SpillSet.new.appendAll records).finish.map Prod.fst ↔
        cell ∈ records.map Prod.fst) ∧
      ∀ cell file, (cell, file) ∈ (SpillSet.new.appendAll records).finish →
        readRecords file = some (payloadsOf cell records) := by
  refine ⟨fun r => decode_node, fun r => decode_way, fun records hlen =>
    ⟨nodup_keys_finish, fun cell => mem_keys_finish, fun cell file h => ?_⟩⟩
  rw [file_of_mem_finish h]
  refine readFrames_frames fun p hp => ?_
  obtain ⟨r, hr, rfl⟩ := List.mem_map.mp hp
  exact hlen r (List.mem_filter.mp hr).1

/-- A way without tags. -/
def loneWay : WaySpillRow :=
  ⟨7, [1, 2], [], ⟨some 1, none, none, none, some "é"⟩, none, none, none, none, some [],
    true, false, none, none, 3⟩

/-- The way in the cell of the whole world, next to an empty record elsewhere. -/
theorem spill_round_trip_of_one : WaySpillRow.decode loneWay.encode = some loneWay ∧
    ∀ cell file, (cell, file) ∈ (SpillSet.new.appendAll
        [("root", loneWay.encode), ("0", []), ("root", [1])]).finish →
      readRecords file = some (payloadsOf cell [("root", loneWay.encode), ("0", []),
        ("root", [1])]) := by
  have hlen : loneWay.encode.length < 2 ^ 32 := by decide
  refine ⟨spill_round_trip.2.1 loneWay (by decide) hlen, (spill_round_trip.2.2 _ ?_).2.2⟩
  simp only [List.forall_mem_cons]
  exact ⟨hlen, by decide, by decide, fun _ h => (List.not_mem_nil h).elim⟩

end OsmParquet.SpillRecords
