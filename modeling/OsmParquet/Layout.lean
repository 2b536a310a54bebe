import OsmParquet.Datasets
import OsmParquet.FileStore

/-!
The files of a root, and the order in which the commands write them.

`manifest/LATEST` holds the number of a manifest, and the manifest names every other file. A
command reads what they name, writes its files, then a manifest with the next number, and
`LATEST` last. The files of a tier lie under the generation, the tier and the version of the tier;
all others lie under a generation alone.

The rows that a run resolves are a function of what it has read; of the other commands the
content of their files is given. Files with names of their own that are renamed when complete are
left out.
-/

namespace OsmParquet.Layout

open OsmParquet.KeyedList OsmParquet.Rows OsmParquet.Tiers OsmParquet.TierSteps
open OsmParquet.Updater OsmParquet.HistoryTiers OsmParquet.FileStore

/-! ### Paths -/

inductive Tier where
  | hour | day | week
deriving DecidableEq

inductive Copy where
  | byid | spatial
deriving DecidableEq

/-- The files of a delta tier version. -/
inductive TierFile where
  | table (t : Typ) (copy : Copy)
  | tombstones
deriving DecidableEq

/-- The files of the tables, of the by-id copy and of the indexes. -/
inductive TableFile where
  | node (cell : Cell) (tagged : Bool)
  | cell (t : Typ) (cell : Cell)
  | byid (t : Typ) (part : ℕ)
  | nodeWay (part : ℕ)
  | member (part : ℕ)
  | rowgroups (t : Typ)
deriving DecidableEq

inductive AreaFile where
  | index
  | wayIndex
  | cell (cell : Cell)
deriving DecidableEq

/-- The files of a base history. -/
inductive HistoryFile where
  | byid (t : Typ) (part : ℕ)
  | spatial (t : Typ) (cell : Cell) (name : String)
deriving DecidableEq

inductive Path where
  | latest
  | manifest (number : ℕ)
  | table (generation : String) (file : TableFile)
  | area (generation : String) (file : AreaFile)
  | delta (generation : String) (tier : Tier) (version : ℕ) (file : TierFile)
  | history (generation : String) (file : HistoryFile)
  | historyTier (generation : String) (tier : Tier) (version : ℕ) (t : Typ) (copy : Copy)
deriving DecidableEq

/-! ### Manifests -/

/-- The entry of a tier; the counts of its rows and the list of its cells are left out. -/
structure TierDoc (φ : Type) where
  version : ℕ
  seqFrom : ℤ
  seqTo : ℤ
  timestamp : Option ℤ
  files : φ → Path

structure HistoryDoc where
  generation : String
  files : List Path
  tiers : Tier → Option (TierDoc (Typ × Copy))

/-- What the commands read of a manifest. The files are those of the tables, of the by-id copy,
of the indexes and of the row group index. -/
structure Manifest where
  generation : String
  timestampOsmBase : Option ℤ
  replicationSequence : Option ℤ
  files : List Path
  areas : Option (List Path)
  deltas : Tier → Option (TierDoc TierFile)
  history : Option HistoryDoc

def types : List Typ := [.node, .way, .relation]

/-- In the order in which they are written. -/
def TierFile.all : List TierFile :=
  types.flatMap (fun t => [.table t .byid, .table t .spatial]) ++ [.tombstones]

def historyTierFiles : List (Typ × Copy) := types.flatMap fun t => [(t, .byid), (t, .spatial)]

/-- The files of the entries of some tiers. -/
def tierPaths {φ : Type} (all : List φ) (tiers : Tier → Option (TierDoc φ)) : List Path :=
  [Tier.hour, .day, .week].flatMap fun tier => (tiers tier).elim [] fun doc => all.map doc.files

def HistoryDoc.paths (h : HistoryDoc) : List Path := h.files ++ tierPaths historyTierFiles h.tiers

/-- Every path a manifest references. -/
def referencedPaths (m : Manifest) : List Path :=
  m.files ++ m.areas.getD [] ++ tierPaths TierFile.all m.deltas ++
    m.history.elim [] HistoryDoc.paths

/-! ### Files -/

/-- The content of a file. -/
inductive File (β : Type) where
  | number (n : ℕ)
  | manifest (m : Manifest)
  | deltaByid (t : Typ) (rows : List (DeltaRow (ByidCols t)))
  | deltaSpatial (t : Typ) (rows : List (DeltaRow (SpatialCols t)))
  | tombstones (rows : (t : Typ) → List (DeltaRow (ByidCols t)))
  | historyByid (t : Typ) (rows : List (HistoryRow (ByidCols t)))
  | historySpatial (t : Typ) (rows : List (HistoryRow (SpatialCols t)))
  | base (content : β)

variable {β : Type}

def File.deltaByid? (t : Typ) : File β → Option (List (DeltaRow (ByidCols t)))
  | .deltaByid t' rows => if h : t' = t then some (h ▸ rows) else none
  | _ => none

def File.deltaSpatial? (t : Typ) : File β → Option (List (DeltaRow (SpatialCols t)))
  | .deltaSpatial t' rows => if h : t' = t then some (h ▸ rows) else none
  | _ => none

def File.historyByid? (t : Typ) : File β → Option (List (HistoryRow (ByidCols t)))
  | .historyByid t' rows => if h : t' = t then some (h ▸ rows) else none
  | _ => none

def File.historySpatial? (t : Typ) : File β → Option (List (HistoryRow (SpatialCols t)))
  | .historySpatial t' rows => if h : t' = t then some (h ▸ rows) else none
  | _ => none

abbrev Root (β : Type) := Store Path (File β)

/-- What a reader of the root sees: the latest manifest and the files it references. -/
structure View (β : Type) where
  number : ℕ
  manifest : Manifest
  seen : Path → Option (File β)

def latestNumber (s : Root β) : Option ℕ :=
  match s .latest with
  | some (.number n) => some n
  | _ => none

def manifestAt (s : Root β) (n : ℕ) : Option Manifest :=
  match s (.manifest n) with
  | some (.manifest m) => some m
  | _ => none

def view (s : Root β) : Option (View β) :=
  (latestNumber s).bind fun n => (manifestAt s n).map fun m =>
    ⟨n, m, fun p => if p ∈ referencedPaths m then s p else none⟩

/-! ### Reading the tiers -/

/-- What there is to read, read. -/
def load {δ μ : Type} (read : δ → Option μ) : Option δ → Option (Option μ)
  | none => some none
  | some doc => (read doc).map some

def byType {α : Typ → Type} (node : α .node) (way : α .way) (relation : α .relation) :
    (t : Typ) → α t
  | .node => node
  | .way => way
  | .relation => relation

def loadFiles (seen : Path → Option (File β)) (doc : TierDoc TierFile) (t : Typ) :
    Option (TypeFiles t) :=
  ((seen (doc.files (.table t .byid))).bind (File.deltaByid? t)).bind fun byid =>
    ((seen (doc.files (.table t .spatial))).bind (File.deltaSpatial? t)).map fun spatial =>
      ⟨byid, spatial⟩

def loadTier (seen : Path → Option (File β)) (doc : TierDoc TierFile) : Option TierMeta :=
  (loadFiles seen doc .node).bind fun n => (loadFiles seen doc .way).bind fun w =>
    (loadFiles seen doc .relation).map fun r =>
      ⟨doc.version, doc.seqFrom, doc.seqTo, doc.timestamp, byType n w r⟩

def loadDeltas (v : View β) : Option Deltas :=
  (load (loadTier v.seen) (v.manifest.deltas .hour)).bind fun hour =>
    (load (loadTier v.seen) (v.manifest.deltas .day)).bind fun day =>
      (load (loadTier v.seen) (v.manifest.deltas .week)).map fun week => ⟨hour, day, week⟩

def loadHistoryFiles (seen : Path → Option (File β)) (doc : TierDoc (Typ × Copy)) (t : Typ) :
    Option (HistoryFiles t) :=
  ((seen (doc.files (t, .byid))).bind (File.historyByid? t)).bind fun byid =>
    ((seen (doc.files (t, .spatial))).bind (File.historySpatial? t)).map fun spatial =>
      ⟨byid, spatial⟩

def loadHistoryTier (seen : Path → Option (File β)) (doc : TierDoc (Typ × Copy)) :
    Option HistoryMeta :=
  (loadHistoryFiles seen doc .node).bind fun n => (loadHistoryFiles seen doc .way).bind fun w =>
    (loadHistoryFiles seen doc .relation).map fun r =>
      ⟨doc.version, doc.seqFrom, doc.seqTo, doc.timestamp, byType n w r⟩

def loadHistory (v : View β) (h : HistoryDoc) : Option History :=
  (load (loadHistoryTier v.seen) (h.tiers .hour)).bind fun hour =>
    (load (loadHistoryTier v.seen) (h.tiers .day)).bind fun day =>
      (load (loadHistoryTier v.seen) (h.tiers .week)).map fun week => ⟨hour, day, week⟩

/-! ### Writing the tiers -/

abbrev Ops (β : Type) := List (Op Path (File β))

def deltaFile (m : TierMeta) : TierFile → File β
  | .table t .byid => .deltaByid t (m.files t).byid
  | .table t .spatial => .deltaSpatial t (m.files t).spatial
  | .tombstones => .tombstones (tombstones m)

def historyFile (m : HistoryMeta) : Typ × Copy → File β
  | (t, .byid) => .historyByid t (m.files t).byid
  | (t, .spatial) => .historySpatial t (m.files t).spatial

def deltaTier (d : Deltas) : Tier → Option TierMeta
  | .hour => d.hour
  | .day => d.day
  | .week => d.week

def historyTier (h : History) : Tier → Option HistoryMeta
  | .hour => h.hour
  | .day => h.day
  | .week => h.week

/-- The tier version that a run has written, if it has: the version of the tier has changed. -/
def written {μ : Type} (version : μ → ℕ) (old new : Option μ) : Option μ :=
  if new.map version = old.map version then none else new

def writeTierVersion (generation : String) (tier : Tier) (m : TierMeta) : Ops β :=
  TierFile.all.map fun x => .write (.delta generation tier m.version x) (deltaFile m x)

def writeHistoryTierVersion (generation : String) (tier : Tier) (m : HistoryMeta) : Ops β :=
  historyTierFiles.map fun x =>
    .write (.historyTier generation tier m.version x.1 x.2) (historyFile m x)

/-- Folds write the older tier first. -/
def writeOrder : List Tier := [.week, .day, .hour]

def writeDeltas (generation : String) (old new : Deltas) : Ops β :=
  writeOrder.flatMap fun tier =>
    (written TierMeta.version (deltaTier old tier) (deltaTier new tier)).elim []
      (writeTierVersion generation tier)

def writeHistory (generation : String) (old new : History) : Ops β :=
  writeOrder.flatMap fun tier =>
    (written HistoryMeta.version (historyTier old tier) (historyTier new tier)).elim []
      (writeHistoryTierVersion generation tier)

/-- The entries of the tiers: new ones for what has been written, and else as they were. -/
def deltaDocs (m : Manifest) (old new : Deltas) (tier : Tier) : Option (TierDoc TierFile) :=
  ((written TierMeta.version (deltaTier old tier) (deltaTier new tier)).map fun x =>
    ⟨x.version, x.seqFrom, x.seqTo, x.timestamp, .delta m.generation tier x.version⟩).or
      (m.deltas tier)

def historyDocs (h : HistoryDoc) (old new : History) (tier : Tier) :
    Option (TierDoc (Typ × Copy)) :=
  ((written HistoryMeta.version (historyTier old tier) (historyTier new tier)).map fun x =>
    ⟨x.version, x.seqFrom, x.seqTo, x.timestamp,
      fun y => .historyTier h.generation tier x.version y.1 y.2⟩).or (h.tiers tier)

/-! ### Commands -/

/-- What a command does to the data files, and the manifest it then publishes unless it has
failed. -/
structure Plan (β : Type) where
  data : Ops β
  next : Option Manifest

/-- The manifest after number `n`, and `LATEST` last. -/
def publish (n : ℕ) (m : Manifest) : Ops β :=
  [.write (.manifest (n + 1)) (.manifest m), .write .latest (.number (n + 1))]

def Plan.ops (n : ℕ) (plan : Plan β) : Ops β := plan.data ++ plan.next.elim [] (publish n)

/-- A run over the tiers that it has loaded, given what it resolves. -/
def runPlan (v : View β) (d : Deltas) (r : HistoryRun) : Plan β :=
  let d' := runTiers d r.tiers
  let ops := writeDeltas v.manifest.generation d d'
  let m : Manifest := { v.manifest with
    timestampOsmBase := r.tiers.timestamp.or v.manifest.timestampOsmBase
    replicationSequence := some r.tiers.lastSeq
    deltas := deltaDocs v.manifest d d' }
  match v.manifest.history with
  | none => ⟨ops, some m⟩
  | some h =>
    if r.hasRows then
      -- the delta tiers are written by now, also when the history tiers fail
      let rolled := (loadHistory v h).bind fun old =>
        (writeHistoryTiers old r.files r.tiers.firstSeq r.tiers.lastSeq r.tiers.timestamp
          (r.crossings d).1 (r.crossings d).2).map fun new => (old, new)
      match rolled with
      | none => ⟨ops, none⟩
      | some (old, new) =>
        ⟨ops ++ writeHistory h.generation old new,
          some { m with history := some { h with tiers := historyDocs h old new } }⟩
    else ⟨ops, some m⟩

/-- How compaction makes a file: linked to the place of the old one, written, or written and
removed again because it has no rows. Where there is nothing to link the command stops after the
removal. -/
inductive Step (β : Type) where
  | place (src : Path)
  | copy (content : β)
  | copyEmpty (content : β)

def Step.ops (path : Path) : Step β → Ops β
  | place src => [.remove path, .link src path]
  | copy content => [.write path (.base content)]
  | copyEmpty content => [.write path (.base content), .remove path]

def Step.isEmpty : Step β → Bool
  | copyEmpty _ => true
  | _ => false

section Files

variable {φ : Type} (place : φ → Path)

def stepOps (xs : List (φ × Step β)) : Ops β := xs.flatMap fun x => x.2.ops (place x.1)

def stepPaths (xs : List (φ × Step β)) : List Path :=
  (xs.filter fun x => !x.2.isEmpty).map fun x => place x.1

def writeFiles (xs : List (φ × β)) : Ops β := xs.map fun x => .write (place x.1) (.base x.2)

def pathsOf (xs : List (φ × β)) : List Path := xs.map fun x => place x.1

end Files

def zeroPad (width k : ℕ) : String :=
  String.ofList (List.leftpad width '0' (toString k).toList)

/-- The files of a base history: the parts of every cell, and the parts by id. -/
structure HistoryLayout (β : Type) where
  spatial : Typ → List (Cell × List β)
  byid : Typ → List β

/-- One type after the other, with the cells before the parts by id. -/
def HistoryLayout.files (name : ℕ → String) (x : HistoryLayout β) : List (HistoryFile × β) :=
  types.flatMap fun t =>
    ((x.spatial t).flatMap fun c => c.2.zipIdx.map fun b => (.spatial t c.1 (name b.2), b.1)) ++
      (x.byid t).zipIdx.map fun b => (.byid t b.2, b.1)

/-- What compaction makes: the tables and indexes, the row group index, the areas when there are
areas and the history when there is one. -/
structure Compacted (β : Type) where
  tables : List (TableFile × Step β)
  rowgroups : Typ → β
  areas : List (AreaFile × Step β)
  history : List (HistoryFile × Step β)

inductive Command (β : Type) where
  | build (generation : String) (timestamp : Option ℤ) (sequence : Option ℤ)
      (files : List (TableFile × β))
  | update (f : Fetched)
  | areas (cells : List (Cell × β)) (index wayIndex : β)
  | historyInit (history : HistoryLayout β)
  | historyBuild (history : HistoryLayout β)
  | compact (generation : Option String) (result : Compacted β)

/-- `osmpq areas` over a manifest. -/
def areasPlan (m : Manifest) (cells : List (Cell × β)) (index wayIndex : β) : Plan β :=
  let files : List (AreaFile × β) :=
    cells.map (fun c => (.cell c.1, c.2)) ++ [(.index, index), (.wayIndex, wayIndex)]
  ⟨writeFiles (.area m.generation) files,
    some { m with areas := some (pathsOf (.area m.generation) files) }⟩

def historyPlan (m : Manifest) (name : ℕ → String) (x : HistoryLayout β) : Plan β :=
  ⟨writeFiles (.history m.generation) (x.files name), some { m with
    history := some ⟨m.generation, pathsOf (.history m.generation) (x.files name), fun _ => none⟩ }⟩

/-- Compaction into a generation. -/
def compactPlan (m : Manifest) (generation : String) (x : Compacted β) : Plan β :=
  let groups : List (TableFile × β) := types.map fun t => (.rowgroups t, x.rowgroups t)
  ⟨stepOps (.table generation) x.tables ++ writeFiles (.table generation) groups ++
      (m.areas.elim [] fun _ => stepOps (.area generation) x.areas) ++
      (m.history.elim [] fun _ => stepOps (.history generation) x.history),
    some { m with
      generation
      files := stepPaths (.table generation) x.tables ++ pathsOf (.table generation) groups
      areas := m.areas.map fun _ => stepPaths (.area generation) x.areas
      deltas := fun _ => none
      history := m.history.map fun _ =>
        ⟨generation, stepPaths (.history generation) x.history, fun _ => none⟩ }⟩

/-- The generation that compaction writes. -/
def newGeneration (n : ℕ) (generation : Option String) : String :=
  generation.getD ("g" ++ zeroPad 4 (n + 1))

section Execute

-- what a run resolves, from what it has read
variable (resolve : View β → Fetched → HistoryRun)

/-- What a command does on a root with this view. It does nothing where it refuses to start or a
tier cannot be read. -/
def planOf (v : Option (View β)) : Command β → Plan β
  | .build generation timestamp sequence files =>
    ⟨writeFiles (.table generation) files,
      some ⟨generation, timestamp, sequence, pathsOf (.table generation) files, none, fun _ => none,
        none⟩⟩
  | .update f =>
    if f.diffs = [] then ⟨[], none⟩
    else
      ((v.bind fun v => (loadDeltas v).map fun d => runPlan v d (resolve v f))).getD ⟨[], none⟩
  | .areas cells index wayIndex => v.elim ⟨[], none⟩ fun v =>
    areasPlan v.manifest cells index wayIndex
  | .historyInit x =>
    v.elim ⟨[], none⟩ fun v =>
      if v.manifest.history.isSome || [Tier.hour, .day, .week].any fun t =>
        (v.manifest.deltas t).isSome
      then ⟨[], none⟩
      else historyPlan v.manifest (fun k => "part-" ++ toString k) x
  | .historyBuild x =>
    v.elim ⟨[], none⟩ fun v => historyPlan v.manifest (fun k => "part-" ++ zeroPad 5 k) x
  | .compact generation x =>
    v.elim ⟨[], none⟩ fun v => compactPlan v.manifest (newGeneration v.number generation) x

def opsOf (s : Root β) (c : Command β) : Ops β :=
  (planOf resolve (view s) c).ops ((latestNumber s).getD 0)

/-- The roots that commands reach, each run to its end or stopped after some of its operations. -/
inductive Reachable : Root β → Prop where
  | empty : Reachable fun _ => none
  | step (s : Root β) (c : Command β) (k : ℕ) (h : Reachable s) :
      Reachable (actAll s ((opsOf resolve s c).take k))

end Execute

end OsmParquet.Layout
