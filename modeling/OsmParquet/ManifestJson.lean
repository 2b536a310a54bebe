import OsmParquet.JsonValues

/-!
Manifests as JSON: writing, loading, and the paths in them.

Fields were added to the manifest over time, and a manifest is written with the fields of its
version only. Some commands load a manifest into a record and write a new record; others change the
JSON they read and set the version on their own. Whichever commands have been run, a published
manifest has a version high enough for the fields that are not empty in it, so that loading and
writing it again loses nothing; and the paths that garbage collection finds in the JSON are those
that validation finds in the record.
-/

namespace OsmParquet.ManifestJson

open OsmParquet.JsonValues

/-! ### The record -/

structure Manifest where
  generation : Json
  timestampOsmBase : Json
  source : Json
  extent : Json
  leafCells : Json
  tables : Json
  byid : Json
  index : Json
  promotedKeys : Json
  replicationSequence : Json
  manifestVersion : Json
  schemaVersion : Json
  coordinateScale : Json
  ancestorDepths : Json
  maxDepth : Json
  rowgroupIndex : Json
  producer : Json
  stats : Json
  replicationSource : Json
  deltas : Json
  areas : Json
  history : Json

def defaultPromotedKeys : Json :=
  .arr (["amenity", "shop", "highway", "building", "name", "natural", "landuse",
    "leisure", "railway", "waterway", "place", "tourism"].map .str)

/-- The fields of every version. -/
def baseFields (m : Manifest) : Fields :=
  [("manifest_version", m.manifestVersion), ("generation", m.generation),
    ("schema_version", m.schemaVersion), ("coordinate_scale", m.coordinateScale),
    ("promoted_keys", m.promotedKeys), ("timestamp_osm_base", m.timestampOsmBase),
    ("replication_sequence", m.replicationSequence), ("source", m.source), ("extent", m.extent),
    ("leaf_cells", m.leafCells), ("tables", m.tables), ("byid", m.byid), ("index", m.index)]

def toDict (m : Manifest) : Except String Json := do
  let v2 := if ← atLeast 2 m.manifestVersion then
    [("ancestor_depths", m.ancestorDepths), ("max_depth", m.maxDepth),
      ("rowgroup_index", m.rowgroupIndex), ("producer", m.producer), ("stats", m.stats)] else []
  let v3 := if ← atLeast 3 m.manifestVersion then
    [("replication_source", m.replicationSource), ("deltas", m.deltas)] else []
  let v4 := if ← atLeast 4 m.manifestVersion then [("areas", m.areas)] else []
  let v5 := if ← atLeast 5 m.manifestVersion then [("history", m.history)] else []
  return .obj (baseFields m ++ v2 ++ v3 ++ v4 ++ v5)

def fromDict (d : Json) : Except String Manifest := do
  return {
    generation := ← getItem "generation" d
    timestampOsmBase := ← getItem "timestamp_osm_base" d
    source := ← getItem "source" d
    extent := ← getItem "extent" d
    leafCells := ← getItem "leaf_cells" d
    tables := ← get "tables" (.obj []) d
    byid := ← get "byid" (.obj []) d
    index := ← get "index" (.obj []) d
    promotedKeys := ← get "promoted_keys" defaultPromotedKeys d
    replicationSequence := ← get "replication_sequence" .null d
    manifestVersion := ← get "manifest_version" (.int 1) d
    schemaVersion := ← get "schema_version" (.int 1) d
    coordinateScale := ← get "coordinate_scale" (.int 10000000) d
    ancestorDepths := ← get "ancestor_depths" .null d
    maxDepth := ← get "max_depth" .null d
    rowgroupIndex := ← get "rowgroup_index" (.obj []) d
    producer := ← get "producer" (.obj []) d
    stats := ← get "stats" (.obj []) d
    replicationSource := ← get "replication_source" .null d
    deltas := ← get "deltas" (.obj []) d
    areas := ← get "areas" (.obj []) d
    history := ← get "history" .null d }

/-! ### Paths -/

/-- The path of a file entry, where it has to be there. -/
def entryPath (entry : Json) : Except String (List Json) := do return [← getItem "path" entry]

def kindPath (entry : Json) (part : String) : Except String (List Json) := do
  if truthy (← get part .null entry) then entryPath (← getItem part entry) else return []

/-- The paths of one cell of a table: nodes have a file for each of two kinds. -/
def cellPaths (entry : Json) : Except String (List Json) := do
  if ← hasKey "path" entry then entryPath entry else collect (kindPath entry) ["tagged", "untagged"]

/-- The paths of lists of parts. -/
def partPaths (tables : Json) : Except String (List Json) := do
  collect (fun parts => do collect entryPath (← elems parts)) (← values tables)

/-- The path of an entry, where there is one. -/
def pathIfAny (entry : Json) : Except String (List Json) := do
  if truthy entry then
    let path ← get "path" .null entry
    return if truthy path then [path] else []
  else return []

/-- The files of a table in a tier of the record: a text, or an object of texts. -/
def tableFiles : Json → Except String (List Json)
  | .obj kinds => .ok ((kinds.map (·.2)).filter truthy)
  | path => .ok (if truthy path then [path] else [])

def tierFiles (entry : Json) : Except String (List Json) := do
  collect tableFiles (← values (← get "files" (.obj []) entry))

/-- The paths of the areas of a record. -/
def areaPaths (areas : Json) : Except String (List Json) := do
  if truthy areas then
    let index ← pathIfAny (← get "index" .null areas)
    let wayIndex ← pathIfAny (← get "way_index" .null areas)
    let cells ← collect (fun entry => do
      let path ← get "path" .null entry
      return if truthy path then [path] else []) (← values (← get "cells" (.obj []) areas))
    return index ++ wayIndex ++ cells
  else return []

/-- The paths of the history of a record. -/
def historyPaths (history : Json) : Except String (List Json) := do
  if truthy history then
    let spatial ← collect partPaths (← values (← get "spatial" (.obj []) history))
    let byid ← partPaths (← get "byid" (.obj []) history)
    let tiers ← collect tierFiles (← values (← get "tiers" (.obj []) history))
    return spatial ++ byid ++ tiers
  else return []

/-- Every path of a record. -/
def allPaths (m : Manifest) : Except String (List Json) := do
  let tables ← collect (fun spec => do
    collect cellPaths (← values (← get "cells" (.obj []) spec))) (← values m.tables)
  let byid ← partPaths m.byid
  let index ← partPaths m.index
  let rowgroups ← values m.rowgroupIndex
  let areas ← areaPaths m.areas
  let deltas ← collect tierFiles (← values m.deltas)
  let history ← historyPaths m.history
  return tables ++ byid ++ index ++ rowgroups ++ areas ++ deltas ++ history

/-- `d.get(k) or {}`. -/
def getOrEmpty (k : String) (d : Json) : Except String Json := do
  return orElse (← get k .null d) (.obj [])

/-- The files of a table in a delta tier of the JSON: a text, or an object of texts. -/
def deltaTableFiles : Json → Except String (List Json)
  | .obj kinds => .ok (kinds.map (·.2))
  | .str path => .ok [.str path]
  | _ => .ok []

def deltaFiles (tierInfo : Json) : Except String (List Json) := do
  collect deltaTableFiles (← values (← getOrEmpty "files" tierInfo))

/-- The files of a type in a history tier of the JSON: an object of texts. -/
def historyTypeFiles (typFiles : Json) : Except String (List Json) := do
  return (← values (orElse typFiles (.obj []))).filter truthy

def historyTierFiles (tierEntry : Json) : Except String (List Json) := do
  collect historyTypeFiles (← values (← getOrEmpty "files" tierEntry))

/-- The paths of the areas in the JSON. -/
def areaReferences (areas : Json) : Except String (List Json) := do
  let index ← if truthy (← get "index" .null areas) then
    entryPath (← getItem "index" areas) else pure []
  let wayIndex ← if truthy (← get "way_index" .null areas) then
    entryPath (← getItem "way_index" areas)
    else pure []
  let cells ← collect (fun entry => do if ← hasKey "path" entry then entryPath entry else return [])
    (← values (← getOrEmpty "cells" areas))
  return index ++ wayIndex ++ cells

/-- The paths of the history in the JSON. -/
def historyReferences (history : Json) : Except String (List Json) := do
  let spatial ← collect partPaths (← values (← getOrEmpty "spatial" history))
  let byid ← partPaths (← getOrEmpty "byid" history)
  let tiers ← collect historyTierFiles (← values (← getOrEmpty "tiers" history))
  return spatial ++ byid ++ tiers

/-- Every path of the JSON of a manifest. -/
def referencedPaths (man : Json) : Except String (List Json) := do
  let tables ← collect (fun spec => do
    collect cellPaths (← values (← getOrEmpty "cells" spec))) (← values (← getOrEmpty "tables" man))
  let byid ← partPaths (← getOrEmpty "byid" man)
  let index ← partPaths (← getOrEmpty "index" man)
  let rowgroups ← values (← getOrEmpty "rowgroup_index" man)
  let areas ← areaReferences (← getOrEmpty "areas" man)
  let deltas ← collect deltaFiles (← values (← getOrEmpty "deltas" man))
  let history ← historyReferences (← getOrEmpty "history" man)
  return tables ++ byid ++ index ++ rowgroups ++ areas ++ deltas ++ history

/-! ### What the commands put into a manifest -/

/-- A file: its path, and what else is said of it. -/
structure FileEntry where
  path : String
  fields : Fields

def FileEntry.json (e : FileEntry) : Json := .obj (("path", .str e.path) :: e.fields)

/-- A cell of a table: one file, or the files of the tagged and of the untagged nodes. -/
inductive CellEntry where
  | flat (file : FileEntry)
  | node (tagged untagged : Option FileEntry)

def CellEntry.json : CellEntry → Json
  | .flat file => file.json
  | .node tagged untagged => .obj (tagged.toList.map (fun file => ("tagged", file.json)) ++
      untagged.toList.map fun file => ("untagged", file.json))

abbrev Table := List (String × CellEntry)

def tableJson (cells : Table) : Json :=
  .obj [("cells", .obj (cells.map fun c => (c.1, c.2.json)))]

def tablesJson (tables : List (String × Table)) : Json :=
  .obj (tables.map fun t => (t.1, tableJson t.2))

def partsJson (parts : List FileEntry) : Json := .arr (parts.map FileEntry.json)

def partTablesJson (tables : List (String × List FileEntry)) : Json :=
  .obj (tables.map fun t => (t.1, partsJson t.2))

/-- The paths of the row group index. -/
def rowgroupJson (generation : String) : Json :=
  .obj [("node", .str s!"index/{generation}/rowgroups/node.parquet"),
    ("way", .str s!"index/{generation}/rowgroups/way.parquet"),
    ("relation", .str s!"index/{generation}/rowgroups/relation.parquet")]

/-- What is known of the files of areas once they are written. -/
structure AreaFiles where
  indexRows : Json
  indexBytes : Json
  wayRows : Json
  wayBytes : Json
  cells : List (String × Fields)

def areaCellJson (generation cell : String) (fields : Fields) : Json :=
  .obj (("path", .str s!"spatial/{generation}/area/cell={cell}/part-0.parquet") :: fields)

def areasJson (generation : String) (a : AreaFiles) : Json :=
  .obj [("index", .obj [("path", .str s!"index/{generation}/areas.parquet"), ("rows", a.indexRows),
      ("bytes", a.indexBytes)]),
    ("cells", .obj (a.cells.map fun c => (c.1, areaCellJson generation c.1 c.2))),
    ("way_index", .obj [("path", .str s!"index/{generation}/way_areas.parquet"),
      ("rows", a.wayRows), ("bytes", a.wayBytes)])]

/-- What is known of a tier once its files are written. -/
structure TierMeta where
  version : ℤ
  seqFrom : Json
  seqTo : Json
  timestamp : Json
  rows : Json
  cells : Json

def TierMeta.json (t : TierMeta) (files : Json) : Json :=
  .obj [("version", .int t.version), ("seq_from", t.seqFrom), ("seq_to", t.seqTo),
    ("timestamp", t.timestamp), ("rows", t.rows), ("cells", t.cells), ("files", files)]

def typeFiles (dir typ : String) : String × Json :=
  (typ, .obj [("spatial", .str s!"{dir}/{typ}.spatial.parquet"),
    ("byid", .str s!"{dir}/{typ}.byid.parquet")])

def deltaTier (generation tier : String) (t : TierMeta) : Json :=
  let dir := s!"delta/{generation}/{tier}/{t.version}"
  t.json (.obj [typeFiles dir "node", typeFiles dir "way", typeFiles dir "relation",
    ("tombstones", .str s!"{dir}/tombstones.parquet")])

def historyTier (generation tier : String) (t : TierMeta) : Json :=
  let dir := s!"history/{generation}/tier/{tier}/{t.version}"
  t.json (.obj [typeFiles dir "node", typeFiles dir "way", typeFiles dir "relation"])

structure HistoryField where
  generation : Json
  since : Json
  minorVersions : Json
  spatial : List (String × List (String × List FileEntry))
  byid : List (String × List FileEntry)
  tiers : Fields
  stats : Json

def HistoryField.json (h : HistoryField) : Json :=
  .obj [("generation", h.generation), ("since", h.since), ("minor_versions", h.minorVersions),
    ("spatial", .obj (h.spatial.map fun t => (t.1, partTablesJson t.2))),
    ("byid", partTablesJson h.byid), ("tiers", .obj h.tiers), ("stats", h.stats)]

/-! ### The commands -/

/-- A generation is a text. -/
def generationText : Json → String
  | .str s => s
  | _ => ""

/-- What a build has when it comes to the manifest. -/
structure BuildData where
  generation : String
  timestampOsmBase : Json
  source : Json
  extent : Json
  leafCells : Json
  nodeTable : Table
  wayTable : Table
  relationTable : Table
  nodeByid : List FileEntry
  wayByid : List FileEntry
  relationByid : List FileEntry
  nodeWay : List FileEntry
  member : List FileEntry
  promotedKeys : Json
  replicationSequence : Json
  ancestorDepths : Json
  maxDepth : Json
  producerRaw : Json
  stats : Fields
  areas : Option AreaFiles

/-- The manifest of a build before areas are derived. -/
def buildManifest (b : BuildData) : Manifest where
  generation := .str b.generation
  timestampOsmBase := b.timestampOsmBase
  source := b.source
  extent := b.extent
  leafCells := b.leafCells
  tables := tablesJson [("node", b.nodeTable), ("way", b.wayTable), ("relation", b.relationTable)]
  byid := partTablesJson [("node", b.nodeByid), ("way", b.wayByid), ("relation", b.relationByid)]
  index := partTablesJson [("node_way", b.nodeWay), ("member", b.member)]
  promotedKeys := b.promotedKeys
  replicationSequence := b.replicationSequence
  manifestVersion := .int 2
  schemaVersion := .int 1
  coordinateScale := .int 10000000
  ancestorDepths := b.ancestorDepths
  maxDepth := b.maxDepth
  rowgroupIndex := rowgroupJson b.generation
  producer := .obj [("raw", b.producerRaw), ("build", .str "osmpq 0.1.0")]
  stats := .obj b.stats
  replicationSource := .null
  deltas := .obj []
  areas := .obj []
  history := .null

def buildFromRaw (b : BuildData) : Except String Manifest :=
  let man := buildManifest b
  match b.areas with
  | none => return man
  | some a => do
    let areas := areasJson b.generation a
    let stats ← setItem "areas" (← getItem "rows" (← getItem "index" areas)) man.stats
    let stats ← setItem "way_areas" (← getItem "rows" (← getItem "way_index" areas)) stats
    return { man with areas := areas, manifestVersion := .int 4, stats := stats }

/-- What a run of the updater has: the tiers it has written, and those of the history when there are
rows for it. -/
structure UpdateData where
  batchTimestamp : Json
  lastSeq : Json
  source : Json
  tiers : List (String × TierMeta)
  historyTiers : Option (List (String × TierMeta))

def writeTiers (man : Manifest) (tiers : List (String × TierMeta)) : Except String Json := do
  let old ← dict (orElse man.deltas (.obj []))
  return .obj (tiers.foldl (fun d t =>
    setKey d t.1 (deltaTier (generationText man.generation) t.1 t.2)) old)

def writeHistoryTiers (man : Manifest) (tiers : List (String × TierMeta)) : Except String Json := do
  let hist := orElse man.history (.obj [])
  let generation := orElse (← get "generation" .null hist) man.generation
  let old ← dict (orElse (← get "tiers" .null hist) (.obj []))
  setItem "tiers" (.obj (tiers.foldl (fun d t =>
    setKey d t.1 (historyTier (generationText generation) t.1 t.2)) old)) hist

def isNull : Json → Bool
  | .null => true
  | _ => false

/-- The history after a run. It changes only when there is one and there are rows for it. -/
def newHistory (man : Manifest) (tiers : Option (List (String × TierMeta))) : Except String Json :=
  match tiers with
  | some tiers => if isNull man.history then .ok man.history else writeHistoryTiers man tiers
  | none => .ok man.history

def newManifestVersion (man : Manifest) (history : Json) : Except String Json := do
  let version ← maxInt 3 man.manifestVersion
  if isNull history then return version else maxInt 5 version

def runOnce (man : Manifest) (u : UpdateData) : Except String Manifest := do
  let deltas ← writeTiers man u.tiers
  let history ← newHistory man u.historyTiers
  let version ← newManifestVersion man history
  return { man with
    timestampOsmBase := orElse u.batchTimestamp man.timestampOsmBase
    replicationSequence := u.lastSeq
    manifestVersion := version
    ancestorDepths := orElse man.ancestorDepths (.arr [.int 0, .int 3, .int 6, .int 9, .int 12])
    maxDepth := orElse man.maxDepth (.int 13)
    replicationSource := orElse u.source man.replicationSource
    deltas := deltas
    history := history }

/-- `osmpq areas`, which changes the JSON. -/
def buildAreas (oldMan : Json) (a : AreaFiles) : Except String Json := do
  let areas := areasJson (generationText (← getItem "generation" oldMan)) a
  let newMan ← setItem "manifest_version" (← maxInt 4
    (← get "manifest_version" (.int 1) oldMan)) oldMan
  let newMan ← setItem "areas" areas newMan
  let stats ← dict (orElse (← get "stats" .null newMan) (.obj []))
  let stats := setKey stats "areas" (← getItem "rows" (← getItem "index" areas))
  let stats := setKey stats "way_areas" (← getItem "rows" (← getItem "way_index" areas))
  setItem "stats" (.obj stats) newMan

/-- What a history build has when it comes to the manifest. -/
structure HistoryData where
  since : Json
  spatial : List (String × List (String × List FileEntry))
  byid : List (String × List FileEntry)
  stats : Json

def HistoryData.fragment (h : HistoryData) (generation : Json) : Json :=
  HistoryField.json ⟨generation, h.since, .bool true, h.spatial, h.byid, [], h.stats⟩

def historyBuild (man : Manifest) (h : HistoryData) : Except String Manifest := do
  return { man with
    manifestVersion := .int 5
    producer := .obj (setKey (← dict man.producer) "history" (.str "osmpq history build"))
    history := h.fragment man.generation }

/-- The history of a dataset that begins now. It is refused where there are tiers or a history. -/
def historyInit (man : Manifest) (h : HistoryData) : Except String Manifest :=
  if truthy man.history then .error "manifest already carries history"
  else if truthy man.deltas then .error "manifest has delta tiers"
  else do
    return { man with
      manifestVersion := .int 5
      producer := .obj
        (setKey (← dict (orElse man.producer (.obj []))) "history" (.str "osmpq history init"))
      history := h.fragment man.generation }

/-- What a compaction has when it comes to the manifest. -/
structure CompactData where
  generation : String
  nodeTable : Table
  wayTable : Table
  relationTable : Table
  nodeByid : List FileEntry
  wayByid : List FileEntry
  relationByid : List FileEntry
  nodeWay : List FileEntry
  member : List FileEntry
  areas : AreaFiles
  historySpatial : List (String × List (String × List FileEntry))
  historyByid : List (String × List FileEntry)
  historyStats : Json
  stats : Fields

/-- The areas of the new generation, when there is an index of areas. -/
def compactAreas (oldMan : Json) (c : CompactData) : Except String (Option Json) := do
  let oldAreas ← getOrEmpty "areas" oldMan
  if truthy (← get "index" .null oldAreas) then return some (areasJson c.generation c.areas)
  else return none

def compactHistory (oldMan : Json) (c : CompactData) : Except String (Option Json) := do
  let old ← get "history" .null oldMan
  if truthy old then
    return some (HistoryField.json ⟨.str c.generation, ← get "since" .null old,
      ← get "minor_versions" (.bool true) old, c.historySpatial, c.historyByid, [], c.historyStats⟩)
  else return none

/-- The JSON with the files of the new generation. -/
def compactTables (oldMan : Json) (c : CompactData) : Except String Json := do
  let newMan ← setItem "generation" (.str c.generation) oldMan
  let newMan ← setItem "manifest_version" (.int 3) newMan
  let newMan ← setItem "deltas" (.obj []) newMan
  let newMan ← setItem "tables"
    (tablesJson [("node", c.nodeTable), ("way", c.wayTable), ("relation", c.relationTable)]) newMan
  let newMan ← setItem "byid"
    (partTablesJson [("node", c.nodeByid), ("way", c.wayByid), ("relation", c.relationByid)]) newMan
  let newMan ← setItem "index" (partTablesJson [("node_way", c.nodeWay),
    ("member", c.member)]) newMan
  setItem "rowgroup_index" (rowgroupJson c.generation) newMan

def putAreas (areas : Option Json) (newMan : Json) : Except String Json :=
  match areas with
  | some areas => do setItem "manifest_version" (.int 4) (← setItem "areas" areas newMan)
  | none => .ok newMan

def putHistory (history : Option Json) (newMan : Json) : Except String Json :=
  match history with
  | some history => do
    let newMan ← setItem "history" history newMan
    setItem "manifest_version" (← maxInt 5 (← getItem "manifest_version" newMan)) newMan
  | none => .ok newMan

def compactStats (areas : Option Json) (stats : Fields) : Except String Fields :=
  match areas with
  | some areas => do
    let stats := setKey stats "areas" (← getItem "rows" (← getItem "index" areas))
    return setKey stats "way_areas" (← getItem "rows" (← getItem "way_index" areas))
  | none => .ok stats

/-- `osmpq compact`, which changes the JSON. -/
def compact (oldMan : Json) (c : CompactData) : Except String Json := do
  let newMan ← compactTables oldMan c
  let areas ← compactAreas oldMan c
  let newMan ← putAreas areas newMan
  let newMan ← putHistory (← compactHistory oldMan c) newMan
  setItem "stats" (.obj (← compactStats areas c.stats)) newMan

/-- The manifests that any sequence of commands publishes. The latest one is what a command loads,
as a record or as it is. -/
inductive Published : Json → Prop
  | build (b : BuildData) {man : Manifest} {new : Json} (h : buildFromRaw b = .ok man)
      (hd : toDict man = .ok new) : Published new
  | update {old new : Json} {man man' : Manifest} (u : UpdateData) (hp : Published old)
      (hl : fromDict old = .ok man) (h : runOnce man u = .ok man') (hd : toDict man' = .ok new) :
      Published new
  | areas {old new : Json} (a : AreaFiles) (hp : Published old) (h : buildAreas old a = .ok new) :
      Published new
  | historyBuild {old new : Json} {man man' : Manifest} (x : HistoryData) (hp : Published old)
      (hl : fromDict old = .ok man) (h : historyBuild man x = .ok man')
      (hd : toDict man' = .ok new) : Published new
  | historyInit {old new : Json} {man man' : Manifest} (x : HistoryData) (hp : Published old)
      (hl : fromDict old = .ok man) (h : historyInit man x = .ok man')
      (hd : toDict man' = .ok new) : Published new
  | compact {old new : Json} (c : CompactData) (hp : Published old) (h : compact old c = .ok new) :
      Published new

/-! ### Loading -/

/-- What loading reads out of an object. -/
structure Loads (fields : Fields) (m : Manifest) : Prop where
  generation : lookup fields "generation" = some m.generation
  timestampOsmBase : lookup fields "timestamp_osm_base" = some m.timestampOsmBase
  source : lookup fields "source" = some m.source
  extent : lookup fields "extent" = some m.extent
  leafCells : lookup fields "leaf_cells" = some m.leafCells
  tables : (lookup fields "tables").getD (.obj []) = m.tables
  byid : (lookup fields "byid").getD (.obj []) = m.byid
  index : (lookup fields "index").getD (.obj []) = m.index
  promotedKeys : (lookup fields "promoted_keys").getD defaultPromotedKeys = m.promotedKeys
  replicationSequence : (lookup fields "replication_sequence").getD .null = m.replicationSequence
  manifestVersion : (lookup fields "manifest_version").getD (.int 1) = m.manifestVersion
  schemaVersion : (lookup fields "schema_version").getD (.int 1) = m.schemaVersion
  coordinateScale : (lookup fields "coordinate_scale").getD (.int 10000000) = m.coordinateScale
  ancestorDepths : (lookup fields "ancestor_depths").getD .null = m.ancestorDepths
  maxDepth : (lookup fields "max_depth").getD .null = m.maxDepth
  rowgroupIndex : (lookup fields "rowgroup_index").getD (.obj []) = m.rowgroupIndex
  producer : (lookup fields "producer").getD (.obj []) = m.producer
  stats : (lookup fields "stats").getD (.obj []) = m.stats
  replicationSource : (lookup fields "replication_source").getD .null = m.replicationSource
  deltas : (lookup fields "deltas").getD (.obj []) = m.deltas
  areas : (lookup fields "areas").getD (.obj []) = m.areas
  history : (lookup fields "history").getD .null = m.history

section Loading

variable {fields : Fields} {m : Manifest} {d : Json} {v : ℤ}

lemma fromDict_of_loads (h : Loads fields m) : fromDict (.obj fields) = .ok m := by
  unfold fromDict
  rw [getItem_obj h.generation, getItem_obj h.timestampOsmBase, getItem_obj h.source,
    getItem_obj h.extent, getItem_obj h.leafCells]
  simp only [get_obj, h.tables, h.byid, h.index, h.promotedKeys, h.replicationSequence,
    h.manifestVersion, h.schemaVersion, h.coordinateScale, h.ancestorDepths, h.maxDepth,
    h.rowgroupIndex, h.producer, h.stats, h.replicationSource, h.deltas, h.areas, h.history]
  rfl

lemma bind_ok {α β : Type} {x : Except String α} {f : α → Except String β} {b : β}
    (h : (x >>= f) = .ok b) : ∃ a, x = .ok a ∧ f a = .ok b := by
  cases x with
  | error e => cases h
  | ok a => exact ⟨a, rfl, h⟩

@[simp] lemma ok_bind {α β : Type} {a : α} {f : α → Except String β} : (Except.ok a >>= f) = f a :=
  rfl

end Loading

/-! ### What published manifests are like -/

/-- A record as the commands make it: tables of cells, lists of parts, tiers; and a version that
covers every field that is not empty. -/
structure Shaped (m : Manifest) (v : ℤ) : Prop where
  version : m.manifestVersion = .int v
  two : 2 ≤ v
  generation : ∃ s, m.generation = .str s
  tables : ∃ ts, m.tables = tablesJson ts
  byid : ∃ ps, m.byid = partTablesJson ps
  index : ∃ ps, m.index = partTablesJson ps
  rowgroups : ∃ g, m.rowgroupIndex = rowgroupJson g
  producer : ∃ fields, m.producer = .obj fields
  stats : ∃ fields, m.stats = .obj fields
  source : m.replicationSource = .null ∨ 3 ≤ v
  deltas : ∃ fields, m.deltas = .obj fields ∧ (fields = [] ∨ 3 ≤ v) ∧
    ∀ entry ∈ fields, ∃ g tier t, entry.2 = deltaTier g tier t
  areas : m.areas = .obj [] ∨ 4 ≤ v ∧ ∃ g a, m.areas = areasJson g a
  history : m.history = .null ∨ 5 ≤ v ∧ ∃ h : HistoryField, m.history = h.json ∧
    ∀ entry ∈ h.tiers, ∃ g tier t, entry.2 = historyTier g tier t

section RoundTrip

variable {m : Manifest} {v : ℤ}

lemma atLeast_int (k v : ℤ) : atLeast k (.int v) = .ok (decide (k ≤ v)) := rfl

/-- What is written with a version of at least two. -/
lemma toDict_eq (hv : m.manifestVersion = .int v) (h2 : 2 ≤ v) :
    toDict m = .ok (.obj (baseFields m ++
      [("ancestor_depths", m.ancestorDepths), ("max_depth", m.maxDepth),
        ("rowgroup_index", m.rowgroupIndex), ("producer", m.producer), ("stats", m.stats)] ++
      (bif 3 ≤ v then [("replication_source", m.replicationSource),
        ("deltas", m.deltas)] else []) ++
      (bif 4 ≤ v then [("areas", m.areas)] else []) ++
      (bif 5 ≤ v then [("history", m.history)] else []))) := by
  have hbif : ∀ (b : Bool) (xs : Fields), (bif b then xs else []) = if b =
      true then xs else [] := by
    intro b xs
    cases b <;> rfl
  unfold toDict
  rw [hv, atLeast_int, atLeast_int, atLeast_int, atLeast_int, decide_eq_true h2]
  simp only [hbif]
  rfl

lemma lookup_cond (b : Bool) (xs : Fields) (k : String) :
    lookup (bif b then xs else []) k = bif b then lookup xs k else none := by
  cases b <;> rfl

/-- A field that is written from some version on is read back, where it is empty before. -/
lemma getD_cond {b : Bool} {x d : Json} (h : b = true ∨ x = d) :
    (bif b then some x else none).getD d = x := by
  rcases h with rfl | rfl
  · rfl
  · cases b <;> rfl

/-- **A version that covers the fields loses nothing.** -/
lemma loads_toDict (h : Shaped m v) : ∃ fields, toDict m = .ok (.obj fields) ∧ Loads fields m := by
  obtain ⟨ds, hdeltas, hds, -⟩ := h.deltas
  have hsource : decide (3 ≤ v) = true ∨ m.replicationSource = .null :=
    h.source.symm.imp_left decide_eq_true
  have hdeltas : decide (3 ≤ v) = true ∨ m.deltas = .obj [] := by
    rcases hds with hnil | h3
    · exact Or.inr (hnil ▸ hdeltas)
    · exact Or.inl (decide_eq_true h3)
  have hareas : decide (4 ≤ v) = true ∨ m.areas = .obj [] :=
    h.areas.symm.imp_left fun h => decide_eq_true h.1
  have hhistory : decide (5 ≤ v) = true ∨ m.history = .null :=
    h.history.symm.imp_left fun h => decide_eq_true h.1
  refine ⟨_, toDict_eq h.version h.two, ?_⟩
  constructor <;> simp only [lookup_append, lookup_cond, baseFields, lookup_cons, lookup_nil,
    String.reduceBEq, cond_true, cond_false, Option.none_or, Option.or_none,
    Bool.cond_self, Option.getD_some]
  case replicationSource => exact getD_cond hsource
  case deltas => exact getD_cond hdeltas
  case areas => exact getD_cond hareas
  case history => exact getD_cond hhistory

end RoundTrip

/-! ### Every command keeps the shape -/

section Commands

variable {m m' : Manifest} {v : ℤ} {fields : Fields} {new : Json}

lemma getItem_rows (g : String) (a : AreaFiles) :
    (getItem "index" (areasJson g a) >>= getItem "rows") = .ok a.indexRows ∧
      (getItem "way_index" (areasJson g a) >>= getItem "rows") = .ok a.wayRows := by
  constructor
  · simp only [areasJson, getItem, lookup_cons, String.reduceBEq, cond_true, cond_false]
    rfl
  · simp only [areasJson, getItem, lookup_cons, String.reduceBEq, cond_true, cond_false]
    rfl

lemma shaped_buildManifest (b : BuildData) : Shaped (buildManifest b) 2 where
  version := rfl
  two := le_rfl
  generation := ⟨_, rfl⟩
  tables := ⟨_, rfl⟩
  byid := ⟨_, rfl⟩
  index := ⟨_, rfl⟩
  rowgroups := ⟨_, rfl⟩
  producer := ⟨_, rfl⟩
  stats := ⟨_, rfl⟩
  source := Or.inl rfl
  deltas := ⟨[], rfl, Or.inl rfl, by simp⟩
  areas := Or.inl rfl
  history := Or.inl rfl

/-- A record of the shape with areas put in and a version that covers them. -/
lemma Shaped.withAreas (h : Shaped m v) {w : ℤ} (hvw : v ≤ w) (hw : 4 ≤ w) (g : String)
    (a : AreaFiles) (stats : Fields) :
    Shaped { m with areas := areasJson g a, manifestVersion := .int w, stats := .obj stats } w where
  version := rfl
  two := h.two.trans hvw
  generation := h.generation
  tables := h.tables
  byid := h.byid
  index := h.index
  rowgroups := h.rowgroups
  producer := h.producer
  stats := ⟨_, rfl⟩
  source := h.source.imp_right fun h => h.trans hvw
  deltas := by
    obtain ⟨ds, h1, h2, h3⟩ := h.deltas
    exact ⟨ds, h1, h2.imp_right fun h => h.trans hvw, h3⟩
  areas := Or.inr ⟨hw, g, a, rfl⟩
  history := h.history.imp_right fun h => ⟨h.1.trans hvw, h.2⟩

lemma shaped_build {b : BuildData} (h : buildFromRaw b = .ok m) : ∃ v, Shaped m v := by
  unfold buildFromRaw at h
  rcases hareas : b.areas with _ | a
  · rw [hareas] at h
    cases h
    exact ⟨2, shaped_buildManifest b⟩
  · rw [hareas] at h
    obtain ⟨hrows, hway⟩ := getItem_rows b.generation a
    obtain ⟨index, hindex, hrows⟩ := bind_ok hrows
    obtain ⟨way, hwayIndex, hway⟩ := bind_ok hway
    simp only [hindex, hwayIndex, ok_bind, hrows, hway] at h
    cases h
    exact ⟨4, (shaped_buildManifest b).withAreas (by decide) le_rfl _ _ _⟩

/-- The entries after keys have been set one after the other. -/
lemma mem_foldl_setKey {α : Type} {xs : List α} {key : α → String} {value : α → Json} {old : Fields}
    {entry : String × Json} (h : entry ∈ xs.foldl (fun d x => setKey d (key x) (value x)) old) :
    entry ∈ old ∨ ∃ x ∈ xs, entry = (key x, value x) := by
  induction xs generalizing old with
  | nil => exact Or.inl h
  | cons x xs ih =>
    rcases ih h with h | ⟨y, hy, h⟩
    · rcases mem_setKey h with h | h
      · exact Or.inr ⟨x, List.mem_cons_self, h⟩
      · exact Or.inl h
    · exact Or.inr ⟨y, List.mem_cons_of_mem _ hy, h⟩

lemma writeTiers_ok {ds : Fields} (hds : m.deltas = .obj ds)
    (hold : ∀ entry ∈ ds, ∃ g tier t, entry.2 = deltaTier g tier t)
    (tiers : List (String × TierMeta)) : ∃ ds', writeTiers m tiers = .ok (.obj ds') ∧
      ∀ entry ∈ ds', ∃ g tier t, entry.2 = deltaTier g tier t := by
  unfold writeTiers
  rw [hds, orElse_obj]
  refine ⟨_, rfl, fun entry hentry => ?_⟩
  rcases mem_foldl_setKey hentry with h | ⟨t, -, h⟩
  · exact hold entry h
  · exact ⟨_, t.1, t.2, by rw [h]⟩

lemma writeHistoryTiers_ok {x : HistoryField} (hx : m.history = x.json)
    (hold : ∀ entry ∈ x.tiers, ∃ g tier t, entry.2 = historyTier g tier t)
    (tiers : List (String × TierMeta)) :
    ∃ x' : HistoryField, writeHistoryTiers m tiers = .ok x'.json ∧
      ∀ entry ∈ x'.tiers, ∃ g tier t, entry.2 = historyTier g tier t := by
  have hget : get "tiers" .null x.json = .ok (.obj x.tiers) := by
    simp only [HistoryField.json, get_obj, lookup_cons, String.reduceBEq, cond_true, cond_false,
      Option.getD_some]
  have hgen : get "generation" .null x.json = .ok x.generation := by
    simp only [HistoryField.json, get_obj, lookup_cons, String.reduceBEq, cond_true,
      Option.getD_some]
  have hset : ∀ ts : Fields, setItem "tiers" (.obj ts) x.json =
      .ok (HistoryField.json { x with tiers := ts }) := by
    intro ts
    simp only [HistoryField.json, setItem_obj, setKey_cons, String.reduceBEq, cond_true, cond_false]
  have htruthy : orElse x.json (.obj []) = x.json := orElse_of_truthy rfl
  unfold writeHistoryTiers
  rw [hx, htruthy]
  simp only [hget, hgen, ok_bind, orElse_obj]
  refine ⟨_, hset _, fun entry hentry => ?_⟩
  rcases mem_foldl_setKey hentry with h | ⟨t, -, h⟩
  · exact hold entry h
  · exact ⟨_, t.1, t.2, by rw [h]⟩

/-- A run leaves no history where there was none, and else one of the same shape. -/
lemma newHistory_ok (hs : Shaped m v) (tiers : Option (List (String × TierMeta))) :
    ∃ history, newHistory m tiers = .ok history ∧ (history = .null ∨ isNull history = false ∧
      ∃ x : HistoryField, history = x.json ∧ ∀ entry ∈ x.tiers, ∃ g tier t, entry.2 =
        historyTier g tier t) := by
  rcases hs.history with hnull | ⟨-, x, hx, hold⟩
  · refine ⟨.null, ?_, Or.inl rfl⟩
    unfold newHistory
    rw [hnull]
    rcases tiers with _ | tiers <;> rfl
  · rcases tiers with _ | tiers
    · exact ⟨x.json, congrArg Except.ok hx, Or.inr ⟨rfl, x, rfl, hold⟩⟩
    · obtain ⟨y, hy, hynew⟩ := writeHistoryTiers_ok hx hold tiers
      have hsome : isNull m.history = false := by
        rw [hx]
        rfl
      refine ⟨y.json, ?_, Or.inr ⟨rfl, y, rfl, hynew⟩⟩
      rw [newHistory]
      simp only [hsome, Bool.false_eq_true, if_false]
      exact hy

/-- A run goes through on every record of the shape. -/
lemma shaped_update (hs : Shaped m v) (u : UpdateData) :
    ∃ m' v', runOnce m u = .ok m' ∧ Shaped m' v' := by
  obtain ⟨ds, hds, -, hold⟩ := hs.deltas
  obtain ⟨ds', hwrite, hnew⟩ := writeTiers_ok hds hold u.tiers
  obtain ⟨history, hhist, hshape⟩ := newHistory_ok hs u.historyTiers
  obtain ⟨w, hversion, hvw, hthree, hfive⟩ : ∃ w, newManifestVersion m history =
    .ok (.int w) ∧ v ≤ w ∧
      3 ≤ w ∧ (isNull history = false → 5 ≤ w) := by
    rw [newManifestVersion, hs.version]
    rcases hnull : isNull history with _ | _
    · refine ⟨max 5 (max 3 v), rfl, by omega, by omega, fun _ => by omega⟩
    · exact ⟨max 3 v, rfl, by omega, by omega, fun h => by cases h⟩
  unfold runOnce
  simp only [hwrite, hhist, hversion, ok_bind]
  refine ⟨_, w, rfl, rfl, hs.two.trans hvw, hs.generation, hs.tables, hs.byid,
    hs.index, hs.rowgroups, hs.producer, hs.stats, Or.inr hthree,
      ⟨ds', rfl, Or.inr hthree, hnew⟩, ?_, ?_⟩
  · exact hs.areas.imp_right fun h => ⟨h.1.trans hvw, h.2⟩
  · exact hshape.imp_right fun h => ⟨hfive h.1, h.2⟩

/-- A history build makes a record of the last version, which covers every field. -/
lemma Shaped.withHistory (h : Shaped m v) (x : HistoryData) (producer : Fields) :
    Shaped { m with
      manifestVersion := .int 5
      producer := .obj producer
      history := x.fragment m.generation } 5 where
  version := rfl
  two := by decide
  generation := h.generation
  tables := h.tables
  byid := h.byid
  index := h.index
  rowgroups := h.rowgroups
  producer := ⟨_, rfl⟩
  stats := h.stats
  source := Or.inr (by decide)
  deltas := by
    obtain ⟨ds, h1, -, h3⟩ := h.deltas
    exact ⟨ds, h1, Or.inr (by decide), h3⟩
  areas := h.areas.imp_right fun h => ⟨by decide, h.2⟩
  history := Or.inr ⟨le_rfl, _, rfl, by simp⟩

lemma shaped_historyBuild {x : HistoryData} (hs : Shaped m v) (h : historyBuild m x = .ok m') :
    ∃ v', Shaped m' v' := by
  obtain ⟨producer, hproducer⟩ := hs.producer
  unfold historyBuild at h
  rw [hproducer] at h
  cases h
  exact ⟨5, hs.withHistory x _⟩

lemma shaped_historyInit {x : HistoryData} (hs : Shaped m v) (h : historyInit m x = .ok m') :
    ∃ v', Shaped m' v' := by
  obtain ⟨producer, hproducer⟩ := hs.producer
  unfold historyInit at h
  rw [hproducer, orElse_obj] at h
  split at h
  · cases h
  · split at h
    · cases h
    · cases h
      exact ⟨5, hs.withHistory x _⟩

end Commands

/-! ### Changing the JSON -/

/-- A record with the field of a key set to a value. -/
def Manifest.set (m : Manifest) (k : String) (x : Json) : Manifest where
  generation := bif k == "generation" then x else m.generation
  timestampOsmBase := bif k == "timestamp_osm_base" then x else m.timestampOsmBase
  source := bif k == "source" then x else m.source
  extent := bif k == "extent" then x else m.extent
  leafCells := bif k == "leaf_cells" then x else m.leafCells
  tables := bif k == "tables" then x else m.tables
  byid := bif k == "byid" then x else m.byid
  index := bif k == "index" then x else m.index
  promotedKeys := bif k == "promoted_keys" then x else m.promotedKeys
  replicationSequence := bif k == "replication_sequence" then x else m.replicationSequence
  manifestVersion := bif k == "manifest_version" then x else m.manifestVersion
  schemaVersion := bif k == "schema_version" then x else m.schemaVersion
  coordinateScale := bif k == "coordinate_scale" then x else m.coordinateScale
  ancestorDepths := bif k == "ancestor_depths" then x else m.ancestorDepths
  maxDepth := bif k == "max_depth" then x else m.maxDepth
  rowgroupIndex := bif k == "rowgroup_index" then x else m.rowgroupIndex
  producer := bif k == "producer" then x else m.producer
  stats := bif k == "stats" then x else m.stats
  replicationSource := bif k == "replication_source" then x else m.replicationSource
  deltas := bif k == "deltas" then x else m.deltas
  areas := bif k == "areas" then x else m.areas
  history := bif k == "history" then x else m.history

section Changing

variable {m m' : Manifest} {v : ℤ} {fields : Fields} {new : Json}

/-- **Setting a key of the JSON sets a field of the record.** -/
lemma Loads.setKey (h : Loads fields m) (k : String) (x : Json) :
    Loads (setKey fields k x) (m.set k x) := by
  have hsome : ∀ {key : String} {y : Json}, lookup fields key = some y →
      lookup (JsonValues.setKey fields k x) key = some (bif k == key then x else y) := by
    intro key y hy
    rw [lookup_setKey, hy]
    cases k == key <;> rfl
  have hgetD : ∀ {key : String} {d y : Json}, (lookup fields key).getD d = y →
      (lookup (JsonValues.setKey fields k x) key).getD d = bif k == key then x else y := by
    intro key d y hy
    rw [lookup_setKey, ← hy]
    cases k == key <;> rfl
  exact ⟨hsome h.generation, hsome h.timestampOsmBase, hsome h.source, hsome h.extent,
    hsome h.leafCells, hgetD h.tables, hgetD h.byid, hgetD h.index, hgetD h.promotedKeys,
    hgetD h.replicationSequence, hgetD h.manifestVersion, hgetD h.schemaVersion,
    hgetD h.coordinateScale, hgetD h.ancestorDepths, hgetD h.maxDepth, hgetD h.rowgroupIndex,
    hgetD h.producer, hgetD h.stats, hgetD h.replicationSource, hgetD h.deltas, hgetD h.areas,
    hgetD h.history⟩

/-- The version is in the JSON, as it is not the one of a JSON without it. -/
lemma get_version (h : Loads fields m) (hs : Shaped m v) :
    get "manifest_version" (.int 1) (.obj fields) = .ok (.int v) := by
  rw [get_obj, h.manifestVersion, hs.version]

/-- A field that is an object, read with `or {}`. -/
lemma orElse_getD {o : Option Json} {fs : Fields} (h : o.getD (.obj []) = .obj fs) :
    orElse (o.getD .null) (.obj []) = .obj fs := by
  rcases o with _ | x
  · exact h
  · rw [Option.getD_some] at h ⊢
    rw [h, orElse_obj]

lemma loads_areas {a : AreaFiles} (h : Loads fields m) (hs : Shaped m v)
    (hb : buildAreas (.obj fields) a = .ok new) :
    ∃ fields' m' v', new = .obj fields' ∧ Loads fields' m' ∧ Shaped m' v' := by
  obtain ⟨g, hg⟩ := hs.generation
  obtain ⟨stats, hstats⟩ := hs.stats
  obtain ⟨hrows, hway⟩ := getItem_rows g a
  obtain ⟨index, hindex, hrows⟩ := bind_ok hrows
  obtain ⟨way, hwayIndex, hway⟩ := bind_ok hway
  have hmax : maxInt 4 (.int v) = .ok (.int (max 4 v)) := rfl
  have hloads := (h.setKey "manifest_version" (.int (max 4 v))).setKey "areas" (areasJson g a)
  have hset : (m.set "manifest_version" (.int (max 4 v))).set "areas" (areasJson g a) =
      { m with manifestVersion := .int (max 4 v), areas := areasJson g a } := by
    simp only [Manifest.set, String.reduceBEq, cond_true, cond_false]
  rw [hset] at hloads
  have hold := orElse_getD (hloads.stats.trans hstats)
  unfold buildAreas at hb
  rw [getItem_obj h.generation, hg] at hb
  simp only [ok_bind, generationText, get_version h hs, hmax, setItem_obj, get_obj,
    hold, dict, hindex, hwayIndex, hrows, hway] at hb
  have hlast := hloads.setKey "stats"
    (.obj (setKey (setKey stats "areas" a.indexRows) "way_areas" a.wayRows))
  refine ⟨_, _, max 4 v, (Except.ok.inj hb).symm, hlast, ?_⟩
  have hfinal := hs.withAreas (le_max_right 4 v) (le_max_left 4 v) g a
    (setKey (setKey stats "areas" a.indexRows) "way_areas" a.wayRows)
  simpa only [Manifest.set, String.reduceBEq, cond_true, cond_false] using hfinal

/-- Areas are compacted where there are areas. -/
lemma compactAreas_eq (h : Loads fields m) (hs : Shaped m v) (c : CompactData) :
    (m.areas = .obj [] ∧ compactAreas (.obj fields) c = .ok none) ∨
      compactAreas (.obj fields) c = .ok (some (areasJson c.generation c.areas)) := by
  unfold compactAreas getOrEmpty
  rcases hs.areas with hnone | ⟨-, g, a, ha⟩
  · refine Or.inl ⟨hnone, ?_⟩
    simp only [get_obj, ok_bind, orElse_getD (h.areas.trans hnone)]
    rfl
  · refine Or.inr ?_
    rw [areasJson] at ha
    simp only [get_obj, ok_bind, orElse_getD (h.areas.trans ha)]
    rfl

/-- So is the history. -/
lemma compactHistory_eq (h : Loads fields m) (hs : Shaped m v) (c : CompactData) :
    (m.history = .null ∧ compactHistory (.obj fields) c = .ok none) ∨
      ∃ x : HistoryField, x.tiers = [] ∧ compactHistory (.obj fields) c = .ok (some x.json) := by
  unfold compactHistory
  rw [get_obj, h.history]
  rcases hs.history with hnone | ⟨-, x, hx, -⟩
  · rw [hnone]
    exact Or.inl ⟨rfl, rfl⟩
  · rw [hx]
    refine Or.inr ⟨⟨.str c.generation, x.since, x.minorVersions, c.historySpatial,
      c.historyByid, [], c.historyStats⟩, rfl, ?_⟩
    have hsince : get "since" .null x.json = .ok x.since := by
      simp only [HistoryField.json, get_obj, lookup_cons, String.reduceBEq, cond_true, cond_false,
        Option.getD_some]
    have hminor : get "minor_versions" (.bool true) x.json = .ok x.minorVersions := by
      simp only [HistoryField.json, get_obj, lookup_cons, String.reduceBEq, cond_true, cond_false,
        Option.getD_some]
    have htruthy : truthy x.json = true := rfl
    simp only [ok_bind, htruthy, if_true, hsince, hminor]
    rfl

lemma compactTables_eq (h : Loads fields m) (c : CompactData) :
    ∃ fields', compactTables (.obj fields) c = .ok (.obj fields') ∧ Loads fields' { m with
      generation := .str c.generation
      manifestVersion := .int 3
      deltas := .obj []
      tables := tablesJson [("node", c.nodeTable), ("way", c.wayTable),
        ("relation", c.relationTable)]
      byid := partTablesJson [("node", c.nodeByid), ("way", c.wayByid),
        ("relation", c.relationByid)]
      index := partTablesJson [("node_way", c.nodeWay), ("member", c.member)]
      rowgroupIndex := rowgroupJson c.generation } := by
  have hloads := ((((((h.setKey "generation" (.str c.generation)).setKey "manifest_version"
    (.int 3)).setKey "deltas" (.obj [])).setKey "tables"
    (tablesJson [("node", c.nodeTable), ("way", c.wayTable), ("relation", c.relationTable)])).setKey
    "byid" (partTablesJson [("node", c.nodeByid), ("way", c.wayByid),
      ("relation", c.relationByid)])).setKey
    "index" (partTablesJson [("node_way", c.nodeWay), ("member", c.member)])).setKey
    "rowgroup_index" (rowgroupJson c.generation)
  refine ⟨_, rfl, ?_⟩
  simpa only [Manifest.set, String.reduceBEq, cond_true, cond_false] using hloads

lemma putAreas_eq (h : Loads fields m) (areas : Option Json) :
    ∃ fields', putAreas areas (.obj fields) = .ok (.obj fields') ∧ Loads fields' { m with
      manifestVersion := if areas.isSome then .int 4 else m.manifestVersion
      areas := areas.getD m.areas } := by
  rcases areas with _ | areas
  · exact ⟨fields, rfl, h⟩
  · have hloads := (h.setKey "areas" areas).setKey "manifest_version" (.int 4)
    simp only [Manifest.set, String.reduceBEq, cond_true, cond_false] at hloads
    exact ⟨_, rfl, hloads⟩

lemma lookup_version {w : ℤ} (h : Loads fields m) (hw : m.manifestVersion = .int w) (h1 : w ≠ 1) :
    lookup fields "manifest_version" = some (.int w) := by
  have hget := h.manifestVersion.trans hw
  rcases hl : lookup fields "manifest_version" with _ | x
  · rw [hl] at hget
    exact absurd (Json.int.inj hget).symm h1
  · rw [hl] at hget
    exact congrArg some hget

lemma putHistory_eq {w : ℤ} (h : Loads fields m) (hw : m.manifestVersion = .int w) (h1 : w ≠ 1)
    (history : Option Json) :
    ∃ fields', putHistory history (.obj fields) = .ok (.obj fields') ∧ Loads fields' { m with
      manifestVersion := if history.isSome then .int (max 5 w) else m.manifestVersion
      history := history.getD m.history } := by
  rcases history with _ | history
  · exact ⟨fields, rfl, h⟩
  · have hloads := (h.setKey "history" history).setKey "manifest_version" (.int (max 5 w))
    have hversion : getItem "manifest_version" (.obj (setKey fields "history" history)) =
        .ok (.int w) := by
      refine getItem_obj ?_
      rw [lookup_setKey]
      simp only [String.reduceBEq, cond_false]
      exact lookup_version h hw h1
    have hmax : maxInt 5 (.int w) = .ok (.int (max 5 w)) := rfl
    simp only [Manifest.set, String.reduceBEq, cond_true, cond_false] at hloads
    refine ⟨setKey (setKey fields "history" history) "manifest_version" (.int (max 5 w)),
      ?_, hloads⟩
    unfold putHistory
    simp only [setItem_obj, ok_bind, hversion, hmax]

lemma compactStats_eq (g : String) (a : AreaFiles) {areas : Option Json}
    (h : areas = none ∨ areas = some (areasJson g a)) (stats : Fields) :
    ∃ stats', compactStats areas stats = .ok stats' := by
  rcases h with rfl | rfl
  · exact ⟨stats, rfl⟩
  · obtain ⟨hrows, hway⟩ := getItem_rows g a
    obtain ⟨index, hindex, hrows⟩ := bind_ok hrows
    obtain ⟨way, hwayIndex, hway⟩ := bind_ok hway
    unfold compactStats
    simp only [hindex, hwayIndex, ok_bind, hrows, hway]
    exact ⟨_, rfl⟩

lemma loads_compact {c : CompactData} (h : Loads fields m) (hs : Shaped m v)
    (hc : compact (.obj fields) c = .ok new) :
    ∃ fields' m' v', new = .obj fields' ∧ Loads fields' m' ∧ Shaped m' v' := by
  obtain ⟨fields₁, htables, hloads₁⟩ := compactTables_eq h c
  obtain ⟨areas, hareas, hnone⟩ : ∃ areas, compactAreas (.obj fields) c = .ok areas ∧
      (areas = none ∧ m.areas = .obj [] ∨ areas = some (areasJson c.generation c.areas)) := by
    rcases compactAreas_eq h hs c with ⟨hm, ha⟩ | ha
    · exact ⟨none, ha, Or.inl ⟨rfl, hm⟩⟩
    · exact ⟨_, ha, Or.inr rfl⟩
  obtain ⟨history, hhist, hempty⟩ : ∃ history, compactHistory (.obj fields) c = .ok history ∧
      (history = none ∧ m.history = .null ∨
        ∃ x : HistoryField, x.tiers = [] ∧ history = some x.json) := by
    rcases compactHistory_eq h hs c with ⟨hm, ha⟩ | ⟨x, hx, ha⟩
    · exact ⟨none, ha, Or.inl ⟨rfl, hm⟩⟩
    · exact ⟨_, ha, Or.inr ⟨x, hx, rfl⟩⟩
  obtain ⟨fields₂, hput₂, hloads₂⟩ := putAreas_eq hloads₁ areas
  obtain ⟨w, hw, hfour, hw3⟩ : ∃ w : ℤ, (if areas.isSome then Json.int 4 else .int 3) = .int w ∧
      (areas.isSome = true → 4 ≤ w) ∧ 3 ≤ w := by
    rcases areas with _ | areas
    · exact ⟨3, rfl, by simp, le_rfl⟩
    · exact ⟨4, rfl, fun _ => le_rfl, by decide⟩
  obtain ⟨fields₃, hput₃, hloads₃⟩ := putHistory_eq hloads₂ hw (by omega) history
  obtain ⟨stats, hstats⟩ := compactStats_eq c.generation c.areas (hnone.imp_left And.left) c.stats
  unfold compact at hc
  simp only [htables, hareas, hhist, hput₂, hput₃, hstats, ok_bind, setItem_obj] at hc
  have hloads₄ := hloads₃.setKey "stats" (.obj stats)
  simp only [Manifest.set, String.reduceBEq, cond_true, cond_false] at hloads₄
  obtain ⟨w', hw', hfive, hww'⟩ : ∃ w' : ℤ, (if history.isSome then Json.int (max 5 w)
      else if areas.isSome then .int 4 else .int 3) = .int w' ∧
        (history.isSome = true → 5 ≤ w') ∧ w ≤ w' := by
    rcases history with _ | history
    · exact ⟨w, hw, by simp, le_rfl⟩
    · exact ⟨max 5 w, rfl, fun _ => le_max_left _ _, le_max_right _ _⟩
  refine ⟨_, _, w', (Except.ok.inj hc).symm, hloads₄, hw', by omega, ⟨_, rfl⟩, ⟨_, rfl⟩,
    ⟨_, rfl⟩, ⟨_, rfl⟩, ⟨_, rfl⟩, hs.producer, ⟨_, rfl⟩, Or.inr (by omega),
      ⟨[], rfl, Or.inl rfl, by simp⟩, ?_, ?_⟩
  · rcases hnone with ⟨rfl, hm⟩ | rfl
    · exact Or.inl hm
    · exact Or.inr ⟨(hfour rfl).trans hww', _, _, rfl⟩
  · rcases hempty with ⟨rfl, hm⟩ | ⟨x, hx, rfl⟩
    · exact Or.inl hm
    · exact Or.inr ⟨hfive rfl, x, rfl, by simp [hx]⟩

/-- **Every published manifest can be loaded, and its version covers its fields.** -/
lemma published_shaped {j : Json} (h : Published j) :
    ∃ fields m v, j = .obj fields ∧ Loads fields m ∧ Shaped m v := by
  have hwritten : ∀ {m : Manifest} {new : Json}, (∃ v, Shaped m v) → toDict m = .ok new →
      ∃ fields m v, new = .obj fields ∧ Loads fields m ∧ Shaped m v := by
    rintro m new ⟨v, hs⟩ hd
    obtain ⟨fields, hfields, hloads⟩ := loads_toDict hs
    rw [hfields] at hd
    exact ⟨fields, m, v, (Except.ok.inj hd).symm, hloads, hs⟩
  have hsame : ∀ {fields : Fields} {m man : Manifest}, Loads fields m →
      fromDict (.obj fields) = .ok man → man = m := by
    intro fields m man hl hf
    rw [fromDict_of_loads hl] at hf
    exact (Except.ok.inj hf).symm
  induction h with
  | build b h hd => exact hwritten (shaped_build h) hd
  | update u _ hl h hd ih =>
    obtain ⟨fields, m, v, rfl, hloads, hs⟩ := ih
    obtain ⟨m', v', hrun, hs'⟩ := shaped_update hs u
    rw [hsame hloads hl, hrun] at h
    exact hwritten ⟨v', Except.ok.inj h ▸ hs'⟩ hd
  | areas a _ h ih =>
    obtain ⟨fields, m, v, rfl, hloads, hs⟩ := ih
    exact loads_areas hloads hs h
  | historyBuild x _ hl h hd ih =>
    obtain ⟨fields, m, v, rfl, hloads, hs⟩ := ih
    rw [hsame hloads hl] at h
    exact hwritten (shaped_historyBuild hs h) hd
  | historyInit x _ hl h hd ih =>
    obtain ⟨fields, m, v, rfl, hloads, hs⟩ := ih
    rw [hsame hloads hl] at h
    exact hwritten (shaped_historyInit hs h) hd
  | compact c _ h ih =>
    obtain ⟨fields, m, v, rfl, hloads, hs⟩ := ih
    exact loads_compact hloads hs h

end Changing

/-! ### Both walks find the same paths -/

section Paths

variable {m : Manifest} {v : ℤ} {fields : Fields}

lemma entryPath_json (e : FileEntry) : entryPath e.json = .ok [.str e.path] := by
  simp only [entryPath, FileEntry.json, getItem, lookup_cons, beq_self_eq_true, cond_true, ok_bind]
  rfl

lemma cellPaths_json (c : CellEntry) : ∃ paths, cellPaths c.json = .ok paths := by
  cases c with
  | flat file =>
    have hkey : hasKey "path" file.json = .ok true := by
      simp only [FileEntry.json, hasKey, lookup_cons, beq_self_eq_true, cond_true,
        Option.isSome_some]
    simp only [CellEntry.json, cellPaths, hkey, ok_bind, if_true, entryPath_json]
    exact ⟨_, rfl⟩
  | node tagged untagged =>
    rcases tagged with _ | t <;> rcases untagged with _ | u <;>
      simp only [CellEntry.json, cellPaths, hasKey, Option.toList, List.map_nil, List.map_cons,
        List.nil_append, List.cons_append, lookup_cons, lookup_nil, String.reduceBEq,
        cond_false, cond_true, Option.isSome_none, ok_bind, Bool.false_eq_true, if_false, collect,
        kindPath, get_obj, Option.getD_some, Option.getD_none, getItem]
    · exact ⟨_, rfl⟩
    · exact ⟨_, rfl⟩
    · exact ⟨_, rfl⟩
    · exact ⟨_, rfl⟩

lemma partPaths_json (tables : List (String × List FileEntry)) :
    ∃ paths, partPaths (partTablesJson tables) = .ok paths := by
  unfold partPaths partTablesJson
  rw [values_obj, ok_bind, List.map_map, collect_map]
  refine collect_succeeds fun t _ => ?_
  show ∃ paths, collect entryPath (t.2.map FileEntry.json) = .ok paths
  rw [collect_map]
  exact collect_succeeds fun e _ => ⟨_, entryPath_json e⟩

/-- A field that is an object is read from the JSON as from the record. -/
lemma getOrEmpty_obj {k : String} {fs : Fields} (h : (lookup fields k).getD (.obj []) = .obj fs) :
    getOrEmpty k (.obj fields) = .ok (.obj fs) := by
  rw [getOrEmpty, get_obj, ok_bind, orElse_getD h]
  rfl

lemma tables_agree (ts : List (String × Table)) : ∃ paths,
    collect (fun spec => do collect cellPaths (← values (← get "cells" (.obj []) spec)))
      (ts.map fun t => tableJson t.2) = .ok paths ∧
    collect (fun spec => do collect cellPaths (← values (← getOrEmpty "cells" spec)))
      (ts.map fun t => tableJson t.2) = .ok paths := by
  rw [collect_map, collect_map]
  refine collect_agree fun t _ => ?_
  have hlook : lookup [("cells", Json.obj (t.2.map fun c => (c.1, c.2.json)))] "cells" =
      some (.obj (t.2.map fun c => (c.1, c.2.json))) := by
    rw [lookup_cons, beq_self_eq_true, cond_true]
  obtain ⟨paths, hpaths⟩ : ∃ paths, collect (fun c => cellPaths (CellEntry.json c.2))
      t.2 = .ok paths :=
    collect_succeeds fun c _ => cellPaths_json c.2
  refine ⟨paths, ?_, ?_⟩
  · rw [tableJson, get_obj, hlook, ok_bind, Option.getD_some, values_obj, ok_bind,
      List.map_map, collect_map]
    exact hpaths
  · rw [tableJson, getOrEmpty_obj (congrArg (Option.getD · _) hlook), ok_bind, values_obj, ok_bind,
      List.map_map, collect_map]
    exact hpaths

/-- A text that ends in a text that is not empty is not empty. -/
lemma truthy_append (s : String) {t : String} (ht : t ≠ "") : truthy (.str (s ++ t)) = true := by
  exact decide_eq_true fun h => ht (String.append_eq_empty_iff.mp h).2

/-- An entry with a path is read alike by both walks. -/
lemma pathIfAny_obj {path : String} (h : truthy (.str path) = true) (fs : Fields) :
    pathIfAny (.obj (("path", .str path) :: fs)) = .ok [.str path] := by
  unfold pathIfAny
  rw [get_obj, lookup_cons, beq_self_eq_true, cond_true, Option.getD_some, ok_bind, h]
  rfl

/-- The cells of the areas have a path each. -/
lemma areaCells_agree (g : String) (cells : List (String × Fields)) : ∃ paths,
    collect (fun entry => do
      let path ← get "path" .null entry
      return if truthy path then [path] else [])
        (cells.map fun c => areaCellJson g c.1 c.2) = .ok paths ∧
    collect (fun entry => do if ← hasKey "path" entry then entryPath entry else return [])
      (cells.map fun c => areaCellJson g c.1 c.2) = .ok paths := by
  rw [collect_map, collect_map]
  refine collect_agree fun c _ => ⟨[.str s!"spatial/{g}/area/cell={c.1}/part-0.parquet"], ?_, ?_⟩
  · have htruthy : truthy (.str s!"spatial/{g}/area/cell={c.1}/part-0.parquet") = true :=
      truthy_append _ (by decide)
    rw [areaCellJson, get_obj, lookup_cons, beq_self_eq_true, cond_true,
      Option.getD_some, ok_bind, htruthy]
    rfl
  · rw [areaCellJson, hasKey, lookup_cons, beq_self_eq_true, cond_true, ok_bind]
    exact entryPath_json ⟨_, c.2⟩

lemma areas_agree {areas : Json} (h : areas = .obj [] ∨ ∃ g a, areas = areasJson g a) :
    ∃ paths, areaPaths areas = .ok paths ∧ areaReferences areas = .ok paths := by
  rcases h with rfl | ⟨g, a, rfl⟩
  · exact ⟨[], rfl, rfl⟩
  have hindex : truthy (.str s!"index/{g}/areas.parquet") = true := truthy_append _ (by decide)
  have hway : truthy (.str s!"index/{g}/way_areas.parquet") = true := truthy_append _ (by decide)
  obtain ⟨cells, hcells, hcells'⟩ := areaCells_agree g a.cells
  have hvalues : ∀ x : Json, x = .obj (a.cells.map fun c => (c.1, areaCellJson g c.1 c.2)) →
      values x = .ok (a.cells.map fun c => areaCellJson g c.1 c.2) := by
    rintro x rfl
    rw [values_obj, List.map_map]
    rfl
  refine ⟨[.str s!"index/{g}/areas.parquet"] ++ [.str s!"index/{g}/way_areas.parquet"] ++ cells, ?_,
    ?_⟩
  · have htruthy : truthy (areasJson g a) = true := rfl
    unfold areaPaths
    rw [htruthy, if_pos rfl]
    simp only [areasJson, get_obj, lookup_cons, String.reduceBEq, cond_true, cond_false,
      Option.getD_some, ok_bind, pathIfAny_obj hindex, pathIfAny_obj hway, hvalues, hcells]
    rfl
  · unfold areaReferences getOrEmpty
    have hentry : ∀ (path : String) (fs : Fields),
        entryPath (.obj (("path", .str path) :: fs)) = .ok [.str path] := fun path fs =>
      entryPath_json ⟨path, fs⟩
    simp only [areasJson, get_obj, getItem, lookup_cons, String.reduceBEq, cond_true, cond_false,
      Option.getD_some, ok_bind, truthy, List.isEmpty_cons, Bool.not_false, if_true,
      hentry, orElse_obj, pure_bind, hvalues, hcells']
    rfl

/-- The files of a tier. -/
lemma get_files (t : TierMeta) (fs : Fields) :
    get "files" (.obj []) (t.json (.obj fs)) = .ok (.obj fs) ∧
      getOrEmpty "files" (t.json (.obj fs)) = .ok (.obj fs) := by
  have hlook :
      (lookup [("version", Json.int t.version), ("seq_from", t.seqFrom), ("seq_to", t.seqTo),
        ("timestamp", t.timestamp), ("rows", t.rows), ("cells", t.cells),
        ("files", .obj fs)] "files").getD
      (.obj []) = .obj fs := by
    simp only [lookup_cons, String.reduceBEq, cond_true, cond_false, Option.getD_some]
  exact ⟨congrArg Except.ok hlook, getOrEmpty_obj hlook⟩

lemma tableFiles_typeFiles (dir typ : String) : ∃ paths,
    tableFiles (typeFiles dir typ).2 = .ok paths ∧
      deltaTableFiles (typeFiles dir typ).2 = .ok paths ∧
      historyTypeFiles (typeFiles dir typ).2 = .ok paths := by
  have hspatial : truthy (.str s!"{dir}/{typ}.spatial.parquet") = true :=
    truthy_append _ (by decide)
  have hbyid : truthy (.str s!"{dir}/{typ}.byid.parquet") = true := truthy_append _ (by decide)
  have hfilter : [Json.str s!"{dir}/{typ}.spatial.parquet",
      .str s!"{dir}/{typ}.byid.parquet"].filter truthy =
      [.str s!"{dir}/{typ}.spatial.parquet", .str s!"{dir}/{typ}.byid.parquet"] := by
    rw [List.filter_cons_of_pos hspatial, List.filter_cons_of_pos hbyid, List.filter_nil]
  refine ⟨[.str s!"{dir}/{typ}.spatial.parquet", .str s!"{dir}/{typ}.byid.parquet"], ?_, rfl, ?_⟩
  · exact congrArg Except.ok hfilter
  · exact congrArg Except.ok hfilter

lemma deltaTier_agree (g tier : String) (t : TierMeta) :
    ∃ paths, tierFiles (deltaTier g tier t) = .ok paths ∧
      deltaFiles (deltaTier g tier t) = .ok paths := by
  unfold tierFiles deltaFiles deltaTier
  obtain ⟨hget, hget'⟩ := get_files t _
  rw [hget, hget', ok_bind, ok_bind, values_obj, ok_bind, ok_bind]
  refine collect_agree fun x hx => ?_
  simp only [List.map_cons, List.map_nil, List.mem_cons, List.not_mem_nil, or_false] at hx
  have htype : ∀ dir typ : String, ∃ paths, tableFiles (typeFiles dir typ).2 = .ok paths ∧
      deltaTableFiles (typeFiles dir typ).2 = .ok paths := by
    intro dir typ
    obtain ⟨paths, h, h', -⟩ := tableFiles_typeFiles dir typ
    exact ⟨paths, h, h'⟩
  rcases hx with rfl | rfl | rfl | rfl
  · exact htype _ _
  · exact htype _ _
  · exact htype _ _
  · have htruthy : ∀ s : String, truthy (.str (s ++ "/tombstones.parquet")) = true := fun s =>
      truthy_append s (by decide)
    refine ⟨_, ?_, rfl⟩
    exact congrArg (fun b : Bool => Except.ok (if b = true then [_] else [])) (htruthy _)

lemma historyTier_agree (g tier : String) (t : TierMeta) : ∃ paths,
    tierFiles (historyTier g tier t) = .ok paths ∧
      historyTierFiles (historyTier g tier t) = .ok paths := by
  unfold tierFiles historyTierFiles historyTier
  obtain ⟨hget, hget'⟩ := get_files t _
  rw [hget, hget', ok_bind, ok_bind, values_obj, ok_bind, ok_bind]
  refine collect_agree fun x hx => ?_
  simp only [List.map_cons, List.map_nil, List.mem_cons, List.not_mem_nil, or_false] at hx
  have htype : ∀ dir typ : String, ∃ paths, tableFiles (typeFiles dir typ).2 = .ok paths ∧
      historyTypeFiles (typeFiles dir typ).2 = .ok paths := by
    intro dir typ
    obtain ⟨paths, h, -, h'⟩ := tableFiles_typeFiles dir typ
    exact ⟨paths, h, h'⟩
  rcases hx with rfl | rfl | rfl
  · exact htype _ _
  · exact htype _ _
  · exact htype _ _

/-- The history that a run of commands has put in, or none, is read alike by both walks. -/
lemma history_agree {history : Json} (h : history = .null ∨ ∃ x : HistoryField, history = x.json ∧
      ∀ entry ∈ x.tiers, ∃ g tier t, entry.2 = historyTier g tier t) :
    ∃ paths, historyPaths history = .ok paths ∧
      historyReferences (orElse history (.obj [])) = .ok paths := by
  rcases h with rfl | ⟨x, rfl, htiers⟩
  · exact ⟨[], rfl, rfl⟩
  have htruthy : truthy x.json = true := rfl
  obtain ⟨spatial, hspatial⟩ : ∃ paths, collect (fun t : String × List (String × List FileEntry) =>
      partPaths (partTablesJson t.2)) x.spatial = .ok paths :=
    collect_succeeds fun t _ => partPaths_json t.2
  obtain ⟨byid, hbyid⟩ := partPaths_json x.byid
  obtain ⟨tiers, htiers₁, htiers₂⟩ : ∃ paths, collect tierFiles (x.tiers.map (·.2)) = .ok paths ∧
      collect historyTierFiles (x.tiers.map (·.2)) = .ok paths := by
    refine collect_agree fun entry hentry => ?_
    obtain ⟨kv, hkv, rfl⟩ := List.mem_map.mp hentry
    obtain ⟨g, tier, t, ht⟩ := htiers kv hkv
    rw [ht]
    exact historyTier_agree g tier t
  have hmap :
      collect partPaths (List.map (·.2) (x.spatial.map fun t => (t.1, partTablesJson t.2))) =
      .ok spatial := by
    rw [List.map_map, collect_map]
    exact hspatial
  obtain ⟨ps, hps⟩ : ∃ ps, partTablesJson x.byid = .obj ps := ⟨_, rfl⟩
  rw [hps] at hbyid
  refine ⟨spatial ++ byid ++ tiers, ?_, ?_⟩
  · unfold historyPaths
    rw [htruthy, if_pos rfl]
    simp only [HistoryField.json, get_obj, lookup_cons, String.reduceBEq, cond_true, cond_false,
      Option.getD_some, ok_bind, values_obj, hmap, hps, hbyid, htiers₁]
    rfl
  · rw [orElse_of_truthy htruthy]
    unfold historyReferences getOrEmpty
    simp only [HistoryField.json, get_obj, lookup_cons, String.reduceBEq, cond_true, cond_false,
      Option.getD_some, ok_bind, pure_bind, values_obj, orElse_obj, hmap, hps, hbyid, htiers₂]
    rfl

/-- **The walk over the JSON finds what the walk over the record finds.** -/
lemma paths_agree (h : Loads fields m) (hs : Shaped m v) :
    ∃ paths, allPaths m = .ok paths ∧ referencedPaths (.obj fields) = .ok paths := by
  obtain ⟨ts, hts⟩ := hs.tables
  obtain ⟨bs, hbs⟩ := hs.byid
  obtain ⟨is, his⟩ := hs.index
  obtain ⟨g, hg⟩ := hs.rowgroups
  obtain ⟨ds, hds, -, htiers⟩ := hs.deltas
  obtain ⟨tables, htables, htables'⟩ := tables_agree ts
  obtain ⟨byid, hbyid⟩ := partPaths_json bs
  obtain ⟨index, hindex⟩ := partPaths_json is
  obtain ⟨areas, hareas, hareas'⟩ := areas_agree (hs.areas.imp_right And.right)
  obtain ⟨deltas, hdeltas, hdeltas'⟩ : ∃ paths, collect tierFiles (ds.map (·.2)) = .ok paths ∧
      collect deltaFiles (ds.map (·.2)) = .ok paths := by
    refine collect_agree fun entry hentry => ?_
    obtain ⟨kv, hkv, rfl⟩ := List.mem_map.mp hentry
    obtain ⟨g, tier, t, ht⟩ := htiers kv hkv
    rw [ht]
    exact deltaTier_agree g tier t
  obtain ⟨history, hhist, hhist'⟩ := history_agree (hs.history.imp_right And.right)
  have hvalues : values (tablesJson ts) = .ok (ts.map fun t => tableJson t.2) := by
    rw [tablesJson, values_obj, List.map_map]
    rfl
  obtain ⟨rowgroups, hrow⟩ : ∃ paths, values (rowgroupJson g) = .ok paths := ⟨_, rfl⟩
  refine ⟨tables ++ byid ++ index ++ rowgroups ++ areas ++ deltas ++ history, ?_, ?_⟩
  · unfold allPaths
    simp only [hts, hvalues, ok_bind, htables, hbs, hbyid, his, hindex, hg, hrow, hareas,
      hds, values_obj, hdeltas, hhist]
    rfl
  · have hobj : ∃ fs, m.areas = .obj fs := by
      rcases hs.areas with h | ⟨-, g, a, h⟩
      · exact ⟨_, h⟩
      · exact ⟨_, h⟩
    obtain ⟨as, has⟩ := hobj
    have hget : getOrEmpty "history" (.obj fields) = .ok (orElse m.history (.obj [])) := by
      rw [getOrEmpty, get_obj, h.history]
      rfl
    have htables_get : getOrEmpty "tables" (.obj fields) = .ok (tablesJson ts) :=
      getOrEmpty_obj (h.tables.trans hts)
    have hbyid_get : getOrEmpty "byid" (.obj fields) = .ok (partTablesJson bs) :=
      getOrEmpty_obj (h.byid.trans hbs)
    have hindex_get : getOrEmpty "index" (.obj fields) = .ok (partTablesJson is) :=
      getOrEmpty_obj (h.index.trans his)
    have hrow_get : getOrEmpty "rowgroup_index" (.obj fields) = .ok (rowgroupJson g) :=
      getOrEmpty_obj (h.rowgroupIndex.trans hg)
    have hdeltas_get := getOrEmpty_obj (h.deltas.trans hds)
    have hareas_get := getOrEmpty_obj (h.areas.trans has)
    rw [has] at hareas'
    unfold referencedPaths
    simp only [htables_get, hbyid_get, hindex_get, hrow_get, hareas_get, hdeltas_get, hget,
      ok_bind, hvalues, htables', hbyid, hindex, hrow, hareas', values_obj, hdeltas', hhist']
    rfl

end Paths

/-- **Published manifests survive**: whatever commands have been run, a manifest that is loaded and
written again loses nothing, and garbage collection and validation find the same paths in it. -/
theorem published_survives {j : Json} (h : Published j) :
    ∃ m, fromDict j = .ok m ∧
      (∃ d, toDict m = .ok d ∧ fromDict d = .ok m) ∧
      ∃ refs paths, referencedPaths j = .ok refs ∧ allPaths m = .ok paths ∧ ∀ p, p ∈ refs ↔
        p ∈ paths := by
  obtain ⟨fields, m, v, rfl, hloads, hs⟩ := published_shaped h
  obtain ⟨fields', hdict, hloads'⟩ := loads_toDict hs
  obtain ⟨paths, hall, hrefs⟩ := paths_agree hloads hs
  exact ⟨m, fromDict_of_loads hloads, ⟨_, hdict, fromDict_of_loads hloads'⟩, paths,
    paths, hrefs, hall, fun p => Iff.rfl⟩

/-- A build of one cell with a node that has tags. -/
def oneNodeBuild : BuildData where
  generation := "g1"
  timestampOsmBase := .str "2024-01-01T00:00:00Z"
  source := .str "planet.osm.pbf"
  extent := .null
  leafCells := .arr [.str "0"]
  nodeTable :=
    [("0", .node (some ⟨"spatial/g1/node/cell=0/tagged/part-0.parquet", [("rows", .int 1)]⟩) none)]
  wayTable := []
  relationTable := []
  nodeByid := [⟨"byid/g1/node/part-0.parquet", [("rows", .int 1)]⟩]
  wayByid := []
  relationByid := []
  nodeWay := []
  member := []
  promotedKeys := defaultPromotedKeys
  replicationSequence := .int 1
  ancestorDepths := .arr [.int 0]
  maxDepth := .int 13
  producerRaw := .str "osm-raw"
  stats := []
  areas := none

/-- A run within the hour: one tier, and a history tier for it. -/
def oneTierUpdate : UpdateData where
  batchTimestamp := .str "2024-01-01T00:01:00Z"
  lastSeq := .int 2
  source := .str "https://planet.osm.org/replication/minute"
  tiers := [("hour", ⟨1, .int 2, .int 2, .str "2024-01-01T00:01:00Z", .obj [], .arr []⟩)]
  historyTiers :=
    some [("hour", ⟨1, .int 2, .int 2, .str "2024-01-01T00:01:00Z", .obj [], .arr []⟩)]

/-- A build, a history build and a run of the updater publish such a manifest. -/
theorem published_survives_update : ∃ j m, Published j ∧ fromDict j = .ok m ∧
    (∃ d, toDict m = .ok d ∧ fromDict d = .ok m) ∧
    ∃ refs paths, referencedPaths j = .ok refs ∧ allPaths m = .ok paths ∧ ∀ p, p ∈ refs ↔
      p ∈ paths := by
  have hbuilt := shaped_buildManifest oneNodeBuild
  obtain ⟨fields₁, hdict₁, hloads₁⟩ := loads_toDict hbuilt
  have hp₁ : Published (.obj fields₁) := .build oneNodeBuild rfl hdict₁
  have hhist := hbuilt.withHistory ⟨.str "2024-01-01T00:00:00Z", [], [], .null⟩
    (setKey [("raw", .str "osm-raw"), ("build", .str "osmpq 0.1.0")] "history"
      (.str "osmpq history build"))
  obtain ⟨fields₂, hdict₂, hloads₂⟩ := loads_toDict hhist
  have hp₂ : Published (.obj fields₂) := .historyBuild _ hp₁ (fromDict_of_loads hloads₁) rfl hdict₂
  obtain ⟨man, v, hrun, hupdated⟩ := shaped_update hhist oneTierUpdate
  obtain ⟨fields₃, hdict₃, -⟩ := loads_toDict hupdated
  have hp₃ : Published (.obj fields₃) := .update oneTierUpdate hp₂
    (fromDict_of_loads hloads₂) hrun hdict₃
  obtain ⟨m, hm⟩ := published_survives hp₃
  exact ⟨_, m, hp₃, hm⟩

end OsmParquet.ManifestJson
