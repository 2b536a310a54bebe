import OsmParquet.KeyedList
import OsmParquet.Layers
import OsmParquet.Rows
import OsmParquet.Tiers
import OsmParquet.TierSteps
import OsmParquet.ByidReads
import OsmParquet.Cells
import OsmParquet.Updater
import OsmParquet.Resolves
import OsmParquet.PrevCells
import OsmParquet.SpatialReads
import OsmParquet.CompactByid
import OsmParquet.Compact
import OsmParquet.FoldedTiers
import OsmParquet.HistoryTiers
import OsmParquet.RunSteps
import OsmParquet.OneCell
import OsmParquet.WayGeometry
import OsmParquet.RelationBoxes
import OsmParquet.Recurse
import OsmParquet.Halving
import OsmParquet.CellTree
import OsmParquet.Findable
import OsmParquet.RelationQuery
import OsmParquet.Splits
import OsmParquet.Replay
import OsmParquet.HistoryCompact
import OsmParquet.Scheduler
import OsmParquet.Datasets
import OsmParquet.FileStore
import OsmParquet.Layout
import OsmParquet.Publishing
import OsmParquet.Rebuilds
import OsmParquet.GarbageCollect
import OsmParquet.EndOfTime
import OsmParquet.SplitCopies
import OsmParquet.HistoryBuild
import OsmParquet.SpatialSnapshots
import OsmParquet.ByidLookup
import OsmParquet.ByteCodec
import OsmParquet.NodeWayIndex
import OsmParquet.RawPlacement
import OsmParquet.FormFields
import OsmParquet.EdgeCache
import OsmParquet.SetFilter
import OsmParquet.QueryFilters
import OsmParquet.ChangedFilter
import OsmParquet.RowGroups
import OsmParquet.MemberGeometry
import OsmParquet.SnapshotParents
import OsmParquet.Areas
import OsmParquet.HilbertCurve
import OsmParquet.HilbertKeys
import OsmParquet.SpillRecords
import OsmParquet.RunMerge
import OsmParquet.WayRuns
import OsmParquet.NodeWayBuild
import OsmParquet.MappedFile
import OsmParquet.NodeStores
import OsmParquet.LeafSearch
import OsmParquet.LoosePlacement
import OsmParquet.Histogram
import OsmParquet.LeafSelection
import OsmParquet.JsonValues
import OsmParquet.ManifestJson
import OsmParquet.Evaluator
import OsmParquet.EvalSql
import OsmParquet.EvaluatorGrammar
import OsmParquet.EvaluatorNesting
import OsmParquet.FrontierSearch
import OsmParquet.RecurseTransitive
import OsmParquet.StateIntervals
import OsmParquet.SelfJoin
import OsmParquet.HistoryStates
import OsmParquet.IngestFilter
import OsmParquet.Elements
import OsmParquet.DiffActions
import OsmParquet.XmlOutput
import OsmParquet.TaggedNodes
import OsmParquet.MinorRows
import OsmParquet.QlLexer
import OsmParquet.QlParser
import OsmParquet.IfLexing
import OsmParquet.QlRuns
import OsmParquet.IfFilters
import OsmParquet.PartRanges
import OsmParquet.TierMerge
import OsmParquet.Rounding
import OsmParquet.IdFilters
import OsmParquet.Outcomes
import OsmParquet.QlSteps
import OsmParquet.QlReaders
import OsmParquet.QlRefusals
import OsmParquet.QlNesting
import OsmParquet.QlAnswers
import OsmParquet.Procedures
import OsmParquet.NamedTables
import OsmParquet.StatementReads
import OsmParquet.Statements
import OsmParquet.ProgramMeaning
import OsmParquet.SetNames
import OsmParquet.SetTables
import OsmParquet.Programs
import OsmParquet.AssignedSets
import OsmParquet.SteadyRuns
import OsmParquet.KeptPolygons
import OsmParquet.AreaCounts
import OsmParquet.QuerySlots
import OsmParquet.ManifestRefresh
import OsmParquet.SequencePaths
import OsmParquet.Replication
import OsmParquet.CatchUp
import OsmParquet.AreaLookups
import OsmParquet.AreaSearch
import OsmParquet.AreaSets
