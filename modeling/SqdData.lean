import SqdData.Wrapping
import SqdData.OrderedStore
import SqdData.Storage.Data
import SqdData.Storage.Database
import SqdData.Segments
import SqdData.Bits
import SqdData.Paging
import SqdData.Storage.Transactions
import SqdData.Storage.TransactionSpecs
import SqdData.Storage.TableMerge
import SqdData.Storage.Compaction
import SqdData.Storage.Maintenance
import SqdData.Storage.Node
import SqdData.Hotblocks.WriteController
import SqdData.Hotblocks.Effects
import SqdData.Storage.CompactionSpecs
import SqdData.Storage.NodeSpecs
import SqdData.Hotblocks.Writer
import SqdData.Hotblocks.Window
import SqdData.Hotblocks.Finality
import SqdData.Hotblocks.Watermark
import SqdData.Storage.Splices
import SqdData.Storage.Lifecycle
import SqdData.Storage.MergeSpecs
import SqdData.Storage.PlanSpecs
import SqdData.Storage.Snapshots
import SqdData.Storage.Leaks
import SqdData.Storage.Content
import SqdData.Hotblocks.Simulation
import SqdData.FinalLog
import SqdData.Storage.ChunkRows
import SqdData.Storage.FinalizedPrefix
import SqdData.Hotblocks.Ledger
import SqdData.DataSource.Standard
import SqdData.Hotblocks.Rollback
import SqdData.Hotblocks.Resume
import SqdData.DataSource.Emission
import SqdData.DataSource.Announcements
import SqdData.Hotblocks.Ingest
import SqdData.Hotblocks.IngestTiling
import SqdData.Arrow.Values
import SqdData.Primitives.RangeList
import SqdData.Primitives.Gather
import SqdData.Arrow.ArrayData
import SqdData.Storage.PageWriters
import SqdData.Storage.Pagination
import SqdData.Storage.PageReads
import SqdData.Arrays.Contents
import SqdData.Arrays.Writers
import SqdData.Storage.TableWriter
import SqdData.Storage.ArrayReads
import SqdData.Storage.TableReader
import SqdData.Query.ArrayPredicate
import SqdData.Query.RowPredicate
import SqdData.Query.StatsPruning
import SqdData.Query.RowWise
import SqdData.Query.SnapshotReader
import SqdData.Query.Discriminators
import SqdData.Query.ParquetFile
import SqdData.Query.DefaultNulls
import SqdData.Query.MissingColumns
import SqdData.Storage.OffsetLookup
import SqdData.Storage.RoundTrip
import SqdData.Slots
import SqdData.Query.Relations
import SqdData.Query.Plan
import SqdData.Query.Simplify
import SqdData.Query.Simplified
import SqdData.Query.SimplifyMeaning
import SqdData.Storage.ChunkListing
import SqdData.ByteKeys
import SqdData.Storage.Keys
import SqdData.Storage.Isolation
import SqdData.Bds.Chain
import SqdData.Bds.QueueCalls
import SqdData.Bds.Ingest
import SqdData.Traces
import SqdData.Bds.WriteBehind
import SqdData.Bds.WriteProgress
import SqdData.Bds.Finalization
import SqdData.Bds.Cassandra
import SqdData.Bds.FinalChain
import SqdData.Bds.Partitions
import SqdData.Query.ParquetMetadata
import SqdData.Query.ParquetStats
import SqdData.Query.ParquetPruning
import SqdData.Primitives.RangeArith
import SqdData.Query.StatsSupport
import SqdData.Query.BloomFilter
import SqdData.Query.Comparisons
import SqdData.Storage.RangedOffsets
import SqdData.Hotblocks.HeadRetention
import SqdData.Query.ParentBlock
import SqdData.Query.TraceTrees
