import Percept.Core
import Percept.Cursor
import Percept.ColdStore
import Percept.CivilDate
import Percept.DayKey
import Percept.Retention
import Percept.Globs
import Percept.VectorIndex
import Percept.Sweeper
import Percept.PairRows
import Percept.SweepSpec
import Percept.DryRun
import Percept.LatestTable
import Percept.SearchEvents
import Percept.SearchSound
import Percept.SearchBest
import Percept.GetWindow
import Percept.CursorBinding
import Percept.Filters
import Percept.Wire
import Percept.Forwarder
import Percept.Metrics
import Percept.Http
import Percept.HotRings
import Percept.Normalizer
import Percept.KindSplit
import Percept.ConsumerIsolation
import Percept.ColdWriter
import Percept.Server
import Percept.Shutdown
import Percept.WebSocket
import Percept.VectorSections
import Percept.Sequence
import Percept.Mqtt
import Percept.TopicMatch
import Percept.TemplateGrammar
import Percept.TemplateCheck
import Percept.CsvRoundTrip
import Percept.IngestBus
import Percept.ArrivalOrder
import Percept.HardCap
import Percept.TokenScopes
import Percept.LatestAgree
import Percept.Config
import Percept.CurrentState
import Percept.PinnedKinds
import Percept.SchemaShown
import Percept.LatestSchema
import Percept.Federation
import Percept.PeerCoverage
import Percept.EdgePrefix
import Percept.VectorReload
import Percept.VectorSessions
import Percept.Startup
import Percept.RetentionLaw
import Percept.ResolveByTier
import Percept.VectorRetention
import Percept.SweepKept
import Percept.Replay
import Percept.Client
import Percept.BatchLoops
import Percept.BlockingClient
import Percept.RetryAfter
import Percept.Accounting
import Percept.StoredBytes
import Percept.SizeGate
import Percept.Freshness
import Percept.StoredColumns
import Percept.SearchExact
import Percept.SweepRuns
import Percept.JsonForms
import Percept.ToolSchemas
import Percept.McpRouter
import Percept.McpFederation
import Percept.McpWindow
import Percept.ColdStream
import Percept.Relay
import Percept.RingEviction
import Percept.RingAge
import Percept.Lib.OrderBy
import Percept.Lib.KeyTable
import Percept.Lib.Keyset
import Percept.Lib.StarPattern
import Percept.Lib.TopK
import Percept.Lib.Channel
import Percept.Lib.FanOut
import Percept.Lib.Runs
import Percept.Lib.StableSort
import Percept.Lib.Batching
import Percept.Lib.FrontQueue
import Percept.Lib.SelfDelimiting
import Percept.Lib.ByteSlice
import Percept.Lib.Gregorian
import Percept.Lib.Retain
import Percept.StoreWriters
import Percept.Node
import Percept.NodeReads
import Percept.NodeSearch
import Percept.Chain
import Percept.Lib.DoubleChecked
import Percept.MetricsMaps
