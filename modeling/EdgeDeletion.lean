import EdgeDeletion.Batch
import EdgeDeletion.Bytes
import EdgeDeletion.Bytes.Ordered
import EdgeDeletion.Bytes.Varint
import EdgeDeletion.Catalog
import EdgeDeletion.Config
import EdgeDeletion.Config.Reader
import EdgeDeletion.Counters
import EdgeDeletion.Delete.Error
import EdgeDeletion.Delete.Event
import EdgeDeletion.Delete.Node
import EdgeDeletion.Delete.Plan
import EdgeDeletion.Delete.Request
import EdgeDeletion.Double
import EdgeDeletion.Double.Decimal
import EdgeDeletion.Edge
import EdgeDeletion.Edge.Key
import EdgeDeletion.Index
import EdgeDeletion.Index.Image
import EdgeDeletion.Index.State
import EdgeDeletion.Inspect.Command
import EdgeDeletion.Inspect.Outcome
import EdgeDeletion.Inspect.Report
import EdgeDeletion.KeyOrder
import EdgeDeletion.LockTable
import EdgeDeletion.Main
import EdgeDeletion.OperationLog
import EdgeDeletion.Options
import EdgeDeletion.OrderedMap
import EdgeDeletion.Row
import EdgeDeletion.StorageError
import EdgeDeletion.Store
import EdgeDeletion.Text
import EdgeDeletion.Text.Hex
import EdgeDeletion.Text.Integer
import EdgeDeletion.Text.Json
import EdgeDeletion.Toml.Document
import EdgeDeletion.Toml.Number
import EdgeDeletion.Toml.Text
import EdgeDeletion.Toml.Value
import EdgeDeletion.Value
import EdgeDeletion.Proofs.Contents
import EdgeDeletion.Proofs.KeyLayout
import EdgeDeletion.Proofs.VarintForms
import EdgeDeletion.Proofs.BatchCodec
import EdgeDeletion.Proofs.Positions
import EdgeDeletion.Proofs.BatchScan
import EdgeDeletion.Proofs.RowCodec
import EdgeDeletion.Proofs.RowScan
import EdgeDeletion.Proofs.Steps
import EdgeDeletion.Proofs.Planning
import EdgeDeletion.Proofs.Replanning
import EdgeDeletion.Proofs.Claims
import EdgeDeletion.Proofs.Reports
import EdgeDeletion.Proofs.Completions
import EdgeDeletion.Proofs.Turns
import EdgeDeletion.Proofs.Requests
import EdgeDeletion.Proofs.Frame
import EdgeDeletion.Proofs.Effects
import EdgeDeletion.Proofs.Completeness
import EdgeDeletion.Proofs.NoTrace
import EdgeDeletion.Proofs.Session
import EdgeDeletion.Proofs.Accounts
import EdgeDeletion.Proofs.Resumption
import EdgeDeletion.Proofs.Isolation
import EdgeDeletion.Proofs.Mirror
import EdgeDeletion.Proofs.LineNumbers
import EdgeDeletion.Proofs.Moves
import EdgeDeletion.Proofs.Simulation
import EdgeDeletion.Proofs.Serial
import EdgeDeletion.Proofs.Timeline
import EdgeDeletion.Proofs.Slots
import EdgeDeletion.Proofs.Phases
import EdgeDeletion.Proofs.Lives
import EdgeDeletion.Proofs.Moments
import EdgeDeletion.Proofs.Draining
import EdgeDeletion.Proofs.Reporting
import EdgeDeletion.Proofs.Answers
import EdgeDeletion.Proofs.Separation
import EdgeDeletion.Proofs.PartIsolation
import EdgeDeletion.Proofs.BarePlans
import EdgeDeletion.Proofs.Paths
import EdgeDeletion.Proofs.ByteOrder
import EdgeDeletion.Proofs.EdgeKeyOrder
import EdgeDeletion.Proofs.ForeignKeys
import EdgeDeletion.Proofs.MarkedPlans
import EdgeDeletion.Proofs.Lifecycle
import EdgeDeletion.Proofs.Course
import EdgeDeletion.Proofs.LogGrowth
import EdgeDeletion.Proofs.DoubleOrder
import EdgeDeletion.Proofs.ImageForm
import EdgeDeletion.Proofs.EntryKeys
import EdgeDeletion.Proofs.WriteOutcome
import EdgeDeletion.Proofs.CatalogEdits
import EdgeDeletion.Proofs.ImageOrder
import EdgeDeletion.Proofs.RowsUnread
import EdgeDeletion.Proofs.MarkerHistory
import EdgeDeletion.Proofs.Bookings
import EdgeDeletion.Proofs.EffectCounters
import EdgeDeletion.Proofs.DeclaredPlan
import EdgeDeletion.Proofs.SetSemantics
import EdgeDeletion.Proofs.PrefixScans
import EdgeDeletion.Proofs.Pausing
import EdgeDeletion.Proofs.EdgeKeyGrammar
import EdgeDeletion.Proofs.PlainDeletes
import EdgeDeletion.Proofs.FirstReports
import EdgeDeletion.Proofs.Exclusion
import EdgeDeletion.Proofs.Declarations
import EdgeDeletion.Proofs.ImageErrors
import EdgeDeletion.Proofs.VarintWords
import EdgeDeletion.Proofs.EdgeTexts
import EdgeDeletion.Proofs.ConflictNames
import EdgeDeletion.Proofs.ReadBack
import EdgeDeletion.Proofs.KeyReports
import EdgeDeletion.Proofs.Summaries
import EdgeDeletion.Proofs.SortedNumbers
