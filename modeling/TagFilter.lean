import TagFilter.Bus
import TagFilter.Composition
import TagFilter.Config
import TagFilter.Coordinator
import TagFilter.Decimal.Literal
import TagFilter.Decimal.Rendering
import TagFilter.Decimal.Shortest
import TagFilter.Engine.Basic
import TagFilter.Engine.Blob
import TagFilter.Engine.Kind
import TagFilter.Engine.Removal
import TagFilter.Engine.SortedList
import TagFilter.Engine.SplayTree
import TagFilter.Engine.Trie
import TagFilter.Engine.WeightedTree
import TagFilter.EngineSlot
import TagFilter.Error
import TagFilter.Event
import TagFilter.Filter
import TagFilter.Filter.InPlace
import TagFilter.Forest
import TagFilter.Json.Number
import TagFilter.Json.Reader
import TagFilter.Json.Record
import TagFilter.Json.Value
import TagFilter.Lifecycle
import TagFilter.Locality.Report
import TagFilter.Locality.Tracing
import TagFilter.Locality.Visits
import TagFilter.Main
import TagFilter.Metrics
import TagFilter.OrderedMap
import TagFilter.Pattern
import TagFilter.Service
import TagFilter.Session
import TagFilter.Settings
import TagFilter.Subscription.Basic
import TagFilter.Subscription.Csv
import TagFilter.Subscription.Linking
import TagFilter.Subscription.Nesting
import TagFilter.Text.Hex
import TagFilter.Text.Lines
import TagFilter.Text.Quoted
import TagFilter.Text.Utf8
import TagFilter.Traffic
import TagFilter.Weight
import TagFilter.Proofs.Acceptance
import TagFilter.Proofs.Digits
import TagFilter.Proofs.Table
import TagFilter.Proofs.CommonPrefix
import TagFilter.Proofs.Trie.Shape
import TagFilter.Proofs.Trie.Updates
import TagFilter.Proofs.Trie.Growth
import TagFilter.Proofs.SortedList
import TagFilter.Proofs.Forests
import TagFilter.Proofs.Subscriptions
import TagFilter.Proofs.Tree.Levels
import TagFilter.Proofs.Tree.Shape
import TagFilter.Proofs.Tree.Updates
import TagFilter.Proofs.Tree.Growth
import TagFilter.Proofs.Contents
import TagFilter.Proofs.Histories
import TagFilter.Proofs.Slots
import TagFilter.Proofs.Runs
import TagFilter.Proofs.Tree.Lineages
import TagFilter.Proofs.Tree.Loads
import TagFilter.Proofs.Tree.Order
import TagFilter.Proofs.Tree.Reordering
import TagFilter.Proofs.Backlog
import TagFilter.Proofs.Phases
import TagFilter.Proofs.Steps
import TagFilter.Proofs.Selection
import TagFilter.Proofs.Deployment
import TagFilter.Proofs.Commands
import TagFilter.Proofs.Ledger
import TagFilter.Proofs.Delivery
import TagFilter.Proofs.Symbols
import TagFilter.Proofs.Factoring
import TagFilter.Proofs.Readers
import TagFilter.Proofs.Storage
import TagFilter.Proofs.SlotStates
import TagFilter.Proofs.Bus.Actions
import TagFilter.Proofs.Bus.Streams
import TagFilter.Proofs.Bus.Ring
import TagFilter.Proofs.Bus.Account
import TagFilter.Proofs.Bus.Observers
import TagFilter.Proofs.Related
import TagFilter.Proofs.Tree.Rearrangement
import TagFilter.Proofs.Alike
import TagFilter.Proofs.Shadow
import TagFilter.Proofs.Tree.Restoring
import TagFilter.Proofs.Removal
import TagFilter.Proofs.Tree.Splaying
import TagFilter.Proofs.Ascending
import TagFilter.Proofs.Linking
import TagFilter.Proofs.Nesting
import TagFilter.Proofs.Relinking
import TagFilter.Proofs.Tree.Heaviest
import TagFilter.Proofs.Bitwise
import TagFilter.Proofs.Clearing
import TagFilter.Proofs.Tightest
import TagFilter.Proofs.Spelling
import TagFilter.Proofs.Refusals
import TagFilter.Proofs.Locality.Recordings
import TagFilter.Proofs.Locality.Ways
import TagFilter.Proofs.Locality.Flow
import TagFilter.Proofs.Locality.PrefixTree
import TagFilter.Proofs.Text.Hex
import TagFilter.Proofs.Text.Lines
import TagFilter.Proofs.TrafficFiles
import TagFilter.Proofs.Literals
import TagFilter.Proofs.SubscriptionFiles
import TagFilter.Proofs.Statistics
