import MarketBenchmark.Foundation.Runs
import MarketBenchmark.Foundation.HashMaps
import MarketBenchmark.Foundation.Labels
import MarketBenchmark.Foundation.TimedRing
import MarketBenchmark.Foundation.RollingWindow
import MarketBenchmark.Foundation.Serial
import MarketBenchmark.Foundation.Streams
import MarketBenchmark.Foundation.OrderedMaps
import MarketBenchmark.Foundation.Transducers
import MarketBenchmark.Foundation.Directories
import MarketBenchmark.Foundation.OrderStatistics
import MarketBenchmark.Foundation.Tallies
import MarketBenchmark.Model
import MarketBenchmark.Benchmark.Config
import MarketBenchmark.Benchmark.State
import MarketBenchmark.Benchmark.Transitions
import MarketBenchmark.Benchmark.Effects
import MarketBenchmark.Benchmark.Settlement
import MarketBenchmark.Benchmark.Clock
import MarketBenchmark.Benchmark.Publication
import MarketBenchmark.Benchmark.Quantiles
import MarketBenchmark.Benchmark.Calls
import MarketBenchmark.Benchmark.Registration
import MarketBenchmark.Benchmark.Conservation
import MarketBenchmark.Benchmark.Sealing
import MarketBenchmark.Benchmark.Admission
import MarketBenchmark.Benchmark.Outcomes
import MarketBenchmark.Benchmark.OutcomeColumns
import MarketBenchmark.Benchmark.Tombstones
import MarketBenchmark.Benchmark.Losses
import MarketBenchmark.Benchmark.Containers
import MarketBenchmark.Benchmark.LossOrder
import MarketBenchmark.Benchmark.Bounds
import MarketBenchmark.Benchmark.SingleSource
import MarketBenchmark.Benchmark.Rings
import MarketBenchmark.Benchmark.Gathering
import MarketBenchmark.Benchmark.Verdicts
import MarketBenchmark.Benchmark.OneBase
import MarketBenchmark.Benchmark.LoneArrivals
import MarketBenchmark.Benchmark.ProcessingOrder
import MarketBenchmark.Peering.Assembly
import MarketBenchmark.Peering.Accounting
import MarketBenchmark.Tap.Reassembler
import MarketBenchmark.Tap.Connection
import MarketBenchmark.Tap.Flow
import MarketBenchmark.Tap.Contiguity
import MarketBenchmark.Tap.Completeness
import MarketBenchmark.Tap.Accounting
import MarketBenchmark.Outbox.Names
import MarketBenchmark.Outbox.Process
import MarketBenchmark.Outbox.Queue
import MarketBenchmark.Outbox.Invariant
import MarketBenchmark.Outbox.Moves
import MarketBenchmark.Outbox.Actions
import MarketBenchmark.Outbox.Recovery
import MarketBenchmark.Foundation.Utf8
import MarketBenchmark.Outbox.NameOrder
import MarketBenchmark.Outbox.Health
import MarketBenchmark.Outbox.Transitions
import MarketBenchmark.Outbox.Accounting
import MarketBenchmark.Feeds.Decimals
import MarketBenchmark.Feeds.Frames
import MarketBenchmark.Feeds.Json
import MarketBenchmark.Feeds.Books
import MarketBenchmark.Feeds.Fills
import MarketBenchmark.Feeds.MempoolJoin
import MarketBenchmark.Feeds.MempoolEmissions
import MarketBenchmark.Feeds.MempoolOnce
import MarketBenchmark.Feeds.MempoolBundles
import MarketBenchmark.Feeds.Hydromancer
import MarketBenchmark.Peering.Decoded
import MarketBenchmark.Peering.Universe
import MarketBenchmark.Peering.Arrivals
import MarketBenchmark.Peering.LateRounds
import MarketBenchmark.Peering.BlockReady
import MarketBenchmark.Foundation.Hexadecimal
import MarketBenchmark.Peering.HexIdentities
import MarketBenchmark.Peering.DecodedReady
import MarketBenchmark.Peering.Deadlines
import MarketBenchmark.Foundation.Lines
import MarketBenchmark.Feeds.HourlyFiles
import MarketBenchmark.Feeds.FillsTail
import MarketBenchmark.Foundation.Panics
import MarketBenchmark.Foundation.Endian
import MarketBenchmark.Foundation.ClassicBpf
import MarketBenchmark.Ordering.Records
import MarketBenchmark.Ordering.Safety
import MarketBenchmark.Ordering.Search
import MarketBenchmark.Ordering.Layout
import MarketBenchmark.Ordering.OwnRecord
import MarketBenchmark.Ordering.Blocks
import MarketBenchmark.Ordering.ParentSlot
import MarketBenchmark.Ordering.Window
import MarketBenchmark.Tap.Packets
import MarketBenchmark.Tap.PacketEncoding
import MarketBenchmark.Tap.Filter
import MarketBenchmark.Tap.Boundaries
import MarketBenchmark.Tap.Resync
import MarketBenchmark.Tap.Stamps
import MarketBenchmark.Peering.Frames
import MarketBenchmark.Peering.WireSafety
import MarketBenchmark.Peering.LengthIndex
import MarketBenchmark.Peering.Bundles
import MarketBenchmark.Foundation.Framing
import MarketBenchmark.Foundation.FirstWrites
import MarketBenchmark.Peering.Framing
import MarketBenchmark.Peering.BoundedLine
import MarketBenchmark.NodeExporter.Backlog
import MarketBenchmark.Foundation.Channels
import MarketBenchmark.Collector.Sender
import MarketBenchmark.Collector.Process
import MarketBenchmark.Collector.Intake
import MarketBenchmark.Collector.Delivery
import MarketBenchmark.Foundation.Journals
import MarketBenchmark.Collector.Guards
import MarketBenchmark.Collector.Progress
import MarketBenchmark.Foundation.Results
import MarketBenchmark.Collector.Identity
import MarketBenchmark.Collector.Coins
import MarketBenchmark.Collector.Startup
import MarketBenchmark.Collector.Wiring
import MarketBenchmark.Outbox.Fifo
import MarketBenchmark.Collector.Publisher
import MarketBenchmark.Collector.Publications
import MarketBenchmark.Feeds.Meanings
import MarketBenchmark.Collector.Sessions
import MarketBenchmark.Collector.Races
import MarketBenchmark.Tap.Dials
import MarketBenchmark.Collector.Offers
import MarketBenchmark.Peering.Legs
import MarketBenchmark.Peering.LegRounds
import MarketBenchmark.Collector.Peered
import MarketBenchmark.Collector.Rounds
import MarketBenchmark.Feeds.MempoolSights
import MarketBenchmark.Collector.Joined
import MarketBenchmark.Collector.Bundles
import MarketBenchmark.Outbox.Drain
import MarketBenchmark.Foundation.Relays
import MarketBenchmark.Peering.FeedLines
import MarketBenchmark.Peering.FeedServer
import MarketBenchmark.Peering.Subscribers
