import JsonIntake.Fixture
import JsonIntake.Glob.Expand
import JsonIntake.Read
import JsonIntake.Proofs.Quote.Run
import JsonIntake.Proofs.Records.Lines
import JsonIntake.Proofs.Source.Content
import JsonIntake.Proofs.Source.Opened
import JsonIntake.Proofs.Source.Stream
import JsonIntake.Proofs.Stream.Ingestion
import JsonIntake.Proofs.Plan.Tiling
import JsonIntake.Proofs.Read.Batching
import JsonIntake.Proofs.Stream.Lines
import JsonIntake.Proofs.Read.Alignment
import JsonIntake.Proofs.Quote.Grammar
import JsonIntake.Proofs.Quote.Translation
import JsonIntake.Proofs.Table.Joining
import JsonIntake.Proofs.Table.Associativity
import JsonIntake.Proofs.Table.Inference
import JsonIntake.Proofs.Table.Widening
import JsonIntake.Proofs.Table.Cells
import JsonIntake.Proofs.Table.Tabulation
import JsonIntake.Proofs.Table.Batches
import JsonIntake.Proofs.Records.Isolation
import JsonIntake.Proofs.Source.Calls
import JsonIntake.Proofs.Plan.Safety
import JsonIntake.Proofs.Json.Extent
import JsonIntake.Proofs.Json.Numerals
import JsonIntake.Proofs.Json.Strings
import JsonIntake.Proofs.Json.Items
import JsonIntake.Proofs.Json.Members
import JsonIntake.Proofs.Json.Values
import JsonIntake.Proofs.Records.Document
import JsonIntake.Proofs.Quote.Strings
import JsonIntake.Proofs.Quote.Idempotence
import JsonIntake.Proofs.Quote.Chunks
import JsonIntake.Proofs.Read.Document
import JsonIntake.Proofs.Records.Malformed
import JsonIntake.Proofs.Table.Hints
import JsonIntake.Proofs.Table.Rows
import JsonIntake.Proofs.Table.Recovery
import JsonIntake.Proofs.Table.Ordering
import JsonIntake.Proofs.Table.Compatibility
import JsonIntake.Proofs.Table.Merging
import JsonIntake.Proofs.Table.Joined
import JsonIntake.Proofs.Table.Bare
import JsonIntake.Proofs.Table.Insertion
import JsonIntake.Proofs.Read.Requested
import JsonIntake.Proofs.Read.FirstFault
import JsonIntake.Proofs.Source.Known
import JsonIntake.Proofs.Plan.Empty
import JsonIntake.Proofs.Read.Run
import JsonIntake.Proofs.Read.Hints
import JsonIntake.Proofs.Table.Layout
import JsonIntake.Proofs.Stream.Whole
import JsonIntake.Proofs.Read.Records
import JsonIntake.Proofs.Read.Layout
import JsonIntake.Proofs.Plan.Accounting
import JsonIntake.Proofs.Json.Consumption
import JsonIntake.Proofs.Records.Counting
import JsonIntake.Proofs.Read.Statistics
import JsonIntake.Proofs.Read.Rejection
import JsonIntake.Proofs.Plan.Overflow
import JsonIntake.Proofs.Plan.Cuts
import JsonIntake.Proofs.Stream.Estimates
import JsonIntake.Proofs.Stream.Exact
import JsonIntake.Proofs.Stream.Visits
import JsonIntake.Proofs.Stream.Locality
import JsonIntake.Proofs.Stream.Caches
import JsonIntake.Proofs.Json.Meaning
import JsonIntake.Proofs.Json.Names
import JsonIntake.Proofs.Json.Reading
import JsonIntake.Proofs.Records.Strict
import JsonIntake.Proofs.Table.Flat
import JsonIntake.Proofs.Table.FlatLines
import JsonIntake.Proofs.Records.Written
import JsonIntake.Proofs.Compression.Zip.Reads
import JsonIntake.Proofs.Compression.Zip.Archive
import JsonIntake.Proofs.Read.Aligned
import JsonIntake.Proofs.Plan.Settings
import JsonIntake.Proofs.Stream.Fragments
import JsonIntake.Proofs.Stream.Search
import JsonIntake.Proofs.Table.Schema
import JsonIntake.Proofs.Read.Budget
