import Ondas.Library.Machine
import Ondas.Library.Ticks
import Ondas.Library.Cells
import Ondas.Value
import Ondas.Vcd.Tokens
import Ondas.Vcd.Walk
import Ondas.Vcd.Query
import Ondas.Vcd.Reader
import Ondas.Vcd.Validate
import Ondas.Vcd.Chunks
import Ondas.Vcd.ParallelOpen
import Ondas.Vcd.Resume
import Ondas.Query.Composition
import Ondas.Query.Reference
import Ondas.Query.Plan
import Ondas.Query.Slot
import Ondas.Query.Engine
import Ondas.Query.Run
import Ondas.Query.Snapshots
import Ondas.Query.Traversal
import Ondas.Query.Read
import Ondas.Query.Observe
import Ondas.Query.Points
import Ondas.Query.Batch
import Ondas.Query.Queries
import Ondas.Query.Session
import Ondas.Query.Contract
import Ondas.Query.Counts
import Ondas.Query.Failure
import Ondas.Query.Normal
import Ondas.Fst.Reader
import Ondas.Query.Candidates
import Ondas.Library.Decoder
import Ondas.Ghw.Wire
import Ondas.Ghw.Body
import Ondas.Ghw.Constrain
import Ondas.Ghw.Protocol
import Ondas.Wlf.Invariant
import Ondas.Ghw.Amplification
import Ondas.Hierarchy.Lookup
import Ondas.Hierarchy.Selector
import Ondas.Query.Planner
import Ondas.Vcd.Buffer
import Ondas.Ghw.Leb
import Ondas.Ghw.Strings
import Ondas.Hierarchy.Children
import Ondas.Hierarchy.Verilog
import Ondas.Query.Repeats
import Ondas.Vcd.Identifiers
import Ondas.Vcd.Strings
import Ondas.Vcd.Timescale
import Ondas.Wlf.Points
import Ondas.Wlf.Suspend
import Ondas.Wlf.Batches
import Ondas.Ghw.Assembly
import Ondas.Ghw.Budget
import Ondas.Ghw.Identity
import Ondas.Ghw.Positions
import Ondas.Ghw.Recorded
import Ondas.Ghw.Laid
import Ondas.Ghw.Read
import Ondas.Ghw.Scan
import Ondas.Ghw.Cursors
import Ondas.Ghw.Turns
import Ondas.Ghw.Queries
import Ondas.Ghw.Sharing
import Ondas.Ghw.SlotTable
import Ondas.Ghw.Counting
import Ondas.Ghw.Reports
import Ondas.Ghw.Indexed
import Ondas.Ghw.Cache
import Ondas.Query.Widths
import Ondas.Vcd.Prefix
import Ondas.Library.Pipeline
import Ondas.Vcd.Full
import Ondas.Query.Alike
import Ondas.Vcd.Source
import Ondas.Query.Native
import Ondas.Query.Seeking
import Ondas.Query.NativePoints
import Ondas.Query.NativeAlike
import Ondas.Ghw.AnyInput
import Ondas.Ghw.Reader
import Ondas.Widths
import Ondas.Sources
