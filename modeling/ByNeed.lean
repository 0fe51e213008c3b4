import ByNeed.Error
import ByNeed.Comp
import ByNeed.Heap
import ByNeed.Machine
import ByNeed.Host
import ByNeed.Fn
import ByNeed.Dynamic
import ByNeed.Checked
import ByNeed.Expr.Syntax
import ByNeed.Expr.Value
import ByNeed.Expr.Eval
import ByNeed.Expr.Handles
import ByNeed.Expr.Bench
import ByNeed.Shared
import ByNeed.Shared.Host
import ByNeed.Shared.Expr
import ByNeed.Shared.Bench
import ByNeed.Text
import ByNeed.Text.Utf8
import ByNeed.Io.Handle
import ByNeed.Io.Target
import ByNeed.Io.Source
import ByNeed.Text.Unprintable
import ByNeed.Settings
import ByNeed.Context
import ByNeed.Program
import ByNeed.Demo.Lists
import ByNeed.Demo.Reading
import ByNeed.Demo.Programs
import ByNeed.Script
import ByNeed.Cli
import ByNeed.Main
import ByNeed.Binary
import ByNeed.Binary.Shortest
import ByNeed.Json.Number
import ByNeed.Json.Quoted
import ByNeed.Json
import ByNeed.Duplicate.Datum
import ByNeed.Duplicate.Schema
import ByNeed.Duplicate
import ByNeed.Proofs.Failing
import ByNeed.Proofs.Cells
import ByNeed.Proofs.Lifecycle
import ByNeed.Proofs.Unwinding
import ByNeed.Proofs.Shared.Ownership
import ByNeed.Proofs.Shared.Waiting
import ByNeed.Proofs.Order
import ByNeed.Proofs.Application
import ByNeed.Proofs.Shared.Schedules
import ByNeed.Proofs.Shared.OneThread
import ByNeed.Proofs.Io.Closing
import ByNeed.Proofs.Json.Scalars
import ByNeed.Proofs.Json.RoundTrip
import ByNeed.Proofs.Duplicate.Copies
import ByNeed.Proofs.Demo.Sequences
import ByNeed.Proofs.Demo.Legend
import ByNeed.Proofs.Demo.Demand
import ByNeed.Proofs.Demo.Takes
import ByNeed.Proofs.Walks
import ByNeed.Proofs.Termination
import ByNeed.Proofs.Io.Captured
import ByNeed.Proofs.Sequencing
import ByNeed.Proofs.Demo.Echo
import ByNeed.Proofs.Demo.Primes
import ByNeed.Proofs.Io.Segments
import ByNeed.Proofs.Nesting
import ByNeed.Proofs.Traversal
import ByNeed.Proofs.Traces
import ByNeed.Proofs.Normal
import ByNeed.Proofs.Deep
import ByNeed.Proofs.Demo.Spine
import ByNeed.Proofs.Io.Newlines
import ByNeed.Proofs.Io.Whole
import ByNeed.Proofs.Demo.Undivided
import ByNeed.Proofs.Demo.Sharing
import ByNeed.Proofs.Demo.Fibonacci
import ByNeed.Proofs.Text.Unquoting
import ByNeed.Proofs.Duplicate.Ordinary
import ByNeed.Proofs.Hidden
import ByNeed.Proofs.Scoping
import ByNeed.Proofs.Series
import ByNeed.Proofs.Projection
import ByNeed.Proofs.Accessors
import ByNeed.Proofs.Settings
import ByNeed.Proofs.ExitCode
