import Rindle.Op.TakeRuns
import Rindle.Op.CapRuns
import Rindle.Journal.Frame
import Rindle.Graph.Teardown
import Rindle.Optimistic.Exact
import Rindle.Normalized.Delivery
import Rindle.Planner.Apply
import Rindle.Mutations.Kept
import Rindle.Mutations.Session
import Rindle.Mutations.Deopt
import Rindle.Mutations.Rebase
import Rindle.Op.Overflow
import Rindle.Remote.Attempts
import Rindle.Compile.Compilers
import Rindle.SqlClient.WithTransaction
import Rindle.Streams.SingleFlight
import Rindle.Source.Requests
import Rindle.Op.Merge
import Rindle.Op.Skip
import Rindle.View.Counts
import Rindle.View.Fingerprint
import Rindle.Op.ChainExact
import Rindle.Storage.Scan
import Rindle.Planner.FansExact
import Rindle.Compile.Keyset
import Rindle.Optimistic.AggFilter
import Rindle.Client.Drive
import Rindle.IndexAdvice.Subsume
import Rindle.Remote.MutationQueue
import Rindle.Streams.Reader
import Rindle.Wasm.WriteTxn
import Rindle.Wasm.Projection
import Rindle.Client.PkKey
import Rindle.Source.Pushdown
import Rindle.Sqlite.Leaves
import Rindle.View.Replica
