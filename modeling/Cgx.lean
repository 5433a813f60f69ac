import Cgx.Core.Edge
import Cgx.Lib.Frontier
import Cgx.Query.Walk
import Cgx.Query.Honesty
import Cgx.Query.Scope
import Cgx.Cql.Lower
import Cgx.Lib.Backtrack
import Cgx.Lib.Walk
import Cgx.Query.Trails
import Cgx.Lib.Gather
import Cgx.Cql.Binding
import Cgx.Cql.Expand
import Cgx.Cql.Paths
import Cgx.Cql.Predicate
import Cgx.Cql.Joins
import Cgx.Core.Site
import Cgx.Index.Load
import Cgx.Lib.Closure
import Cgx.Resolve.Cha
import Cgx.Resolve.ChaSound
import Cgx.Resolve.Dangling
import Cgx.Resolve.RtaSound
import Cgx.Store.Crash
import Cgx.Resolve.Renumber
import Cgx.Resolve.SharedSites
import Cgx.Lib.Linearize
import Cgx.Receiver.Answers
import Cgx.Receiver.Mro
import Cgx.Receiver.Narrow
import Cgx.Resolve.Narrowing
import Cgx.Index.Canonicalize
import Cgx.Scip.Commit
import Cgx.Scip.Faithful
import Cgx.Scip.Settled
import Cgx.Lib.Protobuf
import Cgx.Scip.Decode
import Cgx.Scip.Inverse
import Cgx.Diff.Diff
import Cgx.Diff.Exact
import Cgx.Diff.Local
import Cgx.Store.Addition
import Cgx.Store.Leftovers
import Cgx.Transport.Confined
import Cgx.Transport.Mirror
import Cgx.Query.Impacted
import Cgx.Core.Glob
import Cgx.Cql.Aggregates
import Cgx.Cql.Columns
import Cgx.Cql.Depth
import Cgx.Cql.Distinct
import Cgx.Cql.OrderFree
import Cgx.Cql.Orientation
import Cgx.Diff.Impacted
import Cgx.Diff.PathDiff
import Cgx.Frontend.Canonical
import Cgx.Lib.Carry
import Cgx.Lib.Chase
import Cgx.Lib.Chunks
import Cgx.Lib.Condense
import Cgx.Query.Closure
import Cgx.Query.Monotone
import Cgx.Query.Simple
import Cgx.Query.Stitch
import Cgx.Query.Witnesses
import Cgx.Resolve.BlindSpots
import Cgx.Resolve.Budget
import Cgx.Resolve.Effects
import Cgx.Resolve.Enough
import Cgx.Resolve.GraphAlg
import Cgx.Resolve.Paths
import Cgx.Frontend.Ctx
import Cgx.Index.FixedPoint
import Cgx.Index.Manifests
import Cgx.Lib.Cache
import Cgx.Lib.History
import Cgx.Lib.Propagate
import Cgx.Receiver.Flow
import Cgx.Receiver.Least
import Cgx.Scip.Grammar
import Cgx.Scip.Scan
import Cgx.Scip.TraitCap
import Cgx.Resolve.Reexport
import Cgx.Resolve.SsaEdges
import Cgx.Resolve.Staleness
import Cgx.Select.Grammar
import Cgx.Select.Simulate
import Cgx.Select.Splits
import Cgx.Store.Fragments
import Cgx.Resolve.Chunked
import Cgx.Select.Segment
import Cgx.Select.Parsed
import Cgx.Select.Accepted
import Cgx.Receiver.Modules
import Cgx.Receiver.Serve
import Cgx.Receiver.Reordered
import Cgx.Receiver.Names
import Cgx.Receiver.ByBranch
import Cgx.Index.Linked
import Cgx.Cql.Token
import Cgx.Index.Transparent
import Cgx.Cql.Accepts
import Cgx.Cql.Lexed
import Cgx.Cql.Parsed
