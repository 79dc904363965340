import Reshard.Absorption
import Reshard.Absorptions
import Reshard.Catalog.Basic
import Reshard.Catalog.Defect
import Reshard.Catalog.Document
import Reshard.Catalog.Storage
import Reshard.Catalog.Validity
import Reshard.Cost.Basic
import Reshard.Cost.Binary64
import Reshard.Cost.Format
import Reshard.Cost.Table
import Reshard.Decimal.Layout
import Reshard.Decimal.Numeral
import Reshard.Decimal.Shortest
import Reshard.Digraph
import Reshard.Drawing
import Reshard.Edge
import Reshard.Fault
import Reshard.Graph.Basic
import Reshard.Graph.Declared
import Reshard.Graph.Merge
import Reshard.Json.Fields
import Reshard.Json.Text
import Reshard.Json.Token
import Reshard.Json.Value
import Reshard.Links
import Reshard.NodeId
import Reshard.Proofs.Absorptions.Chain
import Reshard.Proofs.Absorptions.Complete
import Reshard.Proofs.Absorptions.Resolve
import Reshard.Proofs.Absorptions.Run
import Reshard.Proofs.Absorptions.Settled
import Reshard.Proofs.Catalog.Bypass
import Reshard.Proofs.Catalog.Consistent
import Reshard.Proofs.Catalog.Declaring
import Reshard.Proofs.Catalog.Document
import Reshard.Proofs.Catalog.MergeOrder
import Reshard.Proofs.Catalog.Solvable
import Reshard.Proofs.Catalog.Unfolded
import Reshard.Proofs.Catalog.Validity
import Reshard.Proofs.Catalog.Weight
import Reshard.Proofs.Cost.Binary64
import Reshard.Proofs.Cost.Bounds
import Reshard.Proofs.Cost.Cheapest
import Reshard.Proofs.Cost.Exact
import Reshard.Proofs.Cost.Format
import Reshard.Proofs.Cost.Order
import Reshard.Proofs.Cost.Table
import Reshard.Proofs.Decimal.Numeral
import Reshard.Proofs.Digraph
import Reshard.Proofs.FiniteMap
import Reshard.Proofs.Graph.Absorbed
import Reshard.Proofs.Graph.Alike
import Reshard.Proofs.Graph.Balance
import Reshard.Proofs.Graph.Chain
import Reshard.Proofs.Graph.Coherent
import Reshard.Proofs.Graph.Declared
import Reshard.Proofs.Graph.Exchange
import Reshard.Proofs.Graph.Leaf
import Reshard.Proofs.Graph.Merge
import Reshard.Proofs.Graph.Merged
import Reshard.Proofs.Graph.Optimum
import Reshard.Proofs.Graph.Paths
import Reshard.Proofs.Graph.Sound
import Reshard.Proofs.Graph.Valid
import Reshard.Proofs.Json.Fields
import Reshard.Proofs.Json.Text
import Reshard.Proofs.Json.Token
import Reshard.Proofs.Json.Value
import Reshard.Proofs.Lines
import Reshard.Proofs.Links
import Reshard.Proofs.Outcome
import Reshard.Proofs.Reduction.Accepted
import Reshard.Proofs.Reduction.Assignment
import Reshard.Proofs.Reduction.Chain
import Reshard.Proofs.Reduction.ClosedForm
import Reshard.Proofs.Reduction.Exchange
import Reshard.Proofs.Reduction.Faults
import Reshard.Proofs.Reduction.Footprint
import Reshard.Proofs.Reduction.Intact
import Reshard.Proofs.Reduction.Kept
import Reshard.Proofs.Reduction.Optimum
import Reshard.Proofs.Reduction.Order
import Reshard.Proofs.Reduction.Paths
import Reshard.Proofs.Reduction.Preservation
import Reshard.Proofs.Reduction.Priced
import Reshard.Proofs.Reduction.Replay
import Reshard.Proofs.Reduction.Representative
import Reshard.Proofs.Reduction.Run
import Reshard.Proofs.Reduction.Simplify
import Reshard.Proofs.Reduction.Solvable
import Reshard.Proofs.Reduction.Stage
import Reshard.Proofs.Reduction.Start
import Reshard.Proofs.Report
import Reshard.Proofs.Residual
import Reshard.Proofs.Residual.Document
import Reshard.Reduction.Assignment
import Reshard.Reduction.Basic
import Reshard.Reduction.Event
import Reshard.Reduction.Order
import Reshard.Report
import Reshard.Residual.Basic
import Reshard.Residual.Document
import Reshard.Settings
