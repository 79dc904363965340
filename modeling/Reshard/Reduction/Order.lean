import Reshard.Digraph
import Reshard.Reduction.Basic

/-! The order of the live nodes.

    A solver that sweeps the graph wants each live node after its parents.

    Source: `live_graph` (`digraph`) and `live_order` (`sweep`); specification, E.4. -/

namespace Reshard.Reduction

variable {α : Type}

/-- The live nodes and the edges between nodes. -/
def digraph (r : Reduction α) : Digraph :=
  .ofEdges r.liveNodes (r.graph.edges.map (·.1))

/-- The live nodes, the source of each edge before its destination. -/
def sweep (r : Reduction α) : Except (Fault α) (List NodeId) := r.digraph.sort.mapError .cycle

end Reshard.Reduction
