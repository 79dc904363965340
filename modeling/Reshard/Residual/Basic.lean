import Reshard.Reduction.Order

/-! The residual problem that a solver is given.

    It lists the live nodes in an order that a solver can sweep, the edges with their costs
    line after line, and for each absorbed node how its strategy follows from that of its
    representative. A cost that is not finite is left out.

    Source: the type `SolverProblem`, which is `Residual`, of `ProblemNode` (`Node`), `ProblemEdge`
    (`Pairing`) and `AbsorbedNode` (`Absorbed`), with `from_graph` (`ofReduction`); specification,
    E.5. -/

namespace Reshard

namespace Residual

/-- A live node. -/
structure Node (α : Type) where
  id : NodeId
  name : String
  width : Nat
  /-- The extra cost of each strategy, if the node carries any. -/
  extra : Option (List (Option α))
deriving BEq, DecidableEq

/-- An edge between live nodes. -/
structure Pairing (α : Type) where
  edge : Edge
  rows : Nat
  cols : Nat
  /-- The costs line after line. -/
  costs : List (Option α)
deriving DecidableEq

instance {α : Type} [BEq α] : BEq (Pairing α) where
  beq p q := p.edge == q.edge && p.rows == q.rows && p.cols == q.cols && p.costs == q.costs

/-- An absorbed node: its strategy is `map[s]` when its representative runs `s`. -/
structure Absorbed where
  id : NodeId
  representative : NodeId
  map : List Nat
deriving DecidableEq

end Residual

/-- What is left to choose, and how the rest follows. -/
structure Residual (α : Type) where
  nodes : List (Residual.Node α)
  edges : List (Residual.Pairing α)
  absorbed : List Residual.Absorbed
deriving BEq, DecidableEq

namespace Residual

variable {α : Type} [Cost α]

/-- The entry of a live node. -/
def nodeOf (r : Reduction α) (id : NodeId) : Node α where
  id := id
  name := r.name id
  width := (r.graph.width? id).getD 0
  extra := (r.graph.extra? id).map fun costs => costs.map Cost.finite?

/-- The entry of an edge. -/
def pairingOf (edge : Edge) (table : CostTable α) : Pairing α where
  edge := edge
  rows := table.rows
  cols := table.cols
  costs := table.cells.map Cost.finite?

/-- The residual problem of a reduced graph. -/
def ofReduction (r : Reduction α) : Except (Fault α) (Residual α) := do
  let order ← r.sweep
  let absorptions ← r.absorptions.settled
  return {
    nodes := order.map (nodeOf r)
    edges := r.graph.edges.map fun (edge, table) => pairingOf edge table
    absorbed := absorptions.resolved.toList.map fun (id, entry) => ⟨id, entry.into, entry.map⟩ }

end Residual

end Reshard
