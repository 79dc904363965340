import Reshard.Reduction.Basic

/-! Assignments of strategies to the nodes of a reduced graph.

    An assignment has an entry for every node. Only the entries of live nodes count: they must be
    strategies that the nodes have, and the cost is that of the live graph. The entries of absorbed
    nodes are ignored, and `complete` fills them in.

    Source: `check_assignment` (`checkEntries`), `assignment_cost` (`cost`), `reconstruct`
    (`complete`) and `representative` of the cost graph; specification, E.3. -/

namespace Reshard.Reduction

variable {α : Type}

/-- Checks the entry of a live node. -/
def checkEntry (r : Reduction α) (assignment : List Nat) (node : NodeId) :
    Except (Fault α) Unit := do
  let chosen ← Fault.require .outOfRange assignment[node.index]?
  let width ← Fault.require .outOfRange (r.graph.width? node)
  unless chosen < width do throw (.assignment (.noStrategy (r.name node) width chosen))

/-- Checks the length of an assignment and the entries of the live nodes. -/
def checkEntries (r : Reduction α) (assignment : List Nat) : Except (Fault α) Unit := do
  unless assignment.length = r.size do
    throw (.assignment (.wrongLength r.size assignment.length))
  r.liveNodes.forM (r.checkEntry assignment)

/-- The extra cost that a node carries under an assignment, if it carries any. -/
def extraCost (r : Reduction α) (assignment : List Nat) (node : NodeId) :
    Except (Fault α) (Option α) :=
  match r.graph.extra? node with
  | none => .ok none
  | some extra =>
    (Fault.require .outOfRange (assignment[node.index]? >>= (extra[·]?))).map some

/-- The cost of an edge under an assignment. -/
def edgeCost (assignment : List Nat) (edge : Edge) (table : CostTable α) : Except (Fault α) α := do
  let i ← Fault.require .outOfRange assignment[edge.src.index]?
  let j ← Fault.require .outOfRange assignment[edge.dst.index]?
  Fault.require (.noSuchEdge edge) (table.get? i j)

/-- The cost of an assignment: the extra costs of the live nodes and the costs of the edges. -/
def cost [Cost α] (r : Reduction α) (assignment : List Nat) : Except (Fault α) α := do
  r.checkEntries assignment
  let extras ← r.liveNodes.mapM (r.extraCost assignment)
  let edges ← r.graph.edges.mapM fun (edge, table) => edgeCost assignment edge table
  return Cost.total (extras.filterMap id ++ edges)

/-- The assignment with the strategies of the absorbed nodes filled in. -/
def complete (r : Reduction α) (assignment : List Nat) : Except (Fault α) (List Nat) := do
  r.checkEntries assignment
  r.absorptions.complete assignment

/-- The live node that stands in for a node. -/
def representative (r : Reduction α) (node : NodeId) : Except (Fault α) NodeId :=
  if node.index < r.size then r.absorptions.representative node else .error (.unknownNode node)

end Reshard.Reduction
