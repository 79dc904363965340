import Reshard.Cost.Format
import Reshard.NodeId

/-! What can be wrong with a catalog.

    Source: the cases of `RegistryError` that `validate` reports. -/

namespace Reshard

/-- A way in which a catalog is inconsistent. -/
inductive Defect (α : Type)
  /-- A neighbour is not declared. -/
  | unknownNode (node missing : NodeId)
  | noStrategies (node : NodeId) (name : String)
  | duplicateNeighbor (node neighbor : NodeId)
  /-- Only one of the two ends lists the other as its neighbour. -/
  | oneSided (parent child : NodeId)
  /-- A strategy does not have one cost list per predecessor. -/
  | costListCount (node : NodeId) (strategy expected actual : Nat)
  /-- A cost list does not have one cost per strategy of the predecessor. -/
  | costListLength (node : NodeId) (strategy : Nat) (predecessor : NodeId) (expected actual : Nat)
  | invalidCost (node : NodeId) (strategy : Nat) (predecessor : NodeId) (value : α)
deriving DecidableEq

namespace Defect

/-- The message for a defect. -/
def message {α : Type} [CostFormat α] : Defect α → String
  | unknownNode node missing => s!"Node {node.text} references unknown node {missing.text}"
  | noStrategies _ name => s!"Node '{name}' has no candidate strategies"
  | duplicateNeighbor node neighbor => s!"Node {node.text} lists {neighbor.text} more than once"
  | oneSided parent child =>
    s!"Adjacency mismatch: {parent.text} -> {child.text} is declared on one side only"
  | costListCount node strategy expected actual =>
    s!"Node {node.text} strategy {strategy} has {actual} cost lists, expected {expected}"
  | costListLength node strategy predecessor expected actual =>
    s!"Node {node.text} strategy {strategy} has {actual} costs against {predecessor.text}, "
      ++ s!"expected {expected}"
  | invalidCost node strategy predecessor value =>
    s!"Node {node.text} strategy {strategy} has an invalid cost {CostFormat.inMessage value} "
      ++ s!"against {predecessor.text}"

end Defect

end Reshard
