import Reshard.Edge
import Reshard.Catalog.Defect
import Reshard.Catalog.Document

/-! Why an operation failed.

    A fault is a cause; its wording is in `message` alone. The fault `outOfRange` is the one without
    a message: it says that a position was used that a list does not have, which operations on
    consistent values never do.

    Source: `CostGraphError`, which is `Fault`, and the reasons it gives for merges and assignments
    (`MergeRefusal`, `AssignmentFault`); specification, 7 and E.8. -/

namespace Reshard

/-- Why two nodes cannot be merged. -/
inductive MergeRefusal
  | notLive
  | notParent
  | noTable
  /-- A line of the edge's table has no entry to choose. -/
  | noStrategies
  /-- Both nodes have an edge to a child, and the tables differ in shape. -/
  | shapeMismatch
deriving DecidableEq

namespace MergeRefusal

/-- The reason as messages give it. -/
def reason : MergeRefusal → String
  | notLive => "both nodes must be live"
  | notParent => "source is not a parent of destination"
  | noTable => "no cost matrix for edge"
  | noStrategies => "destination has no strategies"
  | shapeMismatch => "existing edge to shared child has a different shape"

end MergeRefusal

/-- What is wrong with an assignment of strategies to nodes. -/
inductive AssignmentFault
  | wrongLength (expected actual : Nat)
  /-- A live node does not have the chosen strategy. -/
  | noStrategy (name : String) (width chosen : Nat)
  /-- The strategy chosen at a representative has no image in an absorbed node. -/
  | noImage (chosen : Nat) (representative : NodeId)
deriving DecidableEq

namespace AssignmentFault

/-- The fault as messages give it. -/
def reason : AssignmentFault → String
  | wrongLength expected actual => s!"expected {expected} entries, got {actual}"
  | noStrategy name width chosen => s!"node '{name}' has {width} strategies, got index {chosen}"
  | noImage chosen representative =>
    s!"strategy {chosen} out of range for node {representative.text}"

end AssignmentFault

/-- Why an operation on a cost graph failed. -/
inductive Fault (α : Type)
  | noSuchEdge (edge : Edge)
  | refused (edge : Edge) (refusal : MergeRefusal)
  | absorptionCycle (node : NodeId)
  | unknownNode (node : NodeId)
  | assignment (fault : AssignmentFault)
  | cycle (node : NodeId)
  /-- A document of settings or of a problem is malformed. -/
  | unreadable
  | threshold (value : α)
  | defect (defect : Defect α)
  | document (fault : DocumentFault α)
  | outOfRange
deriving DecidableEq

namespace Fault

/-- The message for a fault. -/
def message {α : Type} [CostFormat α] : Fault α → String
  | noSuchEdge edge => s!"No edge between {edge.src.text} and {edge.dst.text}"
  | refused edge refusal => s!"Cannot merge {edge.src.text} with {edge.dst.text}: {refusal.reason}"
  | absorptionCycle node => s!"Absorption cycle detected while resolving node {node.text}"
  | unknownNode node => s!"Unknown node {node.text}"
  | assignment fault => s!"Invalid assignment: {fault.reason}"
  | cycle node => s!"Live graph is not acyclic (at node {node.text})"
  | unreadable => "Config error: JSON parse error"
  | threshold value =>
    s!"Config error: infeasible_threshold must be positive, got {CostFormat.inMessage value}"
  | defect d => d.message
  | document fault => fault.message
  | outOfRange => ""

/-- The value, or the fault if there is none. -/
def require {α β : Type} (fault : Fault α) : Option β → Except (Fault α) β
  | none => .error fault
  | some value => .ok value

end Fault

end Reshard
