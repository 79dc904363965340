import Reshard.Cost.Basic
import Reshard.NodeId

/-! The catalog of declared nodes.

    A node is declared with its neighbours and its candidate strategies. A strategy carries, for
    each predecessor, the cost of choosing it against each strategy of that predecessor. Nodes are
    named by their position. Nothing here is checked: a catalog may be filled by hand and be
    inconsistent.

    Source: the type `StrategyRegistry`, which is `Catalog`, of `StrategyVector` (`Operator`) and
    `Strategy`, with `add_node` (`add`), `resharding_costs` (`costs?`) and `assignment_cost`
    (`cost?`); specification, E.2. -/

namespace Reshard

/-- A way to run a node. `costs[k][p]` is charged when the `k`-th predecessor runs its strategy
    `p`. -/
structure Strategy (α : Type) where
  name : String
  costs : List (List α)
deriving BEq, DecidableEq

/-- The strategy with a function applied to each cost. -/
def Strategy.map {α β : Type} (f : α → β) (s : Strategy α) : Strategy β :=
  ⟨s.name, s.costs.map (List.map f)⟩

/-- A declared node: its neighbours, its candidate strategies, and whether it may be merged with
    its predecessors. -/
structure Operator (α : Type) where
  name : String
  predecessors : List NodeId
  successors : List NodeId
  strategies : List (Strategy α)
  mergeable : Bool
deriving BEq, DecidableEq

/-- What a node is called that nobody declared. -/
def unknownName : String := "<unknown>"

namespace Operator

variable {α : Type}

/-- The number of candidate strategies. -/
def width (op : Operator α) : Nat := op.strategies.length

/-- The costs of a strategy against each strategy of a predecessor. -/
def costs? (op : Operator α) (strategy : Nat) (predecessor : NodeId) : Option (List α) := do
  let slot ← op.predecessors.idxOf? predecessor
  let chosen ← op.strategies[strategy]?
  chosen.costs[slot]?

/-- The declared node with a function applied to each cost. -/
def map {β : Type} (f : α → β) (op : Operator α) : Operator β :=
  { op with strategies := op.strategies.map (Strategy.map f) }

end Operator

/-- The declared nodes in the order of their ids. -/
structure Catalog (α : Type) where
  operators : List (Operator α)
deriving BEq, DecidableEq

namespace Catalog

variable {α : Type}

/-- The catalog without nodes. -/
def empty : Catalog α := ⟨[]⟩

/-- The number of declared nodes. -/
def size (c : Catalog α) : Nat := c.operators.length

/-- The declaration of a node. -/
def get? (c : Catalog α) (id : NodeId) : Option (Operator α) := c.operators[id.index]?

/-- The name of a node. -/
def name (c : Catalog α) (id : NodeId) : String := ((c.get? id).map (·.name)).getD unknownName

/-- The number of strategies of a node. -/
def width? (c : Catalog α) (id : NodeId) : Option Nat := (c.get? id).map (·.width)

/-- The ids of all nodes. -/
def ids (c : Catalog α) : List NodeId := (List.range c.size).map NodeId.ofIndex

/-- The declared nodes with their ids. -/
def declarations (c : Catalog α) : List (NodeId × Operator α) := c.ids.zip c.operators

/-- The catalog with a function applied to each cost. -/
def map {β : Type} (f : α → β) (c : Catalog α) : Catalog β := ⟨c.operators.map (Operator.map f)⟩

/-! ### Declaring -/

/-- Changes the declaration of a node. -/
def modify (c : Catalog α) (id : NodeId) (f : Operator α → Operator α) : Catalog α :=
  ⟨c.operators.modify id.index f⟩

/-- Enters `child` among the successors of `parent`. -/
def addSuccessor (child : NodeId) (c : Catalog α) (parent : NodeId) : Catalog α :=
  c.modify parent fun op =>
    if child ∈ op.successors then op else { op with successors := op.successors ++ [child] }

/-- Declares a node behind the others, and enters it as a successor of those of its predecessors
    that are already declared. -/
def add (c : Catalog α) (name : String) (predecessors : List NodeId)
    (strategies : List (Strategy α)) (mergeable : Bool) : Catalog α × NodeId :=
  let id := NodeId.ofIndex c.size
  let c := predecessors.foldl (addSuccessor id) c
  (⟨c.operators ++ [⟨name, predecessors, [], strategies, mergeable⟩]⟩, id)

/-! ### Costs -/

/-- The cost of the edge from a predecessor to a node under an assignment of strategies to nodes;
    the node itself runs the strategy `chosen`. -/
def edgeCost? (op : Operator α) (chosen : Nat) (assignment : List Nat) (predecessor : NodeId) :
    Option α := do
  let costs ← op.costs? chosen predecessor
  costs[← assignment[predecessor.index]?]?

/-- The cost of an assignment: the sum over all declared edges, if each of them has a cost. -/
def cost? [Cost α] (c : Catalog α) (assignment : List Nat) : Option α := do
  guard (assignment.length = c.size)
  let costs ← (c.operators.zip assignment).mapM fun (op, chosen) =>
    op.predecessors.mapM (edgeCost? op chosen assignment)
  return Cost.total costs.flatten

end Catalog

end Reshard
