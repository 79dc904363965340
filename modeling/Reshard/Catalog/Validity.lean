import Reshard.Catalog.Basic
import Reshard.Fault

/-! The check of a catalog.

    Nodes are checked in order, and the first defect is reported. A node must have a strategy; its
    predecessors and successors must be declared, be listed once and list it in return; and each of
    its strategies must have a cost list per predecessor, as long as the predecessor's list of
    strategies and without invalid costs.

    `check` looks up the widths of the predecessors by their positions, of which some might not be
    there. `defect?` says what it finds without such look-ups.

    Source: `validate` of the strategy registry, which is `check` (specification, E.2). -/

namespace Reshard.Catalog

variable {α : Type}

/-- The first defect among the neighbours of `node` on one side: `back` is the list in which a
    neighbour must list `node`, and `defect` says what is wrong if it does not. `seen` holds the
    neighbours that came before. -/
def neighborDefect? (c : Catalog α) (node : NodeId) (back : Operator α → List NodeId)
    (defect : NodeId → Defect α) (seen : List NodeId) : List NodeId → Option (Defect α)
  | [] => none
  | neighbor :: rest =>
    match c.get? neighbor with
    | none => some (.unknownNode node neighbor)
    | some op =>
      if neighbor ∈ seen then some (.duplicateNeighbor node neighbor)
      else if node ∉ back op then some (defect neighbor)
      else neighborDefect? c node back defect (neighbor :: seen) rest

variable [Cost α]

/-! ### Checking -/

/-- Passes if no defect was found. -/
def verdict : Option (Defect α) → Except (Fault α) Unit
  | none => .ok ()
  | some d => .error (.defect d)

/-- Checks the cost list of a strategy against a predecessor, whose width is looked up. -/
def checkCostList (c : Catalog α) (node : NodeId) (strategy : Nat) (predecessor : NodeId)
    (costs : List α) : Except (Fault α) Unit := do
  let expected ← Fault.require .outOfRange (c.width? predecessor)
  verdict <|
    if costs.length ≠ expected then
      some (.costListLength node strategy predecessor expected costs.length)
    else (costs.find? (¬ Cost.Valid ·)).map (.invalidCost node strategy predecessor)

/-- Checks a strategy of `node`. -/
def checkStrategy (c : Catalog α) (node : NodeId) (predecessors : List NodeId)
    (costs : List (List α)) (strategy : Nat) : Except (Fault α) Unit :=
  if costs.length ≠ predecessors.length then
    verdict (some (.costListCount node strategy predecessors.length costs.length))
  else
    (predecessors.zip costs).forM fun (predecessor, costs) =>
      c.checkCostList node strategy predecessor costs

/-- Checks a node: that it has strategies, then its neighbours, then its cost lists. -/
def checkOperator (c : Catalog α) (node : NodeId) (op : Operator α) : Except (Fault α) Unit := do
  verdict (if op.strategies = [] then some (.noStrategies node op.name) else none)
  verdict (neighborDefect? c node Operator.successors (.oneSided · node) [] op.predecessors)
  verdict (neighborDefect? c node Operator.predecessors (.oneSided node ·) [] op.successors)
  op.strategies.zipIdx.forM fun (strategy, position) =>
    c.checkStrategy node op.predecessors strategy.costs position

/-- Checks a catalog node by node. -/
def check (c : Catalog α) : Except (Fault α) Unit :=
  c.declarations.forM fun (node, op) => c.checkOperator node op

/-! ### The first defect -/

/-- The defect of a strategy's cost list against one predecessor. That the predecessor is not
    declared is found before, when the neighbours are checked. -/
def costListDefect? (c : Catalog α) (node : NodeId) (strategy : Nat) (predecessor : NodeId)
    (costs : List α) : Option (Defect α) :=
  match c.width? predecessor with
  | none => some (.unknownNode node predecessor)
  | some expected =>
    if costs.length ≠ expected then
      some (.costListLength node strategy predecessor expected costs.length)
    else (costs.find? (¬ Cost.Valid ·)).map (.invalidCost node strategy predecessor)

/-- The first defect of a strategy of `node`. -/
def strategyDefect? (c : Catalog α) (node : NodeId) (predecessors : List NodeId)
    (costs : List (List α)) (strategy : Nat) : Option (Defect α) :=
  if costs.length ≠ predecessors.length then
    some (.costListCount node strategy predecessors.length costs.length)
  else
    (predecessors.zip costs).findSome? fun (predecessor, costs) =>
      costListDefect? c node strategy predecessor costs

/-- The first defect of a node. -/
def operatorDefect? (c : Catalog α) (node : NodeId) (op : Operator α) : Option (Defect α) :=
  if op.strategies = [] then some (.noStrategies node op.name)
  else
    (neighborDefect? c node Operator.successors (.oneSided · node) [] op.predecessors).or
      ((neighborDefect? c node Operator.predecessors (.oneSided node ·) [] op.successors).or
        (op.strategies.zipIdx.findSome? fun (strategy, position) =>
          strategyDefect? c node op.predecessors strategy.costs position))

/-- The first defect of a catalog. -/
def defect? (c : Catalog α) : Option (Defect α) :=
  c.declarations.findSome? fun (node, op) => operatorDefect? c node op

end Reshard.Catalog
