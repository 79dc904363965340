import Reshard.Catalog.Basic
import Reshard.Graph.Basic

/-! The cost graph that a catalog declares.

    Each declared edge gets a table whose entry for two strategies is the cost that the destination
    declares. The edges into mergeable nodes are those to merge along.

    Source: the first part of `build`, which makes the edge tables, the adjacency (`links?`) and the
    merge pairs (`mergeEdges`); specification, 4.1. -/

namespace Reshard.Catalog

variable {α : Type}

/-- The table of the edge into `op` from its predecessor in position `slot`, which has `rows`
    strategies. -/
def table? (op : Operator α) (slot rows : Nat) : Option (CostTable α) :=
  CostTable.tabulate? rows op.width fun p n => do
    let strategy ← op.strategies[n]?
    let costs ← strategy.costs[slot]?
    costs[p]?

/-- The tables of the edges into a node. -/
def tablesInto? (c : Catalog α) (node : NodeId) (op : Operator α) :
    Option (List (Edge × CostTable α)) :=
  op.predecessors.zipIdx.mapM fun (src, slot) => do
    return (⟨src, node⟩, ← table? op slot (← c.width? src))

/-- Enters the links of a node as it declares them. -/
def enterLinks? (links : Links) (node : NodeId) (op : Operator α) : Option Links := do
  let links ← links.replaceParents? node op.predecessors
  links.replaceChildren? node op.successors

/-- Live nodes, linked as they declare it. -/
def links? (c : Catalog α) : Option Links :=
  c.declarations.foldlM (fun links (node, op) => enterLinks? links node op) (.unlinked c.size)

/-- The cost graph of a catalog, if each declared edge has a full table. -/
def graph? (c : Catalog α) : Option (Graph α) := do
  let tables ← c.declarations.mapM fun (node, op) => c.tablesInto? node op
  return {
    widths := c.operators.map (·.width)
    links := ← c.links?
    tables := tables.flatten.foldl (fun all (edge, table) => all.insert edge table) ∅
    extras := ∅ }

/-- The edges into mergeable nodes, node by node. -/
def mergeEdges (c : Catalog α) : List Edge :=
  c.declarations.flatMap fun (node, op) =>
    if op.mergeable then op.predecessors.map fun src => ⟨src, node⟩ else []

end Reshard.Catalog
