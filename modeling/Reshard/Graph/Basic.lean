import Std.Data.ExtTreeMap.Basic
import Reshard.Cost.Table
import Reshard.Fault
import Reshard.Links

/-! Cost graphs.

    A cost graph has a width for each node (the number of its strategies), the links between the
    nodes, a cost table for each edge, and extra costs for the strategies of nodes that have taken
    over the costs of others. Tables and extra costs are finite maps, so two graphs are equal as
    soon as they hold the same entries.

    Source: the type `GraphSnapshot`, which is `Graph`, with `edge_cost` (`table`) and
    `extra_node_cost` (`extra?`); specification, 3. -/

namespace Reshard

/-- A cost graph. -/
structure Graph (α : Type) where
  widths : List Nat
  links : Links
  tables : Std.ExtTreeMap Edge (CostTable α)
  extras : Std.ExtTreeMap NodeId (List α)

namespace Graph

variable {α : Type}

/-- Graphs are compared part by part and cost by cost. -/
instance [BEq α] : BEq (Graph α) where
  beq g h := g.widths == h.widths && g.links == h.links && g.tables == h.tables
    && g.extras == h.extras

/-- The number of nodes, live or not. -/
def size (g : Graph α) : Nat := g.widths.length

/-- The number of strategies of a node. -/
def width? (g : Graph α) (id : NodeId) : Option Nat := g.widths[id.index]?

/-- The cost table of an edge. -/
def table (g : Graph α) (edge : Edge) : Except (Fault α) (CostTable α) :=
  Fault.require (.noSuchEdge edge) g.tables[edge]?

/-- The extra costs of a node's strategies. -/
def extra? (g : Graph α) (id : NodeId) : Option (List α) := g.extras[id]?

/-- The edges with their tables, ordered by source and then by destination. -/
def edges (g : Graph α) : List (Edge × CostTable α) := g.tables.toList

end Graph

end Reshard
