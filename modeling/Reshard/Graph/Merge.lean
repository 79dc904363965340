import Reshard.Absorption
import Reshard.Graph.Basic

/-! Merging a node with one of its parents.

    To merge the destination of an edge with its source is to fix the destination's strategy as a
    function of the source's: the first cheapest one on the source strategy's line. The source then
    pays the price of that choice, together with the extra cost of the chosen strategy, and takes
    over the destination's children, each with the line of the chosen strategy. A destination
    without other parents is absorbed: it leaves the graph.

    `Graph.prepare` reads the graph and works out a `Merge`, which exists only for two live nodes
    linked as parent and child; `Graph.perform?` writes it.

    Source: the type `ContractionDelta`, which is `Merge`, with `absorption` (`absorption?`), `plan`
    (`prepare`), `apply` (`perform?`) and `contract` (`merge`); specification, 4.2. -/

namespace Reshard

/-- What a merge along `edge` writes. -/
structure Merge (α : Type) where
  edge : Edge
  /-- The destination's strategy for each strategy of the source. -/
  choice : List Nat
  /-- The extra costs of the source afterwards. -/
  charge : List α
  /-- The tables from the source to the destination's children, in the order of the children. -/
  derived : List (NodeId × CostTable α)
  /-- Whether the destination has no other parent. -/
  absorbs : Bool

namespace Merge

variable {α : Type}

/-- The destination's children. -/
def children (m : Merge α) : List NodeId := m.derived.map (·.1)

/-- The absorbed node, if any, and what it is absorbed into. -/
def absorption? (m : Merge α) : Option (NodeId × Absorption) :=
  if m.absorbs then some (m.edge.dst, ⟨m.edge.src, m.choice⟩) else none

end Merge

namespace Graph

variable {α : Type}

/-! ### Preparing -/

section Preparing

variable [Cost α]

/-- The table of an edge whose ends can be merged. -/
def mergeable (g : Graph α) (edge : Edge) : Except (Fault α) (CostTable α) := do
  unless g.links.contains edge.src do throw (.unknownNode edge.src)
  unless g.links.contains edge.dst do throw (.unknownNode edge.dst)
  unless g.links.isLive edge.src && g.links.isLive edge.dst do throw (.refused edge .notLive)
  unless edge.src ∈ g.links.parents edge.dst do throw (.refused edge .notParent)
  Fault.require (.refused edge .noTable) g.tables[edge]?

/-- The extra cost of strategy `i` once it has taken over the pairing with `j`. -/
def charge? (table : CostTable α) (base : List α) (extra : Option (List α)) (i j : Nat) :
    Option α := do
  let paid := (← base[i]?) + (← table.get? i j)
  match extra with
  | none => return paid
  | some extra => return paid + (← extra[j]?)

/-- The extra costs of the source once it has taken over the pairings in `choice`. -/
def charges? (g : Graph α) (edge : Edge) (table : CostTable α) (choice : List Nat) :
    Option (List α) := do
  let base := (g.extras[edge.src]?).getD (List.replicate table.rows 0)
  let charged ← choice.zipIdx.mapM fun (j, i) => charge? table base g.extras[edge.dst]? i j
  return charged ++ base.drop choice.length

/-- The table from the source to a child of the destination: the lines of the chosen strategies,
    added to the table that is there already. -/
def derive (g : Graph α) (edge : Edge) (choice : List Nat) (child : NodeId) :
    Except (Fault α) (NodeId × CostTable α) := do
  let table ← g.table ⟨edge.dst, child⟩
  let moved ← Fault.require .outOfRange (table.select? choice)
  match g.tables[(⟨edge.src, child⟩ : Edge)]? with
  | none => return (child, moved)
  | some existing =>
    return (child, ← Fault.require (.refused edge .shapeMismatch) (existing.add? moved))

/-- Works out the merge along an edge. -/
def prepare (g : Graph α) (edge : Edge) : Except (Fault α) (Merge α) := do
  let table ← g.mergeable edge
  let choice ← Fault.require (.refused edge .noStrategies) table.cheapestAll?
  let charge ← Fault.require .outOfRange (g.charges? edge table choice)
  let derived ← (g.links.children edge.dst).mapM (g.derive edge choice)
  return { edge, choice, charge, derived
           absorbs := (g.links.parents edge.dst).all (· == edge.src) }

end Preparing

/-! ### Performing -/

/-- The tables after a merge. -/
def mergedTables (m : Merge α) (tables : Std.ExtTreeMap Edge (CostTable α)) :
    Std.ExtTreeMap Edge (CostTable α) :=
  let ⟨src, dst⟩ := m.edge
  let tables := m.derived.foldl (fun tables (child, table) => tables.insert ⟨src, child⟩ table)
    tables
  let tables := tables.erase m.edge
  if m.absorbs then m.children.foldl (fun tables child => tables.erase ⟨dst, child⟩) tables
  else tables

/-- The links after a merge. -/
def mergedLinks? (m : Merge α) (links : Links) : Option Links := do
  let ⟨src, dst⟩ := m.edge
  let links ← links.dropParent? dst src
  let links ← links.dropChild? src dst
  let links ← m.children.foldlM (fun links child => links.join? src child) links
  if m.absorbs then
    let links ← m.children.foldlM (fun links child => links.dropParent? child dst) links
    links.withdraw? dst
  else return links

/-- Writes a merge into a graph. -/
def perform? (g : Graph α) (m : Merge α) : Option (Graph α) := do
  return { g with
    links := ← mergedLinks? m g.links
    tables := mergedTables m g.tables
    extras := g.extras.insert m.edge.src m.charge }

/-- Merges the destination of an edge with its source. -/
def merge [Cost α] (g : Graph α) (edge : Edge) : Except (Fault α) (Graph α × Merge α) := do
  let m ← g.prepare edge
  return (← Fault.require .outOfRange (g.perform? m), m)

end Graph

end Reshard
