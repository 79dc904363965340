import Reshard.Residual.Basic

/-! Residual problems as documents.

    A problem is written on one line. A cost that was left out, and extra costs that a node does not
    carry, are written as null.

    Source: `to_json` (`encode`) and `from_json` (`decode`) of the solver problem; specification,
    E.5. -/

namespace Reshard.Residual

variable {α : Type} [Cost α] [CostFormat α]

/-- A cost in a document. -/
def costToJson (c : Option α) : Json :=
  ((c >>= Cost.finite?).map CostFormat.numeral).elim .null .num

/-- Reads a cost. -/
def costOfJson? : Json → Option (Option α) := Json.optional? Cost.finiteOfJson?

namespace Node

/-- The names of the fields; the last one is optional, but has its place in a list. -/
def fields : List String := ["id", "name", "strategy_count", "extra_costs"]

/-- The node in a document. -/
def toJson (n : Node α) : Json :=
  .ofMembers (fields.zip [n.id.toJson, .text n.name, .nat n.width,
    n.extra.elim .null fun costs => .list (costs.map costToJson)])

/-- Reads a node. -/
def ofJson? (v : Json) : Option (Node α) := do
  let [some id, some name, some width, extra] ← v.fields? fields 4 | none
  return ⟨← NodeId.ofJson? id, ← name.text?, ← width.count?,
    ← extra.elim (some none) (Json.optional? (Json.items? costOfJson?))⟩

end Node

namespace Pairing

/-- The names of the fields. -/
def fields : List String := ["src", "dst", "rows", "cols", "costs"]

/-- The edge in a document. -/
def toJson (p : Pairing α) : Json :=
  .ofMembers (fields.zip [p.edge.src.toJson, p.edge.dst.toJson, .nat p.rows, .nat p.cols,
    .list (p.costs.map costToJson)])

/-- Reads an edge. -/
def ofJson? (v : Json) : Option (Pairing α) := do
  let [some src, some dst, some rows, some cols, some costs] ← v.fields? fields 5 | none
  return ⟨⟨← NodeId.ofJson? src, ← NodeId.ofJson? dst⟩, ← rows.count?, ← cols.count?,
    ← costs.items? costOfJson?⟩

end Pairing

namespace Absorbed

/-- The names of the fields. -/
def fields : List String := ["id", "representative", "strategy_map"]

/-- The absorbed node in a document. -/
def toJson (a : Absorbed) : Json :=
  .ofMembers (fields.zip [a.id.toJson, a.representative.toJson, .list (a.map.map .nat)])

/-- Reads an absorbed node. -/
def ofJson? (v : Json) : Option Absorbed := do
  let [some id, some representative, some map] ← v.fields? fields 3 | none
  return ⟨← NodeId.ofJson? id, ← NodeId.ofJson? representative, ← map.items? Json.count?⟩

end Absorbed

/-- The names of the fields. -/
def fields : List String := ["nodes", "edges", "absorbed"]

/-- The problem in a document. -/
def toJson (p : Residual α) : Json :=
  .ofMembers (fields.zip [.list (p.nodes.map Node.toJson), .list (p.edges.map Pairing.toJson),
    .list (p.absorbed.map Absorbed.toJson)])

/-- Reads a problem. -/
def ofJson? (v : Json) : Option (Residual α) := do
  let [some nodes, some edges, some absorbed] ← v.fields? fields 3 | none
  return ⟨← nodes.items? Node.ofJson?, ← edges.items? Pairing.ofJson?,
    ← absorbed.items? Absorbed.ofJson?⟩

/-- Writes the document of a problem. -/
def encode (p : Residual α) : String := p.toJson.render .compact

/-- Reads the document of a problem. -/
def decode (document : String) : Except (Fault α) (Residual α) :=
  Fault.require .unreadable (Json.parse? document >>= ofJson?)

end Reshard.Residual
