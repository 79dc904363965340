import Reshard.Cost.Format
import Reshard.Json.Fields
import Reshard.Catalog.Basic

/-! Catalogs as documents.

    A finite cost is written as a numeral and an infeasible one as null, because documents have no
    infinity; no other cost can be written. Reading accepts what writing produces, and besides that
    every way of spelling a record.

    Source: `to_json` (`encode`) and `from_json` (`decode`) of the strategy registry; specification,
    E.2. -/

namespace Reshard

namespace NodeId

/-- The id in a document. -/
def toJson (id : NodeId) : Json := .nat id.index

/-- Reads an id. -/
def ofJson? (v : Json) : Option NodeId := v.count? >>= ofIndex?

end NodeId

/-- Why a catalog was not stored or fetched. -/
inductive DocumentFault (α : Type)
  /-- The document is malformed, or it is no catalog. -/
  | unreadable
  | noForm (cost : α)
  | cannotRead (path : String)
  | cannotWrite (path : String)
deriving DecidableEq

namespace DocumentFault

/-- The message for a fault. -/
def message {α : Type} [CostFormat α] (fault : DocumentFault α) : String :=
  "Registry serialization failed" ++
    match fault with
    | unreadable => ""
    | noForm cost => s!": cost {CostFormat.inMessage cost} has no serialized form"
    | cannotRead path => s!": cannot read '{path}'"
    | cannotWrite path => s!": cannot write '{path}'"

end DocumentFault

variable {α : Type} [Cost α] [CostFormat α]

namespace Cost

/-- The cost in a document, or the cost itself if it has no form there. -/
def toJson (c : α) : Except α Json :=
  if isFinite c then .ok (.num (CostFormat.numeral c))
  else if isInfeasible c then .ok .null
  else .error c

/-- Reads a finite cost. -/
def finiteOfJson? : Json → Option α
  | .num n => CostFormat.ofNumeral? n
  | _ => none

/-- Reads a cost; null is the infeasible one. -/
def ofJson? (v : Json) : Option α := do
  return (← v.optional? finiteOfJson?).getD infeasible

end Cost

namespace Strategy

/-- The names of a strategy's fields. -/
def fields : List String := ["name", "resharding_costs"]

/-- The strategy in a document. -/
def toJson (s : Strategy α) : Except α Json := do
  let costs ← s.costs.mapM fun line => line.mapM Cost.toJson
  return .ofMembers (fields.zip [.text s.name, .list (costs.map .list)])

/-- Reads a strategy. -/
def ofJson? (v : Json) : Option (Strategy α) := do
  let [some name, some costs] ← v.fields? fields 2 | none
  return ⟨← name.text?, ← costs.items? (Json.items? Cost.ofJson?)⟩

end Strategy

namespace Operator

/-- The names of a declared node's fields; the last one is optional. -/
def fields : List String := ["name", "predecessors", "successors", "strategies", "mergeable"]

/-- The declared node in a document. -/
def toJson (op : Operator α) : Except α Json := do
  let strategies ← op.strategies.mapM Strategy.toJson
  return .ofMembers (fields.zip [.text op.name, .list (op.predecessors.map NodeId.toJson),
    .list (op.successors.map NodeId.toJson), .list strategies, .bool op.mergeable])

/-- Reads a declared node. -/
def ofJson? (v : Json) : Option (Operator α) := do
  let [some name, some predecessors, some successors, some strategies, mergeable] ←
    v.fields? fields 4 | none
  return ⟨← name.text?, ← predecessors.items? NodeId.ofJson?, ← successors.items? NodeId.ofJson?,
    ← strategies.items? Strategy.ofJson?, ← mergeable.elim (some false) Json.bool?⟩

end Operator

namespace Catalog

/-- The names of a catalog's fields. -/
def fields : List String := ["vectors"]

/-- The catalog in a document. -/
def toJson (r : Catalog α) : Except α Json := do
  let operators ← r.operators.mapM Operator.toJson
  return .ofMembers (fields.zip [.list operators])

/-- Reads a catalog. -/
def ofJson? (v : Json) : Option (Catalog α) := do
  let [some operators] ← v.fields? fields 1 | none
  return ⟨← operators.items? Operator.ofJson?⟩

/-- Writes the document of a catalog. -/
def encode (r : Catalog α) : Except (DocumentFault α) String :=
  match r.toJson with
  | .ok v => .ok (v.render .indented)
  | .error cost => .error (.noForm cost)

/-- Reads the document of a catalog. -/
def decode (document : String) : Except (DocumentFault α) (Catalog α) :=
  match Json.parse? document >>= ofJson? with
  | some r => .ok r
  | none => .error .unreadable

end Catalog

end Reshard
