import Reshard.Fault

/-! What happens to a graph while it is built and reduced.

    Events are reported in the order in which they happen. Each has a severity and a text.

    Source: the log lines of `build`, `merge_node` and `simplify_graph`; specification, E.8. -/

namespace Reshard

/-- How important an event is. -/
inductive Severity
  | debug
  | info
  | warn
deriving DecidableEq

/-- Something that happened to a graph. -/
inductive Event (α : Type)
  | built (nodes edges queued : Nat)
  /-- A node was absorbed by its last parent. -/
  | absorbed (src dst : String) (choice : List Nat)
  /-- A node was merged with a parent and keeps others. -/
  | kept (src dst : String) (others : Nat)
  /-- A queued merge failed, and with it the whole reduction. -/
  | aborted (edge : Edge) (fault : Fault α)
  | simplified (live edges absorbed : Nat)
deriving DecidableEq

namespace Event

variable {α : Type}

/-- The severity of an event. -/
def severity : Event α → Severity
  | built .. | simplified .. => .info
  | absorbed .. => .debug
  | kept .. | aborted .. => .warn

/-- The text of an event. -/
def text [CostFormat α] : Event α → String
  | built nodes edges queued =>
    s!"built cost graph: {nodes} nodes, {edges} edges, {queued} merge pairs"
  | absorbed src dst choice =>
    s!"merged '{src}' with '{dst}': absorbed, merge map "
      ++ CostFormat.listText (choice.map toString)
  | kept src dst others =>
    s!"merged '{src}' with '{dst}': destination keeps {others} other parent(s)"
  | aborted edge fault =>
    s!"simplification aborted at ({edge.src.text}, {edge.dst.text}), graph left unchanged: "
      ++ fault.message
  | simplified live edges gone =>
    s!"simplified cost graph: {live} live nodes, {edges} edges, {gone} absorbed"

end Event

end Reshard
