import Reshard.Reduction.Basic

/-! The drawing of the live graph as a text for a graph drawing program.

    Nodes are numbered by their position among the live nodes and labelled with name and width;
    edges are labelled with the shape of their tables. In a label, a quote and a backslash are
    escaped and a line break is written as the mark for one.

    Source: `to_dot`; specification, E.4. -/

namespace Reshard.Reduction

variable {α : Type}

/-- A character in a label. -/
def labelChar : Char → List Char
  | '"' => ['\\', '"']
  | '\\' => ['\\', '\\']
  | '\n' => ['\\', 'l']
  | c => [c]

/-- A label between quotes. -/
def quotedLabel (s : String) : String :=
  String.ofList ('"' :: s.toList.flatMap labelChar ++ ['"'])

/-- The line of a live node. -/
def nodeDrawing (r : Reduction α) (node : NodeId) (position : Nat) : String :=
  let width := (r.graph.width? node).getD 0
  let label := quotedLabel s!"{r.name node} [{width}]"
  s!"    {position} [ label = {label} ]"

/-- The line of an edge, if both its ends are drawn. -/
def edgeDrawing? (live : List NodeId) (edge : Edge) (table : CostTable α) : Option String := do
  let i ← live.idxOf? edge.src
  let j ← live.idxOf? edge.dst
  let label := quotedLabel s!"{table.rows}x{table.cols}"
  return s!"    {i} -> {j} [ label = {label} ]"

/-- The lines of a drawing. -/
def drawingLines (r : Reduction α) : List String :=
  "digraph \x7b" :: (r.liveNodes.zipIdx.map fun (node, position) => r.nodeDrawing node position)
    ++ (r.graph.edges.filterMap fun (edge, table) => edgeDrawing? r.liveNodes edge table)
    ++ ["\x7d"]

/-- The drawing of the live graph. -/
def drawing (r : Reduction α) : String := String.join (r.drawingLines.map (· ++ "\n"))

end Reshard.Reduction
