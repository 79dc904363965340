import Reshard.Reduction.Basic

/-! The report of a reduction.

    A report counts what is left of the graph, lists the live nodes with their extra costs and their
    children, says how many merges are still queued, and lists the absorbed nodes whose chains are
    resolved. Each line ends in a line break.

    Source: `format_summary`; specification, E.6. -/

namespace Reshard.Reduction

variable {α : Type} [CostFormat α]

/-- The line of a live node. -/
def nodeLine (r : Reduction α) (node : NodeId) : String :=
  let width := (r.graph.width? node).getD 0
  let extra := (r.graph.extra? node).elim "" fun costs =>
    " extra=" ++ CostFormat.listText (costs.map CostFormat.inReport)
  s!"  {r.name node} [{width} strategies]{extra}"

/-- The lines of a live node and its children. -/
def nodeLines (r : Reduction α) (node : NodeId) : List String :=
  r.nodeLine node :: (r.graph.links.children node).map fun child => s!"    -> {r.name child}"

/-- The line that counts queued merges, as long as there are any. -/
def queueLines (r : Reduction α) : List String :=
  if r.simplified || r.queue.isEmpty then [] else [s!"Pending merges: {r.queue.length}"]

/-- The line of an absorbed node. -/
def absorbedLine (r : Reduction α) (node : NodeId) (a : Absorption) : String :=
  let map := CostFormat.listText (a.map.map toString)
  s!"  {r.name node} => {r.name a.into} via {map}"

/-- The lines about absorbed nodes, under a heading. -/
def absorbedLines (r : Reduction α) : List String :=
  if r.absorptions.isEmpty then []
  else
    "Absorbed:" :: r.absorptions.resolved.toList.map fun (node, a) => r.absorbedLine node a

/-- The line that counts what is left. -/
def heading (r : Reduction α) : String :=
  s!"COST GRAPH ({r.liveNodes.length} of {r.size} nodes live, {r.graph.tables.size} edges)"

/-- The lines of a report. -/
def reportLines (r : Reduction α) : List String :=
  r.heading :: String.ofList (List.replicate 50 '-') :: r.liveNodes.flatMap r.nodeLines
    ++ r.queueLines ++ r.absorbedLines

/-- The report of a reduction. -/
def report (r : Reduction α) : String := String.join (r.reportLines.map (· ++ "\n"))

end Reshard.Reduction
