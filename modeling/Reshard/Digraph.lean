import Reshard.Edge

/-! Sorting a directed graph.

    The nodes are sorted so that the source of each edge comes before its destination. A depth-first
    search finishes a node after everything that can be reached from it, so the nodes in the reverse
    order of finishing are sorted, provided that there is no cycle. Whether they are is checked
    afterwards: a node must come after all its predecessors. A fault names a node on a cycle: one
    with an edge to itself as soon as the search enters it, or else the last predecessor that does
    not come before its node.

    The search keeps a list of tasks, to enter a node or to leave it. Each node brings as many tasks
    as it has successors, and one for leaving it, once: when it is taken out of the nodes not yet
    seen. So the search ends when these and the tasks at hand are used up.

    Source: the topological order that `live_order` asks of the graph library; specification, E.4. -/

namespace Reshard

/-- A directed graph. -/
structure Digraph where
  nodes : List NodeId
  edges : List Edge

namespace Digraph

/-- Enters a node behind the others, unless it is there already. -/
def enter (nodes : List NodeId) (node : NodeId) : List NodeId :=
  if node ∈ nodes then nodes else nodes ++ [node]

/-- The graph with the given nodes and edges, and the ends of the edges as further nodes. -/
def ofEdges (nodes : List NodeId) (edges : List Edge) : Digraph where
  nodes := edges.foldl (fun nodes e => enter (enter nodes e.src) e.dst) nodes
  edges := edges

/-- The nodes that a node has an edge to, in the order of the edges. -/
def successors (d : Digraph) (node : NodeId) : List NodeId :=
  (d.edges.filter (·.src = node)).map (·.dst)

/-- The nodes that have an edge to a node, in the order of the edges. -/
def predecessors (d : Digraph) (node : NodeId) : List NodeId :=
  (d.edges.filter (·.dst = node)).map (·.src)

/-- A task of the depth-first search. -/
inductive Task
  | enter (node : NodeId)
  | leave (node : NodeId)

/-- A bound for the tasks that the nodes not yet seen can bring. -/
def ahead (d : Digraph) : List NodeId → Nat
  | [] => 0
  | node :: unseen => (d.successors node).length + 2 + ahead d unseen

theorem ahead_erase {d : Digraph} {unseen : List NodeId} {node : NodeId} (h : node ∈ unseen) :
    d.ahead unseen = (d.successors node).length + 2 + d.ahead (unseen.erase node) := by
  induction unseen with
  | nil => contradiction
  | cons other unseen ih =>
    by_cases heq : other = node
    · simp [ahead, heq]
    · have := ih ((List.mem_cons.1 h).resolve_left (Ne.symm heq))
      simp [ahead, List.erase_cons_tail, heq]
      omega

/-- Carries out tasks. `unseen` holds the nodes that were not entered yet and `finished` those that
    were left, the last one first. The result is the final list of finished nodes, or a node with an
    edge to itself. A node's last successor is entered first. -/
def search (d : Digraph) (unseen finished : List NodeId) : List Task → Except NodeId (List NodeId)
  | [] => .ok finished
  | .leave node :: tasks => search d unseen (node :: finished) tasks
  | .enter node :: tasks =>
    if node ∈ unseen then
      if node ∈ d.successors node then .error node
      else
        search d (unseen.erase node) finished
          ((d.successors node).reverse.map .enter ++ .leave node :: tasks)
    else search d unseen finished tasks
termination_by tasks => d.ahead unseen + tasks.length
decreasing_by
  · simp
  · simp [ahead_erase ‹node ∈ unseen›]; omega
  · simp

/-- Checks that each of the listed nodes comes after all its predecessors, `seen` being the nodes
    that came before. -/
def check (d : Digraph) (seen : List NodeId) : List NodeId → Except NodeId Unit
  | [] => .ok ()
  | node :: rest =>
    match ((d.predecessors node).filter (· ∉ node :: seen)).getLast? with
    | some predecessor => .error predecessor
    | none => check d (node :: seen) rest

/-- The sorted nodes, or a node on a cycle. -/
def sort (d : Digraph) : Except NodeId (List NodeId) := do
  let order ← d.search d.nodes [] (d.nodes.map .enter)
  d.check [] order
  return order

end Digraph

end Reshard
