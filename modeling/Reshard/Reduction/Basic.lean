import Reshard.Absorptions
import Reshard.Catalog.Validity
import Reshard.Graph.Declared
import Reshard.Graph.Merge
import Reshard.Reduction.Event
import Reshard.Settings

/-! Reducing the cost graph of a catalog.

    A reduction starts from a checked catalog: its costs are clipped as the settings say, and the
    edges into mergeable nodes are queued. `merge` merges along one edge and enters the absorbed
    node, if there is one. `simplifyInPlace` merges along all queued edges, the last one first, and
    then resolves the absorptions. It does so once, and on a copy that it adopts only if all of this
    succeeds. `simplify` tells only what it led to.

    Source: the type `CostGraph`, which is `Reduction`, with `build` (`start`), `merge_node`
    (`merge`) and `simplify_graph` (`simplifyInPlace`). -/

namespace Reshard

/-- A graph together with the nodes that were absorbed on the way to it. -/
structure Stage (α : Type) where
  graph : Graph α
  absorptions : Absorptions

/-- Merges along an edge, and enters the absorbed node. -/
def Stage.merge {α : Type} [Cost α] (s : Stage α) (edge : Edge) :
    Except (Fault α) (Stage α × Merge α) := do
  let (graph, m) ← s.graph.merge edge
  let absorptions := m.absorption?.elim s.absorptions fun (node, entry) =>
    s.absorptions.enter node entry
  return (⟨graph, absorptions⟩, m)

/-- What work on a state comes to: the state that it leaves, also after a fault, what happened on
    the way, and whether it succeeded. -/
structure Attempt (α σ : Type) where
  state : σ
  events : List (Event α)
  result : Except (Fault α) Unit

/-- A cost graph on its way to the smallest one. -/
structure Reduction (α : Type) extends Stage α where
  names : List String
  /-- The edges to merge along, in the order in which they were declared. -/
  queue : List Edge
  settings : Settings α
  simplified : Bool

namespace Reduction

variable {α : Type}

/-- The name at a node's position. -/
def nameIn (names : List String) (id : NodeId) : String := (names[id.index]?).getD unknownName

/-- The name of a node. -/
def name (r : Reduction α) (id : NodeId) : String := nameIn r.names id

/-- The number of nodes, live or not. -/
def size (r : Reduction α) : Nat := r.graph.size

/-- The live nodes in the order of their ids. -/
def liveNodes (r : Reduction α) : List NodeId := r.graph.links.liveNodes

variable [Cost α]

/-- Starts the reduction of a catalog. -/
def start (settings : Settings α) (catalog : Catalog α) :
    Except (Fault α) (Reduction α × Event α) := do
  settings.check
  catalog.check
  let graph ← Fault.require .outOfRange (catalog.map settings.clip).graph?
  let queue := if settings.simplify then catalog.mergeEdges else []
  let names := catalog.operators.map (·.name)
  return ({ graph, absorptions := .empty, names, queue, settings, simplified := false },
    .built catalog.size graph.tables.size queue.length)

/-! ### Merging -/

/-- The event of a merge that led to the graph `g`. -/
def mergeEvent (names : List String) (g : Graph α) (m : Merge α) : Event α :=
  let src := nameIn names m.edge.src
  let dst := nameIn names m.edge.dst
  if m.absorbs then .absorbed src dst m.choice
  else .kept src dst (g.links.parents m.edge.dst).length

/-- Merges along an edge. -/
def merge (r : Reduction α) (edge : Edge) : Except (Fault α) (Reduction α × Event α) := do
  let (stage, m) ← r.toStage.merge edge
  return ({ r with toStage := stage }, mergeEvent r.names stage.graph m)

/-! ### Simplifying -/

/-- Merges along edges one after the other up to the first fault; the merges before it stay. -/
def replay (names : List String) (s : Stage α) : List Edge → Attempt α (Stage α)
  | [] => ⟨s, [], .ok ()⟩
  | edge :: rest =>
    match s.merge edge with
    | .error fault => ⟨s, [.aborted edge fault], .error fault⟩
    | .ok (s, m) =>
      let later := replay names s rest
      { later with events := mergeEvent names s.graph m :: later.events }

/-- Whether there is something left to simplify. -/
def isPending (r : Reduction α) : Bool := r.settings.simplify && !r.simplified

/-- The reduction after all queued merges have led to the stage `s`. -/
def finish (r : Reduction α) (s : Stage α) : Reduction α :=
  { r with toStage := s, simplified := true }

/-- The event of a finished reduction. -/
def finishEvent (r : Reduction α) : Event α :=
  .simplified r.liveNodes.length r.graph.tables.size r.absorptions.size

/-- Merges along all queued edges, the last one first, and resolves the absorptions, all of it in
    `copy`. A fault leaves the copy as it is by then. -/
def simplifyCopy (r : Reduction α) (copy : Stage α) : Attempt α (Stage α) :=
  let replayed := replay r.names copy r.queue.reverse
  match replayed.result with
  | .error _ => replayed
  | .ok () =>
    let (absorptions, result) := replayed.state.absorptions.resolve
    { replayed with state := { replayed.state with absorptions }, result }

/-- Simplifies a copy of the stage, and puts it in the place of the stage if all went well. -/
def simplifyInPlace (r : Reduction α) : Attempt α (Reduction α) :=
  if !r.isPending then ⟨r, [], .ok ()⟩
  else
    let copy := r.simplifyCopy r.toStage
    match copy.result with
    | .error fault => ⟨r, copy.events, .error fault⟩
    | .ok () =>
      let r := r.finish copy.state
      ⟨r, copy.events ++ [r.finishEvent], .ok ()⟩

/-- What happens when a reduction is simplified, and what it leads to if that succeeds. -/
def simplify (r : Reduction α) : List (Event α) × Except (Fault α) (Reduction α) :=
  let done := r.simplifyInPlace
  (done.events, done.result.map fun () => done.state)

end Reduction

end Reshard
