import Reshard.NodeId

/-! The links between nodes.

    A node has a list of parents, a list of children and a mark that says whether it is still live.
    The two lists of a pair of nodes are kept apart: `join?` enters the pair on both sides, and each
    side can be dropped alone. An operation that names no node fails.

    Source: the type `Adjacency` with `link` (`join?`), `remove_child` (`dropChild?`),
    `remove_parent` (`dropParent?`), `set_parents` (`replaceParents?`), `set_children`
    (`replaceChildren?`) and `retire` (`withdraw?`); specification, E.3. -/

namespace Reshard

/-- What is kept for one node. -/
structure Site where
  parents : List NodeId
  children : List NodeId
  live : Bool
deriving DecidableEq

/-- The sites of all nodes in the order of their ids. -/
structure Links where
  sites : List Site
deriving DecidableEq

namespace Links

/-- Live nodes without links. -/
def unlinked (count : Nat) : Links := ⟨List.replicate count ⟨[], [], true⟩⟩

/-- The number of nodes, live or not. -/
def size (l : Links) : Nat := l.sites.length

/-- What is kept for a node. -/
def site? (l : Links) (id : NodeId) : Option Site := l.sites[id.index]?

/-- Whether an id names a node. -/
def contains (l : Links) (id : NodeId) : Bool := decide (id.index < l.size)

/-- Whether an id names a live node. -/
def isLive (l : Links) (id : NodeId) : Bool := (l.site? id).elim false (·.live)

/-- The parents of a node. -/
def parents (l : Links) (id : NodeId) : List NodeId := (l.site? id).elim [] (·.parents)

/-- The children of a node. -/
def children (l : Links) (id : NodeId) : List NodeId := (l.site? id).elim [] (·.children)

/-- The live nodes in the order of their ids. -/
def liveNodes (l : Links) : List NodeId :=
  ((List.range l.size).map NodeId.ofIndex).filter l.isLive

/-! ### Changes -/

/-- Changes what is kept for a node. -/
def modify? (id : NodeId) (f : Site → Site) (l : Links) : Option Links :=
  if id.index < l.size then some ⟨l.sites.modify id.index f⟩ else none

/-- The list with `id` entered at its end, unless it is there already. -/
def enter (id : NodeId) (ids : List NodeId) : List NodeId :=
  if id ∈ ids then ids else ids ++ [id]

/-- The list without `id`. -/
def drop (id : NodeId) (ids : List NodeId) : List NodeId := ids.filter (· ≠ id)

/-- Replaces the parents of a node. -/
def replaceParents? (id : NodeId) (parents : List NodeId) : Links → Option Links :=
  modify? id fun s => { s with parents := parents }

/-- Replaces the children of a node. -/
def replaceChildren? (id : NodeId) (children : List NodeId) : Links → Option Links :=
  modify? id fun s => { s with children := children }

/-- Enters a pair of nodes as parent and child, on both sides. -/
def join? (parent child : NodeId) (l : Links) : Option Links := do
  let l ← l.modify? parent fun s => { s with children := enter child s.children }
  l.modify? child fun s => { s with parents := enter parent s.parents }

/-- Drops a child on its parent's side. -/
def dropChild? (parent child : NodeId) : Links → Option Links :=
  modify? parent fun s => { s with children := drop child s.children }

/-- Drops a parent on its child's side. -/
def dropParent? (child parent : NodeId) : Links → Option Links :=
  modify? child fun s => { s with parents := drop parent s.parents }

/-- Takes a node out of the live ones, and drops its children on its own side. -/
def withdraw? (id : NodeId) : Links → Option Links :=
  modify? id fun s => { s with live := false, children := [] }

end Links

end Reshard
