import Std.Data.ExtTreeMap.Lemmas
import Reshard.Absorption
import Reshard.Fault

/-! The record of all absorbed nodes.

    An entry says which node an absorbed node was merged into and how its strategy follows. That
    node may have been absorbed later, so entries form chains. A resolved entry shortens a chain to
    one step: it names the node at the chain's end and composes the maps on the way. `resolve`
    makes them in the order of the ids and stops at the first chain that runs in a circle; the
    entries made before that stay. A new entry makes all resolved ones void.

    A chain is followed by taking each entry that was used out of the map of entries that are still
    pending, so it ends because that map shrinks, and an entry met again is no longer pending.

    Source: the type `AbsorptionLedger`, which is `Absorptions`, with `record` (`enter`),
    `resolve_chain` (`resolveNode`), `resolve`, `representative` and `reconstruct` (`complete`);
    specification, 4.3 and E.3. -/

namespace Reshard

/-- The entries of absorbed nodes, as made by merges and as resolved. -/
structure Absorptions where
  entries : Std.ExtTreeMap NodeId Absorption
  resolved : Std.ExtTreeMap NodeId Absorption
deriving DecidableEq

namespace Absorptions

variable {α : Type}

/-- No node is absorbed. -/
def empty : Absorptions := ⟨∅, ∅⟩

/-- The number of absorbed nodes. -/
def size (a : Absorptions) : Nat := a.entries.size

/-- Whether no node is absorbed. -/
def isEmpty (a : Absorptions) : Bool := a.entries.isEmpty

/-- Whether a node is absorbed. -/
def contains (a : Absorptions) (node : NodeId) : Bool := a.entries.contains node

/-- Whether there are as many resolved entries as entries. -/
def isResolved (a : Absorptions) : Bool := a.resolved.size == a.entries.size

/-- Makes the entry of a node, in place of an earlier one. -/
def enter (a : Absorptions) (node : NodeId) (entry : Absorption) : Absorptions :=
  ⟨a.entries.insert node entry, ∅⟩

/-! ### Chains -/

/-- The entries along a chain, nearest first, and the node after the last of them. -/
structure Chain where
  passed : List (NodeId × Absorption)
  stop : NodeId

/-- The chain of `node` up to a node that is in `stops` or has no entry. Only entries in `pending`
    are followed; there is no chain if it comes back to an entry that is no longer there. -/
def chain? (stops entries pending : Std.ExtTreeMap NodeId Absorption) (node : NodeId) :
    Option Chain :=
  if stops.contains node then some ⟨[], node⟩
  else
    match _hfound : pending[node]? with
    | some entry =>
      (chain? stops entries (pending.erase node) entry.into).map fun chain =>
        ⟨(node, entry) :: chain.passed, chain.stop⟩
    | none => if entries.contains node then none else some ⟨[], node⟩
termination_by pending.size
decreasing_by
  have hmem : node ∈ pending := Std.ExtTreeMap.mem_iff_isSome_getElem?.2 (by simp [_hfound])
  have hsize := Std.ExtTreeMap.size_erase (t := pending) (k := node)
  have : pending.size ≠ 0 := fun hzero => by
    simp [Std.ExtTreeMap.eq_empty_iff_size_eq_zero.2 hzero] at hmem
  simp only [Std.ExtTreeMap.contains_iff_mem.2 hmem, if_true] at hsize
  omega

/-- The composition of the map of an entry with the one for the rest of its chain. -/
def compose? (outer : Option (List Nat)) (own : List Nat) : Option (List Nat) :=
  match outer with
  | none => some own
  | some outer => outer.mapM (own[·]?)

/-- Makes resolved entries that lead to `root` for the nodes along a chain, from the far end;
    `outer` is the map from the chain's stop to the root. The second component is the map from the
    first of the nodes. -/
def enterChain? (root : NodeId) (outer : Option (List Nat))
    (resolved : Std.ExtTreeMap NodeId Absorption) :
    List (NodeId × Absorption) → Option (Std.ExtTreeMap NodeId Absorption × Option (List Nat))
  | [] => some (resolved, outer)
  | (node, entry) :: rest => do
    let (resolved, outer) ← enterChain? root outer resolved rest
    let map ← compose? outer entry.map
    return (resolved.insert node ⟨root, map⟩, some map)

/-! ### Resolving -/

/-- Resolves the chain of one node. -/
def resolveNode (a : Absorptions) (node : NodeId) : Except (Fault α) Absorptions :=
  if a.resolved.contains node then .ok a
  else do
    let chain ← Fault.require (.absorptionCycle node) (chain? a.resolved a.entries a.entries node)
    let done := a.resolved[chain.stop]?
    let root := (done.map (·.into)).getD chain.stop
    let (resolved, _) ← Fault.require .outOfRange
      (enterChain? root (done.map (·.map)) a.resolved chain.passed)
    return { a with resolved }

/-- Resolves the chains of the given nodes up to the first fault. -/
def resolveAll (a : Absorptions) : List NodeId → Absorptions × Except (Fault α) Unit
  | [] => (a, .ok ())
  | node :: rest =>
    match a.resolveNode node with
    | .error fault => (a, .error fault)
    | .ok a => resolveAll a rest

/-- Resolves all chains. -/
def resolve (a : Absorptions) : Absorptions × Except (Fault α) Unit :=
  a.resolveAll a.entries.keys

/-- The record with all chains resolved. -/
def settled (a : Absorptions) : Except (Fault α) Absorptions :=
  if a.isResolved then .ok a
  else
    match a.resolve with
    | (a, .ok ()) => .ok a
    | (_, .error fault) => .error fault

/-! ### Queries -/

/-- The node that stands in for `node`: itself, unless it is absorbed. -/
def representative (a : Absorptions) (node : NodeId) : Except (Fault α) NodeId :=
  match a.resolved[node]? with
  | some entry => .ok entry.into
  | none =>
    (Fault.require (.absorptionCycle node) (chain? ∅ a.entries a.entries node)).map (·.stop)

/-- Sets the strategy of one absorbed node from its representative's. -/
def fill (assignment full : List Nat) (node : NodeId) (entry : Absorption) :
    Except (Fault α) (List Nat) := do
  let chosen ← Fault.require (.unknownNode entry.into) assignment[entry.into.index]?
  unless node.index < full.length do throw (.unknownNode node)
  let strategy ← Fault.require (.assignment (.noImage chosen entry.into)) (entry.strategy? chosen)
  return full.set node.index strategy

/-- The assignment with the strategies of all absorbed nodes set from their representatives'. -/
def complete (a : Absorptions) (assignment : List Nat) : Except (Fault α) (List Nat) := do
  let a ← a.settled
  a.resolved.toList.foldlM (fun full (node, entry) => fill assignment full node entry) assignment

end Absorptions

end Reshard
