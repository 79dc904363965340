import Reshard.Proofs.Digraph
import Reshard.Proofs.Reduction.Intact
import Reshard.Residual.Basic

/-! What a solver learns from a residual problem.

    A solver sees the residual problem alone. `cost?` is the cost that it works out for an
    assignment, taking a cost that was left out as infeasible, and `complete?` is how it fills in
    the absorbed nodes. Both agree with the reduction that the problem was made from (`Conveys`), so
    the problem that is solved is the one that was posed (`residual_conveys`). -/

namespace Reshard

variable {α : Type}

namespace Residual

section Reading

variable [Cost α]

/-- A cost that was left out is infeasible. -/
def read (c : Option α) : α := c.getD Cost.infeasible

/-- The extra cost of a node's strategy. -/
def extraCost? (assignment : List Nat) (node : Node α) : Option α :=
  match node.extra with
  | none => some 0
  | some extra => do return read (← extra[← assignment[node.id.index]?]?)

/-- The cost of a pair of strategies, looked up line after line. -/
def pairingCost? (assignment : List Nat) (pairing : Pairing α) : Option α := do
  let i ← assignment[pairing.edge.src.index]?
  let j ← assignment[pairing.edge.dst.index]?
  return read (← pairing.costs[i * pairing.cols + j]?)

/-- The cost of an assignment as far as the problem tells. -/
def cost? (p : Residual α) (assignment : List Nat) : Option α := do
  let extras ← p.nodes.mapM (extraCost? assignment)
  let pairings ← p.edges.mapM (pairingCost? assignment)
  return Cost.total (extras ++ pairings)

end Reading

/-- Enters the strategy of an absorbed node that its representative's maps to. -/
def fill? (assignment full : List Nat) (absorbed : Absorbed) : Option (List Nat) := do
  let chosen ← assignment[absorbed.representative.index]?
  let strategy ← absorbed.map[chosen]?
  guard (absorbed.id.index < full.length)
  return full.set absorbed.id.index strategy

/-- The assignment with the strategies of the absorbed nodes filled in. -/
def complete? (p : Residual α) (assignment : List Nat) : Option (List Nat) :=
  p.absorbed.foldlM (fill? assignment) assignment

/-- The problem tells all that matters about a reduction. -/
structure Conveys [Cost α] (p : Residual α) (r : Reduction α) : Prop where
  nodup_nodes : (p.nodes.map (·.id)).Nodup
  /-- The nodes are the live ones with their numbers of strategies. -/
  exists_node_iff {n : NodeId} {w : Nat} : (∃ node ∈ p.nodes, node.id = n ∧ node.width = w) ↔
    r.graph.links.isLive n ∧ r.graph.width? n = some w
  /-- The source of an edge comes before its destination. -/
  sorted {e : Edge} : e ∈ r.graph.tables → [e.src, e.dst].Sublist (p.nodes.map (·.id))
  nodup_edges : (p.edges.map (·.edge)).Nodup
  mem_edges_iff {e : Edge} : e ∈ p.edges.map (·.edge) ↔ e ∈ r.graph.tables
  nodup_absorbed : (p.absorbed.map (·.id)).Nodup
  mem_absorbed_iff {n : NodeId} : n ∈ p.absorbed.map (·.id) ↔ r.absorptions.contains n
  representative_mem {absorbed : Absorbed} : absorbed ∈ p.absorbed →
    absorbed.representative ∈ p.nodes.map (·.id)
  exists_cost {assignment : List Nat} : r.Admits assignment → ∃ total,
    p.cost? assignment = some total ∧ r.cost assignment = .ok total
  exists_complete {assignment : List Nat} : r.Admits assignment → ∃ full,
    p.complete? assignment = some full ∧ r.complete assignment = .ok full

end Residual

namespace Reduction

variable {r : Reduction α} {order : List NodeId} {p n : NodeId}

/-! ### The order -/

theorem linked_digraph : r.digraph.Linked p n ↔ (⟨p, n⟩ : Edge) ∈ r.graph.tables := by
  rw [digraph, Digraph.Linked, Digraph.ofEdges, Graph.edges, Std.ExtTreeMap.map_fst_toList_eq_keys,
    Std.ExtTreeMap.mem_keys]

theorem sweep_ok_iff : r.sweep = .ok order ↔ r.digraph.sort = .ok order := by
  rw [sweep]
  cases r.digraph.sort <;> simp [Except.mapError]

/-- The order lists the live nodes, the source of each edge before its destination. -/
theorem of_sweep (h : r.graph.Coherent) (hsweep : r.sweep = .ok order) :
    order.Perm r.liveNodes ∧ ∀ e ∈ r.graph.tables, [e.src, e.dst].Sublist order := by
  have hclosed : r.digraph.Closed := Digraph.closed_ofEdges h.toShaped.nodup_liveNodes
  obtain ⟨hperm, hsorted⟩ := Digraph.of_sort_ok hclosed (sweep_ok_iff.1 hsweep)
  refine ⟨?_, fun e he => hsorted e.src e.dst (linked_digraph.2 he)⟩
  refine (List.perm_ext_iff_of_nodup (hperm.nodup_iff.2 hclosed.nodup)
    h.toShaped.nodup_liveNodes).2 fun n => ?_
  rw [hperm.mem_iff, digraph, Digraph.mem_nodes_ofEdges]
  refine or_iff_left_of_imp ?_
  -- the ends of the edges are live anyway
  rintro ⟨e, he, hn⟩
  obtain ⟨⟨_, t⟩, ht, rfl⟩ := List.mem_map.1 he
  have hlinked := h.mem_children (Std.ExtTreeMap.mem_toList_iff_getElem?_eq_some.1 ht)
  rw [liveNodes, Links.mem_liveNodes]
  rcases hn with rfl | rfl
  · exact h.live_src hlinked
  · exact h.live_dst hlinked

/-- A sound graph can be swept. -/
theorem exists_sweep {rank : NodeId → Nat} (h : r.graph.Sound rank) :
    ∃ order, r.sweep = .ok order := by
  have hclosed : r.digraph.Closed := Digraph.closed_ofEdges h.toShaped.nodup_liveNodes
  cases hsort : r.digraph.sort with
  | ok order => exact ⟨order, sweep_ok_iff.2 hsort⟩
  | error n =>
    have hrank {p n : NodeId} (hpn : r.digraph.Linked p n) : rank p < rank n :=
      h.rank_lt (h.mem_tables.1 (linked_digraph.1 hpn))
    have hcycle : Relation.TransGen (· < ·) (rank n) (rank n) :=
      (Digraph.of_sort_error hclosed hsort).lift rank fun _ _ => hrank
    rw [Relation.transGen_eq_self] at hcycle
    exact absurd hcycle (lt_irrefl _)

end Reduction

namespace Residual

variable {r : Reduction α} {order : List NodeId} {n : NodeId} {assignment full full' : List Nat}

/-! ### Completing -/

theorem fill?_of_fill {entry : Absorption}
    (h : Absorptions.fill (α := α) assignment full n entry = .ok full') :
    fill? assignment full ⟨n, entry.into, entry.map⟩ = some full' := by
  simp only [Absorptions.fill, bind_ok_iff, guarded_ok_iff, Fault.require_ok_iff, pure_ok_iff] at h
  obtain ⟨chosen, hchosen, hlt, strategy, hstrategy, rfl⟩ := h
  rw [Absorption.strategy?] at hstrategy
  simp [fill?, hchosen, hstrategy, guard, hlt]

/-- The solver fills in what the record of absorptions does. -/
theorem fillAll_of_fillAll : ∀ {listed : List (NodeId × Absorption)} {full full' : List Nat},
    listed.foldlM (fun full (node, entry) =>
      Absorptions.fill (α := α) assignment full node entry) full = .ok full' →
    (listed.map fun (id, entry) => Absorbed.mk id entry.into entry.map).foldlM (fill? assignment)
      full = some full'
  | [], _, _, h => congrArg some (pure_ok_iff.1 h)
  | (node, entry) :: listed, full, full', h => by
    rw [List.foldlM_cons, bind_ok_iff] at h
    obtain ⟨next, hnext, hrest⟩ := h
    rw [List.map_cons, List.foldlM_cons, fill?_of_fill hnext]
    exact fillAll_of_fillAll hrest

/-- Filling in what the problem lists amounts to completing. -/
theorem exists_complete?_eq {p : Residual α} (hr : r.toStage.Coherent)
    (hends : ∀ n, Absorptions.Ends r.absorptions.entries n) (ha : r.Admits assignment)
    {absorptions : Absorptions} (hsettled : r.absorptions.settled (α := α) = .ok absorptions)
    (habsorbed : p.absorbed = absorptions.resolved.toList.map fun (id, entry) =>
      ⟨id, entry.into, entry.map⟩) :
    ∃ full, p.complete? assignment = some full ∧ r.complete assignment = .ok full := by
  obtain ⟨full, hfull, -⟩ := Reduction.exists_complete hr hends ha
  have hrun : r.absorptions.complete (α := α) assignment = .ok full := by
    rw [Reduction.complete, bind_ok_iff] at hfull
    obtain ⟨_, -, hrun⟩ := hfull
    exact hrun
  rw [Absorptions.complete, hsettled] at hrun
  refine ⟨full, ?_, hfull⟩
  rw [complete?, habsorbed]
  exact fillAll_of_fillAll hrun

/-! ### Costs -/

section Costs

variable [Cost α] [ClosedCost α] (hr : r.toStage.Coherent) (hv : r.graph.ValidCosts)
  (ha : r.Admits assignment)
include hr hv ha

theorem extraCost?_nodeOf (hn : r.graph.links.isLive n) : extraCost? assignment (nodeOf r n) =
    some (r.graph.extraAt n (chosenAt assignment n)) := by
  have h := hr.graph.toShaped
  have hlt : n.index < assignment.length := ha.1 ▸ h.index_lt_of_isLive hn
  rw [extraCost?, nodeOf, Graph.extraAt, Graph.extra?]
  cases hextra : r.graph.extras[n]? with
  | none => rfl
  | some extra =>
    have hchosen : chosenAt assignment n < extra.length := ha.2 n _ hn (h.length_extra hextra)
    have hread := Cost.getD_finite? (hv.extra hextra (List.getElem_mem hchosen))
    simp [getElem?_eq_chosenAt hlt, List.getElem?_eq_getElem hchosen, read, hread]

theorem pairingCost?_pairingOf {e : Edge} {t : CostTable α} (ht : r.graph.tables[e]? = some t) :
    pairingCost? assignment (pairingOf e t) =
      some (r.graph.weight e (chosenAt assignment e.src) (chosenAt assignment e.dst)) := by
  have h := hr.graph
  have hlinked := h.mem_children ht
  have hsrc : assignment[e.src.index]? = some (chosenAt assignment e.src) :=
    getElem?_eq_chosenAt (ha.1 ▸ h.toShaped.index_lt_of_isLive (h.live_src hlinked))
  have hdst : assignment[e.dst.index]? = some (chosenAt assignment e.dst) :=
    getElem?_eq_chosenAt (ha.1 ▸ h.toShaped.index_lt_of_isLive (h.live_dst hlinked))
  have hrow := ha.2 _ _ (h.live_src hlinked) (h.table_shape ht).1
  have hcol := ha.2 _ _ (h.live_dst hlinked) (h.table_shape ht).2
  obtain ⟨x, hx⟩ := CostTable.exists_get? hrow hcol
  have hcell : t.cells[chosenAt assignment e.src * t.cols + chosenAt assignment e.dst]? =
      some x := by
    rwa [CostTable.get?, if_pos ⟨hrow, hcol⟩] at hx
  have hread := Cost.getD_finite? (hv.get ht hx)
  rw [Graph.weight_eq ht hx]
  simp [pairingCost?, pairingOf, hsrc, hdst, hcell, read, hread]

variable [ExactCost α]

/-- Both sides add up the same costs, in an order of their own. -/
theorem exists_cost?_eq {p : Residual α} (horder : order.Perm r.liveNodes)
    (hnodes : p.nodes = order.map (nodeOf r))
    (hedges : p.edges = r.graph.edges.map fun e => pairingOf e.1 e.2) :
    ∃ total, p.cost? assignment = some total ∧ r.cost assignment = .ok total := by
  have hextras : p.nodes.mapM (extraCost? assignment) =
      some (order.map fun n => r.graph.extraAt n (chosenAt assignment n)) := by
    rw [hnodes, mapM_some_iff, List.forall₂_map_left_iff, List.forall₂_map_right_iff,
      List.forall₂_same]
    exact fun n hn => extraCost?_nodeOf hr hv ha (Links.mem_liveNodes.1 (horder.mem_iff.1 hn))
  have hpairings : p.edges.mapM (pairingCost? assignment) = some (r.graph.edges.map fun e =>
      r.graph.weight e.1 (chosenAt assignment e.1.src) (chosenAt assignment e.1.dst)) := by
    rw [hedges, mapM_some_iff, List.forall₂_map_left_iff, List.forall₂_map_right_iff,
      List.forall₂_same]
    exact fun e he => pairingCost?_pairingOf hr hv ha
      (Std.ExtTreeMap.mem_toList_iff_getElem?_eq_some.1 he)
  refine ⟨_, by rw [cost?, hextras, hpairings]; rfl, ?_⟩
  rw [Reduction.cost_ok hr ha, Cost.total_eq_sum, Cost.total_eq_sum, List.sum_append,
    List.sum_append, Reduction.sum_extras, (horder.map _).sum_eq]

end Costs

/-! ### Conveying -/

variable [Cost α]

theorem ofReduction_ok_iff {p : Residual α} : ofReduction r = .ok p ↔ ∃ order absorptions,
    r.sweep = .ok order ∧ r.absorptions.settled (α := α) = .ok absorptions ∧
      p.nodes = order.map (nodeOf r) ∧
      p.edges = (r.graph.edges.map fun e => pairingOf e.1 e.2) ∧
      p.absorbed = absorptions.resolved.toList.map fun (id, entry) =>
        ⟨id, entry.into, entry.map⟩ := by
  simp only [ofReduction, bind_ok_iff, pure_ok_iff]
  constructor
  · rintro ⟨order, horder, absorptions, hsettled, rfl⟩
    exact ⟨order, absorptions, horder, hsettled, rfl, rfl, rfl⟩
  · rintro ⟨order, absorptions, horder, hsettled, hnodes, hedges, habsorbed⟩
    refine ⟨order, horder, absorptions, hsettled, ?_⟩
    cases p
    cases hnodes
    cases hedges
    cases habsorbed
    rfl

/-- The nodes of the problem are the live ones with their numbers of strategies. -/
theorem exists_nodeOf_iff (h : r.graph.Shaped) (horder : order.Perm r.liveNodes) {w : Nat} :
    (∃ node ∈ order.map (nodeOf r), node.id = n ∧ node.width = w) ↔
      r.graph.links.isLive n ∧ r.graph.width? n = some w := by
  have hlive {n : NodeId} : n ∈ order ↔ r.graph.links.isLive n := by
    rw [horder.mem_iff, Reduction.liveNodes, Links.mem_liveNodes]
  constructor
  · rintro ⟨node, hnode, rfl, rfl⟩
    obtain ⟨n, hn, rfl⟩ := List.mem_map.1 hnode
    obtain ⟨w, hw⟩ := Graph.exists_width? (h.index_lt_of_isLive (hlive.1 hn))
    refine ⟨hlive.1 hn, ?_⟩
    simp only [nodeOf, hw, Option.getD_some]
  · rintro ⟨hn, hw⟩
    exact ⟨nodeOf r n, List.mem_map_of_mem (hlive.2 hn), rfl, by simp only [nodeOf, hw]; rfl⟩

/-- The problem made from a coherent reduction with valid costs conveys it. -/
theorem conveys_of_ok [ExactCost α] [ClosedCost α] (hr : r.toStage.Coherent)
    (hv : r.graph.ValidCosts) {p : Residual α} (hp : ofReduction r = .ok p) : p.Conveys r := by
  obtain ⟨order, absorptions, hsweep, hsettled, hnodes, hedges, habsorbed⟩ :=
    ofReduction_ok_iff.1 hp
  have h := hr.graph.toShaped
  obtain ⟨horder, hsorted⟩ := Reduction.of_sweep hr.graph hsweep
  have hends := Absorptions.ends_of_settled hr.composable hr.right hsettled
  obtain ⟨resolved, hsettled', hright, hmem⟩ :=
    Absorptions.exists_settled (α := α) hr.composable hr.right hends
  cases hsettled.symm.trans hsettled'
  have hids : p.nodes.map (·.id) = order := by
    rw [hnodes, List.map_map]
    exact List.map_id _
  have hnames : p.edges.map (·.edge) = r.graph.tables.keys := by
    rw [hedges, List.map_map, ← Std.ExtTreeMap.map_fst_toList_eq_keys]
    rfl
  have hkeys : p.absorbed.map (·.id) = resolved.keys := by
    rw [habsorbed, List.map_map, ← Std.ExtTreeMap.map_fst_toList_eq_keys]
    rfl
  exact
    { nodup_nodes := hids ▸ horder.nodup_iff.2 h.nodup_liveNodes
      exists_node_iff := hnodes ▸ exists_nodeOf_iff h horder
      sorted := fun he => hids ▸ hsorted _ he
      nodup_edges := hnames ▸ Std.ExtTreeMap.nodup_keys
      mem_edges_iff := hnames ▸ Std.ExtTreeMap.mem_keys
      nodup_absorbed := hkeys ▸ Std.ExtTreeMap.nodup_keys
      mem_absorbed_iff := by
        intro n
        rw [hkeys, Std.ExtTreeMap.mem_keys, Absorptions.contains, Std.ExtTreeMap.contains_iff_mem]
        exact ⟨hright.mem_entries, hmem n⟩
      representative_mem := by
        intro absorbed hin
        rw [habsorbed] at hin
        obtain ⟨⟨n, entry⟩, hn, rfl⟩ := List.mem_map.1 hin
        have hn := Std.ExtTreeMap.mem_toList_iff_getElem?_eq_some.1 hn
        have hindex := (hr.mem_entries.1 (hright.mem_entries (FiniteMap.mem_of_get hn))).1
        rw [hids, horder.mem_iff, Reduction.liveNodes, Links.mem_liveNodes]
        exact hr.isLive_root hindex (hright n entry hn)
      exists_cost := fun ha => exists_cost?_eq hr hv ha horder hnodes hedges
      exists_complete := fun ha => exists_complete?_eq hr hends ha hsettled habsorbed }

variable {settings : Settings α} {c : Catalog α}

/-- The problem that a run of calls for a catalog leaves to a solver conveys the reduction. Without
    cycles in the catalog there always is one. -/
theorem residual_conveys [ExactCost α] [ClosedCost α] (h : Reduction.Startable settings c) :
    Reduction.FromStart settings c fun r => ∀ calls,
      (∀ p, ofReduction (r.run calls) = .ok p → p.Conveys (r.run calls)) ∧
      (c.Acyclic → ∃ p, ofReduction (r.run calls) = .ok p) := by
  refine h.fromStart fun r hr => ?_
  intro calls
  constructor
  · intro p hp
    exact conveys_of_ok (Reduction.coherent_run calls hr.coherent)
      (Reduction.validCosts_run ClosedCost.add_valid calls hr.coherent
        (hr.graph.validCosts h.consistent h.validCosts)) hp
  · intro hacyclic
    obtain ⟨rank, hrank⟩ := Catalog.exists_rank h.fits h.consistent hacyclic
    have hsound := Reduction.sound_run calls (hr.sound hrank)
    obtain ⟨order, hsweep⟩ := Reduction.exists_sweep hsound.graph
    obtain ⟨resolved, hsettled, -⟩ := Absorptions.exists_settled (α := α)
      hsound.coherent.composable hsound.right hsound.ends
    exact ⟨⟨_, _, _⟩, ofReduction_ok_iff.2 ⟨order, _, hsweep, hsettled, rfl, rfl, rfl⟩⟩

/-- The second node is a predecessor of itself too, so there is no order before that edge is merged
    along. -/
def ring : Catalog (WithTop ℕ) where
  operators :=
    [⟨"a", [], [.ofIndex 1], [⟨"s", []⟩, ⟨"t", []⟩], false⟩,
      ⟨"b", [.ofIndex 0, .ofIndex 1], [.ofIndex 1], [⟨"s", [[0, 10], [1, 0]]⟩,
        ⟨"t", [[1, 1], [0, 11]]⟩], true⟩]

theorem ring_startable : Reduction.Startable ⟨true, some 8⟩ ring :=
  ⟨by decide, by decide, by decide⟩

set_option maxRecDepth 4000 in
theorem residual_conveys_ring_weave :
    (Reduction.FromStart ⟨true, some 8⟩ ring fun r => ∃ p,
      ofReduction (r.run [.merge ⟨.ofIndex 1, .ofIndex 1⟩]) = .ok p ∧
      p.Conveys (r.run [.merge ⟨.ofIndex 1, .ofIndex 1⟩])) ∧
    Reduction.FromStart ⟨true, some 8⟩ Reduction.weave fun r => ∃ p,
      ofReduction (r.run Reduction.weaveCalls) = .ok p ∧
      p.Conveys (r.run Reduction.weaveCalls) := by
  constructor
  · obtain ⟨r, event, hstart, h⟩ := residual_conveys ring_startable
    have hsome : (ofReduction (r.run [.merge ⟨.ofIndex 1, .ofIndex 1⟩])).toOption.isSome :=
      of_any (a := (r, event)) (P := fun s : _ × _ =>
        (ofReduction (s.1.run [.merge ⟨.ofIndex 1, .ofIndex 1⟩])).toOption.isSome)
        (by decide +kernel) hstart
    obtain ⟨p, hp⟩ := Option.isSome_iff_exists.1 hsome
    have hp := toOption_eq_some_iff.1 hp
    exact ⟨r, event, hstart, p, hp, (h _).1 p hp⟩
  · have hstartable := Reduction.weave_startable
    obtain ⟨r, event, hstart, h⟩ := residual_conveys hstartable.toStartable
    obtain ⟨hconveys, hexists⟩ := h Reduction.weaveCalls
    obtain ⟨p, hp⟩ := hexists hstartable.acyclic
    exact ⟨r, event, hstart, p, hp, hconveys p hp⟩

end Residual

end Reshard
