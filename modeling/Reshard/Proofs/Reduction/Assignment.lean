import Mathlib.Algebra.BigOperators.Group.Finset.Sigma
import Reshard.Proofs.Catalog.Weight
import Reshard.Proofs.Reduction.Stage
import Reshard.Reduction.Assignment

/-! What an assignment costs and how it is completed.

    An assignment is admitted if it has an entry for each node and each live node has the strategy
    that it is given. In a coherent reduction an admitted assignment has a cost, which is that of
    the graph (`cost_eq`). If all chains of absorptions end, it can be completed
    (`exists_complete`): the completed one gives every node a strategy that it has. -/

namespace Reshard.Reduction

variable {α : Type} {r : Reduction α} {assignment full : List Nat}
  {n : NodeId}

/-- Each live node is given a strategy that it has. -/
def Admits (r : Reduction α) (assignment : List Nat) : Prop :=
  assignment.length = r.size ∧ ∀ n w, r.graph.links.isLive n → r.graph.width? n = some w →
    chosenAt assignment n < w

instance : Decidable (r.Admits assignment) :=
  decidable_of_iff (assignment.length = r.size ∧ ∀ n ∈ r.liveNodes, ∀ w ∈ r.graph.width? n,
    chosenAt assignment n < w) (and_congr_right fun _ =>
      ⟨fun h n w hn => h n (Links.mem_liveNodes.2 hn) w,
        fun h n hn w => h n w (Links.mem_liveNodes.1 hn)⟩)

theorem checkEntry_ok (h : r.graph.Shaped) (hlen : assignment.length = r.size)
    (hlive : r.graph.links.isLive n) : r.checkEntry assignment n = .ok () ↔
      ∀ w, r.graph.width? n = some w → chosenAt assignment n < w := by
  have hlt := h.index_lt_of_isLive hlive
  obtain ⟨w, hw⟩ := Graph.exists_width? hlt
  have hchosen : assignment[n.index]? = some (chosenAt assignment n) :=
    getElem?_eq_chosenAt (hlen ▸ hlt)
  simp only [checkEntry, bind_ok_iff, guard_ok_iff, Fault.require_ok_iff, hchosen, hw,
    Option.some.injEq, exists_eq_left', forall_eq']

/-- The check passes exactly the assignments that are admitted. -/
theorem checkEntries_ok (h : r.graph.Shaped) :
    r.checkEntries assignment = .ok () ↔ r.Admits assignment := by
  simp only [checkEntries, guarded_ok_iff, forM_ok_iff]
  refine and_congr_right ?_
  intro hlen
  simp only [liveNodes, Links.mem_liveNodes]
  constructor
  · exact fun hall n w hlive => (checkEntry_ok h hlen hlive).1 (hall n hlive) w
  · exact fun hall n hlive => (checkEntry_ok h hlen hlive).2 fun w => hall n w hlive

/-! ### Completing -/

/-- Admitted assignments can be completed. -/
theorem exists_complete (h : r.toStage.Coherent)
    (hends : ∀ n, Absorptions.Ends r.absorptions.entries n) (ha : r.Admits assignment) : ∃ full,
      r.complete assignment = .ok full ∧
      Absorptions.Completes r.absorptions.entries assignment full := by
  have hin : ∀ n ∈ r.absorptions.entries, n.index < assignment.length := fun n hn => by
    rw [ha.1]
    exact (h.mem_entries.1 hn).1
  have hroots : ∀ n root map, Absorptions.LeadsTo r.absorptions.entries root n (some map) →
      ∃ chosen, assignment[root.index]? = some chosen ∧ chosen < map.length := by
    intro n root map hn
    have hw := h.width_root hn rfl
    have hlive : r.graph.links.isLive root := by
      cases hn with
      | into hentry hinto hmap =>
        exact h.isLive_root (Graph.index_lt_of_width? (h.width_into hentry)) hinto
    exact ⟨_, getElem?_eq_chosenAt (ha.1 ▸ Graph.index_lt_of_width? hw), ha.2 _ _ hlive hw⟩
  obtain ⟨full, hrun, hfull⟩ :=
    Absorptions.exists_complete (α := α) h.composable h.right hends hin hroots
  refine ⟨full, ?_, hfull⟩
  rw [complete, bind_ok_iff]
  exact ⟨(), (checkEntries_ok h.graph.toShaped).2 ha, hrun⟩

/-- Completing succeeds exactly for the admitted assignments. -/
theorem complete_ok_iff (h : r.toStage.Coherent)
    (hends : ∀ n, Absorptions.Ends r.absorptions.entries n) :
    r.complete assignment = .ok full ↔
      r.Admits assignment ∧ Absorptions.Completes r.absorptions.entries assignment full := by
  constructor
  · intro hrun
    have ha : r.Admits assignment := by
      rw [complete, bind_ok_iff] at hrun
      obtain ⟨_, hcheck, -⟩ := hrun
      exact (checkEntries_ok h.graph.toShaped).1 hcheck
    obtain ⟨full', hrun', hfull⟩ := exists_complete h hends ha
    cases hrun.symm.trans hrun'
    exact ⟨ha, hfull⟩
  · rintro ⟨ha, hfull⟩
    obtain ⟨full', hrun, hfull'⟩ := exists_complete h hends ha
    have hfits : assignment.length ≤ NodeId.maxIndex := ha.1.trans_le h.graph.fits
    rw [hrun, hfull'.ext hfull (fun _ _ => rfl) hends rfl hfits]

section Completed

variable (h : r.toStage.Coherent)
  (hfull : Absorptions.Completes r.absorptions.entries assignment full)
include h hfull

/-- Live nodes keep their strategies. -/
theorem chosenAt_of_live (hn : r.graph.links.isLive n) :
    chosenAt full n = chosenAt assignment n := by
  have hnone : r.absorptions.entries[n]? = none :=
    Std.ExtTreeMap.getElem?_eq_none fun hmem => (h.mem_entries.1 hmem).2 hn
  rw [chosenAt, hfull.of_none hnone, chosenAt]

variable (ha : r.Admits assignment)
include ha

/-- Every node is given a strategy that it has. -/
theorem chosenAt_lt (w : Nat) (hw : r.graph.width? n = some w) : chosenAt full n < w := by
  have hlen : full.length = r.graph.size := hfull.length_eq.trans ha.1
  have hlt : n.index < full.length := hlen ▸ Graph.index_lt_of_width? hw
  by_cases hlive : r.graph.links.isLive n
  · rw [chosenAt_of_live h hfull hlive]
    exact ha.2 n w hlive hw
  · obtain ⟨entry, hentry⟩ :=
      FiniteMap.exists_get (h.mem_entries.2 ⟨Graph.index_lt_of_width? hw, hlive⟩)
    have hstrategy := hfull.of_some hentry
    rw [getElem?_eq_chosenAt hlt, eq_comm, Option.bind_eq_some_iff] at hstrategy
    obtain ⟨chosen, -, hmap⟩ := hstrategy
    exact h.lt_width hentry hw (List.mem_of_getElem? hmap)

/-- The strategy of an absorbed node follows from that of the node it was merged into. -/
theorem getElem?_map_chosenAt {entry : Absorption} (hn : r.absorptions.entries[n]? = some entry) :
    entry.map[chosenAt full entry.into]? = some (chosenAt full n) := by
  have hlen : full.length = r.graph.size := hfull.length_eq.trans ha.1
  have hlt : n.index < full.length := hlen ▸ (h.mem_entries.1 (FiniteMap.mem_of_get hn)).1
  have hinto : entry.into.index < full.length :=
    hlen ▸ Graph.index_lt_of_width? (h.width_into hn)
  have hstrategy := hfull.of_some hn
  rw [getElem?_eq_chosenAt hlt, getElem?_eq_chosenAt hinto] at hstrategy
  exact hstrategy.symm

end Completed

/-! ### Costs -/

variable [Cost α]

theorem extraCost_ok (h : r.graph.Shaped) (ha : r.Admits assignment)
    (hlive : r.graph.links.isLive n) : r.extraCost assignment n =
      .ok ((r.graph.extra? n).map fun _ => r.graph.extraAt n (chosenAt assignment n)) := by
  have hlt := h.index_lt_of_isLive hlive
  rw [extraCost]
  cases hextra : r.graph.extra? n with
  | none => rfl
  | some extra =>
    have hchosen : chosenAt assignment n < extra.length := ha.2 n _ hlive (h.length_extra hextra)
    rw [getElem?_eq_chosenAt (ha.1 ▸ hlt)]
    simp only [Option.bind_eq_bind, Option.bind_some, Graph.getElem?_eq_extraAt hextra hchosen]
    rfl

theorem edgeCost_ok (h : r.graph.Coherent) (ha : r.Admits assignment) {e : Edge}
    {t : CostTable α} (ht : r.graph.tables[e]? = some t) : edgeCost assignment e t =
      .ok (r.graph.weight e (chosenAt assignment e.src) (chosenAt assignment e.dst)) := by
  have hlinked := h.mem_children ht
  have hsrc : assignment[e.src.index]? = some (chosenAt assignment e.src) :=
    getElem?_eq_chosenAt (ha.1 ▸ h.toShaped.index_lt_of_isLive (h.live_src hlinked))
  have hdst : assignment[e.dst.index]? = some (chosenAt assignment e.dst) :=
    getElem?_eq_chosenAt (ha.1 ▸ h.toShaped.index_lt_of_isLive (h.live_dst hlinked))
  obtain ⟨x, hx⟩ := CostTable.exists_get?
    (ha.2 _ _ (h.live_src hlinked) (h.table_shape ht).1)
    (ha.2 _ _ (h.live_dst hlinked) (h.table_shape ht).2)
  simp only [edgeCost, bind_ok_iff, Fault.require_ok_iff]
  exact ⟨_, hsrc, _, hdst, by rw [Graph.weight_eq ht hx]; exact hx⟩

/-- The cost of an admitted assignment is made up of the extra costs and the costs of the edges. -/
theorem cost_ok (h : r.toStage.Coherent) (ha : r.Admits assignment) : r.cost assignment =
    .ok (Cost.total ((r.liveNodes.map fun n =>
        (r.graph.extra? n).map fun _ => r.graph.extraAt n (chosenAt assignment n)).filterMap id ++
      r.graph.edges.map fun p =>
        r.graph.weight p.1 (chosenAt assignment p.1.src) (chosenAt assignment p.1.dst))) := by
  have hextras : r.liveNodes.mapM (r.extraCost assignment) = .ok (r.liveNodes.map fun n =>
      (r.graph.extra? n).map fun _ => r.graph.extraAt n (chosenAt assignment n)) := by
    rw [mapM_ok_iff, List.forall₂_map_right_iff, List.forall₂_same]
    exact fun n hn => extraCost_ok h.graph.toShaped ha (Links.mem_liveNodes.1 hn)
  have hedges {price : Edge × CostTable α → Except (Fault α) α}
      (hprice : ∀ e t, price (e, t) = edgeCost assignment e t) : r.graph.edges.mapM price =
      .ok (r.graph.edges.map fun p =>
        r.graph.weight p.1 (chosenAt assignment p.1.src) (chosenAt assignment p.1.dst)) := by
    rw [mapM_ok_iff, List.forall₂_map_right_iff, List.forall₂_same]
    rintro ⟨e, t⟩ hp
    rw [hprice, edgeCost_ok h.graph ha (Std.ExtTreeMap.mem_toList_iff_getElem?_eq_some.1 hp)]
  rw [cost, (checkEntries_ok h.graph.toShaped).2 ha, hextras,
    hedges fun _ _ => rfl]
  rfl

/-- Only the strategies of live nodes count. -/
theorem cost_congr {other : List Nat} (h : r.toStage.Coherent) (ha : r.Admits assignment)
    (hother : r.Admits other)
    (hsame : ∀ n, r.graph.links.isLive n → chosenAt assignment n = chosenAt other n) :
    r.cost assignment = r.cost other := by
  have hextras := List.map_congr_left (l := r.liveNodes) fun n hn =>
    congrArg (fun i => (r.graph.extra? n).map fun _ => r.graph.extraAt n i)
      (hsame n (Links.mem_liveNodes.1 hn))
  have hedges := List.map_congr_left (l := r.graph.edges) fun p hp => by
    have hlinked := h.graph.mem_children (Std.ExtTreeMap.mem_toList_iff_getElem?_eq_some.1 hp)
    exact congrArg₂ (r.graph.weight p.1) (hsame _ (h.graph.live_src hlinked))
      (hsame _ (h.graph.live_dst hlinked))
  rw [cost_ok h ha, cost_ok h hother, hextras, hedges]

variable [ExactCost α]

/-- Nodes without extra costs add nothing. -/
theorem sum_extras {g : Graph α} {f : NodeId → Nat} : ∀ nodes : List NodeId,
    ((nodes.map fun n => (g.extra? n).map fun _ => g.extraAt n (f n)).filterMap id).sum =
      (nodes.map fun n => g.extraAt n (f n)).sum
  | [] => rfl
  | n :: nodes => by
    rw [List.map_cons, List.map_cons, List.sum_cons, ← sum_extras nodes]
    cases hextra : g.extra? n with
    | none =>
      have hzero : g.extraAt n (f n) = 0 := by
        rw [Graph.extra?] at hextra
        rw [Graph.extraAt, hextra]
        rfl
      simp [hzero]
    | some extra => simp

/-- The edges of a coherent graph lead from live nodes to nodes. -/
theorem sum_edges {g : Graph α} (h : g.Coherent) (f : NodeId → Nat) :
    (g.edges.map fun p => g.weight p.1 (f p.1.src) (f p.1.dst)).sum =
      ∑ u ∈ g.live, ∑ v ∈ g.nodes, g.weight ⟨u, v⟩ (f u) (f v) := by
  let ends : Finset Edge := (g.live ×ˢ g.nodes).image fun p => ⟨p.1, p.2⟩
  have hends : ∀ e ∈ g.tables, e ∈ ends := fun e he => by
    obtain ⟨t, ht⟩ := FiniteMap.exists_get he
    have hlinked := h.mem_children ht
    refine Finset.mem_image.2 ⟨(e.src, e.dst), Finset.mem_product.2 ⟨?_, ?_⟩, rfl⟩
    · exact Graph.mem_live.2 (h.live_src hlinked)
    · exact Graph.mem_nodes.2 (h.toShaped.index_lt_of_isLive (h.live_dst hlinked))
  have hentry : ∀ e ∈ ends, (g.tables[e]?).elim 0 (fun _ => g.weight e (f e.src) (f e.dst)) =
      g.weight e (f e.src) (f e.dst) := fun e _ => by
    by_cases he : e ∈ g.tables
    · obtain ⟨t, ht⟩ := FiniteMap.exists_get he
      rw [ht]
      rfl
    · rw [Std.ExtTreeMap.getElem?_eq_none he, Graph.weight_of_notMem he]
      rfl
  have hsum := FiniteMap.sum_toList (f := fun e (_ : CostTable α) =>
    g.weight e (f e.src) (f e.dst)) hends
  rw [Graph.edges, hsum, Finset.sum_congr rfl hentry, Finset.sum_image, Finset.sum_product]
  rintro ⟨u, v⟩ _ ⟨u', v'⟩ _ heq
  exact Prod.ext (congrArg Edge.src heq) (congrArg Edge.dst heq)

/-- The cost of an admitted assignment is that of the graph. -/
theorem cost_eq (h : r.toStage.Coherent) (ha : r.Admits assignment) :
    r.cost assignment = .ok (r.graph.costAt (chosenAt assignment)) := by
  rw [cost_ok h ha]
  refine congrArg Except.ok ?_
  rw [Cost.total_eq_sum, List.sum_append, sum_extras, sum_edges h.graph, liveNodes,
    ← List.sum_toFinset _ h.graph.toShaped.nodup_liveNodes]
  exact Finset.sum_add_distrib.symm

end Reshard.Reduction
