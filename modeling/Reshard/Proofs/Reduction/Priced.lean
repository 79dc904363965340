import Reshard.Proofs.Reduction.Faults
import Reshard.Proofs.Reduction.Start

/-! Which assignments have a cost.

    The graph checks an assignment before it adds anything up, so at the start it prices exactly
    those that give each node one of its strategies. The catalog only looks up the costs of its
    edges: it notices an entry out of range at a node that has a neighbour, and nowhere else
    (`exists_cost?_iff`). The two agree on all assignments exactly if every node has a neighbour
    (`start_prices`). -/

namespace Reshard

namespace Catalog

variable {α : Type} {c : Catalog α} {assignment : List Nat} {n : NodeId}

/-- The node has a declared neighbour. -/
def Joined (c : Catalog α) (n : NodeId) : Prop :=
  ∃ op ∈ c.get? n, op.predecessors ≠ [] ∨ op.successors ≠ []

/-- The nodes with a neighbour are given strategies that they have. -/
def AssignsJoined (c : Catalog α) (assignment : List Nat) : Prop :=
  assignment.length = c.size ∧
    ∀ n w, c.Joined n → c.width? n = some w → chosenAt assignment n < w

theorem joined_iff (hc : c.Consistent) : c.Joined n ↔ ∃ m, c.Precedes m n ∨ c.Precedes n m := by
  constructor
  · rintro ⟨op, hop, hne | hne⟩
    · exact (List.exists_mem_of_ne_nil _ hne).imp fun m hm => .inl ⟨op, hop, hm⟩
    · exact (List.exists_mem_of_ne_nil _ hne).imp fun m hm =>
        .inr ((precedes_iff_mem_successors hc).2 ⟨op, hop, hm⟩)
  · rintro ⟨m, ⟨op, hop, hm⟩ | hnm⟩
    · exact ⟨op, hop, .inl (List.ne_nil_of_mem hm)⟩
    · obtain ⟨op, hop, hm⟩ := (precedes_iff_mem_successors hc).1 hnm
      exact ⟨op, hop, .inr (List.ne_nil_of_mem hm)⟩

theorem Assigns.joined (h : c.Assigns assignment) : c.AssignsJoined assignment :=
  ⟨h.1, fun n w _ => h.2 n w⟩

/-- An assignment pairs each declared node with the strategy that it gives to it. -/
theorem mem_zip_assignment {op : Operator α} {chosen : Nat} (hfits : c.Fits)
    (hlen : assignment.length = c.size) : (op, chosen) ∈ c.operators.zip assignment ↔
      ∃ n, c.get? n = some op ∧ chosenAt assignment n = chosen := by
  simp only [List.mem_iff_getElem?, List.getElem?_zip_eq_some]
  constructor
  · rintro ⟨k, hop, hchosen⟩
    have hk : (NodeId.ofIndex k).index = k :=
      hfits.index_ofIndex (List.getElem?_eq_some_iff.1 hop).1
    refine ⟨.ofIndex k, by rwa [get?, hk], ?_⟩
    rw [chosenAt, hk, hchosen]
    rfl
  · rintro ⟨n, hop, rfl⟩
    exact ⟨n.index, hop, getElem?_eq_chosenAt (hlen ▸ index_lt_of_get? hop)⟩

/-- Assignments that are in range where a node has a neighbour are in range everywhere exactly if
    every node has a neighbour. -/
theorem forall_assignsJoined_iff (hc : c.Consistent) :
    (∀ a, c.AssignsJoined a ↔ c.Assigns a) ↔ ∀ n, n.index < c.size → c.Joined n := by
  constructor
  · intro hagree n hn
    by_contra hlone
    obtain ⟨w, hw⟩ := exists_width? hn
    -- out of range at this node, and at no other
    let a := (List.range c.size).map fun i => if i = n.index then w else 0
    have ha (m : NodeId) (hm : m.index < c.size) :
        chosenAt a m = if m.index = n.index then w else 0 := by
      simp [a, chosenAt, hm]
    have hjoined : c.AssignsJoined a := by
      refine ⟨by simp [a], fun m v hm hv => ?_⟩
      have hmn : m.index ≠ n.index := fun heq => hlone (NodeId.ext heq ▸ hm)
      rw [ha m (index_lt_of_width? hv), if_neg hmn]
      exact hc.width_pos hv
    have hlt := ((hagree a).1 hjoined).2 n w hw
    rw [ha n hn, if_pos rfl] at hlt
    exact hlt.false
  · intro hall a
    refine ⟨fun ha => ⟨ha.1, fun n w hw => ?_⟩, Assigns.joined⟩
    exact ha.2 n w (hall n (index_lt_of_width? hw)) hw

variable [Cost α]

/-- The catalog prices an assignment if each declared edge has a cost under it. -/
theorem exists_cost?_iff_weight? (hfits : c.Fits) (hc : c.Consistent) :
    (∃ total, c.cost? assignment = some total) ↔ assignment.length = c.size ∧
      ∀ p n, c.Precedes p n →
        ∃ x, c.weight? ⟨p, n⟩ (chosenAt assignment p) (chosenAt assignment n) = some x := by
  by_cases hlen : assignment.length = c.size
  · have hrun : (∃ total, c.cost? assignment = some total) ↔
        ∀ row ∈ c.operators.zip assignment, ∀ p ∈ row.1.predecessors,
          ∃ x, edgeCost? row.1 row.2 assignment p = some x := by
      simp only [cost?, guard, hlen, if_true, Option.bind_eq_bind, Option.pure_def,
        Option.bind_some, Option.bind_eq_some_iff, Option.some.injEq, mapM_some_iff,
        exists_of_forall₂_iff]
      exact forall₂_congr fun row _ => exists_forall₂_iff
    rw [hrun, and_iff_right hlen]
    constructor
    · rintro hall p n ⟨op, hop, hp⟩
      have hpn : c.Precedes p n := ⟨op, hop, hp⟩
      rw [← edgeCost?_eq_weight? hop (hlen ▸ (index_lt_of_precedes hc hpn).1)]
      exact hall _ ((mem_zip_assignment hfits hlen).2 ⟨n, hop, rfl⟩) p hp
    · rintro hall ⟨op, chosen⟩ hrow p hp
      obtain ⟨n, hop, rfl⟩ := (mem_zip_assignment hfits hlen).1 hrow
      have hpn : c.Precedes p n := ⟨op, hop, hp⟩
      rw [edgeCost?_eq_weight? hop (hlen ▸ (index_lt_of_precedes hc hpn).1)]
      exact hall p n hpn
  · have hnone : c.cost? assignment = none := by
      rw [cost?, guard, if_neg hlen]
      rfl
    simp [hnone, hlen]

/-- The catalog prices exactly the assignments that are in range where a node has a neighbour. -/
theorem exists_cost?_iff (hfits : c.Fits) (hc : c.Consistent) :
    (∃ total, c.cost? assignment = some total) ↔ c.AssignsJoined assignment := by
  rw [exists_cost?_iff_weight? hfits hc]
  refine and_congr_right fun _ => ⟨fun hall n w hn hw => ?_, fun hall p n hpn => ?_⟩
  · obtain ⟨m, hmn | hnm⟩ := (joined_iff hc).1 hn
    · obtain ⟨x, hx⟩ := hall m n hmn
      obtain ⟨-, -, w', hw', hlt⟩ := lt_of_weight? hc hx
      cases hw.symm.trans hw'
      exact hlt
    · obtain ⟨x, hx⟩ := hall n m hnm
      obtain ⟨-, ⟨w', hw', hlt⟩, -⟩ := lt_of_weight? hc hx
      cases hw.symm.trans hw'
      exact hlt
  · obtain ⟨hp, hn⟩ := index_lt_of_precedes hc hpn
    obtain ⟨wp, hwp⟩ := exists_width? hp
    obtain ⟨wn, hwn⟩ := exists_width? hn
    exact exists_weight? hc hpn hwp hwn (hall p wp ((joined_iff hc).2 ⟨n, .inr hpn⟩) hwp)
      (hall n wn ((joined_iff hc).2 ⟨p, .inl hpn⟩) hwn)

end Catalog

/-! ### The start -/

namespace Reduction

variable {α : Type} [Cost α] {settings : Settings α} {c : Catalog α} {r : Reduction α}
  {assignment : List Nat}

/-- At the start the graph prices exactly the assignments for the catalog. -/
theorem Started.exists_cost_iff (h : Started settings c r) :
    (∃ total, r.cost assignment = .ok total) ↔ c.Assigns assignment := by
  rw [Reduction.exists_cost_iff h.coherent]
  constructor
  · intro ha
    refine ⟨by rw [ha.1, size, h.graph.size, Catalog.size_map], fun n w hw => ?_⟩
    have hlive : r.graph.links.isLive n := by
      rw [h.graph.isLive_iff, Catalog.size_map]
      exact Catalog.index_lt_of_width? hw
    exact ha.2 n w hlive (by rw [h.graph.width?, Catalog.width?_map, hw])
  · exact fun ha => admits_of_assigns h [] (Catalog.assigns_map.2 ha)

/-- Which assignments have a cost in the graph, and which have one in the catalog. -/
structure Prices (c : Catalog α) (r : Reduction α) : Prop where
  exists_cost_iff {a : List Nat} : (∃ total, r.cost a = .ok total) ↔ c.Assigns a
  exists_cost?_iff {a : List Nat} : (∃ total, c.cost? a = some total) ↔ c.AssignsJoined a
  exists_cost?_of_cost {a : List Nat} : (∃ total, r.cost a = .ok total) →
    ∃ total, c.cost? a = some total
  agree_iff : (∀ a, (∃ total, c.cost? a = some total) ↔ ∃ total, r.cost a = .ok total) ↔
    ∀ n, n.index < c.size → c.Joined n

/-- Every catalog that passes the check has a graph that prices exactly the assignments which give
    each node one of its strategies. The catalog itself prices all of these too, but it does not
    look at nodes without a neighbour; so the two agree on all assignments if and only if there is
    no such node. -/
theorem start_prices (h : Startable settings c) :
    FromStart settings c fun r => Prices c r := by
  refine h.fromStart fun r hr => ?_
  have hgraph {a : List Nat} : (∃ total, r.cost a = .ok total) ↔ c.Assigns a :=
    hr.exists_cost_iff
  have hcatalog {a : List Nat} : (∃ total, c.cost? a = some total) ↔ c.AssignsJoined a :=
    Catalog.exists_cost?_iff h.fits h.consistent
  exact
    { exists_cost_iff := hgraph
      exists_cost?_iff := hcatalog
      exists_cost?_of_cost := fun ha => hcatalog.2 (hgraph.1 ha).joined
      agree_iff := by
        simp only [hgraph, hcatalog]
        exact Catalog.forall_assignsJoined_iff h.consistent }

/-- Each node of `weave` has a neighbour, so both notice that the third node has no third
    strategy. -/
theorem weave_start_prices : FromStart ⟨true, some 8⟩ weave fun r =>
    (∃ total, weave.cost? [1, 0, 1, 0] = some total) ∧
    (∃ total, r.cost [1, 0, 1, 0] = .ok total) ∧ weave.cost? [1, 0, 2, 0] = none ∧
    ¬ ∃ total, r.cost [1, 0, 2, 0] = .ok total := by
  obtain ⟨r, event, hstart, hprices⟩ := start_prices weave_startable.toStartable
  have hjoined : ∀ op ∈ weave.operators, op.predecessors ≠ [] ∨ op.successors ≠ [] := by decide
  have hsame := hprices.agree_iff.2 fun n hn => by
    obtain ⟨op, hop⟩ := Catalog.exists_get? hn
    exact ⟨op, hop, hjoined op (List.mem_of_getElem? hop)⟩
  have hcost := hprices.exists_cost_iff (a := [1, 0, 1, 0]).2 (by decide)
  have hnone : weave.cost? [1, 0, 2, 0] = none := by decide
  exact ⟨r, event, hstart, hprices.exists_cost?_of_cost hcost, hcost, hnone,
    fun h => by simpa [hnone] using (hsame _).2 h⟩

/-- Two neighbours and a node of its own. -/
def hermit : Catalog Float where
  operators :=
    [⟨"a", [], [.ofIndex 1], [⟨"s", []⟩], false⟩, ⟨"b", [.ofIndex 0], [], [⟨"s", [[0.5]]⟩], false⟩,
      ⟨"h", [], [], [⟨"s", []⟩], false⟩]

/-- The last node has no second strategy, but only the graph notices. -/
theorem hermit_prices_differ : Startable {} hermit ∧ hermit.cost? [0, 0, 1] = some 0.5 ∧
    FromStart {} hermit fun r => ¬ ∃ total, r.cost [0, 0, 1] = .ok total := by
  have hstartable : Startable {} hermit := ⟨by decide, by decide, by decide +kernel⟩
  refine ⟨hstartable, by decide +kernel, hstartable.fromStart fun r hr => ?_⟩
  rw [hr.exists_cost_iff]
  decide

end Reduction

end Reshard
