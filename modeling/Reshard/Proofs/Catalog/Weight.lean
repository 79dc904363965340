import Mathlib.Algebra.BigOperators.Group.Finset.Basic
import Reshard.Edge
import Reshard.Proofs.Catalog.Consistent
import Reshard.Proofs.Cost.Exact
import Reshard.Proofs.Outcome

/-! Declared costs edge by edge.

    `weight?` is the cost that a node declares against one of its predecessors, for a strategy of
    each. In a consistent catalog it is there for all strategies that the two nodes have, and the
    cost of an assignment is the sum of these costs over all declared edges (`cost?_eq_sum`). -/

namespace Reshard

/-- The strategy that an assignment gives to a node. -/
def chosenAt (assignment : List Nat) (node : NodeId) : Nat := (assignment[node.index]?).getD 0

theorem getElem?_eq_chosenAt {assignment : List Nat} {node : NodeId}
    (h : node.index < assignment.length) :
    assignment[node.index]? = some (chosenAt assignment node) := by
  rw [chosenAt, List.getElem?_eq_getElem h]
  rfl

namespace Catalog

variable {α : Type} {c : Catalog α} {p n : NodeId} {i j : Nat}

/-- The declared predecessors of a node. -/
def predecessors (c : Catalog α) (node : NodeId) : List NodeId :=
  (c.get? node).elim [] (·.predecessors)

theorem mem_predecessors : p ∈ c.predecessors n ↔ c.Precedes p n := by
  rw [predecessors, Precedes]
  cases c.get? n <;> simp

theorem nodup_predecessors (hc : c.Consistent) : (c.predecessors n).Nodup := by
  rw [predecessors]
  cases hop : c.get? n with
  | none => exact List.nodup_nil
  | some op => exact hc.predecessors_nodup hop

/-- The declared cost of an edge for a strategy of its source and one of its destination. -/
def weight? (c : Catalog α) (e : Edge) (i j : Nat) : Option α := do
  let op ← c.get? e.dst
  let costs ← op.costs? j e.src
  costs[i]?

/-- Every node is given a strategy that it has. -/
def Assigns (c : Catalog α) (full : List Nat) : Prop :=
  full.length = c.size ∧ ∀ n w, c.width? n = some w → chosenAt full n < w

instance {full : List Nat} : Decidable (c.Assigns full) :=
  decidable_of_iff (full.length = c.size ∧ ∀ n ∈ c.ids, ∀ w ∈ c.width? n, chosenAt full n < w)
    (and_congr_right fun _ =>
      ⟨fun h n w hw => h n (mem_ids_of_width? hw) w hw, fun h n _ w => h n w⟩)

/-- The cost lists of a strategy stand in the order of the predecessors. -/
theorem costs?_eq {op : Operator α} {slot : Nat} (hnodup : op.predecessors.Nodup)
    (hslot : op.predecessors[slot]? = some p) :
    op.costs? j p = op.strategies[j]?.bind (·.costs[slot]?) := by
  obtain ⟨hlt, rfl⟩ := List.getElem?_eq_some_iff.1 hslot
  rw [Operator.costs?, List.idxOf?_eq_some_iff.2 ⟨hlt, rfl, fun k hk => ?_⟩]
  · rfl
  · exact fun heq => hk.ne (hnodup.getElem_inj_iff.1 heq)

theorem exists_weight? (hc : c.Consistent) (hpn : c.Precedes p n) {wp wn : Nat}
    (hp : c.width? p = some wp) (hn : c.width? n = some wn) (hi : i < wp) (hj : j < wn) :
    ∃ x, c.weight? ⟨p, n⟩ i j = some x := by
  obtain ⟨op, hop, hmem⟩ := hpn
  obtain ⟨slot, hslot⟩ := List.mem_iff_getElem?.1 hmem
  have hj' : j < op.strategies.length := by
    rw [width?, hop] at hn
    cases hn
    exact hj
  have hs : op.strategies[j] ∈ op.strategies := List.getElem_mem hj'
  have hlt : slot < op.strategies[j].costs.length := by
    rw [hc.length_costs hop hs]
    exact (List.getElem?_eq_some_iff.1 hslot).1
  have hzip : (p, op.strategies[j].costs[slot]) ∈ op.predecessors.zip op.strategies[j].costs :=
    List.mem_iff_getElem?.2 ⟨slot, List.getElem?_zip_eq_some.2
      ⟨hslot, List.getElem?_eq_getElem hlt⟩⟩
  have hi' : i < op.strategies[j].costs[slot].length := by
    cases hp.symm.trans (hc.length_cost_list hop hs hzip)
    exact hi
  refine ⟨op.strategies[j].costs[slot][i], ?_⟩
  simp [weight?, hop, costs?_eq (hc.predecessors_nodup hop) hslot, List.getElem?_eq_getElem hj',
    List.getElem?_eq_getElem hlt, List.getElem?_eq_getElem hi']

theorem precedes_of_weight? {e : Edge} {x : α} (h : c.weight? e i j = some x) :
    c.Precedes e.src e.dst := by
  simp only [weight?, Operator.costs?, Option.bind_eq_bind, Option.bind_eq_some_iff] at h
  obtain ⟨op, hop, _, ⟨slot, hslot, -⟩, -⟩ := h
  obtain ⟨hlt, hp, -⟩ := List.idxOf?_eq_some_iff.1 hslot
  exact ⟨op, hop, hp ▸ List.getElem_mem hlt⟩

/-- Only strategies that the two nodes have are declared a cost. -/
theorem lt_of_weight? (hc : c.Consistent) {x : α} (h : c.weight? ⟨p, n⟩ i j = some x) :
    c.Precedes p n ∧ (∃ w, c.width? p = some w ∧ i < w) ∧ ∃ w, c.width? n = some w ∧ j < w := by
  have hpn := precedes_of_weight? h
  simp only [weight?, Operator.costs?, Option.bind_eq_bind, Option.bind_eq_some_iff] at h
  obtain ⟨op, hop, costs, ⟨slot, hslot, s, hs, hcosts⟩, hx⟩ := h
  obtain ⟨hlt, hp, -⟩ := List.idxOf?_eq_some_iff.1 hslot
  have hzip : (p, costs) ∈ op.predecessors.zip s.costs := List.mem_iff_getElem?.2
    ⟨slot, List.getElem?_zip_eq_some.2 ⟨hp ▸ List.getElem?_eq_getElem hlt, hcosts⟩⟩
  have hwidth := hc.length_cost_list hop (List.mem_of_getElem? hs) hzip
  refine ⟨hpn, ⟨_, hwidth, ?_⟩, op.width, ?_, ?_⟩
  · exact (List.getElem?_eq_some_iff.1 hx).1
  · rw [width?, hop]; rfl
  · exact (List.getElem?_eq_some_iff.1 hs).1

/-- Each declared edge has a cost for the strategies that an assignment gives to its ends. -/
theorem exists_selected {full : List Nat} (hc : c.Consistent) (hfull : c.Assigns full)
    (hpn : c.Precedes p n) :
    ∃ x, c.weight? ⟨p, n⟩ (chosenAt full p) (chosenAt full n) = some x := by
  obtain ⟨hlt, hlt'⟩ := index_lt_of_precedes hc hpn
  obtain ⟨wp, hwp⟩ := exists_width? hlt
  obtain ⟨wn, hwn⟩ := exists_width? hlt'
  exact exists_weight? hc hpn hwp hwn (hfull.2 _ _ hwp) (hfull.2 _ _ hwn)

/-- The cost of an edge under an assignment is the declared one. -/
theorem edgeCost?_eq_weight? {assignment : List Nat} {op : Operator α} (hop : c.get? n = some op)
    (hp : p.index < assignment.length) : edgeCost? op (chosenAt assignment n) assignment p =
      c.weight? ⟨p, n⟩ (chosenAt assignment p) (chosenAt assignment n) := by
  rw [edgeCost?, getElem?_eq_chosenAt hp, weight?, hop]
  rfl

theorem weight?_map {β : Type} {f : α → β} {e : Edge} :
    (c.map f).weight? e i j = (c.weight? e i j).map f := by
  rw [weight?, get?_map, weight?]
  cases c.get? e.dst with
  | none => rfl
  | some op =>
    simp [Operator.costs?, Operator.map, Strategy.map, Option.map_bind, Option.bind_map,
      Option.bind_assoc]

variable [Cost α]

/-- Declared costs are valid in a catalog that passed the check. -/
theorem valid_of_weight? (hvalid : c.ValidCosts) {e : Edge} {x : α} (h : c.weight? e i j = some x) :
    Cost.Valid x := by
  simp only [weight?, Operator.costs?, Option.bind_eq_bind, Option.bind_eq_some_iff] at h
  obtain ⟨op, hop, costs, ⟨slot, hslot, s, hs, hcosts⟩, hx⟩ := h
  obtain ⟨hlt, hp, -⟩ := List.idxOf?_eq_some_iff.1 hslot
  have hzip : (e.src, costs) ∈ op.predecessors.zip s.costs := List.mem_iff_getElem?.2
    ⟨slot, List.getElem?_zip_eq_some.2 ⟨hp ▸ List.getElem?_eq_getElem hlt, hcosts⟩⟩
  exact hvalid e.dst op s e.src costs x hop (List.mem_of_getElem? hs) hzip
    (List.mem_of_getElem? hx)

/-- The declared cost of an edge, zero if there is none. -/
def weight (c : Catalog α) (e : Edge) (i j : Nat) : α := (c.weight? e i j).getD 0

theorem edgeCost?_eq {full : List Nat} (hc : c.Consistent) (hfull : c.Assigns full)
    {op : Operator α} (hop : c.get? n = some op) (hp : p ∈ op.predecessors) :
    edgeCost? op (chosenAt full n) full p =
      some (c.weight ⟨p, n⟩ (chosenAt full p) (chosenAt full n)) := by
  have hpn : c.Precedes p n := ⟨op, hop, hp⟩
  have hlt := (index_lt_of_precedes hc hpn).1
  obtain ⟨x, hx⟩ := exists_selected hc hfull hpn
  rw [edgeCost?_eq_weight? hop (hfull.1 ▸ hlt), weight, hx]
  rfl

/-- The cost of an assignment is the sum over the declared edges. -/
theorem cost?_eq_sum [ExactCost α] {full : List Nat} (hfits : c.Fits) (hc : c.Consistent)
    (hfull : c.Assigns full) : c.cost? full = some (∑ n ∈ c.ids.toFinset,
      ∑ p ∈ (c.predecessors n).toFinset,
        c.weight ⟨p, n⟩ (chosenAt full p) (chosenAt full n)) := by
  let cost (n p : NodeId) : α := c.weight ⟨p, n⟩ (chosenAt full p) (chosenAt full n)
  have hcosts {into : Operator α × Nat → Option (List α)} (hinto : ∀ op chosen,
      into (op, chosen) = op.predecessors.mapM (edgeCost? op chosen full)) :
      (c.operators.zip full).mapM into =
        some (c.ids.map fun n => (c.predecessors n).map (cost n)) := by
    rw [mapM_some_iff, List.forall₂_map_right_iff, List.forall₂_iff_get]
    have hlen : c.ids.length = c.size := by simp [ids]
    refine ⟨by simp [hlen, hfull.1, size], ?_⟩
    intro k hk hk'
    generalize hn : c.ids.get ⟨k, hk'⟩ = n
    obtain rfl : n.index = k := by simp [← hn, ids, hfits.index_ofIndex (hlen ▸ hk')]
    obtain ⟨op, hop⟩ : ∃ op, c.get? n = some op := exists_get? (hlen ▸ hk')
    have hpair : (c.operators.zip full).get ⟨n.index, hk⟩ = (op, chosenAt full n) := by
      refine Option.some.inj ((List.getElem?_eq_getElem hk).symm.trans ?_)
      exact List.getElem?_zip_eq_some.2 ⟨hop, getElem?_eq_chosenAt (hfull.1 ▸ hlen ▸ hk')⟩
    simp only [hpair, hinto, predecessors, hop, Option.elim_some, mapM_some_iff,
      List.forall₂_map_right_iff, List.forall₂_same]
    exact fun p hp => edgeCost?_eq hc hfull hop hp
  have hinner : ∀ n, ((c.predecessors n).map (cost n)).sum =
      ∑ p ∈ (c.predecessors n).toFinset, cost n p := fun n =>
    (List.sum_toFinset _ (nodup_predecessors hc)).symm
  rw [cost?, hcosts fun _ _ => rfl]
  simp only [guard, hfull.1, if_true, Option.bind_eq_bind, Option.pure_def, Option.bind_some,
    Cost.total_eq_sum, List.sum_flatten, List.map_map, Function.comp_def, hinner]
  rw [← List.sum_toFinset _ (nodup_ids hfits)]

end Catalog

end Reshard
