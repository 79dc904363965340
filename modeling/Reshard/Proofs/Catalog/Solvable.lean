import Reshard.Proofs.Catalog.Unfolded
import Reshard.Proofs.Cost.Bounds

/-! Solvable catalogs.

    A catalog can be solved if some assignment has a finite cost, which is to say that every edge
    has a finite cost under it (`finite_cost?_iff`). An assignment follows an edge if the
    destination runs the first cheapest strategy against the one that the source runs. Going over
    to that strategy keeps the cost of the edge itself finite; it keeps those of the edges behind
    finite too if they do not care which strategy the node runs (`isFinite_of_follows`). -/

namespace Reshard.Catalog

variable {α : Type} [Cost α] {c : Catalog α} {full full' : List Nat} {merged : List Edge}
  {e : Edge} {p n : NodeId} {i j w : Nat}

/-- Some assignment has a finite cost. -/
def Solvable (c : Catalog α) : Prop :=
  ∃ full total, c.Assigns full ∧ c.cost? full = some total ∧ Cost.isFinite total

/-- On each of the edges, the destination runs the first cheapest strategy against the source's. -/
def Follows (c : Catalog α) (merged : List Edge) (full : List Nat) : Prop :=
  ∀ e ∈ merged, Cost.FirstLeast (c.line e (chosenAt full e.src)) (chosenAt full e.dst)

/-- Which costs are finite on the edges behind a node does not depend on the strategy it runs. -/
def Indifferent (c : Catalog α) (n : NodeId) : Prop :=
  ∀ v w w', n ∈ c.predecessors v → c.width? n = some w → c.width? v = some w' →
    ∀ j < w, ∀ j' < w, ∀ k < w',
      Cost.isFinite (c.weight ⟨n, v⟩ j k) = Cost.isFinite (c.weight ⟨n, v⟩ j' k)

instance : Decidable (c.Indifferent n) :=
  decidable_of_iff (∀ v ∈ c.ids, n ∈ c.predecessors v → ∀ w ∈ c.width? n, ∀ w' ∈ c.width? v,
      ∀ j < w, ∀ j' < w, ∀ k < w',
        Cost.isFinite (c.weight ⟨n, v⟩ j k) = Cost.isFinite (c.weight ⟨n, v⟩ j' k))
    ⟨fun h v w w' hv hw hw' => h v (mem_ids_of_width? hw') hv w hw w' hw',
      fun h v _ hv w hw w' hw' => h v w w' hv hw hw'⟩

/-- The costs of all edges are valid. -/
def ValidWeights (c : Catalog α) : Prop := ∀ e i j, Cost.Valid (c.weight e i j)

/-- So they are in a catalog that passed the check, also when they are clipped. -/
theorem ValidCosts.validWeights [BoundedCost α] (hvalid : c.ValidCosts) (settings : Settings α) :
    (c.map settings.clip).ValidWeights := by
  intro e i j
  rw [weight]
  cases hx : (c.map settings.clip).weight? e i j with
  | none => exact BoundedCost.zero_valid
  | some x =>
    rw [weight?_map, Option.map_eq_some_iff] at hx
    obtain ⟨y, hy, rfl⟩ := hx
    exact Settings.clip_valid (valid_of_weight? hvalid hy)

/-! ### Following an edge -/

section Following

variable [OrderedCost α] (hc : c.Consistent) (hv : c.ValidWeights)
include hc hv

/-- The first cheapest strategy is the one that is found by a scan of the line. -/
theorem firstLeast_iff (hpn : c.Precedes e.src e.dst) (hw : c.width? e.src = some w) (hi : i < w) :
    Cost.FirstLeast (c.line e i) j ↔ j = c.cheapest e i := by
  have hline : ∀ x ∈ c.line e i, Cost.Valid x := fun x hx => by
    obtain ⟨k, -, rfl⟩ := List.mem_map.1 hx
    exact hv e i k
  have hcheapest : Cost.FirstLeast (c.line e i) (c.cheapest e i) := by
    refine firstLeast_cheapest hc (fun k x hx => ?_) hpn hw hi
    have := hv e i k
    rwa [weight, show c.weight? e i k = some x from hx] at this
  exact ⟨fun h => Cost.linear_valid.firstLeast_unique hline h hcheapest,
    fun h => h ▸ hcheapest⟩

end Following

/-- No strategy of the destination costs less than the first cheapest one. -/
theorem weight_le_of_firstLeast (h : Cost.FirstLeast (c.line e i) j) (hw : c.width? e.dst = some w)
    {k : Nat} (hk : k < w) : c.weight e i j ≤ c.weight e i k := by
  obtain ⟨low, hlow, hle, -⟩ := h
  rw [line, List.getElem?_map, Option.map_eq_some_iff] at hlow
  obtain ⟨j', hj, rfl⟩ := hlow
  obtain ⟨hlt, rfl⟩ := List.getElem?_eq_some_iff.1 hj
  rw [List.getElem_range] at hle
  refine hle _ (List.mem_map.2 ⟨k, ?_, rfl⟩)
  rwa [List.mem_range, hw]

/-! ### Finite costs -/

variable [FiniteCost α]

/-- An assignment has a finite cost exactly if each edge has one. -/
theorem finite_cost?_iff [ExactCost α] [ClosedCost α] (hfits : c.Fits) (hc : c.Consistent)
    (hv : c.ValidWeights) (hfull : c.Assigns full) :
    (∃ total, c.cost? full = some total ∧ Cost.isFinite total) ↔
      ∀ p n, c.Precedes p n →
        Cost.isFinite (c.weight ⟨p, n⟩ (chosenAt full p) (chosenAt full n)) := by
  have hinner (n : NodeId) : Cost.Valid (∑ p ∈ (c.predecessors n).toFinset,
      c.weight ⟨p, n⟩ (chosenAt full p) (chosenAt full n)) :=
    Finset.sum_induction _ _ ClosedCost.add_valid BoundedCost.zero_valid fun p _ => hv _ _ _
  simp only [cost?_eq_sum hfits hc hfull, Option.some.injEq, exists_eq_left',
    Cost.isFinite_sum_iff fun n _ => hinner n, Cost.isFinite_sum_iff fun p _ => hv _ _ _,
    List.mem_toFinset, mem_predecessors, mem_ids hfits]
  exact ⟨fun h p n hpn => h n (index_lt_of_precedes hc hpn).2 p hpn, fun h n _ p => h p n⟩

/-- Nodes that go over to the first cheapest strategy keep all costs finite, if they have no other
    predecessor and the edges behind them are indifferent. -/
theorem isFinite_of_follows (hc : c.Consistent) (hv : c.ValidWeights)
    (hsingle : ∀ e ∈ merged, ∀ p, c.Precedes p e.dst → p = e.src)
    (hindifferent : ∀ e ∈ merged, c.Indifferent e.dst) (hfull : c.Assigns full)
    (hfull' : c.Assigns full') (hfollows : c.Follows merged full')
    (hkept : ∀ n, n.index < c.size → (∀ e ∈ merged, e.dst ≠ n) →
      chosenAt full' n = chosenAt full n)
    (hfinite : ∀ p n, c.Precedes p n →
      Cost.isFinite (c.weight ⟨p, n⟩ (chosenAt full p) (chosenAt full n))) :
    ∀ p n, c.Precedes p n →
      Cost.isFinite (c.weight ⟨p, n⟩ (chosenAt full' p) (chosenAt full' n)) := by
  intro p n hpn
  obtain ⟨hlt, hlt'⟩ := index_lt_of_precedes hc hpn
  -- first the predecessor goes over to its strategy, and then the node
  have hsrc : Cost.isFinite (c.weight ⟨p, n⟩ (chosenAt full' p) (chosenAt full n)) := by
    by_cases hp : ∃ e ∈ merged, e.dst = p
    · obtain ⟨e, he, rfl⟩ := hp
      obtain ⟨w, hw⟩ := exists_width? hlt
      obtain ⟨w', hw'⟩ := exists_width? hlt'
      rw [hindifferent e he n w w' (mem_predecessors.2 hpn) hw hw' _ (hfull'.2 _ _ hw) _
        (hfull.2 _ _ hw) _ (hfull.2 _ _ hw')]
      exact hfinite _ _ hpn
    · rw [hkept p hlt fun e he hdst => hp ⟨e, he, hdst⟩]
      exact hfinite p n hpn
  by_cases hn : ∃ e ∈ merged, e.dst = n
  · obtain ⟨e, he, rfl⟩ := hn
    cases hsingle e he p hpn
    obtain ⟨w, hw⟩ := exists_width? hlt'
    refine FiniteCost.isFinite_of_le _ _ (hv _ _ _) (hv _ _ _) ?_ hsrc
    exact weight_le_of_firstLeast (hfollows e he) hw (hfull.2 _ _ hw)
  · rw [hkept n hlt' fun e he hdst => hn ⟨e, he, hdst⟩]
    exact hsrc

end Reshard.Catalog
