import Reshard.Proofs.Graph.Absorbed
import Reshard.Proofs.Graph.Optimum

/-! Merging with a leaf.

    A leaf has one parent, no children and no extra costs, so all that its strategy matters for is
    the edge that leads to it: an assignment costs what the other nodes pay among each other and the
    weight of that edge (`Leaf.costAt_eq`). A merge with a leaf chooses the strategy for which the
    weight is least. So afterwards an assignment costs what it cost with the best strategy of the
    leaf (`Leaf.isLeast_costAt`), and the least cost of all stays the same (`Leaf.optimum`). -/

namespace Reshard.Graph

variable {α : Type} [Cost α] {rank : NodeId → Nat} {g g' : Graph α} {m : Merge α} {e : Edge}
  {f f' : NodeId → Nat} {n u : NodeId} {i j k w : Nat}

/-- The edge leads to a node without other parents, children or extra costs. -/
structure Leaf (g : Graph α) (e : Edge) : Prop where
  child : e.dst ∈ g.links.children e.src
  eq_src {p : NodeId} : e.dst ∈ g.links.children p → p = e.src
  childless (c : NodeId) : c ∉ g.links.children e.dst
  extra : e.dst ∉ g.extras

/-- A merge that absorbs a node without children and extra costs leads to a leaf. -/
theorem Absorbed.leaf (ha : g.Absorbed m g') (hg : g.Sound rank)
    (hchildren : g.links.children m.edge.dst = []) (hextra : g.extra? m.edge.dst = none) :
    g.Leaf m.edge where
  child := ha.plan.child hg
  eq_src := ha.eq_src hg
  childless := List.eq_nil_iff_forall_not_mem.1 hchildren
  extra hmem := by
    obtain ⟨costs, hcosts⟩ := FiniteMap.exists_get hmem
    cases hextra.symm.trans hcosts

/-- Absorbing a leaf leaves the other leaves alone. -/
theorem Leaf.of_absorbed (hleaf : g.Leaf e) (hdst : g.Leaf m.edge) (ha : g.Absorbed m g')
    (hg : g.Sound rank) (hne : e.dst ≠ m.edge.dst) : g'.Leaf e where
  child := by
    refine (ha.mem_children hg).2 ⟨⟨fun hsrc => ?_, hne⟩, .inl hleaf.child⟩
    exact hdst.childless _ (hsrc ▸ hleaf.child)
  eq_src hp := by
    rcases ((ha.mem_children hg).1 hp).2 with hp | ⟨-, hp⟩
    · exact hleaf.eq_src hp
    · exact absurd hp (hdst.childless _)
  childless c hc := by
    rcases ((ha.mem_children hg).1 hc).2 with hc | ⟨-, hc⟩
    · exact hleaf.childless c hc
    · exact hdst.childless c hc
  extra hmem := by
    rcases (ha.mem_extras hg).1 hmem with hsrc | hmem
    · exact hleaf.childless _ (hsrc ▸ hdst.child)
    · exact hleaf.extra hmem

/-! ### Costs -/

section Costs

variable [ExactCost α]

/-- What the other nodes than `n` pay among each other. -/
def restAt (g : Graph α) (n : NodeId) (f : NodeId → Nat) : α :=
  ∑ u ∈ g.live.erase n, g.outCost f (g.nodes.erase n) u (f u)

theorem restAt_congr (hf : ∀ u, u ≠ n → f u = f' u) : g.restAt n f = g.restAt n f' := by
  refine Finset.sum_congr rfl fun u hu => ?_
  rw [outCost, outCost, hf u (Finset.ne_of_mem_erase hu)]
  refine congrArg (g.extraAt u (f' u) + ·) (Finset.sum_congr rfl fun v hv => ?_)
  rw [hf v (Finset.ne_of_mem_erase hv)]

/-- The strategy of a leaf counts on one edge only. -/
theorem Leaf.costAt_eq (hleaf : g.Leaf e) (hg : g.Sound rank) :
    g.costAt f = g.restAt e.dst f + g.weight e (f e.src) (f e.dst) := by
  have hnodes : e.dst ∈ g.nodes :=
    mem_nodes.2 (hg.toShaped.index_lt_of_isLive (hg.live_dst hleaf.child))
  have hlive : e.dst ∈ g.live := mem_live.2 (hg.live_dst hleaf.child)
  have hsrc : e.src ∈ g.live.erase e.dst := Finset.mem_erase.2
    ⟨fun heq => hleaf.childless _ (heq ▸ hleaf.child), mem_live.2 (hg.live_src hleaf.child)⟩
  have hextra : g.extraAt e.dst (f e.dst) = 0 := by
    rw [extraAt, Std.ExtTreeMap.getElem?_eq_none hleaf.extra]
    rfl
  have hown : g.outCost f g.nodes e.dst (f e.dst) = 0 := by
    rw [outCost, hextra, zero_add]
    exact Finset.sum_eq_zero fun v _ => weight_of_notMem_children hg (hleaf.childless v)
  have hedge (u : NodeId) : g.outCost f g.nodes u (f u) =
      g.outCost f (g.nodes.erase e.dst) u (f u) + g.weight ⟨u, e.dst⟩ (f u) (f e.dst) :=
    outCost_eq_erase (e := ⟨u, e.dst⟩) hnodes
  calc g.costAt f
      = ∑ u ∈ g.live.erase e.dst, g.outCost f g.nodes u (f u) := by
        rw [costAt, ← Finset.sum_erase_add _ _ hlive, hown, add_zero]
    _ = g.restAt e.dst f + ∑ u ∈ g.live.erase e.dst, g.weight ⟨u, e.dst⟩ (f u) (f e.dst) := by
        rw [restAt, ← Finset.sum_add_distrib]
        exact Finset.sum_congr rfl fun u _ => hedge u
    _ = g.restAt e.dst f + g.weight e (f e.src) (f e.dst) := by
        rw [Finset.sum_eq_single_of_mem e.src hsrc]
        exact fun u _ hu => weight_of_notMem_children hg fun hc => hu (hleaf.eq_src hc)

theorem ValidCosts.restAt [ClosedCost α] (hv : g.ValidCosts) : Cost.Valid (g.restAt n f) :=
  Finset.sum_induction _ _ ClosedCost.add_valid BoundedCost.zero_valid fun _ _ => hv.outCost

end Costs

/-! ### The choice -/

/-- Before, an assignment is admitted with any strategy of the absorbed node. -/
theorem Absorbed.admits_update (ha : g.Absorbed m g') (hg : g.Sound rank) (hf : g'.Admits f)
    (hw : g.width? m.edge.dst = some w) (hj : j < w) :
    g.Admits (Function.update f m.edge.dst j) := by
  intro n w' hn hw'
  by_cases hdst : n = m.edge.dst
  · subst hdst
    cases hw.symm.trans hw'
    rwa [Function.update_self]
  · rw [Function.update_of_ne hdst]
    exact hf n w' ((ha.isLive_iff hg).2 ⟨hn, hdst⟩) ((ha.performed hg).width?.trans hw')

section Choice

variable [OrderedCost α]

/-- The chosen strategy has the least weight. -/
theorem Plan.weight_choice_le (hm : g.Plan m) (hg : g.Shaped) (hv : g.ValidCosts)
    (hi : m.choice[i]? = some j) (hw : g.width? m.edge.dst = some w) (hk : k < w) :
    g.weight m.edge i j ≤ g.weight m.edge i k := by
  obtain ⟨t, ht, -, hcols, hlen, hchoice⟩ := hm.table_of_shape hg
  cases hw.symm.trans hcols
  have hi' : i < t.rows := hlen ▸ (List.getElem?_eq_some_iff.1 hi).1
  have hline : ∀ c ∈ t.line i, Cost.Valid c := fun c hc => by
    obtain ⟨k, hk⟩ := List.mem_iff_getElem?.1 hc
    exact hv.get ht ((CostTable.getElem?_line hi').symm.trans hk)
  have hcheapest : Cost.cheapest? (t.line i) = some j := by
    have h := (hchoice i hi').symm.trans hi
    rwa [CostTable.cheapest?, if_pos hi'] at h
  obtain ⟨low, hlow, hle, -⟩ := Cost.linear_valid.firstLeast_of_cheapest? hline hcheapest
  obtain ⟨x, hx⟩ := CostTable.exists_get? hi' hk
  rw [CostTable.getElem?_line hi'] at hlow
  rw [weight_eq ht hlow, weight_eq ht hx]
  exact hle x (List.mem_of_getElem? ((CostTable.getElem?_line hi').trans hx))

variable [ExactCost α] [ClosedCost α] [MonotoneCost α]

/-- Afterwards an assignment costs the least of what it cost with the strategies of the leaf. -/
theorem Leaf.isLeast_costAt (hleaf : g.Leaf m.edge) (hg : g.Sound rank) (ha : g.Absorbed m g')
    (hv : g.ValidCosts) (hf : g'.Admits f) (hw : g.width? m.edge.dst = some w) :
    IsLeast ((fun j => g.costAt (Function.update f m.edge.dst j)) '' Set.Iio w) (g'.costAt f) := by
  have hne : m.edge.src ≠ m.edge.dst := ha.plan.src_ne_dst hg
  have hsrc : f m.edge.src < m.choice.length := by
    refine hf _ _ ((ha.isLive_iff hg).2 ⟨ha.plan.live_src, hne⟩) ?_
    rw [(ha.performed hg).width?, ha.plan.width_src hg.toShaped]
  have hi : m.choice[f m.edge.src]? = some m.choice[f m.edge.src] := List.getElem?_eq_getElem hsrc
  have hrest (j : Nat) : g.restAt m.edge.dst (Function.update f m.edge.dst j) =
      g.restAt m.edge.dst f := restAt_congr fun u hu => Function.update_of_ne hu _ _
  have hcost (j : Nat) : g.costAt (Function.update f m.edge.dst j) =
      g.restAt m.edge.dst f + g.weight m.edge (f m.edge.src) j := by
    rw [hleaf.costAt_eq hg, hrest, Function.update_self, Function.update_of_ne hne]
  rw [ha.costAt_eq hg hi]
  refine ⟨⟨_, ha.plan.choice_lt hg.toShaped (List.getElem_mem hsrc) hw, rfl⟩, ?_⟩
  rintro _ ⟨k, hk, rfl⟩
  simp only [hcost]
  exact MonotoneCost.add_le_add_left _ _ _ hv.restAt hv.weight hv.weight
    (ha.plan.weight_choice_le hg.toShaped hv hi hw hk)

/-- Absorbing a leaf keeps the least cost. -/
theorem Leaf.optimum (hleaf : g.Leaf m.edge) (hg : g.Sound rank) (ha : g.Absorbed m g')
    (hv : g.ValidCosts) {best : α} (hbest : g'.Optimum best) : g.Optimum best := by
  have hlive := ha.plan.live_dst
  obtain ⟨w, hw⟩ := exists_width? (hg.toShaped.index_lt_of_isLive hlive)
  obtain ⟨⟨f, hf, rfl⟩, hle⟩ := hbest
  constructor
  · obtain ⟨j, hj, hcost⟩ := (hleaf.isLeast_costAt hg ha hv hf hw).1
    exact ⟨_, ha.admits_update hg hf hw hj, hcost⟩
  · rintro _ ⟨f', hf', rfl⟩
    have hadmits : g'.Admits f' := fun n w' hn hw' =>
      hf' n w' ((ha.isLive_iff hg).1 hn).1 ((ha.performed hg).width?.symm.trans hw')
    have hless : g'.costAt f' ≤ g.costAt f' := by
      have h := (hleaf.isLeast_costAt hg ha hv hadmits hw).2 ⟨_, hf' _ w hlive hw, rfl⟩
      simpa only [Function.update_eq_self] using h
    have hv' : g'.ValidCosts := hv.merge ClosedCost.add_valid hg.coherent ha.merge
    exact OrderedCost.le_trans _ _ _ hv'.costAt hv'.costAt hv.costAt (hle ⟨f', hadmits, rfl⟩) hless

end Choice

end Reshard.Graph
