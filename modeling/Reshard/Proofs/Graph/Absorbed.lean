import Reshard.Proofs.Graph.Alike
import Reshard.Proofs.Graph.Balance

/-! The graph after its merge has absorbed a node.

    An absorbed node takes its links with it, and the source takes over its children and its costs:
    what strategy `i` of the source costs is raised by what the strategy chosen for `i` cost before
    (`Merge.taken`). These equations hold for all nodes and positions, also where there are no costs
    to take over, so that they can be applied to one merge after another. -/

namespace Reshard

variable {α : Type} [Cost α]

/-- What strategy `i` of the source takes over if `cost` is what the destination's strategies cost:
    the cost of the chosen one, and nothing if there is no strategy `i`. -/
def Merge.taken (m : Merge α) (cost : Nat → α) (i : Nat) : α := (m.choice[i]?).elim 0 cost

theorem Merge.taken_add [ExactCost α] (m : Merge α) (cost cost' : Nat → α) (i : Nat) :
    m.taken (fun j => cost j + cost' j) i = m.taken cost i + m.taken cost' i := by
  rw [taken, taken, taken]
  cases m.choice[i]? with
  | none => exact (add_zero 0).symm
  | some j => rfl

namespace Graph

variable {rank : NodeId → Nat} {g g' h h' : Graph α} {m m' : Merge α} {e : Edge} {u c n : NodeId}
  {i j k w : Nat}

/-- The merge `m` turns the graph `g` into `g'` and absorbs its destination. -/
structure Absorbed (g : Graph α) (m : Merge α) (g' : Graph α) : Prop where
  merge : g.merge m.edge = .ok (g', m)
  absorbs : m.absorbs

/-- A merge along a link absorbs a node that has no other parent. -/
theorem Sound.exists_absorbed (hg : g.Sound rank) (hchild : e.dst ∈ g.links.children e.src)
    (hsingle : ∀ p, e.dst ∈ g.links.children p → p = e.src) :
    ∃ m g', m.edge = e ∧ g.Absorbed m g' := by
  obtain ⟨m, rfl, hm⟩ := hg.exists_plan hchild
  obtain ⟨g', hg', -⟩ := hm.exists_performed hg.coherent
  refine ⟨m, g', rfl, merge_ok_iff.2 ⟨rfl, hm, hg'⟩, hm.absorbs_iff.2 ?_⟩
  exact fun p hp => hsingle p (hg.mem_parents.1 hp)

/-- The table of an edge decides about the choice. -/
theorem Plan.choice_eq (hm : g.Plan m) (hm' : h.Plan m')
    (ht : g.tables[m.edge]? = h.tables[m'.edge]?) : m.choice = m'.choice := by
  obtain ⟨t, htable, hchoice, -⟩ := hm.exists_table
  obtain ⟨t', htable', hchoice', -⟩ := hm'.exists_table
  cases htable.symm.trans (ht.trans htable')
  exact Option.some.inj (hchoice.symm.trans hchoice')

/-! ### Outside the widths -/

theorem Shaped.weight_of_width_le (hg : g.Shaped) (hw : g.width? u = some w) (hi : w ≤ i) :
    g.weight ⟨u, c⟩ i k = 0 := by
  rw [weight]
  cases ht : g.tables[(⟨u, c⟩ : Edge)]? with
  | none => rfl
  | some t =>
    have hrows : w = t.rows := Option.some.inj (hw.symm.trans (hg.table_shape ht).1)
    rw [Option.bind_some, CostTable.get?_eq_none_of_not fun hin => by omega]
    rfl

theorem Shaped.extraAt_of_width_le (hg : g.Shaped) (hw : g.width? n = some w) (hi : w ≤ i) :
    g.extraAt n i = 0 := by
  rw [extraAt]
  cases hcosts : g.extras[n]? with
  | none => rfl
  | some costs =>
    have hlen : w = costs.length := Option.some.inj (hw.symm.trans (hg.length_extra hcosts))
    rw [Option.bind_some, List.getElem?_eq_none (hlen ▸ hi)]
    rfl

namespace Absorbed

theorem plan (ha : g.Absorbed m g') : g.Plan m := (merge_ok_iff.1 ha.merge).2.1

theorem performed (ha : g.Absorbed m g') (hg : g.Sound rank) : g.Performed m g' :=
  (hg.coherent.of_merge ha.merge).2.2

theorem sound (ha : g.Absorbed m g') (hg : g.Sound rank) : g'.Sound rank := hg.merge ha.merge

/-! ### Nodes and links -/

theorem widths_eq (ha : g.Absorbed m g') (hg : g.Sound rank) : g'.widths = g.widths :=
  (ha.performed hg).widths

theorem isLive_iff (ha : g.Absorbed m g') (hg : g.Sound rank) :
    g'.links.isLive n ↔ g.links.isLive n ∧ n ≠ m.edge.dst := by
  rw [(ha.performed hg).isLive_iff]
  simp [ha.absorbs]

theorem eq_src (ha : g.Absorbed m g') (hg : g.Sound rank)
    (hu : m.edge.dst ∈ g.links.children u) : u = m.edge.src :=
  ha.plan.eq_src_of_absorbs ha.absorbs (hg.mem_parents.2 hu)

theorem mem_children (ha : g.Absorbed m g') (hg : g.Sound rank) : c ∈ g'.links.children u ↔
    (u ≠ m.edge.dst ∧ c ≠ m.edge.dst) ∧
      (c ∈ g.links.children u ∨ u = m.edge.src ∧ c ∈ g.links.children m.edge.dst) := by
  have hne : m.edge.src ≠ m.edge.dst := ha.plan.src_ne_dst hg
  have hself : m.edge.dst ∉ g.links.children m.edge.dst := hg.notMem_children_self
  have hsrc := ha.eq_src (u := u) hg
  rw [(ha.performed hg).mem_children ha.plan hg, Merge.removes_iff]
  constructor
  · rintro (⟨rfl, hc⟩ | ⟨hc, hkept⟩)
    · exact ⟨⟨hne, fun heq => hself (heq ▸ hc)⟩, .inr ⟨rfl, hc⟩⟩
    · rw [not_or] at hkept
      exact ⟨⟨fun heq => hkept.2 ⟨ha.absorbs, heq⟩,
        fun heq => hkept.1 ⟨hsrc (heq ▸ hc), heq⟩⟩, .inl hc⟩
  · rintro ⟨⟨hu, hc⟩, hold | hnew⟩
    · exact .inr ⟨hold, fun hremoved => hremoved.elim (fun heq => hc heq.2) fun heq => hu heq.2⟩
    · exact .inl hnew

/-! ### Tables and extra costs -/

/-- The table of an edge is kept if neither of its ends is the absorbed node and it does not lead
    from the source to one of that node's children. -/
theorem table_eq (ha : g.Absorbed m g') (hg : g.Sound rank) (hu : u ≠ m.edge.dst)
    (hc : c ≠ m.edge.dst) (hother : u = m.edge.src → c ∉ g.links.children m.edge.dst) :
    g'.tables[(⟨u, c⟩ : Edge)]? = g.tables[(⟨u, c⟩ : Edge)]? := by
  refine (ha.performed hg).table_of_kept ha.plan (fun heq => hother heq.1 heq.2) ?_
  rw [Merge.removes_iff]
  exact fun hremoved => hremoved.elim (fun heq => hc heq.2) fun heq => hu heq.2

theorem mem_extras (ha : g.Absorbed m g') (hg : g.Sound rank) :
    n ∈ g'.extras ↔ n = m.edge.src ∨ n ∈ g.extras := by
  rw [(ha.performed hg).extras, Std.ExtTreeMap.mem_insert, Std.LawfulEqOrd.compare_eq_iff_eq,
    eq_comm]

variable [ExactCost α]

/-- The weights after a merge that absorbs. -/
theorem weight_eq (ha : g.Absorbed m g') (hg : g.Sound rank) : g'.weight ⟨u, c⟩ i k =
    if u = m.edge.dst ∨ c = m.edge.dst then 0
    else g.weight ⟨u, c⟩ i k +
      if u = m.edge.src then m.taken (fun j => g.weight ⟨m.edge.dst, c⟩ j k) i else 0 := by
  have hg' : g'.Sound rank := ha.sound hg
  split_ifs with hgone hsrc
  · refine weight_of_notMem_children hg' fun hc => ?_
    have hkept := ((ha.mem_children hg).1 hc).1
    exact hgone.elim hkept.1 hkept.2
  · rw [not_or] at hgone
    subst hsrc
    cases hi : m.choice[i]? with
    | some j =>
      rw [weight_of_src hg ha.plan (ha.performed hg) hi hgone.2, Merge.taken, hi, Option.elim_some]
    | none =>
      have hw := ha.plan.width_src hg.toShaped
      have hle := List.getElem?_eq_none_iff.1 hi
      rw [Merge.taken, hi, Option.elim_none, hg.toShaped.weight_of_width_le hw hle,
        hg'.toShaped.weight_of_width_le ((ha.performed hg).width?.trans hw) hle, add_zero]
  · rw [not_or] at hgone
    rw [weight_of_ne ha.plan (ha.performed hg) hsrc fun heq => hgone.1 heq.2, add_zero]

/-- The extra costs after a merge that absorbs. -/
theorem extraAt_eq (ha : g.Absorbed m g') (hg : g.Sound rank) : g'.extraAt n i =
    g.extraAt n i + if n = m.edge.src then
      m.taken (fun j => g.weight m.edge i j + g.extraAt m.edge.dst j) i else 0 := by
  have hg' : g'.Sound rank := ha.sound hg
  split_ifs with hsrc
  · subst hsrc
    cases hi : m.choice[i]? with
    | some j =>
      rw [extraAt_of_src hg.toShaped ha.plan (ha.performed hg) hi, Merge.taken, hi,
        Option.elim_some]
    | none =>
      have hw := ha.plan.width_src hg.toShaped
      have hle := List.getElem?_eq_none_iff.1 hi
      rw [Merge.taken, hi, Option.elim_none, hg.toShaped.extraAt_of_width_le hw hle,
        hg'.toShaped.extraAt_of_width_le ((ha.performed hg).width?.trans hw) hle, add_zero]
  · rw [extraAt_of_ne (ha.performed hg) hsrc, add_zero]

/-! ### Costs of an assignment -/

/-- Afterwards an assignment costs what it cost with the chosen strategy at the absorbed node. -/
theorem costAt_eq (ha : g.Absorbed m g') (hg : g.Sound rank) {f : NodeId → Nat}
    (hi : m.choice[f m.edge.src]? = some j) :
    g'.costAt f = g.costAt (Function.update f m.edge.dst j) := by
  have hne : m.edge.src ≠ m.edge.dst := ha.plan.src_ne_dst hg
  rw [← costAt_of_absorbs hg ha.plan (ha.performed hg) ha.absorbs]
  · refine costAt_congr (ha.sound hg) fun n hn => ?_
    rw [Function.update_of_ne ((ha.isLive_iff hg).1 hn).2]
  · rw [Function.update_self, Function.update_of_ne hne, hi]

end Absorbed

end Graph

end Reshard
