import Reshard.Proofs.Graph.Merge

/-! Coherent graphs and merges.

    In a coherent graph a merge that can be worked out can be written (`Coherent.of_merge`), and the
    graph stays coherent (`Coherent.merge`). No order of the nodes is needed for that: the edge may
    lie on a cycle, and even lead from a node to itself. -/

namespace Reshard.Graph

variable {α : Type} {g g' : Graph α} {m : Merge α} {p c n : NodeId}

namespace Performed

theorem size (hg : g.Performed m g') : g'.size = g.size := by rw [Graph.size, hg.widths, Graph.size]

theorem width? (hg : g.Performed m g') : g'.width? n = g.width? n := by
  rw [Graph.width?, hg.widths, Graph.width?]

theorem nodes_eq (hg : g.Performed m g') : g'.nodes = g.nodes := by rw [nodes, hg.size, nodes]

theorem isLive_iff (hg : g.Performed m g') :
    g'.links.isLive n ↔ g.links.isLive n ∧ ¬ (m.absorbs ∧ n = m.edge.dst) := by
  rw [hg.isLive, Bool.and_eq_true, Bool.not_eq_true', ← Bool.not_eq_true, Bool.and_eq_true,
    decide_eq_true_eq]

end Performed

/-- The faults of a merge along an edge of a coherent graph. -/
inductive MergeFault (edge : Edge) : Fault α → Prop
  | unknownNode {n : NodeId} : n = edge.src ∨ n = edge.dst → MergeFault edge (.unknownNode n)
  | notLive : MergeFault edge (.refused edge .notLive)
  | notParent : MergeFault edge (.refused edge .notParent)
  | noTable : MergeFault edge (.refused edge .noTable)
  /-- The links name a child of the destination, but there is no table for it. -/
  | noSuchEdge {child : NodeId} : MergeFault edge (.noSuchEdge ⟨edge.dst, child⟩)

theorem MergeFault.ne_outOfRange {e : Edge} {fault : Fault α} (h : MergeFault e fault) :
    fault ≠ .outOfRange := by
  rintro rfl
  cases h

theorem mergeFault_of_mergeable {e : Edge} {fault : Fault α}
    (hfault : g.mergeable e = .error fault) : MergeFault e fault := by
  simp only [mergeable, guarded_error_iff, Fault.require_error_iff] at hfault
  rcases hfault with ⟨-, rfl⟩ | ⟨-, ⟨-, rfl⟩ | ⟨-, ⟨-, rfl⟩ | ⟨-, ⟨-, rfl⟩ | ⟨-, -, rfl⟩⟩⟩⟩
  · exact .unknownNode (.inl rfl)
  · exact .unknownNode (.inr rfl)
  · exact .notLive
  · exact .notParent
  · exact .noTable

variable [Cost α]

namespace Plan

/-- An absorbed node has no other parent. -/
theorem eq_src_of_absorbs (hm : g.Plan m) (habsorbs : m.absorbs)
    (hp : p ∈ g.links.parents m.edge.dst) : p = m.edge.src := by
  rw [hm.absorbs, List.all_eq_true] at habsorbs
  exact eq_of_beq (habsorbs p hp)

theorem absorbs_iff (hm : g.Plan m) :
    m.absorbs ↔ ∀ p ∈ g.links.parents m.edge.dst, p = m.edge.src := by
  rw [hm.absorbs, List.all_eq_true]
  exact forall₂_congr fun p _ => beq_iff_eq

theorem exists_performed (hm : g.Plan m) (h : g.Coherent) :
    ∃ g', g.perform? m = some g' ∧ g.Performed m g' := by
  refine exists_perform? (Links.index_lt_of_isLive hm.live_src)
    (Links.index_lt_of_isLive hm.live_dst) ?_
  intro c hc
  rw [hm.children_eq] at hc
  exact Links.index_lt_of_isLive (h.live_dst hc)

end Plan

/-- A merge has a plan, and it was performed. -/
theorem Coherent.of_merge (h : g.Coherent) {e : Edge} (hmerge : g.merge e = .ok (g', m)) :
    m.edge = e ∧ g.Plan m ∧ g.Performed m g' := by
  obtain ⟨rfl, hm, hg'⟩ := merge_ok_iff.1 hmerge
  obtain ⟨g'', hg'', hperformed⟩ := hm.exists_performed h
  cases hg'.symm.trans hg''
  exact ⟨rfl, hm, hperformed⟩

/-! ### Faults -/

/-- A merge finds a strategy of the destination on each line, and no position is looked up that is
    not there. -/
theorem Coherent.mergeFault_of_merge (h : g.Coherent) {e : Edge} {fault : Fault α}
    (hmerge : g.merge e = .error fault) : MergeFault e fault := by
  rw [Graph.merge, bind_error_iff] at hmerge
  rcases hmerge with hprepare | ⟨m, hprepare, hperform⟩
  · simp only [prepare, bind_error_iff, Fault.require_error_iff, Fault.require_ok_iff] at hprepare
    rcases hprepare with hfault | ⟨t, hmergeable, ⟨hnone, -⟩ | ⟨choice, hchoice, hprepare⟩⟩
    · exact mergeFault_of_mergeable hfault
    · have ht := (mergeable_ok_iff.1 hmergeable).2.2
      obtain ⟨choice, hchoice⟩ := CostTable.exists_cheapestAll? (h.width_pos (h.table_shape ht).2)
      cases hnone.symm.trans hchoice
    · have ht := (mergeable_ok_iff.1 hmergeable).2.2
      have hfits := h.toShaped.choice_fits ht hchoice
      rcases hprepare with ⟨hnone, -⟩ | ⟨_, -, hderived | ⟨_, -, hpure⟩⟩
      · obtain ⟨charge, hcharge⟩ := exists_charges? h.toShaped ht hchoice
        cases hnone.symm.trans hcharge
      · obtain ⟨child, -, hd⟩ := exists_of_mapM_error hderived
        rw [derive_error h.toShaped hfits.1 hfits.2 hd]
        exact .noSuchEdge
      · cases hpure
  · obtain ⟨rfl, hm⟩ := prepare_ok_iff.1 hprepare
    obtain ⟨g', hg', -⟩ := hm.exists_performed h
    rw [hg'] at hperform
    cases hperform

/-! ### Preservation -/

/-- The children of a node afterwards: those that the source takes over, and the ones from before
    without the destination. -/
theorem Performed.mem_children_iff (hg : g.Performed m g') (hm : g.Plan m) :
    c ∈ g'.links.children p ↔ (p = m.edge.src ∧ c ∈ g.links.children m.edge.dst ∨
      c ∈ g.links.children p ∧ ¬ (p = m.edge.src ∧ c = m.edge.dst)) ∧
      ¬ (m.absorbs ∧ p = m.edge.dst) := by
  rw [hg.children, Links.mem_childrenAfter, hm.children_eq]

/-- A merge keeps the shape of tables and extra costs. -/
theorem Shaped.performed (h : g.Shaped) (hm : g.Plan m) (hg : g.Performed m g') : g'.Shaped where
  fits := hg.size ▸ h.fits
  size_links := by rw [hg.size_links, h.size_links, hg.size]
  width_pos hw := h.width_pos (hg.width? ▸ hw)
  table_shape {e t} ht := by
    rw [hg.width?, hg.width?]
    rw [hg.tables, get_mergedTables] at ht
    split at ht
    · cases ht
    · rcases FiniteMap.of_get_insertAll ht with ⟨d, hd, rfl, rfl⟩ | ht
      · obtain ⟨below, hbelow, hrows, hcols, -⟩ := hm.derived_eq h hd
        rw [hrows, hcols]
        exact ⟨hm.width_src h, (h.table_shape hbelow).2⟩
      · exact h.table_shape ht
  length_extra {n extra} hextra := by
    rw [hg.width?]
    rw [hg.extras, FiniteMap.get_insert] at hextra
    split at hextra
    next heq =>
      cases hextra
      obtain ⟨t, -, hlen, -⟩ := hm.charge_eq h
      rw [← heq, hm.width_src h, hlen]
    next => exact h.length_extra hextra

namespace Coherent

/-- A merge keeps the two sides of the links in agreement. -/
theorem mem_parents_performed (h : g.Coherent) (hm : g.Plan m) (hg : g.Performed m g') :
    p ∈ g'.links.parents c ↔ c ∈ g'.links.children p := by
  -- the destination is dropped from the parents of its children, and is a parent of no one else
  have hdst : c ∉ g.links.children m.edge.dst → p = m.edge.dst → p ∉ g.links.parents c := by
    rintro hc rfl hp
    exact hc (h.mem_parents.1 hp)
  rw [hg.mem_children_iff hm, hg.parents, Links.mem_parentsAfter, hm.children_eq,
    ← h.mem_parents (p := p)]
  tauto

/-- A table that is there after a merge was derived, or was there before and is not dropped. -/
theorem mem_children_performed (h : g.Coherent) (hm : g.Plan m) (hg : g.Performed m g') {e : Edge}
    {t : CostTable α} (ht : g'.tables[e]? = some t) : e.dst ∈ g'.links.children e.src := by
  rw [hg.tables, get_mergedTables, hm.children_eq] at ht
  split at ht
  · cases ht
  next hkept =>
    rw [not_or] at hkept
    rw [hg.mem_children_iff hm]
    rcases FiniteMap.of_get_insertAll ht with ⟨d, hd, rfl, -⟩ | ht
    · have hc : d.1 ∈ g.links.children m.edge.dst := hm.children_eq ▸ List.mem_map_of_mem hd
      exact ⟨.inl ⟨rfl, hc⟩, fun habsorbs => hkept.2 ⟨habsorbs.1, habsorbs.2, hc⟩⟩
    · have hc := h.mem_children ht
      refine ⟨.inr ⟨hc, fun hends => hkept.1 ?_⟩, fun habsorbs => ?_⟩
      · cases e
        exact congrArg₂ Edge.mk hends.1 hends.2
      · exact hkept.2 ⟨habsorbs.1, habsorbs.2, habsorbs.2 ▸ hc⟩

/-- A merge keeps a graph coherent. -/
theorem performed (h : g.Coherent) (hm : g.Plan m) (hg : g.Performed m g') : g'.Coherent where
  toShaped := h.toShaped.performed hm hg
  mem_parents := h.mem_parents_performed hm hg
  mem_children := h.mem_children_performed hm hg
  live_src {p c} hc := by
    obtain ⟨hold, hkept⟩ := (hg.mem_children_iff hm).1 hc
    refine hg.isLive_iff.2 ⟨?_, hkept⟩
    rcases hold with ⟨rfl, -⟩ | ⟨hold, -⟩
    · exact hm.live_src
    · exact h.live_src hold
  live_dst {p c} hc := by
    obtain ⟨hold, hkept⟩ := (hg.mem_children_iff hm).1 hc
    rw [hg.isLive_iff]
    rcases hold with ⟨rfl, hold⟩ | ⟨hold, hother⟩
    · refine ⟨h.live_dst hold, ?_⟩
      rintro ⟨habsorbs, rfl⟩
      -- an absorbed node that is its own child has no parent but itself
      exact hkept ⟨habsorbs, (hm.eq_src_of_absorbs habsorbs (h.mem_parents.2 hold)).symm⟩
    · refine ⟨h.live_dst hold, ?_⟩
      rintro ⟨habsorbs, rfl⟩
      exact hother ⟨hm.eq_src_of_absorbs habsorbs (h.mem_parents.2 hold), rfl⟩

/-- Merging keeps a graph coherent. -/
theorem merge (h : g.Coherent) {e : Edge} (hmerge : g.merge e = .ok (g', m)) : g'.Coherent := by
  obtain ⟨-, hm, hg⟩ := h.of_merge hmerge
  exact h.performed hm hg

end Coherent

end Reshard.Graph
