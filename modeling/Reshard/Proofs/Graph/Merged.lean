import Reshard.Proofs.Graph.Coherent

/-! The graph after a merge.

    A merge removes its own edge, and with the destination absorbed all edges from there; it links
    the source to the children of the destination, and leaves every other edge alone. So a sound
    graph stays sound. -/

namespace Reshard

/-- The merge takes the edge out of the graph. -/
def Merge.Removes {α : Type} (m : Merge α) (e : Edge) : Prop :=
  e = m.edge ∨ m.absorbs ∧ e.src = m.edge.dst

theorem Merge.removes_iff {α : Type} {m : Merge α} {p c : NodeId} : m.Removes ⟨p, c⟩ ↔
    p = m.edge.src ∧ c = m.edge.dst ∨ m.absorbs ∧ p = m.edge.dst := by
  rw [Removes, show m.edge = ⟨m.edge.src, m.edge.dst⟩ from rfl, Edge.mk.injEq]

namespace Graph

variable {α : Type} {rank : NodeId → Nat} {g g' : Graph α} {m : Merge α} {p c n : NodeId}

variable [Cost α]

/-! ### The nodes of a merge -/

namespace Plan

theorem child (hm : g.Plan m) (h : g.Sound rank) : m.edge.dst ∈ g.links.children m.edge.src :=
  h.mem_parents.1 hm.linked

theorem src_ne_dst (hm : g.Plan m) (h : g.Sound rank) : m.edge.src ≠ m.edge.dst := fun heq =>
  h.notMem_children_self (heq ▸ hm.child h)

end Plan

/-- The merges that a sound graph accepts are those along its links. -/
theorem Sound.exists_merge_iff (h : g.Sound rank) {e : Edge} :
    (∃ g' m, g.merge e = .ok (g', m)) ↔
      g.links.isLive e.src ∧ g.links.isLive e.dst ∧ e.src ∈ g.links.parents e.dst := by
  constructor
  · rintro ⟨g', m, hmerge⟩
    obtain ⟨rfl, hm, -⟩ := merge_ok_iff.1 hmerge
    exact ⟨hm.live_src, hm.live_dst, hm.linked⟩
  · rintro ⟨-, -, hp⟩
    obtain ⟨m, rfl, hm⟩ := h.exists_plan (h.mem_parents.1 hp)
    obtain ⟨g', hg', -⟩ := hm.exists_performed h.coherent
    exact ⟨g', m, merge_ok_iff.2 ⟨rfl, hm, hg'⟩⟩

/-! ### Links -/

namespace Performed

theorem mem_children (hg : g.Performed m g') (hm : g.Plan m) (h : g.Sound rank) :
    c ∈ g'.links.children p ↔ p = m.edge.src ∧ c ∈ g.links.children m.edge.dst ∨
      c ∈ g.links.children p ∧ ¬ m.Removes ⟨p, c⟩ := by
  have hne : p = m.edge.src → p ≠ m.edge.dst := fun hp => hp ▸ hm.src_ne_dst h
  rw [hg.mem_children_iff hm, Merge.removes_iff]
  tauto

theorem mem_parents (hg : g.Performed m g') (hm : g.Plan m) (h : g.Sound rank) :
    p ∈ g'.links.parents c ↔ p = m.edge.src ∧ c ∈ g.links.children m.edge.dst ∨
      c ∈ g.links.children p ∧ ¬ m.Removes ⟨p, c⟩ :=
  (h.coherent.mem_parents_performed hm hg).trans (hg.mem_children hm h)

end Performed

/-! ### Tables -/

namespace Performed

/-- The derived tables are those of the edges from the source to the destination's children. -/
theorem derived_keys (hm : g.Plan m) : m.derived.map (fun d => Edge.mk m.edge.src d.1) =
    (g.links.children m.edge.dst).map (Edge.mk m.edge.src) := by
  rw [← hm.children_eq, Merge.children, List.map_map]
  rfl

theorem mem_derived_keys (hm : g.Plan m) {e : Edge} :
    e ∈ m.derived.map (fun d => Edge.mk m.edge.src d.1) ↔
      e.src = m.edge.src ∧ e.dst ∈ g.links.children m.edge.dst := by
  rw [derived_keys hm, List.mem_map]
  constructor
  · rintro ⟨c, hc, rfl⟩; exact ⟨rfl, hc⟩
  · rintro ⟨hsrc, hc⟩; exact ⟨e.dst, hc, by rw [← hsrc]⟩

theorem table_of_removed (hg : g.Performed m g') (hm : g.Plan m) (h : g.Sound rank) {e : Edge}
    (he : m.Removes e) : g'.tables[e]? = none := by
  rw [hg.tables, get_mergedTables, hm.children_eq]
  split
  next => rfl
  next hkept =>
    -- what is left of the removed edges starts at the absorbed node, but not at one of its links
    obtain ⟨habsorbs, hsrc⟩ := he.resolve_left fun he => hkept (.inl he)
    have hlinked : e.dst ∉ g.links.children m.edge.dst := fun hc =>
      hkept (.inr ⟨habsorbs, hsrc, hc⟩)
    rw [FiniteMap.get_insertAll_of_notMem fun hmem => hlinked ((mem_derived_keys hm).1 hmem).2]
    exact Std.ExtTreeMap.getElem?_eq_none fun hmem => hlinked (hsrc ▸ h.mem_tables.1 hmem)

theorem table_of_derived (hg : g.Performed m g') (hm : g.Plan m) (h : g.Sound rank)
    {d : NodeId × CostTable α} (hd : d ∈ m.derived) :
    g'.tables[(⟨m.edge.src, d.1⟩ : Edge)]? = some d.2 := by
  have hc : d.1 ∈ g.links.children m.edge.dst := by
    rw [← hm.children_eq]; exact List.mem_map_of_mem hd
  have hne : d.1 ≠ m.edge.dst := fun heq => h.notMem_children_self (heq ▸ hc)
  have hnodup : (m.derived.map fun d => Edge.mk m.edge.src d.1).Nodup := by
    rw [derived_keys hm]
    exact (h.children_nodup _).map fun a b heq => (Edge.mk.inj heq).2
  rw [hg.tables, get_mergedTables, if_neg]
  · exact FiniteMap.get_insertAll_of_mem
      (fun d' hd' heq => congrArg Prod.snd (List.inj_on_of_nodup_map hnodup hd' hd heq)) hd
  · rintro (heq | ⟨-, heq, -⟩)
    · exact hne (congrArg Edge.dst heq)
    · exact hm.src_ne_dst h heq

theorem table_of_kept (hg : g.Performed m g') (hm : g.Plan m) {e : Edge}
    (hderived : ¬ (e.src = m.edge.src ∧ e.dst ∈ g.links.children m.edge.dst))
    (hkept : ¬ m.Removes e) : g'.tables[e]? = g.tables[e]? := by
  rw [hg.tables, get_mergedTables, if_neg]
  · exact FiniteMap.get_insertAll_of_notMem fun hmem => hderived ((mem_derived_keys hm).1 hmem)
  · exact fun he => hkept (he.imp_right fun he => ⟨he.1, he.2.1⟩)

/-- There is a derived table for each child of the destination. -/
theorem exists_derived (hm : g.Plan m) (hc : c ∈ g.links.children m.edge.dst) :
    ∃ t, (c, t) ∈ m.derived := by
  rw [← hm.children_eq, Merge.children, List.mem_map] at hc
  obtain ⟨⟨c, t⟩, hd, rfl⟩ := hc
  exact ⟨t, hd⟩

theorem mem_tables (hg : g.Performed m g') (hm : g.Plan m) (h : g.Sound rank) :
    (⟨p, c⟩ : Edge) ∈ g'.tables ↔ p = m.edge.src ∧ c ∈ g.links.children m.edge.dst ∨
      c ∈ g.links.children p ∧ ¬ m.Removes ⟨p, c⟩ := by
  rw [Std.ExtTreeMap.mem_iff_isSome_getElem?]
  by_cases hderived : p = m.edge.src ∧ c ∈ g.links.children m.edge.dst
  · obtain ⟨t, ht⟩ := exists_derived hm hderived.2
    rw [hderived.1, hg.table_of_derived hm h ht]
    simp [hderived.2]
  · by_cases hkept : m.Removes ⟨p, c⟩
    · rw [hg.table_of_removed hm h hkept]
      simp [hderived, hkept]
    · rw [hg.table_of_kept hm hderived hkept, ← Std.ExtTreeMap.mem_iff_isSome_getElem?,
        h.mem_tables]
      simp [hderived, hkept]

end Performed

/-! ### Preservation -/

/-- A merge keeps a graph sound. -/
theorem Sound.performed (h : g.Sound rank) (hm : g.Plan m) (hg : g.Performed m g') :
    g'.Sound rank where
  toShaped := h.toShaped.performed hm hg
  parents_nodup n := hg.parents ▸ Links.nodup_parentsAfter (h.parents_nodup n)
  children_nodup n := hg.children ▸ Links.nodup_childrenAfter (h.children_nodup n)
  mem_parents := h.coherent.mem_parents_performed hm hg
  mem_tables := (hg.mem_tables hm h).trans (hg.mem_children hm h).symm
  live_src := (h.coherent.performed hm hg).live_src
  live_dst := (h.coherent.performed hm hg).live_dst
  rank_lt {p c} hc := by
    rcases (hg.mem_children hm h).1 hc with ⟨rfl, hbelow⟩ | ⟨hc, -⟩
    · exact (h.rank_lt (hm.child h)).trans (h.rank_lt hbelow)
    · exact h.rank_lt hc

/-- A node with at most one parent. -/
def Single (g : Graph α) (n : NodeId) : Prop :=
  ∀ p ∈ g.links.parents n, ∀ q ∈ g.links.parents n, p = q

theorem Plan.absorbs_of_single (hm : g.Plan m) (h : g.Single m.edge.dst) : m.absorbs :=
  hm.absorbs_iff.2 fun p hp => h p hp m.edge.src hm.linked

/-- Absorbing a node gives no node a second parent. -/
theorem Single.performed (hn : g.Single n) (h : g.Sound rank) (hm : g.Plan m)
    (hg : g.Performed m g') (habsorbs : m.absorbs) : g'.Single n := by
  -- the source takes the place of the destination among the parents of its children
  have hsrc {q : NodeId} (hc : n ∈ g.links.children m.edge.dst) (hq : n ∈ g.links.children q)
      (hkept : ¬ m.Removes ⟨q, n⟩) : False := by
    refine hkept (.inr ⟨habsorbs, ?_⟩)
    exact hn q (h.mem_parents.2 hq) m.edge.dst (h.mem_parents.2 hc)
  intro p hp q hq
  rcases (hg.mem_parents hm h).1 hp with ⟨rfl, hc⟩ | ⟨hp, hkept⟩
  · rcases (hg.mem_parents hm h).1 hq with ⟨rfl, -⟩ | ⟨hq, hkept⟩
    · rfl
    · exact (hsrc hc hq hkept).elim
  · rcases (hg.mem_parents hm h).1 hq with ⟨rfl, hc⟩ | ⟨hq, -⟩
    · exact (hsrc hc hp hkept).elim
    · exact hn p (h.mem_parents.2 hp) q (h.mem_parents.2 hq)

/-- Merging keeps a graph sound. -/
theorem Sound.merge (h : g.Sound rank) {e : Edge} (hmerge : g.merge e = .ok (g', m)) :
    g'.Sound rank := by
  obtain ⟨-, hm, hg⟩ := h.coherent.of_merge hmerge
  exact h.performed hm hg

end Graph

end Reshard
