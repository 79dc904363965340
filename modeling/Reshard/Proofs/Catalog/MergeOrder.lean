import Mathlib.Algebra.BigOperators.Group.Finset.Basic
import Reshard.Graph.Declared
import Reshard.Proofs.Catalog.Weight

/-! The order of the edges to merge along.

    The edges into mergeable nodes are listed node by node in the order of the ids, and into each
    node in the order of its predecessors (`pairwise_mergeEdges`). So, from the end of the list, an
    edge comes up when all edges into later nodes have been dealt with, and the first predecessor of
    a node comes up last. -/

namespace Reshard.Catalog

variable {α : Type} {c : Catalog α} {n p : NodeId} {e e' : Edge}

/-- The nodes that merging along all merge edges takes away: mergeable ones with a predecessor. -/
def Removable (c : Catalog α) (n : NodeId) : Prop :=
  ∃ op, c.get? n = some op ∧ op.mergeable ∧ op.predecessors ≠ []

/-- The edge `e` leads to an earlier node than `e'`, or from an earlier predecessor of that node. -/
def Before (c : Catalog α) (e e' : Edge) : Prop :=
  e.dst.index < e'.dst.index ∨
    e.dst = e'.dst ∧ (c.predecessors e.dst).idxOf e.src < (c.predecessors e.dst).idxOf e'.src

theorem Before.index_le (h : c.Before e e') : e.dst.index ≤ e'.dst.index := by
  rcases h with hlt | ⟨hdst, -⟩
  · exact hlt.le
  · rw [hdst]

theorem Before.irrefl : ¬ c.Before e e := by
  rintro (hlt | ⟨-, hlt⟩)
  · exact hlt.false
  · exact hlt.false

/-- The edges to merge along into one node. -/
def edgesInto (d : NodeId × Operator α) : List Edge :=
  if d.2.mergeable then d.2.predecessors.map fun src => ⟨src, d.1⟩ else []

theorem mergeEdges_eq : c.mergeEdges = c.declarations.flatMap edgesInto := rfl

theorem mem_edgesInto {d : NodeId × Operator α} :
    e ∈ edgesInto d ↔ e.dst = d.1 ∧ d.2.mergeable ∧ e.src ∈ d.2.predecessors := by
  rw [edgesInto]
  by_cases hmergeable : d.2.mergeable
  · rw [if_pos hmergeable, List.mem_map]
    constructor
    · rintro ⟨p, hp, rfl⟩
      exact ⟨rfl, hmergeable, hp⟩
    · rintro ⟨hdst, -, hp⟩
      exact ⟨e.src, hp, by rw [← hdst]⟩
  · simp [hmergeable]

/-- The edges to merge along are those into mergeable nodes. -/
theorem mem_mergeEdges (hfits : c.Fits) : e ∈ c.mergeEdges ↔
    ∃ op, c.get? e.dst = some op ∧ op.mergeable ∧ e.src ∈ op.predecessors := by
  rw [mergeEdges_eq, List.mem_flatMap]
  constructor
  · rintro ⟨⟨n, op⟩, hd, he⟩
    obtain ⟨rfl, hmergeable, hp⟩ := mem_edgesInto.1 he
    exact ⟨op, (mem_declarations hfits).1 hd, hmergeable, hp⟩
  · rintro ⟨op, hop, hmergeable, hp⟩
    exact ⟨(e.dst, op), (mem_declarations hfits).2 hop, mem_edgesInto.2 ⟨rfl, hmergeable, hp⟩⟩

theorem precedes_of_mem_mergeEdges (hfits : c.Fits) (he : e ∈ c.mergeEdges) :
    c.Precedes e.src e.dst := by
  obtain ⟨op, hop, -, hp⟩ := (mem_mergeEdges hfits).1 he
  exact ⟨op, hop, hp⟩

/-- A declared edge is one to merge along exactly if its destination is removable. -/
theorem mem_mergeEdges_iff_removable (hfits : c.Fits) (hpn : c.Precedes p n) :
    (⟨p, n⟩ : Edge) ∈ c.mergeEdges ↔ c.Removable n := by
  rw [mem_mergeEdges hfits]
  obtain ⟨op, hop, hp⟩ := hpn
  constructor
  · rintro ⟨op', hop', hmergeable, hp'⟩
    exact ⟨op', hop', hmergeable, List.ne_nil_of_mem hp'⟩
  · rintro ⟨op', hop', hmergeable, -⟩
    cases hop.symm.trans hop'
    exact ⟨op, hop, hmergeable, hp⟩

/-! ### Order -/

theorem pairwise_ids (hfits : c.Fits) : c.ids.Pairwise fun n n' => n.index < n'.index := by
  rw [ids, List.pairwise_map]
  refine List.pairwise_lt_range.imp_of_mem ?_
  intro i j hi hj hlt
  rwa [hfits.index_ofIndex (List.mem_range.1 hi), hfits.index_ofIndex (List.mem_range.1 hj)]

theorem pairwise_declarations (hfits : c.Fits) :
    c.declarations.Pairwise fun d d' => d.1.index < d'.1.index := by
  have hids : (c.declarations.map (·.1)).Pairwise fun n n' => n.index < n'.index := by
    rw [declarations, List.map_fst_zip (by simp [ids, size])]
    exact pairwise_ids hfits
  rwa [List.pairwise_map] at hids

/-- In a list without duplicates an earlier member has a smaller position. -/
theorem pairwise_idxOf {l : List NodeId} (h : l.Nodup) :
    l.Pairwise fun a b => l.idxOf a < l.idxOf b := by
  rw [List.pairwise_iff_getElem]
  intro i j hi hj hlt
  rwa [h.idxOf_getElem i hi, h.idxOf_getElem j hj]

theorem pairwise_edgesInto (hc : c.Consistent) {op : Operator α} (hop : c.get? n = some op) :
    (edgesInto (n, op)).Pairwise c.Before := by
  have hlist : c.predecessors n = op.predecessors := by rw [predecessors, hop]; rfl
  rw [edgesInto]
  split
  · rw [List.pairwise_map]
    refine (pairwise_idxOf (hc.predecessors_nodup hop)).imp fun hlt => .inr ⟨rfl, ?_⟩
    rwa [hlist]
  · exact List.Pairwise.nil

/-- Merge edges are listed in their order. -/
theorem pairwise_mergeEdges (hfits : c.Fits) (hc : c.Consistent) :
    c.mergeEdges.Pairwise c.Before := by
  rw [mergeEdges_eq, List.pairwise_flatMap]
  constructor
  · intro d hd
    exact pairwise_edgesInto hc ((mem_declarations hfits).1 hd)
  · refine (pairwise_declarations hfits).imp fun hlt e he e' he' => .inl ?_
    rwa [(mem_edgesInto.1 he).1, (mem_edgesInto.1 he').1]

/-! ### Functions applied to costs -/

section Map

variable {β : Type} {f : α → β}

@[simp] theorem predecessors_map : (c.map f).predecessors n = c.predecessors n := by
  rw [predecessors, get?_map, predecessors]
  cases c.get? n <;> rfl

theorem Numbered.map (h : c.Numbered) : (c.map f).Numbered := fun p n hpn =>
  h p n (precedes_map.1 hpn)

end Map

end Reshard.Catalog
