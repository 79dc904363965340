import Reshard.Proofs.Graph.Sound

/-! Graphs that are the same up to the order of their links.

    Different orders of merging list links in different orders, and may leave different extra costs
    behind at nodes that are no longer live. Otherwise a sound graph is known from its widths, live
    nodes and links and from the costs that `weight` and `extraAt` read (`Sound.alike`). -/

namespace Reshard.Graph

variable {α : Type} {rank rank' : NodeId → Nat} {g g' : Graph α}

/-- The graphs have the same live nodes, the same tables, the same extra costs of live nodes, and
    the same links up to their order. -/
structure Alike (g g' : Graph α) : Prop where
  widths : g.widths = g'.widths
  isLive (n : NodeId) : g.links.isLive n = g'.links.isLive n
  parents (n : NodeId) : (g.links.parents n).Perm (g'.links.parents n)
  children (n : NodeId) : (g.links.children n).Perm (g'.links.children n)
  tables : g.tables = g'.tables
  extra? {n : NodeId} : g.links.isLive n → g.extra? n = g'.extra? n

variable [Cost α]

/-- Extra costs of one length are known from their entries. -/
theorem extra?_eq (h : g.Shaped) (h' : g'.Shaped) (hwidths : g.widths = g'.widths) {n : NodeId}
    (hmem : n ∈ g.extras ↔ n ∈ g'.extras) (hextra : ∀ i, g.extraAt n i = g'.extraAt n i) :
    g.extra? n = g'.extra? n := by
  by_cases hn : n ∈ g.extras
  · obtain ⟨costs, hcosts⟩ := FiniteMap.exists_get hn
    obtain ⟨costs', hcosts'⟩ := FiniteMap.exists_get (hmem.1 hn)
    have hlen : costs.length = costs'.length := by
      have hwidth := h'.length_extra hcosts'
      rw [width?, ← hwidths, ← width?, h.length_extra hcosts] at hwidth
      exact Option.some.inj hwidth
    rw [extra?, extra?, hcosts, hcosts']
    refine congrArg some (List.ext_getElem hlen ?_)
    intro i hi hi'
    have hentry := hextra i
    rw [extraAt, extraAt, hcosts, hcosts'] at hentry
    simpa [hi, hi'] using hentry
  · rw [extra?, extra?, Std.ExtTreeMap.getElem?_eq_none hn,
      Std.ExtTreeMap.getElem?_eq_none fun hn' => hn (hmem.2 hn')]

/-- Tables of one shape are known from their weights. -/
theorem tables_eq (h : g.Shaped) (h' : g'.Shaped) (hwidths : g.widths = g'.widths)
    (hmem : ∀ e, e ∈ g.tables ↔ e ∈ g'.tables)
    (hweight : ∀ e i j, g.weight e i j = g'.weight e i j) : g.tables = g'.tables := by
  refine Std.ExtTreeMap.ext_getElem? ?_
  intro e
  by_cases he : e ∈ g.tables
  · obtain ⟨t, ht⟩ := FiniteMap.exists_get he
    obtain ⟨t', ht'⟩ := FiniteMap.exists_get ((hmem e).1 he)
    have hshape := h.table_shape ht
    have hshape' := h'.table_shape ht'
    rw [width?, width?, ← hwidths, ← width?, ← width?] at hshape'
    have hrows : t.rows = t'.rows := Option.some.inj (hshape.1.symm.trans hshape'.1)
    have hcols : t.cols = t'.cols := Option.some.inj (hshape.2.symm.trans hshape'.2)
    rw [ht, ht']
    refine congrArg some (CostTable.ext_get? hrows hcols ?_)
    intro i j
    by_cases hin : i < t.rows ∧ j < t.cols
    · obtain ⟨x, hx⟩ := CostTable.exists_get? hin.1 hin.2
      obtain ⟨x', hx'⟩ := CostTable.exists_get? (hrows ▸ hin.1) (hcols ▸ hin.2)
      rw [hx, hx', ← weight_eq ht hx, ← weight_eq ht' hx', hweight]
    · rw [CostTable.get?_eq_none_of_not hin,
        CostTable.get?_eq_none_of_not fun hin' => hin (hrows.symm ▸ hcols.symm ▸ hin')]
  · rw [Std.ExtTreeMap.getElem?_eq_none he,
      Std.ExtTreeMap.getElem?_eq_none fun he' => he ((hmem e).2 he')]

/-- Sound graphs are alike if the same nodes are live and linked and all their costs agree. -/
theorem Sound.alike (h : g.Sound rank) (h' : g'.Sound rank') (hwidths : g.widths = g'.widths)
    (hlive : ∀ n, g.links.isLive n ↔ g'.links.isLive n)
    (hchildren : ∀ p c, c ∈ g.links.children p ↔ c ∈ g'.links.children p)
    (hweight : ∀ e i j, g.weight e i j = g'.weight e i j)
    (hmem : ∀ n, g.links.isLive n → (n ∈ g.extras ↔ n ∈ g'.extras))
    (hextra : ∀ n i, g.links.isLive n → g.extraAt n i = g'.extraAt n i) : g.Alike g' where
  widths := hwidths
  isLive n := Bool.eq_iff_iff.2 (hlive n)
  parents n := (List.perm_ext_iff_of_nodup (h.parents_nodup n) (h'.parents_nodup n)).2 fun p => by
    rw [h.mem_parents, h'.mem_parents, hchildren]
  children n :=
    (List.perm_ext_iff_of_nodup (h.children_nodup n) (h'.children_nodup n)).2 (hchildren n)
  tables := tables_eq h.toShaped h'.toShaped hwidths
    (fun e => h.mem_tables.trans ((hchildren _ _).trans h'.mem_tables.symm)) hweight
  extra? hn := extra?_eq h.toShaped h'.toShaped hwidths (hmem _ hn) fun i => hextra _ i hn

end Reshard.Graph
