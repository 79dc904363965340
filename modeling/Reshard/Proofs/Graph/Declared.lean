import Mathlib.Algebra.BigOperators.Group.Finset.Sigma
import Reshard.Graph.Declared
import Reshard.Proofs.Catalog.Weight
import Reshard.Proofs.Graph.Sound

/-! The cost graph that a catalog declares.

    A consistent catalog declares a coherent graph (`exists_graph?`): its links are the declared
    ones and its tables hold the declared costs. It is sound if the catalog has no cycle, and the
    cost of an assignment is the same for the graph and for the catalog (`Declares.cost?_eq`). -/

namespace Reshard

variable {α : Type} {c : Catalog α} {g : Graph α} {p n : NodeId} {i j : Nat}

namespace Catalog

/-- The graph `g` is the one that the catalog declares. -/
structure Declares (c : Catalog α) (g : Graph α) : Prop where
  widths : g.widths = c.operators.map (·.width)
  links : g.links = ⟨c.operators.map fun op => ⟨op.predecessors, op.successors, true⟩⟩
  extras : g.extras = ∅
  get_tables {e : Edge} {t : CostTable α} : g.tables[e]? = some t ↔ ∃ op slot w,
    c.get? e.dst = some op ∧ op.predecessors[slot]? = some e.src ∧ c.width? e.src = some w ∧
      table? op slot w = some t

/-! ### Building -/

/-- Links are entered behind those of the nodes before. -/
theorem enterLinks?_append {done rest : List Site} {op : Operator α}
    (h : n.index = done.length) :
    enterLinks? ⟨done ++ ⟨[], [], true⟩ :: rest⟩ n op =
      some ⟨done ++ ⟨op.predecessors, op.successors, true⟩ :: rest⟩ := by
  rw [enterLinks?, Links.replaceParents?, Links.modify?_append _ h]
  exact Links.modify?_append _ h

/-- The links of all nodes in `ops` are entered, and those of `more` nodes behind them are not. -/
theorem foldlM_enterLinks? (more : Nat) {ops : List (Operator α)} (hfits : Fits ⟨ops⟩) :
    (declarations ⟨ops⟩).foldlM (fun links d => enterLinks? links d.1 d.2)
        (.unlinked (ops.length + more)) =
      some ⟨ops.map (fun op => ⟨op.predecessors, op.successors, true⟩) ++
        List.replicate more ⟨[], [], true⟩⟩ := by
  induction ops using List.reverseRecOn generalizing more with
  | nil => simp [declarations, ids, size, Links.unlinked]
  | append_singleton ops op ih =>
    have hlast : (NodeId.ofIndex ops.length).index = ops.length :=
      hfits.index_ofIndex (by simp [size])
    have hdeclarations : declarations ⟨ops ++ [op]⟩ =
        declarations ⟨ops⟩ ++ [(.ofIndex ops.length, op)] := by
      simp [declarations, ids, size, List.range_succ, List.zip_append]
    have hlength : (ops ++ [op]).length + more = ops.length + (more + 1) := by
      rw [List.length_append, List.length_singleton]
      omega
    have hops : Fits ⟨ops⟩ := le_trans (by simp [size]) hfits
    rw [hdeclarations, List.foldlM_append, hlength, ih (more + 1) hops, List.replicate_succ,
      Option.bind_eq_bind, Option.bind_some, List.foldlM_cons,
      enterLinks?_append (hlast.trans (List.length_map _).symm)]
    simp

theorem links?_eq (hfits : c.Fits) : c.links? =
    some ⟨c.operators.map fun op => ⟨op.predecessors, op.successors, true⟩⟩ := by
  have hall := foldlM_enterLinks? 0 hfits
  rwa [List.replicate_zero, List.append_nil] at hall

theorem mem_tablesInto? {op : Operator α} {tables : List (Edge × CostTable α)} {e : Edge}
    {t : CostTable α} (h : c.tablesInto? n op = some tables) : (e, t) ∈ tables ↔ e.dst = n ∧
      ∃ slot w, op.predecessors[slot]? = some e.src ∧ c.width? e.src = some w ∧
        table? op slot w = some t := by
  rw [tablesInto?] at h
  simp only [mem_of_mapM_some h, Prod.exists, List.mem_zipIdx_iff_getElem?, Option.bind_eq_bind,
    Option.bind_eq_some_iff, Option.pure_def, Option.some.injEq, Prod.mk.injEq]
  constructor
  · rintro ⟨p, slot, hp, w, hw, _, ht, rfl, rfl⟩
    exact ⟨rfl, slot, w, hp, hw, ht⟩
  · rintro ⟨rfl, slot, w, hp, hw, ht⟩
    exact ⟨e.src, slot, hp, w, hw, t, ht, rfl, rfl⟩

theorem exists_table? (hc : c.Consistent) {op : Operator α} {slot w : Nat}
    (hop : c.get? n = some op) (hslot : op.predecessors[slot]? = some p)
    (hw : c.width? p = some w) : ∃ t, table? op slot w = some t := by
  refine CostTable.exists_tabulate? ?_
  intro i j hi hj
  have hpn : c.Precedes p n := ⟨op, hop, List.mem_of_getElem? hslot⟩
  have hwn : c.width? n = some op.width := by rw [width?, hop]; rfl
  obtain ⟨x, hx⟩ := exists_weight? hc hpn hw hwn hi hj
  refine ⟨x, ?_⟩
  rw [weight?, hop, Option.bind_eq_bind, Option.bind_some,
    costs?_eq (hc.predecessors_nodup hop) hslot] at hx
  simpa [Option.bind_assoc] using hx

theorem exists_tablesInto? (hc : c.Consistent) {op : Operator α} (hop : c.get? n = some op) :
    ∃ tables, c.tablesInto? n op = some tables := by
  refine exists_mapM_some ?_
  rintro ⟨p, slot⟩ hp
  have hslot := List.mem_zipIdx_iff_getElem?.1 hp
  obtain ⟨other, hother, -⟩ := hc.of_predecessor hop (List.mem_of_getElem? hslot)
  have hw : c.width? p = some other.width := by rw [width?, hother]; rfl
  obtain ⟨t, ht⟩ := exists_table? hc hop hslot hw
  exact ⟨(⟨p, n⟩, t), by simp [hw, ht]⟩

/-- The tables of all declared edges, node by node. -/
theorem exists_tables (hfits : c.Fits) (hc : c.Consistent) :
    ∃ tables, (c.declarations.mapM fun d => c.tablesInto? d.1 d.2) = some tables ∧
      ∀ {e : Edge} {t : CostTable α}, (e, t) ∈ tables.flatten ↔ ∃ op slot w,
        c.get? e.dst = some op ∧ op.predecessors[slot]? = some e.src ∧ c.width? e.src = some w ∧
          table? op slot w = some t := by
  have hinto : ∀ d ∈ c.declarations, ∃ tables, c.tablesInto? d.1 d.2 = some tables :=
    fun _ hd => exists_tablesInto? hc ((mem_declarations hfits).1 hd)
  obtain ⟨tables, htables⟩ := exists_mapM_some hinto
  refine ⟨tables, htables, ?_⟩
  intro e t
  simp only [List.mem_flatten, mem_of_mapM_some htables]
  constructor
  · rintro ⟨into, ⟨⟨n, op⟩, hd, hinto⟩, ht⟩
    obtain ⟨rfl, slot, w, hslot⟩ := (mem_tablesInto? hinto).1 ht
    exact ⟨op, slot, w, (mem_declarations hfits).1 hd, hslot⟩
  · rintro ⟨op, slot, w, hop, hslot⟩
    obtain ⟨into, hinto⟩ := exists_tablesInto? hc hop
    exact ⟨into, ⟨_, (mem_declarations hfits).2 hop, hinto⟩,
      (mem_tablesInto? hinto).2 ⟨rfl, slot, w, hslot⟩⟩

/-- The slot of a predecessor is the only one. -/
theorem slot_unique (hc : c.Consistent) {op : Operator α} {slot slot' : Nat}
    (hop : c.get? n = some op) (hslot : op.predecessors[slot]? = some p)
    (hslot' : op.predecessors[slot']? = some p) : slot = slot' := by
  obtain ⟨hlt, hp⟩ := List.getElem?_eq_some_iff.1 hslot
  obtain ⟨hlt', hp'⟩ := List.getElem?_eq_some_iff.1 hslot'
  exact (hc.predecessors_nodup hop).getElem_inj_iff.1 (hp.trans hp'.symm)

/-- A consistent catalog declares a graph. -/
theorem exists_graph? (hfits : c.Fits) (hc : c.Consistent) :
    ∃ g, c.graph? = some g ∧ c.Declares g := by
  obtain ⟨tables, htables, hmem⟩ := exists_tables hfits hc
  have hone {e : Edge} {t t' : CostTable α} (ht : (e, t) ∈ tables.flatten)
      (ht' : (e, t') ∈ tables.flatten) : t = t' := by
    obtain ⟨op, slot, w, hop, hslot, hw, ht⟩ := hmem.1 ht
    obtain ⟨op', slot', w', hop', hslot', hw', ht'⟩ := hmem.1 ht'
    cases hop.symm.trans hop'
    cases hw.symm.trans hw'
    cases slot_unique hc hop hslot hslot'
    exact Option.some.inj (ht.symm.trans ht')
  refine ⟨{ widths := c.operators.map (·.width)
            links := ⟨c.operators.map fun op => ⟨op.predecessors, op.successors, true⟩⟩
            tables := tables.flatten.foldl (fun all d => all.insert d.1 d.2) ∅
            extras := ∅ }, by rw [graph?, htables, links?_eq hfits]; rfl, rfl, rfl, rfl, ?_⟩
  intro e t
  rw [← hmem]
  constructor
  · intro ht
    rcases FiniteMap.of_get_insertAll ht with ⟨⟨_, _⟩, hd, rfl, rfl⟩ | ht
    · exact hd
    · rw [Std.ExtTreeMap.getElem?_empty] at ht
      cases ht
  · intro ht
    refine FiniteMap.get_insertAll_of_mem (b := (e, t)) ?_ ht
    intro d hd hsame
    exact hone (e := e) ((show d.1 = e from hsame) ▸ hd) ht

namespace Declares

/-! ### Links -/

theorem size (hg : c.Declares g) : g.size = c.size := by
  rw [Graph.size, hg.widths, List.length_map]
  rfl

theorem width? (hg : c.Declares g) : g.width? n = c.width? n := by
  rw [Graph.width?, hg.widths, List.getElem?_map, Catalog.width?, Catalog.get?]

theorem site? (hg : c.Declares g) : g.links.site? n =
    (c.get? n).map fun op => ⟨op.predecessors, op.successors, true⟩ := by
  rw [hg.links, Links.site?, List.getElem?_map, Catalog.get?]

theorem isLive_iff (hg : c.Declares g) : g.links.isLive n ↔ n.index < c.size := by
  rw [Links.isLive, hg.site?]
  constructor
  · intro h
    cases hop : c.get? n with
    | none => rw [hop] at h; cases h
    | some op => exact index_lt_of_get? hop
  · intro h
    obtain ⟨op, hop⟩ := exists_get? h
    rw [hop]
    rfl

theorem parents (hg : c.Declares g) : g.links.parents n = c.predecessors n := by
  rw [Links.parents, hg.site?, predecessors]
  cases c.get? n <;> rfl

theorem mem_children (hg : c.Declares g) (hc : c.Consistent) :
    n ∈ g.links.children p ↔ c.Precedes p n := by
  rw [precedes_iff_mem_successors hc, Links.children, hg.site?]
  cases c.get? p <;> simp

theorem nodup_children (hg : c.Declares g) (hc : c.Consistent) : (g.links.children n).Nodup := by
  rw [Links.children, hg.site?]
  cases hop : c.get? n with
  | none => exact List.nodup_nil
  | some op => exact hc.successors_nodup hop

theorem nodes_eq (hg : c.Declares g) : g.nodes = c.ids.toFinset := by
  rw [Graph.nodes, hg.size, ids]

theorem live_eq (hg : c.Declares g) : g.live = g.nodes := by
  ext n
  rw [Graph.mem_live, hg.isLive_iff, Graph.mem_nodes, hg.size]

/-! ### Tables -/

theorem get?_eq_weight? (hg : c.Declares g) (hc : c.Consistent) {e : Edge} {t : CostTable α}
    (ht : g.tables[e]? = some t) : t.get? i j = c.weight? e i j := by
  obtain ⟨op, slot, w, hop, hslot, hw, ht⟩ := hg.get_tables.1 ht
  obtain ⟨hrows, hcols, hget⟩ := CostTable.tabulate?_eq_some ht
  by_cases hin : i < t.rows ∧ j < t.cols
  · rw [hget i j (hrows ▸ hin.1) (hcols ▸ hin.2), weight?, hop]
    simp [costs?_eq (hc.predecessors_nodup hop) hslot, Option.bind_assoc]
  · rw [CostTable.get?_eq_none_of_not hin, eq_comm, Option.eq_none_iff_forall_ne_some]
    intro x hx
    obtain ⟨-, ⟨wp, hwp, hi⟩, wn, hwn, hj⟩ := lt_of_weight? hc hx
    cases hw.symm.trans hwp
    have : c.width? e.dst = some op.width := by rw [Catalog.width?, hop]; rfl
    cases this.symm.trans hwn
    exact hin ⟨hrows ▸ hi, hcols ▸ hj⟩

theorem mem_tables (hg : c.Declares g) (hc : c.Consistent) :
    (⟨p, n⟩ : Edge) ∈ g.tables ↔ c.Precedes p n := by
  constructor
  · intro hmem
    obtain ⟨t, ht⟩ := FiniteMap.exists_get hmem
    obtain ⟨op, slot, -, hop, hslot, -⟩ := hg.get_tables.1 ht
    exact ⟨op, hop, List.mem_of_getElem? hslot⟩
  · rintro ⟨op, hop, hp⟩
    obtain ⟨slot, hslot⟩ := List.mem_iff_getElem?.1 hp
    obtain ⟨other, hother, -⟩ := hc.of_predecessor hop hp
    have hw : c.width? p = some other.width := by rw [Catalog.width?, hother]; rfl
    obtain ⟨t, ht⟩ := exists_table? hc hop hslot hw
    exact FiniteMap.mem_of_get (hg.get_tables.2 ⟨op, slot, _, hop, hslot, hw, ht⟩)

theorem shaped (hg : c.Declares g) (hfits : c.Fits) (hc : c.Consistent) : g.Shaped where
  fits := hg.size ▸ hfits
  size_links := by rw [hg.size, hg.links, Links.size, List.length_map]; rfl
  width_pos hw := hc.width_pos (hg.width? ▸ hw)
  table_shape {e t} ht := by
    obtain ⟨op, slot, w, hop, hslot, hw, ht⟩ := hg.get_tables.1 ht
    obtain ⟨hrows, hcols, -⟩ := CostTable.tabulate?_eq_some ht
    rw [hg.width?, hg.width?, hw, hrows, hcols, Catalog.width?, hop]
    exact ⟨rfl, rfl⟩
  length_extra hextra := by
    rw [hg.extras, Std.ExtTreeMap.getElem?_empty] at hextra
    cases hextra

/-- A consistent catalog declares a coherent graph. -/
theorem coherent (hg : c.Declares g) (hfits : c.Fits) (hc : c.Consistent) : g.Coherent where
  toShaped := hg.shaped hfits hc
  mem_parents := by
    intro p n
    rw [hg.parents, mem_predecessors, hg.mem_children hc]
  mem_children ht := (hg.mem_children hc).2 ((hg.mem_tables hc).1 (FiniteMap.mem_of_get ht))
  live_src hn := hg.isLive_iff.2 (index_lt_of_precedes hc ((hg.mem_children hc).1 hn)).1
  live_dst hn := hg.isLive_iff.2 (index_lt_of_precedes hc ((hg.mem_children hc).1 hn)).2

/-- A catalog whose nodes are ranked declares a sound graph. -/
theorem sound (hg : c.Declares g) (hfits : c.Fits) (hc : c.Consistent) {rank : NodeId → Nat}
    (hrank : ∀ p n, c.Precedes p n → rank p < rank n) : g.Sound rank where
  toShaped := hg.shaped hfits hc
  parents_nodup _ := hg.parents ▸ nodup_predecessors hc
  children_nodup _ := hg.nodup_children hc
  mem_parents := (hg.coherent hfits hc).mem_parents
  mem_tables := (hg.mem_tables hc).trans (hg.mem_children hc).symm
  live_src := (hg.coherent hfits hc).live_src
  live_dst := (hg.coherent hfits hc).live_dst
  rank_lt hn := hrank _ _ ((hg.mem_children hc).1 hn)

/-! ### Costs -/

variable [Cost α]

theorem weight_eq (hg : c.Declares g) (hc : c.Consistent) {e : Edge} :
    g.weight e i j = c.weight e i j := by
  by_cases hmem : e ∈ g.tables
  · obtain ⟨t, ht⟩ := FiniteMap.exists_get hmem
    rw [Graph.weight, ht, Option.bind_some, hg.get?_eq_weight? hc ht, weight]
  · rw [Graph.weight_of_notMem hmem, weight, eq_comm]
    cases hx : c.weight? e i j with
    | none => rfl
    | some x => exact absurd ((hg.mem_tables hc).2 (lt_of_weight? hc hx).1) hmem

theorem extraAt_eq (hg : c.Declares g) : g.extraAt n i = 0 := by
  rw [Graph.extraAt, hg.extras, Std.ExtTreeMap.getElem?_empty]
  rfl

/-- The cost of an assignment in the declared graph is its cost in the catalog. -/
theorem cost?_eq [ExactCost α] (hg : c.Declares g) (hfits : c.Fits) (hc : c.Consistent)
    {full : List Nat} (hfull : c.Assigns full) :
    c.cost? full = some (g.costAt (chosenAt full)) := by
  have hinner : ∀ n ∈ c.ids.toFinset, ∑ p ∈ (c.predecessors n).toFinset,
      c.weight ⟨p, n⟩ (chosenAt full p) (chosenAt full n) =
      ∑ p ∈ c.ids.toFinset, g.weight ⟨p, n⟩ (chosenAt full p) (chosenAt full n) := by
    intro n _
    simp only [hg.weight_eq hc]
    refine Finset.sum_subset ?_ ?_
    · intro p hp
      have hpn := mem_predecessors.1 (List.mem_toFinset.1 hp)
      exact List.mem_toFinset.2 ((mem_ids hfits).2 (index_lt_of_precedes hc hpn).1)
    · intro p _ hp
      rw [← hg.weight_eq hc, Graph.weight_of_notMem]
      exact fun hmem => hp (List.mem_toFinset.2 (mem_predecessors.2 ((hg.mem_tables hc).1 hmem)))
  rw [cost?_eq_sum hfits hc hfull, Finset.sum_congr rfl hinner, Finset.sum_comm, Graph.costAt,
    hg.live_eq, hg.nodes_eq]
  simp only [Graph.outCost, hg.extraAt_eq, zero_add]

end Declares

end Catalog

end Reshard
