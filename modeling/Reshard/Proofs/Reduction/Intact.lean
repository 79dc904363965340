import Reshard.Proofs.Graph.Valid
import Reshard.Proofs.Reduction.Replay

/-! What holds of a reduction at any time.

    A call writes the links, the tables, the extra costs and the record of absorptions one after the
    other. Whatever the calls were, and whether they succeeded or not, the parts agree with each
    other and with the catalog (`Intact`), and costs stay valid as long as sums of valid costs are
    (`intact_run`). -/

namespace Reshard

variable {α : Type}

/-- An entry for `n` has one of the strategies of `n` for each strategy of the node it leads to. -/
def Graph.Maps (g : Graph α) (n : NodeId) (entry : Absorption) : Prop :=
  g.width? entry.into = some entry.map.length ∧ ∃ w, g.width? n = some w ∧ ∀ j ∈ entry.map, j < w

namespace Reduction

/-- The parts of a reduction agree with each other and with the catalog. -/
structure Intact (c : Catalog α) (r : Reduction α) : Prop where
  /-- Each node has as many strategies as were declared. -/
  width? (n : NodeId) : r.graph.width? n = c.width? n
  size_links : r.graph.links.size = c.size
  parents_nodup (n : NodeId) : (r.graph.links.parents n).Nodup
  children_nodup (n : NodeId) : (r.graph.links.children n).Nodup
  mem_parents_iff {p n : NodeId} : p ∈ r.graph.links.parents n ↔ n ∈ r.graph.links.children p
  mem_tables_iff {p n : NodeId} : (⟨p, n⟩ : Edge) ∈ r.graph.tables ↔ n ∈ r.graph.links.children p
  live_ends {e : Edge} : e ∈ r.graph.tables →
    r.graph.links.isLive e.src ∧ r.graph.links.isLive e.dst
  /-- A node that is not live has no links. -/
  links_eq_nil {n : NodeId} : r.graph.links.isLive n = false →
    r.graph.links.parents n = [] ∧ r.graph.links.children n = []
  table_shape {e : Edge} {t : CostTable α} : r.graph.tables[e]? = some t →
    r.graph.width? e.src = some t.rows ∧ r.graph.width? e.dst = some t.cols ∧
      t.cells.length = t.rows * t.cols
  length_extra {n : NodeId} {extra : List α} : r.graph.extra? n = some extra →
    r.graph.width? n = some extra.length
  /-- The absorbed nodes are those that are not live. -/
  contains_iff {n : NodeId} : r.absorptions.contains n ↔
    n.index < r.size ∧ r.graph.links.isLive n = false
  maps_entry {n : NodeId} {entry : Absorption} : r.absorptions.entries[n]? = some entry →
    r.graph.Maps n entry
  maps_resolved {n : NodeId} {entry : Absorption} : r.absorptions.resolved[n]? = some entry →
    r.graph.Maps n entry

end Reduction

namespace Stage.Coherent

variable {s : Stage α} {n : NodeId} {entry : Absorption}

theorem maps_entry (h : s.Coherent) (hn : s.absorptions.entries[n]? = some entry) :
    s.graph.Maps n entry := by
  obtain ⟨w, hw⟩ := Graph.exists_width? (h.mem_entries.1 (FiniteMap.mem_of_get hn)).1
  exact ⟨h.width_into hn, w, hw, fun j => h.lt_width hn hw⟩

/-- A resolved entry picks strategies from the entry that it starts with. -/
theorem maps_resolved (h : s.Coherent) (hn : s.absorptions.resolved[n]? = some entry) :
    s.graph.Maps n entry := by
  have hleads := h.right n entry hn
  refine ⟨h.width_root hleads rfl, ?_⟩
  cases hleads with
  | into hfirst _ hcompose =>
    obtain ⟨-, w, hw, hlt⟩ := h.maps_entry hfirst
    exact ⟨w, hw, fun j hj => hlt j (Absorptions.mem_of_compose? hcompose hj)⟩

end Stage.Coherent

namespace Reduction

variable {rank : NodeId → Nat} {settings : Settings α} {c : Catalog α} {r : Reduction α}
  {call : Call}

/-- A sound reduction with the declared widths is intact. -/
theorem intact_of_sound (h : r.toStage.Sound rank) (hwidth : ∀ n, r.graph.width? n = c.width? n)
    (hsize : r.size = c.size) : Intact c r where
  width? := hwidth
  size_links := h.graph.size_links.trans hsize
  parents_nodup := h.graph.parents_nodup
  children_nodup := h.graph.children_nodup
  mem_parents_iff := h.graph.mem_parents
  mem_tables_iff := h.graph.mem_tables
  live_ends he := by
    have hlinked := h.graph.mem_tables.1 he
    exact ⟨h.graph.live_src hlinked, h.graph.live_dst hlinked⟩
  links_eq_nil hn := ⟨h.graph.parents_eq_nil hn, h.graph.children_eq_nil hn⟩
  table_shape {e t} ht :=
    ⟨(h.graph.table_shape ht).1, (h.graph.table_shape ht).2, t.length_cells⟩
  length_extra := h.graph.length_extra
  contains_iff {n} := by
    rw [Absorptions.contains, Std.ExtTreeMap.contains_iff_mem, h.mem_entries, Bool.not_eq_true]
    rfl
  maps_entry := h.coherent.maps_entry
  maps_resolved := h.coherent.maps_resolved

/-! ### Costs -/

variable [Cost α]

section Costs

variable [BoundedCost α] (hadd : ∀ a b : α, Cost.Valid a → Cost.Valid b → Cost.Valid (a + b))
include hadd

theorem validCosts_mergeAll : ∀ {edges : List Edge} {s s' : Stage α}, s.Coherent →
    s.graph.ValidCosts → s.mergeAll edges = .ok s' → s'.graph.ValidCosts
  | [], _, _, _, hv, hrun => by cases hrun; exact hv
  | _ :: _, _, _, h, hv, hrun => by
    obtain ⟨_, _, hmerge, hrun⟩ := Stage.of_mergeAll_cons hrun
    exact validCosts_mergeAll (h.merge hmerge)
      (hv.merge hadd h.graph (Stage.merge_ok_iff.1 hmerge).1) hrun

theorem validCosts_after (h : r.toStage.Coherent) (hv : r.graph.ValidCosts) :
    (r.after call).graph.ValidCosts := by
  rw [after_eq]
  cases hcall : r.call? call with
  | none => exact hv
  | some r' =>
    obtain ⟨s, hrun, hgraph, -⟩ := of_call? h hcall
    rw [Option.getD_some, hgraph]
    exact validCosts_mergeAll hadd h hv hrun

theorem validCosts_run : ∀ (calls : List Call) {r : Reduction α}, r.toStage.Coherent →
    r.graph.ValidCosts → (r.run calls).graph.ValidCosts
  | [], _, _, hv => hv
  | _ :: calls, _, h, hv => validCosts_run calls (coherent_after h) (validCosts_after hadd h hv)

end Costs

/-! ### Runs -/

/-- A reduction of a catalog without cycles is intact after any run of calls. Its costs are valid if
    sums of valid costs are. -/
theorem intact_run [BoundedCost α] (h : StartableAcyclic settings c) : FromStart settings c fun r =>
    ∀ calls, Intact c (r.run calls) ∧
      ((∀ a b : α, Cost.Valid a → Cost.Valid b → Cost.Valid (a + b)) →
        (r.run calls).graph.ValidCosts) := by
  refine h.fromStart_sound fun r rank hr hsound => ?_
  intro calls
  refine ⟨intact_of_sound (sound_run calls hsound) (hr.width?_run calls) (hr.size_run calls),
    fun hadd => ?_⟩
  exact validCosts_run hadd calls hsound.coherent (hr.graph.validCosts h.consistent h.validCosts)

/-- A merge with a node that keeps another parent, one that is refused, and the queued ones. -/
def weaveCalls : List Call := [.merge ⟨.ofIndex 0, .ofIndex 2⟩, .merge ⟨.ofIndex 3, .ofIndex 0⟩,
  .simplify, .merge ⟨.ofIndex 0, .ofIndex 1⟩]

set_option maxRecDepth 4000 in
theorem weave_intact_run : FromStart ⟨true, some 8⟩ weave fun r =>
    Intact weave (r.run weaveCalls) ∧ (r.run weaveCalls).graph.ValidCosts := by
  obtain ⟨r, event, hstart, h⟩ := intact_run weave_startable
  obtain ⟨hintact, hcosts⟩ := h weaveCalls
  exact ⟨r, event, hstart, hintact, hcosts fun a b ha hb => add_nonneg ha hb⟩

end Reduction

end Reshard
