import Reshard.Proofs.Graph.Paths
import Reshard.Proofs.Reduction.Faults

/-! The order of the live nodes.

    A catalog may have cycles, and merges may turn a long cycle into a short one or open it. At any
    time the live nodes can be swept exactly if no cycle is left among the edges. The order is then
    one of all live nodes, and otherwise a node on a cycle is named (`sweeps_run`). -/

namespace Reshard.Reduction

open Relation

variable {α : Type} {r : Reduction α}

/-- The sweep of the live nodes succeeds exactly if it can, and tells the truth either way. -/
structure Sweeps (r : Reduction α) : Prop where
  exists_sweep_iff : (∃ order, r.sweep = .ok order) ↔ ∀ n, ¬ TransGen r.graph.Linked n n
  nodup {order : List NodeId} : r.sweep = .ok order → order.Nodup
  mem_iff {order : List NodeId} {n : NodeId} : r.sweep = .ok order →
    (n ∈ order ↔ r.graph.links.isLive n)
  /-- The source of an edge comes before its destination. -/
  sorted {order : List NodeId} {p n : NodeId} : r.sweep = .ok order → r.graph.Linked p n →
    [p, n].Sublist order
  /-- The only fault is a cycle, and the node that it names is on one. -/
  of_error {fault : Fault α} : r.sweep = .error fault →
    ∃ n, fault = .cycle n ∧ TransGen r.graph.Linked n n

theorem linked_digraph_eq : r.digraph.Linked = r.graph.Linked :=
  funext₂ fun _ _ => propext linked_digraph

theorem sweeps_of_coherent (h : r.graph.Coherent) : r.Sweeps where
  exists_sweep_iff := by
    have hclosed : r.digraph.Closed := Digraph.closed_ofEdges h.toShaped.nodup_liveNodes
    simp only [sweep_ok_iff, ← linked_digraph_eq]
    exact Digraph.exists_sort_iff hclosed
  nodup hsweep := (of_sweep h hsweep).1.nodup_iff.2 h.toShaped.nodup_liveNodes
  mem_iff hsweep := by rw [(of_sweep h hsweep).1.mem_iff, liveNodes, Links.mem_liveNodes]
  sorted hsweep hpn := (of_sweep h hsweep).2 _ hpn
  of_error := sweep_error h.toShaped

variable [Cost α] {settings : Settings α} {c : Catalog α}

/-- After any run of calls, for a catalog with or without cycles, the live nodes are swept if their
    edges have no cycle, and a node on a cycle is named if they have one. -/
theorem sweeps_run (h : Startable settings c) :
    FromStart settings c fun r => ∀ calls, (r.run calls).Sweeps :=
  h.fromStart fun _ hr calls => sweeps_of_coherent (coherent_run calls hr.coherent).graph

/-- Three nodes in a circle that is entered from a fourth one. -/
def whirl : Catalog (WithTop ℕ) where
  operators :=
    [⟨"a", [], [.ofIndex 1], [⟨"s", []⟩], false⟩,
      ⟨"b", [.ofIndex 0, .ofIndex 3], [.ofIndex 2], [⟨"s", [[1], [1]]⟩], false⟩,
      ⟨"c", [.ofIndex 1], [.ofIndex 3], [⟨"s", [[1]]⟩, ⟨"t", [[0]]⟩], false⟩,
      ⟨"d", [.ofIndex 2], [.ofIndex 1], [⟨"s", [[0, 1]]⟩], false⟩]

/-- Two merges shrink the circle to an edge from the second node to itself. -/
def whirlShrink : List Call := [.merge ⟨.ofIndex 1, .ofIndex 2⟩, .merge ⟨.ofIndex 1, .ofIndex 3⟩]

/-- A merge of that node with itself opens the circle. -/
def whirlOpen : List Call := whirlShrink ++ [.merge ⟨.ofIndex 1, .ofIndex 1⟩]

set_option maxRecDepth 4000 in
theorem whirl_sweeps_run : FromStart ⟨true, some 8⟩ whirl fun r =>
    (∀ calls ∈ [[], whirlShrink], ∃ n, (r.run calls).sweep = .error (.cycle n) ∧
      TransGen (r.run calls).graph.Linked n n) ∧
    ∃ order, (r.run whirlOpen).sweep = .ok order ∧ [.ofIndex 0, .ofIndex 1].Sublist order ∧
      ∀ n, ¬ TransGen (r.run whirlOpen).graph.Linked n n := by
  have hstartable : Startable ⟨true, some 8⟩ whirl := ⟨by decide, by decide, by decide⟩
  obtain ⟨r, event, hstart, h⟩ := sweeps_run hstartable
  obtain ⟨hfails, hopen, hlinked⟩ := of_any (P := fun p : _ × _ =>
    (∀ calls ∈ [[], whirlShrink], (p.1.run calls).sweep.toOption.isNone) ∧
      (p.1.run whirlOpen).sweep.toOption.isSome ∧
      (⟨.ofIndex 0, .ofIndex 1⟩ : Edge) ∈ (p.1.run whirlOpen).graph.tables)
    (by decide +kernel) hstart
  refine ⟨r, event, hstart, ?_, ?_⟩
  · intro calls hcalls
    have hfails := hfails calls hcalls
    cases hsweep : (r.run calls).sweep with
    | ok order =>
      rw [hsweep] at hfails
      cases hfails
    | error fault =>
      obtain ⟨n, rfl, hcycle⟩ := (h calls).of_error hsweep
      exact ⟨n, rfl, hcycle⟩
  · obtain ⟨order, horder⟩ := Option.isSome_iff_exists.1 hopen
    have horder := toOption_eq_some_iff.1 horder
    exact ⟨order, horder, (h whirlOpen).sorted horder hlinked,
      (h whirlOpen).exists_sweep_iff.1 ⟨order, horder⟩⟩

end Reshard.Reduction
