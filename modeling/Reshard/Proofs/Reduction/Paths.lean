import Reshard.Proofs.Graph.Paths
import Reshard.Proofs.Reduction.Simplify
import Reshard.Proofs.Residual

/-! Order and paths along a run.

    Whatever is merged, the edges of the graph follow every numbering that the declared predecessors
    follow. So no cycle comes up and the live nodes can be swept at any time, and each merge keeps
    the paths between nodes other than its destination (`order_and_paths_run`). -/

namespace Reshard.Reduction

open Relation

variable {α : Type} [Cost α] {rank : NodeId → Nat} {s t t' : Reduction α} {e : Edge}
  {event : Event α}

theorem sound_mergeEach (h : s.toStage.Sound rank) {edges : List Edge}
    (hrun : s.mergeEach edges = .ok t) : t.toStage.Sound rank := by
  obtain ⟨stage, hstage, rfl⟩ := mergeEach_ok_iff.1 hrun
  exact h.mergeAll hstage

theorem transGen_merge_iff (h : t.toStage.Sound rank) (hcall : t.merge e = .ok (t', event))
    {u v : NodeId} (hu : u ≠ e.dst) (hv : v ≠ e.dst) :
    TransGen t'.graph.Linked u v ↔ TransGen t.graph.Linked u v := by
  obtain ⟨stage, m, hmerge, rfl, -⟩ := merge_ok_iff.1 hcall
  obtain ⟨rfl, hm, hg⟩ := h.coherent.of_merge hmerge
  exact h.graph.transGen_performed_iff hm hg hu hv

variable {settings : Settings α} {c : Catalog α}

/-- The graph has kept the order of the declared nodes, and merges keep its paths. -/
structure KeepsOrder (c : Catalog α) (s : Reduction α) : Prop where
  /-- The edges follow each numbering of the nodes that the declared predecessors follow. -/
  rank_lt {rank : NodeId → Nat} : (∀ p n, c.Precedes p n → rank p < rank n) →
    ∀ {p n}, s.graph.Linked p n → rank p < rank n
  not_transGen_self (n : NodeId) : ¬ TransGen s.graph.Linked n n
  exists_sweep : ∃ order, s.sweep = .ok order
  /-- A merge, as a call or as one of those that simplifying makes after others, keeps the paths
      between nodes other than its destination. -/
  transGen_merge_iff {done : List Edge} {t t' : Reduction α} {e : Edge} {event : Event α} :
    s.mergeEach done = .ok t → t.merge e = .ok (t', event) → ∀ {u v}, u ≠ e.dst → v ≠ e.dst →
      (TransGen t'.graph.Linked u v ↔ TransGen t.graph.Linked u v)

/-- After any run of calls for a catalog without cycles, the edges follow each numbering of the
    nodes that the declared predecessors follow, there is no cycle, and the live nodes can be swept.
    Each merge from there on keeps the paths between nodes other than its destination. -/
theorem order_and_paths_run (h : StartableAcyclic settings c) : FromStart settings c fun r =>
    ∀ calls, KeepsOrder c (r.run calls) := by
  refine h.fromStart_sound fun r rank hr hsound calls => ?_
  have hs : (r.run calls).toStage.Sound rank := sound_run calls hsound
  exact
    { rank_lt := fun hrank => (sound_run calls (hr.sound hrank)).graph.rank_lt_of_linked
      not_transGen_self := fun n => hs.graph.not_transGen_self
      exists_sweep := Reduction.exists_sweep hs.graph
      transGen_merge_iff := fun hdone hmerge =>
        Reduction.transGen_merge_iff (sound_mergeEach hs hdone) hmerge }

set_option maxRecDepth 4000 in
/-- The first of the two merges leaves its destination in the graph. -/
theorem weave_order_and_paths_run : FromStart ⟨true, some 8⟩ weave fun r =>
    (∀ p n, (r.run weaveCalls).graph.Linked p n → p.index < n.index) ∧
    (∃ order, (r.run weaveCalls).sweep = .ok order) ∧
    ∃ t t' event, r.mergeEach [⟨.ofIndex 0, .ofIndex 2⟩] = .ok t ∧
      t.merge ⟨.ofIndex 1, .ofIndex 2⟩ = .ok (t', event) ∧
      (TransGen t'.graph.Linked (.ofIndex 0) (.ofIndex 3) ↔
        TransGen t.graph.Linked (.ofIndex 0) (.ofIndex 3)) := by
  obtain ⟨r, event, hstart, h⟩ := order_and_paths_run weave_startable
  have hfirst : (r.mergeEach [⟨.ofIndex 0, .ofIndex 2⟩]).toOption.any fun t =>
      decide ((t.merge ⟨.ofIndex 1, .ofIndex 2⟩).toOption.isSome) :=
    of_any (P := fun p : _ × _ => (p.1.mergeEach [⟨.ofIndex 0, .ofIndex 2⟩]).toOption.any fun t =>
      decide ((t.merge ⟨.ofIndex 1, .ofIndex 2⟩).toOption.isSome)) (by decide +kernel) hstart
  obtain ⟨t, ht, hsecond⟩ := exists_of_any hfirst
  obtain ⟨⟨t', event'⟩, hmerge⟩ := Option.isSome_iff_exists.1 hsecond
  have hmerge := toOption_eq_some_iff.1 hmerge
  exact ⟨r, event, hstart, fun _ _ => (h weaveCalls).rank_lt weave_numbered,
    (h weaveCalls).exists_sweep, t, t', event', ht, hmerge,
    (h []).transGen_merge_iff ht hmerge (by decide) (by decide)⟩

end Reshard.Reduction
