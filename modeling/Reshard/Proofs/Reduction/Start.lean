import Mathlib.Algebra.BigOperators.Group.Finset.Sigma
import Reshard.Proofs.Cost.Bounds
import Reshard.Proofs.Reduction.Preservation
import Reshard.Proofs.Reduction.Replay

/-! What a run starts from.

    A declared cost is looked up strategy by strategy, in the position of the predecessor. The graph
    at the start holds these costs in one table for each pair of neighbours, with a line for each
    strategy of the predecessor, and clipped (`Transcribes`). Both ways an assignment costs the
    same, unless it selects a cost that clipping cuts: then it is infeasible in the graph
    (`start_transcribes`). -/

namespace Reshard

variable {α : Type}

/-! ### Clipped costs -/

/-- The cost reaches the threshold. -/
def Settings.Cuts [Cost α] (s : Settings α) (x : α) : Prop := ∃ t ∈ s.threshold, t ≤ x

section Clip

variable [Cost α] {settings : Settings α} {x : α}

instance : Decidable (settings.Cuts x) :=
  inferInstanceAs (Decidable (∃ t ∈ settings.threshold, t ≤ x))

theorem Settings.clip_of_cuts (h : settings.Cuts x) : settings.clip x = Cost.infeasible := by
  obtain ⟨t, ht, hle⟩ := h
  rw [clip, Option.mem_def.1 ht]
  exact if_pos hle

theorem Settings.clip_of_not_cuts (h : ¬ settings.Cuts x) : settings.clip x = x := by
  rw [clip]
  split
  next => rfl
  next t ht => exact if_neg fun hle => h ⟨t, ht, hle⟩

end Clip

namespace Catalog

variable {c : Catalog α} {assignment : List Nat}

@[simp] theorem ids_map {β : Type} {f : α → β} : (c.map f).ids = c.ids := by
  rw [ids, size_map, ids]

theorem assigns_map {β : Type} {f : α → β} :
    (c.map f).Assigns assignment ↔ c.Assigns assignment := by
  simp only [Assigns, size_map, width?_map]

variable [Cost α] {settings : Settings α}

/-- The assignment selects a declared cost that reaches the threshold. -/
def Cut (c : Catalog α) (settings : Settings α) (assignment : List Nat) : Prop :=
  ∃ e x, c.weight? e (chosenAt assignment e.src) (chosenAt assignment e.dst) = some x ∧
    settings.Cuts x

instance : Decidable (c.Cut settings assignment) :=
  decidable_of_iff (∃ n ∈ c.ids, ∃ p ∈ c.predecessors n,
      ∃ x ∈ c.weight? ⟨p, n⟩ (chosenAt assignment p) (chosenAt assignment n), settings.Cuts x) <| by
    constructor
    · rintro ⟨n, -, p, -, x, hx, hcuts⟩
      exact ⟨⟨p, n⟩, x, hx, hcuts⟩
    · rintro ⟨⟨p, n⟩, x, hx, hcuts⟩
      obtain ⟨op, hop, hp⟩ := precedes_of_weight? hx
      have hw : c.width? n = some op.width := by rw [width?, hop]; rfl
      exact ⟨n, mem_ids_of_width? hw, p, mem_predecessors.2 ⟨op, hop, hp⟩, x, hx, hcuts⟩

theorem weight_map {f : α → α} {e : Edge} {i j : Nat} {x : α} (h : c.weight? e i j = some x) :
    (c.map f).weight e i j = f x := by
  rw [weight, weight?_map, h]
  rfl

section Exact

variable [ExactCost α] (hfits : c.Fits) (hc : c.Consistent) (ha : c.Assigns assignment)
include hfits hc ha

/-- Clipping that cuts no selected cost leaves the cost of an assignment as it is. -/
theorem cost?_clip_of_not_cut (hcut : ¬ c.Cut settings assignment) :
    (c.map settings.clip).cost? assignment = c.cost? assignment := by
  rw [cost?_eq_sum hfits.map hc.map (assigns_map.2 ha), cost?_eq_sum hfits hc ha]
  simp only [ids_map, predecessors_map]
  refine congrArg some (Finset.sum_congr rfl fun n _ => Finset.sum_congr rfl fun p hp => ?_)
  obtain ⟨x, hx⟩ := exists_selected hc ha (mem_predecessors.1 (List.mem_toFinset.1 hp))
  rw [weight_map hx, weight, hx, Settings.clip_of_not_cuts fun hcuts => hcut ⟨_, x, hx, hcuts⟩]
  rfl

/-- One selected cost that is cut makes the whole cost infeasible. -/
theorem cost?_clip_of_cut [BoundedCost α] (hvalid : c.ValidCosts)
    (hcut : c.Cut settings assignment) :
    (c.map settings.clip).cost? assignment = some Cost.infeasible := by
  obtain ⟨e, x, hx, hcuts⟩ := hcut
  rw [cost?_eq_sum hfits.map hc.map (assigns_map.2 ha), Finset.sum_sigma']
  simp only [ids_map, predecessors_map]
  refine congrArg some (Cost.sum_eq_infeasible (i := ⟨e.dst, e.src⟩) ?_ ?_ ?_)
  · rintro ⟨n, p⟩ hnp
    have hp := (Finset.mem_sigma.1 hnp).2
    obtain ⟨y, hy⟩ := exists_selected hc ha (mem_predecessors.1 (List.mem_toFinset.1 hp))
    rw [weight_map hy]
    exact Settings.clip_valid (valid_of_weight? hvalid hy)
  · have hpn := precedes_of_weight? hx
    have hdst := (mem_ids hfits).2 (index_lt_of_precedes hc hpn).2
    exact Finset.mem_sigma.2 ⟨List.mem_toFinset.2 hdst,
      List.mem_toFinset.2 (mem_predecessors.2 hpn)⟩
  · rw [weight_map hx, Settings.clip_of_cuts hcuts]

end Exact

end Catalog

/-! ### The start -/

namespace Reduction

variable [Cost α] {settings : Settings α} {c : Catalog α} {r : Reduction α} {assignment : List Nat}

/-- At the start the cost of an assignment is the one that the clipped costs add up to. -/
theorem Started.cost_eq [ExactCost α] (h : Started settings c r) (ha : c.Assigns assignment)
    {total : α} (htotal : (c.map settings.clip).cost? assignment = some total) :
    r.cost assignment = .ok total := by
  have hassigns : (c.map settings.clip).Assigns assignment := Catalog.assigns_map.2 ha
  have hgraph := h.graph.cost?_eq h.fits.map h.consistent.map hassigns
  have hadmits : r.Admits assignment := admits_of_assigns h [] hassigns
  rw [Reduction.cost_eq h.coherent hadmits]
  exact congrArg Except.ok (Option.some.inj (hgraph.symm.trans htotal))

/-- The graph holds what the catalog declares, clipped. -/
structure Transcribes (settings : Settings α) (c : Catalog α) (r : Reduction α) : Prop where
  exists_table_iff {e : Edge} : (∃ t, r.graph.table e = .ok t) ↔ c.Precedes e.src e.dst
  exists_entry_iff {e : Edge} {t : CostTable α} {i j : Nat} : r.graph.table e = .ok t →
    ((∃ x, t.get? i j = some x) ↔
      (∃ w, c.width? e.src = some w ∧ i < w) ∧ ∃ w, c.width? e.dst = some w ∧ j < w)
  entry_eq {e : Edge} {t : CostTable α} {i j : Nat} : r.graph.table e = .ok t →
    t.get? i j = (c.weight? e i j).map settings.clip
  /-- Each full assignment has a cost in the catalog; the graph's cost is that one or infeasible. -/
  exists_cost {assignment : List Nat} : c.Assigns assignment → ∃ total,
    c.cost? assignment = some total ∧
      (¬ c.Cut settings assignment → r.cost assignment = .ok total) ∧
      (c.Cut settings assignment → r.cost assignment = .ok Cost.infeasible)

/-- A catalog that passes the check is transcribed at the start. -/
theorem start_transcribes [ExactCost α] [BoundedCost α] (h : Startable settings c) :
    FromStart settings c fun r => Transcribes settings c r := by
  have hc := h.consistent
  refine h.fromStart fun r hr => ?_
  have hentry {e : Edge} {t : CostTable α} {i j : Nat} (ht : r.graph.table e = .ok t) :
      t.get? i j = (c.weight? e i j).map settings.clip := by
    rw [hr.graph.get?_eq_weight? hc.map (Fault.require_ok_iff.1 ht), Catalog.weight?_map]
  have htable {e : Edge} : (∃ t, r.graph.table e = .ok t) ↔ c.Precedes e.src e.dst := by
    rw [← Catalog.precedes_map, ← hr.graph.mem_tables hc.map]
    exact ⟨fun ⟨t, ht⟩ => FiniteMap.mem_of_get (Fault.require_ok_iff.1 ht),
      fun hmem => (FiniteMap.exists_get hmem).imp fun t ht => Fault.require_ok_iff.2 ht⟩
  refine {
    exists_table_iff := htable
    exists_entry_iff := ?_
    entry_eq := hentry
    exists_cost := ?_ }
  · intro e t i j ht
    rw [hentry ht]
    constructor
    · rintro ⟨_, hx⟩
      obtain ⟨x, hx, -⟩ := Option.map_eq_some_iff.1 hx
      exact (Catalog.lt_of_weight? hc hx).2
    · rintro ⟨⟨wp, hwp, hi⟩, wn, hwn, hj⟩
      obtain ⟨x, hx⟩ := Catalog.exists_weight? hc (htable.1 ⟨t, ht⟩) hwp hwn hi hj
      exact ⟨settings.clip x, congrArg _ hx⟩
  · intro assignment ha
    have htotal := Catalog.cost?_eq_sum h.fits hc ha
    refine ⟨_, htotal, fun hcut => ?_, fun hcut => ?_⟩
    · refine hr.cost_eq ha ?_
      rw [Catalog.cost?_clip_of_not_cut h.fits hc ha hcut, htotal]
    · exact hr.cost_eq ha (Catalog.cost?_clip_of_cut h.fits hc ha h.validCosts hcut)

/-- The first assignment keeps below the threshold; the second selects the one cost above it. -/
theorem weave_start_transcribes : FromStart ⟨true, some 8⟩ weave fun r =>
    Transcribes ⟨true, some 8⟩ weave r ∧
    (∃ total, weave.cost? [0, 0, 0, 0] = some total ∧ r.cost [0, 0, 0, 0] = .ok total) ∧
    r.cost [0, 1, 1, 0] = .ok Cost.infeasible := by
  obtain ⟨r, event, hstart, h⟩ := start_transcribes weave_startable.toStartable
  obtain ⟨total, htotal, hcost, -⟩ :=
    h.exists_cost (show weave.Assigns [0, 0, 0, 0] by decide)
  obtain ⟨-, -, -, hinfeasible⟩ := h.exists_cost (show weave.Assigns [0, 1, 1, 0] by decide)
  refine ⟨r, event, hstart, h, ⟨total, htotal, hcost (by decide)⟩, hinfeasible (by decide)⟩

end Reduction

end Reshard
