import Mathlib.Data.Fintype.Pi
import Mathlib.Order.Interval.Finset.Nat
import Reshard.Proofs.Graph.Balance
import Reshard.Proofs.Graph.Valid

/-! The least cost of a graph.

    A graph admits an assignment if each live node is given a strategy that it has. What the other
    nodes are given does not matter, so there are finitely many assignments to tell apart, and one
    of them costs least (`exists_optimum`). That takes costs which are valid, since others may
    compare with nothing. -/

namespace Reshard

/-- Among finitely many valid costs there is a least one. -/
theorem exists_isLeast {α : Type} [Cost α] [OrderedCost α] {costs : Set α} (hfinite : costs.Finite)
    (hne : costs.Nonempty) (hvalid : ∀ x ∈ costs, Cost.Valid x) : ∃ best, IsLeast costs best := by
  have hmem {x : α} : x ∈ hfinite.toFinset.toList ↔ x ∈ costs := by
    rw [Finset.mem_toList, Set.Finite.mem_toFinset]
  obtain ⟨x, hx⟩ := hne
  obtain ⟨j, hj⟩ := Cost.exists_cheapest? (List.ne_nil_of_mem (hmem.2 hx))
  obtain ⟨best, hbest, hle, -⟩ :=
    Cost.linear_valid.firstLeast_of_cheapest? (fun x hx => hvalid x (hmem.1 hx)) hj
  exact ⟨best, hmem.1 (List.mem_of_getElem? hbest), fun x hx => hle x (hmem.2 hx)⟩

namespace Graph

variable {α : Type} [Cost α] {rank : NodeId → Nat} {g : Graph α} {f : NodeId → Nat} {e : Edge}
  {n u : NodeId} {i j : Nat}

/-! ### Valid costs -/

namespace ValidCosts

variable [ClosedCost α] (hv : g.ValidCosts)
include hv

theorem weight : Cost.Valid (g.weight e i j) := by
  rw [Graph.weight]
  cases ht : g.tables[e]? with
  | none => exact BoundedCost.zero_valid
  | some t =>
    rw [Option.bind_some]
    cases hx : t.get? i j with
    | none => exact BoundedCost.zero_valid
    | some x => exact hv.get ht hx

theorem extraAt : Cost.Valid (g.extraAt n i) := by
  rw [Graph.extraAt]
  cases hcosts : g.extras[n]? with
  | none => exact BoundedCost.zero_valid
  | some costs =>
    rw [Option.bind_some]
    cases hx : costs[i]? with
    | none => exact BoundedCost.zero_valid
    | some x => exact hv.extra hcosts (List.mem_of_getElem? hx)

variable [ExactCost α]

theorem outCost {targets : Finset NodeId} : Cost.Valid (g.outCost f targets u i) :=
  ClosedCost.add_valid _ _ hv.extraAt
    (Finset.sum_induction _ _ ClosedCost.add_valid BoundedCost.zero_valid fun _ _ => hv.weight)

theorem costAt : Cost.Valid (g.costAt f) :=
  Finset.sum_induction _ _ ClosedCost.add_valid BoundedCost.zero_valid fun _ _ => hv.outCost

end ValidCosts

/-! ### The optimum -/

/-- Each live node is given a strategy that it has. -/
def Admits (g : Graph α) (f : NodeId → Nat) : Prop :=
  ∀ n w, g.links.isLive n → g.width? n = some w → f n < w

variable [ExactCost α]

/-- The least cost of the admitted assignments. -/
def Optimum (g : Graph α) (best : α) : Prop := IsLeast (g.costAt '' {f | g.Admits f}) best

/-- Assignments may be told apart at the live nodes only, so finitely many are enough. -/
theorem finite_costAt (h : g.Sound rank) : (g.costAt '' {f | g.Admits f}).Finite := by
  let bounded : Set (NodeId → Nat) := Set.univ.pi fun n => Set.Iio ((g.width? n).getD 1)
  have hfinite : bounded.Finite := Set.Finite.pi fun n => Set.finite_Iio _
  refine (hfinite.image g.costAt).subset ?_
  rintro _ ⟨f, hf, rfl⟩
  let bound (n : NodeId) : Nat := if g.links.isLive n then f n else 0
  refine ⟨bound, ?_, costAt_congr h fun n hn => if_pos hn⟩
  intro n _
  change bound n < (g.width? n).getD 1
  cases hw : g.width? n with
  | none =>
    have hlive : ¬ g.links.isLive n := fun hn => by
      obtain ⟨w, hw'⟩ := exists_width? (h.toShaped.index_lt_of_isLive hn)
      cases hw.symm.trans hw'
    exact (if_neg hlive).trans_lt Nat.one_pos
  | some w =>
    by_cases hlive : g.links.isLive n
    · exact (if_pos hlive).trans_lt (hf n w hlive hw)
    · exact (if_neg hlive).trans_lt (h.width_pos hw)

/-- A sound graph with valid costs has a least cost. -/
theorem exists_optimum [OrderedCost α] [ClosedCost α] (h : g.Sound rank) (hv : g.ValidCosts) :
    ∃ best, g.Optimum best := by
  refine exists_isLeast (finite_costAt h) ⟨_, fun _ => 0, ?_, rfl⟩ ?_
  · exact fun n w _ hw => h.width_pos hw
  · rintro _ ⟨f, -, rfl⟩
    exact hv.costAt

end Graph

end Reshard
