import Reshard.Cost.Format

/-! What documents rely on from costs.

    A document keeps a finite cost as a numeral and the infeasible one as null. The two cases
    exclude each other, no third cost passes for infeasible, and a numeral stands for a finite cost
    if it stands for any. That the numeral of a finite cost is read as that very cost is no law: a
    reader may be off in the last digit. It is said of single costs where it is needed. -/

namespace Reshard

/-- The laws of costs and their numerals that documents rely on. -/
class LawfulCostFormat (α : Type) [Cost α] [CostFormat α] : Prop where
  isFinite_infeasible : Cost.isFinite (Cost.infeasible : α) = false
  infeasible_le_infeasible : (Cost.infeasible : α) ≤ Cost.infeasible
  eq_infeasible_of_le {c : α} : Cost.infeasible ≤ c → c = Cost.infeasible
  isFinite_of_ofNumeral? {n : Numeral} {c : α} :
    CostFormat.ofNumeral? n = some c → Cost.isFinite c = true

namespace Cost

variable {α : Type} [Cost α]

/-- The cost has a form in a document. -/
def Writable (c : α) : Prop := isFinite c ∨ c = infeasible

variable [CostFormat α] {c : α}

/-- If the cost is finite, its numeral is read as that cost. -/
def ReadsBack (c : α) : Prop := isFinite c → CostFormat.ofNumeral? (CostFormat.numeral c) = some c

instance [DecidableEq α] (c : α) : Decidable (ReadsBack c) :=
  inferInstanceAs (Decidable (isFinite c → CostFormat.ofNumeral? (CostFormat.numeral c) = some c))

instance [DecidableEq α] (c : α) : Decidable (Writable c) :=
  inferInstanceAs (Decidable (isFinite c ∨ c = infeasible))

variable [LawfulCostFormat α]

theorem isInfeasible_iff : isInfeasible c ↔ c = infeasible := by
  rw [isInfeasible, decide_eq_true_iff]
  refine ⟨LawfulCostFormat.eq_infeasible_of_le, ?_⟩
  rintro rfl
  exact LawfulCostFormat.infeasible_le_infeasible

theorem ne_infeasible (hfinite : isFinite c) : c ≠ infeasible := by
  rintro rfl
  exact absurd (LawfulCostFormat.isFinite_infeasible.symm.trans hfinite) (by decide)

end Cost

end Reshard
