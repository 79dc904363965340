import Mathlib.Algebra.BigOperators.Group.Finset.Basic
import Mathlib.Algebra.Order.Group.Nat
import Reshard.Cost.Binary64
import Reshard.Proofs.Cost.Exact
import Reshard.Settings

/-! Bounds of costs.

    Valid costs lie between zero and the infeasible cost, both of which are valid themselves
    (`BoundedCost`). So clipping keeps a cost valid. If moreover sums of valid costs are valid, and
    infinite ones are infeasible (`ClosedCost`), a cost can be left out where it is not a number
    and put back as the infeasible one. Where sums grow with what is added (`MonotoneCost`), the
    least sum has the least summands. Where nothing infinite gets lost (`FiniteCost`), a sum is a
    number exactly if all its summands are (`isFinite_sum_iff`). -/

namespace Reshard

/-- Zero and the infeasible cost are valid. -/
class BoundedCost (α : Type) [Cost α] : Prop where
  zero_valid : Cost.Valid (0 : α)
  infeasible_valid : Cost.Valid (Cost.infeasible : α)

/-- Sums of valid costs are valid, and a valid cost that is not a number is infeasible. -/
class ClosedCost (α : Type) [Cost α] : Prop extends BoundedCost α where
  add_valid (a b : α) : Cost.Valid a → Cost.Valid b → Cost.Valid (a + b)
  eq_infeasible (a : α) : Cost.Valid a → Cost.isFinite a = false → a = Cost.infeasible

/-- Adding a valid cost to two valid ones keeps their order. -/
class MonotoneCost (α : Type) [Cost α] : Prop where
  add_le_add_left (a b c : α) : Cost.Valid a → Cost.Valid b → Cost.Valid c → b ≤ c → a + b ≤ a + c

/-- A sum of valid costs is a number exactly if both summands are, and so is what lies below one. -/
class FiniteCost (α : Type) [Cost α] : Prop where
  isFinite_zero : Cost.isFinite (0 : α)
  isFinite_add (a b : α) : Cost.Valid a → Cost.Valid b →
    Cost.isFinite (a + b) = (Cost.isFinite a && Cost.isFinite b)
  isFinite_of_le (a b : α) : Cost.Valid a → Cost.Valid b → a ≤ b → Cost.isFinite b →
    Cost.isFinite a

instance : BoundedCost Float where
  zero_valid := by decide
  infeasible_valid := by decide

instance : ClosedCost (WithTop ℕ) where
  zero_valid := le_refl 0
  infeasible_valid := le_top
  add_valid _ _ _ _ := zero_le
  eq_infeasible a _ ha := by
    induction a using WithTop.recTopCoe with
    | top => rfl
    | coe a => cases ha

instance : MonotoneCost (WithTop ℕ) where
  add_le_add_left a _ _ _ _ _ h := add_le_add_right h a

instance : FiniteCost (WithTop ℕ) where
  isFinite_zero := rfl
  isFinite_add a b _ _ := by
    induction a using WithTop.recTopCoe with
    | top => rfl
    | coe a => induction b using WithTop.recTopCoe <;> rfl
  isFinite_of_le a b _ _ h hb := by
    induction b using WithTop.recTopCoe with
    | top => cases hb
    | coe b =>
      induction a using WithTop.recTopCoe with
      | top => exact absurd h (WithTop.not_top_le_coe b)
      | coe a => rfl

instance (priority := low) OrderedCost.bounded {α : Type} [Cost α] [OrderedCost α] :
    BoundedCost α where
  zero_valid := OrderedCost.zero_valid
  infeasible_valid := Cost.infeasible_valid

variable {α : Type} [Cost α]

/-- Valid costs stay valid when they are clipped. -/
theorem Settings.clip_valid [BoundedCost α] {settings : Settings α} {x : α} (h : Cost.Valid x) :
    Cost.Valid (settings.clip x) := by
  rw [clip]
  split
  · exact h
  · split
    · exact BoundedCost.infeasible_valid
    · exact h

/-- An infeasible cost stays so whatever valid costs are added to it. -/
theorem Cost.infeasible_add_sum [ExactCost α] {ι : Type} {s : Finset ι} {f : ι → α}
    (hv : ∀ i ∈ s, Cost.Valid (f i)) : Cost.infeasible + ∑ i ∈ s, f i = Cost.infeasible := by
  classical
  induction s using Finset.induction_on with
  | empty => rw [Finset.sum_empty, add_zero]
  | insert i s hi ih =>
    rw [Finset.forall_mem_insert] at hv
    rw [Finset.sum_insert hi, ← add_assoc, ExactCost.infeasible_add _ hv.1, ih hv.2]

theorem Cost.sum_eq_infeasible [ExactCost α] {ι : Type} {s : Finset ι} {f : ι → α} {i : ι}
    (hv : ∀ i ∈ s, Cost.Valid (f i)) (hi : i ∈ s) (h : f i = Cost.infeasible) :
    ∑ i ∈ s, f i = Cost.infeasible := by
  classical
  rw [← Finset.add_sum_erase _ _ hi, h]
  exact infeasible_add_sum fun j hj => hv j (Finset.mem_of_mem_erase hj)

/-- A sum of valid costs is a number exactly if all its summands are. -/
theorem Cost.isFinite_sum_iff [ExactCost α] [ClosedCost α] [FiniteCost α] {ι : Type} {s : Finset ι}
    {f : ι → α} (hv : ∀ i ∈ s, Cost.Valid (f i)) :
    Cost.isFinite (∑ i ∈ s, f i) ↔ ∀ i ∈ s, Cost.isFinite (f i) := by
  classical
  induction s using Finset.induction_on with
  | empty => simp [FiniteCost.isFinite_zero]
  | insert i s hi ih =>
    rw [Finset.forall_mem_insert] at hv
    have hsum : Cost.Valid (∑ i ∈ s, f i) :=
      Finset.sum_induction _ _ ClosedCost.add_valid BoundedCost.zero_valid hv.2
    rw [Finset.sum_insert hi, FiniteCost.isFinite_add _ _ hv.1 hsum, Bool.and_eq_true, ih hv.2,
      Finset.forall_mem_insert]

/-- A valid cost is what is left of it, or the infeasible one if nothing is left. -/
theorem Cost.getD_finite? [ClosedCost α] {x : α} (h : Cost.Valid x) :
    (Cost.finite? x).getD Cost.infeasible = x := by
  rw [Cost.finite?]
  cases hfinite : Cost.isFinite x with
  | true => rfl
  | false => exact (ClosedCost.eq_infeasible x h hfinite).symm

end Reshard
