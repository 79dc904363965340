import Mathlib.Algebra.BigOperators.Group.List.Basic
import Mathlib.Algebra.Order.Monoid.WithTop
import Mathlib.Data.Nat.Cast.WithTop
import Reshard.Cost.Basic

/-! Laws of costs.

    The engine asks no laws of its costs. What it computes has a meaning when sums are exact
    (`ExactCost`): then costs form a commutative monoid and `total` is its sum. The choice of a
    strategy has one when the costs it is made from are linearly ordered (`Linear`), as valid ones
    are (`OrderedCost`): then `cheapest?` finds the first least cost. Natural numbers with an
    infinity obey all the laws. -/

namespace Reshard

/-- Sums of costs are exact: neither their order nor their grouping matters, an infeasible cost
    absorbs every valid one, and a number can be cancelled. -/
class ExactCost (α : Type) [Cost α] : Prop where
  add_assoc (a b c : α) : a + b + c = a + (b + c)
  add_comm (a b : α) : a + b = b + a
  zero_add (a : α) : 0 + a = a
  infeasible_add (a : α) : Cost.Valid a → Cost.infeasible + a = Cost.infeasible
  add_left_cancel (a b c : α) : Cost.isFinite a = true → a + b = a + c → b = c

/-- Valid costs are linearly ordered below the infeasible one. -/
class OrderedCost (α : Type) [Cost α] : Prop where
  le_total (a b : α) : Cost.Valid a → Cost.Valid b → a ≤ b ∨ b ≤ a
  le_trans (a b c : α) : Cost.Valid a → Cost.Valid b → Cost.Valid c → a ≤ b → b ≤ c → a ≤ c
  lt_iff_not_le (a b : α) : Cost.Valid a → Cost.Valid b → (a < b ↔ ¬ b ≤ a)
  le_infeasible (a : α) : Cost.Valid a → a ≤ Cost.infeasible
  zero_valid : Cost.Valid (0 : α)

/-! ### Sums -/

section Exact

variable {α : Type} [Cost α] [ExactCost α]

instance (priority := low) ExactCost.addCommMonoid : AddCommMonoid α where
  add_assoc := ExactCost.add_assoc
  add_comm := ExactCost.add_comm
  zero_add := ExactCost.zero_add
  add_zero a := (ExactCost.add_comm a 0).trans (ExactCost.zero_add a)
  nsmul := nsmulRec

theorem Cost.total_eq_sum (costs : List α) : Cost.total costs = costs.sum :=
  List.sum_eq_foldl.symm

end Exact

/-! ### The first least cost -/

namespace Cost

variable {α : Type} [Cost α]

theorem cheapestFrom_lt {best next : Nat} {low : α} : ∀ {rest : List α}, best < next →
    cheapestFrom best low next rest < next + rest.length
  | [], h => h
  | c :: rest, h => by
    rw [cheapestFrom, List.length_cons]
    split
    · exact (cheapestFrom_lt (Nat.lt_succ_self next)).trans_eq (by omega)
    · exact (cheapestFrom_lt (Nat.lt_succ_of_lt h)).trans_eq (by omega)

theorem lt_of_cheapest? {row : List α} {j : Nat} (h : cheapest? row = some j) :
    j < row.length := by
  rcases row with _ | ⟨c, rest⟩
  · cases h
  · cases h
    exact (cheapestFrom_lt Nat.one_pos).trans_eq (Nat.add_comm ..)

theorem exists_cheapest? : ∀ {row : List α}, row ≠ [] → ∃ j, cheapest? row = some j
  | [], h => absurd rfl h
  | c :: rest, _ => ⟨cheapestFrom 0 c 1 rest, rfl⟩

/-- The costs with the property `P` are linearly ordered. -/
structure Linear (P : α → Prop) : Prop where
  le_total (a b : α) : P a → P b → a ≤ b ∨ b ≤ a
  le_trans (a b c : α) : P a → P b → P c → a ≤ b → b ≤ c → a ≤ c
  lt_iff_not_le (a b : α) : P a → P b → (a < b ↔ ¬ b ≤ a)

theorem linear_valid [OrderedCost α] : Linear (Valid (α := α)) :=
  ⟨OrderedCost.le_total, OrderedCost.le_trans, OrderedCost.lt_iff_not_le⟩

theorem infeasible_valid [OrderedCost α] : Valid (infeasible : α) :=
  OrderedCost.le_infeasible 0 OrderedCost.zero_valid

/-- The cost at position `j` is at most every cost of the row, and less than those before it. -/
def FirstLeast (row : List α) (j : Nat) : Prop :=
  ∃ low, row[j]? = some low ∧ (∀ c ∈ row, low ≤ c) ∧
    ∀ k c, k < j → row[k]? = some c → low < c

namespace Linear

variable {P : α → Prop} (h : Linear P)
include h

theorem refl {a : α} (ha : P a) : a ≤ a := (h.le_total a a ha ha).elim id id

theorem lt_irrefl {a : α} (ha : P a) : ¬ a < a := fun hlt =>
  (h.lt_iff_not_le a a ha ha).1 hlt (h.refl ha)

theorem lt_of_le_of_lt {a b c : α} (ha : P a) (hb : P b) (hc : P c) (hab : a ≤ b) (hbc : b < c) :
    a < c :=
  (h.lt_iff_not_le a c ha hc).2 fun hca =>
    (h.lt_iff_not_le b c hb hc).1 hbc (h.le_trans c a b hc ha hb hca hab)

/-- The scan keeps the first least cost of what it has seen. -/
theorem firstLeast_cheapestFrom {best : Nat} {low : α} : ∀ {rest seen : List α},
    (∀ c ∈ seen ++ rest, P c) → seen[best]? = some low → (∀ c ∈ seen, low ≤ c) →
    (∀ k c, k < best → seen[k]? = some c → low < c) →
    FirstLeast (seen ++ rest) (cheapestFrom best low seen.length rest)
  | [], seen, _, hbest, hle, hlt => by
    rw [List.append_nil]
    exact ⟨low, hbest, hle, hlt⟩
  | c :: rest, seen, hrow, hbest, hle, hlt => by
    have hlow : P low := hrow low (List.mem_append_left _ (List.mem_of_getElem? hbest))
    have hc : P c := hrow c (by simp)
    have hsize : best < seen.length := (List.getElem?_eq_some_iff.1 hbest).1
    have split_row : seen ++ c :: rest = seen ++ [c] ++ rest := by simp
    have hlen : seen.length + 1 = (seen ++ [c]).length := by simp
    rw [split_row] at hrow ⊢
    rw [cheapestFrom, hlen]
    split
    next hbeats =>
      -- the new cost beats the least so far, and with it every cost before
      have hnot : ¬ low ≤ c := (h.lt_iff_not_le c low hc hlow).1 hbeats
      have hle' : c ≤ low := (h.le_total low c hlow hc).resolve_left hnot
      have below : ∀ d ∈ seen, c ≤ d ∧ ¬ d ≤ c := fun d hd => by
        have hd' : P d := hrow d (by simp [hd])
        refine ⟨h.le_trans c low d hc hlow hd' hle' (hle d hd), fun hdc => hnot ?_⟩
        exact h.le_trans low d c hlow hd' hc (hle d hd) hdc
      refine firstLeast_cheapestFrom hrow (by simp) ?_ ?_
      · intro d hd
        rcases List.mem_append.1 hd with hd | hd
        · exact (below d hd).1
        · rw [List.mem_singleton.1 hd]; exact h.refl hc
      · intro k d hk hd
        rw [List.getElem?_append_left hk] at hd
        have hd := List.mem_of_getElem? hd
        exact (h.lt_iff_not_le c d hc (hrow d (by simp [hd]))).2 (below d hd).2
    next hkeeps =>
      -- the least so far is kept
      have hle' : low ≤ c := Decidable.not_not.1 fun hnot =>
        hkeeps ((h.lt_iff_not_le c low hc hlow).2 hnot)
      refine firstLeast_cheapestFrom hrow ?_ ?_ ?_
      · rw [List.getElem?_append_left hsize, hbest]
      · intro d hd
        rcases List.mem_append.1 hd with hd | hd
        · exact hle d hd
        · rw [List.mem_singleton.1 hd]; exact hle'
      · intro k d hk hd
        rw [List.getElem?_append_left (hk.trans hsize)] at hd
        exact hlt k d hk hd

theorem firstLeast_of_cheapest? {row : List α} {j : Nat} (hrow : ∀ c ∈ row, P c)
    (hj : cheapest? row = some j) : FirstLeast row j := by
  rcases row with _ | ⟨c, rest⟩
  · cases hj
  · cases hj
    have hc : P c := hrow c List.mem_cons_self
    change FirstLeast ([c] ++ rest) (cheapestFrom 0 c [c].length rest)
    exact h.firstLeast_cheapestFrom hrow rfl
      (fun d hd => by rw [List.mem_singleton.1 hd]; exact h.refl hc) (fun k _ hk => by omega)

/-- There is only one first least cost. -/
theorem firstLeast_unique {row : List α} {j j' : Nat} (hrow : ∀ c ∈ row, P c)
    (hj : FirstLeast row j) (hj' : FirstLeast row j') : j = j' := by
  obtain ⟨low, hlow, hle, hlt⟩ := hj
  obtain ⟨low', hlow', hle', hlt'⟩ := hj'
  have hmem := List.mem_of_getElem? hlow
  have hmem' := List.mem_of_getElem? hlow'
  rcases Nat.lt_trichotomy j j' with hbefore | rfl | hbefore
  · have := hlt' j low hbefore hlow
    exact absurd (hle low' hmem') ((h.lt_iff_not_le _ _ (hrow _ hmem') (hrow _ hmem)).1 this)
  · rfl
  · have := hlt j' low' hbefore hlow'
    exact absurd (hle' low hmem) ((h.lt_iff_not_le _ _ (hrow _ hmem) (hrow _ hmem')).1 this)

/-- The scan finds the first least cost, and nothing else. -/
theorem cheapest?_eq_some_iff {row : List α} {j : Nat} (hrow : ∀ c ∈ row, P c) :
    cheapest? row = some j ↔ FirstLeast row j := by
  refine ⟨h.firstLeast_of_cheapest? hrow, fun hj => ?_⟩
  obtain ⟨low, hlow, -⟩ := id hj
  obtain ⟨j', hj'⟩ := exists_cheapest? (List.ne_nil_of_mem (List.mem_of_getElem? hlow))
  rw [hj', h.firstLeast_unique hrow (h.firstLeast_of_cheapest? hrow hj') hj]

end Linear

end Cost

/-! ### Natural numbers with an infinity -/

instance : Cost (WithTop ℕ) where
  infeasible := ⊤
  isFinite c := c.recTopCoe false fun _ => true
  decidableLE := inferInstance
  decidableLT := inferInstance

instance : ExactCost (WithTop ℕ) where
  add_assoc := add_assoc
  add_comm := add_comm
  zero_add := zero_add
  infeasible_add a _ := WithTop.top_add a
  add_left_cancel a b c ha := by
    induction a using WithTop.recTopCoe with
    | top => cases ha
    | coe a => exact WithTop.add_left_cancel (WithTop.coe_ne_top)

instance : OrderedCost (WithTop ℕ) where
  le_total a b _ _ := le_total a b
  le_trans _ _ _ _ _ _ := le_trans
  lt_iff_not_le _ _ _ _ := lt_iff_not_ge
  le_infeasible _ _ := le_top
  zero_valid := le_refl 0

end Reshard
