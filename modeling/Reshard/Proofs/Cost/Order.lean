import Mathlib.Data.Prod.Lex
import Reshard.Proofs.Cost.Binary64
import Reshard.Proofs.Cost.Exact

/-! The order of defined costs.

    A cost is defined if it compares with itself. Unlike a valid one it may be negative. Defined
    costs are linearly ordered below the infeasible one (`DefinedOrder`). Floats obey this law: each
    of them but the undefined one has a place on a line (`place?`), by its sign first, then by its
    power of two and last by its significand, and two floats compare as their places do. -/

namespace Reshard

/-- A cost is defined if it compares with itself. -/
def Cost.Defined {α : Type} [Cost α] (c : α) : Prop := c ≤ c

instance {α : Type} [Cost α] (c : α) : Decidable (Cost.Defined c) :=
  inferInstanceAs (Decidable (c ≤ c))

/-- Defined costs are linearly ordered below the infeasible one. -/
class DefinedOrder (α : Type) [Cost α] : Prop where
  linear : Cost.Linear (Cost.Defined (α := α))
  defined_infeasible : Cost.Defined (Cost.infeasible : α)
  le_infeasible (a : α) : Cost.Defined a → a ≤ Cost.infeasible

instance : DefinedOrder (WithTop ℕ) where
  linear :=
    { le_total := fun a b _ _ => le_total a b
      le_trans := fun _ _ _ _ _ _ => le_trans
      lt_iff_not_le := fun _ _ _ _ => lt_iff_not_ge }
  defined_infeasible := le_refl ⊤
  le_infeasible _ _ := le_top

namespace Binary64

open Float.Model Float.Model.UnpackedFloat

/-! ### Places -/

/-- The place of an unpacked float on the line of all floats that are defined. -/
def place? : UnpackedFloat → Option (ℤ ×ₗ ℤ ×ₗ ℤ)
  | .notANumber => none
  | .infinity .negative => some (toLex (-2, toLex (0, 0)))
  | .finite .negative m q _ => some (toLex (-1, toLex (-q, -m)))
  | .zero _ => some (toLex (0, toLex (0, 0)))
  | .finite .positive m q _ => some (toLex (1, toLex (q, m)))
  | .infinity .positive => some (toLex (2, toLex (0, 0)))

theorem compare_toLex {β γ : Type} [Ord β] [Ord γ] (a b : β) (c d : γ) :
    compare (toLex (a, c)) (toLex (b, d)) = (compare a b).then (compare c d) := by
  rw [Prod.Lex.compare_def]
  rfl

theorem compare_neg_neg (a b : ℤ) : compare (-a) (-b) = (compare a b).swap := by
  rw [← Std.OrientedCmp.eq_swap]
  rcases lt_trichotomy a b with h | rfl | h
  · rw [compare_gt_iff_gt.2 h, compare_gt_iff_gt.2 (neg_lt_neg h)]
  · rw [compare_eq_iff_eq.2 rfl, compare_eq_iff_eq.2 rfl]
  · rw [compare_lt_iff_lt.2 h, compare_lt_iff_lt.2 (neg_lt_neg h)]

theorem compare_natCast (m n : ℕ) : compare (m : ℤ) n = compare m n := by
  rcases lt_trichotomy m n with h | rfl | h
  · rw [compare_lt_iff_lt.2 h, compare_lt_iff_lt.2 (Int.ofNat_lt.2 h)]
  · rw [compare_eq_iff_eq.2 rfl, compare_eq_iff_eq.2 rfl]
  · rw [compare_gt_iff_gt.2 h, compare_gt_iff_gt.2 (Int.ofNat_lt.2 h)]

/-- Unpacked floats are compared as their places are. -/
theorem compare_eq (x y : UnpackedFloat) : UnpackedFloat.compare x y =
    (place? x).bind fun k => (place? y).map (compare k) := by
  rcases x with (_ | _) | _ | _ | ⟨_ | _, m, q, _⟩ <;>
    rcases y with (_ | _) | _ | _ | ⟨_ | _, m', q', _⟩ <;>
    simp only [UnpackedFloat.compare, place?, Option.bind_none, Option.bind_some, Option.map_none,
      Option.map_some, compare_toLex, compare_neg_neg, compare_natCast, Ordering.swap_then] <;>
    rfl

variable {x y : Float} {k l : ℤ ×ₗ ℤ ×ₗ ℤ}

theorem le_iff : x ≤ y ↔ ∃ k l, place? x.toModel.unpack = some k ∧
    place? y.toModel.unpack = some l ∧ k ≤ l := by
  have hle : x ≤ y ↔ UnpackedFloat.le x.toModel.unpack y.toModel.unpack := decide_eq_true_iff
  rw [hle, UnpackedFloat.le, compare_eq]
  cases place? x.toModel.unpack <;> cases place? y.toModel.unpack <;>
    simp [Ordering.isLE_iff_ne_gt, compare_le_iff_le, -ne_eq]

theorem lt_iff : x < y ↔ ∃ k l, place? x.toModel.unpack = some k ∧
    place? y.toModel.unpack = some l ∧ k < l := by
  have hlt : x < y ↔ UnpackedFloat.lt x.toModel.unpack y.toModel.unpack := decide_eq_true_iff
  rw [hlt, UnpackedFloat.lt, compare_eq]
  cases place? x.toModel.unpack <;> cases place? y.toModel.unpack <;> simp [compare_lt_iff_lt]

/-! ### Defined floats -/

theorem defined_iff_place : Cost.Defined x ↔ ∃ k, place? x.toModel.unpack = some k := by
  rw [Cost.Defined, le_iff]
  constructor
  · rintro ⟨k, -, hk, -⟩
    exact ⟨k, hk⟩
  · rintro ⟨k, hk⟩
    exact ⟨k, k, hk, hk, le_refl k⟩

/-- The one cost that is not defined is the undefined one. -/
theorem defined_iff : Cost.Defined x ↔ x.isNaN = false := by
  have hnan : x.isNaN = x.toModel.unpack.isNaN := rfl
  rw [defined_iff_place, hnan]
  rcases x.toModel.unpack with (_ | _) | _ | _ | ⟨_ | _, _, _, _⟩ <;>
    simp [place?, UnpackedFloat.isNaN]

theorem le_iff_of_place (hx : place? x.toModel.unpack = some k)
    (hy : place? y.toModel.unpack = some l) : x ≤ y ↔ k ≤ l := by
  simp only [le_iff, hx, hy, Option.some.injEq, exists_eq_left', exists_and_left]

theorem lt_iff_of_place (hx : place? x.toModel.unpack = some k)
    (hy : place? y.toModel.unpack = some l) : x < y ↔ k < l := by
  simp only [lt_iff, hx, hy, Option.some.injEq, exists_eq_left', exists_and_left]

instance : DefinedOrder Float where
  linear :=
    { le_total := by
        intro a b ha hb
        obtain ⟨k, hk⟩ := defined_iff_place.1 ha
        obtain ⟨l, hl⟩ := defined_iff_place.1 hb
        rw [le_iff_of_place hk hl, le_iff_of_place hl hk]
        exact le_total k l
      le_trans := by
        intro a b c ha hb hc hab hbc
        obtain ⟨k, hk⟩ := defined_iff_place.1 ha
        obtain ⟨l, hl⟩ := defined_iff_place.1 hb
        obtain ⟨m, hm⟩ := defined_iff_place.1 hc
        rw [le_iff_of_place hk hl] at hab
        rw [le_iff_of_place hl hm] at hbc
        exact (le_iff_of_place hk hm).2 (hab.trans hbc)
      lt_iff_not_le := by
        intro a b ha hb
        obtain ⟨k, hk⟩ := defined_iff_place.1 ha
        obtain ⟨l, hl⟩ := defined_iff_place.1 hb
        rw [lt_iff_of_place hk hl, le_iff_of_place hl hk]
        exact lt_iff_not_ge }
  defined_infeasible := defined_iff_place.2 ⟨_, by rw [unpack_infeasible, place?]⟩
  le_infeasible := by
    intro a ha
    obtain ⟨k, hk⟩ := defined_iff_place.1 ha
    have hinf : place? (Cost.infeasible : Float).toModel.unpack =
        some (toLex (2, toLex (0, 0))) := by
      rw [unpack_infeasible, place?]
    refine (le_iff_of_place hk hinf).2 ?_
    revert hk
    rcases a.toModel.unpack with (_ | _) | _ | _ | ⟨_ | _, m, q, _⟩ <;> intro hk <;> cases hk <;>
      simp [Prod.Lex.toLex_le_toLex]

end Binary64

end Reshard
