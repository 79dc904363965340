/-! Costs.

    A cost is what a pairing of two strategies is charged. Costs are added and compared, and one of
    them, `infeasible`, marks a pairing that must not be chosen. The engine is written for any type
    with these operations and asks no laws of them: with machine numbers a sum may be rounded, and a
    cost may be undefined, so that it compares with nothing.

    Source: the type `Cost`, the sentinel `INFEASIBLE` and `is_infeasible`, and the search for the
    first minimum of a line, on which `argmin_row` rests; specification, E.2 and E.3. -/

namespace Reshard

/-- The operations on costs. -/
class Cost (α : Type) extends Zero α, Add α, LE α, LT α where
  /-- The cost of a pairing that must not be chosen, above every cost that is defined. -/
  infeasible : α
  /-- Whether a cost is a number, neither infinite nor undefined. -/
  isFinite : α → Bool
  decidableLE : DecidableLE α
  decidableLT : DecidableLT α

namespace Cost

variable {α : Type} [Cost α]

instance : DecidableLE α := Cost.decidableLE
instance : DecidableLT α := Cost.decidableLT

/-- A declared cost is valid if it is at least zero; an undefined one is not. -/
def Valid (c : α) : Prop := 0 ≤ c

instance (c : α) : Decidable (Valid c) := inferInstanceAs (Decidable (0 ≤ c))

/-- Whether a cost marks a pairing that must not be chosen. -/
def isInfeasible (c : α) : Bool := decide (infeasible ≤ c)

/-- The cost, if it is a number. -/
def finite? (c : α) : Option α := if isFinite c then some c else none

/-- The sum of costs, added from the left to zero. -/
def total (costs : List α) : α := costs.foldl (· + ·) 0

/-- Position of the least cost, when `best` with cost `low` is the least so far and the remaining
    costs start at position `next`. A later cost wins only if it is strictly less. -/
def cheapestFrom (best : Nat) (low : α) (next : Nat) : List α → Nat
  | [] => best
  | c :: rest =>
    if c < low then cheapestFrom next c (next + 1) rest else cheapestFrom best low (next + 1) rest

/-- Position of the first least cost. -/
def cheapest? : List α → Option Nat
  | [] => none
  | c :: rest => some (cheapestFrom 0 c 1 rest)

end Cost

end Reshard
