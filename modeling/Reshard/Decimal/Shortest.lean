/-! The shortest decimal that reads back.

    A binary value stands for an interval of numbers, all those that round to it. Among the decimal
    grids (the multiples of one power of ten) the coarsest with a point in that interval gives the
    fewest digits, and a grid has a point there only if one of the value's two neighbours on the
    grid is one. `shortest` tries the grids from coarse to fine and takes the nearer neighbour;
    which of two equally near ones wins is a parameter. -/

namespace Reshard.Decimal

/-- Which of two equally near digits is taken. -/
inductive Tie
  | up
  | even
deriving DecidableEq

/-- A positive value and the numbers that round to it, as fractions over one denominator. -/
structure Interval where
  low : Nat
  value : Nat
  high : Nat
  den : Nat
  /-- Whether the two ends belong to the interval. -/
  closed : Bool

namespace Interval

/-- The interval of the binary value `m * 2 ^ q`. The ends lie halfway to the neighbouring values;
    `narrow` says that the lower neighbour is only half as far away as the upper one. -/
def ofBinary (m : Nat) (q : Int) (narrow : Bool) : Interval :=
  let scale := Nat.pow 2 q.toNat
  { low := (4 * m - if narrow then 1 else 2) * scale
    value := 4 * m * scale
    high := (4 * m + 2) * scale
    den := 4 * Nat.pow 2 (-q).toNat
    closed := m % 2 = 0 }

/-- The interval in units of the grid `10 ^ k`. -/
def onGrid (r : Interval) (k : Int) : Interval :=
  let scale := Nat.pow 10 (-k).toNat
  { r with
    low := r.low * scale
    value := r.value * scale
    high := r.high * scale
    den := r.den * Nat.pow 10 k.toNat }

/-- Whether the whole number `d` lies in the interval. -/
def contains (r : Interval) (d : Nat) : Bool :=
  if r.closed then r.low ≤ d * r.den ∧ d * r.den ≤ r.high
  else r.low < d * r.den ∧ d * r.den < r.high

/-- The whole number in the interval that is nearest to the value. -/
def nearest? (tie : Tie) (r : Interval) : Option Nat :=
  let d := r.value / r.den
  match r.contains d, r.contains (d + 1) with
  | false, false => none
  | true, false => some d
  | false, true => some (d + 1)
  | true, true =>
    match compare (2 * r.value) ((2 * d + 1) * r.den) with
    | .lt => some d
    | .gt => some (d + 1)
    | .eq => some (if tie = .even ∧ d % 2 = 0 then d else d + 1)

/-- The first hit among the `steps` grids `10 ^ k`, `10 ^ (k - 1)`, …, or else the value rounded
    down to the next grid after them. -/
def firstHit (tie : Tie) (r : Interval) : Nat → Int → Nat × Int
  | 0, k => ((r.onGrid k).value / (r.onGrid k).den, k)
  | steps + 1, k =>
    match (r.onGrid k).nearest? tie with
    | some d => (d, k)
    | none => firstHit tie r steps (k - 1)

/-- The finest decimal grid that a binary value of double precision can need is `10 ^ (-324)`. -/
def finest : Nat := 324

/-- The shortest decimal `d * 10 ^ k` in the interval, as the pair of `d` and `k`. -/
def shortest (tie : Tie) (r : Interval) : Nat × Int :=
  let size := (Nat.toDigits 10 (r.high / r.den)).length
  firstHit tie r (size + finest + 1) size

end Interval

end Reshard.Decimal
