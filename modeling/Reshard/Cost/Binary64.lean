import Reshard.Cost.Format
import Reshard.Decimal.Layout

/-! Costs of double precision.

    A cost of double precision is spelled by the shortest decimal that reads back to it. Reports
    write magnitudes from `10 ^ (-4)` up to `10 ^ 15` plainly, whole numbers with a point too;
    messages write every magnitude plainly and a point only where digits follow; documents follow
    reports but begin at `10 ^ (-5)`, write the plus sign of a power of ten and take the even one of
    two equally near digits.

    Numerals are read with 64 bits of precision: the leading digits that fit into 64 bits are kept
    and scaled by a power of ten in one rounded step, so the value read may differ from the nearest
    one in its last bit. -/

namespace Reshard

/-- What a float stands for. -/
inductive Binary64
  | undefined
  | infinite (negative : Bool)
  /-- The number `m * 2 ^ q` with the given sign. -/
  | finite (negative : Bool) (m : Nat) (q : Int)

namespace Binary64

open Decimal

/-- The leading bit of a normal significand, which is not stored. -/
def hiddenBit : Nat := 0x10000000000000

/-- Takes a float apart into sign, significand and power of two. -/
def ofFloat (x : Float) : Binary64 :=
  let bits := x.toBits
  let negative := bits >>> 63 == 1
  let scale := ((bits >>> 52) &&& 0x7ff).toNat
  let significand := (bits &&& 0xfffffffffffff).toNat
  if scale = 0x7ff then
    if significand = 0 then infinite negative else undefined
  else if scale = 0 then finite negative significand (-1074)
  else finite negative (hiddenBit + significand) ((scale : Int) - 1075)

/-- The shortest decimal that reads back to `m * 2 ^ q`. The neighbour below a power of two is
    nearer than the one above, except below the least normal number. -/
def shortest (tie : Tie) (m : Nat) (q : Int) : Nat × Int :=
  if m = 0 then (0, 0) else (Interval.ofBinary m q (m = hiddenBit ∧ -1074 < q)).shortest tie

/-- The numeral of a finite value under the conventions of `layout`. -/
def numeral (layout : Layout) (negative : Bool) (m : Nat) (q : Int) : Numeral :=
  let (d, k) := shortest layout.tie m q
  layout.numeral negative d k

/-- The text of a value under the conventions of `layout`. An undefined value has no sign. -/
def text (layout : Layout) : Binary64 → String
  | undefined => "NaN"
  | infinite negative => if negative then "-inf" else "inf"
  | finite negative m q => layout.text (numeral layout negative m q)

/-- Reports: plain from `10 ^ (-4)` up to `10 ^ 15`, with a point. -/
def report : Layout := ⟨fun e => -4 ≤ e && e < 16, true, false, .up⟩

/-- Messages: always plain, a point only where digits follow. -/
def message : Layout := ⟨fun _ => true, false, false, .up⟩

/-- Documents: plain from `10 ^ (-5)` up to `10 ^ 15`, with a point; powers of ten are signed. -/
def document : Layout := ⟨fun e => -5 ≤ e && e < 16, true, true, .even⟩

/-! ### Reading -/

/-- The greatest significand that is kept while a numeral is read. -/
def maxSignificand : Nat := 0xffffffffffffffff

/-- Drops digits from the end of `n` until the rest is at most `maxSignificand`; the second
    component counts them. -/
def shorten (n dropped : Nat) : Nat × Nat :=
  if n ≤ maxSignificand then (n, dropped) else shorten (n / 10) (dropped + 1)
termination_by n
decreasing_by simp only [maxSignificand] at *; omega

/-- Appends digits to the significand `n` while it stays at most `maxSignificand`, and counts
    them. -/
def absorb (n taken : Nat) : List Digit → Nat × Nat
  | [] => (n, taken)
  | d :: rest =>
    if 10 * n + d.val ≤ maxSignificand then absorb (10 * n + d.val) (taken + 1) rest
    else (n, taken)

/-- A power of ten of at most `10 ^ 308`. -/
def power (e : Nat) : Float := Float.ofScientific 1 false e

/-- `f * 10 ^ e`, if it is finite. A power below the range of one division is reached by several. -/
def scale? (f : Float) (e : Int) : Option Float :=
  if 308 < e then if f == 0 then some f else none
  else if 0 ≤ e then
    let product := f * power e.toNat
    if product.isInf then none else some product
  else if -308 ≤ e then some (f / power (-e).toNat)
  else if f == 0 then some f
  else scale? (f / power 308) (e + 308)
termination_by (-e).toNat
decreasing_by omega

/-- The float that a numeral stands for, unless it is too large. -/
def ofNumeral? (n : Numeral) : Option Float := do
  let (kept, dropped) := shorten n.whole 0
  let (significand, taken) := absorb kept 0 n.fraction
  let power := n.exponent.getD 0 + dropped - taken
  let size ← scale? significand.toUInt64.toFloat power
  return if n.negative then -size else size

end Binary64

instance : Cost Float where
  zero := 0
  infeasible := 1 / 0
  isFinite := Float.isFinite
  decidableLE := fun _ _ => inferInstance
  decidableLT := fun _ _ => inferInstance

instance : CostFormat Float where
  inReport x := (Binary64.ofFloat x).text Binary64.report
  inMessage x := (Binary64.ofFloat x).text Binary64.message
  numeral x :=
    match Binary64.ofFloat x with
    | .finite negative m q => Binary64.numeral Binary64.document negative m q
    | _ => Numeral.ofNat 0
  ofNumeral? := Binary64.ofNumeral?

end Reshard
