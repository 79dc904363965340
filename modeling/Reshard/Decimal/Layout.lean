import Reshard.Decimal.Numeral
import Reshard.Decimal.Shortest

/-! How a decimal is laid out as a numeral.

    The decimal `d * 10 ^ k` is written plainly, or with one digit before the point and a power of
    ten. A `Layout` is the choice of an output: which magnitudes are plain, whether a whole number
    keeps a point and a zero, whether a power of ten shows a plus sign, and which of two equally
    near digits is taken. -/

namespace Reshard.Decimal

/-- The conventions for writing decimals in one kind of output. -/
structure Layout where
  /-- Whether a number with this decimal magnitude, the power of ten of its first digit, is written
      without a power of ten. -/
  plain : Int → Bool
  /-- Whether a whole number that is written plainly ends in a point and a zero. -/
  pointed : Bool
  /-- Whether a power of ten that is not negative is written with a sign. -/
  plus : Bool
  tie : Tie

namespace Layout

/-- The number with `places` digits after the point whose digits are those of `d`. -/
def split (negative : Bool) (d places : Nat) (exponent : Option Int) : Numeral :=
  ⟨negative, d / Nat.pow 10 places, Digit.padded places d, exponent⟩

/-- The numeral of the decimal `d * 10 ^ k` with the given sign. -/
def numeral (layout : Layout) (negative : Bool) (d : Nat) (k : Int) : Numeral :=
  let places := (Nat.toDigits 10 d).length - 1
  let magnitude := k + places
  if layout.plain magnitude then
    if k < 0 then split negative d (-k).toNat none
    else ⟨negative, d * Nat.pow 10 k.toNat, if layout.pointed then [.zero] else [], none⟩
  else split negative d places (some magnitude)

/-- The numeral as a text. -/
def text (layout : Layout) (n : Numeral) : String := String.ofList (n.text layout.plus)

end Layout

end Reshard.Decimal
