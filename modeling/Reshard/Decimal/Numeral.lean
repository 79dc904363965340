/-! Decimal numerals as they are written.

    A numeral has a sign, a whole part, digits after the point and a power of ten. The whole part
    is a number, so it has no leading zeros to spell; the digits after the point are a list,
    because there a zero counts. `text` spells a numeral and `scan?` reads the longest one that a
    text begins with; it refuses a whole part with a leading zero, a point without digits on both
    sides and an exponent without digits. -/

namespace Reshard

/-- A decimal digit. -/
abbrev Digit := Fin 10

namespace Digit

/-- The digit zero. -/
def zero : Digit := ⟨0, by decide⟩

/-- The character of a digit. -/
def toChar (d : Digit) : Char := Nat.digitChar d

/-- The digit of a character. -/
def ofChar? (c : Char) : Option Digit :=
  if h : 48 ≤ c.toNat ∧ c.toNat ≤ 57 then some ⟨c.toNat - 48, by omega⟩ else none

/-- The digits that a text begins with, and what follows them. -/
def span : List Char → List Digit × List Char
  | [] => ([], [])
  | c :: rest =>
    match ofChar? c with
    | some d => (d :: (span rest).1, (span rest).2)
    | none => ([], c :: rest)

/-- The number that a list of digits spells, continuing the number `start`. -/
def value (start : Nat) (digits : List Digit) : Nat :=
  digits.foldl (fun n d => 10 * n + d.val) start

/-- The last `width` digits of `n`, zeros included. -/
def padded : Nat → Nat → List Digit
  | 0, _ => []
  | width + 1, n => padded width (n / 10) ++ [Fin.ofNat 10 n]

theorem ofChar?_toChar : ∀ d : Digit, ofChar? d.toChar = some d := by decide

/-- Splitting off the digits loses no character. -/
theorem span_length : ∀ s : List Char, (span s).1.length + (span s).2.length = s.length
  | [] => rfl
  | c :: rest => by
    have := span_length rest
    simp only [span]
    split <;> simp only [List.length_cons, List.length_nil] <;> omega

end Digit

/-- A decimal numeral: sign, whole part, digits after the point, power of ten. -/
structure Numeral where
  negative : Bool
  whole : Nat
  fraction : List Digit
  exponent : Option Int
deriving DecidableEq

namespace Numeral

/-- The numeral of a natural number. -/
def ofNat (n : Nat) : Numeral := ⟨false, n, [], none⟩

/-- The natural number that a numeral without sign, point and exponent spells. -/
def natural? : Numeral → Option Nat
  | ⟨false, n, [], none⟩ => some n
  | _ => none

/-- The power of ten as written; `plus` says whether a power that is not negative gets a sign. -/
def exponentText (plus : Bool) : Int → List Char
  | .ofNat n => 'e' :: (if plus then ['+'] else []) ++ Nat.toDigits 10 n
  | .negSucc n => 'e' :: '-' :: Nat.toDigits 10 (n + 1)

/-- The digits after the point as written, with the point. -/
def fractionText : List Digit → List Char
  | [] => []
  | digits => '.' :: digits.map Digit.toChar

/-- The numeral as written. -/
def text (plus : Bool) (n : Numeral) : List Char :=
  (if n.negative then ['-'] else []) ++ Nat.toDigits 10 n.whole ++ fractionText n.fraction
    ++ (n.exponent.map (exponentText plus)).getD []

/-- Reads the sign `mark`, if the text begins with it. -/
def scanSign (mark : Char) : List Char → Bool × List Char
  | [] => (false, [])
  | c :: rest => if c = mark then (true, rest) else (false, c :: rest)

/-- Reads a whole part: digits, of which the first is zero only if it stands alone. -/
def scanWhole? (s : List Char) : Option (Nat × List Char) :=
  match Digit.span s with
  | ([], _) => none
  | (0 :: _ :: _, _) => none
  | (digits, rest) => some (Digit.value 0 digits, rest)

/-- Reads a point and the digits after it, if the text begins with a point. -/
def scanFraction? : List Char → Option (List Digit × List Char)
  | '.' :: rest =>
    match Digit.span rest with
    | ([], _) => none
    | (digits, rest) => some (digits, rest)
  | s => some ([], s)

/-- Reads the digits of a power of ten. -/
def scanPower? (negative : Bool) (s : List Char) : Option (Option Int × List Char) :=
  match Digit.span s with
  | ([], _) => none
  | (digits, rest) =>
    let size := Digit.value 0 digits
    some (some (if negative then -(size : Int) else size), rest)

/-- Reads a power of ten, if the text begins with the letter for it. -/
def scanExponent? : List Char → Option (Option Int × List Char)
  | [] => some (none, [])
  | c :: rest =>
    if c = 'e' ∨ c = 'E' then
      match scanSign '+' rest with
      | (true, rest) => scanPower? false rest
      | (false, rest) => scanPower? (scanSign '-' rest).1 (scanSign '-' rest).2
    else some (none, c :: rest)

/-- Reads the longest numeral that a text begins with. -/
def scan? (s : List Char) : Option (Numeral × List Char) := do
  let (negative, s) := scanSign '-' s
  let (whole, s) ← scanWhole? s
  let (fraction, s) ← scanFraction? s
  let (exponent, s) ← scanExponent? s
  return (⟨negative, whole, fraction, exponent⟩, s)

theorem scanSign_length_le (mark : Char) : ∀ s : List Char, (scanSign mark s).2.length ≤ s.length
  | [] => Nat.le_refl _
  | c :: rest => by
    simp only [scanSign]
    split <;> simp

theorem scanWhole?_length {s : List Char} {n : Nat} {rest : List Char}
    (h : scanWhole? s = some (n, rest)) : rest.length < s.length := by
  have hlost := Digit.span_length s
  unfold scanWhole? at h
  split at h
  case h_1 | h_2 => cases h
  case h_3 digits _ hnonempty _ hspan =>
    cases h
    have := List.length_pos_iff.2 hnonempty
    simp only [hspan] at hlost
    omega

theorem scanFraction?_length_le {s : List Char} {digits : List Digit} {rest : List Char}
    (h : scanFraction? s = some (digits, rest)) : rest.length ≤ s.length := by
  unfold scanFraction? at h
  split at h
  · next s =>
    have hlost := Digit.span_length s
    split at h
    · cases h
    · next hspan => cases h; simp only [hspan, List.length_cons] at *; omega
  · cases h; exact Nat.le_refl _

theorem scanPower?_length_le {negative : Bool} {s : List Char} {e : Option Int} {rest : List Char}
    (h : scanPower? negative s = some (e, rest)) : rest.length ≤ s.length := by
  have hlost := Digit.span_length s
  unfold scanPower? at h
  split at h
  · cases h
  · next hspan => cases h; simp only [hspan] at hlost; omega

theorem scanExponent?_length_le {s : List Char} {e : Option Int} {rest : List Char}
    (h : scanExponent? s = some (e, rest)) : rest.length ≤ s.length := by
  unfold scanExponent? at h
  split at h
  · cases h; exact Nat.le_refl _
  · next rest =>
    have hplus := scanSign_length_le '+' rest
    split at h
    · split at h
      · next hsign =>
        have := scanPower?_length_le h
        simp only [hsign, List.length_cons] at *
        omega
      · next rest' hsign =>
        have hminus := scanSign_length_le '-' rest'
        have := scanPower?_length_le h
        simp only [hsign, List.length_cons] at *
        omega
    · cases h; exact Nat.le_refl _

theorem scan?_length {s : List Char} {n : Numeral} {rest : List Char}
    (h : scan? s = some (n, rest)) : rest.length < s.length := by
  simp only [scan?, bind, Option.bind_eq_some_iff] at h
  obtain ⟨⟨_, _⟩, hwhole, ⟨_, _⟩, hfraction, ⟨_, _⟩, hexponent, h⟩ := h
  cases h
  have := scanSign_length_le '-' s
  have := scanWhole?_length hwhole
  have := scanFraction?_length_le hfraction
  have := scanExponent?_length_le hexponent
  simp only at *
  omega

end Numeral

end Reshard
