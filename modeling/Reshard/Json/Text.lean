/-! Texts in JSON documents.

    A text stands between quotes, and some characters in it are written as escapes. An escape with
    four hexadecimal digits names a code unit of sixteen bits, and a character above them is named
    by a pair of surrogate units. `scan?` reads the code units up to the closing quote; `join?` puts
    the surrogate pairs together and fails on a surrogate without its partner. `escape` writes a
    character: only the quote, the backslash and the control characters need an escape. -/

namespace Reshard.Json

/-- What one character or escape in a text names. -/
inductive CodeUnit
  | scalar (c : Char)
  /-- The first half of a surrogate pair, with its ten bits. -/
  | high (bits : Nat)
  /-- The second half of a surrogate pair, with its ten bits. -/
  | low (bits : Nat)

namespace CodeUnit

/-- The code unit with the given number. -/
def ofNat (n : Nat) : CodeUnit :=
  if 0xD800 ≤ n ∧ n < 0xDC00 then high (n - 0xD800)
  else if 0xDC00 ≤ n ∧ n < 0xE000 then low (n - 0xDC00)
  else scalar (Char.ofNat n)

/-- The text that code units spell, unless a surrogate lacks its partner. -/
def join? : List CodeUnit → Option (List Char)
  | [] => some []
  | scalar c :: rest => (join? rest).map (c :: ·)
  | high h :: low l :: rest => (join? rest).map (Char.ofNat (0x10000 + 0x400 * h + l) :: ·)
  | _ => none

end CodeUnit

/-- The value of a hexadecimal digit. -/
def hexValue? (c : Char) : Option Nat :=
  if '0' ≤ c ∧ c ≤ '9' then some (c.toNat - '0'.toNat)
  else if 'a' ≤ c ∧ c ≤ 'f' then some (c.toNat - 'a'.toNat + 10)
  else if 'A' ≤ c ∧ c ≤ 'F' then some (c.toNat - 'A'.toNat + 10)
  else none

/-- The code unit of four hexadecimal digits. -/
def hexUnit? (a b c d : Char) : Option CodeUnit := do
  return CodeUnit.ofNat (16 * (16 * (16 * (← hexValue? a) + (← hexValue? b)) + (← hexValue? c))
    + (← hexValue? d))

/-- The character that a one-letter escape names. -/
def escaped? : Char → Option Char
  | '"' => some '"'
  | '\\' => some '\\'
  | '/' => some '/'
  | 'b' => some '\x08'
  | 'f' => some '\x0c'
  | 'n' => some '\n'
  | 'r' => some '\r'
  | 't' => some '\t'
  | _ => none

namespace Text

/-- Reads the code units of a text up to its closing quote. A control character must be escaped. -/
def scan? : List Char → Option (List CodeUnit × List Char)
  | [] => none
  | '"' :: rest => some ([], rest)
  | '\\' :: 'u' :: a :: b :: c :: d :: rest => do
    let unit ← hexUnit? a b c d
    let (units, rest) ← scan? rest
    return (unit :: units, rest)
  | '\\' :: e :: rest => do
    let c ← escaped? e
    let (units, rest) ← scan? rest
    return (.scalar c :: units, rest)
  | c :: rest =>
    if c < ' ' then none
    else do
      let (units, rest) ← scan? rest
      return (.scalar c :: units, rest)

/-- A character as it is written in a text. -/
def escape (c : Char) : List Char :=
  match c with
  | '"' => ['\\', '"']
  | '\\' => ['\\', '\\']
  | '\x08' => ['\\', 'b']
  | '\x0c' => ['\\', 'f']
  | '\n' => ['\\', 'n']
  | '\r' => ['\\', 'r']
  | '\t' => ['\\', 't']
  | c =>
    if c < ' ' then
      ['\\', 'u', '0', '0', Nat.digitChar (c.toNat / 16), Nat.digitChar (c.toNat % 16)]
    else [c]

theorem scan?_length : ∀ {s : List Char} {units : List CodeUnit} {rest : List Char},
    scan? s = some (units, rest) → rest.length < s.length := by
  intro s
  fun_induction scan? s <;> intro _ _ h
  case case1 | case5 => cases h
  case case2 => cases h; simp
  case case6 =>
    rename_i ih _ _
    obtain ⟨⟨_, _⟩, htail, h⟩ := Option.bind_eq_some_iff.1 h
    cases h
    have := ih htail
    simp only [List.length_cons]
    omega
  all_goals
    rename_i ih _ _
    obtain ⟨_, _, h⟩ := Option.bind_eq_some_iff.1 h
    obtain ⟨⟨_, _⟩, htail, h⟩ := Option.bind_eq_some_iff.1 h
    cases h
    have := ih htail
    simp only [List.length_cons]
    omega

end Text

end Reshard.Json
