import Reshard.Decimal.Numeral
import Reshard.Json.Text

/-! The tokens of JSON documents.

    A document is a sequence of tokens with blanks between them. `text` writes a token and `next?`
    reads the one that a text begins with; `scan?` reads a whole document. A text token keeps
    whether its escapes name a text at all: an escape may name half of a surrogate pair, which is
    well formed as a token and spells no text. -/

namespace Reshard.Json

/-- One token. -/
inductive Token
  | openList
  | closeList
  | openRecord
  | closeRecord
  | comma
  | colon
  | null
  | bool (b : Bool)
  | num (n : Numeral)
  /-- A text; `none` if it names a surrogate without its partner. -/
  | str (s : Option String)
deriving DecidableEq

namespace Token

/-- The characters that may stand between tokens. -/
def isBlank (c : Char) : Bool := c == ' ' || c == '\t' || c == '\n' || c == '\r'

/-- The token as it is written. -/
def text : Token → List Char
  | openList => ['[']
  | closeList => [']']
  | openRecord => ['\x7b']
  | closeRecord => ['\x7d']
  | comma => [',']
  | colon => [':']
  | null => ['n', 'u', 'l', 'l']
  | bool true => ['t', 'r', 'u', 'e']
  | bool false => ['f', 'a', 'l', 's', 'e']
  | num n => n.text true
  | str (some s) => '"' :: s.toList.flatMap Text.escape ++ ['"']
  | str none => ['"', '\\', 'u', 'd', '8', '0', '0', '"']

/-- Reads the token that a text begins with. -/
def next? : List Char → Option (Token × List Char)
  | '[' :: rest => some (openList, rest)
  | ']' :: rest => some (closeList, rest)
  | '\x7b' :: rest => some (openRecord, rest)
  | '\x7d' :: rest => some (closeRecord, rest)
  | ',' :: rest => some (comma, rest)
  | ':' :: rest => some (colon, rest)
  | 'n' :: 'u' :: 'l' :: 'l' :: rest => some (null, rest)
  | 't' :: 'r' :: 'u' :: 'e' :: rest => some (bool true, rest)
  | 'f' :: 'a' :: 'l' :: 's' :: 'e' :: rest => some (bool false, rest)
  | '"' :: rest => do
    let (units, rest) ← Text.scan? rest
    return (str ((CodeUnit.join? units).map String.ofList), rest)
  | s => do
    let (n, rest) ← Numeral.scan? s
    return (num n, rest)

theorem next?_length {s : List Char} {t : Token} {rest : List Char}
    (h : next? s = some (t, rest)) : rest.length < s.length := by
  unfold next? at h
  split at h
  case h_10 =>
    simp only [bind, Option.bind_eq_some_iff] at h
    obtain ⟨⟨_, _⟩, htail, h⟩ := h
    cases h
    have := Text.scan?_length htail
    simp only [List.length_cons]
    omega
  case h_11 =>
    simp only [bind, Option.bind_eq_some_iff] at h
    obtain ⟨⟨_, _⟩, htail, h⟩ := h
    cases h
    exact Numeral.scan?_length htail
  all_goals cases h; simp only [List.length_cons]; omega

/-- Reads the tokens of a whole document. -/
def scan? : List Char → Option (List Token)
  | [] => some []
  | c :: rest =>
    if isBlank c then scan? rest
    else
      match _hread : next? (c :: rest) with
      | none => none
      | some (t, rest') => (scan? rest').map (t :: ·)
termination_by s => s.length
decreasing_by
  · simp
  · exact next?_length ‹_›

end Token

end Reshard.Json
