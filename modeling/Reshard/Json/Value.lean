import Reshard.Json.Token

/-! JSON values.

    A value is read from its tokens by an automaton with a stack of the lists and records that are
    still open. Its states say what the next token may be:

        value, firstItem      ──literal──▶ after      ──open list──▶ firstItem
                              ──open record──▶ firstKey
        firstKey, furtherKey  ──text──▶ colon ──colon──▶ value
        after (in a list)     ──comma──▶ value        ──close──▶ after, of the list
        after (in a record)   ──comma──▶ furtherKey   ──close──▶ after, of the record
        firstItem, firstKey   ──close──▶ after, of the empty list or record

    A value is written as its tokens with gaps between them. The gaps are a matter of style: none,
    or a new line for each item. They hold blanks only, so the style never changes what is read. -/

namespace Reshard

/-- A JSON value. Records keep their members in order, repeated keys included. -/
inductive Json
  | null
  | bool (b : Bool)
  | num (n : Numeral)
  /-- A text; `none` if it names a surrogate without its partner. -/
  | str (s : Option String)
  | list (items : List Json)
  | record (members : List (Option String × Json))

namespace Json

/-- The value of a text. -/
def text (s : String) : Json := .str (some s)

/-- The value of a natural number. -/
def nat (n : Nat) : Json := .num (.ofNat n)

/-- The record with the given members. -/
def ofMembers (members : List (String × Json)) : Json :=
  .record (members.map fun (key, value) => (some key, value))

/-! ### Reading -/

/-- A list or record that is still open, with what it holds so far, last first. -/
inductive Frame
  | items (before : List Json)
  | member (before : List (Option String × Json)) (key : Option String)

/-- What the next token may be. -/
inductive Reading
  | value (outer : List Frame)
  | firstItem (outer : List Frame)
  | firstKey (outer : List Frame)
  | furtherKey (before : List (Option String × Json)) (outer : List Frame)
  | colon (before : List (Option String × Json)) (key : Option String) (outer : List Frame)
  | after (v : Json) (outer : List Frame)

namespace Reading

/-- Begins a value with its first token. -/
def begin? (outer : List Frame) : Token → Option Reading
  | .null => some (after .null outer)
  | .bool b => some (after (.bool b) outer)
  | .num n => some (after (.num n) outer)
  | .str s => some (after (.str s) outer)
  | .openList => some (firstItem outer)
  | .openRecord => some (firstKey outer)
  | _ => none

/-- Reads one token. -/
def step? : Reading → Token → Option Reading
  | value outer, t => begin? outer t
  | firstItem outer, .closeList => some (after (.list []) outer)
  | firstItem outer, t => begin? (.items [] :: outer) t
  | firstKey outer, .closeRecord => some (after (.record []) outer)
  | firstKey outer, .str s => some (colon [] s outer)
  | furtherKey before outer, .str s => some (colon before s outer)
  | colon before key outer, .colon => some (value (.member before key :: outer))
  | after v (.items before :: outer), .comma => some (value (.items (v :: before) :: outer))
  | after v (.items before :: outer), .closeList =>
    some (after (.list (v :: before).reverse) outer)
  | after v (.member before k :: outer), .comma => some (furtherKey ((k, v) :: before) outer)
  | after v (.member before k :: outer), .closeRecord =>
    some (after (.record ((k, v) :: before).reverse) outer)
  | _, _ => none

end Reading

/-- The value of a sequence of tokens. -/
def ofTokens? (tokens : List Token) : Option Json :=
  match tokens.foldlM Reading.step? (.value []) with
  | some (.after v []) => some v
  | _ => none

/-- Reads a document: one value with blanks around it. -/
def parse? (document : String) : Option Json := Token.scan? document.toList >>= ofTokens?

/-! ### Writing -/

/-- The gaps between tokens: in front of an item that stands `depth` levels deep, and after the
    colon of a member. -/
structure Style where
  line : Nat → List Char
  afterColon : List Char

namespace Style

/-- No gaps. -/
def compact : Style := ⟨fun _ => [], []⟩

/-- Each item on a line of its own, indented by two blanks per level. -/
def indented : Style := ⟨fun depth => '\n' :: List.replicate (2 * depth) ' ', [' ']⟩

end Style

/-- A token with the gap in front of it. -/
structure Placed where
  gap : List Char
  token : Token

mutual

/-- The tokens of a value that stands `depth` levels deep, the first after the gap `gap`. -/
def layout (style : Style) (depth : Nat) (gap : List Char) : Json → List Placed
  | .null => [⟨gap, .null⟩]
  | .bool b => [⟨gap, .bool b⟩]
  | .num n => [⟨gap, .num n⟩]
  | .str s => [⟨gap, .str s⟩]
  | .list [] => [⟨gap, .openList⟩, ⟨[], .closeList⟩]
  | .list (v :: rest) =>
    ⟨gap, .openList⟩ :: layout style (depth + 1) (style.line (depth + 1)) v
      ++ layoutItems style depth rest
  | .record [] => [⟨gap, .openRecord⟩, ⟨[], .closeRecord⟩]
  | .record ((key, v) :: rest) =>
    ⟨gap, .openRecord⟩ :: ⟨style.line (depth + 1), .str key⟩ :: ⟨[], .colon⟩
      :: layout style (depth + 1) style.afterColon v ++ layoutMembers style depth rest

/-- The tokens of the further items of a list, and of its end. -/
def layoutItems (style : Style) (depth : Nat) : List Json → List Placed
  | [] => [⟨style.line depth, .closeList⟩]
  | v :: rest =>
    ⟨[], .comma⟩ :: layout style (depth + 1) (style.line (depth + 1)) v
      ++ layoutItems style depth rest

/-- The tokens of the further members of a record, and of its end. -/
def layoutMembers (style : Style) (depth : Nat) : List (Option String × Json) → List Placed
  | [] => [⟨style.line depth, .closeRecord⟩]
  | (key, v) :: rest =>
    ⟨[], .comma⟩ :: ⟨style.line (depth + 1), .str key⟩ :: ⟨[], .colon⟩
      :: layout style (depth + 1) style.afterColon v ++ layoutMembers style depth rest

end

/-- Writes a document. -/
def render (style : Style) (v : Json) : String :=
  String.ofList ((layout style 0 [] v).flatMap fun p => p.gap ++ p.token.text)

end Json

end Reshard
