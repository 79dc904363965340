import Reshard.Json.Value

/-! Records in documents.

    A record is read by the names of its fields. It may come as a JSON record, in any order and with
    further members, which are ignored; or as a list of its fields in their order, which has no room
    for further items but may end early where the last fields are optional. A key must be a text,
    and a field may be given once. -/

namespace Reshard.Json

/-- The members of a record whose keys are all texts. -/
def named? (members : List (Option String × Json)) : Option (List (String × Json)) :=
  members.mapM fun (key, value) => key.map (·, value)

/-- The fields with the given names, in that order; `none` stands for a missing one. In a list, at
    least the first `least` fields must be there. -/
def fields? (names : List String) (least : Nat) : Json → Option (List (Option Json))
  | .record members => do
    let members ← named? members
    guard (∀ name ∈ names, (members.filter (·.1 == name)).length ≤ 1)
    return names.map fun name => members.lookup name
  | .list items => do
    guard (least ≤ items.length ∧ items.length ≤ names.length)
    return (List.range names.length).map (items[·]?)
  | _ => none

/-- The items of a list, each read by `read?`. -/
def items? {β : Type} (read? : Json → Option β) : Json → Option (List β)
  | .list items => items.mapM read?
  | _ => none

/-- A value that may be absent, which is written as null. -/
def optional? {β : Type} (read? : Json → Option β) : Json → Option (Option β)
  | .null => some none
  | v => (read? v).map some

/-- A text. -/
def text? : Json → Option String
  | .str s => s
  | _ => none

/-- A truth value. -/
def bool? : Json → Option Bool
  | .bool b => some b
  | _ => none

/-- The greatest count that a document can hold. -/
def maxCount : Nat := 0xffffffffffffffff

/-- A count or position: a numeral of digits only. -/
def count? : Json → Option Nat
  | .num n => n.natural?.filter (· ≤ maxCount)
  | _ => none

end Reshard.Json
