/-! Names of nodes.

    A node is named by its position in the catalog, and a name holds at most 32 bits. A position
    beyond that is named by the greatest id, which no declared node carries. Ids are ordered by
    position, and the order decides equality, so a map keyed by ids lists its entries in one way
    only. `ofIndex_index` says that an id is the name of its own position.

    Source: the type `NodeId` with `new` (`ofIndex`) and `try_new` (`ofIndex?`); specification, E.2. -/

namespace Reshard

/-- The greatest position that an id can name. -/
def NodeId.maxIndex : Nat := 4294967295

/-- The name of a node: its position among the declared nodes. -/
structure NodeId where
  index : Nat
  index_le : index ≤ NodeId.maxIndex
deriving DecidableEq

namespace NodeId

/-- The id of a position, if the position fits. -/
def ofIndex? (position : Nat) : Option NodeId :=
  if h : position ≤ maxIndex then some ⟨position, h⟩ else none

/-- The id of a position; a position that does not fit is named by the greatest id. -/
def ofIndex (position : Nat) : NodeId :=
  ⟨min position maxIndex, Nat.min_le_right ..⟩

/-- The id as messages spell it. -/
def text (id : NodeId) : String := s!"NodeId({id.index})"

@[ext] theorem ext {a b : NodeId} (h : a.index = b.index) : a = b := by
  cases a; cases b; cases h; rfl

theorem ofIndex_index_of_le {position : Nat} (h : position ≤ maxIndex) :
    (ofIndex position).index = position :=
  Nat.min_eq_left h

@[simp] theorem ofIndex_index (id : NodeId) : ofIndex id.index = id :=
  ext (ofIndex_index_of_le id.index_le)

theorem ofIndex?_eq_some_iff {position : Nat} {id : NodeId} :
    ofIndex? position = some id ↔ position = id.index := by
  unfold ofIndex?
  split
  · exact ⟨fun h => by cases h; rfl, fun h => by subst h; rfl⟩
  · next h => exact ⟨nofun, fun hsame => absurd (hsame ▸ id.index_le) h⟩

instance : Ord NodeId := ⟨fun a b => compare a.index b.index⟩

instance : Std.TransOrd NodeId := inferInstanceAs (Std.TransCmp (compareOn NodeId.index))

instance : Std.LawfulEqOrd NodeId where
  compare_self {a} := Std.ReflOrd.compare_self (a := a.index)
  eq_of_compare h := ext (Std.LawfulEqOrd.eq_of_compare (α := Nat) h)

end NodeId

end Reshard
