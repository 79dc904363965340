import Reshard.NodeId

/-! Names of directed edges.

    An edge is named by the nodes at its two ends. Edges are ordered by their source first and
    then by their destination, and the order decides equality.

    Source: the pairs of a source and a destination that key the edge costs; specification, 3. -/

namespace Reshard

/-- The name of a directed edge. -/
structure Edge where
  src : NodeId
  dst : NodeId
deriving DecidableEq

namespace Edge

instance : Ord Edge := ⟨compareLex (compareOn Edge.src) (compareOn Edge.dst)⟩

instance : Std.TransOrd Edge :=
  inferInstanceAs (Std.TransCmp (compareLex (compareOn Edge.src) (compareOn Edge.dst)))

instance : Std.LawfulEqOrd Edge where
  compare_self := compareLex_eq_eq.2 ⟨Std.ReflOrd.compare_self, Std.ReflOrd.compare_self⟩
  eq_of_compare {a b} h := by
    have ⟨hs, hd⟩ := compareLex_eq_eq.1 h
    cases a; cases b
    cases Std.LawfulEqOrd.eq_of_compare (α := NodeId) hs
    cases Std.LawfulEqOrd.eq_of_compare (α := NodeId) hd
    rfl

end Edge

end Reshard
