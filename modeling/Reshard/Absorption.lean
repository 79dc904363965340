import Reshard.NodeId

/-! How the strategy of an absorbed node follows from another node's.

    Source: the type `AbsorptionRecord` with `strategy_for` (`strategy?`). -/

namespace Reshard

/-- The strategy of the absorbed node is `map[s]` when the node `into` runs its strategy `s`. -/
structure Absorption where
  into : NodeId
  map : List Nat
deriving DecidableEq

/-- The strategy of the absorbed node when the other one runs the strategy `chosen`. -/
def Absorption.strategy? (a : Absorption) (chosen : Nat) : Option Nat := a.map[chosen]?

end Reshard
