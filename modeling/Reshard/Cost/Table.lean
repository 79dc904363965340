import Reshard.Cost.Basic

/-! Cost tables.

    The table of an edge has a line for each strategy of the source and, on the line, a cost for
    each strategy of the destination. The costs are kept in one list, line after line, so a table
    without columns takes no room however many lines it has.

    Source: the type `CostMatrix` with `from_fn` (`ofFn`), `row` (`row?`), `argmin_row`
    (`cheapest?`) and `accumulate` (`add?`); specification, E.3. -/

namespace Reshard

/-- A dense table of costs: one line per source strategy, one entry per destination strategy. -/
structure CostTable (α : Type) where
  rows : Nat
  cols : Nat
  /-- The entries line after line. -/
  cells : List α
  length_cells : cells.length = rows * cols

namespace CostTable

variable {α : Type}

/-- The table with the entries `f i j`. -/
def ofFn (rows cols : Nat) (f : Nat → Nat → α) : CostTable α where
  rows := rows
  cols := cols
  cells := (List.range (rows * cols)).map fun k => f (k / cols) (k % cols)
  length_cells := by simp

/-- The table with the given entries, line after line, if they fill its shape. -/
def ofCells? (rows cols : Nat) (cells : List α) : Option (CostTable α) :=
  if h : cells.length = rows * cols then some ⟨rows, cols, cells, h⟩ else none

/-- The table with the entries `f i j`, if they are all defined. -/
def tabulate? (rows cols : Nat) (f : Nat → Nat → Option α) : Option (CostTable α) := do
  ofCells? rows cols (← (List.range (rows * cols)).mapM fun k => f (k / cols) (k % cols))

/-- The entry of a pair of strategies. -/
def get? (t : CostTable α) (i j : Nat) : Option α :=
  if i < t.rows ∧ j < t.cols then t.cells[i * t.cols + j]? else none

/-- The entries of line `i`, as far as the table has them. -/
def line (t : CostTable α) (i : Nat) : List α := (t.cells.drop (i * t.cols)).take t.cols

/-- The entries of line `i`. A table without columns has an empty line at every position. -/
def row? (t : CostTable α) (i : Nat) : Option (List α) :=
  if i < t.rows ∨ t.cols = 0 then some (t.line i) else none

/-- The table whose lines are the given lines of `t`. -/
def select? (t : CostTable α) (choice : List Nat) : Option (CostTable α) := do
  ofCells? choice.length t.cols (← choice.mapM t.row?).flatten

/-- The entries with their positions, line after line. -/
def entries (t : CostTable α) : List (Nat × Nat × α) :=
  t.cells.zipIdx.map fun (c, k) => (k / t.cols, k % t.cols, c)

/-- Tables are compared by their shape and entry by entry. -/
instance [BEq α] : BEq (CostTable α) where
  beq s t := s.rows == t.rows && s.cols == t.cols && s.cells == t.cells

theorem length_line {t : CostTable α} {i : Nat} (h : i < t.rows) : (t.line i).length = t.cols := by
  have : (i + 1) * t.cols ≤ t.rows * t.cols := Nat.mul_le_mul_right _ h
  rw [Nat.succ_mul] at this
  simp only [line, List.length_take, List.length_drop, t.length_cells]
  omega

theorem getElem?_line {t : CostTable α} {i j : Nat} (h : i < t.rows) :
    (t.line i)[j]? = t.get? i j := by
  by_cases hj : j < t.cols
  · simp [line, get?, h, hj]
  · have := length_line h
    simp [get?, hj]
    omega

variable [Cost α]

/-- The table with the cost zero everywhere. -/
def zeros (rows cols : Nat) : CostTable α := ofFn rows cols fun _ _ => 0

/-- The first cheapest destination strategy on line `i`. -/
def cheapest? (t : CostTable α) (i : Nat) : Option Nat :=
  if i < t.rows then Cost.cheapest? (t.line i) else none

/-- The first cheapest destination strategy on each of `count` lines from line `i` on, if each of
    them has one. Nothing is looked at behind a line that has none. -/
def cheapestFrom? (t : CostTable α) (i : Nat) : Nat → Option (List Nat)
  | 0 => some []
  | count + 1 => do
    let j ← t.cheapest? i
    return j :: (← cheapestFrom? t (i + 1) count)

/-- The first cheapest destination strategy on each line, if each line has one. -/
def cheapestAll? (t : CostTable α) : Option (List Nat) := t.cheapestFrom? 0 t.rows

theorem cheapestFrom?_eq (t : CostTable α) (i count : Nat) :
    t.cheapestFrom? i count = (List.range' i count).mapM t.cheapest? := by
  induction count generalizing i with
  | zero => rfl
  | succ count ih => simp [cheapestFrom?, List.range'_succ, ih]

/-- The entrywise sum of two tables of one shape. -/
def add? (s t : CostTable α) : Option (CostTable α) :=
  if h : s.rows = t.rows ∧ s.cols = t.cols then
    some
      { rows := s.rows
        cols := s.cols
        cells := s.cells.zipWith (· + ·) t.cells
        length_cells := by simp [s.length_cells, t.length_cells, h.1, h.2] }
  else none

end CostTable

end Reshard
