import Reshard.Cost.Table
import Reshard.Proofs.Cost.Exact
import Reshard.Proofs.Outcome

/-! Cost tables by their entries.

    A table is seen through `get?`, which is defined exactly inside its shape. Each operation is
    described by what it does to the shape and to the entries: `ofFn` and `tabulate?` list the given
    entries, `select?` picks lines, `add?` adds entry by entry, and `cheapestAll?` chooses a column
    on each line. -/

namespace Reshard.CostTable

variable {α : Type}

theorem get?_eq_none_of_not {t : CostTable α} {i j : Nat} (h : ¬ (i < t.rows ∧ j < t.cols)) :
    t.get? i j = none := if_neg h

/-- An entry inside the shape has a place in the list of entries. -/
theorem cell_lt {rows cols i j : Nat} (hi : i < rows) (hj : j < cols) :
    i * cols + j < rows * cols := by
  have : (i + 1) * cols ≤ rows * cols := Nat.mul_le_mul_right _ hi
  rw [Nat.succ_mul] at this
  omega

/-- The line and the column of an entry can be told from its place. -/
theorem cell_place {cols i j : Nat} (hj : j < cols) :
    (i * cols + j) / cols = i ∧ (i * cols + j) % cols = j := by
  have hpos : 0 < cols := Nat.zero_lt_of_lt hj
  constructor
  · rw [Nat.mul_comm, Nat.mul_add_div hpos, Nat.div_eq_of_lt hj, Nat.add_zero]
  · rw [Nat.mul_comm, Nat.mul_add_mod, Nat.mod_eq_of_lt hj]

theorem exists_get? {t : CostTable α} {i j : Nat} (hi : i < t.rows) (hj : j < t.cols) :
    ∃ c, t.get? i j = some c := by
  have hcell : i * t.cols + j < t.cells.length := t.length_cells ▸ cell_lt hi hj
  exact ⟨t.cells[i * t.cols + j], by rw [get?, if_pos ⟨hi, hj⟩, List.getElem?_eq_getElem hcell]⟩

/-- Each place in the list of entries belongs to a line and a column. -/
theorem getElem?_cells {t : CostTable α} {k : Nat} (hk : k < t.rows * t.cols) :
    t.cells[k]? = t.get? (k / t.cols) (k % t.cols) := by
  have hpos : 0 < t.cols := Nat.pos_of_ne_zero fun h => by simp [h] at hk
  have hrow : k / t.cols < t.rows := Nat.div_lt_of_lt_mul (by rwa [Nat.mul_comm])
  rw [get?, if_pos ⟨hrow, Nat.mod_lt _ hpos⟩, Nat.div_add_mod']

/-- The list of entries holds what the table has at its places. -/
theorem mem_cells_iff {t : CostTable α} {c : α} : c ∈ t.cells ↔ ∃ i j, t.get? i j = some c := by
  constructor
  · intro hc
    obtain ⟨k, hk⟩ := List.mem_iff_getElem?.1 hc
    have hlt : k < t.rows * t.cols := t.length_cells ▸ (List.getElem?_eq_some_iff.1 hk).1
    exact ⟨k / t.cols, k % t.cols, (getElem?_cells hlt).symm.trans hk⟩
  · rintro ⟨i, j, h⟩
    rw [get?] at h
    split at h
    · exact List.mem_of_getElem? h
    · cases h

/-- A table is its shape and its entries. -/
theorem ext_get? {s t : CostTable α} (hrows : s.rows = t.rows) (hcols : s.cols = t.cols)
    (h : ∀ i j, s.get? i j = t.get? i j) : s = t := by
  have hcells : s.cells = t.cells := by
    refine List.ext_getElem? ?_
    intro k
    by_cases hk : k < s.rows * s.cols
    · rw [getElem?_cells hk, getElem?_cells (hrows ▸ hcols ▸ hk), h, hcols]
    · have hk' : ¬ k < t.rows * t.cols := by rwa [← hrows, ← hcols]
      rw [List.getElem?_eq_none (s.length_cells ▸ Nat.le_of_not_lt hk),
        List.getElem?_eq_none (t.length_cells ▸ Nat.le_of_not_lt hk')]
  cases s
  cases t
  cases hrows
  cases hcols
  cases hcells
  rfl

/-! ### Tables with given entries -/

theorem ofCells?_eq_some {rows cols : Nat} {cells : List α} {t : CostTable α}
    (h : ofCells? rows cols cells = some t) : t.rows = rows ∧ t.cols = cols ∧ t.cells = cells := by
  rw [ofCells?] at h
  split at h
  · cases h; exact ⟨rfl, rfl, rfl⟩
  · cases h

theorem get?_ofFn {rows cols i j : Nat} {f : Nat → Nat → α} (hi : i < rows) (hj : j < cols) :
    (ofFn rows cols f).get? i j = some (f i j) := by
  have hk := cell_lt hi hj
  rw [get?, if_pos ⟨hi, hj⟩]
  simp only [ofFn, List.getElem?_map, List.getElem?_range hk, Option.map_some, cell_place hj]

theorem tabulate?_eq_some {rows cols : Nat} {f : Nat → Nat → Option α} {t : CostTable α}
    (h : tabulate? rows cols f = some t) :
    t.rows = rows ∧ t.cols = cols ∧ ∀ i j, i < rows → j < cols → t.get? i j = f i j := by
  simp only [tabulate?, Option.bind_eq_bind, Option.bind_eq_some_iff, mapM_some_iff] at h
  obtain ⟨cells, hcells, ht⟩ := h
  obtain ⟨rfl, rfl, rfl⟩ := ofCells?_eq_some ht
  refine ⟨rfl, rfl, ?_⟩
  intro i j hi hj
  have hk := cell_lt hi hj
  have hlen := hcells.length_eq
  rw [List.length_range] at hlen
  have hcell := List.Forall₂.get hcells (i := i * t.cols + j) (by simpa using hk) (hlen ▸ hk)
  rw [List.get_eq_getElem, List.getElem_range, (cell_place hj).1, (cell_place hj).2] at hcell
  rw [hcell, get?, if_pos ⟨hi, hj⟩, List.getElem?_eq_getElem (hlen ▸ hk)]
  rfl

theorem exists_tabulate? {rows cols : Nat} {f : Nat → Nat → Option α}
    (h : ∀ i j, i < rows → j < cols → ∃ c, f i j = some c) :
    ∃ t, tabulate? rows cols f = some t := by
  have hall : ∀ k ∈ List.range (rows * cols), ∃ c, f (k / cols) (k % cols) = some c := by
    intro k hk
    have hk := List.mem_range.1 hk
    have hpos : 0 < cols := Nat.pos_of_ne_zero fun h => by simp [h] at hk
    exact h _ _ (Nat.div_lt_of_lt_mul (by rwa [Nat.mul_comm])) (Nat.mod_lt _ hpos)
  obtain ⟨cells, hcells⟩ := exists_mapM_some hall
  have hlen := (mapM_some_iff.1 hcells).length_eq
  rw [List.length_range] at hlen
  exact ⟨⟨rows, cols, cells, hlen.symm⟩, by simp [tabulate?, hcells, ofCells?, ← hlen]⟩

/-! ### Lines of another table -/

/-- Entry `j` of line `i`, when lines of one length stand one behind the other. -/
theorem getElem?_flatten_lines {n : Nat} : ∀ {lines : List (List α)} {i j : Nat},
    (∀ l ∈ lines, l.length = n) → j < n →
    lines.flatten[i * n + j]? = lines[i]?.bind (·[j]?)
  | [], _, _, _, _ => by simp
  | l :: lines, 0, j, h, hj => by
    have hl : l.length = n := h l List.mem_cons_self
    rw [List.flatten_cons, Nat.zero_mul, Nat.zero_add, List.getElem?_append_left (hl ▸ hj)]
    rfl
  | l :: lines, i + 1, j, h, hj => by
    have hl : l.length = n := h l List.mem_cons_self
    have hpast : (i + 1) * n + j = l.length + (i * n + j) := by rw [hl, Nat.succ_mul]; omega
    rw [List.flatten_cons, hpast, List.getElem?_append_right (Nat.le_add_right ..),
      Nat.add_sub_cancel_left,
      getElem?_flatten_lines (fun l hl => h l (List.mem_cons_of_mem _ hl)) hj]
    rfl

theorem exists_select? {t : CostTable α} {choice : List Nat} (h : ∀ r ∈ choice, r < t.rows) :
    ∃ s, t.select? choice = some s ∧ s.rows = choice.length ∧ s.cols = t.cols ∧
      ∀ i j, s.get? i j = choice[i]?.bind (t.get? · j) := by
  have hlines : choice.mapM t.row? = some (choice.map t.line) := by
    rw [mapM_some_iff, List.forall₂_map_right_iff, List.forall₂_same]
    exact fun r hr => if_pos (.inl (h r hr))
  have hlen : ∀ l ∈ choice.map t.line, l.length = t.cols := by
    intro l hl
    obtain ⟨r, hr, rfl⟩ := List.mem_map.1 hl
    exact length_line (h r hr)
  have hsum : (choice.map (List.length ∘ t.line)).sum = choice.length * t.cols := by
    have hconst : choice.map (List.length ∘ t.line) = choice.map fun _ => t.cols :=
      List.map_congr_left fun r hr => length_line (h r hr)
    rw [hconst, List.map_const', List.sum_replicate_nat]
  have hcells : (choice.map t.line).flatten.length = choice.length * t.cols := by
    rw [List.length_flatten, List.map_map, hsum]
  refine ⟨⟨_, _, _, hcells⟩, by simp [select?, hlines, ofCells?, hsum], rfl, rfl, ?_⟩
  intro i j
  rw [get?]
  by_cases hj : j < t.cols
  · by_cases hi : i < choice.length
    · rw [if_pos ⟨hi, hj⟩, getElem?_flatten_lines hlen hj, List.getElem?_map,
        List.getElem?_eq_getElem hi]
      exact getElem?_line (h _ (List.getElem_mem hi))
    · rw [if_neg fun hin => hi hin.1, List.getElem?_eq_none (Nat.le_of_not_lt hi)]
      rfl
  · rw [if_neg fun hin => hj hin.2]
    cases choice[i]? with
    | none => rfl
    | some r => exact (get?_eq_none_of_not fun hin => hj hin.2).symm

/-! ### Sums -/

variable [Cost α]

theorem exists_add? {s t : CostTable α} (hrows : s.rows = t.rows) (hcols : s.cols = t.cols) :
    ∃ u, s.add? t = some u ∧ u.rows = s.rows ∧ u.cols = s.cols ∧
      ∀ i j, u.get? i j = (s.get? i j).bind fun a => (t.get? i j).map (a + ·) := by
  refine ⟨_, dif_pos ⟨hrows, hcols⟩, rfl, rfl, ?_⟩
  intro i j
  simp only [get?, ← hrows, ← hcols]
  split
  · rw [List.getElem?_zipWith]
    cases s.cells[i * s.cols + j]? <;> cases t.cells[i * s.cols + j]? <;> rfl
  · rfl

/-! ### Choosing a column on each line -/

theorem cheapest?_lt {t : CostTable α} {i j : Nat} (h : t.cheapest? i = some j) :
    i < t.rows ∧ j < t.cols := by
  rw [cheapest?] at h
  split at h
  next hi => exact ⟨hi, length_line hi ▸ Cost.lt_of_cheapest? h⟩
  next => cases h

/-- The choice on a line depends on nothing but the entries of that line. -/
theorem cheapest?_congr {s t : CostTable α} {i j : Nat} (hi : i < s.rows) (hj : j < t.rows)
    (h : ∀ k, s.get? i k = t.get? j k) : s.cheapest? i = t.cheapest? j := by
  have hline : s.line i = t.line j := List.ext_getElem? fun k => by
    rw [getElem?_line hi, getElem?_line hj, h]
  rw [cheapest?, cheapest?, if_pos hi, if_pos hj, hline]

theorem exists_cheapest? {t : CostTable α} {i : Nat} (hi : i < t.rows) (hcols : 0 < t.cols) :
    ∃ j, t.cheapest? i = some j := by
  rw [cheapest?, if_pos hi]
  refine Cost.exists_cheapest? ?_
  intro h
  have := length_line hi
  rw [h] at this
  exact hcols.ne this

theorem cheapestAll?_eq_some {t : CostTable α} {choice : List Nat}
    (h : t.cheapestAll? = some choice) :
    choice.length = t.rows ∧ ∀ i, i < t.rows → choice[i]? = t.cheapest? i := by
  rw [cheapestAll?, cheapestFrom?_eq, mapM_some_iff] at h
  have hlen : t.rows = choice.length := by simpa using h.length_eq
  refine ⟨hlen.symm, ?_⟩
  intro i hi
  have := List.Forall₂.get h (i := i) (by simpa using hi) (hlen ▸ hi)
  rw [List.getElem?_eq_getElem (hlen ▸ hi), eq_comm]
  simpa using this

theorem lt_of_mem_cheapestAll? {t : CostTable α} {choice : List Nat} {j : Nat}
    (h : t.cheapestAll? = some choice) (hj : j ∈ choice) : j < t.cols := by
  obtain ⟨hlen, hcheapest⟩ := cheapestAll?_eq_some h
  obtain ⟨i, hi⟩ := List.mem_iff_getElem?.1 hj
  have hlt : i < t.rows := hlen ▸ (List.getElem?_eq_some_iff.1 hi).1
  rw [hcheapest i hlt] at hi
  exact (cheapest?_lt hi).2

theorem exists_cheapestAll? {t : CostTable α} (hcols : 0 < t.cols) :
    ∃ choice, t.cheapestAll? = some choice := by
  rw [cheapestAll?, cheapestFrom?_eq]
  refine exists_mapM_some fun i hi => exists_cheapest? ?_ hcols
  simpa using (List.mem_range'_1.1 hi).2

end Reshard.CostTable
