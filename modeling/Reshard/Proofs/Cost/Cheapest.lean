import Reshard.Proofs.Cost.Order
import Reshard.Proofs.Cost.Table

/-! The cheapest column of a line.

    On a line of defined costs, negative ones included, `cheapest?` finds the first least entry and
    nothing else (`cheapest?_ofFn_eq_some_iff`). It looks at nothing but the entries of that line,
    so a table made of lines of another one has the same choice on each of them. -/

namespace Reshard.CostTable

variable {α : Type} {rows cols i j : Nat} {f : Nat → Nat → α}

/-! ### Tables made of lines -/

/-- Picking lines of a table gives the table of their entries. -/
theorem select?_ofFn {choice : List Nat} (h : ∀ k ∈ choice, k < rows) :
    (ofFn rows cols f).select? choice =
      some (ofFn choice.length cols fun i j => f ((choice[i]?).getD 0) j) := by
  obtain ⟨s, hs, hrows, hcols, hget⟩ := exists_select? (t := ofFn rows cols f) h
  rw [hs]
  refine congrArg some (ext_get? hrows hcols fun i j => ?_)
  rw [hget]
  by_cases hin : i < choice.length ∧ j < cols
  · rw [get?_ofFn hin.1 hin.2, List.getElem?_eq_getElem hin.1]
    exact get?_ofFn (h _ (List.getElem_mem hin.1)) hin.2
  · rw [get?_eq_none_of_not hin]
    by_cases hi : i < choice.length
    · rw [List.getElem?_eq_getElem hi]
      exact get?_eq_none_of_not fun h => hin ⟨hi, h.2⟩
    · rw [List.getElem?_eq_none (Nat.le_of_not_lt hi)]
      rfl

theorem line_ofFn (hi : i < rows) : (ofFn rows cols f).line i = (List.range cols).map (f i) := by
  refine List.ext_getElem? fun k => ?_
  rw [getElem?_line hi, List.getElem?_map]
  by_cases hk : k < cols
  · rw [get?_ofFn hi hk, List.getElem?_range hk]
    rfl
  · rw [get?_eq_none_of_not fun h => hk h.2, List.getElem?_eq_none (by simpa using hk)]
    rfl

variable [Cost α]

/-- On a line that is taken from another table the choice is the one made there. -/
theorem cheapest?_ofFn_line {lines : Nat} {m : Nat → Nat} (hi : i < lines) (hm : m i < rows) :
    (ofFn lines cols fun k c => f (m k) c).cheapest? i = (ofFn rows cols f).cheapest? (m i) := by
  refine cheapest?_congr hi hm fun k => ?_
  by_cases hk : k < cols
  · rw [get?_ofFn hi hk, get?_ofFn hm hk]
  · rw [get?_eq_none_of_not fun h => hk h.2, get?_eq_none_of_not fun h => hk h.2]

/-! ### The first least entry -/

/-- The entry in column `j` is at most each entry of its line, and less than those before it. -/
structure LeastColumn (cols : Nat) (entry : Nat → α) (j : Nat) : Prop where
  lt_cols : j < cols
  le {k : Nat} : k < cols → entry j ≤ entry k
  lt {k : Nat} : k < j → entry j < entry k

theorem firstLeast_map_range_iff {entry : Nat → α} :
    Cost.FirstLeast ((List.range cols).map entry) j ↔ LeastColumn cols entry j := by
  have hentry {k : Nat} (hk : k < cols) : ((List.range cols).map entry)[k]? = some (entry k) := by
    rw [List.getElem?_map, List.getElem?_range hk]
    rfl
  constructor
  · rintro ⟨low, hlow, hle, hlt⟩
    have hj : j < cols := by simpa using (List.getElem?_eq_some_iff.1 hlow).1
    cases (hentry hj).symm.trans hlow
    exact ⟨hj, fun hk => hle _ (List.mem_of_getElem? (hentry hk)),
      fun hk => hlt _ _ hk (hentry (hk.trans hj))⟩
  · intro h
    refine ⟨entry j, hentry h.lt_cols, ?_, ?_⟩
    · intro c hc
      obtain ⟨k, hk, rfl⟩ := List.mem_map.1 hc
      exact h.le (List.mem_range.1 hk)
    · intro k c hk hc
      cases (hentry (hk.trans h.lt_cols)).symm.trans hc
      exact h.lt hk

theorem cheapest?_eq_none_iff {t : CostTable α} :
    t.cheapest? i = none ↔ t.rows ≤ i ∨ t.cols = 0 := by
  constructor
  · intro h
    by_contra hin
    rw [not_or, Nat.not_le] at hin
    obtain ⟨j, hj⟩ := exists_cheapest? hin.1 (Nat.pos_of_ne_zero hin.2)
    cases h.symm.trans hj
  · intro h
    refine Option.eq_none_iff_forall_ne_some.2 fun j hj => ?_
    obtain ⟨hrow, hcol⟩ := cheapest?_lt hj
    omega

variable [DefinedOrder α]

namespace LeastColumn

variable {entry : Nat → α} (h : LeastColumn cols entry j)
include h

/-- The least entry is below the infeasible cost if any entry is. -/
theorem lt_infeasible (hentry : ∀ k, k < cols → Cost.Defined (entry k)) {k : Nat} (hk : k < cols)
    (hlt : entry k < Cost.infeasible) : entry j < Cost.infeasible :=
  DefinedOrder.linear.lt_of_le_of_lt (hentry j h.lt_cols) (hentry k hk)
    DefinedOrder.defined_infeasible (h.le hk) hlt

/-- Without such an entry the first column is chosen. -/
theorem eq_zero (hall : ∀ k < cols, entry k = Cost.infeasible) : j = 0 := by
  by_contra hne
  have hlt := h.lt (Nat.pos_of_ne_zero hne)
  rw [hall j h.lt_cols, hall 0 (Nat.zero_lt_of_lt h.lt_cols)] at hlt
  exact DefinedOrder.linear.lt_irrefl DefinedOrder.defined_infeasible hlt

end LeastColumn

/-- The choice on a line of defined costs is the first least entry. -/
theorem cheapest?_ofFn_eq_some_iff (hf : ∀ i j, i < rows → j < cols → Cost.Defined (f i j)) :
    (ofFn rows cols f).cheapest? i = some j ↔ i < rows ∧ LeastColumn cols (f i) j := by
  have hrows : (ofFn rows cols f).rows = rows := rfl
  rw [cheapest?, hrows]
  by_cases hi : i < rows
  · have hline : ∀ c ∈ (List.range cols).map (f i), Cost.Defined c := fun c hc => by
      obtain ⟨k, hk, rfl⟩ := List.mem_map.1 hc
      exact hf i k hi (List.mem_range.1 hk)
    rw [if_pos hi, and_iff_right hi, line_ofFn hi,
      DefinedOrder.linear.cheapest?_eq_some_iff hline, firstLeast_map_range_iff]
  · simp [hi]

/-- What `cheapest?` chooses on a line of a table of these costs. -/
structure ChoosesFirstLeast (rows cols : Nat) (f : Nat → Nat → α) (i : Nat) : Prop where
  eq_none_iff : (ofFn rows cols f).cheapest? i = none ↔ rows ≤ i ∨ cols = 0
  eq_some_iff {j : Nat} : (ofFn rows cols f).cheapest? i = some j ↔
    i < rows ∧ LeastColumn cols (f i) j
  lt_infeasible {j k : Nat} : (ofFn rows cols f).cheapest? i = some j → k < cols →
    f i k < Cost.infeasible → f i j < Cost.infeasible
  eq_zero : i < rows → 0 < cols → (∀ k < cols, f i k = Cost.infeasible) →
    (ofFn rows cols f).cheapest? i = some 0
  /-- A table made of lines of this one has the same choices. -/
  cheapest?_line {lines : Nat} {m : Nat → Nat} : (∀ k < lines, m k < rows) → i < lines →
    (ofFn lines cols fun k c => f (m k) c).cheapest? i = (ofFn rows cols f).cheapest? (m i)
  exists_select? {choice : List Nat} : (∀ k ∈ choice, k < rows) →
    ∃ s, (ofFn rows cols f).select? choice = some s ∧
      s = ofFn choice.length cols (fun i j => f ((choice[i]?).getD 0) j) ∧
      ∀ k, choice[i]? = some k → s.cheapest? i = (ofFn rows cols f).cheapest? k

/-- On a table of defined costs `cheapest?` chooses nothing off the table, and otherwise the first
    least column. So it chooses a cost below the infeasible one if there is any, and the first
    column if there is none. -/
theorem chooses_first_least (hf : ∀ i j, i < rows → j < cols → Cost.Defined (f i j)) (i : Nat) :
    ChoosesFirstLeast rows cols f i where
  eq_none_iff := cheapest?_eq_none_iff
  eq_some_iff := cheapest?_ofFn_eq_some_iff hf
  lt_infeasible := by
    intro j k hj hk hlt
    obtain ⟨hi, hleast⟩ := (cheapest?_ofFn_eq_some_iff hf).1 hj
    exact hleast.lt_infeasible (fun k => hf i k hi) hk hlt
  eq_zero := by
    intro hi hcols hall
    obtain ⟨j, hj⟩ := exists_cheapest? (t := ofFn rows cols f) hi hcols
    obtain ⟨-, hleast⟩ := (cheapest?_ofFn_eq_some_iff hf).1 hj
    exact hleast.eq_zero hall ▸ hj
  cheapest?_line := fun hm hi => cheapest?_ofFn_line hi (hm _ hi)
  exists_select? := by
    intro choice hchoice
    refine ⟨_, select?_ofFn hchoice, rfl, fun k hk => ?_⟩
    have hi : i < choice.length := (List.getElem?_eq_some_iff.1 hk).1
    have hm : (choice[i]?).getD 0 = k := by rw [hk]; rfl
    rw [← hm]
    exact cheapest?_ofFn_line hi (hm ▸ hchoice k (List.mem_of_getElem? hk))

/-- A line whose least cost is negative and comes twice, and one without a feasible cost. -/
def slopes (i j : Nat) : Float :=
  if i = 0 then [1 / 0, -2, 0.5, -2].getD j 0 else Cost.infeasible

theorem slopes_chooses_first_least : (∀ i j, i < 2 → j < 4 → (slopes i j).isNaN = false) ∧
    (ofFn 2 4 slopes).cheapest? 0 = some 1 ∧ (ofFn 2 4 slopes).cheapest? 1 = some 0 ∧
    ∃ s, (ofFn 2 4 slopes).select? [1, 0, 0] = some s ∧ s.cheapest? 2 = some 1 := by
  have hnumbers : ∀ i < 2, ∀ j < 4, (slopes i j).isNaN = false := by decide +kernel
  have hdefined : ∀ i j, i < 2 → j < 4 → Cost.Defined (slopes i j) := fun i j hi hj =>
    Binary64.defined_iff.2 (hnumbers i hi j hj)
  have hfirst : (ofFn 2 4 slopes).cheapest? 0 = some 1 := by
    refine (chooses_first_least hdefined 0).eq_some_iff.2 ⟨by decide, by decide, ?_, ?_⟩
    · exact fun hk => (by decide +kernel : ∀ k < 4, slopes 0 1 ≤ slopes 0 k) _ hk
    · exact fun hk => (by decide +kernel : ∀ k < 1, slopes 0 1 < slopes 0 k) _ hk
  have hsecond : (ofFn 2 4 slopes).cheapest? 1 = some 0 :=
    (chooses_first_least hdefined 1).eq_zero (by decide) (by decide) fun _ _ => rfl
  have hchoice : ∀ k ∈ [1, 0, 0], k < 2 := by decide
  obtain ⟨s, hs, -, hsame⟩ := (chooses_first_least hdefined 2).exists_select? hchoice
  exact ⟨fun i j hi hj => hnumbers i hi j hj, hfirst, hsecond, s, hs, (hsame 0 rfl).trans hfirst⟩

end Reshard.CostTable
