import Reshard.Cost.Binary64
import Reshard.Decimal.Numeral

/-! Texts line by line.

    A text is cut into lines at its line breaks. If it was put together from lines that each end in
    a break and have no other one, cutting gives these lines back (`textLines_join`). Numbers, costs
    and lists are spelled without a line break. -/

namespace Reshard

/-- The lines of a text: what stands before, between and after its line breaks. -/
def textLines (t : String) : List String := (t.toList.splitOn '\n').map String.ofList

/-- The text has no line break. -/
def OneLine (t : String) : Prop := '\n' ∉ t.toList

variable {t u : String} {items : List String} {n : Nat}

instance : Decidable (OneLine t) := inferInstanceAs (Decidable (¬ _))

theorem oneLine_append : OneLine (t ++ u) ↔ OneLine t ∧ OneLine u := by
  simp [OneLine]

/-- A text does not begin with what is no prefix of it. -/
theorem ne_append {start : String} (h : ¬ start.toList <+: t.toList) : t ≠ start ++ u := by
  rintro rfl
  exact h (by simp)

/-- Texts that each end in a line break come apart at these breaks. -/
theorem textLines_join : ∀ {lines : List String}, (∀ t ∈ lines, OneLine t) →
    textLines (String.join (lines.map (· ++ "\n"))) = lines ++ [""]
  | [], _ => rfl
  | t :: lines, h => by
    rw [List.forall_mem_cons] at h
    have htext : (String.join ((t :: lines).map (· ++ "\n"))).toList =
        t.toList ++ '\n' :: (String.join (lines.map (· ++ "\n"))).toList := by simp
    rw [textLines, htext, List.splitOn_append_cons_self_of_not_mem h.1, List.map_cons,
      String.ofList_toList]
    exact congrArg (t :: ·) (textLines_join h.2)

/-! ### Spellings -/

theorem notMem_toDigits : '\n' ∉ Nat.toDigits 10 n := fun h =>
  absurd (Nat.isDigit_of_mem_toDigits (by decide) (by decide) h) (by decide)

theorem oneLine_nat : OneLine (toString n) := by
  simpa [OneLine] using notMem_toDigits

theorem oneLine_intercalate (ht : OneLine t) : ∀ {items : List String}, (∀ u ∈ items, OneLine u) →
    OneLine (t.intercalate items)
  | [], _ => by rw [String.intercalate_nil]; decide
  | [u], h => by simpa using h
  | u :: v :: items, h => by
    rw [List.forall_mem_cons] at h
    rw [String.intercalate_cons_cons, oneLine_append, oneLine_append]
    exact ⟨⟨h.1, ht⟩, oneLine_intercalate ht h.2⟩

theorem oneLine_listText (h : ∀ t ∈ items, OneLine t) : OneLine (CostFormat.listText items) := by
  rw [CostFormat.listText, oneLine_append, oneLine_append]
  exact ⟨⟨by decide, oneLine_intercalate (by decide) h⟩, by decide⟩

theorem notMem_exponentText {plus : Bool} : ∀ e : Int, '\n' ∉ Numeral.exponentText plus e
  | .ofNat k => by cases plus <;> simp [Numeral.exponentText, notMem_toDigits]
  | .negSucc k => by simp [Numeral.exponentText, notMem_toDigits]

theorem notMem_text {plus : Bool} (m : Numeral) : '\n' ∉ m.text plus := by
  have hdigit : ∀ d : Digit, '\n' ≠ d.toChar := by decide
  simp only [Numeral.text, List.mem_append, not_or]
  refine ⟨⟨⟨?_, notMem_toDigits⟩, ?_⟩, ?_⟩
  · cases m.negative <;> simp
  · cases m.fraction <;> simp [Numeral.fractionText, hdigit, eq_comm]
  · cases m.exponent with
    | none => exact List.not_mem_nil
    | some e => exact notMem_exponentText e

/-- A cost of double precision is spelled without a line break in a report. -/
theorem oneLine_inReport (x : Float) : OneLine (CostFormat.inReport x) := by
  change OneLine ((Binary64.ofFloat x).text Binary64.report)
  cases Binary64.ofFloat x with
  | undefined => decide
  | infinite negative => cases negative <;> decide
  | finite negative m q =>
    rw [OneLine, Binary64.text, Decimal.Layout.text, String.toList_ofList]
    exact notMem_text _

end Reshard
