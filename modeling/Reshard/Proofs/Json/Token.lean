import Reshard.Json.Token
import Reshard.Proofs.Decimal.Numeral
import Reshard.Proofs.Json.Text

/-! A token is read back as it was written.

    Its first character tells what kind of token it is, and no token but a number may run on into
    what follows it. Blanks in front of a token are skipped. -/

namespace Reshard.Json.Token

/-- What follows the token does not continue it. -/
def Ended : Token → List Char → Prop
  | num _, rest => Numeral.Ends rest
  | _, _ => True

/-- A text that begins with a sign or a digit is read as a number. -/
theorem next?_of_number {c : Char} (hfirst : c = '-' ∨ (Digit.ofChar? c).isSome) (s : List Char) :
    next? (c :: s) = (Numeral.scan? (c :: s)).map fun (n, rest) => (num n, rest) := by
  unfold next?
  split
  case h_11 => cases Numeral.scan? (c :: s) <;> rfl
  all_goals
    next hsame =>
      obtain ⟨rfl, _⟩ := List.cons.inj hsame
      exact absurd hfirst (by decide)

/-- A numeral begins with its sign or with a digit. -/
theorem exists_numeral_text (plus : Bool) (n : Numeral) :
    ∃ c rest, n.text plus = c :: rest ∧ (c = '-' ∨ (Digit.ofChar? c).isSome) := by
  obtain ⟨d, digits, hspelled⟩ := List.exists_cons_of_ne_nil (Digit.spell_ne_nil n.whole)
  unfold Numeral.text
  rw [← Digit.map_toChar_spell, hspelled]
  cases n.negative with
  | true => exact ⟨_, _, rfl, .inl rfl⟩
  | false => exact ⟨_, _, rfl, .inr (by rw [Digit.ofChar?_toChar]; rfl)⟩

theorem next?_append (t : Token) {rest : List Char} (hended : t.Ended rest) :
    next? (t.text ++ rest) = some (t, rest) := by
  cases t with
  | num n =>
    obtain ⟨c, tail, hwritten, hfirst⟩ := exists_numeral_text true n
    have hread := Numeral.scan?_append true n hended
    rw [text, hwritten, List.cons_append, next?_of_number hfirst, ← List.cons_append, ← hwritten,
      hread]
    rfl
  | str s =>
    cases s with
    | none => rfl
    | some s =>
      have hread := Text.scan?_append s.toList rest
      simp only [text, List.cons_append, List.append_assoc, List.nil_append, next?, hread, bind,
        Option.bind_some, CodeUnit.join?_map_scalar, Option.map_some, String.ofList_toList]
      rfl
  | bool b => cases b <;> rfl
  | _ => rfl

/-- No blank continues a numeral. -/
theorem ends_of_blank {c : Char} (hblank : isBlank c) (rest : List Char) :
    Numeral.Ends (c :: rest) := by
  intro c' hfirst
  cases hfirst
  simp only [isBlank, Bool.or_eq_true, beq_iff_eq] at hblank
  rcases hblank with ((rfl | rfl) | rfl) | rfl <;> decide

/-- No token begins with a blank. -/
theorem exists_text (t : Token) : ∃ c rest, t.text = c :: rest ∧ isBlank c = false := by
  cases t with
  | num n =>
    obtain ⟨c, rest, hwritten, hfirst⟩ := exists_numeral_text true n
    refine ⟨c, rest, hwritten, Bool.eq_false_iff.2 fun hblank => ?_⟩
    have hends := ends_of_blank hblank rest c rfl
    rcases hfirst with rfl | hdigit
    · exact absurd hblank (by decide)
    · rw [hends.1] at hdigit
      cases hdigit
  | str s => cases s <;> exact ⟨_, _, rfl, rfl⟩
  | bool b => cases b <;> exact ⟨_, _, rfl, rfl⟩
  | _ => exact ⟨_, _, rfl, rfl⟩

/-- Blanks in front of a token are skipped. -/
theorem scan?_blanks {gap : List Char} (hblank : ∀ c ∈ gap, isBlank c) (s : List Char) :
    scan? (gap ++ s) = scan? s := by
  induction gap with
  | nil => rfl
  | cons c gap ih =>
    rw [List.cons_append, scan?, if_pos (hblank c List.mem_cons_self)]
    exact ih fun c hmem => hblank c (List.mem_cons_of_mem _ hmem)

theorem scan?_append (t : Token) {rest : List Char} (hended : t.Ended rest) :
    scan? (t.text ++ rest) = (scan? rest).map (t :: ·) := by
  obtain ⟨c, tail, hwritten, hvisible⟩ := exists_text t
  have hread := next?_append t hended
  rw [hwritten, List.cons_append] at hread ⊢
  rw [scan?, if_neg (by rw [hvisible]; decide)]
  split
  · next h => rw [hread] at h; cases h
  · next h => rw [hread] at h; cases h; rfl

end Reshard.Json.Token
