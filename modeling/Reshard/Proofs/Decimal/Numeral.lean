import Reshard.Decimal.Numeral

/-! A numeral is read back as it was written.

    The reader takes the longest numeral that a text begins with, so a numeral is found again as
    long as what follows cannot continue it: the text ends there, or goes on with a character that
    is no digit, no point and no letter of a power of ten. -/

namespace Reshard

/-- No numeral can be continued with this text. -/
def Numeral.Ends (rest : List Char) : Prop :=
  ∀ c, rest.head? = some c → Digit.ofChar? c = none ∧ c ≠ '.' ∧ c ≠ 'e' ∧ c ≠ 'E'

/-! ### Digits -/

namespace Digit

/-- The digits that spell a number. -/
def spell (n : Nat) : List Digit :=
  if n < 10 then [Fin.ofNat 10 n] else spell (n / 10) ++ [Fin.ofNat 10 n]
termination_by n
decreasing_by omega

theorem toChar_ofNat (n : Nat) : toChar (Fin.ofNat 10 n) = Nat.digitChar (n % 10) := rfl

theorem map_toChar_spell (n : Nat) : (spell n).map toChar = Nat.toDigits 10 n := by
  rw [Nat.toDigits_eq_if (by decide)]
  fun_induction spell n with
  | case1 n hsmall => rw [if_pos hsmall, List.map_singleton, toChar_ofNat, Nat.mod_eq_of_lt hsmall]
  | case2 n hlarge ih =>
    rw [if_neg hlarge, List.map_append, ih, List.map_singleton, toChar_ofNat,
      ← Nat.toDigits_eq_if (by decide)]

theorem value_append (start : Nat) (digits : List Digit) (d : Digit) :
    value start (digits ++ [d]) = 10 * value start digits + d.val := by
  rw [value, List.foldl_append]
  rfl

theorem value_spell (n : Nat) : value 0 (spell n) = n := by
  fun_induction spell n with
  | case1 n hsmall => simp [value, Nat.mod_eq_of_lt hsmall]
  | case2 n hlarge ih =>
    rw [value_append, ih]
    exact Nat.div_add_mod n 10

theorem spell_ne_nil (n : Nat) : spell n ≠ [] := by
  rw [spell]
  split <;> simp

/-- Only zero is spelled with a leading zero. -/
theorem exists_spell {n : Nat} (hpos : 0 < n) : ∃ d rest, spell n = d :: rest ∧ d ≠ 0 := by
  fun_induction spell n with
  | case1 n hsmall =>
    refine ⟨_, [], rfl, fun hzero => ?_⟩
    have := congrArg Fin.val hzero
    simp only [Fin.val_ofNat, Nat.mod_eq_of_lt hsmall] at this
    exact Nat.ne_of_gt hpos this
  | case2 n hlarge ih =>
    obtain ⟨d, rest, hspelled, hnonzero⟩ := ih (by omega)
    exact ⟨d, rest ++ [Fin.ofNat 10 n], by rw [hspelled, List.cons_append], hnonzero⟩

theorem span_append (digits : List Digit) {rest : List Char}
    (hstop : ∀ c, rest.head? = some c → ofChar? c = none) :
    span (digits.map toChar ++ rest) = (digits, rest) := by
  induction digits with
  | nil =>
    cases rest with
    | nil => rfl
    | cons c rest => simp only [List.map_nil, List.nil_append, span, hstop c rfl]
  | cons d digits ih =>
    simp only [List.map_cons, List.cons_append, span, ofChar?_toChar, ih]

theorem span_toDigits (n : Nat) {rest : List Char}
    (hstop : ∀ c, rest.head? = some c → ofChar? c = none) :
    span (Nat.toDigits 10 n ++ rest) = (spell n, rest) := by
  rw [← map_toChar_spell, span_append _ hstop]

end Digit

namespace Numeral

open Digit

theorem Ends.stop {rest : List Char} (hends : Ends rest) :
    ∀ c, rest.head? = some c → ofChar? c = none :=
  fun c hfirst => (hends c hfirst).1

/-! ### Parts of a numeral -/

theorem scanWhole?_append (n : Nat) {rest : List Char}
    (hstop : ∀ c, rest.head? = some c → ofChar? c = none) :
    scanWhole? (Nat.toDigits 10 n ++ rest) = some (n, rest) := by
  rw [scanWhole?, span_toDigits n hstop]
  rcases Nat.eq_zero_or_pos n with rfl | hpos
  · simp [spell, value]
  · obtain ⟨d, digits, hspelled, hnonzero⟩ := exists_spell hpos
    have hread := value_spell n
    rw [hspelled] at hread ⊢
    split
    · next h => cases h
    · next h => cases h; exact absurd rfl hnonzero
    · next h => cases h; rw [hread]

theorem scanFraction?_append (digits : List Digit) {rest : List Char}
    (hstop : ∀ c, rest.head? = some c → ofChar? c = none ∧ c ≠ '.') :
    scanFraction? (fractionText digits ++ rest) = some (digits, rest) := by
  cases digits with
  | nil =>
    simp only [fractionText, List.nil_append]
    unfold scanFraction?
    split
    · exact absurd rfl (hstop '.' rfl).2
    · rfl
  | cons d digits =>
    have hread := span_append (d :: digits) fun c hfirst => (hstop c hfirst).1
    simp only [fractionText, List.cons_append, scanFraction?, hread]

theorem scanPower?_append (negative : Bool) (n : Nat) {rest : List Char}
    (hstop : ∀ c, rest.head? = some c → ofChar? c = none) :
    scanPower? negative (Nat.toDigits 10 n ++ rest) =
      some (some (if negative then -(n : Int) else n), rest) := by
  rw [scanPower?, span_toDigits n hstop]
  split
  · next h => exact absurd (congrArg Prod.fst h) (spell_ne_nil n)
  · next h => cases h; rw [value_spell]

/-- What a number is spelled with is a digit, so it is taken for no sign. -/
theorem scanSign_append (mark : Char) (hmark : ofChar? mark = none) (n : Nat)
    (rest : List Char) :
    scanSign mark (Nat.toDigits 10 n ++ rest) = (false, Nat.toDigits 10 n ++ rest) := by
  obtain ⟨d, digits, hspelled⟩ := List.exists_cons_of_ne_nil (spell_ne_nil n)
  have hother : d.toChar ≠ mark := by
    rintro rfl
    rw [ofChar?_toChar] at hmark
    cases hmark
  rw [← map_toChar_spell, hspelled, List.map_cons, List.cons_append, scanSign, if_neg hother]

theorem scanExponent?_append (plus : Bool) (exponent : Option Int) {rest : List Char}
    (hends : Ends rest) :
    scanExponent? ((exponent.map (exponentText plus)).getD [] ++ rest) = some (exponent, rest) := by
  cases exponent with
  | none =>
    cases rest with
    | nil => rfl
    | cons c rest =>
      have hother := (hends c rfl).2.2
      simp only [Option.map_none, Option.getD_none, List.nil_append, scanExponent?]
      rw [if_neg (by simp [hother])]
  | some e =>
    have hplus (n : Nat) := scanSign_append '+' (by decide) n rest
    have hminus (n : Nat) := scanSign_append '-' (by decide) n rest
    cases e with
    | ofNat n =>
      have hread := scanPower?_append false n hends.stop
      cases plus with
      | true => simp [exponentText, scanExponent?, scanSign, hread]
      | false => simp [exponentText, scanExponent?, hplus, hminus, hread]
    | negSucc n =>
      have hread : scanPower? true (Nat.toDigits 10 (n + 1) ++ rest) =
          some (some (.negSucc n), rest) := scanPower?_append true (n + 1) hends.stop
      simp [exponentText, scanExponent?, scanSign, hread]

/-! ### Whole numerals -/

/-- What follows the whole part is no digit: a point, the letter of a power of ten, or what follows
    the numeral. -/
theorem ends_parts (plus : Bool) (digits : List Digit) (exponent : Option Int) {rest : List Char}
    (hends : Ends rest) :
    (∀ c, (fractionText digits ++ ((exponent.map (exponentText plus)).getD [] ++ rest)).head? =
        some c → ofChar? c = none) ∧
      ∀ c, ((exponent.map (exponentText plus)).getD [] ++ rest).head? = some c →
        ofChar? c = none ∧ c ≠ '.' := by
  have hpower : ∀ c, ((exponent.map (exponentText plus)).getD [] ++ rest).head? = some c →
      ofChar? c = none ∧ c ≠ '.' := by
    intro c hfirst
    rcases exponent with _ | e
    · exact ⟨(hends c hfirst).1, (hends c hfirst).2.1⟩
    · have hletter : c = 'e' := by
        cases e <;> simpa [exponentText, eq_comm] using hfirst
      subst hletter
      decide
  refine ⟨fun c hfirst => ?_, hpower⟩
  cases digits with
  | nil => exact (hpower c hfirst).1
  | cons d digits =>
    have hpoint : c = '.' := by simpa [fractionText, eq_comm] using hfirst
    subst hpoint
    decide

/-- A numeral is read back, and nothing behind it is touched. -/
theorem scan?_append (plus : Bool) (n : Numeral) {rest : List Char} (hends : Ends rest) :
    scan? (n.text plus ++ rest) = some (n, rest) := by
  obtain ⟨negative, whole, fraction, exponent⟩ := n
  obtain ⟨hwhole, hfraction⟩ := ends_parts plus fraction exponent hends
  have hsign : scanSign '-' ((if negative then ['-'] else []) ++ (Nat.toDigits 10 whole ++
      (fractionText fraction ++ ((exponent.map (exponentText plus)).getD [] ++ rest)))) =
      (negative, Nat.toDigits 10 whole ++
        (fractionText fraction ++ ((exponent.map (exponentText plus)).getD [] ++ rest))) := by
    cases negative with
    | true => rfl
    | false => exact scanSign_append '-' (by decide) _ _
  simp only [scan?, text, List.append_assoc, hsign, scanWhole?_append whole hwhole,
    scanFraction?_append fraction hfraction, scanExponent?_append plus exponent hends, bind,
    Option.bind_some]
  rfl

theorem ends_nil : Ends [] := nofun

end Numeral

end Reshard
