import Reshard.Json.Text

/-! A text is read back as it was written.

    Every character is written as itself or as an escape that names it, and no written character
    begins like the closing quote. So the reader finds one code unit for each character, and the
    closing quote where the text ends. -/

namespace Reshard.Json

theorem hexValue?_digitChar : ∀ {n : Nat}, n < 16 → hexValue? (Nat.digitChar n) = some n := by
  decide

/-- The escape of a control character by its number. -/
theorem hexUnit?_of_control {c : Char} (hcontrol : c < ' ') :
    hexUnit? '0' '0' (Nat.digitChar (c.toNat / 16)) (Nat.digitChar (c.toNat % 16)) =
      some (.scalar c) := by
  have hsmall : c.toNat < 32 := hcontrol
  have hzero : hexValue? '0' = some 0 := rfl
  have hsplit : 16 * (16 * (16 * 0 + 0) + c.toNat / 16) + c.toNat % 16 = c.toNat := by omega
  have hnumber : CodeUnit.ofNat c.toNat = .scalar c := by
    rw [CodeUnit.ofNat, if_neg (by omega), if_neg (by omega), Char.ofNat_toNat]
  simp only [hexUnit?, hzero, hexValue?_digitChar (by omega : c.toNat / 16 < 16),
    hexValue?_digitChar (Nat.mod_lt c.toNat (by decide)), hsplit, hnumber, bind, Option.bind_some]
  rfl

namespace Text

theorem scan?_of_escaped {e c : Char} (hne : e ≠ 'u') (hnamed : escaped? e = some c)
    (rest : List Char) : scan? ('\\' :: e :: rest) =
      (scan? rest).map fun (units, rest) => (.scalar c :: units, rest) := by
  rw [scan?, hnamed]
  · cases scan? rest <;> rfl
  · exact fun _ _ _ _ _ hsame _ => hne hsame

theorem scan?_of_printed {c : Char} (hquote : c ≠ '"') (hbackslash : c ≠ '\\')
    (hprinted : ¬c < ' ') (rest : List Char) :
    scan? (c :: rest) = (scan? rest).map fun (units, rest) => (.scalar c :: units, rest) := by
  rw [scan?, if_neg hprinted]
  · cases scan? rest <;> rfl
  · exact hquote
  · exact fun _ _ _ _ _ hsame => absurd hsame hbackslash
  · exact fun _ _ hsame => absurd hsame hbackslash

/-- A written character is read as one code unit. -/
theorem scan?_escape_append (c : Char) (rest : List Char) :
    scan? (escape c ++ rest) =
      (scan? rest).map fun (units, rest) => (.scalar c :: units, rest) := by
  unfold escape
  split
  case h_8 hquote hbackslash _ _ _ _ _ =>
    split
    · next hcontrol =>
      simp only [List.cons_append, List.nil_append, scan?, hexUnit?_of_control hcontrol]
      cases scan? rest <;> rfl
    · next hprinted => exact scan?_of_printed hquote hbackslash hprinted rest
  all_goals exact scan?_of_escaped (by decide) rfl rest

/-- A written text is read up to its closing quote. -/
theorem scan?_append (s rest : List Char) :
    scan? (s.flatMap escape ++ '"' :: rest) = some (s.map .scalar, rest) := by
  induction s with
  | nil => rfl
  | cons c s ih => rw [List.flatMap_cons, List.append_assoc, scan?_escape_append, ih]; rfl

end Text

theorem CodeUnit.join?_map_scalar (s : List Char) : join? (s.map scalar) = some s := by
  induction s with
  | nil => rfl
  | cons c s ih => rw [List.map_cons, join?, ih]; rfl

end Reshard.Json
