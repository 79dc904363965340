import Reshard.Json.Value
import Reshard.Proofs.Json.Token

/-! A value is read back as it was written, in every style.

    The automaton that reads values is followed over the characters of a document. Where a value may
    begin, the characters of a written value lead it to the state behind that value; behind an item
    or a member, the characters of the remaining ones lead it behind the whole list or record. The
    two facts are proved together, by induction on the value. -/

namespace Reshard.Json

/-- The gaps of the style hold blanks only. -/
structure Style.Blank (style : Style) : Prop where
  line : ∀ depth, ∀ c ∈ style.line depth, Token.isBlank c
  afterColon : ∀ c ∈ style.afterColon, Token.isBlank c

theorem Style.compact_blank : compact.Blank := ⟨nofun, nofun⟩

theorem Style.indented_blank : indented.Blank where
  line depth c hmem := by
    rcases List.mem_cons.1 hmem with rfl | hmem
    · rfl
    · rw [List.eq_of_mem_replicate hmem]
      rfl
  afterColon c hmem := by
    rw [List.mem_singleton.1 hmem]
    rfl

theorem blank_nil : ∀ c ∈ ([] : List Char), Token.isBlank c := nofun

/-- The characters of a token with the gap in front of it. -/
def Placed.text (p : Placed) : List Char := p.gap ++ p.token.text

/-- The characters of several tokens. -/
def write (placed : List Placed) : List Char := placed.flatMap Placed.text

theorem write_cons (gap : List Char) (t : Token) (placed : List Placed) (rest : List Char) :
    write (⟨gap, t⟩ :: placed) ++ rest = gap ++ (t.text ++ (write placed ++ rest)) := by
  simp only [write, List.flatMap_cons, Placed.text, List.append_assoc]

theorem write_nil (rest : List Char) : write [] ++ rest = rest := rfl

theorem write_append (placed placed' : List Placed) (rest : List Char) :
    write (placed ++ placed') ++ rest = write placed ++ (write placed' ++ rest) := by
  simp only [write, List.flatMap_append, List.append_assoc]

namespace Reading

/-- Where the automaton is when it has read a text. -/
def read? (r : Reading) (s : List Char) : Option Reading := Token.scan? s >>= (·.foldlM step? r)

theorem read?_nil (r : Reading) : r.read? [] = some r := by
  rw [read?, Token.scan?]
  rfl

/-- Reading one token takes one step. -/
theorem read?_cons {r : Reading} (t : Token) (r' : Reading) {gap : List Char}
    {placed : List Placed} {rest : List Char} (hblank : ∀ c ∈ gap, Token.isBlank c)
    (hended : t.Ended (write placed ++ rest)) (hstep : r.step? t = some r') :
    r.read? (write (⟨gap, t⟩ :: placed) ++ rest) = r'.read? (write placed ++ rest) := by
  rw [write_cons, read?, Token.scan?_blanks hblank, Token.scan?_append t hended, read?]
  cases Token.scan? (write placed ++ rest) with
  | none => rfl
  | some tokens => simp only [Option.map_some, bind, Option.bind_some, List.foldlM_cons, hstep]

/-- A value may begin here. -/
def Awaits (r : Reading) (outer : List Frame) : Prop :=
  ∀ t, t ≠ .closeList → r.step? t = begin? outer t

theorem awaits_value (outer : List Frame) : (value outer).Awaits outer := fun _ _ => rfl

theorem awaits_firstItem (outer : List Frame) :
    (firstItem outer).Awaits (.items [] :: outer) := by
  intro t hfurther
  cases t <;> first | rfl | exact absurd rfl hfurther

end Reading

open Reading

/-- A token that no numeral can run on into, with blanks in front of it. -/
theorem ends_write_cons {gap : List Char} (hblank : ∀ c ∈ gap, Token.isBlank c) {t : Token}
    {placed : List Placed} {rest : List Char}
    (hends : Numeral.Ends (t.text ++ (write placed ++ rest))) :
    Numeral.Ends (write (⟨gap, t⟩ :: placed) ++ rest) := by
  rw [write_cons]
  cases gap with
  | nil => exact hends
  | cons c gap => exact Token.ends_of_blank (hblank c List.mem_cons_self) _

theorem ends_layoutItems {style : Style} (hblank : style.Blank) (depth : Nat) (items : List Json)
    (rest : List Char) : Numeral.Ends (write (layoutItems style depth items) ++ rest) := by
  have hcloses (rest : List Char) : Numeral.Ends (']' :: rest) := by rintro c ⟨⟩; decide
  have hgoesOn (rest : List Char) : Numeral.Ends (',' :: rest) := by rintro c ⟨⟩; decide
  cases items with
  | nil => rw [layoutItems]; exact ends_write_cons (hblank.line depth) (hcloses _)
  | cons v items => rw [layoutItems]; exact ends_write_cons blank_nil (hgoesOn _)

theorem ends_layoutMembers {style : Style} (hblank : style.Blank) (depth : Nat)
    (members : List (Option String × Json)) (rest : List Char) :
    Numeral.Ends (write (layoutMembers style depth members) ++ rest) := by
  have hcloses (rest : List Char) : Numeral.Ends ('\x7d' :: rest) := by rintro c ⟨⟩; decide
  have hgoesOn (rest : List Char) : Numeral.Ends (',' :: rest) := by rintro c ⟨⟩; decide
  rcases members with _ | ⟨⟨key, v⟩, members⟩
  · rw [layoutMembers]; exact ends_write_cons (hblank.line depth) (hcloses _)
  · rw [layoutMembers]; exact ends_write_cons blank_nil (hgoesOn _)

mutual

/-- The characters of a value lead behind it. -/
theorem read?_layout {style : Style} (hblank : style.Blank) (depth : Nat) {gap : List Char}
    (hgap : ∀ c ∈ gap, Token.isBlank c) {rest : List Char} (hends : Numeral.Ends rest)
    {r : Reading} {outer : List Frame} (hawaits : r.Awaits outer) : ∀ v : Json,
    r.read? (write (layout style depth gap v) ++ rest) = (after v outer).read? rest
  | .null => read?_cons .null _ hgap trivial (hawaits .null nofun)
  | .bool b => read?_cons (.bool b) _ hgap trivial (hawaits (.bool b) nofun)
  | .num n => read?_cons (.num n) _ hgap hends (hawaits (.num n) nofun)
  | .str s => read?_cons (.str s) _ hgap trivial (hawaits (.str s) nofun)
  | .list [] => by
    rw [layout, read?_cons .openList _ hgap trivial (hawaits .openList nofun),
      read?_cons .closeList _ blank_nil trivial rfl, write_nil]
  | .list (v :: items) => by
    rw [layout, List.cons_append,
      read?_cons .openList _ hgap trivial (hawaits .openList nofun), write_append,
      read?_layout hblank _ (hblank.line _) (ends_layoutItems hblank _ _ _) (awaits_firstItem _) v,
      read?_layoutItems hblank depth v [] outer items]
    rfl
  | .record [] => by
    rw [layout, read?_cons .openRecord _ hgap trivial (hawaits .openRecord nofun),
      read?_cons .closeRecord _ blank_nil trivial rfl, write_nil]
  | .record ((key, v) :: members) => by
    rw [layout, List.cons_append, List.cons_append, List.cons_append,
      read?_cons .openRecord _ hgap trivial (hawaits .openRecord nofun),
      read?_cons (.str key) _ (hblank.line _) trivial rfl,
      read?_cons .colon _ blank_nil trivial rfl, write_append,
      read?_layout hblank _ hblank.afterColon (ends_layoutMembers hblank _ _ _) (awaits_value _) v,
      read?_layoutMembers hblank depth key v [] outer members]
    rfl

/-- The characters of the further items of a list lead behind the list. -/
theorem read?_layoutItems {style : Style} (hblank : style.Blank) (depth : Nat) {rest : List Char}
    (v : Json) (before : List Json) (outer : List Frame) : ∀ items : List Json,
    (after v (.items before :: outer)).read? (write (layoutItems style depth items) ++ rest) =
      (after (.list ((v :: before).reverse ++ items)) outer).read? rest
  | [] => by
    rw [layoutItems, List.append_nil, read?_cons .closeList _ (hblank.line depth) trivial rfl,
      write_nil]
  | w :: items => by
    rw [layoutItems, List.cons_append, read?_cons .comma _ blank_nil trivial rfl, write_append,
      read?_layout hblank _ (hblank.line _) (ends_layoutItems hblank _ _ _) (awaits_value _) w,
      read?_layoutItems hblank depth w (v :: before) outer items]
    simp only [List.reverse_cons, List.append_assoc, List.cons_append, List.nil_append]

/-- The characters of the further members of a record lead behind the record. -/
theorem read?_layoutMembers {style : Style} (hblank : style.Blank) (depth : Nat) {rest : List Char}
    (key : Option String) (v : Json) (before : List (Option String × Json)) (outer : List Frame) :
    ∀ members : List (Option String × Json),
    (after v (.member before key :: outer)).read?
        (write (layoutMembers style depth members) ++ rest) =
      (after (.record (((key, v) :: before).reverse ++ members)) outer).read? rest
  | [] => by
    rw [layoutMembers, List.append_nil, read?_cons .closeRecord _ (hblank.line depth) trivial rfl,
      write_nil]
  | (key', w) :: members => by
    rw [layoutMembers, List.cons_append, List.cons_append, List.cons_append,
      read?_cons .comma _ blank_nil trivial rfl,
      read?_cons (.str key') _ (hblank.line _) trivial rfl,
      read?_cons .colon _ blank_nil trivial rfl, write_append,
      read?_layout hblank _ hblank.afterColon (ends_layoutMembers hblank _ _ _) (awaits_value _) w,
      read?_layoutMembers hblank depth key' w ((key, v) :: before) outer members]
    simp only [List.reverse_cons, List.append_assoc, List.cons_append, List.nil_append]

end

/-- A written value is read back. -/
theorem parse?_render {style : Style} (hblank : style.Blank) (v : Json) :
    parse? (v.render style) = some v := by
  have hread := read?_layout hblank 0 blank_nil Numeral.ends_nil (awaits_value []) v
  rw [List.append_nil, read?_nil] at hread
  obtain ⟨tokens, hscanned, hfolded⟩ := Option.bind_eq_some_iff.1 hread
  rw [parse?, render, String.toList_ofList]
  show Token.scan? (write (layout style 0 [] v)) >>= ofTokens? = some v
  rw [hscanned]
  simp only [bind, Option.bind_some, ofTokens?, hfolded]

end Reshard.Json
