import Reshard.Fault

/-! Build settings.

    The settings say whether nodes are merged at all, and from which cost on a pairing counts as
    infeasible. A threshold must be above zero, which an undefined one is not.

    Source: the type `CostGraphConfig` with `validate` (`check`), `normalize` (`clip`) and
    `from_json` (`decode`); specification, E.8. -/

namespace Reshard

/-- The settings under which a cost graph is built. -/
structure Settings (α : Type) where
  simplify : Bool := true
  threshold : Option α := none
deriving BEq, DecidableEq

namespace Settings

variable {α : Type} [Cost α]

/-- A valid threshold is above zero. -/
def Valid (s : Settings α) : Prop := ∀ t ∈ s.threshold, 0 < t

instance decidableValid (s : Settings α) : Decidable s.Valid :=
  inferInstanceAs (Decidable (∀ t ∈ s.threshold, 0 < t))

/-- Checks the threshold. -/
def check (s : Settings α) : Except (Fault α) Unit :=
  match s.threshold with
  | none => .ok ()
  | some t => if 0 < t then .ok () else .error (.threshold t)

/-- A cost as it enters the graph: infeasible from the threshold on. -/
def clip (s : Settings α) (c : α) : α :=
  match s.threshold with
  | none => c
  | some t => if t ≤ c then Cost.infeasible else c

theorem check_eq_ok_iff {s : Settings α} : s.check = .ok () ↔ s.Valid := by
  cases h : s.threshold <;> simp [check, Valid, h]

/-! ### Documents -/

variable [CostFormat α]

/-- The names of the fields; each is optional. -/
def fields : List String := ["simplify", "infeasible_threshold"]

/-- The settings in a document; only a finite threshold is written. -/
def toJson (s : Settings α) : Json :=
  let threshold := (s.threshold >>= Cost.finite?).map CostFormat.numeral
  .ofMembers (fields.zip [.bool s.simplify, threshold.elim .null .num])

/-- Reads settings without checking them. -/
def ofJson? (v : Json) : Option (Settings α) := do
  let [simplify, threshold] ← v.fields? fields 0 | none
  return ⟨← simplify.elim (some true) Json.bool?,
    ← threshold.elim (some none) (Json.optional? Cost.finiteOfJson?)⟩

/-- Writes the document of settings. -/
def encode (s : Settings α) : String := s.toJson.render .compact

/-- Reads the document of settings and checks them. -/
def decode (document : String) : Except (Fault α) (Settings α) :=
  match Json.parse? document >>= ofJson? with
  | none => .error .unreadable
  | some s => do
    s.check
    return s

end Settings

end Reshard
