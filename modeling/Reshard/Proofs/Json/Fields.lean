import Mathlib.Data.List.Nodup
import Reshard.Json.Fields
import Reshard.Proofs.Outcome

/-! Records and lists are read back as they were written.

    A record is written with its fields in their order, each once, so it has every field and no
    other. A list is read item by item. A place in a value is a path of keys and positions, and what
    stands there decides where a document holds null. -/

namespace Reshard.Json

/-! ### Records -/

theorem named?_map (members : List (String × Json)) :
    named? (members.map fun (key, value) => (some key, value)) = some members := by
  rw [named?, mapM_some_iff, List.forall₂_map_left_iff]
  exact List.forall₂_same.2 fun _ _ => rfl

/-- Where no key is repeated, each key is looked up to its own value. -/
theorem lookup_eq_some_iff_mem {κ ν : Type} [BEq κ] [LawfulBEq κ] {key : κ} {value : ν} :
    ∀ {members : List (κ × ν)}, (members.map Prod.fst).Nodup →
      (members.lookup key = some value ↔ (key, value) ∈ members)
  | [], _ => ⟨nofun, nofun⟩
  | (key', value') :: members, hdistinct => by
    obtain ⟨hfresh, hothers⟩ := List.nodup_cons.1 hdistinct
    rw [List.lookup_cons, List.mem_cons, Prod.mk.injEq, ← lookup_eq_some_iff_mem hothers]
    by_cases hsame : key = key'
    · subst hsame
      have habsent : members.lookup key ≠ some value := fun hfound =>
        hfresh (List.mem_map.2 ⟨_, (lookup_eq_some_iff_mem hothers).1 hfound, rfl⟩)
      simp [habsent, eq_comm]
    · simp [hsame, beq_eq_false_iff_ne.2 hsame]

variable {names : List String} {values : List Json}

theorem map_fst_zip (hsame : names.length = values.length) :
    (names.zip values).map Prod.fst = names :=
  List.map_fst_zip (Nat.le_of_eq hsame)

theorem map_lookup_zip (hdistinct : names.Nodup) (hsame : names.length = values.length) :
    (names.map fun name => (names.zip values).lookup name) = values.map some := by
  refine List.ext_getElem (by simpa using hsame) fun i hi hi' => ?_
  rw [List.getElem_map, List.getElem_map,
    lookup_eq_some_iff_mem ((map_fst_zip hsame).symm ▸ hdistinct)]
  exact List.mem_iff_getElem.2 ⟨i, by simp_all, by simp⟩

/-- A written record has the fields that were written. -/
theorem fields?_ofMembers (hdistinct : names.Nodup) (hsame : names.length = values.length)
    (least : Nat) :
    (ofMembers (names.zip values)).fields? names least = some (values.map some) := by
  have honce : ∀ name ∈ names, ((names.zip values).filter (·.1 == name)).length ≤ 1 := by
    intro name _
    have hcount := List.nodup_iff_count_le_one.1 hdistinct name
    rw [← map_fst_zip hsame, List.count, List.countP_map, List.countP_eq_length_filter] at hcount
    exact hcount
  simp only [ofMembers, fields?, named?_map, bind, Option.bind_some, guard, if_pos honce,
    map_lookup_zip hdistinct hsame]
  rfl

/-! ### Lists -/

variable {β : Type} {read? : Json → Option β} {items : List β}

theorem items?_map {write : β → Json} (hback : ∀ x ∈ items, read? (write x) = some x) :
    (list (items.map write)).items? read? = some items := by
  rw [items?, mapM_some_iff, List.forall₂_map_left_iff]
  exact List.forall₂_same.2 hback

theorem items?_of_forall₂ {R : β → Json → Prop} {values : List Json}
    (hwritten : List.Forall₂ R items values)
    (hback : ∀ x ∈ items, ∀ v, R x v → read? v = some x) :
    (list values).items? read? = some items := by
  rw [items?, mapM_some_iff]
  have hboth := (List.forall₂_and_left _ _).2 ⟨hback, hwritten⟩
  exact (hboth.imp fun _ _ h => h.1 _ h.2).flip

/-- Each item was read from some value. -/
theorem exists_of_mem_items? {v : Json} (hread : v.items? read? = some items) {x : β}
    (hmem : x ∈ items) : ∃ w, read? w = some x := by
  cases v with
  | list values => exact ((mem_of_mapM_some hread).1 hmem).imp fun _ => And.right
  | _ => cases hread

/-! ### Counts -/

theorem count?_nat {n : Nat} (hsmall : n ≤ maxCount) : (nat n).count? = some n := by
  simp [nat, count?, Numeral.ofNat, Numeral.natural?, hsmall]

theorem le_of_count? {v : Json} {n : Nat} (hread : v.count? = some n) : n ≤ maxCount := by
  unfold count? at hread
  split at hread
  · exact of_decide_eq_true (Option.filter_eq_some_iff.1 hread).2
  · cases hread

/-! ### Places -/

/-- A step into a list or a record. -/
inductive Step
  | item (position : Nat)
  | member (key : String)
deriving DecidableEq

/-- The value a step leads to. -/
def step? : Json → Step → Option Json
  | .list items, .item position => items[position]?
  | .record members, .member key => members.lookup (some key)
  | _, _ => none

/-- The value at the end of a path. -/
def at? (v : Json) (path : List Step) : Option Json := path.foldlM step? v

/-- The path leads to null. -/
def NullAt (v : Json) (path : List Step) : Prop := v.at? path = some .null

section NullAt

variable {v : Json} {step : Step} {path : List Step}

theorem nullAt_cons_iff : v.NullAt (step :: path) ↔ ∃ w, v.step? step = some w ∧ w.NullAt path := by
  rw [NullAt, at?, List.foldlM_cons, Option.bind_eq_bind, Option.bind_eq_some_iff]
  rfl

@[simp] theorem nullAt_null_iff : null.NullAt path ↔ path = [] := by
  cases path with
  | nil => exact ⟨fun _ => rfl, fun _ => rfl⟩
  | cons step path => exact ⟨nofun, nofun⟩

@[simp] theorem not_nullAt_num {n : Numeral} : ¬ (num n).NullAt path := by
  cases path <;> nofun

@[simp] theorem not_nullAt_text {s : String} : ¬ (text s).NullAt path := by
  cases path <;> nofun

@[simp] theorem not_nullAt_bool {b : Bool} : ¬ (bool b).NullAt path := by
  cases path <;> nofun

/-- Null in a list is null in one of its items. -/
theorem nullAt_list_iff {values : List Json} : (list values).NullAt path ↔
    ∃ i w path', path = .item i :: path' ∧ values[i]? = some w ∧ w.NullAt path' := by
  constructor
  · intro h
    rcases path with _ | ⟨step, path⟩
    · cases h
    · obtain ⟨w, hfound, hends⟩ := nullAt_cons_iff.1 h
      cases step with
      | item i => exact ⟨i, w, path, rfl, hfound, hends⟩
      | member key => cases hfound
  · rintro ⟨i, w, path', rfl, hfound, h⟩
    exact nullAt_cons_iff.2 ⟨w, hfound, h⟩

/-- Where the items were written from others, null in the list is traced to one of these. -/
theorem nullAt_list_of_forall₂ {R : β → Json → Prop} {P : β → List Step → Prop}
    {values : List Json} (hwritten : List.Forall₂ R items values)
    (hnull : ∀ x v, R x v → ∀ path, v.NullAt path ↔ P x path) (path : List Step) :
    (list values).NullAt path ↔
      ∃ i x path', path = .item i :: path' ∧ items[i]? = some x ∧ P x path' := by
  rw [nullAt_list_iff]
  have hsame := hwritten.length_eq
  constructor
  · rintro ⟨i, w, path', rfl, hfound, hends⟩
    obtain ⟨hi, rfl⟩ := List.getElem?_eq_some_iff.1 hfound
    exact ⟨i, _, path', rfl, List.getElem?_eq_getElem (hsame ▸ hi),
      (hnull _ _ (hwritten.get (hsame ▸ hi) hi) path').1 hends⟩
  · rintro ⟨i, x, path', rfl, hfound, hends⟩
    obtain ⟨hi, rfl⟩ := List.getElem?_eq_some_iff.1 hfound
    exact ⟨i, _, path', rfl, List.getElem?_eq_getElem (hsame ▸ hi),
      (hnull _ _ (hwritten.get hi (hsame ▸ hi)) path').2 hends⟩

theorem not_nullAt_list_map {write : β → Json} (hproper : ∀ x path, ¬ (write x).NullAt path) :
    ¬ (list (items.map write)).NullAt path := by
  intro h
  obtain ⟨i, w, path', -, hfound, hends⟩ := nullAt_list_iff.1 h
  rw [List.getElem?_map, Option.map_eq_some_iff] at hfound
  obtain ⟨x, -, rfl⟩ := hfound
  exact hproper x path' hends

/-- Null in a record is null in one of its members. -/
theorem nullAt_ofMembers_iff (hdistinct : names.Nodup) (hsame : names.length = values.length) :
    (ofMembers (names.zip values)).NullAt path ↔ ∃ key w path', path = .member key :: path' ∧
      (key, w) ∈ names.zip values ∧ w.NullAt path' := by
  have hfound {key : String} {w : Json} : (ofMembers (names.zip values)).step? (.member key) =
      some w ↔ (key, w) ∈ names.zip values := by
    have htexts : ((names.zip values).map fun (key, value) => (some key, value)).map Prod.fst =
        names.map some := by
      conv => rhs; rw [← map_fst_zip hsame]
      simp only [List.map_map]
      rfl
    rw [ofMembers, step?,
      lookup_eq_some_iff_mem (htexts ▸ hdistinct.map fun _ _ => Option.some.inj)]
    simp
  constructor
  · intro h
    rcases path with _ | ⟨step, path⟩
    · cases h
    · obtain ⟨w, hleads, hends⟩ := nullAt_cons_iff.1 h
      cases step with
      | item i => cases hleads
      | member key => exact ⟨key, w, path, rfl, hfound.1 hleads, hends⟩
  · rintro ⟨key, w, path', rfl, hmem, h⟩
    exact nullAt_cons_iff.2 ⟨w, hfound.2 hmem, h⟩

/-- Null in a record of which one member only can hold null. -/
theorem nullAt_ofMembers_of_forall (hdistinct : names.Nodup) (hsame : names.length = values.length)
    {key : String} {w : Json} (hmem : (key, w) ∈ names.zip values)
    (hothers : ∀ p ∈ names.zip values, p.1 ≠ key → ∀ path, ¬ p.2.NullAt path) :
    (ofMembers (names.zip values)).NullAt path ↔
      ∃ path', path = .member key :: path' ∧ w.NullAt path' := by
  rw [nullAt_ofMembers_iff hdistinct hsame]
  constructor
  · rintro ⟨key', w', path', rfl, hmem', hends⟩
    by_cases hother : key' = key
    · subst hother
      have hkeys := (map_fst_zip hsame).symm ▸ hdistinct
      have hunique := ((lookup_eq_some_iff_mem hkeys).2 hmem').symm.trans
        ((lookup_eq_some_iff_mem hkeys).2 hmem)
      exact ⟨path', rfl, Option.some.inj hunique ▸ hends⟩
    · exact absurd hends (hothers _ hmem' hother path')
  · rintro ⟨path', rfl, hends⟩
    exact ⟨key, w, path', rfl, hmem, hends⟩

end NullAt

end Reshard.Json
