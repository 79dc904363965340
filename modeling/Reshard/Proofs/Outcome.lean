import Mathlib.Data.List.Forall2
import Reshard.Fault

/-! Success and faults of sequenced operations.

    An operation that can fail is a chain of steps, and it succeeds exactly when each step does; its
    fault is that of the first step that does not. The lemmas below take such a chain apart, for
    operations that name a fault (`Except`) and for those that do not (`Option`). A traversal
    (`mapM`) succeeds exactly when its results match the inputs one by one. -/

namespace Reshard

variable {ε α β : Type}

/-- Each item of a list has a match if some list matches it item by item. -/
theorem exists_forall₂_iff {R : α → β → Prop} : ∀ {l : List α},
    (∃ results, List.Forall₂ R l results) ↔ ∀ a ∈ l, ∃ b, R a b
  | [] => ⟨fun _ => nofun, fun _ => ⟨[], .nil⟩⟩
  | a :: l => by
    simp only [List.forall_mem_cons, ← exists_forall₂_iff (l := l), List.forall₂_cons_left_iff]
    constructor
    · rintro ⟨_, b, rest, ha, hrest, -⟩
      exact ⟨⟨b, ha⟩, rest, hrest⟩
    · rintro ⟨⟨b, ha⟩, rest, hrest⟩
      exact ⟨_, b, rest, ha, hrest, rfl⟩

/-- A result that is made of matches exists if each item has a match. -/
theorem exists_of_forall₂_iff {γ : Type} {R : α → β → Prop} {f : List β → γ} {l : List α} :
    (∃ c, ∃ results, List.Forall₂ R l results ∧ f results = c) ↔ ∀ a ∈ l, ∃ b, R a b := by
  rw [exists_comm]
  simp only [exists_and_left, exists_eq', and_true, exists_forall₂_iff]

/-- Matches that are mapped further are the mapped ones of some list of matches. -/
theorem forall₂_map_iff {γ : Type} {R : α → β → Prop} {f : β → γ} :
    ∀ {l : List α} {results : List γ},
      List.Forall₂ (fun a c => ∃ b, R a b ∧ f b = c) l results ↔
        ∃ matched, List.Forall₂ R l matched ∧ matched.map f = results
  | [], results => by simp [eq_comm]
  | a :: l, results => by
    simp only [List.forall₂_cons_left_iff, forall₂_map_iff (l := l)]
    constructor
    · rintro ⟨_, _, ⟨b, hb, rfl⟩, ⟨rest, hrest, rfl⟩, rfl⟩
      exact ⟨b :: rest, ⟨b, rest, hb, hrest, rfl⟩, rfl⟩
    · rintro ⟨_, ⟨b, rest, hb, hrest, rfl⟩, rfl⟩
      exact ⟨f b, rest.map f, ⟨b, hb, rfl⟩, ⟨rest, hrest, rfl⟩, rfl⟩

/-! ### Steps that name a fault -/

@[simp] theorem bind_ok_iff {first : Except ε α} {next : α → Except ε β} {b : β} :
    (first >>= next) = .ok b ↔ ∃ a, first = .ok a ∧ next a = .ok b := by
  rcases first with fault | a
  · exact ⟨nofun, fun ⟨_, h, _⟩ => nomatch h⟩
  · exact ⟨fun h => ⟨a, rfl, h⟩, fun ⟨_, rfl, h⟩ => h⟩

@[simp] theorem pure_ok_iff {a b : α} : (pure a : Except ε α) = .ok b ↔ a = b :=
  ⟨Except.ok.inj, congrArg Except.ok⟩

theorem map_ok_iff {outcome : Except ε α} {f : α → β} {b : β} :
    outcome.map f = .ok b ↔ ∃ a, outcome = .ok a ∧ f a = b := by
  cases outcome <;> simp [Except.map]

theorem map_error_iff {outcome : Except ε α} {f : α → β} {fault : ε} :
    outcome.map f = .error fault ↔ outcome = .error fault := by
  cases outcome <;> simp [Except.map]

theorem toOption_eq_some_iff {outcome : Except ε α} {a : α} :
    outcome.toOption = some a ↔ outcome = .ok a := by
  cases outcome <;> simp [Except.toOption]

/-- A result that was found to have a property has it. -/
theorem exists_of_any {outcome : Except ε α} {P : α → Prop} [DecidablePred P]
    (h : outcome.toOption.any fun a => decide (P a)) : ∃ a, outcome = .ok a ∧ P a := by
  rcases outcome with fault | a
  · cases h
  · exact ⟨a, rfl, of_decide_eq_true h⟩

theorem of_any {outcome : Except ε α} {a : α} {P : α → Prop} [DecidablePred P]
    (h : outcome.toOption.any fun a => decide (P a)) (ha : outcome = .ok a) : P a := by
  subst ha
  exact of_decide_eq_true h

/-- A guard is passed exactly when its condition holds. -/
@[simp] theorem guard_ok_iff {p : Prop} [Decidable p] {fault : ε} {u : Unit} :
    (if p then pure () else throw fault : Except ε Unit) = .ok u ↔ p := by
  by_cases hp : p
  · rw [if_pos hp]; exact ⟨fun _ => hp, fun _ => rfl⟩
  · rw [if_neg hp]; exact ⟨nofun, fun h => absurd h hp⟩

/-- What follows a guard succeeds exactly when the guard is passed and the rest succeeds. -/
@[simp] theorem guarded_ok_iff {p : Prop} [Decidable p] {fault : ε} {next : Unit → Except ε β}
    {rest : Except ε β} {b : β} :
    (if p then rest else throw fault >>= next) = .ok b ↔ p ∧ rest = .ok b := by
  by_cases hp : p
  · rw [if_pos hp, and_iff_right hp]
  · rw [if_neg hp]; exact ⟨nofun, fun h => absurd h.1 hp⟩

theorem Fault.require_ok_iff {fault : Fault α} {found : Option β} {value : β} :
    Fault.require fault found = .ok value ↔ found = some value := by
  cases found <;> simp [Fault.require]

/-- A fault of two steps is one of the first, or one of the second after the first. -/
theorem bind_error_iff {first : Except ε α} {next : α → Except ε β} {fault : ε} :
    (first >>= next) = .error fault ↔
      first = .error fault ∨ ∃ a, first = .ok a ∧ next a = .error fault := by
  rcases first with fault' | a
  · exact ⟨fun h => .inl (congrArg Except.error (Except.error.inj h)),
      fun h => h.elim (fun h => congrArg Except.error (Except.error.inj h)) nofun⟩
  · exact ⟨fun h => .inr ⟨a, rfl, h⟩, fun h => h.elim nofun fun ⟨_, rfl, h⟩ => h⟩

theorem guarded_error_iff {p : Prop} [Decidable p] {fault fault' : ε} {next : Unit → Except ε β}
    {rest : Except ε β} : (if p then rest else throw fault >>= next) = .error fault' ↔
      (¬ p ∧ fault = fault') ∨ (p ∧ rest = .error fault') := by
  by_cases hp : p
  · simp [hp]
  · simp only [hp, if_false, not_false_eq_true, true_and, false_and, or_false]
    exact ⟨Except.error.inj, congrArg Except.error⟩

theorem guard_error_iff {p : Prop} [Decidable p] {fault fault' : ε} :
    (if p then pure () else throw fault : Except ε Unit) = .error fault' ↔
      ¬ p ∧ fault = fault' := by
  by_cases hp : p
  · rw [if_pos hp]
    exact ⟨nofun, fun h => absurd hp h.1⟩
  · rw [if_neg hp, and_iff_right hp]
    exact ⟨Except.error.inj, congrArg Except.error⟩

theorem Fault.require_error_iff {fault fault' : Fault α} {found : Option β} :
    Fault.require fault found = .error fault' ↔ found = none ∧ fault = fault' := by
  cases found <;> simp [Fault.require]

/-- A fault of a traversal is one of its steps. -/
theorem exists_of_mapM_error {f : α → Except ε β} {fault : ε} : ∀ {l : List α},
    l.mapM f = .error fault → ∃ a ∈ l, f a = .error fault
  | [], h => nomatch h
  | a :: l, h => by
    rw [List.mapM_cons, bind_error_iff] at h
    rcases h with h | ⟨b, -, h⟩
    · exact ⟨a, List.mem_cons_self, h⟩
    · rw [bind_error_iff] at h
      rcases h with h | ⟨rest, -, h⟩
      · obtain ⟨a, ha, hf⟩ := exists_of_mapM_error h
        exact ⟨a, List.mem_cons_of_mem _ ha, hf⟩
      · cases h

theorem mapM_ok_iff {f : α → Except ε β} : ∀ {l : List α} {results : List β},
    l.mapM f = .ok results ↔ List.Forall₂ (fun a b => f a = .ok b) l results
  | [], results => by
    rw [List.mapM_nil, pure_ok_iff, List.forall₂_nil_left_iff, eq_comm]
  | a :: l, results => by
    rw [List.mapM_cons, List.forall₂_cons_left_iff]
    simp only [bind_ok_iff, pure_ok_iff, mapM_ok_iff (l := l)]
    constructor
    · rintro ⟨b, hb, rest, hrest, rfl⟩; exact ⟨b, rest, hb, hrest, rfl⟩
    · rintro ⟨b, rest, hb, hrest, rfl⟩; exact ⟨b, hb, rest, hrest, rfl⟩

theorem exists_mapM_ok {f : α → Except ε β} {l : List α} (h : ∀ a ∈ l, ∃ b, f a = .ok b) :
    ∃ results, l.mapM f = .ok results :=
  (exists_forall₂_iff.2 h).imp fun _ => mapM_ok_iff.2

theorem forM_ok_iff {f : α → Except ε Unit} {u : Unit} : ∀ {l : List α},
    l.forM f = .ok u ↔ ∀ a ∈ l, f a = .ok ()
  | [] => ⟨fun _ => nofun, fun _ => rfl⟩
  | a :: l => by
    rw [List.forall_mem_cons, ← forM_ok_iff]
    exact bind_ok_iff.trans ⟨fun ⟨_, h⟩ => h, fun h => ⟨_, h⟩⟩

/-- A fault of a loop is one of its steps. -/
theorem exists_of_forM_error {f : α → Except ε Unit} {fault : ε} : ∀ {l : List α},
    l.forM f = .error fault → ∃ a ∈ l, f a = .error fault
  | [], h => nomatch h
  | a :: l, h => by
    have hsteps : (f a >>= fun _ => l.forM f) = .error fault := h
    rcases bind_error_iff.1 hsteps with h | ⟨_, -, h⟩
    · exact ⟨a, List.mem_cons_self, h⟩
    · obtain ⟨a, ha, hf⟩ := exists_of_forM_error h
      exact ⟨a, List.mem_cons_of_mem _ ha, hf⟩

/-! ### Steps without a reason -/

theorem mapM_some_iff {f : α → Option β} : ∀ {l : List α} {results : List β},
    l.mapM f = some results ↔ List.Forall₂ (fun a b => f a = some b) l results
  | [], results => by
    rw [List.mapM_nil, Option.pure_def, Option.some.injEq, List.forall₂_nil_left_iff, eq_comm]
  | a :: l, results => by
    rw [List.mapM_cons, List.forall₂_cons_left_iff]
    simp only [Option.bind_eq_bind, Option.bind_eq_some_iff, Option.pure_def, Option.some.injEq,
      mapM_some_iff (l := l)]
    constructor
    · rintro ⟨b, hb, rest, hrest, rfl⟩; exact ⟨b, rest, hb, hrest, rfl⟩
    · rintro ⟨b, rest, hb, hrest, rfl⟩; exact ⟨b, hb, rest, hrest, rfl⟩

theorem mem_of_mapM_some {f : α → Option β} {l : List α} {results : List β} {b : β}
    (h : l.mapM f = some results) : b ∈ results ↔ ∃ a ∈ l, f a = some b := by
  rw [mapM_some_iff] at h
  induction h with
  | nil => simp
  | @cons a _ l _ ha _ ih =>
    rw [List.mem_cons, ih]
    constructor
    · rintro (rfl | ⟨a', ha', hb⟩)
      · exact ⟨a, List.mem_cons_self, ha⟩
      · exact ⟨a', List.mem_cons_of_mem _ ha', hb⟩
    · rintro ⟨a', ha', hb⟩
      rcases List.mem_cons.1 ha' with rfl | ha'
      · exact .inl (Option.some.inj (hb.symm.trans ha))
      · exact .inr ⟨a', ha', hb⟩

theorem getElem?_of_mapM_some {f : α → Option β} {l : List α} {results : List β}
    (h : l.mapM f = some results) (k : Nat) : results[k]? = l[k]?.bind f := by
  rw [mapM_some_iff] at h
  have hlen := h.length_eq
  by_cases hk : k < l.length
  · have hget := h.get hk (hlen ▸ hk)
    rw [List.getElem?_eq_getElem (hlen ▸ hk), List.getElem?_eq_getElem hk]
    exact hget.symm
  · rw [List.getElem?_eq_none (hlen ▸ Nat.le_of_not_lt hk),
      List.getElem?_eq_none (Nat.le_of_not_lt hk)]
    rfl

theorem mapM_some_of_getElem? {f : α → Option β} {l : List α} {results : List β}
    (hlen : l.length = results.length)
    (h : ∀ (k : Nat) (a : α), l[k]? = some a → f a = results[k]?) :
    l.mapM f = some results := by
  rw [mapM_some_iff, List.forall₂_iff_get]
  refine ⟨hlen, ?_⟩
  intro k hk hk'
  exact (h k _ (List.getElem?_eq_getElem hk)).trans (List.getElem?_eq_getElem hk')

theorem exists_mapM_some {f : α → Option β} {l : List α} (h : ∀ a ∈ l, ∃ b, f a = some b) :
    ∃ results, l.mapM f = some results :=
  (exists_forall₂_iff.2 h).imp fun _ => mapM_some_iff.2

/-- Results of a traversal with positions, one by one. -/
theorem mapM_zipIdx_eq_some {f : α → Nat → Option β} {l : List α} {results : List β}
    (h : (l.zipIdx.mapM fun p => f p.1 p.2) = some results) :
    results.length = l.length ∧ ∀ i a, l[i]? = some a → results[i]? = f a i := by
  rw [mapM_some_iff] at h
  have hlen : l.length = results.length := List.length_zipIdx.symm.trans h.length_eq
  refine ⟨hlen.symm, ?_⟩
  intro i a ha
  obtain ⟨hi, rfl⟩ := List.getElem?_eq_some_iff.1 ha
  have hpair := h.get (i := i) (by rwa [List.length_zipIdx]) (hlen ▸ hi)
  rw [List.getElem?_eq_getElem (hlen ▸ hi), eq_comm]
  simpa using hpair

end Reshard
