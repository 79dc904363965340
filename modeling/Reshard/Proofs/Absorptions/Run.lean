import Mathlib.Data.Fintype.Card
import Mathlib.Data.List.Infix
import Reshard.Proofs.Absorptions.Complete

/-! Records made by any updates.

    A caller enters nodes in any order, also in place of earlier entries, and resolves in between.
    Resolving stops at the first chain that does not end, and the resolved entries made up to there
    stay. As long as maps can be composed, each update keeps the resolved entries right
    (`right_run`), so that what a record answers depends on its entries and not on which of them are
    resolved (`faithful_run`). -/

namespace Reshard.Absorptions

variable {α : Type} {entries : Std.ExtTreeMap NodeId Absorption} {node root : NodeId}
  {outer : Option (List Nat)} {a b : Absorptions}

/-! ### Endless chains -/

/-- A chain that ends does not lead back to its start. -/
theorem Ends.not_transGen (h : Ends entries node) :
    ¬ Relation.TransGen (Into entries) node node := by
  induction h with
  | here hnode =>
    intro hround
    obtain ⟨next, ⟨entry, hentry, -⟩, -⟩ := Relation.TransGen.head'_iff.1 hround
    cases hnode.symm.trans hentry
  | into hentry _ ih =>
    intro hround
    obtain ⟨next, ⟨entry', hentry', rfl⟩, hrest⟩ := Relation.TransGen.head'_iff.1 hround
    cases hentry.symm.trans hentry'
    exact ih (.tail' hrest ⟨_, hentry, rfl⟩)

/-- There are only so many nodes, so a chain without an end runs into a circle. -/
theorem forall_ends_iff :
    (∀ n, Ends entries n) ↔ ∀ n, ¬ Relation.TransGen (Into entries) n n := by
  refine ⟨fun h n => (h n).not_transGen, fun h => ?_⟩
  have : Std.Irrefl (Relation.TransGen (flip (Into entries))) :=
    ⟨fun n hround => h n (Relation.transGen_swap.1 hround)⟩
  have hwf : WellFounded (Relation.TransGen (flip (Into entries))) :=
    Finite.wellFounded_of_trans_of_irrefl _
  intro n
  induction n using hwf.induction with
  | _ n ih =>
    cases hentry : entries[n]? with
    | none => exact .here hentry
    | some entry => exact .into hentry (ih _ (.single ⟨entry, hentry, rfl⟩))

/-- The chain of `node` ends at `root`. -/
def EndsAt (entries : Std.ExtTreeMap NodeId Absorption) (root node : NodeId) : Prop :=
  entries[root]? = none ∧ Relation.ReflTransGen (Into entries) node root

theorem endsAt_iff (hmaps : Composable entries) :
    EndsAt entries root node ↔ ∃ outer, LeadsTo entries root node outer := by
  constructor
  · rintro ⟨hroot, hpath⟩
    induction hpath using Relation.ReflTransGen.head_induction_on with
    | refl => exact ⟨none, .here hroot⟩
    | head hstep _ ih =>
      obtain ⟨entry, hentry, rfl⟩ := hstep
      obtain ⟨outer, houter⟩ := ih
      obtain ⟨map, hmap⟩ := houter.exists_compose? hmaps hentry
      exact ⟨some map, .into hentry houter hmap⟩
  · rintro ⟨outer, houter⟩
    exact ⟨houter.root_notMem, houter.reflTransGen⟩

theorem representative_eq_ok_iff (hmaps : Composable a.entries) (h : Right a.entries a.resolved) :
    a.representative (α := α) node = .ok root ↔ EndsAt a.entries root node := by
  rw [endsAt_iff hmaps]
  by_cases hends : Ends a.entries node
  · exact representative_ok_iff hmaps h hends
  · rw [(representative_error_iff hmaps h).2 ⟨hends, rfl⟩]
    constructor
    · intro hroot
      cases hroot
    · rintro ⟨outer, houter⟩
      exact absurd houter.ends hends

/-! ### Resolved entries -/

/-- The entry leads to the end of the chain of `node` in one step: it maps each strategy there as
    the entries along the chain do one by one. -/
structure Shortens (entries : Std.ExtTreeMap NodeId Absorption) (node : NodeId)
    (entry : Absorption) : Prop where
  root : entries[entry.into]? = none
  strategy?_eq : ∃ passed, Follows entries entry.into node passed ∧
    ∀ chosen, entry.strategy? chosen = applyAll passed (some chosen)

/-- The composed map of a chain is the entries' maps applied one by one. -/
theorem LeadsTo.exists_applyAll (h : LeadsTo entries root node outer) :
    ∃ passed, Follows entries root node passed ∧
      ∀ chosen, outer.elim (some chosen) (·[chosen]?) = applyAll passed (some chosen) := by
  induction h with
  | here => exact ⟨[], rfl, fun _ => rfl⟩
  | @into node entry outer map hentry _ hmap ih =>
    obtain ⟨passed, hpassed, hsame⟩ := ih
    refine ⟨(node, entry) :: passed, ⟨rfl, hentry, hpassed⟩, fun chosen => ?_⟩
    calc map[chosen]?
        = (outer.elim (some chosen) (·[chosen]?)).bind (entry.map[·]?) :=
          getElem?_of_compose? hmap chosen
      _ = (applyAll passed (some chosen)).bind entry.strategy? := by rw [hsame]; rfl

theorem Right.shortens {resolved : Std.ExtTreeMap NodeId Absorption} (h : Right entries resolved)
    {entry : Absorption} (hentry : resolved[node]? = some entry) : Shortens entries node entry :=
  have hleads := h node entry hentry
  ⟨hleads.root_notMem, hleads.exists_applyAll⟩

/-! ### Updates -/

/-- What a caller does to a record. -/
inductive Update
  | enter (node : NodeId) (entry : Absorption)
  | resolve

/-- The record after an update; if resolving fails, what it has done until then stays. -/
def after (α : Type) (a : Absorptions) : Update → Absorptions
  | .enter node entry => a.enter node entry
  | .resolve => (a.resolve (α := α)).1

/-- The record after some updates. -/
def run (α : Type) (a : Absorptions) (updates : List Update) : Absorptions :=
  updates.foldl (after α) a

/-- An update leaves right entries: none at all if it enters a node. -/
theorem right_after (update : Update) (hmaps : Composable a.entries)
    (h : Right a.entries a.resolved) :
    Right (a.after α update).entries (a.after α update).resolved := by
  cases update with
  | enter node entry => exact right_empty
  | resolve =>
    obtain ⟨hentries, hright⟩ := right_resolve (α := α) hmaps h
    exact hentries.symm ▸ hright

/-- All resolved entries are right if maps can be composed after any number of the updates. -/
theorem right_run : ∀ (updates : List Update) {a : Absorptions},
    (∀ sofar, sofar <+: updates → Composable (a.run α sofar).entries) →
    Right a.entries a.resolved →
    Right (a.run α updates).entries (a.run α updates).resolved
  | [], _, _, h => h
  | update :: updates, _, hmaps, h =>
    right_run updates
      (fun sofar hsofar => hmaps (update :: sofar) (List.cons_prefix_cons.2 ⟨rfl, hsofar⟩))
      (right_after update (hmaps [] List.nil_prefix) h)

/-- All that a record answers follows from its entries, whichever of them are resolved. -/
structure Faithful (α : Type) (a : Absorptions) : Prop where
  resolve_ok_iff : (a.resolve (α := α)).2 = .ok () ↔
    ∀ n, ¬ Relation.TransGen (Into a.entries) n n
  resolve_error_iff {fault : Fault α} : a.resolve.2 = .error fault ↔
    ∃ n, FirstEndless a.entries n ∧ fault = .absorptionCycle n
  resolve_entries : (a.resolve (α := α)).1.entries = a.entries
  exists_shortens : (a.resolve (α := α)).2 = .ok () → ∀ n ∈ a.entries, ∃ entry,
    (a.resolve (α := α)).1.resolved[n]? = some entry ∧ Shortens a.entries n entry
  resolve_fresh : (a.resolve (α := α)).2 = .ok () →
    { a with resolved := ∅ }.resolve (α := α) = a.resolve
  resolve_resolve : (a.resolve (α := α)).2 = .ok () →
    (a.resolve (α := α)).1.resolve (α := α) = a.resolve
  representative_ok_iff {n root : NodeId} :
    a.representative (α := α) n = .ok root ↔ EndsAt a.entries root n
  representative_error_iff {n : NodeId} {fault : Fault α} : a.representative n = .error fault ↔
    ¬ Ends a.entries n ∧ fault = .absorptionCycle n
  representative_resolve (n : NodeId) :
    (a.resolve (α := α)).1.representative (α := α) n = a.representative n
  isResolved_iff : a.isResolved ↔ ∀ n, n ∈ a.resolved ↔ n ∈ a.entries
  complete_fresh (assignment : List Nat) :
    { a with resolved := ∅ }.complete (α := α) assignment = a.complete assignment
  complete_resolve (assignment : List Nat) :
    (a.resolve (α := α)).1.complete (α := α) assignment = a.complete assignment

theorem faithful_of_right (hmaps : Composable a.entries) (h : Right a.entries a.resolved) :
    Faithful α a := by
  obtain ⟨hentries, hright⟩ := right_resolve (α := α) hmaps h
  have hresolve : { a with resolved := (a.resolve (α := α)).1.resolved } = (a.resolve (α := α)).1 :=
    congrArg (mk · _) hentries.symm
  have hends (hok : (a.resolve (α := α)).2 = .ok ()) : ∀ n, Ends a.entries n :=
    (resolve_ok_iff hmaps h).1 hok
  exact {
    resolve_ok_iff := by rw [resolve_ok_iff hmaps h, forall_ends_iff]
    resolve_error_iff := resolve_error_iff hmaps h
    resolve_entries := hentries
    exists_shortens := by
      intro hok n hn
      obtain ⟨resolved, hrun, -, hall⟩ := exists_resolve (α := α) hmaps h (hends hok)
      obtain ⟨entry, hentry⟩ := FiniteMap.exists_get (hall n hn)
      rw [hrun] at hright ⊢
      exact ⟨entry, hentry, hright.shortens hentry⟩
    resolve_fresh := fun hok => resolve_congr hmaps h right_empty (hends hok)
    resolve_resolve := fun hok => by
      rw [← hresolve]
      exact resolve_congr hmaps h hright (hends hok)
    representative_ok_iff := representative_eq_ok_iff hmaps h
    representative_error_iff := representative_error_iff hmaps h
    representative_resolve := fun n => by
      rw [← hresolve]
      exact representative_congr hmaps h hright
    isResolved_iff := isResolved_iff h
    complete_fresh := fun _ => complete_congr hmaps h right_empty
    complete_resolve := fun assignment => by
      rw [← hresolve]
      exact complete_congr hmaps h hright }

/-- A record is faithful after any updates, resolving that failed included, provided that maps can
    be composed at every moment. -/
theorem faithful_run (updates : List Update)
    (hmaps : ∀ sofar, sofar <+: updates → Composable (empty.run α sofar).entries) :
    Faithful α (empty.run α updates) :=
  faithful_of_right (hmaps updates List.prefix_rfl) (right_run updates hmaps right_empty)

instance : Decidable (Composable entries) :=
  decidable_of_iff (∀ p ∈ entries.toList, ∀ next ∈ entries[p.2.into]?, ∀ j ∈ next.map,
      j < p.2.map.length) <| by
    simp only [Composable, Prod.forall, Std.ExtTreeMap.mem_toList_iff_getElem?_eq_some,
      Option.mem_def]
    exact forall₂_congr fun _ _ => forall_comm

/-- A circle that a second entry for one of its nodes opens, and then a chain into another circle,
    with resolving in between. -/
def tangle : List Update :=
  [.enter (.ofIndex 0) ⟨.ofIndex 1, [1, 0]⟩, .enter (.ofIndex 1) ⟨.ofIndex 0, [0, 1]⟩, .resolve,
    .enter (.ofIndex 1) ⟨.ofIndex 2, [1, 1, 0]⟩, .resolve, .enter (.ofIndex 3) ⟨.ofIndex 4, [0]⟩,
    .enter (.ofIndex 4) ⟨.ofIndex 5, [0]⟩, .enter (.ofIndex 5) ⟨.ofIndex 4, [0]⟩, .resolve]

theorem tangle_faithful :
    (∀ sofar, sofar <+: tangle → Composable (empty.run ℕ sofar).entries) ∧
      Faithful ℕ (empty.run ℕ tangle) := by
  have hmaps : ∀ sofar, sofar <+: tangle → Composable (empty.run ℕ sofar).entries := by
    simp only [← List.mem_inits]
    decide +kernel
  exact ⟨hmaps, faithful_run tangle hmaps⟩

end Reshard.Absorptions
