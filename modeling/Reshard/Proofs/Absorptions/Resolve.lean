import Reshard.Proofs.Absorptions.Chain

/-! Resolving absorptions.

    A resolved entry is right if it says where the chain of its node leads. Resolving a record whose
    chains all end, and whose maps can be composed, succeeds: afterwards every entry has a resolved
    one, and each of them is right (`exists_resolve`). Otherwise the fault is the first node whose
    chain does not end (`resolve_error_iff`). -/

namespace Reshard.Absorptions

variable {α : Type} {entries resolved : Std.ExtTreeMap NodeId Absorption}
  {node root stop : NodeId} {outer : Option (List Nat)} {a : Absorptions}

/-- Each resolved entry says where the chain of its node leads, and by which map. -/
def Right (entries resolved : Std.ExtTreeMap NodeId Absorption) : Prop :=
  ∀ (node : NodeId) (entry : Absorption), resolved[node]? = some entry →
    LeadsTo entries entry.into node (some entry.map)

theorem right_empty : Right entries ∅ := fun node entry h => by
  rw [Std.ExtTreeMap.getElem?_empty] at h
  cases h

theorem Right.insert (h : Right entries resolved) {entry : Absorption}
    (hnode : LeadsTo entries entry.into node (some entry.map)) :
    Right entries (resolved.insert node entry) := by
  intro other entry' h'
  rw [FiniteMap.get_insert] at h'
  split at h'
  next e =>
    cases h'
    exact e ▸ hnode
  next => exact h other entry' h'

/-- Only absorbed nodes have right entries. -/
theorem Right.mem_entries (h : Right entries resolved) (hnode : node ∈ resolved) :
    node ∈ entries := by
  obtain ⟨entry, hentry⟩ := FiniteMap.exists_get hnode
  rcases h node entry hentry with _ | ⟨hfound, -, -⟩
  exact FiniteMap.mem_of_get hfound

/-- If chains lead to the same nodes by the same maps, complete right entries are the same. -/
theorem Right.ext {entries' resolved' : Std.ExtTreeMap NodeId Absorption}
    (h : Right entries resolved) (h' : Right entries' resolved')
    (hall : ∀ n ∈ entries, n ∈ resolved) (hall' : ∀ n ∈ entries', n ∈ resolved')
    (hsame : ∀ root n outer, LeadsTo entries root n outer ↔ LeadsTo entries' root n outer) :
    resolved = resolved' := by
  -- an entry on one side is right on the other, and there is only one right entry
  have hle {E E' R R' : Std.ExtTreeMap NodeId Absorption} (hR : Right E R) (hR' : Right E' R')
      (hall' : ∀ n ∈ E', n ∈ R')
      (hsame : ∀ root n outer, LeadsTo E root n outer → LeadsTo E' root n outer) {n : NodeId}
      {entry : Absorption} (hn : R[n]? = some entry) : R'[n]? = some entry := by
    have hleads := hsame _ _ _ (hR n entry hn)
    obtain ⟨entry', hentry'⟩ : ∃ entry', R'[n]? = some entry' := by
      cases hleads with
      | into hfound => exact FiniteMap.exists_get (hall' n (FiniteMap.mem_of_get hfound))
    obtain ⟨hinto, hmap⟩ := hleads.unique (hR' n entry' hentry')
    rw [hentry']
    cases entry
    cases entry'
    cases hinto
    cases hmap
    rfl
  refine Std.ExtTreeMap.ext_getElem? fun {n} => Option.ext fun entry => ?_
  exact ⟨hle h h' hall' fun root n outer => (hsame root n outer).1,
    hle h' h hall fun root n outer => (hsame root n outer).2⟩

/-! ### One chain -/

/-- The nodes on a chain get right entries. -/
theorem exists_enterChain? (hmaps : Composable entries) (hstop : LeadsTo entries root stop outer)
    (h : Right entries resolved) : ∀ {passed : List (NodeId × Absorption)} {node : NodeId},
    Follows entries stop node passed → ∃ resolved' outer',
      enterChain? root outer resolved passed = some (resolved', outer') ∧
      LeadsTo entries root node outer' ∧ Right entries resolved' ∧
      ∀ k, k ∈ resolved' ↔ k ∈ resolved ∨ k ∈ passed.map (·.1)
  | [], _, rfl => ⟨resolved, outer, rfl, hstop, h, by simp⟩
  | (first, entry) :: rest, node, ⟨hfirst, hentry, hrest⟩ => by
    obtain ⟨resolved', outer', hrun, hleads, hright, hmem⟩ := exists_enterChain? hmaps hstop h hrest
    obtain ⟨map, hmap⟩ := hleads.exists_compose? hmaps hentry
    have hnode : LeadsTo entries root first (some map) := hfirst ▸ .into hentry hleads hmap
    refine ⟨resolved'.insert first ⟨root, map⟩, some map, ?_, hfirst ▸ hnode,
      hright.insert hnode, ?_⟩
    · simp only [enterChain?, hrun, hmap, Option.bind_eq_bind, Option.bind_some, Option.pure_def]
    · intro k
      rw [Std.ExtTreeMap.mem_insert, hmem, Std.LawfulEqOrd.compare_eq_iff_eq, List.map_cons,
        List.mem_cons, eq_comm]
      tauto

/-- Resolving a node whose chain ends gives it a right entry and takes none away. -/
theorem exists_resolveNode (hmaps : Composable a.entries) (h : Right a.entries a.resolved)
    (hnode : node ∈ a.entries) (hends : Ends a.entries node) : ∃ resolved,
      a.resolveNode (α := α) node = .ok { a with resolved } ∧ Right a.entries resolved ∧
      node ∈ resolved ∧ ∀ k ∈ a.resolved, k ∈ resolved := by
  rw [resolveNode]
  by_cases hdone : a.resolved.contains node
  · rw [if_pos hdone]
    exact ⟨a.resolved, rfl, h, Std.ExtTreeMap.contains_iff_mem.1 hdone, fun k hk => hk⟩
  · rw [if_neg hdone]
    obtain ⟨chain, hchain, hfollows, hend⟩ : ∃ chain,
        chain? a.resolved a.entries a.entries node = some chain ∧
        Follows a.entries chain.stop node chain.passed ∧
        (chain.stop ∈ a.resolved ∨ a.entries[chain.stop]? = none) :=
      hends.exists_chain fun _ _ _ => rfl
    -- behind the chain there is a resolved entry, or else a node without entry
    have hstop : LeadsTo a.entries
        ((a.resolved[chain.stop]?.map (·.into)).getD chain.stop) chain.stop
        (a.resolved[chain.stop]?.map (·.map)) := by
      cases hfound : a.resolved[chain.stop]? with
      | some entry => exact h _ _ hfound
      | none =>
        refine .here (hend.resolve_left ?_)
        intro hmem
        obtain ⟨entry, hentry⟩ := FiniteMap.exists_get hmem
        cases hfound.symm.trans hentry
    obtain ⟨resolved, outer, hrun, -, hright, hmem⟩ := exists_enterChain? hmaps hstop h hfollows
    refine ⟨resolved, ?_, hright, (hmem node).2 (.inr ?_), fun k hk => (hmem k).2 (.inl hk)⟩
    · simp only [bind_ok_iff, Fault.require_ok_iff, pure_ok_iff]
      exact ⟨chain, hchain, _, hrun, rfl⟩
    · -- the node is on its chain, for it has an entry and is not resolved
      rcases hpassed : chain.passed with _ | ⟨first, rest⟩
      · rw [hpassed] at hfollows
        cases hfollows
        rcases hend with hmem | hnone
        · exact absurd (Std.ExtTreeMap.contains_iff_mem.2 hmem) hdone
        · obtain ⟨entry, hentry⟩ := FiniteMap.exists_get hnode
          cases hnone.symm.trans hentry
      · rw [hpassed] at hfollows
        rw [← hfollows.1]
        exact List.mem_cons_self

theorem Right.ends (h : Right entries resolved) (hnode : node ∈ resolved) : Ends entries node := by
  obtain ⟨entry, hentry⟩ := FiniteMap.exists_get hnode
  exact (h node entry hentry).ends

/-- A node whose chain does not end is not resolved, and that is the only fault. -/
theorem resolveNode_error_iff (hmaps : Composable a.entries) (h : Right a.entries a.resolved)
    (hnode : node ∈ a.entries) {fault : Fault α} : a.resolveNode node = .error fault ↔
      ¬ Ends a.entries node ∧ fault = .absorptionCycle node := by
  by_cases hends : Ends a.entries node
  · obtain ⟨resolved, hrun, -⟩ := exists_resolveNode (α := α) hmaps h hnode hends
    rw [hrun]
    exact ⟨nofun, fun hnot => absurd hends hnot.1⟩
  · have hchain : chain? a.resolved a.entries a.entries node = none := by
      rw [Option.eq_none_iff_forall_ne_some]
      exact fun chain hchain => hends (ends_of_chain? (fun _ => h.ends) (fun _ _ hn => hn) hchain)
    rw [resolveNode, if_neg fun hdone => hends (h.ends (Std.ExtTreeMap.contains_iff_mem.1 hdone)),
      hchain]
    constructor
    · intro herror
      cases herror
      exact ⟨hends, rfl⟩
    · rintro ⟨-, rfl⟩
      rfl

/-! ### All chains -/

theorem exists_resolveAll : ∀ (nodes : List NodeId) {a : Absorptions}, Composable a.entries →
    Right a.entries a.resolved → (∀ n ∈ nodes, n ∈ a.entries ∧ Ends a.entries n) → ∃ resolved,
      a.resolveAll (α := α) nodes = ({ a with resolved }, .ok ()) ∧ Right a.entries resolved ∧
      (∀ n ∈ nodes, n ∈ resolved) ∧ ∀ k ∈ a.resolved, k ∈ resolved
  | [], a, _, h, _ => ⟨a.resolved, rfl, h, by simp, fun _ hk => hk⟩
  | node :: nodes, a, hmaps, h, hnodes => by
    obtain ⟨hnode, hends⟩ := hnodes node List.mem_cons_self
    obtain ⟨resolved, hrun, hright, hmem, hkeep⟩ :=
      exists_resolveNode (α := α) hmaps h hnode hends
    obtain ⟨resolved', hrun', hright', hmem', hkeep'⟩ := exists_resolveAll nodes
      (a := { a with resolved }) hmaps hright fun n hn => hnodes n (List.mem_cons_of_mem _ hn)
    refine ⟨resolved', ?_, hright', ?_, fun k hk => hkeep' k (hkeep k hk)⟩
    · rw [resolveAll, hrun]
      exact hrun'
    · intro n hn
      rcases List.mem_cons.1 hn with rfl | hn
      · exact hkeep' _ hmem
      · exact hmem' n hn

/-- Resolving makes right entries up to the node at which it stops, and changes nothing else. -/
theorem right_resolveAll : ∀ (nodes : List NodeId) {a : Absorptions}, Composable a.entries →
    Right a.entries a.resolved → (∀ n ∈ nodes, n ∈ a.entries) →
    (a.resolveAll (α := α) nodes).1.entries = a.entries ∧
      Right a.entries (a.resolveAll (α := α) nodes).1.resolved
  | [], _, _, h, _ => ⟨rfl, h⟩
  | node :: nodes, a, hmaps, h, hnodes => by
    obtain ⟨hnode, hnodes⟩ := List.forall_mem_cons.1 hnodes
    rw [resolveAll]
    by_cases hends : Ends a.entries node
    · obtain ⟨resolved, hrun, hright, -⟩ := exists_resolveNode (α := α) hmaps h hnode hends
      rw [hrun]
      exact right_resolveAll nodes (a := { a with resolved }) hmaps hright hnodes
    · rw [(resolveNode_error_iff hmaps h hnode).2 ⟨hends, rfl⟩]
      exact ⟨rfl, h⟩

/-- All chains end, or the first of them that does not is the fault. -/
theorem ends_or_error : ∀ (nodes : List NodeId) {a : Absorptions}, Composable a.entries →
    Right a.entries a.resolved → (∀ n ∈ nodes, n ∈ a.entries) →
    (∀ n ∈ nodes, Ends a.entries n) ∨
      ∃ before n later, nodes = before ++ n :: later ∧ (∀ k ∈ before, Ends a.entries k) ∧
        ¬ Ends a.entries n ∧ (a.resolveAll (α := α) nodes).2 = .error (.absorptionCycle n)
  | [], _, _, _, _ => .inl nofun
  | node :: nodes, a, hmaps, h, hnodes => by
    obtain ⟨hnode, hnodes⟩ := List.forall_mem_cons.1 hnodes
    by_cases hends : Ends a.entries node
    · obtain ⟨resolved, hrun, hright, -⟩ := exists_resolveNode (α := α) hmaps h hnode hends
      rw [resolveAll, hrun, List.forall_mem_cons]
      rcases ends_or_error (a := { a with resolved }) nodes hmaps hright hnodes with
        hall | ⟨before, n, later, rfl, hbefore, hn, herror⟩
      · exact .inl ⟨hends, hall⟩
      · exact .inr ⟨node :: before, n, later, rfl, List.forall_mem_cons.2 ⟨hends, hbefore⟩, hn,
          herror⟩
    · refine .inr ⟨[], node, nodes, rfl, nofun, hends, ?_⟩
      rw [resolveAll, (resolveNode_error_iff hmaps h hnode).2 ⟨hends, rfl⟩]

/-- The chain of `node` does not end, while those of all entries before it do. -/
structure FirstEndless (entries : Std.ExtTreeMap NodeId Absorption) (node : NodeId) : Prop where
  mem : node ∈ entries
  endless : ¬ Ends entries node
  index_le {n : NodeId} : ¬ Ends entries n → node.index ≤ n.index

theorem FirstEndless.unique {node' : NodeId} (h : FirstEndless entries node)
    (h' : FirstEndless entries node') : node = node' :=
  NodeId.ext (Nat.le_antisymm (h.index_le h'.endless) (h'.index_le h.endless))

theorem mem_of_not_ends (h : ¬ Ends entries node) : node ∈ entries := by
  by_contra hnode
  exact h (.here (Std.ExtTreeMap.getElem?_eq_none hnode))

/-- Entries are listed in the order of the nodes, so the first endless one has the least index. -/
theorem firstEndless_of_keys {before later : List NodeId}
    (hkeys : entries.keys = before ++ node :: later) (hbefore : ∀ k ∈ before, Ends entries k)
    (hnode : ¬ Ends entries node) : FirstEndless entries node := by
  have hordered := Std.ExtTreeMap.ordered_keys (t := entries)
  rw [hkeys, List.pairwise_append, List.pairwise_cons] at hordered
  refine ⟨mem_of_not_ends hnode, hnode, ?_⟩
  intro k hk
  have hmem : k ∈ entries.keys := Std.ExtTreeMap.mem_keys.2 (mem_of_not_ends hk)
  rw [hkeys, List.mem_append, List.mem_cons] at hmem
  rcases hmem with hmem | rfl | hmem
  · exact absurd (hbefore k hmem) hk
  · exact Nat.le_refl _
  · exact (Nat.compare_eq_lt.1 (hordered.2.1.1 k hmem)).le

/-- All chains end, or resolving fails at the first node whose chain does not. -/
theorem ends_or_firstEndless (hmaps : Composable a.entries) (h : Right a.entries a.resolved) :
    (∀ n, Ends a.entries n) ∨ ∃ n, FirstEndless a.entries n ∧
      (a.resolve (α := α)).2 = .error (.absorptionCycle n) := by
  rcases ends_or_error (α := α) a.entries.keys hmaps h fun n => Std.ExtTreeMap.mem_keys.1 with
    hall | ⟨before, n, later, hkeys, hbefore, hn, herror⟩
  · refine .inl fun n => ?_
    by_contra hn
    exact hn (hall n (Std.ExtTreeMap.mem_keys.2 (mem_of_not_ends hn)))
  · exact .inr ⟨n, firstEndless_of_keys hkeys hbefore hn, herror⟩

/-- Resolving succeeds if all chains end, and gives each absorbed node a right entry. -/
theorem exists_resolve (hmaps : Composable a.entries) (h : Right a.entries a.resolved)
    (hends : ∀ n, Ends a.entries n) : ∃ resolved,
      a.resolve (α := α) = ({ a with resolved }, .ok ()) ∧ Right a.entries resolved ∧
      ∀ n ∈ a.entries, n ∈ resolved := by
  obtain ⟨resolved, hrun, hright, hmem, -⟩ := exists_resolveAll (α := α) a.entries.keys hmaps h
    fun n hn => ⟨Std.ExtTreeMap.mem_keys.1 hn, hends n⟩
  exact ⟨resolved, hrun, hright, fun n hn => hmem n (Std.ExtTreeMap.mem_keys.2 hn)⟩

theorem right_resolve (hmaps : Composable a.entries) (h : Right a.entries a.resolved) :
    (a.resolve (α := α)).1.entries = a.entries ∧
      Right a.entries (a.resolve (α := α)).1.resolved :=
  right_resolveAll _ hmaps h fun _ => Std.ExtTreeMap.mem_keys.1

section Right

variable (hmaps : Composable a.entries) (h : Right a.entries a.resolved)
include hmaps h

theorem resolve_ok_iff : (a.resolve (α := α)).2 = .ok () ↔ ∀ n, Ends a.entries n := by
  constructor
  · intro hok
    rcases ends_or_firstEndless (α := α) hmaps h with hends | ⟨n, -, herror⟩
    · exact hends
    · cases hok.symm.trans herror
  · intro hends
    obtain ⟨resolved, hrun, -⟩ := exists_resolve (α := α) hmaps h hends
    rw [hrun]

/-- The only fault of resolving is a chain that does not end: the first one. -/
theorem resolve_error_iff {fault : Fault α} : a.resolve.2 = .error fault ↔
    ∃ n, FirstEndless a.entries n ∧ fault = .absorptionCycle n := by
  rcases ends_or_firstEndless (α := α) hmaps h with hends | ⟨n, hn, herror⟩
  · rw [(resolve_ok_iff hmaps h).2 hends]
    constructor
    · intro hfault
      cases hfault
    · rintro ⟨n, hn, -⟩
      exact absurd (hends n) hn.endless
  · rw [herror]
    constructor
    · intro hfault
      exact ⟨n, hn, (Except.error.inj hfault).symm⟩
    · rintro ⟨n', hn', rfl⟩
      rw [hn.unique hn']

/-- It does not matter which entries are resolved before. -/
theorem resolve_congr {other : Std.ExtTreeMap NodeId Absorption} (hother : Right a.entries other)
    (hends : ∀ n, Ends a.entries n) :
    { a with resolved := other }.resolve (α := α) = a.resolve := by
  obtain ⟨resolved, hrun, hright, hall⟩ := exists_resolve (α := α) hmaps h hends
  obtain ⟨resolved', hrun', hright', hall'⟩ :=
    exists_resolve (α := α) (a := { a with resolved := other }) hmaps hother hends
  rw [hrun, hrun', hright'.ext hright hall' hall fun _ _ _ => Iff.rfl]

end Right

end Reshard.Absorptions
