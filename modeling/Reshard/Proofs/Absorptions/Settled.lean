import Reshard.Proofs.Absorptions.Resolve

/-! What a record says about its nodes.

    A query settles the record on the side, or follows a chain that is not resolved yet. What it
    says follows from the entries alone: it does not matter which of them are resolved, as long as
    the resolved ones are right (`settled_congr`, `representative_congr`). -/

namespace Reshard.Absorptions

variable {α : Type} {node root : NodeId} {a : Absorptions}

/-! ### Settled records -/

/-- A record with as many right entries as absorbed nodes has one for each of them. -/
theorem Right.mem_of_isResolved (h : Right a.entries a.resolved) (hsize : a.isResolved) {n : NodeId}
    (hn : n ∈ a.entries) : n ∈ a.resolved := by
  have hsub : a.resolved.keys ⊆ a.entries.keys := fun k hk =>
    Std.ExtTreeMap.mem_keys.2 (h.mem_entries (Std.ExtTreeMap.mem_keys.1 hk))
  have hlen : a.entries.keys.length ≤ a.resolved.keys.length := by
    rw [Std.ExtTreeMap.length_keys, Std.ExtTreeMap.length_keys]
    exact (eq_of_beq hsize).ge
  have hperm := (List.subperm_of_subset Std.ExtTreeMap.nodup_keys hsub).perm_of_length_le hlen
  exact Std.ExtTreeMap.mem_keys.1 (hperm.mem_iff.2 (Std.ExtTreeMap.mem_keys.2 hn))

/-- There are as many resolved entries as entries if and only if the same nodes have them. -/
theorem isResolved_iff (h : Right a.entries a.resolved) :
    a.isResolved ↔ ∀ n, n ∈ a.resolved ↔ n ∈ a.entries := by
  refine ⟨fun hsize n => ⟨h.mem_entries, h.mem_of_isResolved hsize⟩, fun hsame => ?_⟩
  have hperm : a.resolved.keys.Perm a.entries.keys :=
    (List.perm_ext_iff_of_nodup Std.ExtTreeMap.nodup_keys Std.ExtTreeMap.nodup_keys).2 fun n => by
      rw [Std.ExtTreeMap.mem_keys, Std.ExtTreeMap.mem_keys, hsame]
  rw [isResolved, beq_iff_eq, ← Std.ExtTreeMap.length_keys, ← Std.ExtTreeMap.length_keys]
  exact hperm.length_eq

/-- After a new entry there is one that is not resolved. -/
theorem not_isResolved_enter {entry : Absorption} : ¬ (a.enter node entry).isResolved := by
  intro hsize
  have hzero : (a.entries.insert node entry).size = 0 := (eq_of_beq hsize).symm
  rw [← Std.ExtTreeMap.eq_empty_iff_size_eq_zero] at hzero
  have hmem : node ∈ a.entries.insert node entry := Std.ExtTreeMap.mem_insert_self
  rw [hzero] at hmem
  exact Std.ExtTreeMap.not_mem_empty hmem

section Right

variable (hmaps : Composable a.entries) (h : Right a.entries a.resolved)
include hmaps h

/-- The record with all chains resolved has a right entry for each absorbed node. -/
theorem exists_settled (hends : ∀ n, Ends a.entries n) : ∃ resolved,
      a.settled (α := α) = .ok { a with resolved } ∧ Right a.entries resolved ∧
      ∀ n ∈ a.entries, n ∈ resolved := by
  rw [settled]
  split
  next hsize => exact ⟨a.resolved, rfl, h, fun n => h.mem_of_isResolved hsize⟩
  next =>
    obtain ⟨resolved, hrun, hright⟩ := exists_resolve (α := α) hmaps h hends
    exact ⟨resolved, by rw [hrun], hright⟩

theorem isResolved_of_resolve {a' : Absorptions} (hrun : a.resolve (α := α) = (a', .ok ())) :
    a'.isResolved := by
  have hends := (resolve_ok_iff (α := α) hmaps h).1 (by rw [hrun])
  obtain ⟨resolved, hrun', hright, hall⟩ := exists_resolve (α := α) hmaps h hends
  cases hrun.symm.trans hrun'
  exact (isResolved_iff hright).2 fun n => ⟨hright.mem_entries, hall n⟩

theorem settled_error_iff {fault : Fault α} : a.settled = .error fault ↔
    ∃ n, FirstEndless a.entries n ∧ fault = .absorptionCycle n := by
  rw [← resolve_error_iff hmaps h, settled]
  split
  next hsize =>
    have hends : ∀ n, Ends a.entries n := fun n => by
      by_contra hn
      exact hn (h.ends (h.mem_of_isResolved hsize (mem_of_not_ends hn)))
    rw [(resolve_ok_iff hmaps h).2 hends]
    simp
  next =>
    split
    next hrun => simp [hrun]
    next hrun => simp [hrun]

/-- A record that can be settled has no chain without an end. -/
theorem ends_of_settled {a' : Absorptions} (hrun : a.settled (α := α) = .ok a') :
    ∀ n, Ends a.entries n := by
  rcases ends_or_firstEndless (α := α) hmaps h with hends | ⟨n, hn, -⟩
  · exact hends
  · cases hrun.symm.trans ((settled_error_iff hmaps h).2 ⟨n, hn, rfl⟩)

theorem settled_congr {other : Std.ExtTreeMap NodeId Absorption} (hother : Right a.entries other) :
    { a with resolved := other }.settled (α := α) = a.settled := by
  cases hrun : a.settled (α := α) with
  | ok a' =>
    have hends := ends_of_settled hmaps h hrun
    obtain ⟨resolved, hsettled, hright, hall⟩ := exists_settled (α := α) hmaps h hends
    obtain ⟨resolved', hsettled', hright', hall'⟩ :=
      exists_settled (α := α) (a := { a with resolved := other }) hmaps hother hends
    rw [hsettled', ← hrun, hsettled, hright'.ext hright hall' hall fun _ _ _ => Iff.rfl]
  | error fault =>
    exact (settled_error_iff (a := { a with resolved := other }) hmaps hother).2
      ((settled_error_iff hmaps h).1 hrun)

/-! ### Representatives -/

/-- The representative of a node is found where its entries end, resolved or not. -/
theorem exists_representative (hends : Ends a.entries node) :
    ∃ root outer, a.representative (α := α) node = .ok root ∧
      LeadsTo a.entries root node outer := by
  have hfound : ∃ chain, chain? ∅ a.entries a.entries node = some chain ∧
      Follows a.entries chain.stop node chain.passed ∧
      (chain.stop ∈ (∅ : Std.ExtTreeMap NodeId Absorption) ∨ a.entries[chain.stop]? = none) :=
    hends.exists_chain fun _ _ _ => rfl
  obtain ⟨chain, hchain, hfollows, hstop⟩ := hfound
  rw [representative, hchain]
  cases hfound : a.resolved[node]? with
  | some entry => exact ⟨entry.into, some entry.map, rfl, h node entry hfound⟩
  | none =>
    have hroot := hstop.resolve_left Std.ExtTreeMap.not_mem_empty
    obtain ⟨outer, houter⟩ := (LeadsTo.here hroot).of_follows hmaps hfollows
    exact ⟨chain.stop, outer, rfl, houter⟩

theorem representative_error_iff {fault : Fault α} : a.representative node = .error fault ↔
    ¬ Ends a.entries node ∧ fault = .absorptionCycle node := by
  by_cases hends : Ends a.entries node
  · obtain ⟨root, outer, hrun, -⟩ := exists_representative (α := α) hmaps h hends
    rw [hrun]
    simp [hends]
  · have hnone : a.resolved[node]? = none :=
      Std.ExtTreeMap.getElem?_eq_none fun hnode => hends (h.ends hnode)
    have hchain : chain? ∅ a.entries a.entries node = none := by
      refine Option.eq_none_iff_forall_ne_some.2 fun chain hchain => hends ?_
      exact ends_of_chain? (fun _ hn => absurd hn Std.ExtTreeMap.not_mem_empty)
        (fun _ _ hn => hn) hchain
    rw [representative, hnone, hchain, and_iff_right hends]
    constructor
    · intro herror
      exact (Except.error.inj herror).symm
    · rintro rfl
      rfl

theorem representative_ok_iff (hends : Ends a.entries node) :
    a.representative (α := α) node = .ok root ↔ ∃ outer, LeadsTo a.entries root node outer := by
  obtain ⟨root', outer', hrun, hleads⟩ := exists_representative (α := α) hmaps h hends
  rw [hrun]
  constructor
  · intro hroot
    cases hroot
    exact ⟨outer', hleads⟩
  · rintro ⟨outer, houter⟩
    rw [(hleads.unique houter).1]

theorem representative_congr {other : Std.ExtTreeMap NodeId Absorption}
    (hother : Right a.entries other) :
    { a with resolved := other }.representative (α := α) node = a.representative node := by
  by_cases hends : Ends a.entries node
  · obtain ⟨root, outer, hrun, hleads⟩ := exists_representative (α := α) hmaps h hends
    rw [hrun]
    exact (representative_ok_iff (a := { a with resolved := other }) hmaps hother hends).2
      ⟨outer, hleads⟩
  · rw [(representative_error_iff hmaps h).2 ⟨hends, rfl⟩]
    exact (representative_error_iff (a := { a with resolved := other }) hmaps hother).2
      ⟨hends, rfl⟩

end Right

end Reshard.Absorptions
