import Reshard.Proofs.Absorptions.Settled

/-! Completing an assignment.

    An assignment is completed (`Completes`) if each absorbed node has the strategy that follows
    from the node it was merged into. `complete` does so through the resolved entries
    (`exists_complete`), which gives the same as applying the maps one by one along each chain
    (`Completes.eq_applyAll`). What the nodes without entries run decides about all others
    (`Completes.ext`). -/

namespace Reshard.Absorptions

variable {α : Type} {entries : Std.ExtTreeMap NodeId Absorption} {stop : NodeId}
  {outer : Option (List Nat)} {a : Absorptions} {assignment full : List Nat}

/-- A listed node gets its strategy from that of its representative, and other nodes keep theirs. -/
theorem exists_fillAll {assignment : List Nat} : ∀ (listed : List (NodeId × Absorption))
    (full : List Nat), (listed.map (·.1)).Nodup →
    (∀ p ∈ listed, p.1.index < full.length ∧ ∃ chosen, assignment[p.2.into.index]? = some chosen ∧
      chosen < p.2.map.length) → ∃ full',
      listed.foldlM (fun full (node, entry) => fill (α := α) assignment full node entry) full
        = .ok full' ∧ full'.length = full.length ∧
      (∀ n, n ∉ listed.map (·.1) → full'[n.index]? = full[n.index]?) ∧
      ∀ p ∈ listed, full'[p.1.index]? = assignment[p.2.into.index]?.bind p.2.strategy?
  | [], full, _, _ => ⟨full, rfl, rfl, fun _ _ => rfl, nofun⟩
  | (node, entry) :: listed, full, hnodup, hlisted => by
    rw [List.map_cons, List.nodup_cons] at hnodup
    obtain ⟨hlt, chosen, hchosen, hmap⟩ := hlisted _ List.mem_cons_self
    have hstrategy : entry.strategy? chosen = some entry.map[chosen] :=
      List.getElem?_eq_getElem hmap
    have hfill : fill (α := α) assignment full node entry =
        .ok (full.set node.index entry.map[chosen]) := by
      simp only [fill, bind_ok_iff, guarded_ok_iff, Fault.require_ok_iff, pure_ok_iff]
      exact ⟨chosen, hchosen, hlt, _, hstrategy, rfl⟩
    obtain ⟨full', hrun, hlen, hkeep, hset⟩ := exists_fillAll listed
      (full.set node.index entry.map[chosen]) hnodup.2 fun p hp => by
        rw [List.length_set]
        exact hlisted p (List.mem_cons_of_mem _ hp)
    refine ⟨full', ?_, by rw [hlen, List.length_set], ?_, ?_⟩
    · rw [List.foldlM_cons, bind_ok_iff]
      exact ⟨_, hfill, hrun⟩
    · -- nodes that are not listed
      intro n hn
      rw [List.map_cons, List.mem_cons, not_or] at hn
      rw [hkeep n hn.2, List.getElem?_set_ne fun e => hn.1 (NodeId.ext e.symm)]
    · -- listed nodes
      intro p hp
      rcases List.mem_cons.1 hp with rfl | hp
      · rw [hkeep node hnodup.1, List.getElem?_set_self hlt, hchosen]
        exact hstrategy.symm
      · exact hset p hp

/-- The completed assignment gives each absorbed node the strategy that follows from the node that
    it was merged into, and it leaves the other nodes as they are. -/
structure Completes (entries : Std.ExtTreeMap NodeId Absorption) (assignment full : List Nat) :
    Prop where
  length_eq : full.length = assignment.length
  of_none {n : NodeId} : entries[n]? = none → full[n.index]? = assignment[n.index]?
  of_some {n : NodeId} {entry : Absorption} : entries[n]? = some entry →
    full[n.index]? = full[entry.into.index]?.bind entry.strategy?

/-- Composing maps is applying them one after the other. -/
theorem getElem?_of_compose? {own map : List Nat} (h : compose? outer own = some map) (k : Nat) :
    map[k]? = (outer.elim (some k) (·[k]?)).bind (own[·]?) := by
  cases outer with
  | none => cases h; rfl
  | some outer => exact getElem?_of_mapM_some h k

/-- An assignment can be completed if the strategies at the ends of all chains are mapped. -/
theorem exists_complete {assignment : List Nat} (hmaps : Composable a.entries)
    (h : Right a.entries a.resolved) (hends : ∀ n, Ends a.entries n)
    (hin : ∀ n ∈ a.entries, n.index < assignment.length)
    (hroots : ∀ n root map, LeadsTo a.entries root n (some map) →
      ∃ chosen, assignment[root.index]? = some chosen ∧ chosen < map.length) :
    ∃ full, a.complete (α := α) assignment = .ok full ∧ Completes a.entries assignment full := by
  obtain ⟨resolved, hsettled, hright, hmem⟩ := exists_settled (α := α) hmaps h hends
  have hentry {p : NodeId × Absorption} (hp : p ∈ resolved.toList) :
      LeadsTo a.entries p.2.into p.1 (some p.2.map) :=
    hright _ _ (Std.ExtTreeMap.mem_toList_iff_getElem?_eq_some.1 hp)
  have hkeys : resolved.toList.map (·.1) = resolved.keys := Std.ExtTreeMap.map_fst_toList_eq_keys
  obtain ⟨full, hrun, hlen, hkeep, hset⟩ := exists_fillAll (α := α) resolved.toList assignment
    (hkeys ▸ Std.ExtTreeMap.nodup_keys) fun p hp => by
      refine ⟨hin _ (hright.mem_entries ?_), hroots _ _ _ (hentry hp)⟩
      exact FiniteMap.mem_of_get (Std.ExtTreeMap.mem_toList_iff_getElem?_eq_some.1 hp)
  have hnone {n : NodeId} (hn : a.entries[n]? = none) : full[n.index]? = assignment[n.index]? := by
    refine hkeep n ?_
    intro hnode
    rw [hkeys, Std.ExtTreeMap.mem_keys] at hnode
    obtain ⟨entry, hentry⟩ := FiniteMap.exists_get (hright.mem_entries hnode)
    cases hn.symm.trans hentry
  -- the end of a chain decides about every node on it
  have hleads {n root : NodeId} {outer : Option (List Nat)} (hn : LeadsTo a.entries root n outer) :
      full[n.index]? = assignment[root.index]?.bind fun k => outer.elim (some k) (·[k]?) := by
    cases outer with
    | none =>
      cases hn with
      | here hroot => rw [hnone hroot]; simp
    | some map =>
      obtain ⟨entry, hfound⟩ : ∃ entry, resolved[n]? = some entry := by
        cases hn with
        | into hentry => exact FiniteMap.exists_get (hmem n (FiniteMap.mem_of_get hentry))
      have hp := Std.ExtTreeMap.mem_toList_iff_getElem?_eq_some.2 hfound
      obtain ⟨rfl, hmap⟩ := (hentry hp).unique hn
      cases hmap
      exact hset _ hp
  have hcompletes : Completes a.entries assignment full :=
    { length_eq := hlen
      of_none := hnone
      of_some := by
        intro n entry hn
        obtain ⟨root, outer, hinto⟩ := (hends entry.into).exists_leadsTo hmaps
        obtain ⟨map, hmap⟩ := hinto.exists_compose? hmaps hn
        rw [hleads (.into hn hinto hmap), hleads hinto, Option.bind_assoc]
        exact Option.bind_congr fun k _ => getElem?_of_compose? hmap k }
  refine ⟨full, ?_, hcompletes⟩
  rw [complete, hsettled]
  exact hrun

theorem complete_congr (hmaps : Composable a.entries) (h : Right a.entries a.resolved)
    {other : Std.ExtTreeMap NodeId Absorption} (hother : Right a.entries other) :
    { a with resolved := other }.complete (α := α) assignment = a.complete assignment := by
  rw [complete, settled_congr hmaps h hother, complete]

/-! ### What a completed assignment is -/

/-- The strategy at the start of a chain: that at its end, mapped by one entry after the other. -/
def applyAll (passed : List (NodeId × Absorption)) (chosen : Option Nat) : Option Nat :=
  passed.foldr (fun p chosen => chosen.bind p.2.strategy?) chosen

namespace Completes

theorem eq_applyAll (h : Completes entries assignment full) :
    ∀ {passed : List (NodeId × Absorption)} {node : NodeId}, Follows entries stop node passed →
    full[node.index]? = applyAll passed full[stop.index]?
  | [], _, rfl => rfl
  | _ :: _, _, ⟨_, hentry, hrest⟩ => by
    rw [h.of_some hentry, h.eq_applyAll hrest]
    rfl

/-- The strategy at the start of a chain follows from that at its end by the composed map. -/
theorem eq_of_leadsTo (h : Completes entries assignment full) {root node : NodeId}
    (hnode : LeadsTo entries root node outer) : full[node.index]? =
      assignment[root.index]?.bind fun chosen => outer.elim (some chosen) (·[chosen]?) := by
  induction hnode with
  | here hroot => rw [h.of_none hroot]; simp
  | into hentry _ hmap ih =>
    rw [h.of_some hentry, ih, Option.bind_assoc]
    exact Option.bind_congr fun chosen _ => (getElem?_of_compose? hmap chosen).symm

variable {assignment' full' : List Nat} (h : Completes entries assignment full)
  (h' : Completes entries assignment' full')
  (hsame : ∀ n : NodeId, entries[n]? = none →
    assignment[n.index]? = assignment'[n.index]?)
include h h' hsame

theorem getElem?_eq {node : NodeId} (hends : Ends entries node) :
    full[node.index]? = full'[node.index]? := by
  induction hends with
  | here hnode => rw [h.of_none hnode, h'.of_none hnode, hsame _ hnode]
  | into hentry _ ih => rw [h.of_some hentry, h'.of_some hentry, ih]

/-- The strategies of the nodes without entries decide about the completed assignment. -/
theorem ext (hends : ∀ n, Ends entries n) (hlen : assignment.length = assignment'.length)
    (hfits : assignment.length ≤ NodeId.maxIndex) : full = full' := by
  refine List.ext_getElem? ?_
  intro i
  by_cases hi : i < full.length
  · have hindex : (NodeId.ofIndex i).index = i :=
      NodeId.ofIndex_index_of_le (hi.le.trans (h.length_eq.trans_le hfits))
    rw [← hindex]
    exact h.getElem?_eq h' hsame (hends _)
  · have hi' : ¬ i < full'.length := by rwa [h'.length_eq, ← hlen, ← h.length_eq]
    rw [List.getElem?_eq_none (Nat.le_of_not_lt hi), List.getElem?_eq_none (Nat.le_of_not_lt hi')]

end Completes

end Reshard.Absorptions
