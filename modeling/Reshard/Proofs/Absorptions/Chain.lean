import Mathlib.Logic.Relation
import Reshard.Absorptions
import Reshard.Proofs.FiniteMap
import Reshard.Proofs.Outcome

/-! Chains of absorptions.

    The entry of a node names the node it was merged into, and so on until a node has no entry.
    `Ends` says that this comes to an end, `Follows` lists the entries on the way, and `LeadsTo`
    says where it ends and what the composed map is. `chain?` finds the entries of a chain exactly
    if it ends, and `enterChain?` composes their maps. -/

namespace Reshard.Absorptions

variable {entries stops pending resolved : Std.ExtTreeMap NodeId Absorption}
  {node root stop : NodeId} {entry : Absorption} {outer : Option (List Nat)}

/-- The entries from a node on come to an end. -/
inductive Ends (entries : Std.ExtTreeMap NodeId Absorption) : NodeId → Prop
  | here {node : NodeId} : entries[node]? = none → Ends entries node
  | into {node : NodeId} {entry : Absorption} : entries[node]? = some entry →
      Ends entries entry.into → Ends entries node

/-- The listed entries are those met on the way from a node to `stop`. -/
def Follows (entries : Std.ExtTreeMap NodeId Absorption) (stop : NodeId) :
    NodeId → List (NodeId × Absorption) → Prop
  | node, [] => node = stop
  | node, (first, entry) :: rest =>
    first = node ∧ entries[node]? = some entry ∧ Follows entries stop entry.into rest

/-- The entries from a node on end at `root`, and their maps compose to the given one. There is no
    map if the node is the root itself. -/
inductive LeadsTo (entries : Std.ExtTreeMap NodeId Absorption) (root : NodeId) :
    NodeId → Option (List Nat) → Prop
  | here : entries[root]? = none → LeadsTo entries root root none
  | into {node : NodeId} {entry : Absorption} {outer : Option (List Nat)} {map : List Nat} :
      entries[node]? = some entry → LeadsTo entries root entry.into outer →
      compose? outer entry.map = some map → LeadsTo entries root node (some map)

/-- The entry of `node` names `next`. -/
def Into (entries : Std.ExtTreeMap NodeId Absorption) (node next : NodeId) : Prop :=
  ∃ entry, entries[node]? = some entry ∧ entry.into = next

/-- The strategies in a map are strategies of the next map on the chain. -/
def Composable (entries : Std.ExtTreeMap NodeId Absorption) : Prop :=
  ∀ (node : NodeId) (entry next : Absorption), entries[node]? = some entry →
    entries[entry.into]? = some next → ∀ j ∈ next.map, j < entry.map.length

/-! ### Where a chain ends -/

/-- Entries that lead to a lower rank come to an end. -/
theorem ends_of_rank {rank : NodeId → Nat}
    (h : ∀ node entry, entries[node]? = some entry → rank entry.into < rank node)
    (node : NodeId) : Ends entries node := by
  induction hr : rank node using Nat.strong_induction_on generalizing node with
  | h r ih =>
    subst hr
    cases hentry : entries[node]? with
    | none => exact .here hentry
    | some entry => exact .into hentry (ih _ (h node entry hentry) entry.into rfl)

theorem LeadsTo.root_notMem (h : LeadsTo entries root node outer) : entries[root]? = none := by
  induction h with
  | here hroot => exact hroot
  | into _ _ _ ih => exact ih

theorem LeadsTo.ends (h : LeadsTo entries root node outer) : Ends entries node := by
  induction h with
  | here hroot => exact .here hroot
  | into hentry _ _ ih => exact .into hentry ih

theorem LeadsTo.reflTransGen (h : LeadsTo entries root node outer) :
    Relation.ReflTransGen (Into entries) node root := by
  induction h with
  | here => exact .refl
  | into hentry _ _ ih => exact ih.head ⟨_, hentry, rfl⟩

/-- A chain leads to one node by one map. -/
theorem LeadsTo.unique {root' : NodeId} {outer' : Option (List Nat)}
    (h : LeadsTo entries root node outer) (h' : LeadsTo entries root' node outer') :
    root = root' ∧ outer = outer' := by
  induction h generalizing outer' with
  | here hroot =>
    cases h' with
    | here => exact ⟨rfl, rfl⟩
    | into hentry => cases hroot.symm.trans hentry
  | into hentry _ hmap ih =>
    cases h' with
    | here hroot => cases hroot.symm.trans hentry
    | into hentry' hinto' hmap' =>
      cases hentry.symm.trans hentry'
      obtain ⟨rfl, rfl⟩ := ih hinto'
      exact ⟨rfl, hmap.symm.trans hmap'⟩

/-- A composed map holds strategies of the node's own map. -/
theorem mem_of_compose? {own map : List Nat} (h : compose? outer own = some map) {j : Nat}
    (hj : j ∈ map) : j ∈ own := by
  cases outer with
  | none => cases h; exact hj
  | some outer =>
    obtain ⟨k, -, hk⟩ := (mem_of_mapM_some h).1 hj
    exact List.mem_of_getElem? hk

/-- The map of an entry can be composed with that of the chain behind it. -/
theorem LeadsTo.exists_compose? (hmaps : Composable entries) (hentry : entries[node]? = some entry)
    (h : LeadsTo entries root entry.into outer) : ∃ map, compose? outer entry.map = some map := by
  rcases h with _ | ⟨hnext, -, hmap⟩
  · exact ⟨entry.map, rfl⟩
  · exact exists_mapM_some fun j hj => ⟨_, List.getElem?_eq_getElem
      (hmaps _ _ _ hentry hnext j (mem_of_compose? hmap hj))⟩

/-- A chain that ends leads somewhere, provided that its maps can be composed. -/
theorem Ends.exists_leadsTo (hmaps : Composable entries) (h : Ends entries node) :
    ∃ root outer, LeadsTo entries root node outer := by
  induction h with
  | here hnode => exact ⟨_, none, .here hnode⟩
  | into hentry _ ih =>
    obtain ⟨root, outer, houter⟩ := ih
    obtain ⟨map, hmap⟩ := houter.exists_compose? hmaps hentry
    exact ⟨root, some map, .into hentry houter hmap⟩

/-! ### Shortcuts -/

section Shortcut

variable {later : Std.ExtTreeMap NodeId Absorption} {bottom middle top : NodeId}
  {own next composed : List Nat}

/-- An entry may lead over another node or directly to where that node leads: all chains end at the
    same nodes and compose to the same maps. -/
theorem leadsTo_shortcut_iff (hcompose : compose? (some next) own = some composed)
    (hother : ∀ n, n ≠ bottom → entries[n]? = later[n]?) (hmiddle : middle ≠ bottom)
    (htop : top ≠ bottom) (hbottom : entries[bottom]? = some ⟨middle, own⟩)
    (hbottom' : later[bottom]? = some ⟨top, composed⟩) (hnext : entries[middle]? = some ⟨top, next⟩)
    (hlast : entries[top]? = none) :
    LeadsTo entries root node outer ↔ LeadsTo later root node outer := by
  have hnext' : later[middle]? = some ⟨top, next⟩ := (hother _ hmiddle).symm.trans hnext
  have hlast' : later[top]? = none := (hother _ htop).symm.trans hlast
  constructor
  · -- a chain over `middle` is cut short at `bottom`
    intro h
    induction h with
    | here hroot =>
      refine .here ((hother _ ?_).symm.trans hroot)
      rintro rfl
      cases hroot.symm.trans hbottom
    | @into n entry outer map hentry _ hmap ih =>
      by_cases hn : n = bottom
      · subst hn
        cases hentry.symm.trans hbottom
        obtain ⟨rfl, rfl⟩ := ih.unique (.into hnext' (.here hlast') rfl)
        cases hmap.symm.trans hcompose
        exact .into hbottom' (.here hlast') rfl
      · exact .into ((hother _ hn).symm.trans hentry) ih hmap
  · -- a step from `bottom` to `top` goes over `middle` again
    intro h
    induction h with
    | here hroot =>
      refine .here ((hother _ ?_).trans hroot)
      rintro rfl
      cases hroot.symm.trans hbottom'
    | @into n entry outer map hentry hinto hmap ih =>
      by_cases hn : n = bottom
      · subst hn
        cases hentry.symm.trans hbottom'
        obtain ⟨rfl, rfl⟩ := hinto.unique (.here hlast')
        cases hmap
        exact .into hbottom (.into hnext (.here hlast) rfl) hcompose
      · exact .into ((hother _ hn).trans hentry) ih hmap

end Shortcut

/-! ### Finding a chain -/

theorem Follows.append {middle : NodeId} {rest : List (NodeId × Absorption)} :
    ∀ {passed : List (NodeId × Absorption)} {node : NodeId}, Follows entries middle node passed →
    Follows entries stop middle rest → Follows entries stop node (passed ++ rest)
  | [], _, rfl, h => h
  | _ :: _, _, ⟨hfirst, hentry, hrest⟩, h => ⟨hfirst, hentry, hrest.append h⟩

theorem Follows.mono {later : Std.ExtTreeMap NodeId Absorption}
    (hmono : ∀ (n : NodeId) (entry : Absorption), entries[n]? = some entry →
      later[n]? = some entry) :
    ∀ {passed : List (NodeId × Absorption)} {node : NodeId}, Follows entries stop node passed →
    Follows later stop node passed
  | [], _, h => h
  | _ :: _, _, ⟨hfirst, hentry, hrest⟩ => ⟨hfirst, hmono _ _ hentry, hrest.mono hmono⟩

/-- Entries that lead to a node lead on to wherever that one leads. -/
theorem LeadsTo.of_follows (hmaps : Composable entries) (h : LeadsTo entries root stop outer) :
    ∀ {passed : List (NodeId × Absorption)} {node : NodeId}, Follows entries stop node passed →
    ∃ outer', LeadsTo entries root node outer'
  | [], _, rfl => ⟨outer, h⟩
  | _ :: _, _, ⟨_, hentry, hrest⟩ => by
    obtain ⟨outer', houter⟩ := h.of_follows hmaps hrest
    obtain ⟨map, hmap⟩ := houter.exists_compose? hmaps hentry
    exact ⟨some map, .into hentry houter hmap⟩

/-- The entries met on the way to where a node leads. -/
theorem LeadsTo.exists_follows (h : LeadsTo entries root node outer) :
    ∃ passed, Follows entries root node passed := by
  induction h with
  | here => exact ⟨[], rfl⟩
  | @into node entry _ _ hentry _ _ ih =>
    obtain ⟨passed, hpassed⟩ := ih
    exact ⟨(node, entry) :: passed, rfl, hentry, hpassed⟩

/-- A chain that ends does not come back to its start. -/
theorem Ends.not_follows (h : Ends entries node) {passed : List (NodeId × Absorption)}
    (hne : passed ≠ []) : ¬ Follows entries node node passed := by
  induction h generalizing passed with
  | here hnode =>
    rcases passed with _ | ⟨first, rest⟩
    · exact absurd rfl hne
    · rintro ⟨-, hentry, -⟩
      cases hnode.symm.trans hentry
  | @into node entry hentry _ ih =>
    rcases passed with _ | ⟨first, rest⟩
    · exact absurd rfl hne
    · rintro ⟨-, hentry', hrest⟩
      have hround : Follows entries entry.into node [(node, entry)] := ⟨rfl, hentry, rfl⟩
      cases hentry.symm.trans hentry'
      -- going round once more from the next node is a circle there
      exact ih (by simp) (hrest.append hround)

/-- The chain of a node is found if all entries on it are pending. -/
theorem Ends.exists_chain (h : Ends entries node)
    (hpending : ∀ passed stop, Follows entries stop node passed → pending[stop]? = entries[stop]?) :
    ∃ chain, chain? stops entries pending node = some chain ∧
      Follows entries chain.stop node chain.passed ∧
      (chain.stop ∈ stops ∨ entries[chain.stop]? = none) := by
  induction h generalizing pending with
  | @here node hnode =>
    have hnot : entries.contains node = false := by
      rw [Std.ExtTreeMap.contains_eq_isSome_getElem?, hnode]
      rfl
    have hfound : pending[node]? = none := (hpending [] node rfl).trans hnode
    refine ⟨⟨[], node⟩, ?_, rfl, .inr hnode⟩
    rw [chain?]
    split
    · rfl
    · split
      next entry hentry => cases hfound.symm.trans hentry
      next => rw [hnot]; rfl
  | @into node entry hentry hends ih =>
    have hfound : pending[node]? = some entry := (hpending [] node rfl).trans hentry
    by_cases hstop : stops.contains node
    · -- the chain stops at once
      refine ⟨⟨[], node⟩, ?_, rfl, .inl (Std.ExtTreeMap.contains_iff_mem.1 hstop)⟩
      rw [chain?, if_pos hstop]
    · -- no circle leads back, so what follows is pending still
      have hrest : ∀ passed stop, Follows entries stop entry.into passed →
          (pending.erase node)[stop]? = entries[stop]? := by
        intro passed stop hpassed
        have hne : node ≠ stop := by
          rintro rfl
          exact (Ends.into hentry hends).not_follows (List.cons_ne_nil (node, entry) passed)
            ⟨rfl, hentry, hpassed⟩
        rw [FiniteMap.get_erase, if_neg hne]
        exact hpending ((node, entry) :: passed) stop ⟨rfl, hentry, hpassed⟩
      obtain ⟨chain, hchain, hfollows, hend⟩ := ih hrest
      refine ⟨⟨(node, entry) :: chain.passed, chain.stop⟩, ?_, ⟨rfl, hentry, hfollows⟩, hend⟩
      rw [chain?, if_neg hstop]
      split
      next found hfound' =>
        cases hfound.symm.trans hfound'
        rw [hchain]
        rfl
      next hnone => cases hfound.symm.trans hnone

/-- A chain that is found comes to an end, provided that the chains of the nodes in `stops` do. -/
theorem ends_of_chain? {chain : Chain} (hstops : ∀ n ∈ stops, Ends entries n)
    (hpending : ∀ (n : NodeId) (entry : Absorption), pending[n]? = some entry →
      entries[n]? = some entry)
    (h : chain? stops entries pending node = some chain) : Ends entries node := by
  induction pending, node using chain?.induct stops entries generalizing chain with
  | case1 pending node hstop => exact hstops node (Std.ExtTreeMap.contains_iff_mem.1 hstop)
  | case2 pending node hstop entry hget ih =>
    rw [chain?, if_neg hstop] at h
    split at h
    next found' hfound =>
      cases hget.symm.trans hfound
      obtain ⟨rest, hrest, -⟩ := Option.map_eq_some_iff.1 h
      refine .into (hpending _ _ hget) (ih ?_ hrest)
      intro n entry hn
      rw [FiniteMap.get_erase] at hn
      split at hn
      · cases hn
      · exact hpending n entry hn
    next hnone => cases hget.symm.trans hnone
  | case3 pending node hstop hget hentry =>
    rw [chain?, if_neg hstop] at h
    split at h
    next found' hfound => cases hget.symm.trans hfound
    next => rw [if_pos hentry] at h; cases h
  | case4 pending node hstop hget hentry =>
    exact .here (Std.ExtTreeMap.getElem?_eq_none fun hmem =>
      hentry (Std.ExtTreeMap.contains_iff_mem.2 hmem))

end Reshard.Absorptions
