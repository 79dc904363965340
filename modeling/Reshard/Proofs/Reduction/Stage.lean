import Reshard.Proofs.Absorptions.Complete
import Reshard.Proofs.Graph.Balance
import Reshard.Reduction.Basic

/-! Stages of a reduction.

    At a coherent stage the graph is coherent, and exactly the nodes that are no longer live have
    entries in the record of absorptions. An entry maps each strategy of the node that it leads to
    to one of the absorbed node. At a sound stage moreover the graph is sound, and entries lead to
    nodes of a lower rank, so that all chains of entries end. Merges keep a stage coherent
    (`Coherent.merge`) and sound (`Sound.merge`), and so does resolving the absorptions. -/

namespace Reshard

namespace Stage

variable {α : Type} {rank : NodeId → Nat} {s s' : Stage α} {n root : NodeId} {entry : Absorption}

/-- The graph is sound, and the record of absorptions is that of the nodes that are not live. -/
structure Sound (rank : NodeId → Nat) (s : Stage α) : Prop where
  graph : s.graph.Sound rank
  mem_entries {n : NodeId} : n ∈ s.absorptions.entries ↔
    n.index < s.graph.size ∧ ¬ s.graph.links.isLive n
  rank_into {n : NodeId} {entry : Absorption} : s.absorptions.entries[n]? = some entry →
    rank entry.into < rank n
  width_into {n : NodeId} {entry : Absorption} : s.absorptions.entries[n]? = some entry →
    s.graph.width? entry.into = some entry.map.length
  lt_width {n : NodeId} {entry : Absorption} {w j : Nat} :
    s.absorptions.entries[n]? = some entry → s.graph.width? n = some w → j ∈ entry.map → j < w
  right : Absorptions.Right s.absorptions.entries s.absorptions.resolved

/-- The part of soundness that needs no ranks. -/
structure Coherent (s : Stage α) : Prop where
  graph : s.graph.Coherent
  mem_entries {n : NodeId} : n ∈ s.absorptions.entries ↔
    n.index < s.graph.size ∧ ¬ s.graph.links.isLive n
  width_into {n : NodeId} {entry : Absorption} : s.absorptions.entries[n]? = some entry →
    s.graph.width? entry.into = some entry.map.length
  lt_width {n : NodeId} {entry : Absorption} {w j : Nat} :
    s.absorptions.entries[n]? = some entry → s.graph.width? n = some w → j ∈ entry.map → j < w
  right : Absorptions.Right s.absorptions.entries s.absorptions.resolved

theorem Sound.coherent (h : s.Sound rank) : s.Coherent :=
  ⟨h.graph.coherent, h.mem_entries, h.width_into, h.lt_width, h.right⟩

theorem Coherent.sound (h : s.Coherent) (hgraph : s.graph.Sound rank)
    (hrank : ∀ {n : NodeId} {entry : Absorption}, s.absorptions.entries[n]? = some entry →
      rank entry.into < rank n) : s.Sound rank :=
  ⟨hgraph, h.mem_entries, hrank, h.width_into, h.lt_width, h.right⟩

/-! ### Merging -/

section Merging

variable [Cost α] {e : Edge} {m : Merge α}

theorem merge_ok_iff : s.merge e = .ok (s', m) ↔ s.graph.merge e = .ok (s'.graph, m) ∧
    s'.absorptions = if m.absorbs then s.absorptions.enter m.edge.dst ⟨m.edge.src, m.choice⟩
      else s.absorptions := by
  have hrecord (m : Merge α) :
      (m.absorption?.elim s.absorptions fun absorbed => s.absorptions.enter absorbed.1 absorbed.2) =
        if m.absorbs then s.absorptions.enter m.edge.dst ⟨m.edge.src, m.choice⟩
        else s.absorptions := by
    rw [Merge.absorption?]
    cases m.absorbs <;> rfl
  simp only [merge, bind_ok_iff, pure_ok_iff, Prod.mk.injEq, Prod.exists, hrecord]
  constructor
  · rintro ⟨g, m', hmerge, rfl, rfl⟩
    exact ⟨hmerge, rfl⟩
  · rintro ⟨hmerge, habsorptions⟩
    exact ⟨_, _, hmerge, by rw [← habsorptions], rfl⟩

/-- A merge that absorbs its destination makes an entry for it. -/
theorem get_entries_merge (hmerge : s.merge e = .ok (s', m)) : s'.absorptions.entries[n]? =
    if m.absorbs ∧ n = m.edge.dst then some ⟨m.edge.src, m.choice⟩
    else s.absorptions.entries[n]? := by
  rw [(merge_ok_iff.1 hmerge).2]
  cases m.absorbs with
  | false => simp
  | true =>
    rw [if_pos rfl, Absorptions.enter, FiniteMap.get_insert]
    simp [eq_comm]

/-- What the entries after a merge say: the new one about the destination, or an old one. -/
theorem of_get_entries (hmerge : s.merge e = .ok (s', m))
    (hn : s'.absorptions.entries[n]? = some entry) :
    (m.absorbs ∧ n = m.edge.dst ∧ entry = ⟨m.edge.src, m.choice⟩) ∨
      s.absorptions.entries[n]? = some entry := by
  rw [get_entries_merge hmerge] at hn
  split at hn
  next hnew => exact .inl ⟨hnew.1, hnew.2, (Option.some.inj hn).symm⟩
  next => exact .inr hn

namespace Coherent

theorem of_merge (h : s.Coherent) (hmerge : s.merge e = .ok (s', m)) :
    m.edge = e ∧ s.graph.Plan m ∧ s.graph.Performed m s'.graph :=
  h.graph.of_merge (merge_ok_iff.1 hmerge).1

/-- Entries are never changed by later merges. -/
theorem get_entries_of_merge (h : s.Coherent) (hmerge : s.merge e = .ok (s', m))
    (hn : s.absorptions.entries[n]? = some entry) : s'.absorptions.entries[n]? = some entry := by
  obtain ⟨rfl, hm, -⟩ := h.of_merge hmerge
  rw [get_entries_merge hmerge, if_neg]
  · exact hn
  · rintro ⟨-, rfl⟩
    exact (h.mem_entries.1 (FiniteMap.mem_of_get hn)).2 hm.live_dst

/-- A merge keeps a stage coherent. -/
theorem merge (h : s.Coherent) (hmerge : s.merge e = .ok (s', m)) : s'.Coherent := by
  obtain ⟨-, hm, hg⟩ := h.of_merge hmerge
  exact
    { graph := h.graph.merge (merge_ok_iff.1 hmerge).1
      mem_entries := by
        intro n
        rw [hg.size, hg.isLive_iff, Std.ExtTreeMap.mem_iff_isSome_getElem?,
          get_entries_merge hmerge]
        by_cases hnew : m.absorbs ∧ n = m.edge.dst
        · have hlt := h.graph.toShaped.index_lt_of_isLive hm.live_dst
          simp [hnew, hlt]
        · rw [if_neg hnew, ← Std.ExtTreeMap.mem_iff_isSome_getElem?, h.mem_entries]
          simp only [hnew, not_false_eq_true, and_true]
      width_into := by
        intro n entry hn
        rw [hg.width?]
        rcases of_get_entries hmerge hn with ⟨-, rfl, rfl⟩ | hn
        · exact hm.width_src h.graph.toShaped
        · exact h.width_into hn
      lt_width := by
        intro n entry w j hn hw hj
        rw [hg.width?] at hw
        rcases of_get_entries hmerge hn with ⟨-, rfl, rfl⟩ | hn
        · exact hm.choice_lt h.graph.toShaped hj hw
        · exact h.lt_width hn hw hj
      right := by
        rw [(merge_ok_iff.1 hmerge).2]
        split
        · exact Absorptions.right_empty
        · exact h.right }

end Coherent

namespace Sound

/-- A merge takes place exactly along a link of live nodes. -/
theorem exists_merge_iff (h : s.Sound rank) : (∃ s' m, s.merge e = .ok (s', m)) ↔
    s.graph.links.isLive e.src ∧ s.graph.links.isLive e.dst ∧
      e.src ∈ s.graph.links.parents e.dst := by
  rw [← h.graph.exists_merge_iff]
  constructor
  · rintro ⟨s', m, hmerge⟩
    exact ⟨_, m, (merge_ok_iff.1 hmerge).1⟩
  · rintro ⟨g', m, hmerge⟩
    exact ⟨⟨g', _⟩, m, merge_ok_iff.2 ⟨hmerge, rfl⟩⟩

/-- A merge keeps a stage sound. -/
theorem merge (h : s.Sound rank) (hmerge : s.merge e = .ok (s', m)) : s'.Sound rank := by
  obtain ⟨-, hm, -⟩ := h.coherent.of_merge hmerge
  refine (h.coherent.merge hmerge).sound (h.graph.merge (merge_ok_iff.1 hmerge).1) ?_
  intro n entry hn
  rcases of_get_entries hmerge hn with ⟨-, rfl, rfl⟩ | hn
  · exact h.graph.rank_lt (hm.child h.graph)
  · exact h.rank_into hn

end Sound

end Merging

/-! ### Resolving -/

namespace Coherent

theorem composable (h : s.Coherent) : Absorptions.Composable s.absorptions.entries :=
  fun _ _ _ hentry hnext _ hj => h.lt_width hnext (h.width_into hentry) hj

/-- A chain ends at a live node, and its map has an entry for each of that node's strategies. -/
theorem width_root (h : s.Coherent) {outer : Option (List Nat)}
    (hn : Absorptions.LeadsTo s.absorptions.entries root n outer) {map : List Nat}
    (hmap : outer = some map) : s.graph.width? root = some map.length := by
  induction hn generalizing map with
  | here => cases hmap
  | @into n entry outer composed hentry _ hcompose ih =>
    cases hmap
    cases outer with
    | none =>
      cases hcompose
      cases ‹Absorptions.LeadsTo _ _ _ none›
      exact h.width_into hentry
    | some outer =>
      rw [ih rfl, (mapM_some_iff.1 hcompose).length_eq]

theorem isLive_root (h : s.Coherent) {outer : Option (List Nat)} (hlt : n.index < s.graph.size)
    (hn : Absorptions.LeadsTo s.absorptions.entries root n outer) :
    s.graph.links.isLive root := by
  have hroot : root.index < s.graph.size := by
    cases outer with
    | none => cases hn; exact hlt
    | some map => exact Graph.index_lt_of_width? (h.width_root hn rfl)
  by_contra hlive
  obtain ⟨entry, hentry⟩ := FiniteMap.exists_get (h.mem_entries.2 ⟨hroot, hlive⟩)
  cases hn.root_notMem.symm.trans hentry

/-- Resolving the absorptions keeps a stage coherent, and succeeds only if all chains end. -/
theorem resolve (h : s.Coherent) {absorptions : Absorptions}
    (hresolve : s.absorptions.resolve (α := α) = (absorptions, .ok ())) :
    (∀ n, Absorptions.Ends s.absorptions.entries n) ∧
      absorptions.entries = s.absorptions.entries ∧
      ({ s with absorptions } : Stage α).Coherent := by
  have hends := (Absorptions.resolve_ok_iff (α := α) h.composable h.right).1 (by rw [hresolve])
  obtain ⟨resolved, hrun, hright, -⟩ :=
    Absorptions.exists_resolve (α := α) h.composable h.right hends
  cases hresolve.symm.trans hrun
  exact ⟨hends, rfl, { h with right := hright }⟩

end Coherent

namespace Sound

theorem ends (h : s.Sound rank) (n : NodeId) : Absorptions.Ends s.absorptions.entries n :=
  Absorptions.ends_of_rank (fun _ _ => h.rank_into) n

/-- Resolving the absorptions succeeds and keeps a stage sound. -/
theorem exists_resolve (h : s.Sound rank) : ∃ absorptions,
    s.absorptions.resolve (α := α) = (absorptions, .ok ()) ∧
      absorptions.entries = s.absorptions.entries ∧
      ({ s with absorptions } : Stage α).Sound rank := by
  obtain ⟨resolved, hrun, -⟩ :=
    Absorptions.exists_resolve (α := α) h.coherent.composable h.right h.ends
  obtain ⟨-, hentries, hcoherent⟩ := h.coherent.resolve hrun
  exact ⟨_, hrun, hentries, hcoherent.sound h.graph fun hn => h.rank_into hn⟩

end Sound

end Stage

end Reshard
