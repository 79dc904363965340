import Reshard.Proofs.Catalog.Bypass
import Reshard.Proofs.Reduction.Run

/-! The replay of the queue.

    If each node is declared behind its predecessors, the merges along the queued edges, the last
    one first, all take place. When an edge comes up, both its nodes are still live and its table is
    the declared one, and a node is linked to those that it reaches by a bypass (`Swept`). So
    simplifying absorbs exactly the removable nodes, each of them into its first predecessor. -/

namespace Reshard

variable {α : Type} {c : Catalog α} {g₀ : Graph α} {done : List Edge} {e : Edge} {n u v : NodeId}

namespace Stage

/-- The stage after the edges in `done` have been merged along, from the end of the queue on. -/
structure Swept (c : Catalog α) (g₀ : Graph α) (done : List Edge) (s : Stage α) : Prop
    extends Sound NodeId.index s where
  size : s.graph.size = c.size
  isLive_iff {n : NodeId} : s.graph.links.isLive n ↔ n.index < c.size ∧ ¬ c.Gone done n
  mem_children {u v : NodeId} : v ∈ s.graph.links.children u ↔
    s.graph.links.isLive u ∧ c.Reaches done u v
  /-- Tables of edges that come up later are the declared ones. -/
  table {e : Edge} : c.Precedes e.src e.dst → e ∉ done →
    (∀ e' ∈ done, e.dst.index ≤ e'.dst.index) → s.graph.tables[e]? = g₀.tables[e]?
  head {n : NodeId} {entry : Absorption} : s.absorptions.entries[n]? = some entry →
    (c.predecessors n).head? = some entry.into

namespace Swept

variable {s s' : Stage α}

/-- The nodes of the next edge are live and linked. -/
theorem live_of_next (h : s.Swept c g₀ done) (hc : c.Consistent) (hnext : c.Next done e) :
    s.graph.links.isLive e.src ∧ s.graph.links.isLive e.dst ∧
      e.src ∈ s.graph.links.parents e.dst := by
  have hsrc : s.graph.links.isLive e.src := h.isLive_iff.2
    ⟨(Catalog.index_lt_of_precedes hc hnext.precedes).1, hnext.not_gone hnext.index_lt⟩
  have hchild : e.dst ∈ s.graph.links.children e.src :=
    h.mem_children.2 ⟨hsrc, e.src, .refl, hnext.precedes, hnext.notMem⟩
  exact ⟨hsrc, h.graph.live_dst hchild, h.graph.mem_parents.2 hchild⟩

/-- When all is done, the entries are those of the removable nodes. -/
theorem mem_entries_iff_removable (h : s.Swept c g₀ c.mergeEdges) (hfits : c.Fits) :
    n ∈ s.absorptions.entries ↔ c.Removable n := by
  rw [h.mem_entries, h.size, h.isLive_iff, Catalog.gone_mergeEdges_iff hfits]
  constructor
  · rintro ⟨hlt, hnot⟩
    by_contra hn
    exact hnot ⟨hlt, hn⟩
  · intro hn
    obtain ⟨op, hop, -⟩ := id hn
    exact ⟨Catalog.index_lt_of_get? hop, fun hlive => hlive.2 hn⟩

variable [Cost α] {m : Merge α}

/-- The merge along the next edge takes place. -/
theorem exists_merge (h : s.Swept c g₀ done) (hc : c.Consistent) (hnext : c.Next done e) :
    ∃ s' m, s.merge e = .ok (s', m) :=
  h.exists_merge_iff.2 (h.live_of_next hc hnext)

/-- The destination goes if the declared edges from its other predecessors are done. -/
theorem absorbs_iff (h : s.Swept c g₀ done) (hc : c.Consistent) (hnumbered : c.Numbered)
    (hm : s.graph.Plan m) (hnext : c.Next done m.edge) : m.absorbs ↔
      ∀ p, c.Precedes p m.edge.dst → (⟨p, m.edge.dst⟩ : Edge) ∉ done → p = m.edge.src := by
  rw [hm.absorbs_iff]
  refine forall_congr' ?_
  intro p
  rw [h.graph.mem_parents, h.mem_children, hnext.reaches_dst_iff hnumbered, h.isLive_iff]
  constructor
  · intro hlast hpn hnot
    have hlt := Catalog.index_lt_of_precedes hc hpn
    exact hlast ⟨⟨hlt.1, hnext.not_gone (hnumbered _ _ hpn)⟩, hpn, hnot⟩
  · rintro hlast ⟨-, hpn, hnot⟩
    exact hlast hpn hnot

/-- The last edge into a node is the one from its first predecessor. -/
theorem head_of_absorbs (h : s.Swept c g₀ done) (hc : c.Consistent) (hnumbered : c.Numbered)
    (hm : s.graph.Plan m) (hnext : c.Next done m.edge) (habsorbs : m.absorbs) :
    (c.predecessors m.edge.dst).head? = some m.edge.src := by
  have hlast := (h.absorbs_iff hc hnumbered hm hnext).1 habsorbs
  have hsrc := Catalog.mem_predecessors.2 hnext.precedes
  rcases hlist : c.predecessors m.edge.dst with _ | ⟨p, rest⟩
  · rw [hlist] at hsrc
    cases hsrc
  · have hp : c.Precedes p m.edge.dst := by
      rw [← Catalog.mem_predecessors, hlist]
      exact List.mem_cons_self
    have hnot : (⟨p, m.edge.dst⟩ : Edge) ∉ done := fun hmem => by
      rcases hnext.before hmem with hlt | ⟨-, hlt⟩
      · exact hlt.false
      · simp [hlist] at hlt
    rw [hlast p hp hnot]
    rfl

/-- Merging along the next edge keeps the stage swept. -/
theorem merge (h : s.Swept c g₀ done) (hc : c.Consistent) (hnumbered : c.Numbered)
    (hnext : c.Next done e) (hmerge : s.merge e = .ok (s', m)) : s'.Swept c g₀ (e :: done) := by
  have hsound := h.toSound.merge hmerge
  obtain ⟨rfl, hm, hg⟩ := h.coherent.of_merge hmerge
  have habsorbs := h.absorbs_iff hc hnumbered hm hnext
  have hlive {n : NodeId} : s'.graph.links.isLive n ↔
      s.graph.links.isLive n ∧ ¬ (m.absorbs ∧ n = m.edge.dst) := hg.isLive_iff
  exact
    { toSound := hsound
      size := hg.size.trans h.size
      isLive_iff := by
        intro n
        rw [hlive, h.isLive_iff, hnext.gone_cons_iff, ← habsorbs]
        tauto
      mem_children := by
        intro u v
        have hne := hm.src_ne_dst h.graph
        rw [hg.mem_children hm h.graph, Merge.removes_iff, hlive, hnext.reaches_cons_iff hnumbered,
          h.mem_children, h.mem_children]
        by_cases hu : u = m.edge.src
        · subst hu
          simp [hm.live_src, hm.live_dst, hne]
        · simp only [hu, false_and, false_or, not_false_eq_true, and_true]
          tauto
      table := by
        intro e hpn hnot hlate
        rw [List.mem_cons, not_or] at hnot
        rw [List.forall_mem_cons] at hlate
        rw [hg.table_of_kept hm, h.table hpn hnot.2 hlate.2]
        · -- it is not a table of the source that the merge changes
          rintro ⟨-, hc⟩
          exact absurd (h.graph.rank_lt hc) hlate.1.not_gt
        · -- nor is its edge removed
          rintro (he | ⟨-, hsrc⟩)
          · exact hnot.1 he
          · exact absurd (hnumbered _ _ hpn) (hsrc ▸ hlate.1.not_gt)
      head := by
        intro n entry hn
        rcases of_get_entries hmerge hn with ⟨habs, rfl, rfl⟩ | hn
        · exact h.head_of_absorbs hc hnumbered hm hnext habs
        · exact h.head hn }

end Swept

/-- What the next merge preserves all along, all merges preserve. -/
theorem exists_mergeAll [Cost α] {queue : List Edge} {P : List Edge → Stage α → Prop}
    (hstep : ∀ rest done e s, queue = rest ++ e :: done → P done s →
      ∃ s' m, s.merge e = .ok (s', m) ∧ P (e :: done) s') (rest : List Edge) :
    ∀ done s, queue = rest ++ done → P done s →
      ∃ s', s.mergeAll rest.reverse = .ok s' ∧ P queue s' := by
  induction rest using List.reverseRecOn with
  | nil =>
    rintro done s rfl h
    exact ⟨s, rfl, h⟩
  | append_singleton rest e ih =>
    intro done s hqueue h
    rw [List.append_assoc, List.singleton_append] at hqueue
    obtain ⟨s', m, hmerge, h'⟩ := hstep rest done e s hqueue h
    obtain ⟨s'', hrun, h''⟩ := ih (e :: done) s' hqueue h'
    refine ⟨s'', ?_, h''⟩
    rw [List.reverse_append, List.reverse_singleton, List.singleton_append, mergeAll_cons hmerge]
    exact hrun

end Stage

/-! ### Simplifying -/

namespace Reduction

variable {r r' : Reduction α}

/-- What simplifying leads to: the removable nodes are absorbed, each into its first predecessor,
    and the edges that are left lead around them. -/
structure Simplified (c : Catalog α) (r : Reduction α) : Prop where
  absorbed_iff (n : NodeId) : r.absorptions.contains n ↔ c.Removable n
  isLive_iff (n : NodeId) : r.graph.links.isLive n ↔
    n.index < c.size ∧ ¬ r.absorptions.contains n
  into_first (n : NodeId) (entry : Absorption) : r.absorptions.entries[n]? = some entry →
    (c.predecessors n).head? = some entry.into
  /-- First predecessors lead to the representative, which is the first one not absorbed. -/
  exists_representative (n : NodeId) : n.index < c.size → ∃ root, r.representative n = .ok root ∧
    ¬ r.absorptions.contains root ∧ Relation.ReflTransGen
      (fun n p => r.absorptions.contains n ∧ (c.predecessors n).head? = some p) n root
  /-- An edge stands for the declared paths whose inner nodes are all absorbed. -/
  exists_edge_iff (u v : NodeId) : (∃ t, (⟨u, v⟩, t) ∈ r.graph.edges) ↔
    r.graph.links.isLive u ∧ r.graph.links.isLive v ∧ ∃ x,
      Relation.ReflTransGen (fun a b => c.Precedes a b ∧ r.absorptions.contains b) u x ∧
        c.Precedes x v

theorem simplified_of_swept {s : Stage α} (h : s.Swept c g₀ c.mergeEdges) (hfits : c.Fits)
    (hgraph : r'.graph = s.graph) (hentries : r'.absorptions.entries = s.absorptions.entries)
    (hsound : r'.toStage.Sound NodeId.index) : Simplified c r' := by
  have habsorbed (n : NodeId) : r'.absorptions.contains n ↔ c.Removable n := by
    rw [Absorptions.contains, Std.ExtTreeMap.contains_iff_mem, hentries]
    exact h.mem_entries_iff_removable hfits
  have hlive (n : NodeId) : r'.graph.links.isLive n ↔ n.index < c.size ∧ ¬ c.Removable n := by
    rw [hgraph, h.isLive_iff, Catalog.gone_mergeEdges_iff hfits]
  have hinto {n : NodeId} {entry : Absorption} (hn : r'.absorptions.entries[n]? = some entry) :
      (c.predecessors n).head? = some entry.into := h.head (hentries ▸ hn)
  have hedge (u v : NodeId) :
      (∃ t, (⟨u, v⟩, t) ∈ r'.graph.edges) ↔ v ∈ r'.graph.links.children u := by
    rw [← hsound.graph.mem_tables, Std.ExtTreeMap.mem_iff_isSome_getElem?,
      Option.isSome_iff_exists]
    exact exists_congr fun t => Std.ExtTreeMap.mem_toList_iff_getElem?_eq_some
  exact
    { absorbed_iff := habsorbed
      isLive_iff := fun n => by rw [hlive, habsorbed]
      into_first := fun n entry => hinto
      exists_representative := by
        intro n hn
        obtain ⟨root, outer, hroot, hleads⟩ := Absorptions.exists_representative (α := α)
          hsound.coherent.composable hsound.right (hsound.ends n)
        refine ⟨root, ?_, ?_, ?_⟩
        · rw [representative, size, hgraph, h.size, if_pos hn, hroot]
        · rw [Absorptions.contains, Std.ExtTreeMap.contains_eq_isSome_getElem?, hleads.root_notMem]
          exact Bool.false_ne_true
        · refine Relation.ReflTransGen.mono ?_ n root hleads.reflTransGen
          intro a b hab
          obtain ⟨entry, hentry, rfl⟩ := hab
          refine ⟨?_, hinto hentry⟩
          rw [Absorptions.contains, Std.ExtTreeMap.contains_iff_mem]
          exact FiniteMap.mem_of_get hentry
      exists_edge_iff := by
        intro u v
        have hchild := h.mem_children (u := u) (v := v)
        rw [Catalog.reaches_mergeEdges_iff hfits, ← hgraph] at hchild
        simp only [hedge, habsorbed]
        constructor
        · intro hv
          obtain ⟨hu, -, hway⟩ := hchild.1 hv
          exact ⟨hu, hsound.graph.live_dst hv, hway⟩
        · rintro ⟨hu, hv, hway⟩
          exact hchild.2 ⟨hu, ((hlive v).1 hv).2, hway⟩ }

variable [Cost α] {settings : Settings α}

theorem Started.swept (h : Started settings c r) (hnumbered : c.Numbered) :
    r.toStage.Swept c r.graph [] := by
  have hc := h.consistent
  have hsize : r.graph.size = c.size := by rw [h.graph.size, Catalog.size_map]
  have hgone {n : NodeId} : ¬ c.Gone [] n := by
    rintro ⟨⟨p, hpn⟩, hall⟩
    exact List.not_mem_nil (hall p hpn)
  exact
    { toSound := h.sound hnumbered
      size := hsize
      isLive_iff := by
        intro n
        rw [h.graph.isLive_iff, Catalog.size_map, and_iff_left hgone]
      mem_children := by
        intro u v
        rw [h.graph.mem_children hc.map, Catalog.precedes_map, h.graph.isLive_iff,
          Catalog.size_map]
        constructor
        · intro huv
          exact ⟨(Catalog.index_lt_of_precedes hc huv).1, u, .refl, huv, List.not_mem_nil⟩
        · rintro ⟨-, x, hx, hxv, -⟩
          cases hx with
          | refl => exact hxv
          | tail _ hstep => cases hstep
      table := fun _ _ _ => rfl
      head := fun hn => by cases h.get_entries.symm.trans hn }

/-- Simplifying a fresh reduction merges along the whole queue; it leads to a stage as all the
    merges leave it, apart from the resolved entries. -/
theorem exists_simplify {P : List Edge → Stage α → Prop} (h : Started settings c r)
    (hsimplify : settings.simplify) (hstart : P [] r.toStage)
    (hstep : ∀ rest done e s, c.mergeEdges = rest ++ e :: done → P done s →
      ∃ s' m, s.merge e = .ok (s', m) ∧ P (e :: done) s')
    (hsound : ∀ done s, P done s → s.Sound NodeId.index) :
    ∃ r' s, r.simplify.2 = .ok r' ∧ P c.mergeEdges s ∧ r'.graph = s.graph ∧
      r'.absorptions.entries = s.absorptions.entries ∧ r'.toStage.Sound NodeId.index := by
  have hqueue : r.queue = c.mergeEdges := by rw [h.queue, if_pos hsimplify]
  have hpending : r.isPending := by
    rw [isPending, h.settings_eq, h.simplified, hsimplify]
    rfl
  obtain ⟨s, hrun, hs⟩ := Stage.exists_mergeAll hstep c.mergeEdges [] r.toStage
    (List.append_nil _).symm hstart
  obtain ⟨absorptions, hresolve, hentries, hresolved⟩ := (hsound _ _ hs).exists_resolve
  refine ⟨r.finish { s with absorptions }, s, ?_, hs, rfl, hentries, hresolved⟩
  exact (simplify_ok_iff hpending).2 ⟨s, _, hqueue ▸ hrun, hresolve, rfl⟩

/-- If each node is declared behind its predecessors, simplifying succeeds and absorbs exactly the
    mergeable nodes with predecessors. -/
theorem simplify_numbered (h : Startable settings c) (hsimplify : settings.simplify)
    (hnumbered : c.Numbered) : FromStart settings c fun r =>
      ∃ r', r.simplify.2 = .ok r' ∧ Simplified c r' := by
  refine h.fromStart fun r hr => ?_
  obtain ⟨r', s, hrun, hs, hgraph, hentries, hsound⟩ := exists_simplify hr hsimplify
    (hr.swept hnumbered) (fun rest done e s hqueue hs => by
      have hnext := Catalog.next_of_mergeEdges h.fits h.consistent hnumbered hqueue
      obtain ⟨s', m, hmerge⟩ := hs.exists_merge h.consistent hnext
      exact ⟨s', m, hmerge, hs.merge h.consistent hnumbered hnext hmerge⟩) fun _ _ hs => hs.toSound
  exact ⟨r', hrun, simplified_of_swept hs h.fits hgraph hentries hsound⟩

/-- Four nodes in a weave: both mergeable ones lead to the last node, and the second of them has
    the first one as its first predecessor. -/
def weave : Catalog (WithTop ℕ) where
  operators :=
    [⟨"a", [], [.ofIndex 1, .ofIndex 2], [⟨"s", []⟩, ⟨"t", []⟩], false⟩,
      ⟨"b", [.ofIndex 0], [.ofIndex 2, .ofIndex 3], [⟨"s", [[0, 7]]⟩, ⟨"t", [[6, 1]]⟩], true⟩,
      ⟨"c", [.ofIndex 1, .ofIndex 0], [.ofIndex 3],
        [⟨"s", [[1, 6], [0, 7]]⟩, ⟨"t", [[7, 12], [6, 1]]⟩], true⟩,
      ⟨"d", [.ofIndex 2, .ofIndex 1], [], [⟨"s", [[7, 0], [1, 6]]⟩], false⟩]

theorem weave_numbered : weave.Numbered := Catalog.numbered_of_forall (by decide)

theorem weave_startable : StartableAcyclic ⟨true, some 8⟩ weave :=
  ⟨⟨by decide, by decide, by decide⟩, weave_numbered.acyclic⟩

theorem weave_simplify_numbered : FromStart ⟨true, some 8⟩ weave fun r => ∃ r',
    r.simplify.2 = .ok r' ∧ Simplified weave r' :=
  simplify_numbered weave_startable.toStartable rfl weave_numbered

end Reduction

end Reshard
