import Reshard.Proofs.Reduction.Replay

/-! Which merges are accepted.

    In a sound graph a merge has a table, a strategy to choose on each line, and tables of one shape
    to add up. So it is refused only for what its two ends are (`Graph.Refuses`), which is found out
    before anything is written, and it is accepted exactly along the links of live nodes
    (`merge_decided_run`). -/

namespace Reshard

variable {α : Type} {rank : NodeId → Nat} {e : Edge} {fault : Fault α}

namespace Graph

variable {g : Graph α}

/-- The first condition for a merge that the ends of an edge do not meet. -/
inductive Refuses (g : Graph α) (e : Edge) : Fault α → Prop
  | unknownSrc : ¬ e.src.index < g.size → Refuses g e (.unknownNode e.src)
  | unknownDst : e.src.index < g.size → ¬ e.dst.index < g.size →
      Refuses g e (.unknownNode e.dst)
  | notLive : e.src.index < g.size → e.dst.index < g.size →
      ¬ (g.links.isLive e.src ∧ g.links.isLive e.dst) → Refuses g e (.refused e .notLive)
  | notParent : g.links.isLive e.src → g.links.isLive e.dst →
      e.src ∉ g.links.parents e.dst → Refuses g e (.refused e .notParent)

namespace Sound

variable (h : g.Sound rank)
include h

/-- There is a table for each edge that passes the other checks. -/
theorem mergeable_error_iff : g.mergeable e = .error fault ↔ g.Refuses e fault := by
  simp only [mergeable, guarded_error_iff, Fault.require_error_iff, Links.contains, h.size_links,
    decide_eq_true_eq, Bool.and_eq_true]
  constructor
  · rintro (⟨hsrc, rfl⟩ | ⟨hsrc, ⟨hdst, rfl⟩ | ⟨hdst, ⟨hlive, rfl⟩ | ⟨hlive, ⟨hp, rfl⟩ |
      ⟨hp, hnone, -⟩⟩⟩⟩)
    · exact .unknownSrc hsrc
    · exact .unknownDst hsrc hdst
    · exact .notLive hsrc hdst hlive
    · exact .notParent hlive.1 hlive.2 hp
    · obtain ⟨t, ht⟩ := h.exists_table (h.mem_parents.1 hp)
      cases hnone.symm.trans ht
  · rintro (hsrc | ⟨hsrc, hdst⟩ | ⟨hsrc, hdst, hlive⟩ | ⟨hsrc, hdst, hp⟩)
    · exact .inl ⟨hsrc, rfl⟩
    · exact .inr ⟨hsrc, .inl ⟨hdst, rfl⟩⟩
    · exact .inr ⟨hsrc, .inr ⟨hdst, .inl ⟨hlive, rfl⟩⟩⟩
    · exact .inr ⟨h.index_lt_of_isLive hsrc, .inr ⟨h.index_lt_of_isLive hdst,
        .inr ⟨⟨hsrc, hdst⟩, .inl ⟨hp, rfl⟩⟩⟩⟩

variable [Cost α]

/-- A merge along a link is worked out to the end. -/
theorem prepare_error_iff : g.prepare e = .error fault ↔ g.Refuses e fault := by
  rw [← h.mergeable_error_iff, prepare, bind_error_iff, or_iff_left]
  rintro ⟨t, hmergeable, hfault⟩
  obtain ⟨m, hm⟩ := h.exists_plan (h.mem_parents.1 (mergeable_ok_iff.1 hmergeable).2.1)
  have hprepare := prepare_ok_iff.2 hm
  rw [prepare, hmergeable] at hprepare
  cases hfault.symm.trans hprepare

/-- A merge that is worked out can be written. -/
theorem merge_error_iff : g.merge e = .error fault ↔ g.Refuses e fault := by
  rw [← h.prepare_error_iff, Graph.merge, bind_error_iff, or_iff_left]
  rintro ⟨m, hprepare, hperform⟩
  obtain ⟨-, hm⟩ := prepare_ok_iff.1 hprepare
  obtain ⟨g', hg', -⟩ := hm.exists_performed h.coherent
  rw [hg'] at hperform
  cases hperform

end Sound

variable [Cost α]

/-- A node is absorbed exactly if the source is its only parent. -/
theorem Plan.absorbs_iff_parents {m : Merge α} (hm : g.Plan m) (h : g.Sound rank) :
    m.absorbs ↔ g.links.parents m.edge.dst = [m.edge.src] := by
  constructor
  · intro habsorbs
    have hnodup := h.parents_nodup m.edge.dst
    refine List.perm_singleton.1 ((List.perm_ext_iff_of_nodup hnodup (List.nodup_singleton _)).2 ?_)
    intro p
    rw [List.mem_singleton]
    exact ⟨hm.eq_src_of_absorbs habsorbs, fun hp => hp ▸ hm.linked⟩
  · intro hparents
    rw [hm.absorbs_iff, hparents]
    exact fun p => List.mem_singleton.1

end Graph

namespace Reduction

variable [Cost α] {s s' : Reduction α} {event : Event α}

theorem merge_error_iff (h : s.toStage.Sound rank) :
    s.merge e = .error fault ↔ s.graph.Refuses e fault := by
  rw [← h.graph.merge_error_iff, merge, bind_error_iff, or_iff_left, Stage.merge, bind_error_iff,
    or_iff_left]
  all_goals
    rintro ⟨_, -, hpure⟩
    cases hpure

/-- A merge is accepted exactly along a link of live nodes, and otherwise refused before anything is
    written. It absorbs its destination exactly if that has no other parent. -/
structure Decided (s : Reduction α) (e : Edge) : Prop where
  exists_merge_iff : (∃ s' event, s.merge e = .ok (s', event)) ↔
    (e.src.index < s.size ∧ e.dst.index < s.size) ∧
      (s.graph.links.isLive e.src ∧ s.graph.links.isLive e.dst) ∧
        e.src ∈ s.graph.links.parents e.dst
  merge_error_iff {fault : Fault α} : s.merge e = .error fault ↔ s.graph.Refuses e fault
  prepare_error_iff {fault : Fault α} : s.merge e = .error fault ↔ s.graph.prepare e = .error fault
  after_of_error {fault : Fault α} : s.merge e = .error fault → s.after (.merge e) = s
  live_iff {s' : Reduction α} {event : Event α} : s.merge e = .ok (s', event) →
    (¬ s'.graph.links.isLive e.dst ↔ s.graph.links.parents e.dst = [e.src])
  absorbed_iff {s' : Reduction α} {event : Event α} : s.merge e = .ok (s', event) →
    (s'.absorptions.contains e.dst ↔ s.graph.links.parents e.dst = [e.src])

theorem decided_of_sound (h : s.toStage.Sound rank) (e : Edge) : s.Decided e := by
  have hdst {s' : Reduction α} {event : Event α} (hmerge : s.merge e = .ok (s', event)) :
      (¬ s'.graph.links.isLive e.dst ↔ s.graph.links.parents e.dst = [e.src]) ∧
        (s'.absorptions.contains e.dst ↔ ¬ s'.graph.links.isLive e.dst) := by
    obtain ⟨stage, m, hstage, rfl, -⟩ := merge_ok_iff.1 hmerge
    obtain ⟨rfl, hm, hg⟩ := h.coherent.of_merge hstage
    have hlt := hg.size.symm ▸ h.graph.index_lt_of_isLive hm.live_dst
    constructor
    · rw [← hm.absorbs_iff_parents h.graph, hg.isLive_iff, hm.live_dst]
      simp
    · rw [Absorptions.contains, Std.ExtTreeMap.contains_iff_mem, (h.merge hstage).mem_entries,
        and_iff_right hlt]
  exact
    { exists_merge_iff := by
        constructor
        · rintro ⟨s', event, hmerge⟩
          obtain ⟨stage, m, hstage, -⟩ := merge_ok_iff.1 hmerge
          obtain ⟨hsrc, hdst, hp⟩ := h.exists_merge_iff.1 ⟨stage, m, hstage⟩
          exact ⟨⟨h.graph.index_lt_of_isLive hsrc, h.graph.index_lt_of_isLive hdst⟩,
            ⟨hsrc, hdst⟩, hp⟩
        · rintro ⟨-, ⟨hsrc, hdst⟩, hp⟩
          obtain ⟨stage, m, hstage⟩ := h.exists_merge_iff.2 ⟨hsrc, hdst, hp⟩
          exact ⟨_, _, merge_ok_iff.2 ⟨stage, m, hstage, rfl, rfl⟩⟩
      merge_error_iff := merge_error_iff h
      prepare_error_iff := by
        intro fault
        rw [merge_error_iff h, h.graph.prepare_error_iff]
      after_of_error := by
        intro fault hmerge
        rw [after, hmerge]
        rfl
      live_iff := fun hmerge => (hdst hmerge).1
      absorbed_iff := fun hmerge => (hdst hmerge).2.trans (hdst hmerge).1 }

variable {settings : Settings α} {c : Catalog α}

/-- After any run of calls for a catalog without cycles, it is decided by the ends of an edge
    whether a merge is accepted. -/
theorem merge_decided_run (h : StartableAcyclic settings c) :
    FromStart settings c fun r => ∀ calls e, (r.run calls).Decided e :=
  h.fromStart_sound fun _ _ _ hsound calls e => decided_of_sound (sound_run calls hsound) e

/-- A merge that leaves the first node as the only parent of the third. -/
def weaveRelease : List Call := [.merge ⟨.ofIndex 1, .ofIndex 2⟩]

set_option maxRecDepth 4000 in
/-- A second merge absorbs the third node; merging it with its own parent before is refused. -/
theorem weave_merge_decided_run : FromStart ⟨true, some 8⟩ weave fun r =>
    (∀ e, (r.run weaveRelease).Decided e) ∧
    (∃ s' event', (r.run weaveRelease).merge ⟨.ofIndex 0, .ofIndex 2⟩ = .ok (s', event') ∧
      s'.absorptions.contains (.ofIndex 2)) ∧
    (r.run weaveRelease).merge ⟨.ofIndex 1, .ofIndex 2⟩ =
      .error (.refused ⟨.ofIndex 1, .ofIndex 2⟩ .notParent) := by
  obtain ⟨r, event, hstart, h⟩ := merge_decided_run weave_startable
  have hrun := of_any (P := fun p : _ × _ =>
    let s := p.1.run weaveRelease
    (∀ i < 3, (NodeId.ofIndex i).index < s.size ∧ s.graph.links.isLive (.ofIndex i)) ∧
      s.graph.links.parents (.ofIndex 2) = [.ofIndex 0]) (by decide +kernel) hstart
  obtain ⟨hlive, hparents⟩ := hrun
  have hsrc := hlive 0 (by decide)
  have hsrc' := hlive 1 (by decide)
  have hdst := hlive 2 (by decide)
  refine ⟨r, event, hstart, h weaveRelease, ?_, ?_⟩
  · obtain ⟨s', event', hmerge⟩ := (h weaveRelease ⟨.ofIndex 0, .ofIndex 2⟩).exists_merge_iff.2
      ⟨⟨hsrc.1, hdst.1⟩, ⟨hsrc.2, hdst.2⟩, by rw [hparents]; decide⟩
    exact ⟨s', event', hmerge, ((h weaveRelease _).absorbed_iff hmerge).2 hparents⟩
  · exact (h weaveRelease _).merge_error_iff.2
      (.notParent hsrc'.2 hdst.2 (by rw [hparents]; decide))

end Reduction

end Reshard
