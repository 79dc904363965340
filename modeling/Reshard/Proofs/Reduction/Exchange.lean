import Reshard.Proofs.Graph.Exchange
import Reshard.Proofs.Reduction.Simplify

/-! Independent merges commute.

    `Absorbs` says that a merge succeeds and takes its destination out of the graph. Two independent
    merges of which each absorbs may be made in either order: each still absorbs after the other,
    and both orders lead to the same reduction up to the order of links
    (`absorbing_merges_commute`). -/

namespace Reshard

theorem Absorptions.enter_comm (a : Absorptions) {n n' : NodeId} (hne : n ≠ n')
    (entry entry' : Absorption) :
    (a.enter n entry).enter n' entry' = (a.enter n' entry').enter n entry := by
  refine congrArg (Absorptions.mk · ∅) (Std.ExtTreeMap.ext_getElem? fun {k} => ?_)
  simp only [enter, FiniteMap.get_insert]
  by_cases hn : n = k
  · rw [if_neg fun heq => hne (hn.trans heq.symm), if_pos hn, if_pos hn]
  · rw [if_neg hn, if_neg hn]

namespace Reduction

variable {α : Type} [Cost α] {rank : NodeId → Nat} {s s' : Reduction α} {e : Edge}

/-- Merging along `e` succeeds and leads to `s'`, where the destination is not live any more. -/
def Absorbs (s : Reduction α) (e : Edge) (s' : Reduction α) : Prop :=
  (∃ event, s.merge e = .ok (s', event)) ∧ s'.graph.links.isLive e.dst = false

/-- The reduction when the merge `m` has led to the graph `g'` and absorbed its destination. -/
def adopt (s : Reduction α) (m : Merge α) (g' : Graph α) : Reduction α :=
  { s with
    graph := g'
    absorptions := s.absorptions.enter m.edge.dst ⟨m.edge.src, m.choice⟩ }

/-- What absorbing a node does to the graph and to the record of absorptions. -/
theorem absorbs_iff (h : s.toStage.Sound rank) : s.Absorbs e s' ↔
    ∃ m g', m.edge = e ∧ s.graph.Absorbed m g' ∧ s' = s.adopt m g' := by
  constructor
  · rintro ⟨⟨event, hcall⟩, hdead⟩
    obtain ⟨stage, m, hmerge, rfl, -⟩ := merge_ok_iff.1 hcall
    obtain ⟨rfl, hm, hg⟩ := h.coherent.of_merge hmerge
    obtain ⟨hgraph, hentries⟩ := Stage.merge_ok_iff.1 hmerge
    have habsorbs : m.absorbs := by
      by_contra hkept
      have hlive := hg.isLive_iff.2 ⟨hm.live_dst, fun heq => hkept heq.1⟩
      exact Bool.false_ne_true (hdead.symm.trans hlive)
    rw [if_pos habsorbs] at hentries
    exact ⟨m, stage.graph, rfl, ⟨hgraph, habsorbs⟩, by rw [adopt, ← hentries]⟩
  · rintro ⟨m, g', rfl, ha, rfl⟩
    refine ⟨⟨_, merge_ok_iff.2 ⟨⟨g', _⟩, m, Stage.merge_ok_iff.2 ⟨ha.merge, ?_⟩, rfl, rfl⟩⟩, ?_⟩
    · rw [if_pos ha.absorbs]
    · exact Bool.eq_false_iff.2 fun hlive => ((ha.isLive_iff h.graph).1 hlive).2 rfl

theorem Absorbs.sound (ha : s.Absorbs e s') (h : s.toStage.Sound rank) :
    s'.toStage.Sound rank := by
  obtain ⟨⟨event, hcall⟩, -⟩ := ha
  obtain ⟨stage, m, hmerge, rfl, -⟩ := merge_ok_iff.1 hcall
  exact h.merge hmerge

variable {settings : Settings α} {c : Catalog α}

/-- A merge that was found to take its destination out of the graph. -/
theorem exists_absorbs_of_any {r : Reduction α} {event : Event α} {calls : List Call}
    (h : (start settings c).toOption.any fun p => ((p.1.run calls).merge e).toOption.any fun q =>
      decide (q.1.graph.links.isLive e.dst = false)) (hstart : start settings c = .ok (r, event)) :
    ∃ s', (r.run calls).Absorbs e s' := by
  rw [hstart] at h
  obtain ⟨⟨s', event'⟩, hmerge, hdead⟩ := exists_of_any h
  exact ⟨s', ⟨event', hmerge⟩, hdead⟩

variable [ExactCost α] {t₁ t₂ : Reduction α} {e₁ e₂ : Edge}

theorem exists_exchange (h : s.toStage.Sound rank) (h₁ : s.Absorbs e₁ t₁) (h₂ : s.Absorbs e₂ t₂)
    (hind : e₁.Independent e₂) : ∃ s₁₂ s₂₁, t₁.Absorbs e₂ s₁₂ ∧ t₂.Absorbs e₁ s₂₁ ∧
      s₁₂.graph.Alike s₂₁.graph ∧ s₁₂.graph.extras = s₂₁.graph.extras ∧
      s₁₂.absorptions = s₂₁.absorptions := by
  have hs₁ := h₁.sound h
  have hs₂ := h₂.sound h
  obtain ⟨m₁, g₁, rfl, ha₁, rfl⟩ := (absorbs_iff h).1 h₁
  obtain ⟨m₂, g₂, rfl, ha₂, rfl⟩ := (absorbs_iff h).1 h₂
  obtain ⟨m₂', g₁₂, hedge₂, hchoice₂, ha₁₂⟩ := ha₁.exists_after ha₂ h.graph hind
  obtain ⟨m₁', g₂₁, hedge₁, hchoice₁, ha₂₁⟩ := ha₂.exists_after ha₁ h.graph hind.symm
  obtain ⟨halike, hextras⟩ := ha₁.alike_of_independent ha₂ h.graph hind hedge₂ hchoice₂ hedge₁
    hchoice₁ ha₁₂ ha₂₁
  refine ⟨_, _, (absorbs_iff hs₁).2 ⟨m₂', g₁₂, hedge₂, ha₁₂, rfl⟩,
    (absorbs_iff hs₂).2 ⟨m₁', g₂₁, hedge₁, ha₂₁, rfl⟩, halike, hextras, ?_⟩
  simp only [adopt, hedge₁, hedge₂, hchoice₁, hchoice₂]
  exact Absorptions.enter_comm _ hind.dst_ne _ _

/-- After any run of calls for a catalog without cycles, two independent merges of which each
    absorbs still absorb after each other, and both orders lead to the same live nodes, tables,
    extra costs and absorptions, and to the same links up to their order. -/
theorem absorbing_merges_commute (h : StartableAcyclic settings c) :
    FromStart settings c fun r => ∀ calls,
      let s := r.run calls
      ∀ e₁ e₂ t₁ t₂, s.Absorbs e₁ t₁ → s.Absorbs e₂ t₂ → e₁.Independent e₂ →
        ∃ s₁₂ s₂₁, t₁.Absorbs e₂ s₁₂ ∧ t₂.Absorbs e₁ s₂₁ ∧ s₁₂.graph.Alike s₂₁.graph ∧
          s₁₂.graph.extras = s₂₁.graph.extras ∧ s₁₂.absorptions = s₂₁.absorptions := by
  refine h.fromStart_sound fun r rank hr hsound => ?_
  intro calls s e₁ e₂ t₁ t₂
  exact exists_exchange (sound_run calls hsound)

/-- Four nodes in a kite: both mergeable nodes have the first one as their parent and the last one
    as their child. -/
def kite : Catalog (WithTop ℕ) where
  operators :=
    [⟨"a", [], [.ofIndex 1, .ofIndex 2], [⟨"s", []⟩, ⟨"t", []⟩], false⟩,
      ⟨"b", [.ofIndex 0], [.ofIndex 3], [⟨"s", [[0, 13]]⟩, ⟨"t", [[1, 1]]⟩], true⟩,
      ⟨"c", [.ofIndex 0], [.ofIndex 3], [⟨"s", [[1, 0]]⟩, ⟨"t", [[0, 1]]⟩], true⟩,
      ⟨"d", [.ofIndex 1, .ofIndex 2], [],
        [⟨"s", [[1, 0], [0, 1]]⟩, ⟨"t", [[0, 13], [1, 1]]⟩], false⟩]

set_option maxRecDepth 4000 in
theorem kite_absorbing_merges_commute : FromStart ⟨true, some 8⟩ kite fun r =>
    ∃ t₁ t₂ s₁₂ s₂₁,
    r.Absorbs ⟨.ofIndex 0, .ofIndex 1⟩ t₁ ∧ r.Absorbs ⟨.ofIndex 0, .ofIndex 2⟩ t₂ ∧
    t₁.Absorbs ⟨.ofIndex 0, .ofIndex 2⟩ s₁₂ ∧ t₂.Absorbs ⟨.ofIndex 0, .ofIndex 1⟩ s₂₁ ∧
    s₁₂.graph.Alike s₂₁.graph ∧ s₁₂.graph.extras = s₂₁.graph.extras ∧
    s₁₂.absorptions = s₂₁.absorptions := by
  have hstartable : StartableAcyclic ⟨true, some 8⟩ kite :=
    ⟨⟨by decide, by decide, by decide⟩, (Catalog.numbered_of_forall (by decide)).acyclic⟩
  obtain ⟨r, event, hstart, h⟩ := absorbing_merges_commute hstartable
  obtain ⟨t₁, h₁⟩ : ∃ t₁, (r.run []).Absorbs ⟨.ofIndex 0, .ofIndex 1⟩ t₁ :=
    exists_absorbs_of_any (by decide +kernel) hstart
  obtain ⟨t₂, h₂⟩ : ∃ t₂, (r.run []).Absorbs ⟨.ofIndex 0, .ofIndex 2⟩ t₂ :=
    exists_absorbs_of_any (by decide +kernel) hstart
  obtain ⟨s₁₂, s₂₁, hend⟩ := h [] _ _ t₁ t₂ h₁ h₂ ⟨by decide, by decide, by decide⟩
  exact ⟨r, event, hstart, t₁, t₂, s₁₂, s₂₁, h₁, h₂, hend⟩

end Reduction

end Reshard
