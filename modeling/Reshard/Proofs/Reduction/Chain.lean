import Reshard.Proofs.Graph.Chain
import Reshard.Proofs.Reduction.Exchange
import Reshard.Proofs.Reduction.Representative

/-! Merging along a chain is associative.

    The lower of two nodes on a chain can be absorbed first, by the one in the middle, or last, by
    the node at the top. The record of absorptions then has either a chain of two entries or a
    shortcut, and says the same once it is resolved (`absorbing_chain_associative`). -/

namespace Reshard.Reduction

variable {α : Type} {rank : NodeId → Nat} {s s₁ s₂ : Reduction α}

/-- Reductions of one size whose chains lead to the same nodes represent nodes by the same ones. -/
theorem representative_congr (h₁ : s₁.toStage.Sound rank) (h₂ : s₂.toStage.Sound rank)
    (hsize : s₁.size = s₂.size)
    (hsame : ∀ root n outer, Absorptions.LeadsTo s₁.absorptions.entries root n outer ↔
      Absorptions.LeadsTo s₂.absorptions.entries root n outer) (n : NodeId) :
    s₁.representative n = s₂.representative n := by
  by_cases hn : n.index < s₁.size
  · obtain ⟨root, hroot⟩ := exists_representative h₁.coherent h₁.ends hn
    rw [hroot, eq_comm, representative_ok_iff h₂.coherent h₂.ends, ← hsize]
    simp only [← hsame]
    exact (representative_ok_iff h₁.coherent h₁.ends).1 hroot
  · rw [representative, representative, if_neg hn, if_neg (hsize ▸ hn)]

/-- Both records can be resolved, with the same entry for each absorbed node, and represent nodes by
    the same ones then. -/
def ResolveAlike (s₁ s₂ : Reduction α) : Prop :=
  ∃ resolved, s₁.absorptions.resolve (α := α) = ({ s₁.absorptions with resolved }, .ok ()) ∧
    s₂.absorptions.resolve (α := α) = ({ s₂.absorptions with resolved }, .ok ()) ∧
    (∀ n, n ∈ resolved ↔ n.index < s₁.size ∧ s₁.graph.links.isLive n = false) ∧
    ∀ n, (s₁.withResolved resolved).representative n = (s₂.withResolved resolved).representative n

theorem resolveAlike_of_leadsTo_iff (h₁ : s₁.toStage.Sound rank) (h₂ : s₂.toStage.Sound rank)
    (hsize : s₁.size = s₂.size)
    (hsame : ∀ root n outer, Absorptions.LeadsTo s₁.absorptions.entries root n outer ↔
      Absorptions.LeadsTo s₂.absorptions.entries root n outer) : s₁.ResolveAlike s₂ := by
  obtain ⟨resolved, hrun, hright, hall⟩ :=
    Absorptions.exists_resolve (α := α) h₁.coherent.composable h₁.right h₁.ends
  obtain ⟨resolved', hrun', hright', hall'⟩ :=
    Absorptions.exists_resolve (α := α) h₂.coherent.composable h₂.right h₂.ends
  obtain rfl := hright.ext hright' hall hall' hsame
  refine ⟨resolved, hrun, hrun', fun n => ?_, fun n => ?_⟩
  · rw [← Bool.not_eq_true]
    exact ⟨fun hn => h₁.mem_entries.1 (hright.mem_entries hn),
      fun hn => hall n (h₁.mem_entries.2 hn)⟩
  · rw [representative_withResolved h₁.coherent h₁.ends hright,
      representative_withResolved h₂.coherent h₂.ends hright']
    exact representative_congr h₁ h₂ hsize hsame n

variable [Cost α] [ExactCost α] {settings : Settings α} {c : Catalog α} {t₁ t₂ : Reduction α}
  {top middle bottom : NodeId}

/-- Two entries that make a chain lead where the upper one and a shortcut to its end lead. -/
theorem leadsTo_enter_iff (a : Absorptions) {own next composed : List Nat}
    (hcompose : Absorptions.compose? (some next) own = some composed)
    (htop : a.entries[top]? = none) (hne : top ≠ middle) (hne' : top ≠ bottom)
    (hmiddle : middle ≠ bottom) {root n : NodeId} {outer : Option (List Nat)} :
    Absorptions.LeadsTo ((a.enter bottom ⟨middle, own⟩).enter middle ⟨top, next⟩).entries root n
        outer ↔
      Absorptions.LeadsTo ((a.enter middle ⟨top, next⟩).enter bottom ⟨top, composed⟩).entries root n
        outer := by
  refine Absorptions.leadsTo_shortcut_iff hcompose ?_ hmiddle hne' ?_ ?_ ?_ ?_ <;>
    simp only [Absorptions.enter, FiniteMap.get_insert, if_true]
  · intro k hk
    rw [if_neg hk.symm, if_neg hk.symm]
  · rw [if_neg hmiddle]
  · rw [if_neg hne.symm, if_neg hne'.symm, htop]

theorem exists_reassociation (h : s.toStage.Sound rank) (hupper : s.Absorbs ⟨top, middle⟩ t₁)
    (hlower : s.Absorbs ⟨middle, bottom⟩ t₂) : ∃ s₁ s₂, t₂.Absorbs ⟨top, middle⟩ s₁ ∧
      t₁.Absorbs ⟨top, bottom⟩ s₂ ∧ s₁.graph.Alike s₂.graph ∧ s₁.ResolveAlike s₂ := by
  have ht₁ := hupper.sound h
  have ht₂ := hlower.sound h
  obtain ⟨upper, g₁, hedge, hup, rfl⟩ := (absorbs_iff h).1 hupper
  obtain ⟨lower, g₂, hedge', hlow, rfl⟩ := (absorbs_iff h).1 hlower
  have hchain : upper.edge.dst = lower.edge.src := by rw [hedge, hedge']
  obtain ⟨upper', g₂₁, hup', hchoice, ha₂₁⟩ := hup.exists_upper hlow h.graph hchain
  obtain ⟨lower', g₁₂, hlow', ha₁₂⟩ := hup.exists_lower hlow h.graph hchain
  have halike := hup.alike_of_chain hlow h.graph hchain hlow' ha₁₂ hup' hchoice ha₂₁
  have hcompose := hup.chain_choice hlow h.graph hchain hlow' ha₁₂
  have hs₁ := (absorbs_iff ht₂).2 ⟨upper', g₂₁, hup'.trans hedge, ha₂₁, rfl⟩
  have hs₂ := (absorbs_iff (e := ⟨top, bottom⟩) ht₁).2
    ⟨lower', g₁₂, by rw [hlow', hedge, hedge'], ha₁₂, rfl⟩
  refine ⟨_, _, hs₁, hs₂, halike, resolveAlike_of_leadsTo_iff (hs₁.sound ht₂) (hs₂.sound ht₁)
    (congrArg List.length halike.widths) fun root n outer => ?_⟩
  have hne := hup.plan.src_ne_dst h.graph
  have hne' := hup.chain_src_ne hlow h.graph hchain
  have hmiddle := hlow.plan.src_ne_dst h.graph
  have htop : s.absorptions.entries[upper.edge.src]? = none :=
    Std.ExtTreeMap.getElem?_eq_none fun hmem => (h.mem_entries.1 hmem).2 hup.plan.live_src
  simp only [adopt, hup', hlow', hchoice, hedge, hedge'] at hne hne' hmiddle htop ⊢
  exact leadsTo_enter_iff s.absorptions hcompose htop hne hne' hmiddle

/-- After any run of calls for a catalog without cycles, two merges along a chain that absorb may be
    made from below or from above. Both ways absorb both nodes and lead to the same live nodes,
    tables and extra costs of live nodes, and to the same links up to their order; resolved, the
    absorptions are the same. -/
theorem absorbing_chain_associative (h : StartableAcyclic settings c) :
    FromStart settings c fun r => ∀ calls,
      let s := r.run calls
      ∀ top middle bottom t₁ t₂, s.Absorbs ⟨top, middle⟩ t₁ → s.Absorbs ⟨middle, bottom⟩ t₂ →
        ∃ s₁ s₂, t₂.Absorbs ⟨top, middle⟩ s₁ ∧ t₁.Absorbs ⟨top, bottom⟩ s₂ ∧
          s₁.graph.Alike s₂.graph ∧ s₁.ResolveAlike s₂ := by
  refine h.fromStart_sound fun r rank hr hsound => ?_
  intro calls s top middle bottom t₁ t₂
  exact exists_reassociation (sound_run calls hsound)

set_option maxRecDepth 4000 in
/-- The third node has the second one as its only parent once the first one was merged with it. -/
theorem weave_absorbing_chain_associative : FromStart ⟨true, some 8⟩ weave fun r =>
    ∃ t₁ t₂ s₁ s₂,
    (r.run [.merge ⟨.ofIndex 0, .ofIndex 2⟩]).Absorbs ⟨.ofIndex 0, .ofIndex 1⟩ t₁ ∧
    (r.run [.merge ⟨.ofIndex 0, .ofIndex 2⟩]).Absorbs ⟨.ofIndex 1, .ofIndex 2⟩ t₂ ∧
    t₂.Absorbs ⟨.ofIndex 0, .ofIndex 1⟩ s₁ ∧ t₁.Absorbs ⟨.ofIndex 0, .ofIndex 2⟩ s₂ ∧
    s₁.graph.Alike s₂.graph ∧ s₁.ResolveAlike s₂ := by
  obtain ⟨r, event, hstart, h⟩ := absorbing_chain_associative weave_startable
  let calls : List Call := [.merge ⟨.ofIndex 0, .ofIndex 2⟩]
  obtain ⟨t₁, h₁⟩ : ∃ t₁, (r.run calls).Absorbs ⟨.ofIndex 0, .ofIndex 1⟩ t₁ :=
    exists_absorbs_of_any (by decide +kernel) hstart
  obtain ⟨t₂, h₂⟩ : ∃ t₂, (r.run calls).Absorbs ⟨.ofIndex 1, .ofIndex 2⟩ t₂ :=
    exists_absorbs_of_any (by decide +kernel) hstart
  obtain ⟨s₁, s₂, hend⟩ := h calls _ _ _ t₁ t₂ h₁ h₂
  exact ⟨r, event, hstart, t₁, t₂, s₁, s₂, h₁, h₂, hend⟩

end Reshard.Reduction
