import Reshard.Proofs.Graph.Absorbed

/-! Merging along a chain.

    A chain leads from a node over its child to a grandchild, and each of the two lower nodes has no
    other parent. It does not matter whether the lower link is merged first and then the upper one,
    or the upper one first and then the edge to the grandchild that this makes: the last of these
    merges chooses, line by line, what the two choices amount to together (`chain_choice`), and both
    ways end alike (`alike_of_chain`). -/

namespace Reshard.Graph.Absorbed

variable {α : Type} [Cost α] {rank : NodeId → Nat} {g g₁ g₂ g₁₂ g₂₁ : Graph α}
  {upper lower upper' lower' : Merge α} {u c n : NodeId} {i j k : Nat}

section Chain

variable (hupper : g.Absorbed upper g₁) (hlower : g.Absorbed lower g₂) (hg : g.Sound rank)
  (hchain : upper.edge.dst = lower.edge.src)
include hupper hlower hg hchain

theorem chain_src_ne : upper.edge.src ≠ lower.edge.dst := by
  intro heq
  have hup := hg.rank_lt (hupper.plan.child hg)
  have hdown := hg.rank_lt (hlower.plan.child hg)
  rw [heq, hchain] at hup
  exact hup.asymm hdown

omit hupper in
theorem chain_dst_ne : lower.edge.dst ≠ upper.edge.dst :=
  hchain ▸ (hlower.plan.src_ne_dst hg).symm

/-- After the lower link the upper one can still be merged along, and the choice is the same. -/
theorem exists_upper : ∃ upper' g₂₁, upper'.edge = upper.edge ∧ upper'.choice = upper.choice ∧
    g₂.Absorbed upper' g₂₁ := by
  have hsrc := hupper.chain_src_ne hlower hg hchain
  have hdst := (hlower.chain_dst_ne hg hchain).symm
  have hchild : upper.edge.dst ∈ g₂.links.children upper.edge.src :=
    (hlower.mem_children hg).2 ⟨⟨hsrc, hdst⟩, .inl (hupper.plan.child hg)⟩
  have hsingle : ∀ p, upper.edge.dst ∈ g₂.links.children p → p = upper.edge.src := by
    intro p hp
    rcases ((hlower.mem_children hg).1 hp).2 with hp | ⟨-, hback⟩
    · exact hupper.eq_src hg hp
    · exact absurd (hg.rank_lt (hchain ▸ hback)) (hg.rank_lt (hlower.plan.child hg)).asymm
  obtain ⟨upper', g₂₁, hedge, h₂₁⟩ := (hlower.sound hg).exists_absorbed hchild hsingle
  refine ⟨upper', g₂₁, hedge, h₂₁.plan.choice_eq hupper.plan ?_, h₂₁⟩
  rw [hedge]
  exact hlower.table_eq hg hsrc hdst fun heq =>
    absurd (heq.trans hchain.symm) (hupper.plan.src_ne_dst hg)

/-- After the upper link the grandchild is a child of the upper source, and of no other node. -/
theorem exists_lower : ∃ lower' g₁₂, lower'.edge = ⟨upper.edge.src, lower.edge.dst⟩ ∧
    g₁.Absorbed lower' g₁₂ := by
  have hlink : lower.edge.dst ∈ g.links.children upper.edge.dst :=
    hchain.symm ▸ hlower.plan.child hg
  refine (hupper.sound hg).exists_absorbed ?_ ?_
  · exact (hupper.mem_children hg).2
      ⟨⟨hupper.plan.src_ne_dst hg, hlower.chain_dst_ne hg hchain⟩, .inr ⟨rfl, hlink⟩⟩
  · intro p hp
    obtain ⟨⟨hne, -⟩, hp | ⟨rfl, -⟩⟩ := (hupper.mem_children hg).1 hp
    · exact absurd ((hlower.eq_src hg hp).trans hchain.symm) hne
    · rfl

variable (hedge : lower'.edge = ⟨upper.edge.src, lower.edge.dst⟩) (h₁₂ : g₁.Absorbed lower' g₁₂)
include hedge h₁₂

/-- The derived table has the lines of the lower one at the strategies that the upper merge chose,
    so the choice on it is that of the lower merge. -/
theorem chain_choice : upper.choice.mapM (lower.choice[·]?) = some lower'.choice := by
  have hlink : lower.edge.dst ∈ g.links.children upper.edge.dst :=
    hchain.symm ▸ hlower.plan.child hg
  have hnone : g.tables[(⟨upper.edge.src, lower.edge.dst⟩ : Edge)]? = none :=
    Std.ExtTreeMap.getElem?_eq_none fun hmem => hupper.plan.src_ne_dst hg
      ((hlower.eq_src hg (hg.mem_tables.1 hmem)).trans hchain.symm)
  obtain ⟨t, ht, -, -, hlen, hbelow⟩ := hlower.plan.table_of_shape hg.toShaped
  obtain ⟨d, hd⟩ := Performed.exists_derived hupper.plan hlink
  obtain ⟨below, htable, hrows, hcols, hget⟩ := hupper.plan.derived_eq hg.toShaped hd
  have hsame : t = below := by
    rw [hchain] at htable
    exact Option.some.inj (ht.symm.trans htable)
  subst hsame
  have hg₁ : g₁.Sound rank := hupper.sound hg
  obtain ⟨t', ht', -, -, hlen', hderived⟩ := h₁₂.plan.table_of_shape hg₁.toShaped
  rw [hedge, (hupper.performed hg).table_of_derived hupper.plan hg hd] at ht'
  cases ht'
  refine mapM_some_of_getElem? (hlen'.trans hrows).symm ?_
  intro i j hi
  have hi' : i < d.rows := hrows ▸ (List.getElem?_eq_some_iff.1 hi).1
  have hj : j < t.rows :=
    hupper.plan.choice_lt hg.toShaped (List.mem_of_getElem? hi) (hg.table_shape htable).1
  rw [hbelow j hj, hderived i hi']
  refine (CostTable.cheapest?_congr hi' hj fun k => ?_).symm
  rw [hget i j k hi, hnone]
  rfl

/-- What the last merge takes over is what the upper one takes over from the lower one. -/
theorem chain_taken (cost : Nat → α) (i : Nat) :
    lower'.taken cost i = upper.taken (lower.taken cost) i := by
  rw [Merge.taken, getElem?_of_mapM_some (hupper.chain_choice hlower hg hchain hedge h₁₂),
    Merge.taken]
  cases upper.choice[i]? <;> rfl

/-- The links when the upper edge and then the one that it makes were merged along. -/
theorem mem_children_of_chain : c ∈ g₁₂.links.children u ↔
    ((u ≠ upper.edge.dst ∧ c ≠ upper.edge.dst) ∧ u ≠ lower.edge.dst ∧ c ≠ lower.edge.dst) ∧
      (c ∈ g.links.children u ∨ u = upper.edge.src ∧
        (c ∈ g.links.children upper.edge.dst ∨ c ∈ g.links.children lower.edge.dst)) := by
  have hsrc := hupper.chain_src_ne hlower hg hchain
  have hdst := hlower.chain_dst_ne hg hchain
  have hu : u = upper.edge.src → u ≠ upper.edge.dst := fun heq => heq ▸ hupper.plan.src_ne_dst hg
  rw [h₁₂.mem_children (hupper.sound hg), hupper.mem_children hg,
    hupper.mem_children hg, hedge]
  simp only [hdst, hsrc.symm, ne_eq, not_false_eq_true, true_and, false_and, or_false]
  tauto

variable (hedge' : upper'.edge = upper.edge) (hchoice' : upper'.choice = upper.choice)
  (h₂₁ : g₂.Absorbed upper' g₂₁)
include hedge' h₂₁

/-- The links are the same when the lower edge comes first. -/
theorem mem_children_iff_of_chain : c ∈ g₂₁.links.children u ↔ c ∈ g₁₂.links.children u := by
  have hdst := hlower.chain_dst_ne hg hchain
  have hu : u = upper.edge.src → u ≠ lower.edge.dst := fun heq =>
    heq ▸ hupper.chain_src_ne hlower hg hchain
  rw [h₂₁.mem_children (hlower.sound hg), hlower.mem_children hg, hlower.mem_children hg, hedge',
    ← hchain, hupper.mem_children_of_chain hlower hg hchain hedge h₁₂]
  simp only [hdst.symm, ne_eq, not_false_eq_true, true_and]
  tauto

variable [ExactCost α]
include hchoice'

/-- The weights are the same: in both cases the upper source takes over the chosen line of the
    middle node, which comes with the chosen line of the grandchild. -/
theorem weight_of_chain : g₂₁.weight ⟨u, c⟩ i k = g₁₂.weight ⟨u, c⟩ i k := by
  have hg₁ : g₁.Sound rank := hupper.sound hg
  have hg₂ : g₂.Sound rank := hlower.sound hg
  have hsame := hupper.mem_children_iff_of_chain hlower hg hchain hedge h₁₂ hedge' h₂₁
    (u := u) (c := c)
  by_cases hc : c ∈ g₁₂.links.children u
  · obtain ⟨⟨⟨hu, hc⟩, hu', hc'⟩, -⟩ :=
      (hupper.mem_children_of_chain hlower hg hchain hedge h₁₂).1 hc
    have hdst := hlower.chain_dst_ne hg hchain
    have hsrc := hupper.chain_src_ne hlower hg hchain
    have htaken : upper'.taken = upper.taken := by unfold Merge.taken; rw [hchoice']
    rw [h₂₁.weight_eq hg₂, h₁₂.weight_eq hg₁, hedge, hedge', htaken]
    simp only [hlower.weight_eq hg, hupper.weight_eq hg, ← hchain, hu, hc, hu', hc', hdst,
      hdst.symm, hsrc.symm, or_self, if_false, if_true, add_zero,
      hupper.chain_taken hlower hg hchain hedge h₁₂, Merge.taken_add]
    split
    · rw [add_assoc]
    · rw [add_zero, add_zero]
  · rw [weight_of_notMem_children (h₁₂.sound hg₁) hc,
      weight_of_notMem_children (h₂₁.sound hg₂) (hsame.not.2 hc)]

/-- The extra costs are the same, except for the middle node, which keeps what it took over before
    it was absorbed. -/
theorem extraAt_of_chain (hn : n ≠ upper.edge.dst) : g₂₁.extraAt n i = g₁₂.extraAt n i := by
  have hg₁ : g₁.Sound rank := hupper.sound hg
  have hg₂ : g₂.Sound rank := hlower.sound hg
  have hne : upper.edge.src ≠ upper.edge.dst := hupper.plan.src_ne_dst hg
  have hdst := hlower.chain_dst_ne hg hchain
  have hsrc := hupper.chain_src_ne hlower hg hchain
  -- what the last merges read, in terms of the graph from the start
  have hmiddle (j : Nat) : g₂.weight upper'.edge i j + g₂.extraAt upper'.edge.dst j =
      g.weight upper.edge i j + (g.extraAt upper.edge.dst j +
        lower.taken (fun k => g.weight lower.edge j k + g.extraAt lower.edge.dst k) j) := by
    rw [hedge', hlower.extraAt_eq hg, if_pos hchain, weight,
      hlower.table_eq hg hsrc hdst.symm fun heq => absurd (heq.trans hchain.symm) hne, weight]
  have hlast (k : Nat) : g₁.weight lower'.edge i k + g₁.extraAt lower'.edge.dst k =
      upper.taken (fun j => g.weight lower.edge j k) i + g.extraAt lower.edge.dst k := by
    have hnone : lower.edge.dst ∉ g.links.children upper.edge.src := fun hc =>
      hne ((hlower.eq_src hg hc).trans hchain.symm)
    rw [hedge, hupper.weight_eq hg, if_neg (not_or.2 ⟨hne, hdst⟩), if_pos rfl,
      weight_of_notMem_children hg hnone, zero_add,
      extraAt_of_ne (hupper.performed hg) hsrc.symm, hchain]
  rw [h₂₁.extraAt_eq hg₂, h₁₂.extraAt_eq hg₁, hupper.extraAt_eq hg,
    extraAt_of_ne (hlower.performed hg) (hchain ▸ hn)]
  simp only [hmiddle, hlast]
  rw [hedge, hedge', hupper.chain_taken hlower hg hchain hedge h₁₂]
  split
  · rw [Merge.taken, Merge.taken, Merge.taken, hchoice']
    cases hi : upper.choice[i]? with
    | none => simp
    | some j => simp [Merge.taken, hi, add_assoc]
  · rw [add_zero, add_zero]

/-- Both ways along a chain end alike. -/
theorem alike_of_chain : g₂₁.Alike g₁₂ := by
  have hg₁ : g₁.Sound rank := hupper.sound hg
  have hg₂ : g₂.Sound rank := hlower.sound hg
  have hlive (n : NodeId) : g₂₁.links.isLive n ↔
      g.links.isLive n ∧ n ≠ lower.edge.dst ∧ n ≠ upper.edge.dst := by
    rw [h₂₁.isLive_iff hg₂, hlower.isLive_iff hg, hedge', and_assoc]
  refine (h₂₁.sound hg₂).alike (h₁₂.sound hg₁) ?_ ?_ ?_ ?_ ?_ ?_
  · rw [h₂₁.widths_eq hg₂, hlower.widths_eq hg, h₁₂.widths_eq hg₁, hupper.widths_eq hg]
  · intro n
    rw [hlive, h₁₂.isLive_iff hg₁, hupper.isLive_iff hg, hedge, and_right_comm, and_assoc]
  · exact fun p c => hupper.mem_children_iff_of_chain hlower hg hchain hedge h₁₂ hedge' h₂₁
  · exact fun e i k => hupper.weight_of_chain hlower hg hchain hedge h₁₂ hedge' hchoice' h₂₁
  · intro n hn
    have hne : n ≠ lower.edge.src := hchain ▸ ((hlive n).1 hn).2.2
    rw [h₂₁.mem_extras hg₂, hlower.mem_extras hg, h₁₂.mem_extras hg₁, hupper.mem_extras hg, hedge,
      hedge', or_iff_right hne, or_self_left]
  · exact fun n i hn => hupper.extraAt_of_chain hlower hg hchain hedge h₁₂ hedge' hchoice' h₂₁
      ((hlive n).1 hn).2.2

end Chain

end Reshard.Graph.Absorbed
