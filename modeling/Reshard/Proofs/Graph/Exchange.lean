import Reshard.Proofs.Graph.Absorbed

/-! Merges in another order.

    Two merges that absorb are independent if neither takes away an end of the other's edge. They
    may share their source, and the source of one may be a child of the other's destination. Each
    of them then adds its share to what is there, whichever comes first, so both orders end alike
    (`Absorbed.alike_of_independent`). -/

namespace Reshard

/-- Neither edge ends at an end of the other. They may start at the same node. -/
structure Edge.Independent (e₁ e₂ : Edge) : Prop where
  dst_ne : e₁.dst ≠ e₂.dst
  src_ne : e₁.src ≠ e₂.dst
  src_ne' : e₂.src ≠ e₁.dst

theorem Edge.Independent.symm {e₁ e₂ : Edge} (h : e₁.Independent e₂) : e₂.Independent e₁ :=
  ⟨h.dst_ne.symm, h.src_ne', h.src_ne⟩

namespace Graph.Absorbed

variable {α : Type} [Cost α] {rank : NodeId → Nat} {g g₁ g₂ g₁₂ g₂₁ : Graph α}
  {m₁ m₂ m₁' m₂' : Merge α} {u c n : NodeId} {i k : Nat}

/-! ### One after the other -/

section After

variable (h₁ : g.Absorbed m₁ g₁) (hg : g.Sound rank) (hind : m₁.edge.Independent m₂.edge)
include h₁ hg hind

/-- The table of the second edge is not written by the first merge. -/
theorem table_of_independent (hother : m₂.edge.dst ∉ g.links.children m₁.edge.dst) :
    g₁.tables[m₂.edge]? = g.tables[m₂.edge]? :=
  h₁.table_eq hg hind.src_ne' hind.dst_ne.symm fun _ => hother

variable (h₂ : g₁.Absorbed m₂ g₂)
include h₂

theorem mem_children_of_independent : c ∈ g₂.links.children u ↔
    ((u ≠ m₁.edge.dst ∧ c ≠ m₁.edge.dst) ∧ u ≠ m₂.edge.dst ∧ c ≠ m₂.edge.dst) ∧
      (c ∈ g.links.children u ∨ u = m₁.edge.src ∧ c ∈ g.links.children m₁.edge.dst ∨
        u = m₂.edge.src ∧ c ∈ g.links.children m₂.edge.dst) := by
  have hsrc : u = m₂.edge.src → u ≠ m₁.edge.dst := fun heq => heq ▸ hind.src_ne'
  have hdst := hind.dst_ne
  have hcross := hind.src_ne
  rw [h₂.mem_children (h₁.sound hg), h₁.mem_children hg, h₁.mem_children hg]
  tauto

variable [ExactCost α]

/-- Each of the two merges adds to the weights what its destination cost from the start. -/
theorem weight_of_independent : g₂.weight ⟨u, c⟩ i k =
    if (u = m₁.edge.dst ∨ c = m₁.edge.dst) ∨ u = m₂.edge.dst ∨ c = m₂.edge.dst then 0
    else g.weight ⟨u, c⟩ i k +
      ((if u = m₁.edge.src then m₁.taken (fun j => g.weight ⟨m₁.edge.dst, c⟩ j k) i else 0) +
        if u = m₂.edge.src then m₂.taken (fun j => g.weight ⟨m₂.edge.dst, c⟩ j k) i else 0) := by
  have hbelow (j : Nat) : g₁.weight ⟨m₂.edge.dst, c⟩ j k = g.weight ⟨m₂.edge.dst, c⟩ j k :=
    weight_of_ne h₁.plan (h₁.performed hg) hind.src_ne.symm fun heq => hind.dst_ne heq.2.symm
  by_cases hgone : (u = m₁.edge.dst ∨ c = m₁.edge.dst) ∨ u = m₂.edge.dst ∨ c = m₂.edge.dst
  · have hc : c ∉ g₂.links.children u := fun hc => by
      have hkept := ((h₁.mem_children_of_independent hg hind h₂).1 hc).1
      tauto
    rw [if_pos hgone, weight_of_notMem_children (h₂.sound (h₁.sound hg)) hc]
  · rw [if_neg hgone]
    rw [not_or] at hgone
    rw [h₂.weight_eq (h₁.sound hg), if_neg hgone.2, h₁.weight_eq hg, if_neg hgone.1, add_assoc]
    simp only [hbelow]

/-- Each of the two merges adds to the extra costs what its edge and its destination cost from the
    start. -/
theorem extraAt_of_independent (hother : m₂.edge.dst ∉ g.links.children m₁.edge.dst) :
    g₂.extraAt n i = g.extraAt n i +
      ((if n = m₁.edge.src then
          m₁.taken (fun j => g.weight m₁.edge i j + g.extraAt m₁.edge.dst j) i else 0) +
        if n = m₂.edge.src then
          m₂.taken (fun j => g.weight m₂.edge i j + g.extraAt m₂.edge.dst j) i else 0) := by
  have hweight (j : Nat) : g₁.weight m₂.edge i j = g.weight m₂.edge i j := by
    rw [weight, h₁.table_of_independent hg hind hother, weight]
  have hextra (j : Nat) : g₁.extraAt m₂.edge.dst j = g.extraAt m₂.edge.dst j :=
    extraAt_of_ne (h₁.performed hg) hind.src_ne.symm
  rw [h₂.extraAt_eq (h₁.sound hg), h₁.extraAt_eq hg, add_assoc]
  simp only [hweight, hextra]

end After

/-! ### Both orders -/

section Orders

variable (h₁ : g.Absorbed m₁ g₁) (h₂ : g.Absorbed m₂ g₂) (hg : g.Sound rank)
  (hind : m₁.edge.Independent m₂.edge)
include h₁ h₂ hg hind

omit h₁ in
/-- The only parent of an absorbed node is not the other node that is absorbed. -/
theorem notMem_children_of_independent : m₂.edge.dst ∉ g.links.children m₁.edge.dst := fun hc =>
  hind.src_ne' (h₂.eq_src hg hc).symm

/-- A merge that absorbs is not in the way of an independent one. -/
theorem exists_after : ∃ m₂' g₁₂, m₂'.edge = m₂.edge ∧ m₂'.choice = m₂.choice ∧
    g₁.Absorbed m₂' g₁₂ := by
  have hother := h₂.notMem_children_of_independent hg hind
  have hchild : m₂.edge.dst ∈ g₁.links.children m₂.edge.src :=
    (h₁.mem_children hg).2 ⟨⟨hind.src_ne', hind.dst_ne.symm⟩, .inl (h₂.plan.child hg)⟩
  have hsingle : ∀ p, m₂.edge.dst ∈ g₁.links.children p → p = m₂.edge.src := by
    intro p hp
    rcases ((h₁.mem_children hg).1 hp).2 with hp | ⟨-, hc⟩
    · exact h₂.eq_src hg hp
    · exact absurd hc hother
  obtain ⟨m₂', g₁₂, hedge, h₁₂⟩ := (h₁.sound hg).exists_absorbed hchild hsingle
  refine ⟨m₂', g₁₂, hedge, h₁₂.plan.choice_eq h₂.plan ?_, h₁₂⟩
  rw [hedge]
  exact h₁.table_of_independent hg hind hother

variable [ExactCost α] (hedge₂ : m₂'.edge = m₂.edge) (hchoice₂ : m₂'.choice = m₂.choice)
  (hedge₁ : m₁'.edge = m₁.edge) (hchoice₁ : m₁'.choice = m₁.choice)
  (h₁₂ : g₁.Absorbed m₂' g₁₂) (h₂₁ : g₂.Absorbed m₁' g₂₁)
include hedge₂ hchoice₂ hedge₁ hchoice₁ h₁₂ h₂₁

/-- Independent merges that absorb end alike in both orders. -/
theorem alike_of_independent : g₁₂.Alike g₂₁ ∧ g₁₂.extras = g₂₁.extras := by
  have hg₁ : g₁.Sound rank := h₁.sound hg
  have hg₂ : g₂.Sound rank := h₂.sound hg
  have hind₁₂ : m₁.edge.Independent m₂'.edge := hedge₂.symm ▸ hind
  have hind₂₁ : m₂.edge.Independent m₁'.edge := hedge₁.symm ▸ hind.symm
  have hother₁₂ : m₂'.edge.dst ∉ g.links.children m₁.edge.dst :=
    hedge₂.symm ▸ h₂.notMem_children_of_independent hg hind
  have hother₂₁ : m₁'.edge.dst ∉ g.links.children m₂.edge.dst :=
    hedge₁.symm ▸ h₁.notMem_children_of_independent hg hind.symm
  have hwidths : g₁₂.widths = g₂₁.widths := by
    rw [h₁₂.widths_eq hg₁, h₁.widths_eq hg, h₂₁.widths_eq hg₂, h₂.widths_eq hg]
  have hmem (n : NodeId) : n ∈ g₁₂.extras ↔ n ∈ g₂₁.extras := by
    rw [h₁₂.mem_extras hg₁, h₁.mem_extras hg, h₂₁.mem_extras hg₂, h₂.mem_extras hg, hedge₁, hedge₂,
      or_left_comm]
  have hextra (n : NodeId) (i : Nat) : g₁₂.extraAt n i = g₂₁.extraAt n i := by
    rw [h₁.extraAt_of_independent hg hind₁₂ h₁₂ hother₁₂,
      h₂.extraAt_of_independent hg hind₂₁ h₂₁ hother₂₁]
    simp only [Merge.taken, hedge₁, hedge₂, hchoice₁, hchoice₂]
    ac_rfl
  refine ⟨(h₁₂.sound hg₁).alike (h₂₁.sound hg₂) hwidths ?_ ?_ ?_ (fun n _ => hmem n)
    fun n i _ => hextra n i, ?_⟩
  · -- liveness
    intro n
    rw [h₁₂.isLive_iff hg₁, h₁.isLive_iff hg, h₂₁.isLive_iff hg₂, h₂.isLive_iff hg, hedge₁, hedge₂,
      and_right_comm]
  · -- edges
    intro p c
    rw [h₁.mem_children_of_independent hg hind₁₂ h₁₂, h₂.mem_children_of_independent hg hind₂₁ h₂₁,
      hedge₁, hedge₂]
    tauto
  · -- their costs
    rintro ⟨u, c⟩ i k
    rw [h₁.weight_of_independent hg hind₁₂ h₁₂, h₂.weight_of_independent hg hind₂₁ h₂₁]
    simp only [Merge.taken, hedge₁, hedge₂, hchoice₁, hchoice₂, or_comm]
    ac_rfl
  · -- extra rows
    exact Std.ExtTreeMap.ext_getElem? fun {n} => extra?_eq (h₁₂.sound hg₁).toShaped
      (h₂₁.sound hg₂).toShaped hwidths (hmem n) (hextra n)

end Orders

end Graph.Absorbed

end Reshard
