import Mathlib.Logic.Relation
import Reshard.Proofs.Graph.Merged

/-! Paths after a merge.

    A merge replaces the way from the source over the destination to one of its children by a single
    edge, and takes away nothing else that a node other than the destination could be reached by. So
    a path leads from one such node to another afterwards exactly if one did before
    (`Sound.transGen_performed_iff`), whether the destination is absorbed or stays. -/

namespace Reshard.Graph

open Relation

variable {α : Type} {rank : NodeId → Nat} {g g' : Graph α} {m : Merge α} {u v : NodeId}

/-- There is an edge from `u` to `v`. -/
def Linked (g : Graph α) (u v : NodeId) : Prop := (⟨u, v⟩ : Edge) ∈ g.tables

/-- Edges lead to higher ranks. -/
theorem Sound.rank_lt_of_linked (h : g.Sound rank) (huv : g.Linked u v) : rank u < rank v :=
  h.rank_lt (h.mem_tables.1 huv)

/-- A path leads to a higher rank, and so not back to its start. -/
theorem Sound.not_transGen_self (h : g.Sound rank) : ¬ TransGen g.Linked u u := by
  intro hcycle
  have hrank : TransGen (· < ·) (rank u) (rank u) :=
    hcycle.lift rank fun _ _ => h.rank_lt_of_linked
  rw [transGen_eq_self] at hrank
  exact hrank.false

variable [Cost α]

/-- The edges after a merge. -/
theorem Performed.linked_iff (hg : g.Performed m g') (hm : g.Plan m) (h : g.Sound rank) :
    g'.Linked u v ↔ u = m.edge.src ∧ g.Linked m.edge.dst v ∨
      g.Linked u v ∧ ¬ m.Removes ⟨u, v⟩ := by
  simp only [Linked, hg.mem_tables hm h, h.mem_tables]

/-- An edge that a merge makes stands for the two that led over the destination. -/
theorem Performed.transGen_of_linked (hg : g.Performed m g') (hm : g.Plan m) (h : g.Sound rank)
    (huv : g'.Linked u v) : TransGen g.Linked u v := by
  rcases (hg.linked_iff hm h).1 huv with ⟨rfl, hv⟩ | ⟨huv, -⟩
  · have hsrc : g.Linked m.edge.src m.edge.dst := h.mem_tables.2 (hm.child h)
    exact (TransGen.single hsrc).tail hv
  · exact .single huv

/-- Paths to other nodes than the destination are kept for every node that stays, and those of the
    destination go on from the source. -/
theorem Performed.transGen_of_transGen (hg : g.Performed m g') (hm : g.Plan m) (h : g.Sound rank)
    (hv : v ≠ m.edge.dst) (huv : TransGen g.Linked u v) :
    (¬ (m.absorbs ∧ u = m.edge.dst) → TransGen g'.Linked u v) ∧
      (u = m.edge.dst → TransGen g'.Linked m.edge.src v) := by
  have hderived {w : NodeId} (hw : g.Linked m.edge.dst w) : g'.Linked m.edge.src w :=
    (hg.linked_iff hm h).2 (.inl ⟨rfl, hw⟩)
  have hkept {u w : NodeId} (huw : g.Linked u w) (hstays : ¬ (m.absorbs ∧ u = m.edge.dst))
      (hother : ¬ (u = m.edge.src ∧ w = m.edge.dst)) : g'.Linked u w :=
    (hg.linked_iff hm h).2 (.inr ⟨huw, fun hremoved =>
      (Merge.removes_iff.1 hremoved).elim hother hstays⟩)
  induction huv using TransGen.head_induction_on with
  | @single u huv =>
    refine ⟨fun hstays => .single (hkept huv hstays fun heq => hv heq.2), ?_⟩
    rintro rfl
    exact .single (hderived huv)
  | @head u w huw _ ih =>
    constructor
    · intro hstays
      by_cases hsrc : u = m.edge.src ∧ w = m.edge.dst
      · rw [hsrc.1]
        exact ih.2 hsrc.2
      · -- an absorbed node is entered from the source only
        have hstays' : ¬ (m.absorbs ∧ w = m.edge.dst) := by
          rintro ⟨habsorbs, rfl⟩
          refine hsrc ⟨hm.eq_src_of_absorbs habsorbs ?_, rfl⟩
          exact h.mem_parents.2 (h.mem_tables.1 huw)
        exact (ih.1 hstays').head (hkept huw hstays hsrc)
    · rintro rfl
      have hne : w ≠ m.edge.dst := fun heq => (h.rank_lt_of_linked huw).ne' (congrArg rank heq)
      exact (ih.1 fun heq => hne heq.2).head (hderived huw)

/-- A merge neither cuts nor opens a way between two nodes other than its destination. -/
theorem Sound.transGen_performed_iff (h : g.Sound rank) (hm : g.Plan m) (hg : g.Performed m g')
    (hu : u ≠ m.edge.dst) (hv : v ≠ m.edge.dst) :
    TransGen g'.Linked u v ↔ TransGen g.Linked u v := by
  constructor
  · intro huv
    exact huv.lift' id fun _ _ => hg.transGen_of_linked hm h
  · intro huv
    exact (hg.transGen_of_transGen hm h hv huv).1 fun heq => hu heq.2

end Reshard.Graph
