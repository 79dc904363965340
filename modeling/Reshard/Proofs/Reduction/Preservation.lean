import Reshard.Proofs.Reduction.Run

/-! Runs and the costs of a catalog.

    After a run of calls, an assignment to the live nodes is completed to one for the whole catalog.
    The cost of the reduced graph and that of the catalog differ exactly by what the merges with
    nodes that stayed have released and added (`exists_balance`). So they are equal as long as every
    merge absorbs its destination. -/

namespace Reshard.Reduction

variable {α : Type} {rank : NodeId → Nat} {c : Catalog α} {r : Reduction α} {assignment : List Nat}

theorem obeyed_of_completes (h : r.toStage.Coherent) (ha : r.Admits assignment) {full : List Nat}
    (hfull : Absorptions.Completes r.absorptions.entries assignment full) :
    r.toStage.Obeyed (chosenAt full) :=
  ⟨fun hw => chosenAt_lt h hfull ha _ hw, fun hn => getElem?_map_chosenAt h hfull ha hn⟩

variable [Cost α] {settings : Settings α}

/-- The completed assignment gives each declared node one of its strategies. -/
theorem assigns_of_completes (h : Started settings c r) (calls : List Call)
    (ha : (r.run calls).Admits assignment) {full : List Nat}
    (hfull : Absorptions.Completes (r.run calls).absorptions.entries assignment full) :
    (c.map settings.clip).Assigns full := by
  have hwidths := widths_run calls h.coherent
  refine ⟨?_, fun n w hw => chosenAt_lt (coherent_run calls h.coherent) hfull ha w ?_⟩
  · rw [hfull.length_eq, ha.1, size, Graph.size, hwidths, ← Graph.size, h.graph.size]
  · rw [Graph.width?, hwidths, ← Graph.width?, h.graph.width?, hw]

/-- An assignment for the catalog is one to the live nodes too. -/
theorem admits_of_assigns (h : Started settings c r) (calls : List Call) {full : List Nat}
    (hfull : (c.map settings.clip).Assigns full) : (r.run calls).Admits full := by
  have hwidths := widths_run calls h.coherent
  refine ⟨?_, fun n w _ hw => hfull.2 n w ?_⟩
  · rw [hfull.1, size, Graph.size, hwidths, ← Graph.size, h.graph.size]
  · rw [← h.graph.width?, Graph.width?, ← hwidths, ← Graph.width?, hw]

variable [ExactCost α]

/-- The reduced graph and the catalog account for the same costs. -/
theorem exists_balance (h : Started settings c r) (hsound : r.toStage.Sound rank)
    (calls : List Call) (ha : (r.run calls).Admits assignment) : ∃ full total original,
      (r.run calls).complete assignment = .ok full ∧ (r.run calls).cost assignment = .ok total ∧
      (c.map settings.clip).cost? full = some original ∧
      total + Applied.allReleased (r.history calls) (chosenAt full) =
        original + Applied.allAdded (r.history calls) (chosenAt full) := by
  have hsound' := sound_run calls hsound
  have hcoherent := hsound'.coherent
  obtain ⟨full, hcomplete, hfull⟩ := exists_complete hcoherent hsound'.ends ha
  have hassigns := assigns_of_completes h calls ha hfull
  have htotal : (r.run calls).cost assignment =
      .ok ((r.run calls).graph.costAt (chosenAt full)) := by
    rw [cost_eq hcoherent ha]
    refine congrArg Except.ok (Graph.costAt_congr hsound'.graph ?_)
    intro n hn
    exact (chosenAt_of_live hcoherent hfull hn).symm
  exact ⟨full, _, _, hcomplete, htotal, h.graph.cost?_eq h.fits.map h.consistent.map hassigns,
    costAt_run calls hsound (obeyed_of_completes hcoherent ha hfull)⟩

/-- Merges that absorb their destinations release and add nothing. -/
theorem sum_eq_zero_of_absorbs {history : List (Applied α)} {f : NodeId → Nat}
    (h : ∀ a ∈ history, a.merge.absorbs) :
    Applied.allReleased history f = 0 ∧ Applied.allAdded history f = 0 := by
  constructor
  · exact List.sum_eq_zero fun x hx => by
      obtain ⟨a, ha, rfl⟩ := List.mem_map.1 hx
      rw [Applied.released, if_pos (h a ha)]
  · exact List.sum_eq_zero fun x hx => by
      obtain ⟨a, ha, rfl⟩ := List.mem_map.1 hx
      rw [Applied.added, if_pos (h a ha)]

/-- A run in which every merge absorbs its destination keeps all costs: each assignment to the live
    nodes can be completed, and costs in the reduced graph what the completed one costs in the
    catalog. -/
theorem cost_preserved (h : StartableAcyclic settings c) : FromStart settings c fun r =>
    ∀ calls, (∀ a ∈ r.history calls, a.merge.absorbs) →
    ∀ assignment, (r.run calls).Admits assignment → ∃ full total,
      (r.run calls).complete assignment = .ok full ∧
      (r.run calls).cost assignment = .ok total ∧
      (c.map settings.clip).cost? full = some total := by
  refine h.fromStart_sound fun r rank hr hsound => ?_
  intro calls habsorbs assignment ha
  obtain ⟨full, total, original, hcomplete, htotal, horiginal, hbalance⟩ :=
    exists_balance hr hsound calls ha
  obtain ⟨hreleased, hadded⟩ := sum_eq_zero_of_absorbs (f := chosenAt full) habsorbs
  rw [hreleased, hadded, add_zero, add_zero] at hbalance
  exact ⟨full, total, hcomplete, htotal, hbalance ▸ horiginal⟩

/-- Three nodes in a braid: the last one has both others as predecessors, and the second one, which
    can be merged, has the first. -/
def braid : Catalog (WithTop ℕ) where
  operators :=
    [⟨"a", [], [.ofIndex 1, .ofIndex 2], [⟨"s", []⟩, ⟨"t", []⟩], false⟩,
      ⟨"b", [.ofIndex 0], [.ofIndex 2], [⟨"s", [[0, 3]]⟩, ⟨"t", [[2, 1]]⟩], true⟩,
      ⟨"c", [.ofIndex 0, .ofIndex 1], [],
        [⟨"s", [[1, 4], [0, 2]]⟩, ⟨"t", [[3, 9], [5, 1]]⟩], false⟩]

theorem braid_startable : StartableAcyclic ⟨true, some 8⟩ braid :=
  ⟨⟨by decide, by decide, by decide⟩, (Catalog.numbered_of_forall (by decide)).acyclic⟩

/-- A merge that is refused, and then all the queued ones. -/
def braidCalls : List Call := [.merge ⟨.ofIndex 2, .ofIndex 0⟩, .simplify]

set_option maxRecDepth 4000 in
theorem braid_cost_preserved : FromStart ⟨true, some 8⟩ braid fun r => ∃ full total,
    (r.run braidCalls).complete [1, 0, 1] = .ok full ∧
    (r.run braidCalls).cost [1, 0, 1] = .ok total ∧
    (braid.map (Settings.clip ⟨true, some 8⟩)).cost? full = some total := by
  obtain ⟨r, event, hstart, h⟩ := cost_preserved braid_startable
  have hrun : (∀ a ∈ r.history braidCalls, a.merge.absorbs) ∧ (r.run braidCalls).Admits [1, 0, 1] :=
    of_any (P := fun p : _ × _ => (∀ a ∈ p.1.history braidCalls, a.merge.absorbs) ∧
      (p.1.run braidCalls).Admits [1, 0, 1]) (by decide +kernel) hstart
  exact ⟨r, event, hstart, h _ hrun.1 _ hrun.2⟩

/-! ### Simplifying -/

/-- The cost `total` of an assignment after simplifying `r` to `r'`, next to the cost `original` of
    the completed assignment `full` in the catalog. -/
structure Balances (settings : Settings α) (c : Catalog α) (r r' : Reduction α)
    (assignment full : List Nat) (total original : α) : Prop where
  complete : r'.complete assignment = .ok full
  cost : r'.cost assignment = .ok total
  cost_catalog : (c.map settings.clip).cost? full = some original
  balance : total + Applied.allReleased (r.log .simplify) (chosenAt full) =
    original + Applied.allAdded (r.log .simplify) (chosenAt full)
  /-- The cost is kept exactly if as much is released as added. -/
  eq_iff : Cost.isFinite total →
    Cost.isFinite (Applied.allReleased (r.log .simplify) (chosenAt full)) →
    (total = original ↔ Applied.allReleased (r.log .simplify) (chosenAt full) =
      Applied.allAdded (r.log .simplify) (chosenAt full))
  eq_of_single : (∀ n op, c.get? n = some op → op.mergeable → op.predecessors.length ≤ 1) →
    total = original

/-- Simplifying keeps the cost of an assignment up to what merges with nodes that stay release and
    add. So it keeps the cost if each mergeable node has at most one predecessor, and otherwise
    exactly if the two amounts are the same. -/
theorem simplify_balance (h : StartableAcyclic settings c) : FromStart settings c fun r =>
    ∀ r', r.simplify.2 = .ok r' → ∀ assignment, r'.Admits assignment →
      ∃ full total original, Balances settings c r r' assignment full total original := by
  refine h.fromStart_sound fun r rank hr hsound => ?_
  intro r' hsimplify assignment ha
  have hrun : r.run [.simplify] = r' := run_simplify hsimplify
  have hhistory : r.history [.simplify] = r.log .simplify := List.append_nil _
  obtain ⟨full, total, original, hcomplete, htotal, horiginal, hbalance⟩ :=
    exists_balance hr hsound [.simplify] (hrun ▸ ha)
  rw [hrun] at hcomplete htotal
  rw [hhistory] at hbalance
  refine ⟨full, total, original, {
    complete := hcomplete
    cost := htotal
    cost_catalog := horiginal
    balance := hbalance
    eq_iff := ?_
    eq_of_single := ?_ }⟩
  · intro hfin hfin'
    constructor
    · rintro rfl
      exact ExactCost.add_left_cancel _ _ _ hfin hbalance
    · intro hsame
      rw [← hsame, add_comm, add_comm original] at hbalance
      exact ExactCost.add_left_cancel _ _ _ hfin' hbalance
  · intro hsingle
    obtain ⟨hreleased, hadded⟩ := sum_eq_zero_of_absorbs (f := chosenAt full)
      (absorbs_of_single hr hsound hsingle)
    rwa [hreleased, hadded, add_zero, add_zero] at hbalance

set_option maxRecDepth 4000 in
theorem braid_simplify_balance : FromStart ⟨true, some 8⟩ braid fun r => ∃ r',
    r.simplify.2 = .ok r' ∧ ∃ full total, r'.complete [1, 0, 1] = .ok full ∧
      r'.cost [1, 0, 1] = .ok total ∧
      (braid.map (Settings.clip ⟨true, some 8⟩)).cost? full = some total := by
  obtain ⟨r, event, hstart, h⟩ := simplify_balance braid_startable
  have hsimplify : r.simplify.2.toOption.any fun r' => decide (r'.Admits [1, 0, 1]) :=
    of_any (P := fun p : _ × _ => p.1.simplify.2.toOption.any fun r' =>
      decide (r'.Admits [1, 0, 1])) (by decide +kernel) hstart
  obtain ⟨r', hr', hadmits⟩ := exists_of_any hsimplify
  obtain ⟨full, total, original, hbalances⟩ := h r' hr' [1, 0, 1] hadmits
  have hsame : total = original := hbalances.eq_of_single fun n op hop => by
    have hall : ∀ op ∈ braid.operators, op.mergeable → op.predecessors.length ≤ 1 := by decide
    exact hall op (List.mem_of_getElem? hop)
  exact ⟨r, event, hstart, r', hr', full, total, hbalances.complete, hbalances.cost,
    hsame ▸ hbalances.cost_catalog⟩

/-- A node with two predecessors, which is merged with each of them by a choice of its own. -/
def fork : Catalog (WithTop ℕ) where
  operators :=
    [⟨"a", [], [.ofIndex 2], [⟨"s", []⟩], false⟩, ⟨"b", [], [.ofIndex 2], [⟨"s", []⟩], false⟩,
      ⟨"n", [.ofIndex 0, .ofIndex 1], [], [⟨"s", [[0], [1]]⟩, ⟨"t", [[1], [0]]⟩], true⟩]

set_option maxRecDepth 4000 in
/-- Simplifying loses a cost: each of the two merges chooses the strategy that is free for it, but
    the node has only one. -/
theorem fork_cost_not_preserved : StartableAcyclic {} fork ∧ FromStart {} fork fun r => ∃ r',
    r.simplify.2 = .ok r' ∧ r'.Admits [0, 0, 0] ∧ r'.complete [0, 0, 0] = .ok [0, 0, 0] ∧
      r'.cost [0, 0, 0] = .ok 0 ∧ (fork.map (Settings.clip {})).cost? [0, 0, 0] = some 1 := by
  refine ⟨⟨⟨by decide, by decide, by decide⟩,
    (Catalog.numbered_of_forall (by decide)).acyclic⟩, ?_⟩
  have hrun : (start {} fork).toOption.any fun p => decide (p.1.simplify.2.toOption.any fun r' =>
      decide (r'.Admits [0, 0, 0] ∧ r'.complete [0, 0, 0] = .ok [0, 0, 0] ∧
        r'.cost [0, 0, 0] = .ok 0)) := by decide +kernel
  obtain ⟨⟨r, event⟩, hstart, hsimplify⟩ := exists_of_any hrun
  obtain ⟨r', hr', hadmits, hcomplete, hcost⟩ := exists_of_any hsimplify
  exact ⟨r, event, hstart, r', hr', hadmits, hcomplete, hcost, by decide⟩

end Reshard.Reduction
