import Reshard.Proofs.Reduction.Replay

/-! Merges with nodes that stay.

    Such a merge lets the source pay for the destination's chosen strategy: for the pairing, for the
    extra cost, and for the edges to the children. The destination itself stays and still pays for
    the strategy that it is given; only its pairing with the source is no longer charged. So the
    merge changes the cost of every assignment by a known amount (`cost_of_kept`). -/

namespace Reshard

variable {α : Type} [Cost α]

/-- What a node pays with the strategy `j`, its children running theirs: its extra cost, if it has
    any, and the costs of its edges. -/
def Graph.outCost? (g : Graph α) (assignment : List Nat) (n : NodeId) (j : Nat) : Option α := do
  let extra ← (g.extra? n).elim (some 0) (·[j]?)
  let costs ← (g.links.children n).mapM fun child => do
    let table ← g.tables[(⟨n, child⟩ : Edge)]?
    table.get? j (← assignment[child.index]?)
  return extra + Cost.total costs

variable [ExactCost α] {rank : NodeId → Nat} {g : Graph α} {f : NodeId → Nat} {n : NodeId} {j : Nat}

theorem Graph.Sound.outCost_eq_sum (h : g.Sound rank) : g.outCost f g.nodes n j =
    g.extraAt n j +
      ((g.links.children n).map fun child => g.weight ⟨n, child⟩ j (f child)).sum := by
  rw [outCost, ← List.sum_toFinset _ (h.children_nodup n)]
  refine congrArg _ (Finset.sum_subset ?_ ?_).symm
  · intro child hchild
    exact mem_nodes.2 (h.index_lt_of_isLive (h.live_dst (List.mem_toFinset.1 hchild)))
  · intro child _ hchild
    exact weight_of_notMem_children h (fun hmem => hchild (List.mem_toFinset.2 hmem))

namespace Reduction

variable {s s' : Reduction α} {m : Merge α} {e : Edge} {assignment : List Nat}

/-- All costs that a node pays are there, for any strategy that it has. -/
theorem outCost?_eq (h : s.graph.Sound rank) (ha : s.Admits assignment) {w : Nat}
    (hw : s.graph.width? n = some w) (hj : j < w) : s.graph.outCost? assignment n j =
      some (s.graph.outCost (chosenAt assignment) s.graph.nodes n j) := by
  have hextra : (s.graph.extra? n).elim (some 0) (·[j]?) = some (s.graph.extraAt n j) := by
    cases hextra : s.graph.extra? n with
    | none =>
      rw [Graph.extra?] at hextra
      rw [Graph.extraAt, hextra]
      rfl
    | some extra =>
      refine Graph.getElem?_eq_extraAt hextra ?_
      cases hw.symm.trans (h.length_extra hextra)
      exact hj
  have hedge : ∀ child ∈ s.graph.links.children n, (do
      let table ← s.graph.tables[(⟨n, child⟩ : Edge)]?
      table.get? j (← assignment[child.index]?)) =
        some (s.graph.weight ⟨n, child⟩ j (chosenAt assignment child)) := by
    intro child hchild
    have hlive := h.live_dst hchild
    obtain ⟨t, ht⟩ := h.exists_table hchild
    obtain ⟨hrows, hcols⟩ := h.table_shape ht
    have hj' : j < t.rows := Option.some.inj (hw.symm.trans hrows) ▸ hj
    obtain ⟨x, hx⟩ := CostTable.exists_get? hj' (ha.2 child _ hlive hcols)
    rw [ht, getElem?_eq_chosenAt (ha.1 ▸ h.index_lt_of_isLive hlive), Graph.weight_eq ht hx]
    exact hx
  have hedges := mapM_some_iff.2 (List.forall₂_map_right_iff.2 (List.forall₂_same.2 hedge))
  rw [Graph.outCost?, hextra, hedges, h.outCost_eq_sum, ← Cost.total_eq_sum]
  rfl

/-- The merge `m` raises the cost of an assignment by what the chosen strategy of its destination
    costs, and lowers it by the cost of the pairing that it removes. -/
def Surcharges (s : Reduction α) (m : Merge α) (assignment : List Nat) (s' : Reduction α) : Prop :=
  ∃ t i j k own paid rest before after,
    s.graph.table m.edge = .ok t ∧
    assignment[m.edge.src.index]? = some i ∧ assignment[m.edge.dst.index]? = some k ∧
    m.choice[i]? = some j ∧ t.get? i k = some own ∧ t.get? i j = some paid ∧
    s.graph.outCost? assignment m.edge.dst j = some rest ∧
    s.cost assignment = .ok before ∧ s'.cost assignment = .ok after ∧
    after + own = before + (paid + rest)

theorem surcharges_of_kept (h : s.toStage.Sound rank) {event : Event α}
    (hmerge : s.merge e = .ok (s', event)) (hlive : s'.graph.links.isLive e.dst) :
    ∃ m, m.edge = e ∧ s.graph.merge e = .ok (s'.graph, m) ∧
      ∀ assignment, s.Admits assignment → s.Surcharges m assignment s' := by
  obtain ⟨stage, m, hstage, rfl, -⟩ := merge_ok_iff.1 hmerge
  obtain ⟨rfl, hm, hg⟩ := h.coherent.of_merge hstage
  have hkept : m.absorbs = false := by
    rw [← Bool.not_eq_true]
    exact fun habsorbs => (hg.isLive_iff.1 hlive).2 ⟨habsorbs, rfl⟩
  refine ⟨m, rfl, (Stage.merge_ok_iff.1 hstage).1, ?_⟩
  intro assignment ha
  obtain ⟨t, ht, hrows, hcols, hlen, -⟩ := hm.table_of_shape h.graph.toShaped
  have hsrc := h.graph.index_lt_of_isLive hm.live_src
  have hdst := h.graph.index_lt_of_isLive hm.live_dst
  have hi := ha.2 _ _ hm.live_src hrows
  -- the strategy that the source's one is mapped to, and the two costs on its line
  obtain ⟨j, hj⟩ : ∃ j, m.choice[chosenAt assignment m.edge.src]? = some j :=
    ⟨_, List.getElem?_eq_getElem (hlen.symm ▸ hi)⟩
  have hjcols := hm.choice_lt h.graph.toShaped (List.mem_of_getElem? hj) hcols
  obtain ⟨own, hown⟩ := CostTable.exists_get? hi (ha.2 _ _ hm.live_dst hcols)
  obtain ⟨paid, hpaid⟩ := CostTable.exists_get? hi hjcols
  have ha' : ({ s with toStage := stage } : Reduction α).Admits assignment :=
    ⟨ha.1.trans hg.size.symm,
      fun n w hn hw => ha.2 n w (hg.isLive_iff.1 hn).1 (hg.width?.symm.trans hw)⟩
  have hbalance := Graph.costAt_of_kept h.graph hm hg hkept hj
  rw [Graph.weight_eq ht hown, Graph.weight_eq ht hpaid] at hbalance
  exact ⟨t, _, j, _, own, paid, _, _, _, Fault.require_ok_iff.2 ht,
    getElem?_eq_chosenAt (ha.1 ▸ hsrc), getElem?_eq_chosenAt (ha.1 ▸ hdst), hj, hown, hpaid,
    outCost?_eq h.graph ha hcols hjcols, cost_eq h.coherent ha,
    cost_eq (h.merge hstage).coherent ha', hbalance⟩

variable {settings : Settings α} {c : Catalog α}

/-- Whatever was called before, a merge with a node that stays changes the cost of each assignment
    to the live nodes by the difference between the chosen strategy and the own one. -/
theorem cost_of_kept (h : StartableAcyclic settings c) : FromStart settings c fun r =>
    ∀ calls e s' event', (r.run calls).merge e = .ok (s', event') →
      s'.graph.links.isLive e.dst → ∃ m, m.edge = e ∧
        (r.run calls).graph.merge e = .ok (s'.graph, m) ∧
        ∀ assignment, (r.run calls).Admits assignment →
          (r.run calls).Surcharges m assignment s' := by
  refine h.fromStart_sound fun r rank hr hsound => ?_
  intro calls e s' event'
  exact surcharges_of_kept (sound_run calls hsound)

/-- The edge from the first to the third node, which has another parent. -/
def weaveKept : Edge := ⟨.ofIndex 0, .ofIndex 2⟩

/-- A merge that leaves the third node with extra costs in place of its child. -/
def weaveCharge : List Call := [.merge ⟨.ofIndex 2, .ofIndex 3⟩]

set_option maxRecDepth 4000 in
/-- The third node has a child before the charge, and extra costs after it. -/
theorem weave_cost_of_kept : FromStart ⟨true, some 8⟩ weave fun r =>
    ∀ calls ∈ [[], weaveCharge], ∃ s' event' m, (r.run calls).merge weaveKept = .ok (s', event') ∧
      (r.run calls).Surcharges m [0, 0, 1, 0] s' := by
  obtain ⟨r, event, hstart, h⟩ := cost_of_kept weave_startable
  have hrun := of_any (P := fun p : _ × _ => ∀ calls ∈ [[], weaveCharge],
    (p.1.run calls).Admits [0, 0, 1, 0] ∧ ((p.1.run calls).merge weaveKept).toOption.any fun q =>
      decide (q.1.graph.links.isLive weaveKept.dst)) (by decide +kernel) hstart
  refine ⟨r, event, hstart, ?_⟩
  intro calls hcalls
  obtain ⟨ha, hkept⟩ := hrun calls hcalls
  obtain ⟨⟨s', event'⟩, hmerge, hlive⟩ :=
    exists_of_any (P := fun p : Reduction _ × Event _ => p.1.graph.links.isLive weaveKept.dst) hkept
  obtain ⟨m, -, -, hsurcharges⟩ := h calls weaveKept s' event' hmerge hlive
  exact ⟨s', event', m, hmerge, hsurcharges _ ha⟩

end Reduction

end Reshard
