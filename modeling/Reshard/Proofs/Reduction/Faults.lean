import Reshard.Proofs.Reduction.Simplify
import Reshard.Proofs.Residual

/-! The faults of calls and queries.

    A fault says something about the call: which node is unknown, which two nodes cannot be merged,
    what is wrong with an assignment, or that the nodes run in a circle. It never says that a
    position is missing from a list or that two tables differ in shape, on cyclic catalogs neither
    (`faults_run`). All of that rests on stages being coherent, which needs no order of the
    nodes. -/

namespace Reshard

namespace Reduction

variable {α : Type} {r : Reduction α} {assignment : List Nat} {n : NodeId} {fault : Fault α}

/-! ### Assignments -/

/-- What is wrong with an assignment that is not admitted. -/
inductive Rejects (r : Reduction α) (assignment : List Nat) : AssignmentFault → Prop
  | wrongLength : assignment.length ≠ r.size →
    r.Rejects assignment (.wrongLength r.size assignment.length)
  /-- A live node is given a strategy that it does not have. -/
  | noStrategy {n : NodeId} {w : Nat} : r.graph.links.isLive n → r.graph.width? n = some w →
    w ≤ chosenAt assignment n →
    r.Rejects assignment (.noStrategy (r.name n) w (chosenAt assignment n))

theorem rejects_of_checkEntry (h : r.graph.Shaped) (hlen : assignment.length = r.size)
    (hlive : r.graph.links.isLive n) (hfault : r.checkEntry assignment n = .error fault) :
    ∃ reason, fault = .assignment reason ∧ r.Rejects assignment reason := by
  have hlt := h.index_lt_of_isLive hlive
  obtain ⟨w, hw⟩ := Graph.exists_width? hlt
  have hchosen : assignment[n.index]? = some (chosenAt assignment n) :=
    getElem?_eq_chosenAt (hlen ▸ hlt)
  simp only [checkEntry, bind_error_iff, Fault.require_error_iff, Fault.require_ok_iff, hchosen,
    hw, reduceCtorEq, false_and, false_or, Option.some.injEq, exists_eq_left', guard_error_iff]
    at hfault
  obtain ⟨hle, rfl⟩ := hfault
  exact ⟨_, rfl, .noStrategy hlive hw (Nat.not_lt.1 hle)⟩

/-- The check of an assignment that is not admitted says what is wrong with it. -/
theorem exists_rejects (h : r.graph.Shaped) (hfault : r.checkEntries assignment = .error fault) :
    ∃ reason, fault = .assignment reason ∧ r.Rejects assignment reason := by
  rw [checkEntries, guarded_error_iff] at hfault
  rcases hfault with ⟨hlen, rfl⟩ | ⟨hlen, hfault⟩
  · exact ⟨_, rfl, .wrongLength hlen⟩
  · obtain ⟨n, hn, hfault⟩ := exists_of_forM_error hfault
    exact rejects_of_checkEntry h hlen (Links.mem_liveNodes.1 hn) hfault

theorem complete_error [Cost α] (h : r.toStage.Coherent)
    (hfault : r.complete assignment = .error fault) :
    (∃ reason, fault = .assignment reason ∧ r.Rejects assignment reason) ∨
      ∃ n, fault = .absorptionCycle n := by
  rcases bind_error_iff.1 hfault with hcheck | ⟨_, hcheck, hcomplete⟩
  · exact .inl (exists_rejects h.graph.toShaped hcheck)
  · rw [Absorptions.complete, bind_error_iff] at hcomplete
    rcases hcomplete with hsettled | ⟨absorptions, hsettled, -⟩
    · obtain ⟨n, -, hcycle⟩ :=
        (Absorptions.settled_error_iff h.composable h.right).1 hsettled
      exact .inr ⟨n, hcycle⟩
    · -- once all chains end, nothing else can fail
      have hends := Absorptions.ends_of_settled h.composable h.right hsettled
      obtain ⟨full, hfull, -⟩ :=
        exists_complete h hends ((checkEntries_ok h.graph.toShaped).1 hcheck)
      cases hfault.symm.trans hfull

theorem cost_error [Cost α] (h : r.toStage.Coherent) (hfault : r.cost assignment = .error fault) :
    ∃ reason, fault = .assignment reason ∧ r.Rejects assignment reason := by
  rcases bind_error_iff.1 hfault with hcheck | ⟨_, hcheck, -⟩
  · exact exists_rejects h.graph.toShaped hcheck
  · have ha := (checkEntries_ok h.graph.toShaped).1 hcheck
    cases hfault.symm.trans (cost_ok h ha)

/-- An admitted assignment has an entry for each node, and those of live nodes are in range. -/
theorem admits_iff (h : r.graph.Shaped) : r.Admits assignment ↔ assignment.length = r.size ∧
    ∀ n w, r.graph.links.isLive n → r.graph.width? n = some w →
      ∃ j, assignment[n.index]? = some j ∧ j < w := by
  refine and_congr_right fun hlen => forall₄_congr fun n w hlive hw => ?_
  have hlt : n.index < assignment.length := hlen.symm ▸ h.index_lt_of_isLive hlive
  rw [getElem?_eq_chosenAt hlt]
  simp

/-- Exactly the admitted assignments have a cost. -/
theorem exists_cost_iff [Cost α] (h : r.toStage.Coherent) :
    (∃ total, r.cost assignment = .ok total) ↔ r.Admits assignment := by
  constructor
  · rintro ⟨total, htotal⟩
    obtain ⟨_, hcheck, -⟩ := bind_ok_iff.1 htotal
    exact (checkEntries_ok h.graph.toShaped).1 hcheck
  · exact fun ha => ⟨_, cost_ok h ha⟩

/-! ### Other queries -/

theorem representative_error (hfault : r.representative n = .error fault) :
    (fault = .unknownNode n ∧ r.size ≤ n.index) ∨ fault = .absorptionCycle n := by
  rw [representative] at hfault
  split at hfault
  · rw [Absorptions.representative] at hfault
    split at hfault
    · cases hfault
    · cases hchain : Absorptions.chain? ∅ r.absorptions.entries r.absorptions.entries n with
      | none =>
        rw [hchain] at hfault
        cases hfault
        exact .inr rfl
      | some chain =>
        rw [hchain] at hfault
        cases hfault
  next hout =>
    cases hfault
    exact .inl ⟨rfl, Nat.not_lt.1 hout⟩

/-- There is no order only if the tables lead from a node back to itself. -/
theorem sweep_error (h : r.graph.Shaped) (hfault : r.sweep = .error fault) :
    ∃ n, fault = .cycle n ∧
      Relation.TransGen (fun p n => (⟨p, n⟩ : Edge) ∈ r.graph.tables) n n := by
  rw [sweep] at hfault
  cases hsort : r.digraph.sort with
  | ok order =>
    rw [hsort] at hfault
    cases hfault
  | error n =>
    rw [hsort] at hfault
    cases hfault
    refine ⟨n, rfl, ?_⟩
    exact (Digraph.of_sort_error (Digraph.closed_ofEdges h.nodup_liveNodes) hsort).lift id
      fun _ _ => linked_digraph.1

/-! ### Runs -/

variable [Cost α]

theorem merge_error {edge : Edge} (h : r.toStage.Coherent) (hfault : r.merge edge = .error fault) :
    Graph.MergeFault edge fault := by
  rcases bind_error_iff.1 hfault with hmerge | ⟨_, -, hpure⟩
  · exact h.mergeFault_of_merge hmerge
  · cases hpure

theorem simplify_error (h : r.toStage.Coherent) (hfault : r.simplify.2 = .error fault) :
    (∃ edge ∈ r.queue, Graph.MergeFault edge fault) ∨ ∃ n, fault = .absorptionCycle n := by
  cases hpending : r.isPending with
  | false =>
    rw [simplify_of_not_pending hpending] at hfault
    cases hfault
  | true =>
    rcases (simplify_error_iff hpending).1 hfault with hrun | ⟨s, hrun, hresolve⟩
    · obtain ⟨edge, hedge, hmerge⟩ := h.exists_mergeFault hrun
      exact .inl ⟨edge, List.mem_reverse.1 hedge, hmerge⟩
    · exact .inr ((h.mergeAll hrun).exists_of_resolve_error hresolve)

/-- What calls and queries can fail with. -/
structure KnownFaults (r : Reduction α) : Prop where
  merge {edge : Edge} {fault : Fault α} : r.merge edge = .error fault →
    Graph.MergeFault edge fault
  simplify {fault : Fault α} : r.simplify.2 = .error fault →
    (∃ edge ∈ r.queue, Graph.MergeFault edge fault) ∨ ∃ n, fault = .absorptionCycle n
  table {edge : Edge} {fault : Fault α} : r.graph.table edge = .error fault →
    fault = .noSuchEdge edge
  representative {n : NodeId} {fault : Fault α} : r.representative n = .error fault →
    (fault = .unknownNode n ∧ r.size ≤ n.index) ∨ fault = .absorptionCycle n
  complete {assignment : List Nat} {fault : Fault α} : r.complete assignment = .error fault →
    (∃ reason, fault = .assignment reason ∧ r.Rejects assignment reason) ∨
      ∃ n, fault = .absorptionCycle n
  cost {assignment : List Nat} {fault : Fault α} : r.cost assignment = .error fault →
    ∃ reason, fault = .assignment reason ∧ r.Rejects assignment reason
  sweep {fault : Fault α} : r.sweep = .error fault → ∃ n, fault = .cycle n ∧
    Relation.TransGen (fun p n => (⟨p, n⟩ : Edge) ∈ r.graph.tables) n n
  residual {fault : Fault α} : Residual.ofReduction r = .error fault →
    ∃ n, fault = .cycle n ∨ fault = .absorptionCycle n

theorem knownFaults_of_coherent (h : r.toStage.Coherent) : r.KnownFaults where
  merge := merge_error h
  simplify := simplify_error h
  table hfault := (Fault.require_error_iff.1 hfault).2.symm
  representative := representative_error
  complete := complete_error h
  cost := cost_error h
  sweep := sweep_error h.graph.toShaped
  residual hfault := by
    rcases bind_error_iff.1 hfault with hsweep | ⟨order, -, hfault⟩
    · obtain ⟨n, rfl, -⟩ := sweep_error h.graph.toShaped hsweep
      exact ⟨n, .inl rfl⟩
    · rcases bind_error_iff.1 hfault with hsettled | ⟨_, -, hpure⟩
      · obtain ⟨n, -, rfl⟩ := (Absorptions.settled_error_iff h.composable h.right).1 hsettled
        exact ⟨n, .inr rfl⟩
      · cases hpure

variable {settings : Settings α} {c : Catalog α}

/-- Every catalog that passes the check can be reduced, and after any run of calls the faults of
    further calls and queries are known ones. Moreover exactly those assignments have a cost that
    have an entry for each node and give each live node one of its declared strategies. -/
theorem faults_run (h : Startable settings c) : FromStart settings c fun r => ∀ calls,
    let s := r.run calls
    s.KnownFaults ∧ ∀ assignment, (∃ total, s.cost assignment = .ok total) ↔
      assignment.length = c.size ∧ ∀ n w, s.graph.links.isLive n → c.width? n = some w →
        ∃ j, assignment[n.index]? = some j ∧ j < w := by
  refine h.fromStart fun r hr => ?_
  intro calls s
  have hs : s.toStage.Coherent := coherent_run calls hr.coherent
  have hsize : s.size = c.size := hr.size_run calls
  have hwidth (n : NodeId) : s.graph.width? n = c.width? n := hr.width?_run calls n
  refine ⟨knownFaults_of_coherent hs, ?_⟩
  intro assignment
  simp only [exists_cost_iff hs, admits_iff hs.graph.toShaped, hsize, hwidth]

/-- Merging the second node of `Residual.ring` with itself leaves it linked to itself, but without
    a table for that link. -/
def loopCalls : List Call := [.merge ⟨.ofIndex 1, .ofIndex 1⟩]

/-- The next merge comes upon the missing table. -/
theorem ring_faults_run : FromStart ⟨true, some 8⟩ Residual.ring fun r =>
    (r.run loopCalls).KnownFaults ∧
    (∃ fault, (r.run loopCalls).merge ⟨.ofIndex 0, .ofIndex 1⟩ = .error fault ∧
      Graph.MergeFault ⟨.ofIndex 0, .ofIndex 1⟩ fault) ∧
    ∃ total, (r.run loopCalls).cost [1, 1] = .ok total := by
  obtain ⟨r, event, hstart, h⟩ := faults_run Residual.ring_startable
  obtain ⟨hknown, hcost⟩ := h loopCalls
  obtain ⟨hlive, hfails⟩ :
      (r.run loopCalls).graph.links.liveNodes = [.ofIndex 0, .ofIndex 1] ∧
      ((r.run loopCalls).merge ⟨.ofIndex 0, .ofIndex 1⟩).toOption.isNone :=
    of_any (P := fun p : _ × _ =>
      (p.1.run loopCalls).graph.links.liveNodes = [.ofIndex 0, .ofIndex 1] ∧
      ((p.1.run loopCalls).merge ⟨.ofIndex 0, .ofIndex 1⟩).toOption.isNone)
      (by decide +kernel) hstart
  refine ⟨r, event, hstart, hknown, ?_, ?_⟩
  · cases hmerge : (r.run loopCalls).merge ⟨.ofIndex 0, .ofIndex 1⟩ with
    | error fault => exact ⟨fault, rfl, hknown.merge hmerge⟩
    | ok result =>
      rw [hmerge] at hfails
      cases hfails
  · refine (hcost [1, 1]).2 ⟨rfl, ?_⟩
    intro n w hn hw
    rw [← Links.mem_liveNodes, hlive, List.mem_cons, List.mem_singleton] at hn
    rcases hn with rfl | rfl <;> cases hw <;> exact ⟨1, rfl, by decide⟩

end Reduction

end Reshard
