import Mathlib.Algebra.BigOperators.Group.Finset.Piecewise
import Reshard.Proofs.Catalog.Unfolded
import Reshard.Proofs.Cost.Bounds
import Reshard.Proofs.Reduction.Replay

/-! What simplifying computes.

    During the replay of the queue, a live node pays in the graph what it carries in the catalog:
    its extra costs and its tables together hold the unfolded costs of all that has been merged
    into it (`Accounts`). So, after simplifying, an assignment costs the sum of what the live nodes
    pay when all absorbed ones are unfolded (`simplified_cost`). -/

namespace Reshard

variable {α : Type} [Cost α] {c : Catalog α} {g : Graph α} {done : List Edge} {e : Edge}
  {u v : NodeId} {i w : Nat} {f : NodeId → Nat} {targets : Finset NodeId}

/-! ### Declared tables -/

namespace Catalog.Declares

theorem line_eq (hg : c.Declares g) (hfits : c.Fits) (hc : c.Consistent) {t : CostTable α}
    (ht : g.tables[e]? = some t) (hi : i < t.rows) : t.line i = c.line e i := by
  have hcols : c.width? e.dst = some t.cols := by
    rw [← hg.width?]
    exact ((hg.shaped hfits hc).table_shape ht).2
  refine List.ext_getElem? ?_
  intro j
  rw [CostTable.getElem?_line hi, Catalog.line, hcols, Option.getD_some, List.getElem?_map]
  by_cases hj : j < t.cols
  · obtain ⟨x, hx⟩ := CostTable.exists_get? hi hj
    rw [hx, List.getElem?_range hj, Option.map_some, ← hg.weight_eq hc, Graph.weight_eq ht hx]
  · rw [CostTable.get?_eq_none_of_not fun hin => hj hin.2,
      List.getElem?_eq_none (by simpa using hj)]
    rfl

/-- The choice on a line of a declared table is the cheapest strategy of the catalog. -/
theorem cheapest_eq (hg : c.Declares g) (hfits : c.Fits) (hc : c.Consistent) {t : CostTable α}
    (ht : g.tables[e]? = some t) {j : Nat} (hj : t.cheapest? i = some j) : c.cheapest e i = j := by
  have hi := (CostTable.cheapest?_lt hj).1
  rw [CostTable.cheapest?, if_pos hi, hg.line_eq hfits hc ht hi] at hj
  rw [Catalog.cheapest, hj]
  rfl

end Catalog.Declares

variable [ExactCost α]

/-! ### Carried costs -/

namespace Stage

variable {s s' : Stage α} {m : Merge α} {rank : NodeId → Nat}

/-- Each live node pays what it carries in the catalog when the edges in `done` are done. -/
def Accounts (c : Catalog α) (done : List Edge) (s : Stage α) : Prop :=
  ∀ u i w f targets, s.graph.links.isLive u → s.graph.width? u = some w → i < w →
    s.graph.outCost f targets u i = c.carried done f targets u i

/-- In the declared graph a node pays for its edges only. -/
theorem accounts_of_declares (hg : c.Declares s.graph) (hc : c.Consistent)
    (hnumbered : c.Numbered) : s.Accounts c [] := by
  intro u i w f targets _ _ _
  have hshare : ∀ v, c.share [] f targets u i v =
      if v ∈ targets then s.graph.weight ⟨u, v⟩ i (f v) else 0 := fun v => by
    rw [Catalog.share, if_neg List.not_mem_nil, hg.weight_eq hc]
  have hzero : ∀ v ∈ targets, v ∉ (c.successors u).toFinset ∩ targets →
      s.graph.weight ⟨u, v⟩ i (f v) = 0 := by
    intro v hv hnot
    refine Graph.weight_of_notMem (fun hmem => hnot ?_) i (f v)
    have huv := (hg.mem_tables hc).1 hmem
    exact Finset.mem_inter.2 ⟨List.mem_toFinset.2 ((Catalog.mem_successors hc).2 huv), hv⟩
  rw [Graph.outCost, hg.extraAt_eq, zero_add, Catalog.carried_eq hc hnumbered,
    Finset.sum_congr rfl fun v _ => hshare v, Finset.sum_ite_mem,
    Finset.sum_subset Finset.inter_subset_right hzero]

/-- Merging along the next edge moves to the source what its destination carries. -/
theorem Accounts.merge (h : s.Accounts c done) (hs : s.Sound rank) (hfits : c.Fits)
    (hc : c.Consistent) (hnumbered : c.Numbered) (hg : c.Declares g) (hnext : c.Next done e)
    (htable : s.graph.tables[e]? = g.tables[e]?) (hmerge : s.merge e = .ok (s', m)) :
    s'.Accounts c (e :: done) := by
  obtain ⟨rfl, hm, hperformed⟩ := hs.coherent.of_merge hmerge
  intro u i w f targets hlive hw hi
  rw [hperformed.isLive_iff] at hlive
  rw [hperformed.width?] at hw
  by_cases hu : u = m.edge.src
  · subst hu
    obtain ⟨t, ht, hrows, hcols, hlen, hchoice⟩ := hm.table_of_shape hs.graph.toShaped
    cases hrows.symm.trans hw
    -- the table of the edge is still the declared one, and so are the choices on its lines
    have hcheapest : m.choice[i]? = some (c.cheapest m.edge i) := by
      have hlt : i < m.choice.length := hlen ▸ hi
      rw [List.getElem?_eq_getElem hlt, hg.cheapest_eq hfits hc (htable ▸ ht)]
      rw [← hchoice i hi, List.getElem?_eq_getElem hlt]
    have hweight : s.graph.weight m.edge i (c.cheapest m.edge i) =
        c.weight m.edge i (c.cheapest m.edge i) := by
      rw [← hg.weight_eq hc, Graph.weight, htable, Graph.weight]
    have hlt : c.cheapest m.edge i < t.cols :=
      hm.choice_lt hs.graph.toShaped (List.mem_of_getElem? hcheapest) hcols
    rw [Graph.outCost_of_src hs.graph hm hperformed hcheapest, hweight,
      h _ _ _ _ _ hm.live_src hrows hi, h _ _ _ _ _ hm.live_dst hcols hlt,
      Catalog.carried_cons_src hc hnumbered hnext]
  · rw [Graph.outCost_of_ne hm hperformed hu hlive.2, h _ _ _ _ _ hlive.1 hw hi,
      Catalog.carried_cons_of_ne hc hnumbered hnext hu]

end Stage

/-! ### Simplifying -/

namespace Reduction

variable {settings : Settings α} {r r' : Reduction α}

/-- What a node pays when the nodes that are not live are unfolded and the others run the strategies
    of an assignment. -/
def unfolded (r : Reduction α) (declared : Catalog α) (assignment : List Nat) :
    NodeId → Nat → α :=
  declared.unfolded (fun e => !r.graph.links.isLive e.dst) fun e i =>
    declared.weight e i (chosenAt assignment e.dst)

theorem unfolded_eq {declared : Catalog α} {assignment : List Nat} (hc : declared.Consistent)
    (hnumbered : declared.Numbered) : r.unfolded declared assignment u i =
      ∑ v ∈ (declared.successors u).toFinset,
        if r.graph.links.isLive v then declared.weight ⟨u, v⟩ i (chosenAt assignment v)
        else
          let j := declared.cheapest ⟨u, v⟩ i
          declared.weight ⟨u, v⟩ i j + r.unfolded declared assignment v j := by
  rw [unfolded, Catalog.unfolded_eq hc hnumbered]
  refine Finset.sum_congr rfl ?_
  intro v _
  cases r.graph.links.isLive v <;> rfl

/-- After simplifying, the live nodes carry what is unfolded below them. -/
theorem carried_eq_unfolded (h : Simplified c r) (hfits : c.Fits) (hc : c.Consistent)
    (hnumbered : c.Numbered) (clip : α → α) (assignment : List Nat) (targets : Finset NodeId)
    (htargets : ∀ n, n.index < c.size → n ∈ targets) :
    (c.map clip).carried c.mergeEdges (chosenAt assignment) targets u i =
      r.unfolded (c.map clip) assignment u i := by
  refine Catalog.unfolded_congr hc.map hnumbered.map (fun u v _ huv => ⟨?_, ?_⟩) (Nat.zero_le _)
  · have huv := Catalog.precedes_map.1 huv
    have hlive : r.graph.links.isLive v ↔ ¬ c.Removable v := by
      rw [h.isLive_iff, h.absorbed_iff, and_iff_right (Catalog.index_lt_of_precedes hc huv).2]
    rw [Bool.eq_iff_iff, decide_eq_true_eq, Catalog.mem_mergeEdges_iff_removable hfits huv,
      Bool.not_eq_true', ← Bool.not_eq_true, hlive, not_not]
  · funext i
    have huv := Catalog.precedes_map.1 huv
    rw [if_pos (htargets v (Catalog.index_lt_of_precedes hc huv).2)]

/-- Simplifying merges along the whole queue, and then each live node pays what it carries. -/
theorem exists_simplify_accounts (h : Started settings c r) (hsimplify : settings.simplify)
    (hnumbered : c.Numbered) : ∃ r', r.simplify.2 = .ok r' ∧ Simplified c r' ∧
      r'.graph.size = c.size ∧ r'.toStage.Sound NodeId.index ∧
      r'.toStage.Accounts (c.map settings.clip) c.mergeEdges := by
  have hc := h.consistent
  obtain ⟨r', s, hrun, ⟨hs, haccounts⟩, hgraph, hentries, hsound⟩ := exists_simplify
    (P := fun done s => s.Swept c r.graph done ∧ s.Accounts (c.map settings.clip) done) h hsimplify
    ⟨h.swept hnumbered, Stage.accounts_of_declares h.graph hc.map hnumbered.map⟩
    (fun rest done e s hqueue hs => by
      have hnext := Catalog.next_of_mergeEdges h.fits hc hnumbered hqueue
      have htable := hs.1.table hnext.precedes hnext.notMem fun e' => hnext.index_le
      obtain ⟨s', m, hmerge⟩ := hs.1.exists_merge hc hnext
      exact ⟨s', m, hmerge, hs.1.merge hc hnumbered hnext hmerge,
        hs.2.merge hs.1.toSound h.fits.map hc.map hnumbered.map h.graph hnext.map htable hmerge⟩)
    fun _ _ hs => hs.1.toSound
  refine ⟨r', hrun, simplified_of_swept hs h.fits hgraph hentries hsound, ?_, hsound, ?_⟩
  · rw [hgraph, hs.size]
  · rw [Stage.Accounts, hgraph]
    exact haccounts

/-- The live nodes together cost what they carry, which is what is unfolded below them. -/
theorem cost_eq_unfolded (h : Simplified c r) (hfits : c.Fits) (hc : c.Consistent)
    (hnumbered : c.Numbered) (clip : α → α) (hsize : r.graph.size = c.size)
    (hsound : r.toStage.Sound NodeId.index)
    (haccounts : r.toStage.Accounts (c.map clip) c.mergeEdges) {assignment : List Nat}
    (ha : r.Admits assignment) : r.cost assignment = .ok (∑ u ∈ r.graph.live,
      r.unfolded (c.map clip) assignment u (chosenAt assignment u)) := by
  rw [cost_eq hsound.coherent ha]
  refine congrArg Except.ok (Finset.sum_congr rfl ?_)
  intro u hu
  have hlive := Graph.mem_live.1 hu
  obtain ⟨w, hw⟩ := Graph.exists_width? (hsound.graph.toShaped.index_lt_of_isLive hlive)
  have hin : ∀ n : NodeId, n.index < c.size → n ∈ r.graph.nodes := fun n hn =>
    Graph.mem_nodes.2 (hsize ▸ hn)
  rw [← carried_eq_unfolded h hfits hc hnumbered clip assignment _ hin,
    ← haccounts u _ w _ _ hlive hw (ha.2 u w hlive hw)]

/-- The costs of a simplified graph in terms of the declared ones: an absorbed node runs the first
    cheapest strategy against each predecessor, and is charged to each of them in full. -/
structure Unfolds (declared : Catalog α) (r : Reduction α) : Prop where
  firstLeast_cheapest {u v : NodeId} {i w : Nat} : declared.Precedes u v →
    declared.width? u = some w → i < w →
    Cost.FirstLeast (declared.line ⟨u, v⟩ i) (declared.cheapest ⟨u, v⟩ i)
  unfolded_eq {assignment : List Nat} : r.Admits assignment → ∀ u i,
    r.unfolded declared assignment u i = ∑ v ∈ (declared.successors u).toFinset,
      if r.graph.links.isLive v then declared.weight ⟨u, v⟩ i (chosenAt assignment v)
      else
        let j := declared.cheapest ⟨u, v⟩ i
        declared.weight ⟨u, v⟩ i j + r.unfolded declared assignment v j
  cost_eq {assignment : List Nat} : r.Admits assignment →
    r.cost assignment = .ok (∑ u ∈ r.graph.live,
      r.unfolded declared assignment u (chosenAt assignment u))

/-- If each node is declared behind its predecessors, simplifying succeeds, and then an assignment
    costs what the live nodes pay when all absorbed nodes are unfolded. -/
theorem simplified_cost [OrderedCost α] (h : Startable settings c) (hsimplify : settings.simplify)
    (hnumbered : c.Numbered) : FromStart settings c fun r =>
      ∃ r', r.simplify.2 = .ok r' ∧ Unfolds (c.map settings.clip) r' := by
  have hc := h.consistent
  refine h.fromStart fun r hr => ?_
  obtain ⟨r', hrun, hsimplified, hsize, hsound, haccounts⟩ :=
    exists_simplify_accounts hr hsimplify hnumbered
  refine ⟨r', hrun, {
    firstLeast_cheapest := fun huv hw hi => Catalog.firstLeast_cheapest hc.map ?_ huv hw hi
    unfolded_eq := fun _ u i => unfolded_eq hc.map hnumbered.map
    cost_eq := cost_eq_unfolded hsimplified h.fits hc hnumbered settings.clip hsize hsound
      haccounts }⟩
  intro j x hx
  rw [Catalog.weight?_map, Option.map_eq_some_iff] at hx
  obtain ⟨x, hx, rfl⟩ := hx
  exact Settings.clip_valid (Catalog.valid_of_weight? h.validCosts hx)

set_option maxRecDepth 4000 in
theorem weave_simplified_cost : FromStart ⟨true, some 8⟩ weave fun r => ∃ r',
    r.simplify.2 = .ok r' ∧ r'.cost [1, 0, 0, 0] = .ok 21 ∧
      ∑ u ∈ r'.graph.live, r'.unfolded (weave.map (Settings.clip ⟨true, some 8⟩)) [1, 0, 0, 0] u
        (chosenAt [1, 0, 0, 0] u) = 21 := by
  obtain ⟨r, event, hstart, r', hrun, h⟩ :=
    simplified_cost weave_startable.toStartable rfl weave_numbered
  have hsimplify : r.simplify.2.toOption.any fun r' =>
      decide (r'.Admits [1, 0, 0, 0] ∧ r'.cost [1, 0, 0, 0] = .ok 21) :=
    of_any (P := fun p : _ × _ => p.1.simplify.2.toOption.any fun r' =>
      decide (r'.Admits [1, 0, 0, 0] ∧ r'.cost [1, 0, 0, 0] = .ok 21)) (by decide +kernel) hstart
  obtain ⟨r'', hrun', hadmits, hcost⟩ := exists_of_any hsimplify
  cases hrun.symm.trans hrun'
  have hsum := h.cost_eq hadmits
  rw [hcost] at hsum
  exact ⟨r, event, hstart, r', hrun, hcost, (Except.ok.inj hsum).symm⟩

end Reduction

end Reshard
