import Reshard.Proofs.Graph.Leaf
import Reshard.Proofs.Reduction.Exchange
import Reshard.Proofs.Reduction.Intact

/-! Leaves and the least cost.

    `LeastCost` says what the cheapest of some assignments costs. When a leaf has been absorbed, an
    assignment costs the least of what it cost with any strategy of that leaf. So if all mergeable
    nodes are leaves, simplifying goes from one leaf to the next and keeps the least cost, which is
    that of the catalog (`leaves_keep_least_cost`). -/

namespace Reshard

variable {α : Type} [Cost α]

/-- All the assignments have a cost, and `best` is the least one. -/
def LeastCost (assignments : Set (List Nat)) (cost? : List Nat → Option α) (best : α) : Prop :=
  (∀ a ∈ assignments, ∃ x, cost? a = some x) ∧
    IsLeast {x | ∃ a ∈ assignments, cost? a = some x} best

theorem leastCost_iff {assignments : Set (List Nat)} {cost? : List Nat → Option α} {best : α}
    {f : List Nat → α} (h : ∀ a ∈ assignments, cost? a = some (f a)) :
    LeastCost assignments cost? best ↔ IsLeast (f '' assignments) best := by
  have hcosts : {x | ∃ a ∈ assignments, cost? a = some x} = f '' assignments := by
    ext x
    refine exists_congr fun a => and_congr_right fun ha => ?_
    rw [h a ha, Option.some.injEq]
  rw [LeastCost, hcosts]
  exact and_iff_right fun a ha => ⟨f a, h a ha⟩

/-! ### Assignments as lists -/

theorem chosenAt_set {a : List Nat} {n : NodeId} {j : Nat} (hn : n.index < a.length) :
    chosenAt (a.set n.index j) = Function.update (chosenAt a) n j := by
  funext u
  rw [chosenAt, List.getElem?_set]
  by_cases hu : u = n
  · subst hu
    rw [if_pos rfl, if_pos hn, Function.update_self]
    rfl
  · rw [if_neg fun heq => hu (NodeId.ext heq.symm), Function.update_of_ne hu]
    rfl

namespace Graph

variable [ExactCost α] {rank : NodeId → Nat} {g : Graph α}

/-- An assignment that is listed up to the last node gives each node its strategy. -/
theorem image_costAt_chosenAt (h : g.Sound rank) :
    (fun a => g.costAt (chosenAt a)) '' {a | a.length = g.size ∧ g.Admits (chosenAt a)} =
      g.costAt '' {f | g.Admits f} := by
  refine subset_antisymm ?_ ?_
  · rintro _ ⟨a, ha, rfl⟩
    exact ⟨chosenAt a, ha.2, rfl⟩
  · rintro _ ⟨f, hf, rfl⟩
    let a := (List.range g.size).map fun i => f (.ofIndex i)
    have hchosen {n : NodeId} (hn : n.index < g.size) : chosenAt a n = f n := by
      rw [chosenAt, List.getElem?_map, List.getElem?_range hn, Option.map_some, Option.getD_some,
        NodeId.ofIndex_index]
    refine ⟨a, ⟨by simp [a], fun n w hn hw => ?_⟩, costAt_congr h fun n hn => ?_⟩
    · rw [hchosen (index_lt_of_width? hw)]
      exact hf n w hn hw
    · exact hchosen (h.toShaped.index_lt_of_isLive hn)

/-- The least cost of the assignments in lists is that of the graph. -/
theorem leastCost_iff_optimum (h : g.Sound rank) {assignments : Set (List Nat)}
    {cost? : List Nat → Option α} {best : α}
    (hmem : ∀ a, a ∈ assignments ↔ a.length = g.size ∧ g.Admits (chosenAt a))
    (hcost : ∀ a ∈ assignments, cost? a = some (g.costAt (chosenAt a))) :
    LeastCost assignments cost? best ↔ g.Optimum best := by
  rw [leastCost_iff hcost, Optimum, ← image_costAt_chosenAt h, Set.ext hmem]
  rfl

end Graph

/-- The least cost of a catalog is that of the graph that it declares. -/
theorem Catalog.Declares.leastCost_iff [ExactCost α] {c : Catalog α} {g : Graph α}
    {rank : NodeId → Nat} {best : α} (hg : c.Declares g) (hfits : c.Fits) (hc : c.Consistent)
    (h : g.Sound rank) : LeastCost {full | c.Assigns full} c.cost? best ↔ g.Optimum best := by
  refine Graph.leastCost_iff_optimum h (fun full => ?_) fun full hfull => hg.cost?_eq hfits hc hfull
  refine and_congr (by rw [hg.size]) ⟨fun hall n w _ hw => hall n w (hg.width? ▸ hw), ?_⟩
  intro hall n w hw
  rw [← hg.width?] at hw
  exact hall n w (hg.isLive_iff.2 (hg.size ▸ Graph.index_lt_of_width? hw)) hw

namespace Reduction

variable [ExactCost α] {rank : NodeId → Nat} {r s s' : Reduction α} {e : Edge} {a : List Nat}

theorem leastCost_iff_optimum {best : α} (h : r.toStage.Sound rank) :
    LeastCost {a | r.Admits a} (fun a => (r.cost a).toOption) best ↔ r.graph.Optimum best :=
  Graph.leastCost_iff_optimum h.graph (fun _ => Iff.rfl) fun _ ha => by
    rw [cost_eq h.coherent ha]
    rfl

variable [OrderedCost α] [ClosedCost α] [MonotoneCost α]

/-! ### One leaf -/

/-- When a leaf has been absorbed, an assignment costs the least that it cost before with any
    strategy of the leaf. -/
theorem Absorbs.leastCost (ha : s.Absorbs e s') (h : s.toStage.Sound rank)
    (hv : s.graph.ValidCosts) (hchildren : s.graph.links.children e.dst = [])
    (hextra : s.graph.extra? e.dst = none) (hadmits : s'.Admits a) : ∃ w total,
      s.graph.width? e.dst = some w ∧ s'.cost a = .ok total ∧
        LeastCost ((a.set e.dst.index ·) '' Set.Iio w) (fun b => (s.cost b).toOption) total := by
  have hs' := ha.sound h
  obtain ⟨m, g', rfl, hm, rfl⟩ := (absorbs_iff h).1 ha
  have hleaf : s.graph.Leaf m.edge := hm.leaf h.graph hchildren hextra
  have hlt := h.graph.toShaped.index_lt_of_isLive hm.plan.live_dst
  obtain ⟨w, hw⟩ := Graph.exists_width? hlt
  have hlen : a.length = s.size := hadmits.1.trans (congrArg List.length (hm.widths_eq h.graph))
  have hset (j : Nat) : chosenAt (a.set m.edge.dst.index j) =
      Function.update (chosenAt a) m.edge.dst j := chosenAt_set (hlen ▸ hlt)
  have hcost : ∀ b ∈ (a.set m.edge.dst.index ·) '' Set.Iio w,
      (s.cost b).toOption = some (s.graph.costAt (chosenAt b)) := by
    rintro _ ⟨j, hj, rfl⟩
    have hvariant : s.Admits (a.set m.edge.dst.index j) := by
      refine ⟨by rw [List.length_set, hlen], ?_⟩
      rw [hset]
      exact hm.admits_update h.graph hadmits.2 hw hj
    rw [cost_eq h.coherent hvariant]
    rfl
  refine ⟨w, _, hw, cost_eq hs'.coherent hadmits, (leastCost_iff hcost).2 ?_⟩
  simp only [Set.image_image, hset]
  exact hleaf.isLeast_costAt h.graph hm hv hadmits.2 hw

/-! ### All leaves -/

/-- Merging along edges to different leaves succeeds and keeps the least cost. -/
theorem exists_mergeAll_leaves : ∀ {edges : List Edge} {s : Stage α}, s.Sound rank →
    s.graph.ValidCosts → (∀ e ∈ edges, s.graph.Leaf e) →
    (edges.Pairwise fun e e' => e.dst ≠ e'.dst) → ∃ t, s.mergeAll edges = .ok t ∧ t.Sound rank ∧
      t.graph.ValidCosts ∧ ∀ best, t.graph.Optimum best → s.graph.Optimum best
  | [], s, h, hv, _, _ => ⟨s, rfl, h, hv, fun _ => id⟩
  | e :: rest, s, h, hv, hleaves, hne => by
    rw [List.forall_mem_cons] at hleaves
    rw [List.pairwise_cons] at hne
    obtain ⟨m, g', rfl, hm⟩ := h.graph.exists_absorbed hleaves.1.child fun _ => hleaves.1.eq_src
    have hmerge : s.merge m.edge = .ok (⟨g', _⟩, m) :=
      Stage.merge_ok_iff.2 ⟨hm.merge, (if_pos hm.absorbs).symm⟩
    obtain ⟨t, hrun, ht, hvt, hbest⟩ := exists_mergeAll_leaves (h.merge hmerge)
      (hv.merge ClosedCost.add_valid h.graph.coherent hm.merge)
      (fun e he => (hleaves.2 e he).of_absorbed hleaves.1 hm h.graph (hne.1 e he).symm) hne.2
    refine ⟨t, (Stage.mergeAll_cons hmerge).trans hrun, ht, hvt, fun best htop => ?_⟩
    exact hleaves.1.optimum h.graph hm hv (hbest best htop)

/-- If all queued edges lead to different leaves, simplifying succeeds and keeps the least cost. -/
theorem exists_simplify_leaves (h : r.toStage.Sound rank) (hv : r.graph.ValidCosts)
    (hleaves : ∀ e ∈ r.queue, r.graph.Leaf e) (hne : r.queue.Pairwise fun e e' => e.dst ≠ e'.dst) :
    ∃ r', r.simplify.2 = .ok r' ∧ r'.toStage.Sound rank ∧ r'.graph.ValidCosts ∧
      ∀ best, r'.graph.Optimum best → r.graph.Optimum best := by
  cases hpending : r.isPending with
  | false => exact ⟨r, congrArg Prod.snd (simplify_of_not_pending hpending), h, hv, fun _ => id⟩
  | true =>
    have hreversed : r.queue.reverse.Pairwise fun e e' => e.dst ≠ e'.dst :=
      List.pairwise_reverse.2 (hne.imp Ne.symm)
    obtain ⟨t, hrun, ht, hvt, hbest⟩ :=
      exists_mergeAll_leaves h hv (fun e he => hleaves e (List.mem_reverse.1 he)) hreversed
    obtain ⟨absorptions, hresolve, -, hsound⟩ := ht.exists_resolve
    have hsimplify := (simplify_ok_iff hpending).2 ⟨t, absorptions, hrun, hresolve, rfl⟩
    exact ⟨_, hsimplify, hsound, hvt, hbest⟩

end Reduction

/-! ### Catalogs whose mergeable nodes are leaves -/

/-- The mergeable nodes have at most one predecessor and no successors. -/
def Catalog.MergesLeaves (c : Catalog α) : Prop :=
  ∀ op ∈ c.operators, op.mergeable → op.predecessors.length ≤ 1 ∧ op.successors = []

instance {c : Catalog α} : Decidable c.MergesLeaves :=
  inferInstanceAs (Decidable (∀ op ∈ c.operators, _))

namespace Reduction

variable {settings : Settings α} {c : Catalog α} {r : Reduction α} {rank : NodeId → Nat}

theorem Started.leaf_of_mem_queue (h : Started settings c r) (hmerges : c.MergesLeaves) {e : Edge}
    (he : e ∈ r.queue) : r.graph.Leaf e := by
  have hchild {p n : NodeId} : n ∈ r.graph.links.children p ↔ c.Precedes p n :=
    (h.graph.mem_children h.consistent.map).trans Catalog.precedes_map
  have hmem : e ∈ c.mergeEdges := by
    rw [h.queue] at he
    split at he
    · exact he
    · cases he
  obtain ⟨op, hop, hmergeable, hp⟩ := (Catalog.mem_mergeEdges h.fits).1 hmem
  obtain ⟨hsingle, hsuccessors⟩ := hmerges op (List.mem_of_getElem? hop) hmergeable
  refine ⟨hchild.2 ⟨op, hop, hp⟩, fun hp' => ?_, fun v hv => ?_, ?_⟩
  · exact Catalog.eq_of_precedes hop hsingle (hchild.1 hp') ⟨op, hop, hp⟩
  · obtain ⟨op', hop', hv⟩ := (Catalog.precedes_iff_mem_successors h.consistent).1 (hchild.1 hv)
    cases hop.symm.trans hop'
    rw [hsuccessors] at hv
    cases hv
  · rw [h.graph.extras]
    exact Std.ExtTreeMap.not_mem_empty

/-- Queued edges lead to different leaves. -/
theorem Started.pairwise_queue (h : Started settings c r) (hmerges : c.MergesLeaves) :
    r.queue.Pairwise fun e e' => e.dst ≠ e'.dst := by
  have hbefore : r.queue.Pairwise c.Before := by
    rw [h.queue]
    split
    · exact Catalog.pairwise_mergeEdges h.fits h.consistent
    · exact List.Pairwise.nil
  refine hbefore.imp_of_mem fun {e e'} he he' hlt hdst => ?_
  have hleaf := h.leaf_of_mem_queue hmerges he
  have hsrc : e'.src = e.src :=
    hleaf.eq_src (hdst ▸ (h.leaf_of_mem_queue hmerges he').child)
  cases e
  cases e'
  cases hdst
  cases hsrc
  exact Catalog.Before.irrefl hlt

variable [ExactCost α] [OrderedCost α] [ClosedCost α] [MonotoneCost α]

/-- Once a leaf has been absorbed, at any point of a run, an assignment costs the least that it cost
    before with any strategy of the leaf. So simplifying succeeds and keeps the least cost of the
    catalog if all mergeable nodes are leaves. -/
theorem leaves_keep_least_cost (h : StartableAcyclic settings c) :
    let declared := c.map settings.clip
    FromStart settings c fun r =>
      (∀ calls,
        let s := r.run calls
        ∀ e s', s.Absorbs e s' → s.graph.links.children e.dst = [] → s.graph.extra? e.dst = none →
        ∀ a, s'.Admits a → ∃ w total, s.graph.width? e.dst = some w ∧ s'.cost a = .ok total ∧
          LeastCost ((a.set e.dst.index ·) '' Set.Iio w) (fun b => (s.cost b).toOption) total) ∧
      (c.MergesLeaves → ∃ r' best, r.simplify.2 = .ok r' ∧
        LeastCost {a | r'.Admits a} (fun a => (r'.cost a).toOption) best ∧
        LeastCost {full | declared.Assigns full} declared.cost? best) := by
  intro declared
  refine h.fromStart_sound fun r rank hr hsound => ?_
  have hv := hr.graph.validCosts h.consistent h.validCosts
  constructor
  · intro calls s e s' ha hchildren hextra a hadmits
    exact ha.leastCost (sound_run calls hsound)
      (validCosts_run ClosedCost.add_valid calls hsound.coherent hv) hchildren hextra hadmits
  · intro hmerges
    obtain ⟨r', hsimplify, hs', hv', hbest⟩ := exists_simplify_leaves hsound hv
      (fun e => hr.leaf_of_mem_queue hmerges) (hr.pairwise_queue hmerges)
    obtain ⟨best, htop⟩ := Graph.exists_optimum hs'.graph hv'
    exact ⟨r', best, hsimplify, (leastCost_iff_optimum hs').2 htop,
      (hr.graph.leastCost_iff h.fits.map h.consistent.map hsound.graph).2 (hbest best htop)⟩

/-- Two leaves under one node. No strategy of the first leaf is cheap enough for the second strategy
    of that node. -/
def twig : Catalog (WithTop ℕ) where
  operators :=
    [⟨"a", [], [.ofIndex 1, .ofIndex 2], [⟨"s", []⟩, ⟨"t", []⟩], false⟩,
      ⟨"b", [.ofIndex 0], [], [⟨"s", [[1, 14]]⟩, ⟨"t", [[0, 14]]⟩], true⟩,
      ⟨"c", [.ofIndex 0], [], [⟨"s", [[1, 0]]⟩, ⟨"t", [[1, 1]]⟩], true⟩]

set_option maxRecDepth 4000 in
theorem twig_leaves_keep_least_cost : FromStart ⟨true, some 8⟩ twig fun r => ∃ s' r',
    r.Absorbs ⟨.ofIndex 0, .ofIndex 1⟩ s' ∧
    (∃ w total, r.graph.width? (.ofIndex 1) = some w ∧ s'.cost [1, 0, 1] = .ok total ∧
      LeastCost (([1, 0, 1].set 1 ·) '' Set.Iio w) (fun b => (r.cost b).toOption) total) ∧
    r.simplify.2 = .ok r' ∧ ∃ best,
      LeastCost {a | r'.Admits a} (fun a => (r'.cost a).toOption) best ∧
      LeastCost {full | (twig.map (Settings.clip ⟨true, some 8⟩)).Assigns full}
        (twig.map (Settings.clip ⟨true, some 8⟩)).cost? best := by
  have hstartable : StartableAcyclic ⟨true, some 8⟩ twig :=
    ⟨⟨by decide, by decide, by decide⟩, (Catalog.numbered_of_forall (by decide)).acyclic⟩
  obtain ⟨r, event, hstart, hone, hall⟩ := leaves_keep_least_cost hstartable
  have hrun : r.graph.links.children (.ofIndex 1) = [] ∧ r.graph.extra? (.ofIndex 1) = none ∧
      (r.merge ⟨.ofIndex 0, .ofIndex 1⟩).toOption.any fun q =>
        decide (q.1.graph.links.isLive (.ofIndex 1) = false ∧ q.1.Admits [1, 0, 1]) :=
    of_any (P := fun p : _ × _ => p.1.graph.links.children (.ofIndex 1) = [] ∧
      p.1.graph.extra? (.ofIndex 1) = none ∧
      (p.1.merge ⟨.ofIndex 0, .ofIndex 1⟩).toOption.any fun q =>
        decide (q.1.graph.links.isLive (.ofIndex 1) = false ∧ q.1.Admits [1, 0, 1]))
      (by decide +kernel) hstart
  obtain ⟨hchildren, hextra, hmerge⟩ := hrun
  obtain ⟨⟨s', event'⟩, hmerge, hdead, hadmits⟩ := exists_of_any hmerge
  have habsorbs : r.Absorbs ⟨.ofIndex 0, .ofIndex 1⟩ s' := ⟨⟨event', hmerge⟩, hdead⟩
  obtain ⟨r', best, hsimplify, hbest⟩ := hall (by decide)
  exact ⟨r, event, hstart, s', r', habsorbs,
    hone [] _ s' habsorbs hchildren hextra [1, 0, 1] hadmits, hsimplify, best, hbest⟩

end Reduction

end Reshard
