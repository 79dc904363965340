import Reshard.Proofs.Catalog.Solvable
import Reshard.Proofs.Reduction.ClosedForm
import Reshard.Proofs.Reduction.Preservation

/-! Simplifying and solvable problems.

    Where each mergeable node has one predecessor, every queued merge absorbs its node, and it does
    so with the table that was declared (`Untouched`): the node follows the edge from its
    predecessor. So the problem that is left can be solved exactly if the declared one can be solved
    by an assignment that follows all merged edges (`solvable_iff_follows`). Another solution may
    get lost (`lure_unsolvable`), as a merge looks at its own edge only; but none does where the
    edges behind the absorbed nodes do not care which strategy these run. -/

namespace Reshard

variable {α : Type} [Cost α] {c : Catalog α} {g : Graph α} {queue : List Edge}
  {rank : NodeId → Nat} {e : Edge} {n : NodeId}

/-! ### Merges with only children -/

namespace Stage

/-- The edges in the queue lead to nodes without other parents. They are as declared as long as both
    ends are live, and absorbed nodes follow them. -/
structure Untouched (c : Catalog α) (g : Graph α) (queue : List Edge) (s : Stage α) : Prop where
  single {e : Edge} : e ∈ queue → s.graph.Single e.dst
  child {e : Edge} : e ∈ queue → s.graph.links.isLive e.src → s.graph.links.isLive e.dst →
    e.dst ∈ s.graph.links.children e.src
  table {e : Edge} : e ∈ queue → s.graph.links.isLive e.src → s.graph.links.isLive e.dst →
    s.graph.tables[e]? = g.tables[e]?
  entry {n : NodeId} {entry : Absorption} : s.absorptions.entries[n]? = some entry →
    (⟨entry.into, n⟩ : Edge) ∈ queue ∧
      ∀ i j, entry.map[i]? = some j → j = c.cheapest ⟨entry.into, n⟩ i

namespace Untouched

variable {s s' : Stage α} {m : Merge α} {edges : List Edge}

/-- Merging along a queued edge absorbs its destination and leaves the others as declared. -/
theorem merge (h : s.Untouched c g queue) (hs : s.Sound rank) (hg : c.Declares g)
    (hfits : c.Fits) (hc : c.Consistent) (he : e ∈ queue) (hmerge : s.merge e = .ok (s', m)) :
    s'.Untouched c g queue ∧ e.dst ∈ s'.absorptions.entries := by
  obtain ⟨rfl, hm, hperformed⟩ := hs.coherent.of_merge hmerge
  have habsorbs := hm.absorbs_of_single (h.single he)
  have hlive {n : NodeId} (hn : s'.graph.links.isLive n) :
      s.graph.links.isLive n ∧ n ≠ m.edge.dst := by
    obtain ⟨hn, hne⟩ := hperformed.isLive_iff.1 hn
    exact ⟨hn, fun hdst => hne ⟨habsorbs, hdst⟩⟩
  -- a queued edge that is left does not start or end at the absorbed node
  have hkept {e : Edge} (hsrc : s'.graph.links.isLive e.src) (hdst : s'.graph.links.isLive e.dst) :
      ¬ m.Removes ⟨e.src, e.dst⟩ := by
    rw [Merge.removes_iff]
    rintro (⟨-, hsame⟩ | ⟨-, hsame⟩)
    · exact (hlive hdst).2 hsame
    · exact (hlive hsrc).2 hsame
  have huntouched : s'.Untouched c g queue :=
    { single := fun he' => (h.single he').performed hs.graph hm hperformed habsorbs
      child := by
        intro e' he' hsrc hdst
        rw [hperformed.mem_children hm hs.graph]
        exact .inr ⟨h.child he' (hlive hsrc).1 (hlive hdst).1, hkept hsrc hdst⟩
      table := by
        intro e' he' hsrc hdst
        have hchild := h.child he' (hlive hsrc).1 (hlive hdst).1
        rw [hperformed.table_of_kept hm ?_ (hkept hsrc hdst),
          h.table he' (hlive hsrc).1 (hlive hdst).1]
        rintro ⟨-, hbelow⟩
        exact (hlive hsrc).2 (h.single he' _ (hs.graph.mem_parents.2 hchild) _
          (hs.graph.mem_parents.2 hbelow))
      entry := by
        intro n entry hn
        rcases of_get_entries hmerge hn with ⟨-, rfl, rfl⟩ | hn
        · refine ⟨he, fun i j hj => ?_⟩
          obtain ⟨t, ht, -, -, hlen, hchoice⟩ := hm.table_of_shape hs.graph.toShaped
          have hi : i < t.rows := hlen ▸ (List.getElem?_eq_some_iff.1 hj).1
          rw [h.table he hm.live_src hm.live_dst] at ht
          exact (hg.cheapest_eq hfits hc ht ((hchoice i hi).symm.trans hj)).symm
        · exact h.entry hn }
  refine ⟨huntouched, ?_⟩
  rw [Std.ExtTreeMap.mem_iff_isSome_getElem?, get_entries_merge hmerge, if_pos ⟨habsorbs, rfl⟩]
  rfl

theorem mergeAll (hg : c.Declares g) (hfits : c.Fits) (hc : c.Consistent) :
    ∀ {edges : List Edge} {s s' : Stage α}, s.Untouched c g queue → s.Sound rank →
    (∀ e ∈ edges, e ∈ queue) → s.mergeAll edges = .ok s' →
    s'.Untouched c g queue ∧ ∀ e ∈ edges, e.dst ∈ s'.absorptions.entries
  | [], _, _, h, _, _, hrun => by
    cases hrun
    exact ⟨h, nofun⟩
  | e :: edges, s, s'', h, hs, hedges, hrun => by
    rw [List.forall_mem_cons] at hedges
    obtain ⟨s', m, hmerge, hrun⟩ := of_mergeAll_cons hrun
    obtain ⟨h', hdst⟩ := h.merge hs hg hfits hc hedges.1 hmerge
    have hs' := hs.merge hmerge
    obtain ⟨h'', hall⟩ := mergeAll hg hfits hc h' hs' hedges.2 hrun
    refine ⟨h'', List.forall_mem_cons.2 ⟨?_, hall⟩⟩
    obtain ⟨entry, hentry⟩ := FiniteMap.exists_get hdst
    exact FiniteMap.mem_of_get (hs'.coherent.get_entries_mergeAll hrun hentry)

end Untouched

end Stage

/-! ### Simplifying -/

namespace Reduction

variable {settings : Settings α} {r r' : Reduction α} {assignment full : List Nat}

/-- Some assignment has a finite cost. -/
def Solvable (r : Reduction α) : Prop :=
  ∃ assignment total, r.Admits assignment ∧ r.cost assignment = .ok total ∧ Cost.isFinite total

theorem Started.precedes_of_mem_queue (h : Started settings c r) (he : e ∈ r.queue) :
    c.Precedes e.src e.dst := by
  rw [h.queue] at he
  split at he
  · exact Catalog.precedes_of_mem_mergeEdges h.fits he
  · cases he

/-- The queued edges lead to nodes without other predecessors. -/
theorem Started.eq_src_of_mem_queue (h : Started settings c r)
    (hsingle : ∀ n op, c.get? n = some op → op.mergeable → op.predecessors.length ≤ 1)
    (he : e ∈ r.queue) {p : NodeId} (hp : c.Precedes p e.dst) : p = e.src := by
  obtain ⟨op, hop, hmergeable⟩ := h.mergeable_of_mem_queue he
  exact Catalog.eq_of_precedes hop (hsingle _ op hop hmergeable) hp
    (h.precedes_of_mem_queue he)

section Simplified

variable (h : Started settings c r) (hsound : r.toStage.Sound rank)
  (hsingle : ∀ n op, c.get? n = some op → op.mergeable → op.predecessors.length ≤ 1)
include h

include hsingle in
theorem Started.untouched : r.toStage.Untouched (c.map settings.clip) r.graph r.queue where
  single he := by
    obtain ⟨op, hop, hmergeable⟩ := h.mergeable_of_mem_queue he
    exact h.single hop (hsingle _ op hop hmergeable)
  child he _ _ :=
    (h.graph.mem_children h.consistent.map).2 (Catalog.precedes_map.2 (h.precedes_of_mem_queue he))
  table _ _ _ := rfl
  entry hn := nomatch h.get_entries.symm.trans hn

variable (hsimplify : r.simplify.2 = .ok r')
include hsound hsingle hsimplify

/-- Simplifying absorbs the destinations of all queued edges, and they follow these edges. -/
theorem untouched_simplify : r'.toStage.Untouched (c.map settings.clip) r.graph r.queue ∧
    ∀ e ∈ r.queue, e.dst ∈ r'.absorptions.entries := by
  have hcall : r.call? .simplify = some r' := toOption_eq_some_iff.2 hsimplify
  obtain ⟨s, hmerges, hgraph, hentries, -⟩ := of_call? hsound.coherent hcall
  have hedges : ∀ e, e ∈ r.edges .simplify ↔ e ∈ r.queue := by
    intro e
    rw [edges, isPending, h.simplified, Bool.not_false, Bool.and_true, h.settings_eq]
    split
    · exact List.mem_reverse
    next hoff => rw [h.queue, if_neg hoff]
  obtain ⟨hs, hall⟩ := (h.untouched hsingle).mergeAll h.graph h.fits.map h.consistent.map hsound
    (fun e he => (hedges e).1 he) hmerges
  have huntouched : r'.toStage.Untouched (c.map settings.clip) r.graph r.queue :=
    { single := fun he => hgraph ▸ hs.single he
      child := hgraph ▸ hs.child
      table := hgraph ▸ hs.table
      entry := hentries ▸ hs.entry }
  exact ⟨huntouched, fun e he => hentries ▸ hall e ((hedges e).2 he)⟩

/-! ### Following -/

section Following

variable [OrderedCost α] (hv : (c.map settings.clip).ValidWeights)
include hv

/-- An absorbed node follows the edge from its predecessor exactly if its strategy is the one that
    its entry gives to it. -/
theorem firstLeast_iff_strategy? (hfull : (c.map settings.clip).Assigns full) {entry : Absorption}
    (hn : r'.absorptions.entries[n]? = some entry) :
    Cost.FirstLeast ((c.map settings.clip).line ⟨entry.into, n⟩ (chosenAt full entry.into))
        (chosenAt full n) ↔
      full[n.index]? = full[entry.into.index]?.bind entry.strategy? := by
  obtain ⟨hu, -⟩ := untouched_simplify h hsound hsingle hsimplify
  obtain ⟨hmem, hmap⟩ := hu.entry hn
  have hpn := h.precedes_of_mem_queue hmem
  obtain ⟨hinto, hlt⟩ := Catalog.index_lt_of_precedes h.consistent hpn
  have hcoherent : r'.toStage.Coherent :=
    run_simplify hsimplify ▸ coherent_run _ h.coherent
  have hw : (c.map settings.clip).width? entry.into = some entry.map.length := by
    rw [← h.graph.width?, ← hcoherent.width_into hn, Graph.width?, Graph.width?,
      ← run_simplify hsimplify, widths_run _ h.coherent]
  have hi := hfull.2 _ _ hw
  have hlen : full.length = c.size := hfull.1.trans Catalog.size_map
  rw [Catalog.firstLeast_iff h.consistent.map hv (Catalog.precedes_map.2 hpn) hw hi,
    getElem?_eq_chosenAt (hlen ▸ hlt), getElem?_eq_chosenAt (hlen ▸ hinto), Option.bind_some,
    Absorption.strategy?, List.getElem?_eq_getElem hi, Option.some.injEq,
    hmap _ _ (List.getElem?_eq_getElem hi)]

/-- An assignment for the catalog follows the queued edges exactly if it is a completed one. -/
theorem follows_iff_completes (hfull : (c.map settings.clip).Assigns full) :
    (c.map settings.clip).Follows r.queue full ↔
      Absorptions.Completes r'.absorptions.entries full full := by
  obtain ⟨hu, hall⟩ := untouched_simplify h hsound hsingle hsimplify
  have hiff {n : NodeId} {entry : Absorption} (hn : r'.absorptions.entries[n]? = some entry) :=
    firstLeast_iff_strategy? h hsound hsingle hsimplify hv hfull hn
  constructor
  · intro hfollows
    exact ⟨rfl, fun _ => rfl, fun hn => (hiff hn).1 (hfollows _ (hu.entry hn).1)⟩
  · intro hcompletes e he
    obtain ⟨entry, hentry⟩ := FiniteMap.exists_get (hall e he)
    have hinto : entry.into = e.src := h.eq_src_of_mem_queue hsingle he
      (h.precedes_of_mem_queue (hu.entry hentry).1)
    have hfollows := (hiff hentry).2 (hcompletes.of_some hentry)
    rwa [hinto] at hfollows

/-- A completed assignment follows the queued edges. -/
theorem follows_of_complete (ha : r'.Admits assignment)
    (hfull : r'.complete assignment = .ok full) :
    (c.map settings.clip).Assigns full ∧ (c.map settings.clip).Follows r.queue full ∧
      Absorptions.Completes r'.absorptions.entries assignment full := by
  have hrun := run_simplify hsimplify
  have hsound' : r'.toStage.Sound rank := hrun ▸ sound_run _ hsound
  obtain ⟨-, hcompletes⟩ := (complete_ok_iff hsound'.coherent hsound'.ends).1 hfull
  have hassigns : (c.map settings.clip).Assigns full :=
    assigns_of_completes h [.simplify] (hrun ▸ ha) (hrun ▸ hcompletes)
  refine ⟨hassigns, ?_, hcompletes⟩
  exact (follows_iff_completes h hsound hsingle hsimplify hv hassigns).2
    ⟨rfl, fun _ => rfl, hcompletes.of_some⟩

end Following

/-! ### Solutions -/

section Solutions

variable [ExactCost α]

/-- The problem that is left has the costs of the declared one. -/
theorem exists_same_cost (ha : r'.Admits assignment) : ∃ full total,
    r'.complete assignment = .ok full ∧ r'.cost assignment = .ok total ∧
      (c.map settings.clip).cost? full = some total := by
  have hrun := run_simplify hsimplify
  obtain ⟨full, total, original, hcomplete, htotal, horiginal, hbalance⟩ :=
    exists_balance h hsound [.simplify] (hrun ▸ ha)
  obtain ⟨hreleased, hadded⟩ := sum_eq_zero_of_absorbs (f := chosenAt full)
    (absorbs_of_single h hsound hsingle)
  have hhistory : r.history [.simplify] = r.log .simplify := List.append_nil _
  rw [hhistory, hreleased, hadded, add_zero, add_zero] at hbalance
  rw [hrun] at hcomplete htotal
  exact ⟨full, total, hcomplete, htotal, hbalance ▸ horiginal⟩

variable [OrderedCost α] (hv : (c.map settings.clip).ValidWeights)
include hv

/-- The solutions that are left are the declared ones that follow the queued edges. -/
theorem solvable_iff_follows : r'.Solvable ↔ ∃ full total,
    (c.map settings.clip).Assigns full ∧ (c.map settings.clip).Follows r.queue full ∧
      (c.map settings.clip).cost? full = some total ∧ Cost.isFinite total := by
  constructor
  · rintro ⟨assignment, total, ha, htotal, hfinite⟩
    obtain ⟨full, total', hfull, htotal', hcost⟩ :=
      exists_same_cost h hsound hsingle hsimplify ha
    cases htotal.symm.trans htotal'
    obtain ⟨hassigns, hfollows, -⟩ :=
      follows_of_complete h hsound hsingle hsimplify hv ha hfull
    exact ⟨full, total, hassigns, hfollows, hcost, hfinite⟩
  · rintro ⟨full, total, hassigns, hfollows, hcost, hfinite⟩
    have hrun := run_simplify hsimplify
    have hsound' : r'.toStage.Sound rank := hrun ▸ sound_run _ hsound
    have ha : r'.Admits full := hrun ▸ admits_of_assigns h [.simplify] hassigns
    have hcompletes :=
      (follows_iff_completes h hsound hsingle hsimplify hv hassigns).1 hfollows
    obtain ⟨full', total', hfull, htotal, hcost'⟩ :=
      exists_same_cost h hsound hsingle hsimplify ha
    cases hfull.symm.trans ((complete_ok_iff hsound'.coherent hsound'.ends).2 ⟨ha, hcompletes⟩)
    cases hcost.symm.trans hcost'
    exact ⟨full, total, ha, htotal, hfinite⟩

/-- If the edges behind the absorbed nodes are indifferent, these can go over to the strategies that
    follow the queued edges, and what was finite stays so. -/
theorem solvable_of_indifferent [ClosedCost α] [FiniteCost α]
    (hindifferent : ∀ e ∈ r.queue, (c.map settings.clip).Indifferent e.dst)
    (hsolvable : (c.map settings.clip).Solvable) : r'.Solvable := by
  obtain ⟨full, total, hassigns, hcost, hfinite⟩ := hsolvable
  have hrun := run_simplify hsimplify
  have hcoherent : r'.toStage.Coherent := hrun ▸ coherent_run _ h.coherent
  have ha : r'.Admits full := hrun ▸ admits_of_assigns h [.simplify] hassigns
  obtain ⟨full', total', hfull', htotal, hcost'⟩ :=
    exists_same_cost h hsound hsingle hsimplify ha
  obtain ⟨hassigns', hfollows, hcompletes⟩ :=
    follows_of_complete h hsound hsingle hsimplify hv ha hfull'
  have hkept : ∀ n : NodeId, n.index < (c.map settings.clip).size →
      (∀ e ∈ r.queue, e.dst ≠ n) → chosenAt full' n = chosenAt full n := by
    intro n hn hnot
    refine chosenAt_of_live hcoherent hcompletes ?_
    -- a node that is not live has an entry, which says that it was queued
    by_contra hlive
    have hsize : n.index < r'.graph.size := hn.trans_eq (hassigns.1.symm.trans ha.1)
    obtain ⟨entry, hentry⟩ := FiniteMap.exists_get (hcoherent.mem_entries.2 ⟨hsize, hlive⟩)
    obtain ⟨hu, -⟩ := untouched_simplify h hsound hsingle hsimplify
    exact hnot _ (hu.entry hentry).1 rfl
  have hfinite' := Catalog.isFinite_of_follows h.consistent.map hv ?_ hindifferent hassigns
    hassigns' hfollows hkept
    ((Catalog.finite_cost?_iff h.fits.map h.consistent.map hv hassigns).1 ⟨total, hcost, hfinite⟩)
  · obtain ⟨total'', hcost'', hfinite''⟩ :=
      (Catalog.finite_cost?_iff h.fits.map h.consistent.map hv hassigns').2 hfinite'
    cases hcost'.symm.trans hcost''
    exact ⟨full, total', ha, htotal, hfinite''⟩
  · intro e he p hp
    exact h.eq_src_of_mem_queue hsingle he (Catalog.precedes_map.1 hp)

end Solutions

end Simplified

variable [ExactCost α] [OrderedCost α] [ClosedCost α] [FiniteCost α]

/-- If each mergeable node has at most one predecessor, the problem that simplifying leaves can be
    solved exactly if the declared one can be solved by an assignment that follows the edges into
    mergeable nodes. So nothing is lost where the edges behind these nodes are indifferent. -/
theorem simplify_solvable_iff (h : StartableAcyclic settings c)
    (hsingle : ∀ n op, c.get? n = some op → op.mergeable → op.predecessors.length ≤ 1) :
    let declared := c.map settings.clip
    let merged := if settings.simplify then c.mergeEdges else []
    FromStart settings c fun r => ∀ r', r.simplify.2 = .ok r' →
      (r'.Solvable ↔ ∃ full total, declared.Assigns full ∧ declared.Follows merged full ∧
        declared.cost? full = some total ∧ Cost.isFinite total) ∧
      ((∀ e ∈ merged, declared.Indifferent e.dst) → declared.Solvable → r'.Solvable) := by
  intro declared merged
  have hv : declared.ValidWeights := h.validCosts.validWeights settings
  refine h.fromStart_sound fun r rank hr hsound => ?_
  have hqueue : r.queue = merged := hr.queue
  intro r' hsimplify
  rw [← hqueue]
  exact ⟨solvable_iff_follows hr hsound hsingle hsimplify hv,
    solvable_of_indifferent hr hsound hsingle hsimplify hv⟩

set_option maxRecDepth 4000 in
theorem braid_simplify_solvable : FromStart ⟨true, some 8⟩ braid fun r => ∃ r',
    r.simplify.2 = .ok r' ∧ r'.Solvable := by
  have hall : ∀ op ∈ braid.operators, op.mergeable → op.predecessors.length ≤ 1 := by decide
  obtain ⟨r, event, hstart, h⟩ := simplify_solvable_iff braid_startable
    fun n op hop => hall op (List.mem_of_getElem? hop)
  have hsimplify : r.simplify.2.toOption.isSome :=
    of_any (P := fun p : _ × _ => p.1.simplify.2.toOption.isSome) (by decide +kernel) hstart
  obtain ⟨r', hr'⟩ := Option.isSome_iff_exists.1 hsimplify
  have hr' := toOption_eq_some_iff.1 hr'
  have hmerged : braid.mergeEdges = [⟨.ofIndex 0, .ofIndex 1⟩] := by decide
  refine ⟨r, event, hstart, r', hr', (h r' hr').2 ?_ ?_⟩
  · intro e he
    rw [if_pos rfl, hmerged, List.mem_singleton] at he
    subst he
    decide
  · exact ⟨[0, 0, 0], 1, by decide, by decide, rfl⟩

/-- The second node is free against the first one under its first strategy, but the third cannot
    take that one. -/
def lure : Catalog (WithTop ℕ) where
  operators :=
    [⟨"a", [], [.ofIndex 1], [⟨"s", []⟩], false⟩,
      ⟨"n", [.ofIndex 0], [.ofIndex 2], [⟨"s", [[0]]⟩, ⟨"t", [[1]]⟩], true⟩,
      ⟨"b", [.ofIndex 1], [], [⟨"s", [[⊤, 0]]⟩], false⟩]

theorem lure_startable : StartableAcyclic {} lure :=
  ⟨⟨by decide, by decide, by decide⟩, (Catalog.numbered_of_forall (by decide)).acyclic⟩

set_option maxRecDepth 4000 in
/-- Simplifying loses the only solution: it chooses the first strategy of the second node. -/
theorem lure_unsolvable : StartableAcyclic {} lure ∧
    (∀ n op, lure.get? n = some op → op.mergeable → op.predecessors.length ≤ 1) ∧
    (lure.map (Settings.clip {})).Solvable ∧
    FromStart {} lure fun r => ∃ r', r.simplify.2 = .ok r' ∧ ¬ r'.Solvable := by
  have hall : ∀ op ∈ lure.operators, op.mergeable → op.predecessors.length ≤ 1 := by decide
  refine ⟨lure_startable, fun n op hop => hall op (List.mem_of_getElem? hop), ?_, ?_⟩
  · exact ⟨[0, 1, 0], 1, by decide, by decide, rfl⟩
  · obtain ⟨r, event, hstart, h⟩ := lure_startable.exists_start
    have hsimplify : r.simplify.2.toOption.any fun r' => decide (r'.Admits [0, 0, 0] ∧
        r'.cost [0, 0, 0] = .ok ⊤ ∧ r'.liveNodes = [.ofIndex 0, .ofIndex 2] ∧
        r'.graph.widths = [1, 2, 1]) :=
      of_any (P := fun p : _ × _ => p.1.simplify.2.toOption.any fun r' =>
        decide (r'.Admits [0, 0, 0] ∧ r'.cost [0, 0, 0] = .ok ⊤ ∧
          r'.liveNodes = [.ofIndex 0, .ofIndex 2] ∧ r'.graph.widths = [1, 2, 1]))
        (by decide +kernel) hstart
    obtain ⟨r', hr', hzero, hcost, hlive, hwidths⟩ := exists_of_any hsimplify
    refine ⟨r, event, hstart, r', hr', ?_⟩
    rintro ⟨assignment, total, ha, htotal, hfinite⟩
    -- the live nodes have one strategy each, so there is only one cost
    have hcoherent : r'.toStage.Coherent := run_simplify hr' ▸ coherent_run _ h.coherent
    have hsame : r'.cost assignment = r'.cost [0, 0, 0] := by
      refine cost_congr hcoherent ha hzero fun n hn => ?_
      have hw : r'.graph.width? n = some 1 := by
        rw [← Links.mem_liveNodes, ← liveNodes, hlive, List.mem_cons, List.mem_singleton] at hn
        rw [Graph.width?, hwidths]
        rcases hn with rfl | rfl <;> rfl
      exact (Nat.lt_one_iff.1 (ha.2 n 1 hn hw)).trans (Nat.lt_one_iff.1 (hzero.2 n 1 hn hw)).symm
    cases htotal.symm.trans (hsame.trans hcost)
    cases hfinite

end Reduction

end Reshard
