import Reshard.Proofs.Reduction.Accepted

/-! What a merge changes.

    A merge writes the tables of the edges from its source to the destination's children, the extra
    costs of its source, the links between these nodes, and whether the destination is live. It
    drops the edge itself, and with an absorbed destination the edges from there. Nothing else
    changes: `Footprint` says for every part of the graph what it is afterwards, and it holds for
    the accepted merges after any run of calls (`footprint_run`). -/

namespace Reshard

variable {α : Type} [Cost α]

namespace Graph

/-- What strategy `i` of the source costs against strategy `k` of a child of the destination: the
    line of the chosen strategy, added to the table that was there already. -/
def takenOver? (g : Graph α) (m : Merge α) (child : NodeId) (i k : Nat) : Option α := do
  let below ← g.tables[(⟨m.edge.dst, child⟩ : Edge)]?
  let moved ← below.get? (← m.choice[i]?) k
  match g.tables[(⟨m.edge.src, child⟩ : Edge)]? with
  | none => return moved
  | some old => return (← old.get? i k) + moved

/-- The extra cost of strategy `i` of the source: what it was before, or zero, the cost of the
    pairing with the chosen strategy, and what that had as extra cost. -/
def charged? (g : Graph α) (m : Merge α) (i : Nat) : Option α := do
  let j ← m.choice[i]?
  let before ← (g.extra? m.edge.src).elim (some 0) (·[i]?)
  let paid ← (← g.tables[m.edge]?).get? i j
  match g.extra? m.edge.dst with
  | none => return before + paid
  | some extra => return before + paid + (← extra[j]?)

/-- All that the merge `m` turns the graph `g` into. -/
structure Footprint (g : Graph α) (m : Merge α) (g' : Graph α) : Prop where
  widths : g'.widths = g.widths
  table_of_ne {e : Edge} : e.src ≠ m.edge.src → e.src ≠ m.edge.dst → g'.tables[e]? = g.tables[e]?
  table_edge : g'.tables[m.edge]? = none
  table_of_child {c : NodeId} : c ∈ g.links.children m.edge.dst →
    ∃ t, g'.tables[(⟨m.edge.src, c⟩ : Edge)]? = some t ∧ g.width? m.edge.src = some t.rows ∧
      g.width? c = some t.cols ∧ ∀ i k, t.get? i k = g.takenOver? m c i k
  table_of_src {c : NodeId} : c ≠ m.edge.dst → c ∉ g.links.children m.edge.dst →
    g'.tables[(⟨m.edge.src, c⟩ : Edge)]? = g.tables[(⟨m.edge.src, c⟩ : Edge)]?
  table_of_dst {c : NodeId} : g'.tables[(⟨m.edge.dst, c⟩ : Edge)]? =
    if m.absorbs then none else g.tables[(⟨m.edge.dst, c⟩ : Edge)]?
  extra_src : ∃ extra, g'.extra? m.edge.src = some extra ∧
    g.width? m.edge.src = some extra.length ∧ ∀ i, extra[i]? = g.charged? m i
  extra_of_ne {n : NodeId} : n ≠ m.edge.src → g'.extra? n = g.extra? n
  isLive_dst : g'.links.isLive m.edge.dst = !m.absorbs
  isLive_of_ne {n : NodeId} : n ≠ m.edge.dst → g'.links.isLive n = g.links.isLive n
  children_src : g'.links.children m.edge.src =
    let kept := (g.links.children m.edge.src).filter (· ≠ m.edge.dst)
    kept ++ (g.links.children m.edge.dst).filter (· ∉ kept)
  children_dst : g'.links.children m.edge.dst =
    if m.absorbs then [] else g.links.children m.edge.dst
  children_of_ne {n : NodeId} : n ≠ m.edge.src → n ≠ m.edge.dst →
    g'.links.children n = g.links.children n
  parents_dst : g'.links.parents m.edge.dst =
    (g.links.parents m.edge.dst).filter (· ≠ m.edge.src)
  parents_of_child {c : NodeId} : c ∈ g.links.children m.edge.dst → g'.links.parents c =
    let joined := if m.edge.src ∈ g.links.parents c then g.links.parents c
      else g.links.parents c ++ [m.edge.src]
    if m.absorbs then joined.filter (· ≠ m.edge.dst) else joined
  parents_of_ne {n : NodeId} : n ≠ m.edge.dst → n ∉ g.links.children m.edge.dst →
    g'.links.parents n = g.links.parents n

variable {rank : NodeId → Nat} {g g' : Graph α} {m : Merge α} {c : NodeId}

/-! ### What is written -/

theorem Performed.table_of_child (hg : g.Performed m g') (hm : g.Plan m) (h : g.Sound rank)
    (hc : c ∈ g.links.children m.edge.dst) : ∃ t, g'.tables[(⟨m.edge.src, c⟩ : Edge)]? = some t ∧
      g.width? m.edge.src = some t.rows ∧ g.width? c = some t.cols ∧
      ∀ i k, t.get? i k = g.takenOver? m c i k := by
  obtain ⟨t, ht⟩ := exists_derived hm hc
  obtain ⟨below, hbelow, hrows, hcols, hget⟩ := hm.derived_eq h.toShaped ht
  refine ⟨t, hg.table_of_derived hm h ht, ?_, ?_, ?_⟩
  · rw [hrows]
    exact hm.width_src h.toShaped
  · rw [hcols]
    exact (h.table_shape hbelow).2
  · intro i k
    rw [takenOver?, hbelow]
    cases hi : m.choice[i]? with
    | none =>
      -- a strategy that the source does not have
      have hout : ¬ (i < t.rows ∧ k < t.cols) := fun hlt =>
        (List.getElem?_eq_none_iff.1 hi).not_gt (hrows ▸ hlt.1)
      rw [CostTable.get?_eq_none_of_not hout]
      rfl
    | some j =>
      rw [hget i j k hi]
      cases g.tables[(⟨m.edge.src, c⟩ : Edge)]? with
      | none => exact (Option.bind_fun_some _).symm
      | some old =>
        change ((old.get? i k).bind fun a => (below.get? j k).map (a + ·)) =
          (below.get? j k).bind fun moved => (old.get? i k).bind fun a => some (a + moved)
        cases old.get? i k <;> cases below.get? j k <;> rfl

theorem Performed.extra_src (hg : g.Performed m g') (hm : g.Plan m) (h : g.Sound rank) :
    ∃ extra, g'.extra? m.edge.src = some extra ∧ g.width? m.edge.src = some extra.length ∧
      ∀ i, extra[i]? = g.charged? m i := by
  obtain ⟨t, ht, hlen, hcharge⟩ := hm.charge_eq h.toShaped
  obtain ⟨t', ht', -, -, hrows, -⟩ := hm.table_of_shape h.toShaped
  cases ht.symm.trans ht'
  refine ⟨m.charge, ?_, ?_, ?_⟩
  · rw [extra?, hg.extras, FiniteMap.get_insert, if_pos rfl]
  · rw [hlen]
    exact hm.width_src h.toShaped
  · intro i
    rw [charged?, ht]
    cases hi : m.choice[i]? with
    | none =>
      rw [List.getElem?_eq_none_iff.2 (hlen.trans_le (List.getElem?_eq_none_iff.1 hi))]
      rfl
    | some j =>
      have hi : i < t.rows := hrows ▸ (List.getElem?_eq_some_iff.1 hi).1
      have hbefore : ((g.extras[m.edge.src]?).getD (List.replicate t.rows 0))[i]? =
          (g.extra? m.edge.src).elim (some 0) (·[i]?) := by
        rw [extra?]
        cases g.extras[m.edge.src]? with
        | none => exact List.getElem?_replicate_of_lt hi
        | some before => rfl
      rw [hcharge i j ‹_›, charge?, hbefore]
      rfl

/-- A merge changes a sound graph as its footprint says. -/
theorem Sound.footprint (h : g.Sound rank) (hm : g.Plan m) (hg : g.Performed m g') :
    g.Footprint m g' where
  widths := hg.widths
  table_of_ne {e} hsrc hdst := by
    refine hg.table_of_kept hm (fun hderived => hsrc hderived.1) ?_
    rintro (rfl | ⟨-, heq⟩)
    · exact hsrc rfl
    · exact hdst heq
  table_edge := hg.table_of_removed hm h (.inl rfl)
  table_of_child hc := hg.table_of_child hm h hc
  table_of_src {c} hne hc := by
    refine hg.table_of_kept hm (fun hderived => hc hderived.2) ?_
    rw [Merge.removes_iff]
    rintro (⟨-, heq⟩ | ⟨-, heq⟩)
    · exact hne heq
    · exact hm.src_ne_dst h heq
  table_of_dst {c} := by
    split_ifs with habsorbs
    · exact hg.table_of_removed hm h (.inr ⟨habsorbs, rfl⟩)
    · refine hg.table_of_kept hm (fun hderived => hm.src_ne_dst h hderived.1.symm) ?_
      rw [Merge.removes_iff]
      rintro (⟨heq, -⟩ | ⟨habsorbs', -⟩)
      · exact hm.src_ne_dst h heq.symm
      · exact habsorbs habsorbs'
  extra_src := hg.extra_src hm h
  extra_of_ne {n} hn := by
    rw [extra?, hg.extras, FiniteMap.get_insert, if_neg (Ne.symm hn), extra?]
  isLive_dst := by simp [hg.isLive, hm.live_dst]
  isLive_of_ne {n} hn := by simp [hg.isLive, hn]
  children_src := by
    rw [hg.children, Links.childrenAfter, if_neg fun habsorbs => hm.src_ne_dst h habsorbs.2,
      if_pos rfl, hm.children_eq, Links.enterAll_eq (h.children_nodup _)]
    rfl
  children_dst := by
    rw [hg.children, Links.childrenAfter, if_neg (hm.src_ne_dst h).symm]
    simp only [and_true]
  children_of_ne {n} hsrc hdst := by
    rw [hg.children, Links.childrenAfter, if_neg fun habsorbs => hdst habsorbs.2, if_neg hsrc]
  -- the destination is not one of its own children
  parents_dst := by
    rw [hg.parents, Links.parentsAfter, hm.children_eq, if_pos rfl,
      if_neg h.notMem_children_self, if_neg fun habsorbs => h.notMem_children_self habsorbs.2]
    rfl
  parents_of_child {c} hc := by
    have hne : c ≠ m.edge.dst := fun heq => h.notMem_children_self (heq ▸ hc)
    rw [hg.parents, Links.parentsAfter, hm.children_eq]
    simp only [hne, hc, if_true, if_false, and_true]
    rfl
  parents_of_ne {n} hne hc := by
    rw [hg.parents, Links.parentsAfter, hm.children_eq]
    simp only [hne, hc, if_false, and_false]

end Graph

namespace Reduction

variable {settings : Settings α} {c : Catalog α}

/-- Whatever was called before for a catalog without cycles, a merge that is accepted changes the
    graph as its footprint says. -/
theorem footprint_run (h : StartableAcyclic settings c) : FromStart settings c fun r =>
    ∀ calls e s' event', (r.run calls).merge e = .ok (s', event') → ∃ m, m.edge = e ∧
      (r.run calls).graph.merge e = .ok (s'.graph, m) ∧
      (r.run calls).graph.Footprint m s'.graph := by
  refine h.fromStart_sound fun r rank hr hsound => ?_
  intro calls e s' event' hmerge
  have hs := sound_run calls hsound
  obtain ⟨stage, m, hstage, rfl, -⟩ := merge_ok_iff.1 hmerge
  obtain ⟨rfl, hm, hg⟩ := hs.coherent.of_merge hstage
  exact ⟨m, rfl, (Stage.merge_ok_iff.1 hstage).1, hs.graph.footprint hm hg⟩

set_option maxRecDepth 4000 in
/-- The third node stays at first, and is absorbed once the first one is its only parent. -/
theorem weave_footprint_run : FromStart ⟨true, some 8⟩ weave fun r =>
    ∀ p ∈ [([], true), (weaveRelease, false)], ∃ s' event' m,
      (r.run p.1).merge ⟨.ofIndex 0, .ofIndex 2⟩ = .ok (s', event') ∧
      s'.graph.links.isLive (.ofIndex 2) = p.2 ∧ (r.run p.1).graph.Footprint m s'.graph := by
  obtain ⟨r, event, hstart, h⟩ := footprint_run weave_startable
  have hrun := of_any (P := fun q : _ × _ => ∀ p ∈ [([], true), (weaveRelease, false)],
    ((q.1.run p.1).merge ⟨.ofIndex 0, .ofIndex 2⟩).toOption.any fun q =>
      decide (q.1.graph.links.isLive (.ofIndex 2) = p.2)) (by decide +kernel) hstart
  refine ⟨r, event, hstart, ?_⟩
  intro p hp
  obtain ⟨⟨s', event'⟩, hmerge, hlive⟩ := exists_of_any
    (P := fun q : Reduction _ × Event _ => q.1.graph.links.isLive (.ofIndex 2) = p.2) (hrun p hp)
  obtain ⟨m, -, -, hfootprint⟩ := h p.1 _ s' event' hmerge
  exact ⟨s', event', m, hmerge, hlive, hfootprint⟩

end Reduction

end Reshard
