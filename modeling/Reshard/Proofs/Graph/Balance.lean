import Reshard.Proofs.Graph.Merged

/-! What a merge does to costs.

    With exact sums, the source of a merge pays afterwards what it paid before, except for the edge
    to the destination, and on top of it what that edge and the destination cost under the chosen
    strategy. All other nodes pay what they paid before. So the cost of an assignment stays if the
    destination is absorbed and had the chosen strategy (`costAt_of_absorbs`); if it is kept, the
    source has paid for the chosen strategy and the destination still pays for its own
    (`costAt_of_kept`). -/

namespace Reshard.Graph

variable {α : Type} [Cost α] {rank : NodeId → Nat} {g g' : Graph α} {m : Merge α}
  {f : NodeId → Nat} {targets : Finset NodeId} {u : NodeId} {i j : Nat}

/-! ### Entries -/

theorem weight_of_removed (h : g.Sound rank) (hm : g.Plan m) (hg : g.Performed m g') {e : Edge}
    (he : m.Removes e) : g'.weight e i j = 0 := by
  rw [weight, hg.table_of_removed hm h he]
  rfl

theorem weight_of_notMem_children (h : g.Sound rank) {c : NodeId}
    (hc : c ∉ g.links.children u) : g.weight ⟨u, c⟩ i j = 0 :=
  weight_of_notMem (fun hmem => hc (h.mem_tables.1 hmem)) i j

/-- The weights from other nodes stay as they are. -/
theorem weight_of_ne (hm : g.Plan m) (hg : g.Performed m g') (hsrc : u ≠ m.edge.src)
    (hdst : ¬ (m.absorbs ∧ u = m.edge.dst)) {c : NodeId} :
    g'.weight ⟨u, c⟩ i j = g.weight ⟨u, c⟩ i j := by
  have hkept : ¬ m.Removes ⟨u, c⟩ := fun he =>
    (Merge.removes_iff.1 he).elim (fun heq => hsrc heq.1) hdst
  rw [weight, hg.table_of_kept hm (fun heq => hsrc heq.1) hkept, weight]

theorem dst_mem_nodes (h : g.Sound rank) (hm : g.Plan m) : m.edge.dst ∈ g.nodes :=
  mem_nodes.2 (h.toShaped.index_lt_of_isLive hm.live_dst)

theorem extraAt_of_ne (hg : g.Performed m g') (hsrc : u ≠ m.edge.src) :
    g'.extraAt u i = g.extraAt u i := by
  rw [extraAt, hg.extras, FiniteMap.get_insert, if_neg hsrc.symm, extraAt]

variable [ExactCost α]

/-- The source takes over the weights of the chosen strategy. -/
theorem weight_of_src (h : g.Sound rank) (hm : g.Plan m) (hg : g.Performed m g')
    (hi : m.choice[i]? = some j) {c : NodeId} (hc : c ≠ m.edge.dst) (k : Nat) :
    g'.weight ⟨m.edge.src, c⟩ i k =
      g.weight ⟨m.edge.src, c⟩ i k + g.weight ⟨m.edge.dst, c⟩ j k := by
  have hkept : ¬ m.Removes ⟨m.edge.src, c⟩ := fun he =>
    (Merge.removes_iff.1 he).elim (fun heq => hc heq.2) fun heq => hm.src_ne_dst h heq.2
  by_cases hchild : c ∈ g.links.children m.edge.dst
  · obtain ⟨t, hd⟩ := Performed.exists_derived hm hchild
    obtain ⟨below, hbelow, hrows, hcols, hget⟩ := hm.derived_eq h.toShaped hd
    simp only [weight, hg.table_of_derived hm h hd, hbelow, Option.bind_some, hget i j k hi]
    cases hold : g.tables[(⟨m.edge.src, c⟩ : Edge)]? with
    | none => simp
    | some old =>
      -- inside the common width both entries are there, and outside of it neither
      have hsame : old.cols = below.cols := Option.some.inj
        ((h.table_shape hold).2.symm.trans (h.table_shape hbelow).2)
      by_cases hk : k < below.cols
      · have hi' : i < old.rows := by
          have := (h.table_shape hold).1.symm.trans (hm.width_src h.toShaped)
          rw [Option.some.inj this]
          exact (List.getElem?_eq_some_iff.1 hi).1
        have hj : j < below.rows :=
          hm.choice_lt h.toShaped (List.mem_of_getElem? hi) (h.table_shape hbelow).1
        obtain ⟨a, ha⟩ := CostTable.exists_get? hi' (hsame ▸ hk)
        obtain ⟨b, hb⟩ := CostTable.exists_get? hj hk
        simp [ha, hb]
      · rw [Option.elim_some, CostTable.get?_eq_none_of_not fun heq => hk (hsame ▸ heq.2),
          CostTable.get?_eq_none_of_not fun heq => hk heq.2]
        simp [CostTable.get?_eq_none_of_not fun heq => hk (hsame ▸ heq.2)]
  · rw [weight_of_notMem_children h hchild, add_zero, weight, weight,
      hg.table_of_kept hm (fun heq => hchild heq.2) hkept]

/-- The source takes over the cost of its pairing and the extra cost of the chosen strategy. -/
theorem extraAt_of_src (h : g.Shaped) (hm : g.Plan m) (hg : g.Performed m g')
    (hi : m.choice[i]? = some j) : g'.extraAt m.edge.src i =
      g.extraAt m.edge.src i + (g.weight m.edge i j + g.extraAt m.edge.dst j) := by
  obtain ⟨t, ht, -, hcharge⟩ := hm.charge_eq h
  have hi' : i < t.rows := by
    rw [Option.some.inj ((h.table_shape ht).1.symm.trans (hm.width_src h))]
    exact (List.getElem?_eq_some_iff.1 hi).1
  have hj : j < t.cols := hm.choice_lt h (List.mem_of_getElem? hi) (h.table_shape ht).2
  obtain ⟨paid, hpaid⟩ := CostTable.exists_get? hi' hj
  have hbase : ((g.extras[m.edge.src]?).getD (List.replicate t.rows 0))[i]? =
      some (g.extraAt m.edge.src i) := by
    cases hextra : g.extras[m.edge.src]? with
    | none => simp [extraAt, hextra, hi']
    | some extra =>
      have hlen : t.rows = extra.length :=
        Option.some.inj ((h.table_shape ht).1.symm.trans (h.length_extra hextra))
      exact getElem?_eq_extraAt hextra (hlen ▸ hi')
  have hdst : ∀ extra, g.extras[m.edge.dst]? = some extra →
      extra[j]? = some (g.extraAt m.edge.dst j) := by
    intro extra hextra
    have hlen : t.cols = extra.length :=
      Option.some.inj ((h.table_shape ht).2.symm.trans (h.length_extra hextra))
    exact getElem?_eq_extraAt hextra (hlen ▸ hj)
  have hafter : g'.extraAt m.edge.src i = (m.charge[i]?).getD 0 := by
    rw [extraAt, hg.extras, FiniteMap.get_insert, if_pos rfl]
    rfl
  rw [hafter, hcharge i j hi, charge?, hbase, hpaid, weight_eq ht hpaid]
  cases hextra : g.extras[m.edge.dst]? with
  | none => simp [extraAt, hextra]
  | some extra => simp [hdst extra hextra, add_assoc]

/-! ### Costs of a node -/

theorem outCost_of_ne (hm : g.Plan m) (hg : g.Performed m g') (hsrc : u ≠ m.edge.src)
    (hdst : ¬ (m.absorbs ∧ u = m.edge.dst)) :
    g'.outCost f targets u i = g.outCost f targets u i := by
  rw [outCost, outCost, extraAt_of_ne hg hsrc]
  simp only [weight_of_ne hm hg hsrc hdst]

/-- The edge to a target and the rest of what its source pays. -/
theorem outCost_eq_erase {e : Edge} (he : e.dst ∈ targets) : g.outCost f targets e.src i =
    g.outCost f (targets.erase e.dst) e.src i + g.weight e i (f e.dst) := by
  rw [outCost, outCost, add_assoc,
    Finset.sum_erase_add targets (fun v => g.weight ⟨e.src, v⟩ i (f v)) he]

/-- The source pays for the chosen strategy in place of the one that the destination has. -/
theorem outCost_of_src (h : g.Sound rank) (hm : g.Plan m) (hg : g.Performed m g')
    (hi : m.choice[i]? = some j) : g'.outCost f targets m.edge.src i =
      g.outCost f (targets.erase m.edge.dst) m.edge.src i +
        (g.weight m.edge i j + g.outCost f targets m.edge.dst j) := by
  have hremoved : g'.weight ⟨m.edge.src, m.edge.dst⟩ i (f m.edge.dst) = 0 :=
    weight_of_removed h hm hg (.inl rfl)
  have hself : g.weight ⟨m.edge.dst, m.edge.dst⟩ j (f m.edge.dst) = 0 :=
    weight_of_notMem_children h h.notMem_children_self
  have hother : ∀ v ∈ targets.erase m.edge.dst, g'.weight ⟨m.edge.src, v⟩ i (f v) =
      g.weight ⟨m.edge.src, v⟩ i (f v) + g.weight ⟨m.edge.dst, v⟩ j (f v) := fun v hv =>
    weight_of_src h hm hg hi (Finset.ne_of_mem_erase hv) (f v)
  have hsplit : ∑ v ∈ targets, g'.weight ⟨m.edge.src, v⟩ i (f v) =
      ∑ v ∈ targets.erase m.edge.dst, g.weight ⟨m.edge.src, v⟩ i (f v) +
        ∑ v ∈ targets, g.weight ⟨m.edge.dst, v⟩ j (f v) := by
    rw [← Finset.sum_erase targets hremoved, ← Finset.sum_erase targets hself,
      Finset.sum_congr rfl hother, Finset.sum_add_distrib]
  rw [outCost, outCost, outCost, extraAt_of_src h.toShaped hm hg hi, hsplit]
  ac_rfl

/-! ### Costs of an assignment -/

/-- Only the strategies of live nodes matter. -/
theorem costAt_congr (h : g.Sound rank) {f' : NodeId → Nat}
    (hf : ∀ n, g.links.isLive n → f n = f' n) : g.costAt f = g.costAt f' := by
  refine Finset.sum_congr rfl ?_
  intro u hu
  rw [outCost, outCost, hf u (mem_live.1 hu)]
  refine congrArg (g.extraAt u (f' u) + ·) (Finset.sum_congr rfl ?_)
  intro v _
  by_cases hv : v ∈ g.links.children u
  · rw [hf v (h.live_dst hv)]
  · rw [weight_of_notMem_children h hv, weight_of_notMem_children h hv]

/-- Nodes other than the source and an absorbed destination pay what they paid before. -/
theorem sum_outCost_of_ne (hm : g.Plan m) (hg : g.Performed m g') {others : Finset NodeId}
    (hsrc : m.edge.src ∉ others) (hdst : m.absorbs → m.edge.dst ∉ others) :
    ∑ u ∈ others, g'.outCost f targets u (f u) = ∑ u ∈ others, g.outCost f targets u (f u) :=
  Finset.sum_congr rfl fun _ hu => outCost_of_ne hm hg (fun heq => hsrc (heq ▸ hu))
    fun heq => hdst heq.1 (heq.2 ▸ hu)

/-- Absorbing a node that has the chosen strategy keeps the cost. -/
theorem costAt_of_absorbs (h : g.Sound rank) (hm : g.Plan m) (hg : g.Performed m g')
    (habsorbs : m.absorbs) (hf : m.choice[f m.edge.src]? = some (f m.edge.dst)) :
    g'.costAt f = g.costAt f := by
  have hsrc : m.edge.src ∈ g.live := mem_live.2 hm.live_src
  have hdst : m.edge.dst ∈ g.live.erase m.edge.src :=
    Finset.mem_erase.2 ⟨(hm.src_ne_dst h).symm, mem_live.2 hm.live_dst⟩
  have hlive : g'.live = g.live.erase m.edge.dst := by
    ext n
    rw [mem_live, hg.isLive_iff, Finset.mem_erase, mem_live, and_comm]
    simp [habsorbs]
  have hsrc' : m.edge.src ∈ g'.live := hlive ▸ Finset.mem_erase.2 ⟨hm.src_ne_dst h, hsrc⟩
  have hrest : g'.live.erase m.edge.src = (g.live.erase m.edge.src).erase m.edge.dst := by
    rw [hlive, Finset.erase_right_comm]
  calc g'.costAt f
      = ∑ u ∈ g'.live.erase m.edge.src, g'.outCost f g'.nodes u (f u) +
          g'.outCost f g'.nodes m.edge.src (f m.edge.src) := (Finset.sum_erase_add _ _ hsrc').symm
    _ = ∑ u ∈ (g.live.erase m.edge.src).erase m.edge.dst, g.outCost f g.nodes u (f u) +
          (g.outCost f (g.nodes.erase m.edge.dst) m.edge.src (f m.edge.src) +
            (g.weight m.edge (f m.edge.src) (f m.edge.dst) +
              g.outCost f g.nodes m.edge.dst (f m.edge.dst))) := by
        rw [hrest, hg.nodes_eq, outCost_of_src h hm hg hf,
          sum_outCost_of_ne hm hg (by simp) (by simp)]
    _ = ∑ u ∈ (g.live.erase m.edge.src).erase m.edge.dst, g.outCost f g.nodes u (f u) +
          g.outCost f g.nodes m.edge.dst (f m.edge.dst) +
          g.outCost f g.nodes m.edge.src (f m.edge.src) := by
        rw [outCost_eq_erase (dst_mem_nodes h hm)]
        ac_rfl
    _ = g.costAt f := by rw [Finset.sum_erase_add _ _ hdst, Finset.sum_erase_add _ _ hsrc]; rfl

/-- Merging with a node that stays charges the chosen strategy in place of the node's own. -/
theorem costAt_of_kept (h : g.Sound rank) (hm : g.Plan m) (hg : g.Performed m g')
    (hkept : m.absorbs = false) (hi : m.choice[f m.edge.src]? = some j) :
    g'.costAt f + g.weight m.edge (f m.edge.src) (f m.edge.dst) =
      g.costAt f + (g.weight m.edge (f m.edge.src) j + g.outCost f g.nodes m.edge.dst j) := by
  have hsrc : m.edge.src ∈ g.live := mem_live.2 hm.live_src
  have hlive : g'.live = g.live := by
    ext n
    rw [mem_live, hg.isLive_iff, mem_live]
    simp [hkept]
  calc g'.costAt f + g.weight m.edge (f m.edge.src) (f m.edge.dst)
      = ∑ u ∈ g.live.erase m.edge.src, g'.outCost f g.nodes u (f u) +
          g'.outCost f g.nodes m.edge.src (f m.edge.src) +
          g.weight m.edge (f m.edge.src) (f m.edge.dst) := by
        rw [Finset.sum_erase_add _ _ hsrc, ← hlive, ← hg.nodes_eq]
        rfl
    _ = ∑ u ∈ g.live.erase m.edge.src, g.outCost f g.nodes u (f u) +
          (g.outCost f (g.nodes.erase m.edge.dst) m.edge.src (f m.edge.src) +
            (g.weight m.edge (f m.edge.src) j + g.outCost f g.nodes m.edge.dst j)) +
          g.weight m.edge (f m.edge.src) (f m.edge.dst) := by
        rw [outCost_of_src h hm hg hi, sum_outCost_of_ne hm hg (by simp) (by simp [hkept])]
    _ = ∑ u ∈ g.live.erase m.edge.src, g.outCost f g.nodes u (f u) +
          g.outCost f g.nodes m.edge.src (f m.edge.src) +
          (g.weight m.edge (f m.edge.src) j + g.outCost f g.nodes m.edge.dst j) := by
        rw [outCost_eq_erase (dst_mem_nodes h hm)]
        ac_rfl
    _ = g.costAt f + (g.weight m.edge (f m.edge.src) j + g.outCost f g.nodes m.edge.dst j) := by
        rw [Finset.sum_erase_add _ _ hsrc]
        rfl

end Reshard.Graph
