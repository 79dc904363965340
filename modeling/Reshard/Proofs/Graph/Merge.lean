import Reshard.Proofs.Graph.Sound

/-! What a merge reads and writes.

    `Plan` says how a merge is worked out from a graph, and `Performed` how a graph changes when it
    is written. In a sound graph every linked pair of nodes has a plan, the plan can be written
    (`Sound.exists_merge`), and the graph stays sound (`Sound.merge`). -/

namespace Reshard.Graph

variable {α : Type}

/-! ### Preparing -/

theorem mergeable_ok_iff {g : Graph α} {e : Edge} {t : CostTable α} : g.mergeable e = .ok t ↔
    (g.links.isLive e.src ∧ g.links.isLive e.dst) ∧ e.src ∈ g.links.parents e.dst ∧
      g.tables[e]? = some t := by
  simp only [mergeable, guarded_ok_iff, Fault.require_ok_iff, Bool.and_eq_true, Links.contains,
    decide_eq_true_eq]
  refine ⟨fun h => h.2.2, fun h => ⟨?_, ?_, h⟩⟩
  · exact Links.index_lt_of_isLive h.1.1
  · exact Links.index_lt_of_isLive h.1.2

section Preparing

variable [Cost α] {g : Graph α} {e : Edge} {m : Merge α}

/-- The merge `m` is what the graph says about its edge. -/
structure Plan (g : Graph α) (m : Merge α) : Prop where
  live_src : g.links.isLive m.edge.src
  live_dst : g.links.isLive m.edge.dst
  linked : m.edge.src ∈ g.links.parents m.edge.dst
  exists_table : ∃ t, g.tables[m.edge]? = some t ∧ t.cheapestAll? = some m.choice ∧
    g.charges? m.edge t m.choice = some m.charge
  derived : List.Forall₂ (fun c d => g.derive m.edge m.choice c = .ok d)
    (g.links.children m.edge.dst) m.derived
  absorbs : m.absorbs = (g.links.parents m.edge.dst).all (· == m.edge.src)

/-- A merge is worked out exactly if there is a plan for the edge. -/
theorem prepare_ok_iff : g.prepare e = .ok m ↔ m.edge = e ∧ g.Plan m := by
  simp only [prepare, bind_ok_iff, mergeable_ok_iff, Fault.require_ok_iff, mapM_ok_iff, pure_ok_iff]
  constructor
  · rintro ⟨t, ⟨⟨hs, hd⟩, hp, ht⟩, choice, hchoice, charge, hcharge, derived, hderived, rfl⟩
    exact ⟨rfl, hs, hd, hp, ⟨t, ht, hchoice, hcharge⟩, hderived, rfl⟩
  · rintro ⟨rfl, hs, hd, hp, ⟨t, ht, hchoice, hcharge⟩, hderived, habsorbs⟩
    refine ⟨t, ⟨⟨hs, hd⟩, hp, ht⟩, _, hchoice, _, hcharge, _, hderived, ?_⟩
    rw [← habsorbs]

theorem merge_ok_iff {g' : Graph α} : g.merge e = .ok (g', m) ↔
    m.edge = e ∧ g.Plan m ∧ g.perform? m = some g' := by
  simp only [merge, bind_ok_iff, prepare_ok_iff, Fault.require_ok_iff, pure_ok_iff, Prod.mk.injEq]
  constructor
  · rintro ⟨_, ⟨he, hplan⟩, _, hg, rfl, rfl⟩; exact ⟨he, hplan, hg⟩
  · rintro ⟨he, hplan, hg⟩; exact ⟨m, ⟨he, hplan⟩, g', hg, rfl, rfl⟩

/-! ### Plans of a shaped graph -/

theorem derive_ok {choice : List Nat} {child : NodeId} {d : NodeId × CostTable α}
    (hd : g.derive e choice child = .ok d) :
    d.1 = child ∧ ∃ below, g.tables[(⟨e.dst, child⟩ : Edge)]? = some below := by
  simp only [derive, table, bind_ok_iff, Fault.require_ok_iff] at hd
  obtain ⟨below, hbelow, moved, -, hd⟩ := hd
  split at hd
  · cases pure_ok_iff.1 hd
    exact ⟨rfl, below, hbelow⟩
  · obtain ⟨_, -, hd⟩ := bind_ok_iff.1 hd
    cases pure_ok_iff.1 hd
    exact ⟨rfl, below, hbelow⟩

/-- The lines that a child's table is moved to, each added to the line that is there already. -/
theorem exists_derive (h : g.Shaped) {choice : List Nat} {child : NodeId} {below : CostTable α}
    (hsrc : g.width? e.src = some choice.length)
    (hchoice : ∀ j ∈ choice, ∀ w, g.width? e.dst = some w → j < w)
    (hbelow : g.tables[(⟨e.dst, child⟩ : Edge)]? = some below) :
    ∃ t, g.derive e choice child = .ok (child, t) ∧ t.rows = choice.length ∧
      t.cols = below.cols ∧ ∀ i j k, choice[i]? = some j → t.get? i k =
        (g.tables[(⟨e.src, child⟩ : Edge)]?).elim (below.get? j k) fun old =>
          (old.get? i k).bind fun a => (below.get? j k).map (a + ·) := by
  have hshape := h.table_shape hbelow
  have hlines : ∀ j ∈ choice, j < below.rows := fun j hj => hchoice j hj _ hshape.1
  obtain ⟨moved, hmoved, hrows, hcols, hget⟩ := CostTable.exists_select? hlines
  cases hold : g.tables[(⟨e.src, child⟩ : Edge)]? with
  | none =>
    refine ⟨moved, ?_, hrows, hcols, fun i j k hi => by rw [hget, hi]; rfl⟩
    simp only [derive, table, bind_ok_iff, Fault.require_ok_iff]
    exact ⟨below, hbelow, moved, hmoved, by rw [hold]; rfl⟩
  | some old =>
    have hshape' := h.table_shape hold
    have hrows' : old.rows = moved.rows := by
      rw [hrows]; exact Option.some.inj (hshape'.1.symm.trans hsrc)
    have hcols' : old.cols = moved.cols := by
      rw [hcols]; exact Option.some.inj (hshape'.2.symm.trans hshape.2)
    obtain ⟨sum, hsum, hrows'', hcols'', hget'⟩ := CostTable.exists_add? hrows' hcols'
    refine ⟨sum, ?_, by rw [hrows'', hrows', hrows], by rw [hcols'', hcols', hcols], ?_⟩
    · simp only [derive, table, bind_ok_iff, Fault.require_ok_iff]
      refine ⟨below, hbelow, moved, hmoved, ?_⟩
      rw [hold]
      exact bind_ok_iff.2 ⟨sum, Fault.require_ok_iff.2 hsum, rfl⟩
    · intro i j k hi
      rw [hget', hget, hi]
      rfl

/-- There is a choice for each strategy of the source, and it is a strategy of the destination. -/
theorem Shaped.choice_fits (h : g.Shaped) {t : CostTable α} {choice : List Nat}
    (ht : g.tables[e]? = some t) (hchoice : t.cheapestAll? = some choice) :
    g.width? e.src = some choice.length ∧
      ∀ j ∈ choice, ∀ w, g.width? e.dst = some w → j < w := by
  have hshape := h.table_shape ht
  constructor
  · rw [hshape.1, (CostTable.cheapestAll?_eq_some hchoice).1]
  · intro j hj w hw
    cases hshape.2.symm.trans hw
    exact CostTable.lt_of_mem_cheapestAll? hchoice hj

/-- A line cannot be moved only if its table is missing. -/
theorem derive_error (h : g.Shaped) {choice : List Nat} {child : NodeId} {fault : Fault α}
    (hsrc : g.width? e.src = some choice.length)
    (hchoice : ∀ j ∈ choice, ∀ w, g.width? e.dst = some w → j < w)
    (hd : g.derive e choice child = .error fault) : fault = .noSuchEdge ⟨e.dst, child⟩ := by
  cases hbelow : g.tables[(⟨e.dst, child⟩ : Edge)]? with
  | none =>
    have hmissing : g.derive e choice child = .error (.noSuchEdge ⟨e.dst, child⟩) := by
      rw [derive, table, hbelow]
      rfl
    cases hd.symm.trans hmissing
    rfl
  | some below =>
    obtain ⟨t, ht, -⟩ := exists_derive h hsrc hchoice hbelow
    cases hd.symm.trans ht

namespace Plan

theorem table_of_shape (hm : g.Plan m) (h : g.Shaped) : ∃ t, g.tables[m.edge]? = some t ∧
    g.width? m.edge.src = some t.rows ∧ g.width? m.edge.dst = some t.cols ∧
    m.choice.length = t.rows ∧ ∀ i, i < t.rows → m.choice[i]? = t.cheapest? i := by
  obtain ⟨t, ht, hchoice, -⟩ := hm.exists_table
  exact ⟨t, ht, (h.table_shape ht).1, (h.table_shape ht).2, CostTable.cheapestAll?_eq_some hchoice⟩

theorem width_src (hm : g.Plan m) (h : g.Shaped) :
    g.width? m.edge.src = some m.choice.length := by
  obtain ⟨t, ht, hchoice, -⟩ := hm.exists_table
  exact (h.choice_fits ht hchoice).1

/-- The chosen strategies are strategies of the destination. -/
theorem choice_lt (hm : g.Plan m) (h : g.Shaped) {j w : Nat} (hj : j ∈ m.choice)
    (hw : g.width? m.edge.dst = some w) : j < w := by
  obtain ⟨t, ht, hchoice, -⟩ := hm.exists_table
  exact (h.choice_fits ht hchoice).2 j hj w hw

/-- The charge has an entry for each strategy of the source. -/
theorem charge_eq (hm : g.Plan m) (h : g.Shaped) : ∃ t, g.tables[m.edge]? = some t ∧
    m.charge.length = m.choice.length ∧ ∀ i j, m.choice[i]? = some j → m.charge[i]? =
      charge? t ((g.extras[m.edge.src]?).getD (List.replicate t.rows 0)) g.extras[m.edge.dst]? i
        j := by
  obtain ⟨t, ht, hchoice, hcharge⟩ := hm.exists_table
  have hlen := (CostTable.cheapestAll?_eq_some hchoice).1
  have hbase : ((g.extras[m.edge.src]?).getD (List.replicate t.rows 0)).length =
      m.choice.length := by
    cases hextra : g.extras[m.edge.src]? with
    | none => simp [hlen]
    | some extra =>
      have := (h.table_shape ht).1.symm.trans (h.length_extra hextra)
      simpa [hlen, eq_comm] using this
  simp only [charges?, Option.bind_eq_bind, Option.bind_eq_some_iff, Option.pure_def,
    Option.some.injEq, ← hbase, List.drop_length, List.append_nil, exists_eq_right] at hcharge
  obtain ⟨hlen', heq⟩ := mapM_zipIdx_eq_some (f := fun j i => charge? t _ _ i j) hcharge
  exact ⟨t, ht, hlen', heq⟩

theorem children_eq (hm : g.Plan m) : m.children = g.links.children m.edge.dst := by
  have hsame : List.Forall₂ (fun c d => d = c) (g.links.children m.edge.dst) m.children :=
    List.forall₂_map_right_iff.2 (hm.derived.imp fun c d hd => (derive_ok hd).1)
  exact (List.forall₂_eq_eq_eq ▸ hsame.imp fun _ _ h => h.symm : _ = _).symm

/-- The table that the source gets for a child of the destination. -/
theorem derived_eq (hm : g.Plan m) (h : g.Shaped) {d : NodeId × CostTable α}
    (hd : d ∈ m.derived) : ∃ below, g.tables[(⟨m.edge.dst, d.1⟩ : Edge)]? = some below ∧
      d.2.rows = m.choice.length ∧ d.2.cols = below.cols ∧
      ∀ i j k, m.choice[i]? = some j → d.2.get? i k =
        (g.tables[(⟨m.edge.src, d.1⟩ : Edge)]?).elim (below.get? j k) fun old =>
          (old.get? i k).bind fun a => (below.get? j k).map (a + ·) := by
  obtain ⟨i, hi, hd⟩ := List.mem_iff_getElem.1 hd
  have hderive := hm.derived.get (i := i) (hm.derived.length_eq ▸ hi) hi
  rw [List.get_eq_getElem, List.get_eq_getElem, hd] at hderive
  obtain ⟨hchild, below, hbelow⟩ := derive_ok hderive
  obtain ⟨t, ht, hshape⟩ := exists_derive h (hm.width_src h)
    (fun j hj w hw => hm.choice_lt h hj hw) hbelow
  obtain rfl : d.2 = t := congrArg Prod.snd (Except.ok.inj (hderive.symm.trans ht))
  rw [← hchild] at hbelow hshape
  exact ⟨below, hbelow, hshape⟩

end Plan

/-- The costs that the source takes over are there in a shaped graph. -/
theorem exists_charges? (h : g.Shaped) {t : CostTable α} {choice : List Nat}
    (ht : g.tables[e]? = some t) (hchoice : t.cheapestAll? = some choice) :
    ∃ charge, g.charges? e t choice = some charge := by
  obtain ⟨hlen, hcheapest⟩ := CostTable.cheapestAll?_eq_some hchoice
  have hshape := h.table_shape ht
  have hall : ∀ p ∈ choice.zipIdx, ∃ c, charge? t
      ((g.extras[e.src]?).getD (List.replicate t.rows 0)) g.extras[e.dst]? p.2 p.1 = some c := by
    rintro ⟨j, i⟩ hp
    have hj : choice[i]? = some j := List.mem_zipIdx_iff_getElem?.1 hp
    have hi : i < t.rows := hlen ▸ (List.getElem?_eq_some_iff.1 hj).1
    rw [hcheapest i hi] at hj
    obtain ⟨paid, hpaid⟩ := CostTable.exists_get? hi (CostTable.cheapest?_lt hj).2
    obtain ⟨base, hbase⟩ : ∃ base,
        ((g.extras[e.src]?).getD (List.replicate t.rows 0))[i]? = some base := by
      refine ⟨_, List.getElem?_eq_getElem ?_⟩
      cases hextra : g.extras[e.src]? with
      | none => simpa using hi
      | some extra =>
        have : t.rows = extra.length :=
          Option.some.inj (hshape.1.symm.trans (h.length_extra hextra))
        exact this ▸ hi
    -- what is left to look up is the extra cost of the chosen strategy
    simp only [charge?, hbase, hpaid, Option.bind_eq_bind, Option.bind_some]
    cases hextra : g.extras[e.dst]? with
    | none => exact ⟨_, rfl⟩
    | some extra =>
      have : t.cols = extra.length :=
        Option.some.inj (hshape.2.symm.trans (h.length_extra hextra))
      have hlt : j < extra.length := this ▸ (CostTable.cheapest?_lt hj).2
      simp only [List.getElem?_eq_getElem hlt]
      exact ⟨_, rfl⟩
  obtain ⟨charged, hcharged⟩ := exists_mapM_some hall
  exact ⟨_, by rw [charges?, hcharged]; rfl⟩

/-- There is a plan for each pair of linked nodes. -/
theorem Sound.exists_plan {rank : NodeId → Nat} (h : g.Sound rank)
    (hlinked : e.dst ∈ g.links.children e.src) : ∃ m, m.edge = e ∧ g.Plan m := by
  obtain ⟨t, ht⟩ := h.exists_table hlinked
  obtain ⟨choice, hchoice⟩ := CostTable.exists_cheapestAll? (h.width_pos (h.table_shape ht).2)
  obtain ⟨charge, hcharge⟩ := exists_charges? h.toShaped ht hchoice
  have hfits := h.toShaped.choice_fits ht hchoice
  have hderive : ∀ c ∈ g.links.children e.dst, ∃ d, g.derive e choice c = .ok d := by
    intro c hc
    obtain ⟨below, hbelow⟩ := h.exists_table hc
    obtain ⟨d, hd, -⟩ := exists_derive h.toShaped hfits.1 hfits.2 hbelow
    exact ⟨_, hd⟩
  obtain ⟨derived, hderived⟩ := exists_mapM_ok hderive
  let m : Merge α := ⟨e, choice, charge, derived, (g.links.parents e.dst).all (· == e.src)⟩
  have hplan : g.Plan m :=
    { live_src := h.live_src hlinked
      live_dst := h.live_dst hlinked
      linked := h.mem_parents.2 hlinked
      exists_table := ⟨t, ht, hchoice, hcharge⟩
      derived := mapM_ok_iff.1 hderived
      absorbs := rfl }
  exact ⟨m, rfl, hplan⟩

end Preparing

/-! ### Performing -/

/-- Writing the merge `m` turns the graph `g` into `g'`. -/
structure Performed (g : Graph α) (m : Merge α) (g' : Graph α) : Prop where
  widths : g'.widths = g.widths
  size_links : g'.links.size = g.links.size
  isLive (n : NodeId) : g'.links.isLive n = (g.links.isLive n && !(m.absorbs && n = m.edge.dst))
  parents : g'.links.parents = Links.parentsAfter m g.links
  children : g'.links.children = Links.childrenAfter m g.links
  tables : g'.tables = mergedTables m g.tables
  extras : g'.extras = g.extras.insert m.edge.src m.charge

section Performing

variable {g g' : Graph α} {m : Merge α}

theorem exists_perform? (hsrc : m.edge.src.index < g.links.size)
    (hdst : m.edge.dst.index < g.links.size)
    (hchildren : ∀ c ∈ m.children, c.index < g.links.size) :
    ∃ g', g.perform? m = some g' ∧ g.Performed m g' := by
  obtain ⟨links, hlinks, hsize, hlive, hparents, hchildren⟩ :=
    Links.exists_mergedLinks? hsrc hdst hchildren
  let g' : Graph α :=
    { g with links, tables := mergedTables m g.tables,
             extras := g.extras.insert m.edge.src m.charge }
  have hperformed : g.Performed m g' :=
    { widths := rfl
      size_links := hsize
      isLive := hlive
      parents := hparents
      children := hchildren
      tables := rfl
      extras := rfl }
  refine ⟨g', ?_, hperformed⟩
  rw [perform?, hlinks]
  rfl

/-- The tables of dropped edges are gone; the others are those with the derived ones written. -/
theorem get_mergedTables {tables : Std.ExtTreeMap Edge (CostTable α)} {e : Edge} :
    (mergedTables m tables)[e]? =
      if e = m.edge ∨ m.absorbs ∧ e.src = m.edge.dst ∧ e.dst ∈ m.children then none
      else (m.derived.foldl (fun tables d => tables.insert ⟨m.edge.src, d.1⟩ d.2) tables)[e]? := by
  have hmem : e ∈ m.children.map (Edge.mk m.edge.dst) ↔
      e.src = m.edge.dst ∧ e.dst ∈ m.children := by
    rw [List.mem_map]
    constructor
    · rintro ⟨c, hc, rfl⟩; exact ⟨rfl, hc⟩
    · rintro ⟨hsrc, hc⟩; exact ⟨e.dst, hc, by rw [← hsrc]⟩
  have herase {tables : Std.ExtTreeMap Edge (CostTable α)} :
      (tables.erase m.edge)[e]? = if e = m.edge then none else tables[e]? := by
    rw [FiniteMap.get_erase]
    simp only [eq_comm]
  rw [mergedTables]
  cases habsorbs : m.absorbs with
  | true =>
    simp only [if_true, true_and, FiniteMap.get_eraseAll, hmem]
    by_cases hdrop : e.src = m.edge.dst ∧ e.dst ∈ m.children
    · rw [if_pos hdrop, if_pos (.inr hdrop)]
    · simp only [hdrop, if_false, or_false]
      exact herase
  | false =>
    simp only [Bool.false_eq_true, if_false, false_and, or_false]
    exact herase

end Performing

end Reshard.Graph
