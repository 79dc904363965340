import Mathlib.Data.Finset.Card
import Mathlib.Data.Finset.Dedup
import Mathlib.Data.List.Nodup
import Mathlib.Logic.Relation
import Reshard.Catalog.Validity

/-! What the check of a catalog establishes.

    A catalog passes the check exactly when it is consistent (`Consistent`: neighbours are declared,
    listed once and list each other, and cost lists have the right lengths) and its costs are valid
    (`ValidCosts`). A function applied to the costs keeps the former.

    Declared predecessors form a directed graph, `Precedes`. If it has no cycle, its nodes can be
    ranked so that each edge leads to a higher rank (`exists_rank`). -/

namespace Reshard.Catalog

variable {α : Type}

/-- Each position has an id of its own, and the greatest id names no declared node. -/
def Fits (c : Catalog α) : Prop := c.size ≤ NodeId.maxIndex

/-- Whether `p` is a declared predecessor of `n`. -/
def Precedes (c : Catalog α) (p n : NodeId) : Prop := ∃ op, c.get? n = some op ∧ p ∈ op.predecessors

instance (c : Catalog α) : Decidable c.Fits := inferInstanceAs (Decidable (c.size ≤ _))

/-- No node precedes itself, directly or through others. -/
def Acyclic (c : Catalog α) : Prop := ∀ n, ¬ Relation.TransGen c.Precedes n n

/-- Each node is declared behind its predecessors. -/
def Numbered (c : Catalog α) : Prop := ∀ p n, c.Precedes p n → p.index < n.index

/-- Neighbours are declared, listed once and list each other, and there is a cost for each pair of
    strategies of neighbours. -/
structure Consistent (c : Catalog α) : Prop where
  strategies_ne {n : NodeId} {op : Operator α} : c.get? n = some op → op.strategies ≠ []
  predecessors_nodup {n : NodeId} {op : Operator α} : c.get? n = some op → op.predecessors.Nodup
  successors_nodup {n : NodeId} {op : Operator α} : c.get? n = some op → op.successors.Nodup
  of_predecessor {n p : NodeId} {op : Operator α} : c.get? n = some op → p ∈ op.predecessors →
    ∃ other, c.get? p = some other ∧ n ∈ other.successors
  of_successor {n s : NodeId} {op : Operator α} : c.get? n = some op → s ∈ op.successors →
    ∃ other, c.get? s = some other ∧ n ∈ other.predecessors
  length_costs {n : NodeId} {op : Operator α} {s : Strategy α} : c.get? n = some op →
    s ∈ op.strategies → s.costs.length = op.predecessors.length
  length_cost_list {n p : NodeId} {op : Operator α} {s : Strategy α} {costs : List α} :
    c.get? n = some op → s ∈ op.strategies → (p, costs) ∈ op.predecessors.zip s.costs →
    c.width? p = some costs.length

/-- All declared costs against predecessors are valid. -/
def ValidCosts [Cost α] (c : Catalog α) : Prop :=
  ∀ n op s p costs x, c.get? n = some op → s ∈ op.strategies →
    (p, costs) ∈ op.predecessors.zip s.costs → x ∈ costs → Cost.Valid x

/-! ### Declarations -/

theorem index_lt_of_get? {c : Catalog α} {n : NodeId} {op : Operator α} (h : c.get? n = some op) :
    n.index < c.size :=
  (List.getElem?_eq_some_iff.1 h).1

theorem exists_get? {c : Catalog α} {n : NodeId} (h : n.index < c.size) :
    ∃ op, c.get? n = some op :=
  ⟨c.operators[n.index], List.getElem?_eq_getElem h⟩

theorem exists_width? {c : Catalog α} {n : NodeId} (h : n.index < c.size) :
    ∃ w, c.width? n = some w := by
  obtain ⟨op, hop⟩ := exists_get? h
  exact ⟨op.width, by rw [width?, hop]; rfl⟩

theorem index_lt_of_width? {c : Catalog α} {n : NodeId} {w : Nat} (h : c.width? n = some w) :
    n.index < c.size := by
  obtain ⟨op, hop, -⟩ := Option.map_eq_some_iff.1 h
  exact index_lt_of_get? hop

theorem Consistent.width_pos {c : Catalog α} (hc : c.Consistent) {n : NodeId} {w : Nat}
    (h : c.width? n = some w) : 0 < w := by
  obtain ⟨op, hop, rfl⟩ := Option.map_eq_some_iff.1 h
  exact List.length_pos_iff.2 (hc.strategies_ne hop)

theorem mem_ids_of_width? {c : Catalog α} {n : NodeId} {w : Nat} (h : c.width? n = some w) :
    n ∈ c.ids :=
  List.mem_map.2 ⟨n.index, List.mem_range.2 (index_lt_of_width? h), NodeId.ofIndex_index n⟩

/-- The ids of a catalog that fits name its positions. -/
theorem Fits.index_ofIndex {c : Catalog α} (h : c.Fits) {i : Nat} (hi : i < c.size) :
    (NodeId.ofIndex i).index = i :=
  NodeId.ofIndex_index_of_le (hi.le.trans h)

theorem mem_ids {c : Catalog α} (h : c.Fits) {n : NodeId} : n ∈ c.ids ↔ n.index < c.size := by
  rw [ids, List.mem_map]
  constructor
  · rintro ⟨i, hi, rfl⟩
    have hi := List.mem_range.1 hi
    rwa [h.index_ofIndex hi]
  · exact fun hn => ⟨n.index, List.mem_range.2 hn, NodeId.ofIndex_index n⟩

theorem nodup_ids {c : Catalog α} (h : c.Fits) : c.ids.Nodup := by
  refine List.Nodup.map_on ?_ List.nodup_range
  intro i hi j hj heq
  rw [← h.index_ofIndex (List.mem_range.1 hi), heq, h.index_ofIndex (List.mem_range.1 hj)]

theorem mem_declarations {c : Catalog α} (h : c.Fits) {n : NodeId} {op : Operator α} :
    (n, op) ∈ c.declarations ↔ c.get? n = some op := by
  have hlen : c.ids.length = c.operators.length := by simp [ids, size]
  rw [declarations, List.mem_iff_getElem?]
  simp only [List.getElem?_zip_eq_some]
  constructor
  · rintro ⟨i, hid, hop⟩
    have hi : i < c.size := (List.getElem?_eq_some_iff.1 hop).1
    simp only [ids, List.getElem?_map, List.getElem?_range hi, Option.map_some,
      Option.some.injEq] at hid
    rw [get?, ← hid, h.index_ofIndex hi, hop]
  · intro hop
    have hi := index_lt_of_get? hop
    refine ⟨n.index, ?_, hop⟩
    simp [ids, List.getElem?_range hi]

/-! ### The check -/

theorem neighborDefect?_eq_none_iff {c : Catalog α} {node : NodeId}
    {back : Operator α → List NodeId} {defect : NodeId → Defect α} : ∀ {seen l : List NodeId},
    c.neighborDefect? node back defect seen l = none ↔
      l.Nodup ∧ ∀ n ∈ l, n ∉ seen ∧ ∃ op, c.get? n = some op ∧ node ∈ back op
  | seen, [] => by simp [neighborDefect?]
  | seen, n :: l => by
    rw [neighborDefect?]
    cases hop : c.get? n with
    | none => simp [hop]
    | some op =>
      by_cases hseen : n ∈ seen
      · simp [hseen]
      by_cases hback : node ∈ back op
      · simp only [hseen, hback, if_false, not_true]
        rw [neighborDefect?_eq_none_iff, List.nodup_cons, List.forall_mem_cons]
        constructor
        · rintro ⟨hl, hall⟩
          refine ⟨⟨fun hn => (hall n hn).1 List.mem_cons_self, hl⟩, ⟨hseen, op, hop, hback⟩, ?_⟩
          exact fun m hm => ⟨fun h => (hall m hm).1 (List.mem_cons_of_mem _ h), (hall m hm).2⟩
        · rintro ⟨⟨hn, hl⟩, -, hall⟩
          refine ⟨hl, fun m hm => ⟨fun h => ?_, (hall m hm).2⟩⟩
          rcases List.mem_cons.1 h with rfl | h
          · exact hn hm
          · exact (hall m hm).1 h
      · simp [hseen, hback, hop]

section Check

variable [Cost α]

theorem costListDefect?_eq_none_iff {c : Catalog α} {node : NodeId} {strategy : Nat} {p : NodeId}
    {costs : List α} : c.costListDefect? node strategy p costs = none ↔
      c.width? p = some costs.length ∧ ∀ x ∈ costs, Cost.Valid x := by
  rw [costListDefect?]
  cases c.width? p with
  | none => simp
  | some width =>
    by_cases hlen : costs.length = width
    · simp [hlen]
    · simp [hlen, Ne.symm hlen]

theorem strategyDefect?_eq_none_iff {c : Catalog α} {node : NodeId} {predecessors : List NodeId}
    {costs : List (List α)} {strategy : Nat} :
    c.strategyDefect? node predecessors costs strategy = none ↔
      costs.length = predecessors.length ∧ ∀ p l, (p, l) ∈ predecessors.zip costs →
        c.width? p = some l.length ∧ ∀ x ∈ l, Cost.Valid x := by
  rw [strategyDefect?]
  by_cases hlen : costs.length = predecessors.length
  · simp only [hlen, ne_eq, not_true, if_false, List.findSome?_eq_none_iff, true_and,
      Prod.forall, costListDefect?_eq_none_iff]
  · simp [hlen]

theorem operatorDefect?_eq_none_iff {c : Catalog α} {node : NodeId} {op : Operator α} :
    c.operatorDefect? node op = none ↔ op.strategies ≠ [] ∧
      (op.predecessors.Nodup ∧ ∀ p ∈ op.predecessors,
        ∃ other, c.get? p = some other ∧ node ∈ other.successors) ∧
      (op.successors.Nodup ∧ ∀ s ∈ op.successors,
        ∃ other, c.get? s = some other ∧ node ∈ other.predecessors) ∧
      ∀ s ∈ op.strategies, s.costs.length = op.predecessors.length ∧
        ∀ p l, (p, l) ∈ op.predecessors.zip s.costs →
          c.width? p = some l.length ∧ ∀ x ∈ l, Cost.Valid x := by
  rw [operatorDefect?]
  by_cases hs : op.strategies = []
  · simp [hs]
  · rw [if_neg hs, Option.or_eq_none_iff, Option.or_eq_none_iff, neighborDefect?_eq_none_iff,
      neighborDefect?_eq_none_iff, List.findSome?_eq_none_iff]
    simp only [strategyDefect?_eq_none_iff, List.not_mem_nil, not_false_eq_true, true_and, ne_eq,
      hs]
    refine and_congr_right fun _ => and_congr_right fun _ => ?_
    constructor
    · intro h s hmem
      obtain ⟨i, hi⟩ := List.mem_iff_getElem?.1 hmem
      exact h (s, i) (List.mem_zipIdx_iff_getElem?.2 hi)
    · exact fun h x hx => h x.1 (List.fst_mem_of_mem_zipIdx hx)

/-- The check passes exactly the consistent catalogs with valid costs. -/
theorem defect?_eq_none_iff {c : Catalog α} (h : c.Fits) :
    c.defect? = none ↔ c.Consistent ∧ c.ValidCosts := by
  rw [defect?, List.findSome?_eq_none_iff]
  simp only [Prod.forall, mem_declarations h, operatorDefect?_eq_none_iff]
  constructor
  · intro hall
    have hconsistent : c.Consistent :=
      { strategies_ne := fun hop => (hall _ _ hop).1
        predecessors_nodup := fun hop => (hall _ _ hop).2.1.1
        successors_nodup := fun hop => (hall _ _ hop).2.2.1.1
        of_predecessor := fun hop => (hall _ _ hop).2.1.2 _
        of_successor := fun hop => (hall _ _ hop).2.2.1.2 _
        length_costs := fun hop hs => ((hall _ _ hop).2.2.2 _ hs).1
        length_cost_list := fun hop hs hp => (((hall _ _ hop).2.2.2 _ hs).2 _ _ hp).1 }
    refine ⟨hconsistent, ?_⟩
    exact fun n op s p l x hop hs hp => (((hall n op hop).2.2.2 s hs).2 p l hp).2 x
  · rintro ⟨hc, hvalid⟩ n op hop
    refine ⟨hc.strategies_ne hop, ⟨hc.predecessors_nodup hop, fun p => hc.of_predecessor hop⟩,
      ⟨hc.successors_nodup hop, fun s => hc.of_successor hop⟩, ?_⟩
    intro s hs
    exact ⟨hc.length_costs hop hs, fun p l hp => ⟨hc.length_cost_list hop hs hp,
      fun x => hvalid n op s p l x hop hs hp⟩⟩

end Check

/-! ### Functions applied to costs -/

section Map

variable {β : Type} {f : α → β} {c : Catalog α}

@[simp] theorem size_map : (c.map f).size = c.size := List.length_map ..

@[simp] theorem get?_map {n : NodeId} : (c.map f).get? n = (c.get? n).map (Operator.map f) :=
  List.getElem?_map ..

@[simp] theorem width_map {op : Operator α} : (op.map f).width = op.width := List.length_map ..

@[simp] theorem width?_map {n : NodeId} : (c.map f).width? n = c.width? n := by
  rw [width?, get?_map, width?, Option.map_map]
  exact congrArg (Option.map · _) (funext fun _ => width_map)

theorem precedes_map {p n : NodeId} : (c.map f).Precedes p n ↔ c.Precedes p n := by
  rw [Precedes, Precedes, get?_map]
  cases c.get? n <;> simp [Operator.map]

theorem Fits.map (h : c.Fits) : (c.map f).Fits := by rwa [Fits, size_map]

theorem Consistent.map (h : c.Consistent) : (c.map f).Consistent := by
  -- a node of the mapped catalog is a mapped node
  have hlift {n : NodeId} {op : Operator β} (hop : (c.map f).get? n = some op) :
      ∃ op', c.get? n = some op' ∧ op'.map f = op := by
    rwa [get?_map, Option.map_eq_some_iff] at hop
  exact
    { strategies_ne := by
        rintro n _ hop hs
        obtain ⟨op, hop', rfl⟩ := hlift hop
        exact h.strategies_ne hop' (List.map_eq_nil_iff.1 hs)
      predecessors_nodup := by
        rintro n _ hop
        obtain ⟨op, hop', rfl⟩ := hlift hop
        exact h.predecessors_nodup hop'
      successors_nodup := by
        rintro n _ hop
        obtain ⟨op, hop', rfl⟩ := hlift hop
        exact h.successors_nodup hop'
      of_predecessor := by
        rintro n p _ hop hp
        obtain ⟨op, hop', rfl⟩ := hlift hop
        obtain ⟨other, hother, hn⟩ := h.of_predecessor hop' hp
        exact ⟨other.map f, by rw [get?_map, hother]; rfl, hn⟩
      of_successor := by
        rintro n p _ hop hp
        obtain ⟨op, hop', rfl⟩ := hlift hop
        obtain ⟨other, hother, hn⟩ := h.of_successor hop' hp
        exact ⟨other.map f, by rw [get?_map, hother]; rfl, hn⟩
      length_costs := by
        rintro n _ s hop hs
        obtain ⟨op, hop', rfl⟩ := hlift hop
        obtain ⟨s, hs', rfl⟩ := List.mem_map.1 hs
        exact (List.length_map ..).trans (h.length_costs hop' hs')
      length_cost_list := by
        rintro n p _ s costs hop hs hp
        obtain ⟨op, hop', rfl⟩ := hlift hop
        obtain ⟨s, hs', rfl⟩ := List.mem_map.1 hs
        simp only [Strategy.map, Operator.map, List.zip_map_right, List.mem_map, Prod.mk.injEq,
          Prod.exists, Prod.map, id_eq] at hp
        obtain ⟨_, l, hp, rfl, rfl⟩ := hp
        rw [width?_map, h.length_cost_list hop' hs' hp, List.length_map] }

end Map

/-! ### Order -/

theorem precedes_iff_mem_successors {c : Catalog α} (h : c.Consistent) {p n : NodeId} :
    c.Precedes p n ↔ ∃ op, c.get? p = some op ∧ n ∈ op.successors :=
  ⟨fun ⟨_, hop, hp⟩ => h.of_predecessor hop hp, fun ⟨_, hop, hn⟩ => h.of_successor hop hn⟩

theorem index_lt_of_precedes {c : Catalog α} (h : c.Consistent) {p n : NodeId}
    (hpn : c.Precedes p n) : p.index < c.size ∧ n.index < c.size := by
  obtain ⟨op, hop, hp⟩ := hpn
  obtain ⟨other, hother, -⟩ := h.of_predecessor hop hp
  exact ⟨index_lt_of_get? hother, index_lt_of_get? hop⟩

/-- A node with one predecessor at most is preceded by one node at most. -/
theorem eq_of_precedes {c : Catalog α} {p q n : NodeId} {op : Operator α}
    (hop : c.get? n = some op) (hsingle : op.predecessors.length ≤ 1) (hp : c.Precedes p n)
    (hq : c.Precedes q n) : p = q := by
  obtain ⟨_, hop', hp⟩ := hp
  cases hop.symm.trans hop'
  obtain ⟨_, hop', hq⟩ := hq
  cases hop.symm.trans hop'
  obtain ⟨i, hi, rfl⟩ := List.mem_iff_getElem.1 hp
  obtain ⟨j, hj, rfl⟩ := List.mem_iff_getElem.1 hq
  congr 1
  omega

theorem numbered_of_forall {c : Catalog α}
    (h : ∀ d ∈ c.operators.zipIdx, ∀ p ∈ d.1.predecessors, p.index < d.2) : c.Numbered :=
  fun p n ⟨op, hop, hp⟩ => h (op, n.index) (List.mem_zipIdx_iff_getElem?.2 hop) p hp

theorem Numbered.acyclic {c : Catalog α} (h : c.Numbered) : c.Acyclic := by
  have hlt {p n : NodeId} (hpn : Relation.TransGen c.Precedes p n) : p.index < n.index := by
    induction hpn with
    | single hpn => exact h _ _ hpn
    | tail _ hpn ih => exact ih.trans (h _ _ hpn)
  exact fun n hn => (hlt hn).false

/-- The nodes of an acyclic catalog have a rank that grows along each declared edge: the number of
    nodes that precede a node, directly or through others. -/
theorem exists_rank {c : Catalog α} (hfits : c.Fits) (hc : c.Consistent) (h : c.Acyclic) :
    ∃ rank : NodeId → Nat, ∀ p n, c.Precedes p n → rank p < rank n := by
  classical
  let before (n : NodeId) : Finset NodeId :=
    c.ids.toFinset.filter fun p => Relation.TransGen c.Precedes p n
  refine ⟨fun n => (before n).card, fun p n hpn => Finset.card_lt_card ?_⟩
  have hp : p ∈ c.ids.toFinset :=
    List.mem_toFinset.2 ((mem_ids hfits).2 (index_lt_of_precedes hc hpn).1)
  refine Finset.ssubset_iff_subset_ne.2 ⟨?_, ?_⟩
  · intro q hq
    obtain ⟨hq, hqp⟩ := Finset.mem_filter.1 hq
    exact Finset.mem_filter.2 ⟨hq, hqp.tail hpn⟩
  · intro heq
    have : p ∈ before n := Finset.mem_filter.2 ⟨hp, .single hpn⟩
    rw [← heq] at this
    exact h p (Finset.mem_filter.1 this).2

end Reshard.Catalog
