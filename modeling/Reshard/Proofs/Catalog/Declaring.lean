import Reshard.Proofs.Catalog.Unfolded
import Reshard.Proofs.Catalog.Validity

/-! Catalogs that are made by declaring one node after the other.

    A predecessor that is not declared yet is recorded and otherwise ignored: it does not get the
    node as a successor, even if it is declared later. What a catalog then records is `Records`; one
    more declaration keeps it, so all of them do. The check catches up on what was ignored. It
    passes exactly if each node could be declared behind those before it (`Declarable`), because the
    record of a node is in order exactly then, whatever is declared behind it. -/

namespace Reshard.Catalog

variable {α : Type}

/-! ### Declarations -/

/-- What a node is declared with. -/
structure Declaration (α : Type) where
  name : String
  predecessors : List NodeId
  strategies : List (Strategy α)
  mergeable : Bool

/-- The record of a declared node that has these successors. -/
def Declaration.record (d : Declaration α) (successors : List NodeId) : Operator α :=
  ⟨d.name, d.predecessors, successors, d.strategies, d.mergeable⟩

/-- The catalog with one more node. -/
def declare (c : Catalog α) (d : Declaration α) : Catalog α :=
  (c.add d.name d.predecessors d.strategies d.mergeable).1

/-- The catalog of nodes that are declared one after the other. -/
def declareAll (ds : List (Declaration α)) : Catalog α := ds.foldl declare empty

/-- A node can be declared behind those of the catalog: it has a strategy, its predecessors are
    there and listed once, and there is a valid cost for each pair of strategies with a
    predecessor. -/
structure Declarable [Cost α] (c : Catalog α) (d : Declaration α) : Prop where
  strategies_ne : d.strategies ≠ []
  predecessors_nodup : d.predecessors.Nodup
  index_lt {p : NodeId} : p ∈ d.predecessors → p.index < c.size
  length_costs {s : Strategy α} : s ∈ d.strategies → s.costs.length = d.predecessors.length
  length_cost_list {s : Strategy α} {p : NodeId} {costs : List α} : s ∈ d.strategies →
    (p, costs) ∈ d.predecessors.zip s.costs → c.width? p = some costs.length
  valid_cost {s : Strategy α} {p : NodeId} {costs : List α} {x : α} : s ∈ d.strategies →
    (p, costs) ∈ d.predecessors.zip s.costs → x ∈ costs → Cost.Valid x

/-- The catalog holds a record of each declaration, and a node has as successors, in order, the
    later ones that were declared with it as a predecessor. -/
structure Records (ds : List (Declaration α)) (c : Catalog α) : Prop where
  size_eq : c.size = ds.length
  exists_record {n : NodeId} {op : Operator α} : c.get? n = some op →
    ∃ d l, ds[n.index]? = some d ∧ d.record l = op
  mem_successors_iff {n p : NodeId} : n ∈ c.successors p ↔
    ∃ d, ds[n.index]? = some d ∧ p ∈ d.predecessors ∧ p.index < n.index
  pairwise_successors (p : NodeId) : (c.successors p).Pairwise fun n n' => n.index < n'.index

variable {c : Catalog α} {n p child : NodeId} {d : Declaration α} {ds : List (Declaration α)}

/-! ### One more node -/

/-- The record of a node with a successor entered, if it is not there. -/
def withSuccessor (child : NodeId) (op : Operator α) : Operator α :=
  if child ∈ op.successors then op else { op with successors := op.successors ++ [child] }

theorem withSuccessor_withSuccessor (op : Operator α) :
    withSuccessor child (withSuccessor child op) = withSuccessor child op := by
  have hmem : child ∈ (withSuccessor child op).successors := by
    rw [withSuccessor]
    split
    · assumption
    · exact List.mem_append_right _ List.mem_cons_self
  rw [withSuccessor, if_pos hmem]

theorem exists_record_withSuccessor (d : Declaration α) (l : List NodeId) :
    ∃ l', d.record l' = withSuccessor child (d.record l) := by
  rw [withSuccessor]
  split
  · exact ⟨l, rfl⟩
  · exact ⟨l ++ [child], rfl⟩

theorem get?_addSuccessor : (addSuccessor child c p).get? n =
    (c.get? n).map fun op => if n = p then withSuccessor child op else op := by
  have hindex : p.index = n.index ↔ n = p := ⟨fun h => NodeId.ext h.symm, fun h => by rw [h]⟩
  simp only [get?, addSuccessor, modify, List.getElem?_modify, hindex, Option.map_eq_map]
  rfl

/-- A successor is entered once, at each of the nodes of a list that are declared. -/
theorem get?_foldl_addSuccessor : ∀ {predecessors : List NodeId} {c : Catalog α},
    (predecessors.foldl (addSuccessor child) c).get? n =
      (c.get? n).map fun op => if n ∈ predecessors then withSuccessor child op else op
  | [], c => by simp
  | p :: predecessors, c => by
    rw [List.foldl_cons, get?_foldl_addSuccessor, get?_addSuccessor, Option.map_map]
    refine congrArg (Option.map · _) (funext fun op => ?_)
    by_cases hp : n = p <;> by_cases hmem : n ∈ predecessors <;>
      simp [hp, hmem, withSuccessor_withSuccessor]

theorem size_foldl_addSuccessor {predecessors : List NodeId} :
    (predecessors.foldl (addSuccessor child) c).size = c.size := by
  induction predecessors generalizing c with
  | nil => rfl
  | cons p predecessors ih =>
    rw [List.foldl_cons, ih, addSuccessor, modify, size, List.length_modify, size]

theorem operators_declare : (c.declare d).operators =
    (d.predecessors.foldl (addSuccessor (.ofIndex c.size)) c).operators ++ [d.record []] := rfl

theorem size_declare : (c.declare d).size = c.size + 1 := by
  rw [size, operators_declare, List.length_append, ← size, size_foldl_addSuccessor]
  rfl

/-- Nodes that are there may get the new one as a successor. -/
theorem get?_declare_of_lt (hn : n.index < c.size) : (c.declare d).get? n =
    (c.get? n).map fun op =>
      if n ∈ d.predecessors then withSuccessor (.ofIndex c.size) op else op := by
  rw [← get?_foldl_addSuccessor, get?, operators_declare]
  refine List.getElem?_append_left ?_
  rwa [← size, size_foldl_addSuccessor]

theorem get?_declare_of_eq (hn : n.index = c.size) :
    (c.declare d).get? n = some (d.record []) := by
  rw [get?, operators_declare, hn, List.getElem?_append_right, ← size, size_foldl_addSuccessor,
    Nat.sub_self]
  · rfl
  · rw [← size, size_foldl_addSuccessor]

theorem get?_declare_of_gt (hn : c.size < n.index) : (c.declare d).get? n = none := by
  refine List.getElem?_eq_none ?_
  rw [← size, size_declare]
  exact hn

theorem successors_of_get? {op : Operator α} (hop : c.get? n = some op) :
    c.successors n = op.successors := by
  rw [successors, hop]
  rfl

/-- A new successor comes last. -/
theorem successors_declare_of_mem (hp : p ∈ d.predecessors) (hlt : p.index < c.size)
    (hnew : NodeId.ofIndex c.size ∉ c.successors p) :
    (c.declare d).successors p = c.successors p ++ [.ofIndex c.size] := by
  obtain ⟨op, hop⟩ := exists_get? hlt
  rw [successors_of_get? hop] at hnew ⊢
  rw [successors, get?_declare_of_lt hlt, hop, Option.map_some, if_pos hp, withSuccessor,
    if_neg hnew]
  rfl

theorem successors_declare_of_not (h : ¬ (p ∈ d.predecessors ∧ p.index < c.size)) :
    (c.declare d).successors p = c.successors p := by
  rcases lt_trichotomy p.index c.size with hlt | heq | hgt
  · obtain ⟨op, hop⟩ := exists_get? hlt
    have hp : p ∉ d.predecessors := fun hp => h ⟨hp, hlt⟩
    rw [successors, successors, get?_declare_of_lt hlt, hop, Option.map_some, if_neg hp]
  · have hnone : c.get? p = none := List.getElem?_eq_none heq.ge
    rw [successors, successors, get?_declare_of_eq heq, hnone]
    rfl
  · have hnone : c.get? p = none := List.getElem?_eq_none hgt.le
    rw [successors, successors, get?_declare_of_gt hgt, hnone]

/-! ### Records -/

theorem records_empty : Records ([] : List (Declaration α)) empty where
  size_eq := rfl
  exists_record := nofun
  mem_successors_iff {n p} := by
    have hnone : (empty : Catalog α).get? p = none := rfl
    rw [successors, hnone]
    simp
  pairwise_successors p := List.Pairwise.nil

/-- A node has only later ones as successors. -/
theorem Records.index_lt_of_mem (h : Records ds c) (hn : n ∈ c.successors p) :
    p.index < n.index ∧ n.index < c.size := by
  obtain ⟨d, hd, -, hlt⟩ := h.mem_successors_iff.1 hn
  rw [h.size_eq]
  exact ⟨hlt, (List.getElem?_eq_some_iff.1 hd).1⟩

/-- The new node becomes the last successor of its predecessors that are there. -/
theorem Records.successors_declare (h : Records ds c) (hsize : c.size ≤ NodeId.maxIndex) :
    (c.declare d).successors p = c.successors p ++
      if p ∈ d.predecessors ∧ p.index < c.size then [.ofIndex c.size] else [] := by
  split_ifs with hp
  · refine successors_declare_of_mem hp.1 hp.2 fun hmem => ?_
    have hlt := (h.index_lt_of_mem hmem).2
    rw [NodeId.ofIndex_index_of_le hsize] at hlt
    exact hlt.false
  · rw [successors_declare_of_not hp, List.append_nil]

theorem getElem?_concat_eq_some_iff {i : Nat} {d' : Declaration α} :
    (ds ++ [d])[i]? = some d' ↔ ds[i]? = some d' ∨ i = ds.length ∧ d = d' := by
  rcases lt_trichotomy i ds.length with hlt | rfl | hgt
  · rw [List.getElem?_append_left hlt]
    simp [hlt.ne]
  · simp
  · rw [List.getElem?_eq_none (by simpa using hgt), List.getElem?_eq_none hgt.le]
    simp [hgt.ne']

/-- One more declaration is recorded. -/
theorem Records.declare (h : Records ds c) (hsize : c.size ≤ NodeId.maxIndex) :
    Records (ds ++ [d]) (c.declare d) where
  size_eq := by rw [size_declare, h.size_eq, List.length_append]; rfl
  exists_record {n op} hop := by
    simp only [getElem?_concat_eq_some_iff, ← h.size_eq]
    rcases lt_trichotomy n.index c.size with hlt | heq | hgt
    · -- a node from before, perhaps with one more successor
      rw [get?_declare_of_lt hlt] at hop
      obtain ⟨before, hbefore, rfl⟩ := Option.map_eq_some_iff.1 hop
      obtain ⟨d', l, hd', rfl⟩ := h.exists_record hbefore
      split
      · obtain ⟨l', hl'⟩ := exists_record_withSuccessor d' l
        exact ⟨d', l', .inl hd', hl'⟩
      · exact ⟨d', l, .inl hd', rfl⟩
    · -- the new node
      rw [get?_declare_of_eq heq] at hop
      exact ⟨d, [], .inr ⟨heq, rfl⟩, Option.some.inj hop⟩
    · rw [get?_declare_of_gt hgt] at hop
      cases hop
  mem_successors_iff {n p} := by
    have hnew : n = .ofIndex c.size ↔ n.index = c.size := by
      constructor
      · rintro rfl
        exact NodeId.ofIndex_index_of_le hsize
      · intro hn
        rw [← hn, NodeId.ofIndex_index]
    rw [h.successors_declare hsize, List.mem_append, h.mem_successors_iff,
      List.mem_ite_nil_right, List.mem_singleton, hnew]
    simp only [getElem?_concat_eq_some_iff, ← h.size_eq, or_and_right, exists_or, and_assoc]
    -- successors from before stay; its predecessors that are there get the new node
    refine or_congr_right ⟨?_, ?_⟩
    · rintro ⟨hp, hlt, hn⟩
      exact ⟨d, hn, rfl, hp, hn ▸ hlt⟩
    · rintro ⟨_, hn, rfl, hp, hlt⟩
      exact ⟨hp, hn ▸ hlt, hn⟩
  pairwise_successors p := by
    rw [h.successors_declare hsize, List.pairwise_append]
    refine ⟨h.pairwise_successors p, ?_, ?_⟩
    · split_ifs
      · exact List.pairwise_singleton ..
      · exact List.Pairwise.nil
    · intro n hn n' hn'
      split_ifs at hn' with hp
      · cases List.mem_singleton.1 hn'
        rw [NodeId.ofIndex_index_of_le hsize]
        exact (h.index_lt_of_mem hn).2
      · cases hn'

theorem records_declareAll (hlen : ds.length ≤ NodeId.maxIndex) : Records ds (declareAll ds) := by
  induction ds using List.reverseRecOn with
  | nil => exact records_empty
  | append_singleton ds d ih =>
    have hlt : ds.length < NodeId.maxIndex := by rwa [List.length_append] at hlen
    have h := ih hlt.le
    rw [declareAll, List.foldl_append]
    exact h.declare (h.size_eq.trans_le hlt.le)

theorem Records.exists_get? (h : Records ds c) (hd : ds[n.index]? = some d) :
    ∃ l, c.get? n = some (d.record l) := by
  have hlt : n.index < c.size := h.size_eq ▸ (List.getElem?_eq_some_iff.1 hd).1
  obtain ⟨op, hop⟩ := Catalog.exists_get? hlt
  obtain ⟨d', l, hd', rfl⟩ := h.exists_record hop
  cases hd.symm.trans hd'
  exact ⟨l, hop⟩

theorem Records.width?_eq (h : Records ds c) :
    c.width? n = ds[n.index]?.map (·.strategies.length) := by
  cases hd : ds[n.index]? with
  | none =>
    have hge : c.size ≤ n.index := h.size_eq ▸ List.getElem?_eq_none_iff.1 hd
    rw [width?, get?, List.getElem?_eq_none hge]
    rfl
  | some d =>
    obtain ⟨l, hop⟩ := h.exists_get? hd
    rw [width?, hop]
    rfl

/-- The records of the first declarations. -/
theorem records_take (hlen : ds.length ≤ NodeId.maxIndex) (i : Nat) :
    Records (ds.take i) (declareAll (ds.take i)) :=
  records_declareAll ((List.length_take_le' ..).trans hlen)

section Before

variable {before : Catalog α} (h : Records ds c) (hbefore : Records (ds.take n.index) before)
include h hbefore

theorem Records.size_before (hn : n.index < c.size) : before.size = n.index := by
  rw [hbefore.size_eq, List.length_take_of_le (h.size_eq ▸ hn.le)]

theorem Records.width?_before (hp : p.index < n.index) : before.width? p = c.width? p := by
  rw [hbefore.width?_eq, h.width?_eq, List.getElem?_take_of_lt hp]

end Before

/-! ### The check -/

section Check

variable [Cost α] {before : Catalog α} {l : List NodeId}

/-- A predecessor lists the node as a successor only if it was declared first. -/
theorem Records.index_lt_of_inOrder {op : Operator α} (h : Records ds c) (horder : c.InOrder n op)
    (hp : p ∈ op.predecessors) : p.index < n.index := by
  obtain ⟨other, hother, hmem⟩ := horder.of_predecessor hp
  rw [← successors_of_get? hother] at hmem
  exact (h.index_lt_of_mem hmem).1

theorem Records.declarable (h : Records ds c) (hbefore : Records (ds.take n.index) before)
    (hop : c.get? n = some (d.record l)) (horder : c.InOrder n (d.record l)) :
    before.Declarable d where
  strategies_ne := horder.strategies_ne
  predecessors_nodup := horder.predecessors_nodup
  index_lt hp := by
    rw [h.size_before hbefore (index_lt_of_get? hop)]
    exact h.index_lt_of_inOrder horder hp
  length_costs := horder.length_costs
  length_cost_list hs hp := by
    rw [h.width?_before hbefore (h.index_lt_of_inOrder horder (List.of_mem_zip hp).1)]
    exact horder.length_cost_list hs hp
  valid_cost := horder.valid_cost

/-- What the check asks of successors always holds. -/
theorem Records.inOrder (h : Records ds c) (hbefore : Records (ds.take n.index) before)
    (hd : ds[n.index]? = some d) (hop : c.get? n = some (d.record l))
    (hdeclarable : before.Declarable d) : c.InOrder n (d.record l) := by
  have hn := index_lt_of_get? hop
  have hlt {p : NodeId} (hp : p ∈ d.predecessors) : p.index < n.index :=
    h.size_before hbefore hn ▸ hdeclarable.index_lt hp
  have hsuccessors : c.successors n = l := successors_of_get? hop
  exact
    { strategies_ne := hdeclarable.strategies_ne
      predecessors_nodup := hdeclarable.predecessors_nodup
      successors_nodup := by
        have hpairwise := h.pairwise_successors n
        rw [hsuccessors] at hpairwise
        exact hpairwise.imp fun hlt heq => (heq ▸ hlt).false
      of_predecessor := by
        intro p hp
        obtain ⟨other, hother⟩ := Catalog.exists_get? ((hlt hp).trans hn)
        refine ⟨other, hother, ?_⟩
        rw [← successors_of_get? hother]
        exact h.mem_successors_iff.2 ⟨d, hd, hp, hlt hp⟩
      of_successor := by
        intro s hs
        have hs : s ∈ c.successors n := hsuccessors ▸ hs
        obtain ⟨d', hd', hmem, -⟩ := h.mem_successors_iff.1 hs
        obtain ⟨l', hother⟩ := h.exists_get? hd'
        exact ⟨_, hother, hmem⟩
      length_costs := hdeclarable.length_costs
      length_cost_list := by
        intro s p costs hs hp
        rw [← h.width?_before hbefore (hlt (List.of_mem_zip hp).1)]
        exact hdeclarable.length_cost_list hs hp
      valid_cost := hdeclarable.valid_cost }

/-- All records are in order exactly if each node could be declared behind those before it. -/
theorem defect?_declareAll_eq_none_iff (hlen : ds.length ≤ NodeId.maxIndex) :
    (declareAll ds).defect? = none ↔
      ∀ i d, ds[i]? = some d → (declareAll (ds.take i)).Declarable d := by
  have h := records_declareAll hlen
  rw [defect?_eq_none_iff_inOrder (h.size_eq.trans_le hlen)]
  constructor
  · intro horder i d hd
    have hi : i ≤ NodeId.maxIndex := (List.getElem?_eq_some_iff.1 hd).1.le.trans hlen
    obtain ⟨l, hop⟩ := h.exists_get? (n := ⟨i, hi⟩) hd
    exact h.declarable (n := ⟨i, hi⟩) (records_take hlen i) hop (horder _ _ hop)
  · intro hdeclarable n op hop
    obtain ⟨d, l, hd, rfl⟩ := h.exists_record hop
    exact h.inOrder (records_take hlen n.index) hd hop (hdeclarable _ _ hd)

/-- What comes of declaring the nodes in `ds` one after the other. -/
structure Decides (ds : List (Declaration α)) : Prop where
  /-- Each node gets the number of its declaration as its id. -/
  index_add {i : Nat} {d : Declaration α} : ds[i]? = some d →
    ((declareAll (ds.take i)).add d.name d.predecessors d.strategies d.mergeable).2.index = i
  mem_successors_iff {n p : NodeId} : n ∈ (declareAll ds).successors p ↔
    ∃ d, ds[n.index]? = some d ∧ p ∈ d.predecessors ∧ p.index < n.index
  pairwise_successors (p : NodeId) :
    ((declareAll ds).successors p).Pairwise fun n n' => n.index < n'.index
  defect?_eq_none_iff : (declareAll ds).defect? = none ↔
    ∀ i d, ds[i]? = some d → (declareAll (ds.take i)).Declarable d
  numbered : (declareAll ds).defect? = none → (declareAll ds).Numbered

/-- A node has as successors, in order, the later nodes that were declared with it as a predecessor,
    whatever else was declared. The check passes exactly if each node could be declared behind those
    before it; predecessors then come before the nodes that list them. -/
theorem declareAll_decides (ds : List (Declaration α)) (hlen : ds.length ≤ NodeId.maxIndex) :
    Decides ds := by
  have h := records_declareAll hlen
  exact
    { index_add := by
        intro i d hd
        have hi := (List.getElem?_eq_some_iff.1 hd).1.le
        rw [add, (records_take hlen i).size_eq, List.length_take_of_le hi]
        exact NodeId.ofIndex_index_of_le (hi.trans hlen)
      mem_successors_iff := h.mem_successors_iff
      pairwise_successors := h.pairwise_successors
      defect?_eq_none_iff := defect?_declareAll_eq_none_iff hlen
      numbered := by
        rintro hnone p n ⟨op, hop, hp⟩
        have horder := (defect?_eq_none_iff_inOrder (h.size_eq.trans_le hlen)).1 hnone n op hop
        exact h.index_lt_of_inOrder horder hp }

end Check

/-- The second node lists the first one twice, itself, and the third one. -/
def tangled : List (Declaration (WithTop ℕ)) := [
  ⟨"a", [], [⟨"a0", []⟩, ⟨"a1", []⟩], false⟩,
  ⟨"b", [.ofIndex 0, .ofIndex 0, .ofIndex 1, .ofIndex 2], [⟨"b0", [[0, 1], [0, 1], [0], [1]]⟩],
    true⟩,
  ⟨"c", [.ofIndex 1, .ofIndex 0], [⟨"c0", [[1], [⊤, 0]]⟩], true⟩]

/-- The same nodes; the second one lists the first one alone. -/
def untangled : List (Declaration (WithTop ℕ)) := [
  ⟨"a", [], [⟨"a0", []⟩, ⟨"a1", []⟩], false⟩,
  ⟨"b", [.ofIndex 0], [⟨"b0", [[0, 1]]⟩], true⟩,
  ⟨"c", [.ofIndex 1, .ofIndex 0], [⟨"c0", [[1], [⊤, 0]]⟩], true⟩]

/-- The third node becomes a successor of the second one and not the other way round. The check
    fails for the first list because not all of its nodes could be declared, and passes for the
    second one. -/
theorem tangled_declareAll_decides :
    (tangled.length ≤ NodeId.maxIndex ∧
      NodeId.ofIndex 2 ∈ (declareAll tangled).successors (.ofIndex 1) ∧
      NodeId.ofIndex 1 ∉ (declareAll tangled).successors (.ofIndex 2) ∧
      (declareAll tangled).defect? = some (.duplicateNeighbor (.ofIndex 1) (.ofIndex 0)) ∧
      ¬ ∀ i d, tangled[i]? = some d → (declareAll (tangled.take i)).Declarable d) ∧
    (∀ i d, untangled[i]? = some d → (declareAll (untangled.take i)).Declarable d) ∧
    (declareAll untangled).Numbered := by
  have hlen : tangled.length ≤ NodeId.maxIndex := by decide
  have hdefect : (declareAll tangled).defect? =
      some (.duplicateNeighbor (.ofIndex 1) (.ofIndex 0)) := by decide +kernel
  have hnone : (declareAll untangled).defect? = none := by decide +kernel
  have h := declareAll_decides tangled hlen
  have h' := declareAll_decides untangled (by decide)
  refine ⟨⟨hlen, ?_, ?_, hdefect, ?_⟩, h'.defect?_eq_none_iff.1 hnone, h'.numbered hnone⟩
  · exact h.mem_successors_iff.2 ⟨_, rfl, List.mem_cons_self, by decide⟩
  · intro hmem
    obtain ⟨-, -, -, hlt⟩ := h.mem_successors_iff.1 hmem
    exact absurd hlt (by decide)
  · intro hall
    have hnone := h.defect?_eq_none_iff.2 hall
    cases hdefect.symm.trans hnone

end Reshard.Catalog
