import Mathlib.Data.List.Duplicate
import Reshard.Proofs.Catalog.MergeOrder
import Reshard.Proofs.Cost.Binary64

/-! What the check of a catalog tells.

    The declaration of a node is in order (`InOrder`) if its neighbours are and its cost lists are.
    The check passes exactly if all declarations are in order. A defect that it reports is there
    (`Exhibits`), and all declarations before that one are in order (`FirstDefect`). Valid costs are
    those that are neither undefined nor negative (`Binary64.valid_iff`).

    Cost lists are compared with the widths of the predecessors, of which some may be declared later
    and not be checked yet. `check` looks the widths up and has a fault of its own for one that is
    not there. It never comes to that, because the neighbours are checked first; so `check` reports
    what `defect?` finds (`check_eq`). -/

namespace Reshard.Catalog

variable {α : Type}

/-! ### What is wrong -/

section Defects

variable [Cost α]

/-- Neighbours are declared, listed once and list the node `n` in return, and there is a valid cost
    for each pair of strategies with a predecessor. -/
structure InOrder (c : Catalog α) (n : NodeId) (op : Operator α) : Prop where
  strategies_ne : op.strategies ≠ []
  predecessors_nodup : op.predecessors.Nodup
  successors_nodup : op.successors.Nodup
  of_predecessor {p : NodeId} : p ∈ op.predecessors →
    ∃ other, c.get? p = some other ∧ n ∈ other.successors
  of_successor {s : NodeId} : s ∈ op.successors →
    ∃ other, c.get? s = some other ∧ n ∈ other.predecessors
  length_costs {s : Strategy α} : s ∈ op.strategies → s.costs.length = op.predecessors.length
  length_cost_list {s : Strategy α} {p : NodeId} {costs : List α} : s ∈ op.strategies →
    (p, costs) ∈ op.predecessors.zip s.costs → c.width? p = some costs.length
  valid_cost {s : Strategy α} {p : NodeId} {costs : List α} {x : α} : s ∈ op.strategies →
    (p, costs) ∈ op.predecessors.zip s.costs → x ∈ costs → Cost.Valid x

/-- The declaration of the node `n` has a defect. -/
inductive Exhibits (c : Catalog α) (n : NodeId) : Defect α → Prop
  | unknownNode {op : Operator α} {m : NodeId} : c.get? n = some op →
    m ∈ op.predecessors ∨ m ∈ op.successors → c.get? m = none → Exhibits c n (.unknownNode n m)
  | noStrategies {op : Operator α} : c.get? n = some op → op.strategies = [] →
    Exhibits c n (.noStrategies n op.name)
  | duplicateNeighbor {op : Operator α} {m : NodeId} : c.get? n = some op →
    List.Duplicate m op.predecessors ∨ List.Duplicate m op.successors →
    Exhibits c n (.duplicateNeighbor n m)
  /-- A predecessor does not list the node as its successor. -/
  | oneSidedPredecessor {op other : Operator α} {p : NodeId} : c.get? n = some op →
    p ∈ op.predecessors → c.get? p = some other → n ∉ other.successors →
    Exhibits c n (.oneSided p n)
  /-- A successor does not list the node as its predecessor. -/
  | oneSidedSuccessor {op other : Operator α} {s : NodeId} : c.get? n = some op →
    s ∈ op.successors → c.get? s = some other → n ∉ other.predecessors →
    Exhibits c n (.oneSided n s)
  | costListCount {op : Operator α} {i : Nat} {s : Strategy α} : c.get? n = some op →
    op.strategies[i]? = some s → s.costs.length ≠ op.predecessors.length →
    Exhibits c n (.costListCount n i op.predecessors.length s.costs.length)
  | costListLength {op : Operator α} {i w : Nat} {s : Strategy α} {p : NodeId} {costs : List α} :
    c.get? n = some op → op.strategies[i]? = some s → (p, costs) ∈ op.predecessors.zip s.costs →
    c.width? p = some w → costs.length ≠ w → Exhibits c n (.costListLength n i p w costs.length)
  | invalidCost {op : Operator α} {i : Nat} {s : Strategy α} {p : NodeId} {costs : List α}
    {x : α} : c.get? n = some op → op.strategies[i]? = some s →
    (p, costs) ∈ op.predecessors.zip s.costs → x ∈ costs → ¬ Cost.Valid x →
    Exhibits c n (.invalidCost n i p x)

/-- The declaration of the node `n` has the defect, and all declarations before it are in order. -/
structure FirstDefect (c : Catalog α) (n : NodeId) (d : Defect α) : Prop where
  exhibits : c.Exhibits n d
  before {m : NodeId} {op : Operator α} : m.index < n.index → c.get? m = some op → c.InOrder m op

end Defects

variable {c : Catalog α} {n : NodeId} {op : Operator α} {d : Defect α}

/-- A declaration with a defect is not in order. -/
theorem Exhibits.not_inOrder [Cost α] (h : c.Exhibits n d) (hop : c.get? n = some op) :
    ¬ c.InOrder n op := by
  intro horder
  cases h with
  | unknownNode hop' hm hnone =>
    cases hop.symm.trans hop'
    rcases hm with hm | hm
    · obtain ⟨other, hother, -⟩ := horder.of_predecessor hm
      cases hnone.symm.trans hother
    · obtain ⟨other, hother, -⟩ := horder.of_successor hm
      cases hnone.symm.trans hother
  | noStrategies hop' hs =>
    cases hop.symm.trans hop'
    exact horder.strategies_ne hs
  | duplicateNeighbor hop' hm =>
    cases hop.symm.trans hop'
    rcases hm with hm | hm
    · exact hm.not_nodup horder.predecessors_nodup
    · exact hm.not_nodup horder.successors_nodup
  | oneSidedPredecessor hop' hp hother hn =>
    cases hop.symm.trans hop'
    obtain ⟨other, hother', hn'⟩ := horder.of_predecessor hp
    cases hother.symm.trans hother'
    exact hn hn'
  | oneSidedSuccessor hop' hs hother hn =>
    cases hop.symm.trans hop'
    obtain ⟨other, hother', hn'⟩ := horder.of_successor hs
    cases hother.symm.trans hother'
    exact hn hn'
  | costListCount hop' hs hlen =>
    cases hop.symm.trans hop'
    exact hlen (horder.length_costs (List.mem_of_getElem? hs))
  | costListLength hop' hs hp hw hlen =>
    cases hop.symm.trans hop'
    exact hlen (Option.some.inj
      ((horder.length_cost_list (List.mem_of_getElem? hs) hp).symm.trans hw))
  | invalidCost hop' hs hp hx hinvalid =>
    cases hop.symm.trans hop'
    exact hinvalid (horder.valid_cost (List.mem_of_getElem? hs) hp hx)

/-! ### Defects of one node -/

/-- A defect among the neighbours on one side: one of them is not declared, is listed twice, or does
    not list the node in return. -/
theorem of_neighborDefect? {back : Operator α → List NodeId} {defect : NodeId → Defect α} :
    ∀ {seen l : List NodeId}, c.neighborDefect? n back defect seen l = some d →
      ∃ m ∈ l, (c.get? m = none ∧ d = .unknownNode n m) ∨
        ((m ∈ seen ∨ List.Duplicate m l) ∧ d = .duplicateNeighbor n m) ∨
        ∃ other, c.get? m = some other ∧ n ∉ back other ∧ d = defect m
  | seen, m :: l, h => by
    rw [neighborDefect?] at h
    cases hother : c.get? m with
    | none =>
      rw [hother] at h
      cases h
      exact ⟨m, List.mem_cons_self, .inl ⟨hother, rfl⟩⟩
    | some other =>
      rw [hother] at h
      dsimp only at h
      by_cases hseen : m ∈ seen
      · rw [if_pos hseen] at h
        cases h
        exact ⟨m, List.mem_cons_self, .inr (.inl ⟨.inl hseen, rfl⟩)⟩
      rw [if_neg hseen] at h
      by_cases hback : n ∈ back other
      · -- the first neighbor is in order, so the defect is further on
        rw [if_neg (not_not_intro hback)] at h
        obtain ⟨m', hm', hdefect⟩ := of_neighborDefect? h
        refine ⟨m', List.mem_cons_of_mem _ hm', hdefect.imp_right (Or.imp_left ?_)⟩
        rintro ⟨hdouble, hd⟩
        refine ⟨?_, hd⟩
        rcases hdouble with hdouble | hdouble
        · rcases List.mem_cons.1 hdouble with rfl | hdouble
          · exact .inr (List.Mem.duplicate_cons_self hm')
          · exact .inl hdouble
        · exact .inr (hdouble.duplicate_cons m)
      · rw [if_pos hback] at h
        cases h
        exact ⟨m, List.mem_cons_self, .inr (.inr ⟨other, hother, hback, rfl⟩)⟩

theorem exists_width?_of_neighborDefect? {back : Operator α → List NodeId}
    {defect : NodeId → Defect α} {l : List NodeId}
    (h : c.neighborDefect? n back defect [] l = none) : ∀ m ∈ l, ∃ w, c.width? m = some w := by
  intro m hm
  obtain ⟨-, other, hother, -⟩ := (neighborDefect?_eq_none_iff.1 h).2 m hm
  exact ⟨other.width, congrArg (Option.map Operator.width) hother⟩

section Operators

variable [Cost α]

theorem operatorDefect?_eq_none_iff_inOrder :
    c.operatorDefect? n op = none ↔ c.InOrder n op := by
  rw [operatorDefect?_eq_none_iff]
  constructor
  · rintro ⟨hs, ⟨hpnodup, hp⟩, ⟨hsnodup, hsucc⟩, hcosts⟩
    exact
      { strategies_ne := hs
        predecessors_nodup := hpnodup
        successors_nodup := hsnodup
        of_predecessor := hp _
        of_successor := hsucc _
        length_costs := fun hs => (hcosts _ hs).1
        length_cost_list := fun hs hp => ((hcosts _ hs).2 _ _ hp).1
        valid_cost := fun hs hp => ((hcosts _ hs).2 _ _ hp).2 _ }
  · intro h
    exact ⟨h.strategies_ne, ⟨h.predecessors_nodup, fun _ => h.of_predecessor⟩,
      ⟨h.successors_nodup, fun _ => h.of_successor⟩, fun _ hs => ⟨h.length_costs hs,
        fun _ _ hp => ⟨h.length_cost_list hs hp, fun _ => h.valid_cost hs hp⟩⟩⟩

theorem exhibits_of_strategyDefect? {i : Nat} {s : Strategy α} (hop : c.get? n = some op)
    (hs : op.strategies[i]? = some s) (hdeclared : ∀ p ∈ op.predecessors, ∃ w, c.width? p = some w)
    (h : c.strategyDefect? n op.predecessors s.costs i = some d) : c.Exhibits n d := by
  rw [strategyDefect?] at h
  by_cases hlen : s.costs.length = op.predecessors.length
  · rw [if_neg (not_not_intro hlen)] at h
    obtain ⟨⟨p, costs⟩, hp, h⟩ := List.exists_of_findSome?_eq_some h
    obtain ⟨w, hw⟩ := hdeclared p (List.of_mem_zip hp).1
    change c.costListDefect? n i p costs = some d at h
    rw [costListDefect?, hw] at h
    dsimp only at h
    by_cases hlength : costs.length = w
    · rw [if_neg (not_not_intro hlength)] at h
      obtain ⟨x, hx, rfl⟩ := Option.map_eq_some_iff.1 h
      have hinvalid := List.find?_some hx
      exact .invalidCost hop hs hp (List.mem_of_find?_eq_some hx) (of_decide_eq_true hinvalid)
    · rw [if_pos hlength] at h
      cases h
      exact .costListLength hop hs hp hw hlength
  · rw [if_pos hlen] at h
    cases h
    exact .costListCount hop hs hlen

theorem exhibits_of_operatorDefect? (hop : c.get? n = some op)
    (h : c.operatorDefect? n op = some d) : c.Exhibits n d := by
  rw [operatorDefect?] at h
  by_cases hs : op.strategies = []
  · rw [if_pos hs] at h
    cases h
    exact .noStrategies hop hs
  rw [if_neg hs] at h
  rcases Option.or_eq_some_iff.1 h with h | ⟨hpredecessors, h⟩
  · obtain ⟨m, hm, ⟨hnone, rfl⟩ | ⟨hdouble, rfl⟩ | ⟨other, hother, hback, rfl⟩⟩ :=
      of_neighborDefect? h
    · exact .unknownNode hop (.inl hm) hnone
    · exact .duplicateNeighbor hop (.inl (hdouble.resolve_left List.not_mem_nil))
    · exact .oneSidedPredecessor hop hm hother hback
  rcases Option.or_eq_some_iff.1 h with h | ⟨-, h⟩
  · obtain ⟨m, hm, ⟨hnone, rfl⟩ | ⟨hdouble, rfl⟩ | ⟨other, hother, hback, rfl⟩⟩ :=
      of_neighborDefect? h
    · exact .unknownNode hop (.inr hm) hnone
    · exact .duplicateNeighbor hop (.inr (hdouble.resolve_left List.not_mem_nil))
    · exact .oneSidedSuccessor hop hm hother hback
  · obtain ⟨⟨s, i⟩, hs, h⟩ := List.exists_of_findSome?_eq_some h
    exact exhibits_of_strategyDefect? hop (List.mem_zipIdx_iff_getElem?.1 hs)
      (exists_width?_of_neighborDefect? hpredecessors) h

end Operators

section Check

variable [Cost α]

/-! ### No position out of range -/

omit [Cost α] in
theorem verdict_eq_ok_iff {found : Option (Defect α)} : verdict found = .ok () ↔ found = none := by
  cases found <;> simp [verdict]

omit [Cost α] in
theorem verdict_or {first second : Option (Defect α)} :
    verdict (first.or second) = verdict first >>= fun _ => verdict second := by
  cases first <;> rfl

omit [Cost α] in
/-- Steps that each tell the defect of an item tell the first defect of a list. -/
theorem forM_eq_verdict {β : Type} {f : β → Except (Fault α) Unit} {g : β → Option (Defect α)} :
    ∀ {l : List β}, (∀ b ∈ l, f b = verdict (g b)) → l.forM f = verdict (l.findSome? g)
  | [], _ => rfl
  | b :: l, h => by
    have hrest : l.forM f = verdict (l.findSome? g) :=
      forM_eq_verdict fun b' hb' => h b' (List.mem_cons_of_mem _ hb')
    have hsteps : (b :: l).forM f = f b >>= fun _ => l.forM f := rfl
    rw [hsteps, h b List.mem_cons_self, hrest, List.findSome?_cons]
    cases g b <;> rfl

theorem checkCostList_eq {i w : Nat} {p : NodeId} {costs : List α} (hw : c.width? p = some w) :
    c.checkCostList n i p costs = verdict (c.costListDefect? n i p costs) := by
  rw [checkCostList, costListDefect?, hw]
  rfl

theorem checkStrategy_eq {i : Nat} {predecessors : List NodeId} {costs : List (List α)}
    (hdeclared : ∀ p ∈ predecessors, ∃ w, c.width? p = some w) :
    c.checkStrategy n predecessors costs i =
      verdict (c.strategyDefect? n predecessors costs i) := by
  rw [checkStrategy, strategyDefect?]
  split_ifs with hlen
  · rfl
  · refine forM_eq_verdict ?_
    rintro ⟨p, costs⟩ hp
    obtain ⟨w, hw⟩ := hdeclared p (List.of_mem_zip hp).1
    exact checkCostList_eq hw

theorem checkOperator_eq : c.checkOperator n op = verdict (c.operatorDefect? n op) := by
  rw [checkOperator, operatorDefect?]
  split_ifs with hs
  · rfl
  rw [verdict_or, verdict_or]
  cases hpredecessors :
    neighborDefect? c n Operator.successors (.oneSided · n) [] op.predecessors with
  | some d => rfl
  | none =>
    -- cost lists are looked at only if all predecessors are declared
    have hdeclared := exists_width?_of_neighborDefect? hpredecessors
    rw [forM_eq_verdict fun _ _ => checkStrategy_eq hdeclared]
    rfl

/-- The check of a catalog never uses a position that a list does not have. -/
theorem check_eq : c.check = verdict c.defect? :=
  forM_eq_verdict fun _ _ => checkOperator_eq

end Check

/-! ### The first defect -/

section First

variable [Cost α]

theorem firstDefect_of_defect? (hfits : c.Fits) (h : c.defect? = some d) :
    ∃ n op, c.get? n = some op ∧ c.FirstDefect n d := by
  obtain ⟨before, ⟨n, op⟩, after, hsplit, hd, hbefore⟩ := List.findSome?_eq_some_iff.1 h
  have hop : c.get? n = some op := by
    rw [← mem_declarations hfits, hsplit]
    exact List.mem_append_right _ List.mem_cons_self
  refine ⟨n, op, hop, exhibits_of_operatorDefect? hop hd, ?_⟩
  intro m op' hlt hop'
  have hm := (mem_declarations hfits).2 hop'
  have hpairwise := pairwise_declarations hfits
  rw [hsplit] at hm hpairwise
  obtain ⟨hafter, -⟩ := List.pairwise_cons.1 (List.pairwise_append.1 hpairwise).2.1
  -- the declarations before the reported one are those of smaller ids
  rcases List.mem_append.1 hm with hm | hm
  · exact operatorDefect?_eq_none_iff_inOrder.1 (hbefore _ hm)
  rcases List.mem_cons.1 hm with hm | hm
  · cases hm
    exact absurd hlt (lt_irrefl _)
  · exact absurd hlt (hafter _ hm).not_gt

theorem defect?_eq_none_iff_inOrder (hfits : c.Fits) :
    c.defect? = none ↔ ∀ n op, c.get? n = some op → c.InOrder n op := by
  rw [defect?, List.findSome?_eq_none_iff]
  simp only [Prod.forall, mem_declarations hfits, operatorDefect?_eq_none_iff_inOrder]

/-- The check of a catalog uses no position out of range. It passes exactly if all declarations are
    in order, and otherwise reports a defect of the first declaration that is not. -/
theorem check_decides (c : Catalog α) (hfits : c.Fits) : c.check = verdict c.defect? ∧
    (c.defect? = none ↔ ∀ n op, c.get? n = some op → c.InOrder n op) ∧
    ∀ d, c.defect? = some d →
      ∃ n op, c.get? n = some op ∧ ¬ c.InOrder n op ∧ c.FirstDefect n d := by
  refine ⟨check_eq, defect?_eq_none_iff_inOrder hfits, ?_⟩
  intro d hd
  obtain ⟨n, op, hop, hfirst⟩ := firstDefect_of_defect? hfits hd
  exact ⟨n, op, hop, hfirst.exhibits.not_inOrder hop, hfirst⟩

end First

/-- A chain of three nodes with the cost `x` on its last edge, and more nodes behind them. -/
def chained (x : Float) (more : List (Operator Float)) : Catalog Float where
  operators := [
    ⟨"a", [], [.ofIndex 1], [⟨"a0", []⟩, ⟨"a1", []⟩], false⟩,
    ⟨"b", [.ofIndex 0], [.ofIndex 2], [⟨"b0", [[1 / 0, -0.0]]⟩], true⟩,
    ⟨"c", [.ofIndex 1], [], [⟨"c0", [[x]]⟩], true⟩] ++ more

/-- A node with a predecessor that nobody declares, and without strategies. -/
def astray : Operator Float := ⟨"d", [.ofIndex 7], [], [], false⟩

/-- With an ordinary cost the chain passes. With an undefined one that cost is reported, before what
    is wrong behind it, and the costs of earlier nodes are neither undefined nor negative. -/
theorem chained_check_decides : ((chained 2.5 []).check = .ok () ∧
      ∀ n op, (chained 2.5 []).get? n = some op → (chained 2.5 []).InOrder n op) ∧
    let c := chained (0 / 0) [astray]
    let d : Defect Float := .invalidCost (.ofIndex 2) 0 (.ofIndex 1) (0 / 0)
    c.Fits ∧ c.check = .error (.defect d) ∧ c.FirstDefect (.ofIndex 2) d ∧
      ∀ n op s p costs x, n.index < 2 → c.get? n = some op → s ∈ op.strategies →
        (p, costs) ∈ op.predecessors.zip s.costs → x ∈ costs → x.isNaN = false ∧ ¬ x < 0 := by
  obtain ⟨hcheck, hpasses, -⟩ := check_decides (chained 2.5 []) (by decide)
  have hnone : (chained 2.5 []).defect? = none := by decide +kernel
  rw [hnone] at hcheck
  refine ⟨⟨hcheck, hpasses.1 hnone⟩, ?_⟩
  intro c d
  have hfits : c.Fits := by decide
  obtain ⟨hcheck, -, hfirst⟩ := check_decides c hfits
  have hsome : c.defect? = some d := by decide +kernel
  rw [hsome] at hcheck
  obtain ⟨n, -, -, -, hfirst⟩ := hfirst _ hsome
  obtain rfl : n = .ofIndex 2 := by
    have hexhibits : c.Exhibits n (.invalidCost (.ofIndex 2) 0 (.ofIndex 1) (0 / 0)) :=
      hfirst.exhibits
    cases hexhibits
    rfl
  refine ⟨hfits, hcheck, hfirst, ?_⟩
  intro n op s p costs x hlt hop hs hp hx
  exact Binary64.valid_iff.1 ((hfirst.before hlt hop).valid_cost hs hp hx)

end Reshard.Catalog
