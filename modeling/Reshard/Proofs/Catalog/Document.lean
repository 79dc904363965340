import Reshard.Catalog.Document
import Reshard.Proofs.Cost.Binary64
import Reshard.Proofs.Json.Fields
import Reshard.Proofs.Json.Value

/-! A catalog is read back from its document.

    A cost has a form in a document if it is finite or infeasible, and a catalog has one if all its
    costs do. Level by level, from costs over strategies and nodes to the whole catalog, what is
    written is read back, null stands for the infeasible costs and for nothing else, and whatever is
    read has a form again. That the numeral of a finite cost is read as that cost is assumed of each
    cost; the rest is proved of the writer and the reader. -/

namespace Reshard

open Json

variable {α : Type} [Cost α] [CostFormat α] [LawfulCostFormat α] {v : Json} {path : List Step}

/-! ### Ids -/

namespace NodeId

theorem ofJson?_toJson (id : NodeId) : ofJson? id.toJson = some id := by
  rw [ofJson?, toJson, count?_nat (Nat.le_trans id.index_le (by decide))]
  exact ofIndex?_eq_some_iff.2 rfl

end NodeId

/-! ### Costs -/

namespace Cost

variable {c : α}

theorem toJson_infeasible : toJson (infeasible : α) = .ok .null := by
  rw [toJson, LawfulCostFormat.isFinite_infeasible, if_neg (by decide),
    if_pos (isInfeasible_iff.2 rfl)]

/-- A cost is written as its numeral if it is finite, and as null if it is infeasible. -/
theorem toJson_ok_iff : toJson c = .ok v ↔
    (isFinite c ∧ v = .num (CostFormat.numeral c)) ∨ (c = infeasible ∧ v = .null) := by
  by_cases hfinite : isFinite c
  · simp [toJson, hfinite, ne_infeasible hfinite, eq_comm]
  · by_cases hinfinite : c = infeasible
    · subst hinfinite
      simp [toJson_infeasible, hfinite, eq_comm]
    · simp [toJson, hfinite, hinfinite, isInfeasible_iff]

theorem exists_toJson_iff : (∃ v, toJson c = .ok v) ↔ Writable c := by
  simp only [toJson_ok_iff, exists_or, exists_and_left, exists_eq, and_true, Writable]

theorem ofJson?_of_toJson (hback : ReadsBack c) (hwritten : toJson c = .ok v) :
    ofJson? v = some c := by
  rcases toJson_ok_iff.1 hwritten with ⟨hfinite, rfl⟩ | ⟨rfl, rfl⟩
  · simp [ofJson?, optional?, finiteOfJson?, hback hfinite]
  · rfl

theorem nullAt_iff (hwritten : toJson c = .ok v) :
    v.NullAt path ↔ path = [] ∧ c = infeasible := by
  rcases toJson_ok_iff.1 hwritten with ⟨hfinite, rfl⟩ | ⟨rfl, rfl⟩
  · simp [ne_infeasible hfinite]
  · simp

theorem isFinite_of_finiteOfJson? (hread : finiteOfJson? v = some c) : isFinite c := by
  unfold finiteOfJson? at hread
  split at hread
  · exact LawfulCostFormat.isFinite_of_ofNumeral? hread
  · cases hread

theorem writable_of_ofJson? (hread : ofJson? v = some c) : Writable c := by
  simp only [ofJson?, bind, Option.bind_eq_some_iff, pure, Option.some.injEq] at hread
  obtain ⟨found, hread, rfl⟩ := hread
  unfold optional? at hread
  split at hread
  · cases hread
    exact .inr rfl
  · obtain ⟨x, hnumber, rfl⟩ := Option.map_eq_some_iff.1 hread
    exact .inl (isFinite_of_finiteOfJson? hnumber)

end Cost

/-! ### Strategies -/

namespace Strategy

variable {s : Strategy α}

/-- The path leads to an infeasible cost of the strategy. -/
def InfeasibleAt (s : Strategy α) (path : List Step) : Prop :=
  ∃ k row p, path = [.member "resharding_costs", .item k, .item p] ∧ s.costs[k]? = some row ∧
    row[p]? = some Cost.infeasible

/-- How a row of costs is written. -/
def WritesRow (row : List α) (v : Json) : Prop :=
  ∃ values, List.Forall₂ (fun c v => Cost.toJson c = .ok v) row values ∧ .list values = v

omit [LawfulCostFormat α] in
theorem toJson_ok_iff : s.toJson = .ok v ↔ ∃ values, List.Forall₂ WritesRow s.costs values ∧
    .ofMembers (fields.zip [.text s.name, .list values]) = v := by
  unfold WritesRow
  simp only [toJson, bind_ok_iff, pure_ok_iff, mapM_ok_iff, forall₂_map_iff]
  constructor
  · rintro ⟨lines, hwritten, rfl⟩
    exact ⟨_, ⟨lines, hwritten, rfl⟩, rfl⟩
  · rintro ⟨_, ⟨lines, hwritten, rfl⟩, rfl⟩
    exact ⟨lines, hwritten, rfl⟩

theorem exists_toJson_iff : (∃ v, s.toJson = .ok v) ↔ ∀ c ∈ s.costs.flatten, Cost.Writable c := by
  simp only [toJson_ok_iff, List.forall_mem_flatten, ← Cost.exists_toJson_iff]
  rw [exists_of_forall₂_iff]
  exact forall₂_congr fun row _ => exists_of_forall₂_iff

omit [LawfulCostFormat α] in
theorem ofJson?_eq_some_iff : ofJson? v = some s ↔ ∃ name costs,
    v.fields? fields 2 = some [some name, some costs] ∧ name.text? = some s.name ∧
      costs.items? (items? Cost.ofJson?) = some s.costs := by
  simp only [ofJson?, bind, Option.bind_eq_some_iff, pure]
  constructor
  · rintro ⟨found, hread, h⟩
    split at h
    · simp only [Option.bind_eq_some_iff, Option.some.injEq] at h
      obtain ⟨name, hname, costs, hcosts, rfl⟩ := h
      exact ⟨_, _, hread, hname, hcosts⟩
    · cases h
  · rintro ⟨name, costs, hread, hname, hcosts⟩
    exact ⟨_, hread, by simp [hname, hcosts]⟩

theorem ofJson?_of_toJson (hback : ∀ c ∈ s.costs.flatten, Cost.ReadsBack c)
    (hwritten : s.toJson = .ok v) : ofJson? v = some s := by
  obtain ⟨values, hcosts, rfl⟩ := toJson_ok_iff.1 hwritten
  refine ofJson?_eq_some_iff.2 ⟨_, _, fields?_ofMembers (by decide) rfl 2, rfl, ?_⟩
  refine items?_of_forall₂ hcosts ?_
  rintro row hrow _ ⟨values, hrow', rfl⟩
  exact items?_of_forall₂ hrow' fun c hc v =>
    Cost.ofJson?_of_toJson (hback c (List.mem_flatten.2 ⟨row, hrow, hc⟩))

theorem nullAt_row_iff {row : List α} (hwritten : WritesRow row v) :
    v.NullAt path ↔ ∃ p, path = [.item p] ∧ row[p]? = some Cost.infeasible := by
  obtain ⟨values, hwritten, rfl⟩ := hwritten
  rw [nullAt_list_of_forall₂ hwritten fun c v h path => Cost.nullAt_iff h]
  constructor
  · rintro ⟨p, c, _, rfl, hfound, rfl, rfl⟩
    exact ⟨p, rfl, hfound⟩
  · rintro ⟨p, rfl, hfound⟩
    exact ⟨p, _, [], rfl, hfound, rfl, rfl⟩

theorem nullAt_iff (hwritten : s.toJson = .ok v) : v.NullAt path ↔ s.InfeasibleAt path := by
  obtain ⟨values, hcosts, rfl⟩ := toJson_ok_iff.1 hwritten
  have hmem : ("resharding_costs", list values) ∈ fields.zip [text s.name, list values] := by
    simp [fields]
  rw [nullAt_ofMembers_of_forall (by decide) rfl hmem (by simp [fields])]
  simp only [nullAt_list_of_forall₂ hcosts fun row v h path => nullAt_row_iff h]
  constructor
  · rintro ⟨_, rfl, k, row, _, rfl, hrow, p, rfl, hp⟩
    exact ⟨k, row, p, rfl, hrow, hp⟩
  · rintro ⟨k, row, p, rfl, hrow, hp⟩
    exact ⟨_, rfl, k, row, _, rfl, hrow, p, rfl, hp⟩

theorem writable_of_ofJson? (hread : ofJson? v = some s) :
    ∀ c ∈ s.costs.flatten, Cost.Writable c := by
  obtain ⟨_, _, -, -, hcosts⟩ := ofJson?_eq_some_iff.1 hread
  intro c hc
  obtain ⟨row, hrow, hc⟩ := List.mem_flatten.1 hc
  obtain ⟨_, hitems⟩ := exists_of_mem_items? hcosts hrow
  obtain ⟨_, hcost⟩ := exists_of_mem_items? hitems hc
  exact Cost.writable_of_ofJson? hcost

end Strategy

/-! ### Declared nodes -/

namespace Operator

variable {op : Operator α}

/-- The path leads to an infeasible cost of one of the strategies. -/
def InfeasibleAt (op : Operator α) (path : List Step) : Prop :=
  ∃ i s path', path = .member "strategies" :: .item i :: path' ∧ op.strategies[i]? = some s ∧
    s.InfeasibleAt path'

/-- The costs of all strategies. -/
def costs (op : Operator α) : List α := op.strategies.flatMap fun s => s.costs.flatten

omit [LawfulCostFormat α] in
theorem toJson_ok_iff : op.toJson = .ok v ↔ ∃ values,
    List.Forall₂ (fun s v => s.toJson = .ok v) op.strategies values ∧
      .ofMembers (fields.zip [.text op.name, .list (op.predecessors.map NodeId.toJson),
        .list (op.successors.map NodeId.toJson), .list values, .bool op.mergeable]) = v := by
  simp only [toJson, bind_ok_iff, pure_ok_iff, mapM_ok_iff]

theorem exists_toJson_iff : (∃ v, op.toJson = .ok v) ↔ ∀ c ∈ op.costs, Cost.Writable c := by
  simp only [toJson_ok_iff, costs, List.forall_mem_flatMap, ← Strategy.exists_toJson_iff]
  exact exists_of_forall₂_iff

omit [LawfulCostFormat α] in
theorem ofJson?_eq_some_iff : ofJson? v = some op ↔
    ∃ name predecessors successors strategies mergeable,
      v.fields? fields 4 =
        some [some name, some predecessors, some successors, some strategies, mergeable] ∧
      name.text? = some op.name ∧ predecessors.items? NodeId.ofJson? = some op.predecessors ∧
      successors.items? NodeId.ofJson? = some op.successors ∧
      strategies.items? Strategy.ofJson? = some op.strategies ∧
      mergeable.elim (some false) Json.bool? = some op.mergeable := by
  simp only [ofJson?, bind, Option.bind_eq_some_iff, pure]
  constructor
  · rintro ⟨found, hread, h⟩
    split at h
    · simp only [Option.bind_eq_some_iff, Option.some.injEq] at h
      obtain ⟨name, hname, predecessors, hpredecessors, successors, hsuccessors, strategies,
        hstrategies, mergeable, hmergeable, rfl⟩ := h
      exact ⟨_, _, _, _, _, hread, hname, hpredecessors, hsuccessors, hstrategies, hmergeable⟩
    · cases h
  · rintro ⟨_, _, _, _, _, hread, hname, hpredecessors, hsuccessors, hstrategies, hmergeable⟩
    exact ⟨_, hread, by simp [hname, hpredecessors, hsuccessors, hstrategies, hmergeable]⟩

theorem ofJson?_of_toJson (hback : ∀ c ∈ op.costs, Cost.ReadsBack c)
    (hwritten : op.toJson = .ok v) : ofJson? v = some op := by
  obtain ⟨values, hstrategies, rfl⟩ := toJson_ok_iff.1 hwritten
  refine ofJson?_eq_some_iff.2 ⟨_, _, _, _, _, fields?_ofMembers (by decide) rfl 4, rfl,
    items?_map fun id _ => id.ofJson?_toJson, items?_map fun id _ => id.ofJson?_toJson, ?_, rfl⟩
  refine items?_of_forall₂ hstrategies fun s hs v => Strategy.ofJson?_of_toJson ?_
  exact fun c hc => hback c (List.mem_flatMap.2 ⟨s, hs, hc⟩)

theorem nullAt_iff (hwritten : op.toJson = .ok v) : v.NullAt path ↔ op.InfeasibleAt path := by
  obtain ⟨values, hstrategies, rfl⟩ := toJson_ok_iff.1 hwritten
  have hid (id : NodeId) (path : List Step) : ¬ id.toJson.NullAt path := not_nullAt_num
  have hmem : ("strategies", list values) ∈ fields.zip [text op.name,
      list (op.predecessors.map NodeId.toJson), list (op.successors.map NodeId.toJson),
      list values, .bool op.mergeable] := by simp [fields]
  rw [nullAt_ofMembers_of_forall (by decide) rfl hmem
    (by simp [fields, not_nullAt_list_map hid])]
  simp only [nullAt_list_of_forall₂ hstrategies fun s v h path => Strategy.nullAt_iff h]
  constructor
  · rintro ⟨_, rfl, i, s, path', rfl, hs, hends⟩
    exact ⟨i, s, path', rfl, hs, hends⟩
  · rintro ⟨i, s, path', rfl, hs, hends⟩
    exact ⟨_, rfl, i, s, path', rfl, hs, hends⟩

theorem writable_of_ofJson? (hread : ofJson? v = some op) : ∀ c ∈ op.costs, Cost.Writable c := by
  obtain ⟨_, _, _, _, _, -, -, -, -, hstrategies, -⟩ := ofJson?_eq_some_iff.1 hread
  intro c hc
  obtain ⟨s, hs, hc⟩ := List.mem_flatMap.1 hc
  obtain ⟨_, hstrategy⟩ := exists_of_mem_items? hstrategies hs
  exact Strategy.writable_of_ofJson? hstrategy c hc

end Operator

/-! ### Catalogs -/

namespace Catalog

variable {c : Catalog α}

/-- The path leads to an infeasible cost of one of the nodes. -/
def InfeasibleAt (c : Catalog α) (path : List Step) : Prop :=
  ∃ i op path', path = .member "vectors" :: .item i :: path' ∧ c.operators[i]? = some op ∧
    op.InfeasibleAt path'

/-- The costs of all nodes. -/
def costs (c : Catalog α) : List α := c.operators.flatMap Operator.costs

omit [LawfulCostFormat α] in
theorem toJson_ok_iff : c.toJson = .ok v ↔ ∃ values,
    List.Forall₂ (fun op v => op.toJson = .ok v) c.operators values ∧
      .ofMembers (fields.zip [.list values]) = v := by
  simp only [toJson, bind_ok_iff, pure_ok_iff, mapM_ok_iff]

theorem exists_toJson_iff : (∃ v, c.toJson = .ok v) ↔ ∀ x ∈ c.costs, Cost.Writable x := by
  simp only [toJson_ok_iff, costs, List.forall_mem_flatMap, ← Operator.exists_toJson_iff]
  exact exists_of_forall₂_iff

omit [LawfulCostFormat α] in
theorem ofJson?_eq_some_iff : ofJson? v = some c ↔ ∃ operators,
    v.fields? fields 1 = some [some operators] ∧
      operators.items? Operator.ofJson? = some c.operators := by
  simp only [ofJson?, bind, Option.bind_eq_some_iff, pure]
  constructor
  · rintro ⟨found, hread, h⟩
    split at h
    · simp only [Option.bind_eq_some_iff, Option.some.injEq] at h
      obtain ⟨operators, hoperators, rfl⟩ := h
      exact ⟨_, hread, hoperators⟩
    · cases h
  · rintro ⟨_, hread, hoperators⟩
    exact ⟨_, hread, by simp [hoperators]⟩

theorem ofJson?_of_toJson (hback : ∀ x ∈ c.costs, Cost.ReadsBack x)
    (hwritten : c.toJson = .ok v) : ofJson? v = some c := by
  obtain ⟨values, hoperators, rfl⟩ := toJson_ok_iff.1 hwritten
  refine ofJson?_eq_some_iff.2 ⟨_, fields?_ofMembers (by decide) rfl 1, ?_⟩
  refine items?_of_forall₂ hoperators fun op hop v => Operator.ofJson?_of_toJson ?_
  exact fun x hx => hback x (List.mem_flatMap.2 ⟨op, hop, hx⟩)

theorem nullAt_iff (hwritten : c.toJson = .ok v) : v.NullAt path ↔ c.InfeasibleAt path := by
  obtain ⟨values, hoperators, rfl⟩ := toJson_ok_iff.1 hwritten
  have hmem : ("vectors", list values) ∈ fields.zip [list values] := by simp [fields]
  rw [nullAt_ofMembers_of_forall (by decide) rfl hmem (by simp [fields])]
  simp only [nullAt_list_of_forall₂ hoperators fun op v h path => Operator.nullAt_iff h]
  constructor
  · rintro ⟨_, rfl, i, op, path', rfl, hop, hends⟩
    exact ⟨i, op, path', rfl, hop, hends⟩
  · rintro ⟨i, op, path', rfl, hop, hends⟩
    exact ⟨_, rfl, i, op, path', rfl, hop, hends⟩

theorem writable_of_ofJson? (hread : ofJson? v = some c) : ∀ x ∈ c.costs, Cost.Writable x := by
  obtain ⟨_, -, hoperators⟩ := ofJson?_eq_some_iff.1 hread
  intro x hx
  obtain ⟨op, hop, hx⟩ := List.mem_flatMap.1 hx
  obtain ⟨_, hoperator⟩ := exists_of_mem_items? hoperators hop
  exact Operator.writable_of_ofJson? hoperator x hx

/-! ### Documents -/

variable {document : String}

omit [LawfulCostFormat α] in
theorem encode_ok_iff : c.encode = .ok document ↔
    ∃ v, c.toJson = .ok v ∧ v.render .indented = document := by
  rw [encode]
  cases c.toJson <;> simp

theorem exists_encode_iff : (∃ document, c.encode = .ok document) ↔
    ∀ x ∈ c.costs, Cost.Writable x := by
  simp only [encode_ok_iff, ← exists_toJson_iff]
  rw [exists_comm]
  simp only [exists_and_left, exists_eq', and_true]

omit [LawfulCostFormat α] in
theorem decode_ok_iff : decode document = .ok c ↔
    ∃ v, Json.parse? document = some v ∧ ofJson? v = some c := by
  rw [← Option.bind_eq_some_iff, ← Option.bind_eq_bind, decode]
  split
  · next hfound => rw [hfound, Except.ok.injEq, Option.some.injEq]
  · next hmissing => exact ⟨nofun, fun hfound => nomatch hmissing.symm.trans hfound⟩

/-- Null in a document stands for the infeasible costs and for nothing else. -/
theorem nullAt_encode_iff (hwritten : c.encode = .ok document) :
    ∃ v, Json.parse? document = some v ∧ ∀ path, v.NullAt path ↔ c.InfeasibleAt path := by
  obtain ⟨v, hform, rfl⟩ := encode_ok_iff.1 hwritten
  exact ⟨v, parse?_render Style.indented_blank v, fun path => nullAt_iff hform⟩

theorem decode_encode (hback : ∀ x ∈ c.costs, Cost.ReadsBack x)
    (hwritten : c.encode = .ok document) : decode document = .ok c := by
  obtain ⟨v, hform, rfl⟩ := encode_ok_iff.1 hwritten
  exact decode_ok_iff.2
    ⟨v, parse?_render Style.indented_blank v, ofJson?_of_toJson hback hform⟩

theorem writable_of_decode (hread : decode document = .ok c) : ∀ x ∈ c.costs, Cost.Writable x := by
  obtain ⟨v, -, hread⟩ := decode_ok_iff.1 hread
  exact writable_of_ofJson? hread

/-- A catalog and its document stand for each other. -/
structure RoundTrips (c : Catalog α) : Prop where
  exists_encode_iff : (∃ document, c.encode = .ok document) ↔ ∀ x ∈ c.costs, Cost.Writable x
  nullAt_iff {document : String} : c.encode = .ok document →
    ∃ v, Json.parse? document = some v ∧ ∀ path, v.NullAt path ↔ c.InfeasibleAt path
  decode_encode {document : String} : c.encode = .ok document →
    (∀ x ∈ c.costs, Cost.ReadsBack x) → decode document = .ok c
  writable_of_decode {text : String} : decode text = .ok c → ∀ x ∈ c.costs, Cost.Writable x
  /-- What was read from any text has a document, from which it is read again. -/
  exists_encode_of_decode {text : String} : decode text = .ok c →
    ∃ document, c.encode = .ok document ∧
      ((∀ x ∈ c.costs, Cost.ReadsBack x) → decode document = .ok c)

/-- A catalog has a document exactly if its costs are finite or infeasible. In its document, null
    stands for the infeasible costs and for nothing else, and the catalog is read back from it. A
    catalog that was read from any text has a document, too. -/
theorem catalog_roundTrip (c : Catalog Float) : c.RoundTrips where
  exists_encode_iff := exists_encode_iff
  nullAt_iff := nullAt_encode_iff
  decode_encode := fun hwritten hback => decode_encode hback hwritten
  writable_of_decode := writable_of_decode
  exists_encode_of_decode := by
    intro text hread
    obtain ⟨document, hwritten⟩ := exists_encode_iff.2 (writable_of_decode hread)
    exact ⟨document, hwritten, fun hback => decode_encode hback hwritten⟩

/-- Names with a quote, a backslash, control characters and characters beyond ASCII; costs that are
    whole, fractional, tiny, huge, zero with a sign, and infeasible. -/
def motley : Catalog Float where
  operators := [
    ⟨"\"a\\\n\x01", [], [⟨1, by decide⟩], [⟨"", []⟩, ⟨"\x7f/", [[]]⟩], false⟩,
    ⟨"é😀", [⟨0, by decide⟩], [⟨NodeId.maxIndex, by decide⟩],
      [⟨"s", [[1 / 0, 2.5], []]⟩, ⟨"t", [[-0.0, 1e-7, 1e300, 3]]⟩], true⟩]

/-- It is read back from its document. -/
theorem motley_catalog_roundTrip : (∀ x ∈ motley.costs, Cost.Writable x ∧ Cost.ReadsBack x) ∧
    ∃ document, motley.encode = .ok document ∧ decode document = .ok motley := by
  have hcosts : ∀ x ∈ motley.costs, Cost.Writable x ∧ Cost.ReadsBack x := by decide +kernel
  have hback : ∀ x ∈ motley.costs, Cost.ReadsBack x := fun x hx => (hcosts x hx).2
  have h := catalog_roundTrip motley
  obtain ⟨text, hwritten⟩ := h.exists_encode_iff.2 fun x hx => (hcosts x hx).1
  obtain ⟨document, hwritten', hagain⟩ :=
    h.exists_encode_of_decode (h.decode_encode hwritten hback)
  exact ⟨hcosts, document, hwritten', hagain hback⟩

end Catalog

end Reshard
