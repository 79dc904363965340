import Mathlib.Data.List.ReduceOption
import Reshard.Proofs.Catalog.Document
import Reshard.Proofs.Residual
import Reshard.Residual.Document

/-! A residual problem is read back from its document.

    The document of a problem keeps all of it, provided that the costs it lists are finite and its
    counts fit into a machine word: a cost that was left out, extra costs that a node does not
    carry, and empty lists each have a form of their own. The problems that a reduction leaves to a
    solver are of this kind, and so are those that were read from any text. -/

namespace Reshard

open Json

variable {α : Type}

namespace Residual

/-! ### What a document can keep -/

/-- The costs that are listed for a node. -/
def Node.costs (n : Node α) : List α := (n.extra.getD []).reduceOption

/-- The costs that a problem lists. -/
def listedCosts (p : Residual α) : List α :=
  p.nodes.flatMap Node.costs ++ p.edges.flatMap fun e => e.costs.reduceOption

/-- The counts and positions in a problem. -/
def counts (p : Residual α) : List Nat :=
  p.nodes.map (·.width) ++ p.edges.flatMap (fun e => [e.rows, e.cols]) ++
    p.absorbed.flatMap (·.map)

theorem forall_mem_listedCosts {p : Residual α} {P : α → Prop} : (∀ x ∈ p.listedCosts, P x) ↔
    (∀ n ∈ p.nodes, ∀ x ∈ n.costs, P x) ∧ ∀ e ∈ p.edges, ∀ x ∈ e.costs.reduceOption, P x := by
  rw [listedCosts, List.forall_mem_append, List.forall_mem_flatMap, List.forall_mem_flatMap]

theorem forall_mem_counts {p : Residual α} {P : Nat → Prop} : (∀ n ∈ p.counts, P n) ↔
    (∀ n ∈ p.nodes, P n.width) ∧ (∀ e ∈ p.edges, ∀ n ∈ [e.rows, e.cols], P n) ∧
      ∀ a ∈ p.absorbed, ∀ n ∈ a.map, P n := by
  rw [counts, List.append_assoc, List.forall_mem_append, List.forall_mem_append,
    List.forall_mem_map, List.forall_mem_flatMap, List.forall_mem_flatMap]

variable [Cost α]

/-- The costs that the problem lists are numbers, and its counts fit into a machine word. -/
structure Writable (p : Residual α) : Prop where
  isFinite : ∀ c ∈ p.listedCosts, Cost.isFinite c
  count_le : ∀ n ∈ p.counts, n ≤ maxCount

variable [CostFormat α] {v : Json}

/-! ### Costs -/

/-- A cost that is left out has a form of its own. -/
theorem costOfJson?_costToJson {c : Option α}
    (hkept : ∀ x, c = some x → Cost.isFinite x ∧ Cost.ReadsBack x) :
    costOfJson? (costToJson c) = some c := by
  cases c with
  | none => rfl
  | some x =>
    obtain ⟨hfinite, hback⟩ := hkept x rfl
    simp [costToJson, Cost.finite?, hfinite, costOfJson?, optional?, Cost.finiteOfJson?,
      hback hfinite]

theorem items?_costs {costs : List (Option α)}
    (hkept : ∀ x ∈ costs.reduceOption, Cost.isFinite x ∧ Cost.ReadsBack x) :
    (list (costs.map costToJson)).items? costOfJson? = some costs :=
  items?_map fun _ hc => costOfJson?_costToJson fun x hsame =>
    hkept x (List.reduceOption_mem_iff.2 (hsame ▸ hc))

theorem isFinite_of_costOfJson? [LawfulCostFormat α] {x : α}
    (hread : costOfJson? v = some (some x)) : Cost.isFinite x := by
  unfold costOfJson? optional? at hread
  split at hread
  · cases hread
  · obtain ⟨y, hnumber, h⟩ := Option.map_eq_some_iff.1 hread
    cases h
    exact Cost.isFinite_of_finiteOfJson? hnumber

theorem isFinite_of_items? [LawfulCostFormat α] {costs : List (Option α)}
    (hread : v.items? costOfJson? = some costs) : ∀ x ∈ costs.reduceOption, Cost.isFinite x := by
  intro x hx
  obtain ⟨_, hcost⟩ := exists_of_mem_items? hread (List.reduceOption_mem_iff.1 hx)
  exact isFinite_of_costOfJson? hcost

/-! ### Live nodes -/

namespace Node

variable {n : Node α}

omit [Cost α] in
theorem ofJson?_eq_some_iff : ofJson? v = some n ↔ ∃ id name width extra,
    v.fields? fields 4 = some [some id, some name, some width, extra] ∧
      NodeId.ofJson? id = some n.id ∧ name.text? = some n.name ∧ width.count? = some n.width ∧
      extra.elim (some none) (optional? (items? costOfJson?)) = some n.extra := by
  simp only [ofJson?, bind, Option.bind_eq_some_iff, pure]
  constructor
  · rintro ⟨found, hread, h⟩
    split at h
    · simp only [Option.bind_eq_some_iff, Option.some.injEq] at h
      obtain ⟨id, hid, name, hname, width, hwidth, extra, hextra, rfl⟩ := h
      exact ⟨_, _, _, _, hread, hid, hname, hwidth, hextra⟩
    · cases h
  · rintro ⟨_, _, _, _, hread, hid, hname, hwidth, hextra⟩
    exact ⟨_, hread, by simp [hid, hname, hwidth, hextra]⟩

/-- Missing extra costs and an empty list of them are kept apart. -/
theorem ofJson?_toJson (hkept : ∀ x ∈ n.costs, Cost.isFinite x ∧ Cost.ReadsBack x)
    (hsmall : n.width ≤ maxCount) : ofJson? n.toJson = some n := by
  refine ofJson?_eq_some_iff.2 ⟨_, _, _, _, fields?_ofMembers (by decide) rfl 4,
    n.id.ofJson?_toJson, rfl, count?_nat hsmall, ?_⟩
  cases hextra : n.extra with
  | none => rfl
  | some listed =>
    have hread := items?_costs fun x hx => hkept x (by rwa [costs, hextra])
    exact congrArg (Option.map some) hread

theorem of_ofJson? [LawfulCostFormat α] (hread : ofJson? v = some n) :
    (∀ x ∈ n.costs, Cost.isFinite x) ∧ n.width ≤ maxCount := by
  obtain ⟨_, _, width, extra, -, -, -, hcount, hextra⟩ := ofJson?_eq_some_iff.1 hread
  refine ⟨?_, le_of_count? hcount⟩
  rw [costs]
  cases hsame : n.extra with
  | none => nofun
  | some listed =>
    rw [hsame] at hextra
    cases extra with
    | none => cases hextra
    | some w =>
      simp only [Option.elim, optional?] at hextra
      split at hextra
      · cases hextra
      · obtain ⟨listed', hitems, h⟩ := Option.map_eq_some_iff.1 hextra
        cases h
        exact isFinite_of_items? hitems

end Node

/-! ### Edges -/

namespace Pairing

variable {e : Pairing α}

omit [Cost α] in
theorem ofJson?_eq_some_iff : ofJson? v = some e ↔ ∃ src dst rows cols costs,
    v.fields? fields 5 = some [some src, some dst, some rows, some cols, some costs] ∧
      NodeId.ofJson? src = some e.edge.src ∧ NodeId.ofJson? dst = some e.edge.dst ∧
      rows.count? = some e.rows ∧ cols.count? = some e.cols ∧
      costs.items? costOfJson? = some e.costs := by
  simp only [ofJson?, bind, Option.bind_eq_some_iff, pure]
  constructor
  · rintro ⟨found, hread, h⟩
    split at h
    · simp only [Option.bind_eq_some_iff, Option.some.injEq] at h
      obtain ⟨src, hsrc, dst, hdst, rows, hrows, cols, hcols, costs, hcosts, rfl⟩ := h
      exact ⟨_, _, _, _, _, hread, hsrc, hdst, hrows, hcols, hcosts⟩
    · cases h
  · rintro ⟨_, _, _, _, _, hread, hsrc, hdst, hrows, hcols, hcosts⟩
    exact ⟨_, hread, by simp [hsrc, hdst, hrows, hcols, hcosts]⟩

theorem ofJson?_toJson (hkept : ∀ x ∈ e.costs.reduceOption, Cost.isFinite x ∧ Cost.ReadsBack x)
    (hsmall : ∀ n ∈ [e.rows, e.cols], n ≤ maxCount) : ofJson? e.toJson = some e := by
  obtain ⟨hrows, hcols⟩ : e.rows ≤ maxCount ∧ e.cols ≤ maxCount := by simpa using hsmall
  exact ofJson?_eq_some_iff.2 ⟨_, _, _, _, _, fields?_ofMembers (by decide) rfl 5,
    e.edge.src.ofJson?_toJson, e.edge.dst.ofJson?_toJson, count?_nat hrows, count?_nat hcols,
    items?_costs hkept⟩

theorem of_ofJson? [LawfulCostFormat α] (hread : ofJson? v = some e) :
    (∀ x ∈ e.costs.reduceOption, Cost.isFinite x) ∧ ∀ n ∈ [e.rows, e.cols], n ≤ maxCount := by
  obtain ⟨_, _, _, _, _, -, -, -, hrows, hcols, hcosts⟩ := ofJson?_eq_some_iff.1 hread
  exact ⟨isFinite_of_items? hcosts, by simp [le_of_count? hrows, le_of_count? hcols]⟩

end Pairing

/-! ### Absorbed nodes -/

namespace Absorbed

variable {a : Absorbed}

theorem ofJson?_eq_some_iff : ofJson? v = some a ↔ ∃ id representative map,
    v.fields? fields 3 = some [some id, some representative, some map] ∧
      NodeId.ofJson? id = some a.id ∧ NodeId.ofJson? representative = some a.representative ∧
      map.items? count? = some a.map := by
  simp only [ofJson?, bind, Option.bind_eq_some_iff, pure]
  constructor
  · rintro ⟨found, hread, h⟩
    split at h
    · simp only [Option.bind_eq_some_iff, Option.some.injEq] at h
      obtain ⟨id, hid, representative, hrepresentative, map, hmap, rfl⟩ := h
      exact ⟨_, _, _, hread, hid, hrepresentative, hmap⟩
    · cases h
  · rintro ⟨_, _, _, hread, hid, hrepresentative, hmap⟩
    exact ⟨_, hread, by simp [hid, hrepresentative, hmap]⟩

theorem ofJson?_toJson (hsmall : ∀ n ∈ a.map, n ≤ maxCount) : ofJson? a.toJson = some a :=
  ofJson?_eq_some_iff.2 ⟨_, _, _, fields?_ofMembers (by decide) rfl 3, a.id.ofJson?_toJson,
    a.representative.ofJson?_toJson, items?_map fun n hn => count?_nat (hsmall n hn)⟩

theorem of_ofJson? (hread : ofJson? v = some a) : ∀ n ∈ a.map, n ≤ maxCount := by
  obtain ⟨_, _, _, -, -, -, hmap⟩ := ofJson?_eq_some_iff.1 hread
  intro n hn
  obtain ⟨_, hcount⟩ := exists_of_mem_items? hmap hn
  exact le_of_count? hcount

end Absorbed

/-! ### Problems -/

variable {p : Residual α} {document : String}

omit [Cost α] in
theorem ofJson?_eq_some_iff : ofJson? v = some p ↔ ∃ nodes edges absorbed,
    v.fields? fields 3 = some [some nodes, some edges, some absorbed] ∧
      nodes.items? Node.ofJson? = some p.nodes ∧ edges.items? Pairing.ofJson? = some p.edges ∧
      absorbed.items? Absorbed.ofJson? = some p.absorbed := by
  simp only [ofJson?, bind, Option.bind_eq_some_iff, pure]
  constructor
  · rintro ⟨found, hread, h⟩
    split at h
    · simp only [Option.bind_eq_some_iff, Option.some.injEq] at h
      obtain ⟨nodes, hnodes, edges, hedges, absorbed, habsorbed, rfl⟩ := h
      exact ⟨_, _, _, hread, hnodes, hedges, habsorbed⟩
    · cases h
  · rintro ⟨_, _, _, hread, hnodes, hedges, habsorbed⟩
    exact ⟨_, hread, by simp [hnodes, hedges, habsorbed]⟩

theorem ofJson?_toJson (hwritable : p.Writable) (hback : ∀ x ∈ p.listedCosts, Cost.ReadsBack x) :
    ofJson? p.toJson = some p := by
  have hkept : ∀ x ∈ p.listedCosts, Cost.isFinite x ∧ Cost.ReadsBack x :=
    fun x hx => ⟨hwritable.isFinite x hx, hback x hx⟩
  obtain ⟨hnodes, hedges⟩ := forall_mem_listedCosts.1 hkept
  obtain ⟨hwidths, hshapes, hmaps⟩ := forall_mem_counts.1 hwritable.count_le
  exact ofJson?_eq_some_iff.2 ⟨_, _, _, fields?_ofMembers (by decide) rfl 3,
    items?_map fun n hn => Node.ofJson?_toJson (hnodes n hn) (hwidths n hn),
    items?_map fun e he => Pairing.ofJson?_toJson (hedges e he) (hshapes e he),
    items?_map fun a ha => Absorbed.ofJson?_toJson (hmaps a ha)⟩

theorem writable_of_ofJson? [LawfulCostFormat α] (hread : ofJson? v = some p) : p.Writable := by
  obtain ⟨_, _, _, -, hnodes, hedges, habsorbed⟩ := ofJson?_eq_some_iff.1 hread
  have hnode : ∀ n ∈ p.nodes, (∀ x ∈ n.costs, Cost.isFinite x) ∧ n.width ≤ maxCount :=
    fun n hn => (exists_of_mem_items? hnodes hn).elim fun _ => Node.of_ofJson?
  have hedge : ∀ e ∈ p.edges, (∀ x ∈ e.costs.reduceOption, Cost.isFinite x) ∧
      ∀ n ∈ [e.rows, e.cols], n ≤ maxCount :=
    fun e he => (exists_of_mem_items? hedges he).elim fun _ => Pairing.of_ofJson?
  have hentry : ∀ a ∈ p.absorbed, ∀ n ∈ a.map, n ≤ maxCount :=
    fun a ha => (exists_of_mem_items? habsorbed ha).elim fun _ => Absorbed.of_ofJson?
  exact
    { isFinite := forall_mem_listedCosts.2
        ⟨fun n hn => (hnode n hn).1, fun e he => (hedge e he).1⟩
      count_le := forall_mem_counts.2
        ⟨fun n hn => (hnode n hn).2, fun e he => (hedge e he).2, hentry⟩ }

omit [Cost α] in
theorem decode_ok_iff : decode document = .ok p ↔
    ∃ v, parse? document = some v ∧ ofJson? v = some p := by
  rw [decode, Fault.require_ok_iff, Option.bind_eq_bind, Option.bind_eq_some_iff]

theorem decode_encode (hwritable : p.Writable) (hback : ∀ x ∈ p.listedCosts, Cost.ReadsBack x) :
    decode p.encode = .ok p :=
  decode_ok_iff.2 ⟨_, parse?_render Style.compact_blank _, ofJson?_toJson hwritable hback⟩

theorem writable_of_decode [LawfulCostFormat α] (hread : decode document = .ok p) : p.Writable := by
  obtain ⟨v, -, hread⟩ := decode_ok_iff.1 hread
  exact writable_of_ofJson? hread

/-! ### Problems of reductions -/

omit [CostFormat α]

variable {r : Reduction α} {settings : Settings α} {c : Catalog α}

theorem isFinite_of_mem_finite? {costs : List α} :
    ∀ x ∈ (costs.map Cost.finite?).reduceOption, Cost.isFinite x := by
  intro x hx
  obtain ⟨y, -, hy⟩ := List.mem_map.1 (List.reduceOption_mem_iff.1 hx)
  unfold Cost.finite? at hy
  split at hy
  · next hfinite => exact Option.some.inj hy ▸ hfinite
  · cases hy

/-- A problem lists finite costs only. -/
theorem isFinite_of_ofReduction (hp : ofReduction r = .ok p) :
    ∀ x ∈ p.listedCosts, Cost.isFinite x := by
  obtain ⟨order, absorptions, -, -, hnodes, hedges, -⟩ := ofReduction_ok_iff.1 hp
  rw [forall_mem_listedCosts, hnodes, hedges, List.forall_mem_map, List.forall_mem_map]
  refine ⟨fun n _ => ?_, fun e _ => isFinite_of_mem_finite?⟩
  rw [Node.costs, nodeOf]
  cases r.graph.extra? n with
  | none => exact fun x hx => absurd hx List.not_mem_nil
  | some extra => exact isFinite_of_mem_finite?

/-- The counts and positions in a problem are bounded by the numbers of strategies. -/
theorem count_le_of_ofReduction (hr : r.toStage.Coherent) (hp : ofReduction r = .ok p)
    {bound : Nat} (hbound : ∀ n w, r.graph.width? n = some w → w ≤ bound) :
    ∀ n ∈ p.counts, n ≤ bound := by
  obtain ⟨order, absorptions, -, hsettled, hnodes, hedges, habsorbed⟩ := ofReduction_ok_iff.1 hp
  have hends := Absorptions.ends_of_settled hr.composable hr.right hsettled
  obtain ⟨resolved, hsettled', hright, -⟩ :=
    Absorptions.exists_settled (α := α) hr.composable hr.right hends
  cases hsettled.symm.trans hsettled'
  rw [forall_mem_counts, hnodes, hedges, habsorbed, List.forall_mem_map, List.forall_mem_map,
    List.forall_mem_map]
  refine ⟨fun n _ => ?_, fun e he => ?_, fun entry hentry => ?_⟩
  · show (r.graph.width? n).getD 0 ≤ bound
    cases hw : r.graph.width? n with
    | none => exact Nat.zero_le _
    | some w => exact hbound n w hw
  · have hshape := hr.graph.table_shape (Std.ExtTreeMap.mem_toList_iff_getElem?_eq_some.1 he)
    have hrows := hbound _ _ hshape.1
    have hcols := hbound _ _ hshape.2
    simp [pairingOf, hrows, hcols]
  · -- at the stage where all chains are resolved
    let s : Stage α := ⟨r.graph, { r.absorptions with resolved }⟩
    have hs : s.Coherent := ⟨hr.graph, hr.mem_entries, hr.width_into, hr.lt_width, hright⟩
    have hn := Std.ExtTreeMap.mem_toList_iff_getElem?_eq_some.1 hentry
    obtain ⟨-, w, hw, hlt⟩ := hs.maps_resolved hn
    exact fun j hj => (hlt j hj).le.trans (hbound _ w hw)

/-- The problems that runs of calls leave to a solver can be written. -/
theorem writable_of_run {event : Event α} (hfits : c.Fits)
    (hwords : ∀ op ∈ c.operators, op.width ≤ maxCount)
    (hstart : Reduction.start settings c = .ok (r, event)) (calls : List Call)
    (hp : ofReduction (r.run calls) = .ok p) : p.Writable := by
  have h := Reduction.of_start_ok hfits hstart
  refine ⟨isFinite_of_ofReduction hp,
    count_le_of_ofReduction (Reduction.coherent_run calls h.coherent) hp fun n w hw => ?_⟩
  rw [h.width?_run, Catalog.width?, Option.map_eq_some_iff] at hw
  obtain ⟨op, hop, rfl⟩ := hw
  exact hwords op (List.mem_of_getElem? hop)

/-- A problem and its document stand for each other. -/
structure RoundTrips (p : Residual Float) : Prop where
  decode_encode : p.Writable → (∀ x ∈ p.listedCosts, Cost.ReadsBack x) → decode p.encode = .ok p
  encode_inj {q : Residual Float} : p.Writable → (∀ x ∈ p.listedCosts, Cost.ReadsBack x) →
    q.Writable → (∀ x ∈ q.listedCosts, Cost.ReadsBack x) → p.encode = q.encode → p = q
  writable_of_run {settings : Settings Float} {c : Catalog Float} {r : Reduction Float}
    {event : Event Float} (calls : List Call) : c.Fits →
    (∀ op ∈ c.operators, op.width ≤ maxCount) → Reduction.start settings c = .ok (r, event) →
    ofReduction (r.run calls) = .ok p → p.Writable
  writable_of_decode {text : String} : decode text = .ok p → p.Writable

/-- A problem is read back from its document if its costs are numbers and its counts fit into a
    machine word, so no two such problems have the same document. The problems that a run of calls
    leaves to a solver are of this kind, and so are those that were read from any text. -/
theorem residual_roundTrip (p : Residual Float) : p.RoundTrips where
  decode_encode := decode_encode
  encode_inj := by
    intro q hp hback hq hback' hsame
    have hread := decode_encode hp hback
    rw [hsame, decode_encode hq hback'] at hread
    exact (Except.ok.inj hread).symm
  writable_of_run := fun calls hfits hwords hstart hp =>
    writable_of_run hfits hwords hstart calls hp
  writable_of_decode := writable_of_decode

/-- The node in the middle is absorbed by the one before it, and one of its costs is infeasible. -/
def relay : Catalog Float where
  operators :=
    [⟨"\"src\"", [], [.ofIndex 1], [⟨"s", []⟩, ⟨"t", []⟩], false⟩,
      ⟨"mid\\", [.ofIndex 0], [.ofIndex 2], [⟨"s", [[0.5, 9]]⟩, ⟨"t", [[3, 1 / 0]]⟩], true⟩,
      ⟨"é", [.ofIndex 1], [], [⟨"s", [[2.5, 0.1]]⟩], false⟩]

/-- One node that carries the given extra costs. -/
def lone (extra : Option (List (Option Float))) : Residual Float :=
  ⟨[⟨.ofIndex 0, "\n", 1, extra⟩], [], []⟩

theorem relay_residual_roundTrip :
    (∃ r event p, Reduction.start {} relay = .ok (r, event) ∧
      ofReduction (r.run [.merge ⟨.ofIndex 0, .ofIndex 1⟩]) = .ok p ∧ p.Writable ∧
      decode p.encode = .ok p) ∧
    (lone none).encode ≠ (lone (some [])).encode ∧
    (lone (some [])).encode ≠ (lone (some [none])).encode := by
  have hnone : (lone none).Writable := ⟨by decide, by decide⟩
  have hnil : (lone (some [])).Writable := ⟨by decide, by decide⟩
  have hsingle : (lone (some [none])).Writable := ⟨by decide, by decide⟩
  refine ⟨?_, fun hsame => ?_, fun hsame => ?_⟩
  · let calls : List Call := [.merge ⟨.ofIndex 0, .ofIndex 1⟩]
    have hrun : (Reduction.start {} relay).toOption.any fun s => decide <|
        (ofReduction (s.1.run calls)).toOption.any fun p =>
          decide (∀ x ∈ p.listedCosts, Cost.ReadsBack x) := by
      decide +kernel
    obtain ⟨⟨r, event⟩, hstart, hproblem⟩ := exists_of_any hrun
    obtain ⟨p, hp, hback⟩ := exists_of_any hproblem
    have hwritable : p.Writable :=
      (residual_roundTrip p).writable_of_run calls (by decide) (by decide) hstart hp
    have hread : decode p.encode = .ok p := (residual_roundTrip p).decode_encode hwritable hback
    exact ⟨r, event, p, hstart, hp, (residual_roundTrip p).writable_of_decode hread, hread⟩
  · exact absurd ((residual_roundTrip _).encode_inj hnone (by decide) hnil (by decide) hsame)
      (by decide)
  · exact absurd ((residual_roundTrip _).encode_inj hnil (by decide) hsingle (by decide) hsame)
      (by decide)

end Residual

end Reshard
