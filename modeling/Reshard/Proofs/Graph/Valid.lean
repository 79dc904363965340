import Reshard.Proofs.Cost.Bounds
import Reshard.Proofs.Graph.Coherent
import Reshard.Proofs.Graph.Declared

/-! Valid costs.

    The declared costs are valid, and clipping keeps them so. A merge only adds costs of the graph
    to each other and to zero; so if sums of valid costs are valid, all costs of a graph stay valid
    (`ValidCosts.merge`). -/

namespace Reshard

variable {α : Type} [Cost α]

namespace Graph

/-- All costs of the graph are valid. -/
structure ValidCosts (g : Graph α) : Prop where
  cell {e : Edge} {t : CostTable α} {x : α} : g.tables[e]? = some t → x ∈ t.cells → Cost.Valid x
  extra {n : NodeId} {costs : List α} {x : α} : g.extras[n]? = some costs → x ∈ costs →
    Cost.Valid x

variable {g g' : Graph α} {m : Merge α}

theorem ValidCosts.get (hv : g.ValidCosts) {e : Edge} {t : CostTable α} {i j : Nat} {x : α}
    (ht : g.tables[e]? = some t) (hx : t.get? i j = some x) : Cost.Valid x :=
  hv.cell ht (CostTable.mem_cells_iff.2 ⟨i, j, hx⟩)

/-- A charge is a sum of an entry of each of the lists that it reads. -/
theorem valid_of_charge? {t : CostTable α} {base : List α} {extra : Option (List α)} {i j : Nat}
    {x : α} (hadd : ∀ a b : α, Cost.Valid a → Cost.Valid b → Cost.Valid (a + b))
    (hbase : ∀ b ∈ base, Cost.Valid b) (htable : ∀ i j c, t.get? i j = some c → Cost.Valid c)
    (hextra : ∀ costs, extra = some costs → ∀ c ∈ costs, Cost.Valid c)
    (hx : charge? t base extra i j = some x) : Cost.Valid x := by
  simp only [charge?, Option.bind_eq_bind, Option.bind_eq_some_iff] at hx
  obtain ⟨b, hb, c, hc, hx⟩ := hx
  have hpaid : Cost.Valid (b + c) :=
    hadd b c (hbase b (List.mem_of_getElem? hb)) (htable i j c hc)
  cases extra with
  | none =>
    cases hx
    exact hpaid
  | some costs =>
    obtain ⟨y, hy, hx⟩ := Option.bind_eq_some_iff.1 hx
    cases hx
    exact hadd _ y hpaid (hextra costs rfl y (List.mem_of_getElem? hy))

namespace Plan

variable (hm : g.Plan m) (h : g.Shaped) (hv : g.ValidCosts)
  (hadd : ∀ a b : α, Cost.Valid a → Cost.Valid b → Cost.Valid (a + b))
include hm h hv hadd

/-- The derived tables hold costs of the graph and sums of two of them. -/
theorem valid_of_derived {d : NodeId × CostTable α} (hd : d ∈ m.derived) {x : α}
    (hx : x ∈ d.2.cells) : Cost.Valid x := by
  obtain ⟨i, k, hx⟩ := CostTable.mem_cells_iff.1 hx
  obtain ⟨below, hbelow, hrows, -, hget⟩ := hm.derived_eq h hd
  have hi : i < m.choice.length := by
    by_contra hi
    rw [CostTable.get?_eq_none_of_not fun hin => hi (hrows ▸ hin.1)] at hx
    cases hx
  rw [hget i _ k (List.getElem?_eq_getElem hi)] at hx
  cases hold : g.tables[(⟨m.edge.src, d.1⟩ : Edge)]? with
  | none =>
    rw [hold] at hx
    exact hv.get hbelow hx
  | some old =>
    rw [hold, Option.elim_some, Option.bind_eq_some_iff] at hx
    obtain ⟨a, ha, hx⟩ := hx
    obtain ⟨b, hb, rfl⟩ := Option.map_eq_some_iff.1 hx
    exact hadd a b (hv.get hold ha) (hv.get hbelow hb)

theorem valid_of_charge [BoundedCost α] {x : α} (hx : x ∈ m.charge) : Cost.Valid x := by
  obtain ⟨t, ht, hlen, hcharge⟩ := hm.charge_eq h
  obtain ⟨i, hi⟩ := List.mem_iff_getElem?.1 hx
  have hlt : i < m.choice.length := hlen ▸ (List.getElem?_eq_some_iff.1 hi).1
  rw [hcharge i _ (List.getElem?_eq_getElem hlt)] at hi
  refine valid_of_charge? hadd ?_ (fun i j c => hv.get ht)
    (fun costs hcosts c => hv.extra hcosts) hi
  -- a source without extra costs starts from zero
  cases hsrc : g.extras[m.edge.src]? with
  | none =>
    intro b hb
    rw [List.eq_of_mem_replicate hb]
    exact BoundedCost.zero_valid
  | some costs => exact fun b => hv.extra hsrc

end Plan

/-- A merge keeps all costs valid. -/
theorem ValidCosts.performed [BoundedCost α] (hv : g.ValidCosts)
    (hadd : ∀ a b : α, Cost.Valid a → Cost.Valid b → Cost.Valid (a + b)) (h : g.Shaped)
    (hm : g.Plan m) (hg : g.Performed m g') : g'.ValidCosts where
  cell {e t x} ht hx := by
    rw [hg.tables, get_mergedTables] at ht
    split at ht
    · cases ht
    · rcases FiniteMap.of_get_insertAll ht with ⟨d, hd, rfl, rfl⟩ | ht
      · exact hm.valid_of_derived h hv hadd hd hx
      · exact hv.cell ht hx
  extra {n costs x} hcosts hx := by
    rw [hg.extras, FiniteMap.get_insert] at hcosts
    split at hcosts
    · cases hcosts
      exact hm.valid_of_charge h hv hadd hx
    · exact hv.extra hcosts hx

/-- Merging keeps all costs valid. -/
theorem ValidCosts.merge [BoundedCost α] (hv : g.ValidCosts)
    (hadd : ∀ a b : α, Cost.Valid a → Cost.Valid b → Cost.Valid (a + b)) (h : g.Coherent)
    {e : Edge} (hmerge : g.merge e = .ok (g', m)) : g'.ValidCosts := by
  obtain ⟨-, hm, hg⟩ := h.of_merge hmerge
  exact hv.performed hadd h.toShaped hm hg

end Graph

/-- A catalog with valid costs declares a graph whose costs, as clipped, are valid. -/
theorem Catalog.Declares.validCosts [BoundedCost α] {c : Catalog α} {g : Graph α}
    {settings : Settings α} (hg : (c.map settings.clip).Declares g) (hc : c.Consistent)
    (hvalid : c.ValidCosts) : g.ValidCosts where
  cell {e t x} ht hx := by
    obtain ⟨i, j, hx⟩ := CostTable.mem_cells_iff.1 hx
    rw [hg.get?_eq_weight? hc.map ht, Catalog.weight?_map] at hx
    obtain ⟨y, hy, rfl⟩ := Option.map_eq_some_iff.1 hx
    exact Settings.clip_valid (Catalog.valid_of_weight? hvalid hy)
  extra hcosts := by
    rw [hg.extras, Std.ExtTreeMap.getElem?_empty] at hcosts
    cases hcosts

end Reshard
