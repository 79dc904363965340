import Mathlib.Algebra.BigOperators.Group.Finset.Basic
import Reshard.Graph.Merge
import Reshard.Proofs.Cost.Table
import Reshard.Proofs.FiniteMap
import Reshard.Proofs.Links

/-! Sound cost graphs.

    A graph is shaped if its tables and extra costs have as many entries as their nodes have
    strategies. It is coherent if moreover the two sides of the links agree, tables belong to linked
    edges and only live nodes are linked. It is sound if each link has a table, none is listed
    twice, and links lead from lower to higher ranks.

    `weight` and `extraAt` read a graph as two functions that are zero where it holds nothing, and
    `outCost` sums up what a node pays under an assignment of strategies: its extra cost and the
    costs of its edges to the given targets. -/

namespace Reshard

namespace Graph

variable {α : Type}

/-- Tables and extra costs have an entry for each strategy of their nodes, and each node has a
    strategy. -/
structure Shaped (g : Graph α) : Prop where
  fits : g.size ≤ NodeId.maxIndex
  size_links : g.links.size = g.size
  width_pos {n : NodeId} {w : Nat} : g.width? n = some w → 0 < w
  table_shape {e : Edge} {t : CostTable α} : g.tables[e]? = some t →
    g.width? e.src = some t.rows ∧ g.width? e.dst = some t.cols
  length_extra {n : NodeId} {extra : List α} : g.extras[n]? = some extra →
    g.width? n = some extra.length

/-- The two sides of the links agree with each other and with the tables, and links lead from live
    nodes to live nodes of a higher rank. -/
structure Sound (rank : NodeId → Nat) (g : Graph α) : Prop extends Shaped g where
  parents_nodup (n : NodeId) : (g.links.parents n).Nodup
  children_nodup (n : NodeId) : (g.links.children n).Nodup
  mem_parents {p c : NodeId} : p ∈ g.links.parents c ↔ c ∈ g.links.children p
  mem_tables {p c : NodeId} : (⟨p, c⟩ : Edge) ∈ g.tables ↔ c ∈ g.links.children p
  live_src {p c : NodeId} : c ∈ g.links.children p → g.links.isLive p
  live_dst {p c : NodeId} : c ∈ g.links.children p → g.links.isLive c
  rank_lt {p c : NodeId} : c ∈ g.links.children p → rank p < rank c

/-- The part of soundness that needs no ranks, and holds with cycles too: a table belongs to a link,
    but a link of a node on a cycle may have lost its table. -/
structure Coherent (g : Graph α) : Prop extends Shaped g where
  mem_parents {p c : NodeId} : p ∈ g.links.parents c ↔ c ∈ g.links.children p
  mem_children {e : Edge} {t : CostTable α} : g.tables[e]? = some t →
    e.dst ∈ g.links.children e.src
  live_src {p c : NodeId} : c ∈ g.links.children p → g.links.isLive p
  live_dst {p c : NodeId} : c ∈ g.links.children p → g.links.isLive c

/-- All nodes, live or not. -/
def nodes (g : Graph α) : Finset NodeId := ((List.range g.size).map NodeId.ofIndex).toFinset

theorem mem_nodes {g : Graph α} {n : NodeId} : n ∈ g.nodes ↔ n.index < g.size := by
  rw [nodes, List.mem_toFinset, List.mem_map]
  constructor
  · rintro ⟨i, hi, rfl⟩
    exact (Nat.min_le_left ..).trans_lt (List.mem_range.1 hi)
  · exact fun h => ⟨n.index, List.mem_range.2 h, NodeId.ofIndex_index n⟩

/-- The live nodes. -/
def live (g : Graph α) : Finset NodeId := g.links.liveNodes.toFinset

theorem mem_live {g : Graph α} {n : NodeId} : n ∈ g.live ↔ g.links.isLive n := by
  rw [live, List.mem_toFinset, Links.mem_liveNodes]

theorem exists_width? {g : Graph α} {n : NodeId} (h : n.index < g.size) :
    ∃ w, g.width? n = some w :=
  ⟨g.widths[n.index], List.getElem?_eq_getElem h⟩

theorem index_lt_of_width? {g : Graph α} {n : NodeId} {w : Nat} (h : g.width? n = some w) :
    n.index < g.size :=
  (List.getElem?_eq_some_iff.1 h).1

theorem Shaped.index_lt_of_isLive {g : Graph α} (h : g.Shaped) {n : NodeId}
    (hn : g.links.isLive n) : n.index < g.size :=
  h.size_links ▸ Links.index_lt_of_isLive hn

theorem Shaped.nodup_liveNodes {g : Graph α} (h : g.Shaped) : g.links.liveNodes.Nodup := by
  refine List.Nodup.filter _ (List.Nodup.map_on ?_ List.nodup_range)
  intro i hi j hj heq
  rw [h.size_links, List.mem_range] at hi hj
  have := congrArg NodeId.index heq
  rwa [NodeId.ofIndex_index_of_le (hi.le.trans h.fits),
    NodeId.ofIndex_index_of_le (hj.le.trans h.fits)] at this

namespace Sound

variable {rank : NodeId → Nat} {g : Graph α}

theorem exists_table (h : g.Sound rank) {p c : NodeId} (hc : c ∈ g.links.children p) :
    ∃ t, g.tables[(⟨p, c⟩ : Edge)]? = some t :=
  FiniteMap.exists_get (h.mem_tables.2 hc)

theorem mem_children (h : g.Sound rank) {e : Edge} {t : CostTable α}
    (ht : g.tables[e]? = some t) : e.dst ∈ g.links.children e.src :=
  h.mem_tables.1 (FiniteMap.mem_of_get ht)

theorem coherent (h : g.Sound rank) : g.Coherent :=
  ⟨h.toShaped, h.mem_parents, h.mem_children, h.live_src, h.live_dst⟩

theorem notMem_children_self (h : g.Sound rank) {n : NodeId} : n ∉ g.links.children n :=
  fun hn => (h.rank_lt hn).false

/-- A retired node has no links left. -/
theorem children_eq_nil (h : g.Sound rank) {n : NodeId} (hn : g.links.isLive n = false) :
    g.links.children n = [] :=
  List.eq_nil_iff_forall_not_mem.2 fun c hc => by simp [h.live_src hc] at hn

theorem parents_eq_nil (h : g.Sound rank) {n : NodeId} (hn : g.links.isLive n = false) :
    g.links.parents n = [] :=
  List.eq_nil_iff_forall_not_mem.2 fun p hp => by simp [h.live_dst (h.mem_parents.1 hp)] at hn

end Sound

/-! ### Costs of a node -/

section Costs

variable [Cost α]

/-- The cost of an edge for a pair of strategies, zero if there is none. -/
def weight (g : Graph α) (e : Edge) (i j : Nat) : α := (g.tables[e]?.bind (·.get? i j)).getD 0

/-- The extra cost of a node's strategy, zero if there is none. -/
def extraAt (g : Graph α) (n : NodeId) (i : Nat) : α := (g.extras[n]?.bind (·[i]?)).getD 0

theorem weight_of_notMem {g : Graph α} {e : Edge} (h : e ∉ g.tables) (i j : Nat) :
    g.weight e i j = 0 := by
  rw [weight, Std.ExtTreeMap.getElem?_eq_none h]
  rfl

theorem weight_eq {g : Graph α} {e : Edge} {t : CostTable α} {i j : Nat} {c : α}
    (ht : g.tables[e]? = some t) (hc : t.get? i j = some c) : g.weight e i j = c := by
  rw [weight, ht, Option.bind_some, hc]
  rfl

theorem getElem?_eq_extraAt {g : Graph α} {n : NodeId} {extra : List α} {j : Nat}
    (hextra : g.extras[n]? = some extra) (hj : j < extra.length) :
    extra[j]? = some (g.extraAt n j) := by
  rw [extraAt, hextra, Option.bind_some, List.getElem?_eq_getElem hj]
  rfl

variable [ExactCost α]

/-- What node `u` pays when it runs strategy `i` and the `targets` run theirs under `f`. -/
def outCost (g : Graph α) (f : NodeId → Nat) (targets : Finset NodeId) (u : NodeId) (i : Nat) : α :=
  g.extraAt u i + ∑ v ∈ targets, g.weight ⟨u, v⟩ i (f v)

/-- The cost of an assignment: what all live nodes pay. -/
def costAt (g : Graph α) (f : NodeId → Nat) : α :=
  ∑ u ∈ g.live, g.outCost f g.nodes u (f u)

end Costs

end Graph

end Reshard
