import Reshard.Proofs.Catalog.Bypass
import Reshard.Proofs.Cost.Exact

/-! Unfolded costs.

    A node whose successors have been merged into it pays for each of them what the edge costs under
    the cheapest strategy there, and then what that strategy costs further down. `unfolded` sums
    this up along the declared edges, for any set of merged edges, and `carried` does so for those
    that are done. In a numbered catalog, doing the next edge changes what is carried at its source
    only (`carried_cons_src`). -/

namespace Reshard.Catalog

variable {α : Type} {c : Catalog α} {done : List Edge} {e : Edge} {u v : NodeId} {i j w : Nat}

/-- The declared successors of a node. -/
def successors (c : Catalog α) (node : NodeId) : List NodeId :=
  (c.get? node).elim [] (·.successors)

theorem mem_successors (hc : c.Consistent) : v ∈ c.successors u ↔ c.Precedes u v := by
  rw [precedes_iff_mem_successors hc, successors]
  cases c.get? u <;> simp

variable [Cost α]

/-! ### The cheapest strategy -/

/-- The costs of an edge for a strategy of its source: one for each strategy of its destination. -/
def line (c : Catalog α) (e : Edge) (i : Nat) : List α :=
  (List.range ((c.width? e.dst).getD 0)).map (c.weight e i)

/-- The first cheapest strategy of an edge's destination. -/
def cheapest (c : Catalog α) (e : Edge) (i : Nat) : Nat := (Cost.cheapest? (c.line e i)).getD 0

/-- The chosen strategy has the least cost on its line, and those before it have a greater one. -/
theorem firstLeast_cheapest [OrderedCost α] (hc : c.Consistent)
    (hvalid : ∀ j x, c.weight? ⟨u, v⟩ i j = some x → Cost.Valid x)
    (huv : c.Precedes u v) (hw : c.width? u = some w) (hi : i < w) :
    Cost.FirstLeast (c.line ⟨u, v⟩ i) (c.cheapest ⟨u, v⟩ i) := by
  obtain ⟨op, hop, hu⟩ := id huv
  have hwidth : c.width? v = some op.width := by rw [width?, hop]; rfl
  have hne : c.line ⟨u, v⟩ i ≠ [] := by
    have hpos := List.length_pos_iff.2 (hc.strategies_ne hop)
    simpa [line, hwidth, Operator.width] using hpos.ne'
  obtain ⟨j, hj⟩ := Cost.exists_cheapest? hne
  rw [cheapest, hj, Option.getD_some]
  refine Cost.linear_valid.firstLeast_of_cheapest? ?_ hj
  intro x hx
  obtain ⟨k, hk, rfl⟩ := List.mem_map.1 hx
  rw [List.mem_range, hwidth, Option.getD_some] at hk
  obtain ⟨x, hx⟩ := exists_weight? hc huv hw hwidth hi hk
  rw [weight, hx]
  exact hvalid k x hx

/-! ### Unfolding -/

variable [ExactCost α]

/-- What a node pays for its declared edges under one of its strategies. A merged edge costs what it
    costs under the cheapest strategy of its destination, and what that strategy pays there; another
    one has a price. The guard holds for each edge of a numbered catalog. -/
def unfolded (c : Catalog α) (merged : Edge → Bool) (price : Edge → Nat → α) (u : NodeId)
    (i : Nat) : α :=
  ∑ v ∈ (c.successors u).toFinset,
    if merged ⟨u, v⟩ then
      if _h : u.index < v.index then
        c.weight ⟨u, v⟩ i (c.cheapest ⟨u, v⟩ i) +
          unfolded c merged price v (c.cheapest ⟨u, v⟩ i)
      else 0
    else price ⟨u, v⟩ i
termination_by NodeId.maxIndex - u.index
decreasing_by
  have := v.index_le
  omega

section Numbered

variable (hc : c.Consistent) (hnumbered : c.Numbered)
include hc hnumbered

theorem unfolded_eq {merged : Edge → Bool} {price : Edge → Nat → α} :
    c.unfolded merged price u i = ∑ v ∈ (c.successors u).toFinset,
      if merged ⟨u, v⟩ then
        c.weight ⟨u, v⟩ i (c.cheapest ⟨u, v⟩ i) +
          c.unfolded merged price v (c.cheapest ⟨u, v⟩ i)
      else price ⟨u, v⟩ i := by
  rw [unfolded]
  refine Finset.sum_congr rfl ?_
  intro v hv
  rw [dif_pos (hnumbered u v ((mem_successors hc).1 (List.mem_toFinset.1 hv)))]

/-- What a node pays depends only on the edges below it. -/
theorem unfolded_congr {merged merged' : Edge → Bool} {price price' : Edge → Nat → α} {k : Nat}
    (hsame : ∀ u v, k ≤ u.index → c.Precedes u v →
      merged ⟨u, v⟩ = merged' ⟨u, v⟩ ∧ price ⟨u, v⟩ = price' ⟨u, v⟩) (hk : k ≤ u.index) :
    c.unfolded merged price u i = c.unfolded merged' price' u i := by
  induction hr : NodeId.maxIndex - u.index using Nat.strong_induction_on generalizing u i with
  | h r ih =>
    subst hr
    rw [unfolded_eq hc hnumbered, unfolded_eq hc hnumbered]
    refine Finset.sum_congr rfl ?_
    intro v hv
    have huv := (mem_successors hc).1 (List.mem_toFinset.1 hv)
    have hlt := hnumbered u v huv
    have hle := v.index_le
    rw [(hsame u v hk huv).1, (hsame u v hk huv).2,
      ih (NodeId.maxIndex - v.index) (by omega) (by omega) rfl]

end Numbered

/-! ### Done edges -/

/-- What a node pays when some edges are done, and the `targets` run their strategies under `f`. -/
def carried (c : Catalog α) (done : List Edge) (f : NodeId → Nat) (targets : Finset NodeId) :
    NodeId → Nat → α :=
  c.unfolded (fun e => decide (e ∈ done)) fun e i =>
    if e.dst ∈ targets then c.weight e i (f e.dst) else 0

/-- What a node pays for one of its edges. -/
def share (c : Catalog α) (done : List Edge) (f : NodeId → Nat) (targets : Finset NodeId)
    (u : NodeId) (i : Nat) (v : NodeId) : α :=
  if (⟨u, v⟩ : Edge) ∈ done then
    c.weight ⟨u, v⟩ i (c.cheapest ⟨u, v⟩ i) + c.carried done f targets v (c.cheapest ⟨u, v⟩ i)
  else if v ∈ targets then c.weight ⟨u, v⟩ i (f v) else 0

section Next

variable {f : NodeId → Nat} {targets : Finset NodeId}
variable (hc : c.Consistent) (hnumbered : c.Numbered)
include hc hnumbered

theorem carried_eq : c.carried done f targets u i =
    ∑ v ∈ (c.successors u).toFinset, c.share done f targets u i v := by
  rw [carried, unfolded_eq hc hnumbered]
  simp only [decide_eq_true_eq]
  rfl

/-- A target matters to the nodes above it only. -/
theorem carried_erase {n : NodeId} (hv : n.index ≤ v.index) :
    c.carried done f (targets.erase n) v i = c.carried done f targets v i := by
  refine unfolded_congr hc hnumbered (fun x y hx hxy => ⟨rfl, ?_⟩) hv
  have hne : y ≠ n := fun he => absurd (hnumbered x y hxy) (he ▸ hx.not_gt)
  simp [hne]

variable (hnext : c.Next done e)
include hnext

/-- From the destination of the next edge on nothing changes. -/
theorem carried_cons_of_index_le (hv : e.dst.index ≤ v.index) :
    c.carried (e :: done) f targets v i = c.carried done f targets v i := by
  refine unfolded_congr hc hnumbered (fun x y hx _ => ⟨?_, rfl⟩) hv
  have hne : (⟨x, y⟩ : Edge) ≠ e := fun he =>
    absurd hnext.index_lt (congrArg Edge.src he ▸ hx.not_gt)
  simp [hne]

theorem share_cons_of_ne (hne : (⟨u, v⟩ : Edge) ≠ e) :
    c.share (e :: done) f targets u i v = c.share done f targets u i v := by
  rw [share, share]
  by_cases hdone : (⟨u, v⟩ : Edge) ∈ done
  · rw [if_pos hdone, if_pos (List.mem_cons_of_mem _ hdone),
      carried_cons_of_index_le hc hnumbered hnext (hnext.index_le hdone)]
  · rw [if_neg hdone, if_neg (by simp [hne, hdone])]

theorem share_erase (hne : v ≠ e.dst) :
    c.share done f (targets.erase e.dst) u i v = c.share done f targets u i v := by
  rw [share, share]
  by_cases hdone : (⟨u, v⟩ : Edge) ∈ done
  · rw [if_pos hdone, if_pos hdone, carried_erase hc hnumbered (hnext.index_le hdone)]
  · simp [hdone, hne]

/-- Doing the next edge changes nothing for nodes other than its source. -/
theorem carried_cons_of_ne (hu : u ≠ e.src) :
    c.carried (e :: done) f targets u i = c.carried done f targets u i := by
  rw [carried_eq hc hnumbered, carried_eq hc hnumbered]
  exact Finset.sum_congr rfl fun v _ => share_cons_of_ne hc hnumbered hnext fun he =>
    hu (congrArg Edge.src he)

/-- The source of the next edge pays for the cheapest strategy of the destination in place of the
    one that the destination has. -/
theorem carried_cons_src : c.carried (e :: done) f targets e.src i =
    c.carried done f (targets.erase e.dst) e.src i +
      (c.weight e i (c.cheapest e i) + c.carried done f targets e.dst (c.cheapest e i)) := by
  have hdst : e.dst ∈ (c.successors e.src).toFinset :=
    List.mem_toFinset.2 ((mem_successors hc).2 hnext.precedes)
  have hrest : ∀ v ∈ (c.successors e.src).toFinset.erase e.dst,
      c.share (e :: done) f targets e.src i v =
        c.share done f (targets.erase e.dst) e.src i v := by
    intro v hv
    have hne := Finset.ne_of_mem_erase hv
    rw [share_cons_of_ne hc hnumbered hnext fun he => hne (congrArg Edge.dst he),
      share_erase hc hnumbered hnext hne]
  have hnew : c.share (e :: done) f targets e.src i e.dst =
      c.weight e i (c.cheapest e i) + c.carried done f targets e.dst (c.cheapest e i) := by
    rw [share, if_pos List.mem_cons_self, carried_cons_of_index_le hc hnumbered hnext le_rfl]
  have hold : c.share done f (targets.erase e.dst) e.src i e.dst = 0 := by
    rw [share, if_neg hnext.notMem, if_neg (Finset.notMem_erase _ _)]
  rw [carried_eq hc hnumbered, carried_eq hc hnumbered, ← Finset.sum_erase_add _ _ hdst,
    ← Finset.sum_erase_add _ _ hdst, Finset.sum_congr rfl hrest, hnew, hold, add_zero]

end Next

end Reshard.Catalog
