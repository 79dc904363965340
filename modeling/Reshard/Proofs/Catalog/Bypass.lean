import Reshard.Proofs.Catalog.MergeOrder

/-! Ways around nodes.

    When edges have been merged along, a node reaches others by a bypass: a way along edges that are
    done and one declared edge that is not (`Reaches`). As long as edges are done from the end of
    the list and each node is declared behind its predecessors, the next edge leads to a node below
    all that was done (`Next`), so doing it changes what is reached in one place only
    (`Next.reaches_cons_iff`). -/

namespace Reshard.Catalog

variable {α : Type} {c : Catalog α} {done : List Edge} {e : Edge} {n u v : NodeId}

/-- A way along edges that are done. -/
def Via (done : List Edge) : NodeId → NodeId → Prop :=
  Relation.ReflTransGen fun u v => (⟨u, v⟩ : Edge) ∈ done

theorem Via.cons (h : Via done u v) : Via (e :: done) u v :=
  Relation.ReflTransGen.mono (fun _ _ => List.mem_cons_of_mem e) u v h

/-- A way along edges that are done and one declared edge that is not. -/
def Reaches (c : Catalog α) (done : List Edge) (u v : NodeId) : Prop :=
  ∃ x, Via done u x ∧ c.Precedes x v ∧ (⟨x, v⟩ : Edge) ∉ done

/-- A node with predecessors all of whose edges are done. -/
def Gone (c : Catalog α) (done : List Edge) (n : NodeId) : Prop :=
  (∃ p, c.Precedes p n) ∧ ∀ p, c.Precedes p n → (⟨p, n⟩ : Edge) ∈ done

/-- The edge `e` is the next one to merge along, from the end of the list, when those in `done` are
    done. -/
structure Next (c : Catalog α) (done : List Edge) (e : Edge) : Prop where
  precedes : c.Precedes e.src e.dst
  index_lt : e.src.index < e.dst.index
  before {e' : Edge} : e' ∈ done → c.Before e e'

theorem next_of_mergeEdges (hfits : c.Fits) (hc : c.Consistent) (hnumbered : c.Numbered)
    {rest : List Edge} (h : c.mergeEdges = rest ++ e :: done) : c.Next done e := by
  have hpn : c.Precedes e.src e.dst :=
    precedes_of_mem_mergeEdges hfits (by rw [h]; simp)
  have hpairwise := pairwise_mergeEdges hfits hc
  rw [h, List.pairwise_append, List.pairwise_cons] at hpairwise
  exact ⟨hpn, hnumbered _ _ hpn, hpairwise.2.1.1 _⟩

theorem Next.map {β : Type} {f : α → β} (h : c.Next done e) : (c.map f).Next done e := by
  refine ⟨precedes_map.2 h.precedes, h.index_lt, ?_⟩
  intro e' he'
  rw [Before, predecessors_map]
  exact h.before he'

namespace Next

variable (h : c.Next done e)
include h

theorem index_le {e' : Edge} (he' : e' ∈ done) : e.dst.index ≤ e'.dst.index :=
  (h.before he').index_le

theorem notMem : e ∉ done := fun he => Before.irrefl (h.before he)

/-- Edges that are done lead to late nodes. -/
theorem eq_or_index_le {x : NodeId} (hx : Via done u x) : u = x ∨ e.dst.index ≤ x.index := by
  cases hx with
  | refl => exact .inl rfl
  | tail _ hstep => exact .inr (h.index_le hstep)

theorem eq_of_index_lt {x : NodeId} (hx : Via done u x) (hlt : x.index < e.dst.index) : u = x :=
  (h.eq_or_index_le hx).resolve_right hlt.not_ge

/-- Doing one more edge opens a way from its source to all that its destination leads to. -/
theorem via_cons_iff {x : NodeId} :
    Via (e :: done) u x ↔ Via done u x ∨ u = e.src ∧ Via done e.dst x := by
  constructor
  · intro hx
    induction hx using Relation.ReflTransGen.head_induction_on with
    | refl => exact .inl .refl
    | @head a b hab _ ih =>
      rcases List.mem_cons.1 hab with rfl | hab
      · -- the new edge starts below all done edges, so a way uses it at most once
        rcases ih with ih | ⟨hba, -⟩
        · exact .inr ⟨rfl, ih⟩
        · exact absurd h.index_lt (hba ▸ Nat.lt_irrefl _)
      · rcases ih with ih | ⟨rfl, -⟩
        · exact .inl (ih.head hab)
        · exact absurd (h.index_le hab) h.index_lt.not_ge
  · rintro (hx | ⟨rfl, hx⟩)
    · exact hx.cons
    · exact hx.cons.head List.mem_cons_self

/-- The destination of the next edge is still reached along declared edges only. -/
theorem reaches_dst_iff (hnumbered : c.Numbered) :
    c.Reaches done u e.dst ↔ c.Precedes u e.dst ∧ (⟨u, e.dst⟩ : Edge) ∉ done := by
  constructor
  · rintro ⟨x, hx, hpn, hnot⟩
    obtain rfl := h.eq_of_index_lt hx (hnumbered _ _ hpn)
    exact ⟨hpn, hnot⟩
  · rintro ⟨hpn, hnot⟩
    exact ⟨u, .refl, hpn, hnot⟩

/-- Doing one more edge turns it into a bypass. -/
theorem reaches_cons_iff (hnumbered : c.Numbered) : c.Reaches (e :: done) u v ↔
    u = e.src ∧ c.Reaches done e.dst v ∨ c.Reaches done u v ∧ ¬ (u = e.src ∧ v = e.dst) := by
  constructor
  · rintro ⟨x, hway, hpn, hnot⟩
    rw [List.mem_cons, not_or] at hnot
    rcases h.via_cons_iff.1 hway with hx | ⟨hu, hx⟩
    · refine .inr ⟨⟨x, hx, hpn, hnot.2⟩, ?_⟩
      rintro ⟨rfl, rfl⟩
      obtain rfl := h.eq_of_index_lt hx (hnumbered _ _ hpn)
      exact hnot.1 rfl
    · exact .inl ⟨hu, x, hx, hpn, hnot.2⟩
  · rintro (⟨rfl, x, hx, hpn, hnot⟩ | ⟨⟨x, hx, hpn, hnot⟩, hne⟩)
    · refine ⟨x, h.via_cons_iff.2 (.inr ⟨rfl, hx⟩), hpn, ?_⟩
      intro hmem
      rcases List.mem_cons.1 hmem with rfl | hmem
      · rcases h.eq_or_index_le hx with heq | hle
        · exact absurd h.index_lt (heq ▸ Nat.lt_irrefl _)
        · exact absurd h.index_lt hle.not_gt
      · exact hnot hmem
    · refine ⟨x, h.via_cons_iff.2 (.inl hx), hpn, ?_⟩
      intro hmem
      rcases List.mem_cons.1 hmem with rfl | hmem
      · exact hne ⟨h.eq_of_index_lt hx h.index_lt, rfl⟩
      · exact hnot hmem

/-- Earlier nodes are still there. -/
theorem not_gone (hlt : n.index < e.dst.index) : ¬ c.Gone done n := by
  rintro ⟨⟨p, hpn⟩, hall⟩
  exact absurd (h.index_le (hall p hpn)) hlt.not_ge

/-- Only the destination can go, and it does if no other edge into it is left. -/
theorem gone_cons_iff : c.Gone (e :: done) n ↔ c.Gone done n ∨
    (∀ p, c.Precedes p e.dst → (⟨p, e.dst⟩ : Edge) ∉ done → p = e.src) ∧ n = e.dst := by
  constructor
  · rintro ⟨hex, hall⟩
    by_cases hn : n = e.dst
    · subst hn
      refine .inr ⟨?_, rfl⟩
      intro p hpn hnot
      exact congrArg Edge.src ((List.mem_cons.1 (hall p hpn)).resolve_right hnot)
    · refine .inl ⟨hex, ?_⟩
      intro p hpn
      rcases List.mem_cons.1 (hall p hpn) with he | hmem
      · exact absurd (congrArg Edge.dst he) hn
      · exact hmem
  · rintro (⟨hex, hall⟩ | ⟨hlast, rfl⟩)
    · exact ⟨hex, fun p hpn => List.mem_cons_of_mem _ (hall p hpn)⟩
    · refine ⟨⟨e.src, h.precedes⟩, ?_⟩
      intro p hpn
      by_cases hmem : (⟨p, e.dst⟩ : Edge) ∈ done
      · exact List.mem_cons_of_mem _ hmem
      · rw [hlast p hpn hmem]
        exact List.mem_cons_self

end Next

/-- In the end exactly the removable nodes are gone. -/
theorem gone_mergeEdges_iff (hfits : c.Fits) : c.Gone c.mergeEdges n ↔ c.Removable n := by
  constructor
  · rintro ⟨⟨p, hpn⟩, hall⟩
    exact (mem_mergeEdges_iff_removable hfits hpn).1 (hall p hpn)
  · intro hn
    obtain ⟨op, hop, -, hne⟩ := id hn
    obtain ⟨p, hp⟩ := List.exists_mem_of_ne_nil _ hne
    exact ⟨⟨p, op, hop, hp⟩, fun q hqn => (mem_mergeEdges_iff_removable hfits hqn).2 hn⟩

theorem mem_mergeEdges_iff (hfits : c.Fits) :
    (⟨u, v⟩ : Edge) ∈ c.mergeEdges ↔ c.Precedes u v ∧ c.Removable v := by
  constructor
  · intro hmem
    have huv := precedes_of_mem_mergeEdges hfits hmem
    exact ⟨huv, (mem_mergeEdges_iff_removable hfits huv).1 hmem⟩
  · rintro ⟨huv, hv⟩
    exact (mem_mergeEdges_iff_removable hfits huv).2 hv

/-- In the end a bypass is a declared path whose inner nodes are all removable. -/
theorem reaches_mergeEdges_iff (hfits : c.Fits) : c.Reaches c.mergeEdges u v ↔
    ¬ c.Removable v ∧ ∃ x,
      Relation.ReflTransGen (fun a b => c.Precedes a b ∧ c.Removable b) u x ∧ c.Precedes x v := by
  have hvia : Via c.mergeEdges =
      Relation.ReflTransGen fun a b => c.Precedes a b ∧ c.Removable b :=
    congrArg Relation.ReflTransGen (funext₂ fun a b => propext (mem_mergeEdges_iff hfits))
  rw [Reaches, hvia]
  constructor
  · rintro ⟨x, hx, hxv, hnot⟩
    exact ⟨fun hv => hnot ((mem_mergeEdges_iff_removable hfits hxv).2 hv), x, hx, hxv⟩
  · rintro ⟨hv, x, hx, hxv⟩
    exact ⟨x, hx, hxv, fun hmem => hv ((mem_mergeEdges_iff_removable hfits hxv).1 hmem)⟩

end Reshard.Catalog
