import Mathlib.Data.List.Nodup
import Mathlib.Logic.Function.Basic
import Reshard.Graph.Merge
import Reshard.Proofs.Outcome

/-! Links by what they say about a node.

    Links are seen through three functions of a node: its parents, its children and whether it is
    live. An operation on nodes that exist succeeds and updates these functions at one place.
    `exists_mergedLinks?` puts them together: what a merge does to the links. -/

namespace Reshard.Links

variable {l : Links} {node parent child : NodeId}

theorem index_lt_of_isLive (h : l.isLive node) : node.index < l.size := by
  by_contra hout
  rw [isLive, site?, List.getElem?_eq_none (Nat.le_of_not_lt hout)] at h
  cases h

/-- The live nodes are the nodes that are live: each id names one position. -/
theorem mem_liveNodes : node ∈ l.liveNodes ↔ l.isLive node := by
  rw [liveNodes, List.mem_filter, List.mem_map, and_iff_right_iff_imp]
  intro h
  exact ⟨node.index, List.mem_range.2 (index_lt_of_isLive h), NodeId.ofIndex_index node⟩

/-! ### Entering and dropping -/

@[simp] theorem mem_enter {ids : List NodeId} {id other : NodeId} :
    other ∈ enter id ids ↔ other = id ∨ other ∈ ids := by
  rw [enter]
  split
  next h => exact ⟨Or.inr, fun h' => h'.elim (fun heq => heq ▸ h) fun h => h⟩
  next => rw [List.mem_append, List.mem_singleton, or_comm]

@[simp] theorem mem_drop {ids : List NodeId} {id other : NodeId} :
    other ∈ drop id ids ↔ other ∈ ids ∧ other ≠ id := by
  simp [drop]

theorem nodup_enter {ids : List NodeId} {id : NodeId} (h : ids.Nodup) : (enter id ids).Nodup := by
  rw [enter]
  split
  · exact h
  next hid => exact List.nodup_append.2 ⟨h, List.nodup_singleton id, fun a ha b hb heq =>
      hid (by rw [← List.mem_singleton.1 hb, ← heq]; exact ha)⟩

theorem nodup_drop {ids : List NodeId} {id : NodeId} (h : ids.Nodup) : (drop id ids).Nodup :=
  h.filter _

theorem drop_of_notMem {ids : List NodeId} {id : NodeId} (h : id ∉ ids) : drop id ids = ids :=
  List.filter_eq_self.2 fun _ ha => decide_eq_true fun heq => h (heq ▸ ha)

theorem enter_idem {ids : List NodeId} {id : NodeId} : enter id (enter id ids) = enter id ids :=
  if_pos (mem_enter.2 (.inl rfl))

theorem drop_idem {ids : List NodeId} {id : NodeId} : drop id (drop id ids) = drop id ids :=
  drop_of_notMem fun h => (mem_drop.1 h).2 rfl

/-- The list with each of `new` entered at its end, unless it is there already. -/
def enterAll (new ids : List NodeId) : List NodeId := new.foldl (fun ids id => enter id ids) ids

@[simp] theorem mem_enterAll {id : NodeId} : ∀ {new ids : List NodeId},
    id ∈ enterAll new ids ↔ id ∈ new ∨ id ∈ ids
  | [], ids => by simp [enterAll]
  | a :: new, ids => by
    rw [enterAll, List.foldl_cons, ← enterAll, mem_enterAll, mem_enter, List.mem_cons]
    tauto

theorem nodup_enterAll : ∀ {new ids : List NodeId}, ids.Nodup → (enterAll new ids).Nodup
  | [], _, h => h
  | a :: new, ids, h => by
    rw [enterAll, List.foldl_cons]
    exact nodup_enterAll (nodup_enter h)

/-- The ones that are new come behind the list, in their order. -/
theorem enterAll_eq : ∀ {new ids : List NodeId}, new.Nodup →
    enterAll new ids = ids ++ new.filter (· ∉ ids)
  | [], ids, _ => by simp [enterAll]
  | a :: new, ids, h => by
    obtain ⟨ha, hnew⟩ := List.nodup_cons.1 h
    rw [enterAll, List.foldl_cons, ← enterAll, enterAll_eq hnew, enter]
    split
    next hmem => simp [hmem]
    next hmem =>
      have hrest : new.filter (· ∉ ids ++ [a]) = new.filter (· ∉ ids) := by
        refine List.filter_congr fun n hn => ?_
        have hne : n ≠ a := fun e => ha (e ▸ hn)
        simp [hne]
      rw [hrest, List.append_assoc, List.filter_cons, if_pos (decide_eq_true hmem)]
      rfl

/-! ### Operations -/

/-- A change of one site is an update of the three functions. -/
theorem exists_modify? (f : Site → Site) (h : node.index < l.size) :
    let site : Site := ⟨l.parents node, l.children node, l.isLive node⟩
    ∃ l', l.modify? node f = some l' ∧ l'.size = l.size ∧
      l'.parents = Function.update l.parents node (f site).parents ∧
      l'.children = Function.update l.children node (f site).children ∧
      l'.isLive = Function.update l.isLive node (f site).live := by
  intro site
  have hsite : l.site? node = some site := by
    simp [site, parents, children, isLive, site?, List.getElem?_eq_getElem h]
  have hview (n : NodeId) : (Links.mk (l.sites.modify node.index f)).site? n =
      if n = node then some (f site) else l.site? n := by
    rw [site?, List.getElem?_modify]
    by_cases hn : n = node
    · simp only [hn, if_true]
      exact congrArg (Option.map f) hsite
    · have hne : node.index ≠ n.index := fun heq => hn (NodeId.ext heq.symm)
      simp only [if_neg hn, if_neg hne]
      exact congrFun Option.map_id _
  refine ⟨_, if_pos h, List.length_modify .., ?_, ?_, ?_⟩ <;>
    funext n <;> by_cases hn : n = node
  all_goals simp [parents, children, isLive, hview, hn]

/-- A change of the site behind those in `done`. -/
theorem modify?_append {done rest : List Site} {site : Site} (f : Site → Site)
    (h : node.index = done.length) :
    modify? node f ⟨done ++ site :: rest⟩ = some ⟨done ++ f site :: rest⟩ := by
  have hlt : node.index < (done ++ site :: rest).length := by
    rw [h, List.length_append, List.length_cons]
    omega
  have hmodify : (done ++ site :: rest).modify node.index f = done ++ f site :: rest := by
    rw [h]
    exact List.modifyTailIdx_add (List.modifyHead f) 0 done (site :: rest)
  rw [modify?, size, if_pos hlt, hmodify]

theorem exists_dropParent? (parent : NodeId) (h : child.index < l.size) :
    ∃ l', l.dropParent? child parent = some l' ∧ l'.size = l.size ∧ l'.isLive = l.isLive ∧
      l'.children = l.children ∧
      l'.parents = Function.update l.parents child (drop parent (l.parents child)) := by
  obtain ⟨l', hl', hsize, hp, hc, hlive⟩ := exists_modify? (fun s => { s with
    parents := drop parent s.parents }) h
  exact ⟨l', hl', hsize, by simpa using hlive, by simpa using hc, hp⟩

theorem exists_dropChild? (child : NodeId) (h : parent.index < l.size) :
    ∃ l', l.dropChild? parent child = some l' ∧ l'.size = l.size ∧ l'.isLive = l.isLive ∧
      l'.parents = l.parents ∧
      l'.children = Function.update l.children parent (drop child (l.children parent)) := by
  obtain ⟨l', hl', hsize, hp, hc, hlive⟩ := exists_modify? (fun s => { s with
    children := drop child s.children }) h
  exact ⟨l', hl', hsize, by simpa using hlive, by simpa using hp, hc⟩

theorem exists_withdraw? (h : node.index < l.size) : ∃ l', l.withdraw? node = some l' ∧
    l'.size = l.size ∧ l'.isLive = Function.update l.isLive node false ∧
    l'.parents = l.parents ∧ l'.children = Function.update l.children node [] := by
  obtain ⟨l', hl', hsize, hp, hc, hlive⟩ := exists_modify? (fun s => { s with
    live := false, children := [] }) h
  exact ⟨l', hl', hsize, hlive, by simpa using hp, hc⟩

theorem exists_join? (hparent : parent.index < l.size) (hchild : child.index < l.size) :
    ∃ l', l.join? parent child = some l' ∧ l'.size = l.size ∧ l'.isLive = l.isLive ∧
      l'.parents = Function.update l.parents child (enter parent (l.parents child)) ∧
      l'.children = Function.update l.children parent (enter child (l.children parent)) := by
  obtain ⟨l₁, hl₁, hsize₁, hp₁, hc₁, hlive₁⟩ := exists_modify? (fun s => { s with
    children := enter child s.children }) hparent
  obtain ⟨l₂, hl₂, hsize₂, hp₂, hc₂, hlive₂⟩ := exists_modify? (l := l₁) (fun s => { s with
    parents := enter parent s.parents }) (hsize₁ ▸ hchild)
  simp only [Function.update_eq_self] at hp₁ hlive₁ hc₂ hlive₂
  refine ⟨l₂, by rw [join?, hl₁]; exact hl₂, hsize₂.trans hsize₁, hlive₂.trans hlive₁, ?_,
    hc₂.trans hc₁⟩
  rw [hp₂, hp₁]

/-- Joining a node to several children. -/
theorem exists_joinAll : ∀ (new : List NodeId) {l : Links}, parent.index < l.size →
    (∀ c ∈ new, c.index < l.size) →
    ∃ l', new.foldlM (fun l c => l.join? parent c) l = some l' ∧ l'.size = l.size ∧
      l'.isLive = l.isLive ∧
      l'.children = Function.update l.children parent (enterAll new (l.children parent)) ∧
      ∀ n, l'.parents n = if n ∈ new then enter parent (l.parents n) else l.parents n
  | [], l, _, _ => ⟨l, rfl, rfl, rfl, by simp [enterAll], by simp⟩
  | c :: new, l, hparent, hnew => by
    obtain ⟨l₁, hl₁, hsize₁, hlive₁, hp₁, hc₁⟩ :=
      exists_join? hparent (hnew c List.mem_cons_self)
    obtain ⟨l₂, hl₂, hsize₂, hlive₂, hc₂, hp₂⟩ := exists_joinAll new
      (hsize₁ ▸ hparent) fun c hc => hsize₁ ▸ hnew c (List.mem_cons_of_mem _ hc)
    refine ⟨l₂, by rw [List.foldlM_cons, hl₁]; exact hl₂, hsize₂.trans hsize₁,
      hlive₂.trans hlive₁, ?_, ?_⟩
    · rw [hc₂, hc₁, Function.update_idem, Function.update_self]
      rfl
    · intro n
      rw [hp₂, hp₁]
      by_cases hn : n = c
      · subst hn
        simp [enter_idem]
      · simp [hn]

/-- Dropping a parent from several nodes. -/
theorem exists_dropParentAll (parent : NodeId) : ∀ (nodes : List NodeId) {l : Links},
    (∀ c ∈ nodes, c.index < l.size) →
    ∃ l', nodes.foldlM (fun l c => l.dropParent? c parent) l = some l' ∧ l'.size = l.size ∧
      l'.isLive = l.isLive ∧ l'.children = l.children ∧
      ∀ n, l'.parents n = if n ∈ nodes then drop parent (l.parents n) else l.parents n
  | [], l, _ => ⟨l, rfl, rfl, rfl, rfl, by simp⟩
  | c :: nodes, l, hnodes => by
    obtain ⟨l₁, hl₁, hsize₁, hlive₁, hc₁, hp₁⟩ :=
      exists_dropParent? parent (hnodes c List.mem_cons_self)
    obtain ⟨l₂, hl₂, hsize₂, hlive₂, hc₂, hp₂⟩ := exists_dropParentAll parent nodes
      (l := l₁) fun c hc => hsize₁ ▸ hnodes c (List.mem_cons_of_mem _ hc)
    refine ⟨l₂, by rw [List.foldlM_cons, hl₁]; exact hl₂, hsize₂.trans hsize₁,
      hlive₂.trans hlive₁, hc₂.trans hc₁, ?_⟩
    intro n
    rw [hp₂, hp₁]
    by_cases hn : n = c
    · subst hn
      simp [drop_idem]
    · simp [hn]

/-- Dropping a node from its children and then withdrawing it. -/
theorem exists_unlink? {nodes : List NodeId} (hnode : node.index < l.size)
    (hnodes : ∀ c ∈ nodes, c.index < l.size) : ∃ l',
      (nodes.foldlM (fun l c => dropParent? c node l) l).bind (withdraw? node) = some l' ∧
      l'.size = l.size ∧ l'.isLive = Function.update l.isLive node false ∧
      l'.children = Function.update l.children node [] ∧
      ∀ n, l'.parents n = if n ∈ nodes then drop node (l.parents n) else l.parents n := by
  obtain ⟨l₁, hl₁, hsize₁, hlive₁, hc₁, hp₁⟩ := exists_dropParentAll node nodes hnodes
  obtain ⟨l₂, hl₂, hsize₂, hlive₂, hp₂, hc₂⟩ := exists_withdraw? (hsize₁.symm ▸ hnode)
  refine ⟨l₂, ?_, hsize₂.trans hsize₁, hlive₁ ▸ hlive₂, hc₁ ▸ hc₂, ?_⟩
  · rw [hl₁]
    exact hl₂
  · rw [hp₂]
    exact hp₁

/-! ### Merging -/

theorem nodup_ite {p : Prop} [Decidable p] {ids others : List NodeId} (h : ids.Nodup)
    (h' : others.Nodup) : (if p then ids else others).Nodup := by
  split
  · exact h
  · exact h'

/-- The parents of a node after a merge. -/
def parentsAfter {α : Type} (m : Merge α) (l : Links) (node : NodeId) : List NodeId :=
  let kept := if node = m.edge.dst then drop m.edge.src (l.parents node) else l.parents node
  let joined := if node ∈ m.children then enter m.edge.src kept else kept
  if m.absorbs ∧ node ∈ m.children then drop m.edge.dst joined else joined

/-- The children of a node after a merge. -/
def childrenAfter {α : Type} (m : Merge α) (l : Links) (node : NodeId) : List NodeId :=
  if m.absorbs ∧ node = m.edge.dst then []
  else if node = m.edge.src then enterAll m.children (drop m.edge.dst (l.children node))
  else l.children node

theorem mem_parentsAfter {α : Type} {m : Merge α} : parent ∈ parentsAfter m l child ↔
    (child ∈ m.children ∧ parent = m.edge.src ∨
      parent ∈ l.parents child ∧ ¬ (child = m.edge.dst ∧ parent = m.edge.src)) ∧
      ¬ (m.absorbs ∧ child ∈ m.children ∧ parent = m.edge.dst) := by
  have hkept : parent ∈ (if child = m.edge.dst then drop m.edge.src (l.parents child)
      else l.parents child) ↔
      parent ∈ l.parents child ∧ ¬ (child = m.edge.dst ∧ parent = m.edge.src) := by
    split
    next heq => rw [mem_drop, not_and, forall_prop_of_true heq]
    next heq => simp [heq]
  rw [parentsAfter]
  by_cases hc : child ∈ m.children
  · by_cases habsorbs : m.absorbs
    · simp only [hc, habsorbs, and_self, if_true, mem_drop, mem_enter, hkept, true_and]
    · simp only [hc, habsorbs, and_true, if_false, if_true, mem_enter, hkept, true_and, false_and,
        not_false_eq_true, Bool.false_eq_true]
  · simp only [hc, and_false, if_false, hkept, false_and, false_or, not_false_eq_true, and_true]

theorem mem_childrenAfter {α : Type} {m : Merge α} : child ∈ childrenAfter m l parent ↔
    (parent = m.edge.src ∧ child ∈ m.children ∨
      child ∈ l.children parent ∧ ¬ (parent = m.edge.src ∧ child = m.edge.dst)) ∧
      ¬ (m.absorbs ∧ parent = m.edge.dst) := by
  rw [childrenAfter]
  by_cases hout : m.absorbs ∧ parent = m.edge.dst
  · simp [hout]
  · by_cases hsrc : parent = m.edge.src
    · rw [if_neg hout, if_pos hsrc, mem_enterAll, mem_drop]
      simp [hsrc, hsrc ▸ hout]
    · simp [hout, hsrc]

theorem nodup_parentsAfter {α : Type} {m : Merge α} (h : (l.parents node).Nodup) :
    (parentsAfter m l node).Nodup := by
  have hkept : (if node = m.edge.dst then drop m.edge.src (l.parents node)
      else l.parents node).Nodup := nodup_ite (nodup_drop h) h
  refine nodup_ite (nodup_drop ?_) ?_
  · exact nodup_ite (nodup_enter hkept) hkept
  · exact nodup_ite (nodup_enter hkept) hkept

theorem nodup_childrenAfter {α : Type} {m : Merge α} (h : (l.children node).Nodup) :
    (childrenAfter m l node).Nodup :=
  nodup_ite List.nodup_nil (nodup_ite (nodup_enterAll (nodup_drop h)) h)

/-- Among nodes that exist a merge succeeds, and only its destination may cease to be live. -/
theorem exists_mergedLinks? {α : Type} {m : Merge α} (hsrc : m.edge.src.index < l.size)
    (hdst : m.edge.dst.index < l.size) (hchildren : ∀ c ∈ m.children, c.index < l.size) :
    ∃ l', Graph.mergedLinks? m l = some l' ∧ l'.size = l.size ∧
      (∀ n, l'.isLive n = (l.isLive n && !(m.absorbs && n = m.edge.dst))) ∧
      l'.parents = parentsAfter m l ∧ l'.children = childrenAfter m l := by
  obtain ⟨l₁, hl₁, hsize₁, hlive₁, hc₁, hp₁⟩ := exists_dropParent? m.edge.src hdst
  obtain ⟨l₂, hl₂, hsize₂, hlive₂, hp₂, hc₂⟩ :=
    exists_dropChild? m.edge.dst (hsize₁.symm ▸ hsrc)
  rw [hsize₁] at hsize₂
  obtain ⟨l₃, hl₃, hsize₃, hlive₃, hc₃, hp₃⟩ := exists_joinAll m.children (hsize₂.symm ▸ hsrc)
    fun c hc => hsize₂.symm ▸ hchildren c hc
  rw [hsize₂] at hsize₃
  simp only [hc₁, hp₁, hlive₁] at hc₂ hp₂ hlive₂
  simp only [hc₂, hp₂, hlive₂] at hc₃ hp₃ hlive₃
  have hrun : Graph.mergedLinks? m l = if m.absorbs then
      (m.children.foldlM (fun l c => dropParent? c m.edge.dst l) l₃).bind (withdraw? m.edge.dst)
      else some l₃ := by
    simp only [Graph.mergedLinks?, hl₁, hl₂, hl₃, Option.bind_eq_bind, Option.bind_some]
    rfl
  rw [hrun]
  cases habsorbs : m.absorbs with
  | false =>
    -- the destination is kept: only its link to the source is gone
    refine ⟨l₃, rfl, hsize₃, by simp [hlive₃], ?_, ?_⟩
    · -- parents
      funext n
      simp only [hp₃, parentsAfter, habsorbs, Function.update_apply]
      by_cases hn : n = m.edge.dst <;> simp [hn]
    · -- children
      funext n
      simp only [hc₃, childrenAfter, habsorbs, Function.update_apply]
      by_cases hn : n = m.edge.src <;> simp [hn]
  | true =>
    -- the destination is absorbed: it is unlinked from its children and withdrawn
    obtain ⟨l₄, hl₄, hsize₄, hlive₄, hc₄, hp₄⟩ := exists_unlink? (l := l₃)
      (hsize₃.symm ▸ hdst) fun c hc => hsize₃.symm ▸ hchildren c hc
    refine ⟨l₄, by rw [if_pos rfl, hl₄], hsize₄.trans hsize₃, ?_, ?_, ?_⟩
    · -- liveness
      intro n
      simp only [hlive₄, hlive₃, Function.update_apply]
      by_cases hn : n = m.edge.dst <;> simp [hn]
    · -- parents
      funext n
      simp only [hp₄, hp₃, parentsAfter, habsorbs, Function.update_apply]
      by_cases hn : n = m.edge.dst <;> by_cases hc : n ∈ m.children <;> simp [hn, hc]
    · -- children
      funext n
      simp only [hc₄, hc₃, childrenAfter, habsorbs, Function.update_apply]
      by_cases hn : n = m.edge.dst <;> by_cases hs : n = m.edge.src <;> simp [hn, hs]

end Reshard.Links
