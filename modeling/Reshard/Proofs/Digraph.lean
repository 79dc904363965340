import Mathlib.Data.List.Nodup
import Mathlib.Data.List.Perm.Basic
import Mathlib.Logic.Relation
import Reshard.Digraph
import Reshard.Proofs.Outcome

/-! Sorting a directed graph.

    While the search runs, each node is in one of three states: not yet seen, waiting to be left, or
    finished. A node that waits reaches everything above it among the tasks, and each of its
    successors is finished, or is a task above it, or reaches it back (`Covered`). So when a node is
    finished, those of its successors that are not finished yet reach it back (`Settled`).

    An edge that leads against the order of the finished nodes therefore lies on a cycle. `sort`
    finds such edges only if there are any: a sorted list has each node once and behind its
    predecessors (`of_sort_ok`), and a fault is a node on a cycle (`of_sort_error`). So exactly the
    graphs without cycles can be sorted (`exists_sort_iff`). -/

namespace Reshard.Digraph

variable {d : Digraph} {node n p s : NodeId} {unseen finished order nodes : List NodeId}
  {tasks : List Task} {edges : List Edge} {handled handled' : NodeId → Prop}

/-- There is an edge from `p` to `n`. -/
def Linked (d : Digraph) (p n : NodeId) : Prop := (⟨p, n⟩ : Edge) ∈ d.edges

/-- There is a path, which may be empty. -/
def Reaches (d : Digraph) : NodeId → NodeId → Prop := Relation.ReflTransGen d.Linked

/-- Each node is listed once, and so are the ends of all edges. -/
structure Closed (d : Digraph) : Prop where
  nodup : d.nodes.Nodup
  mem_ends {p n : NodeId} : d.Linked p n → p ∈ d.nodes ∧ n ∈ d.nodes

theorem mem_successors : n ∈ d.successors p ↔ d.Linked p n := by
  simp only [successors, Linked, List.mem_map, List.mem_filter, decide_eq_true_eq]
  constructor
  · rintro ⟨e, ⟨he, rfl⟩, rfl⟩
    exact he
  · exact fun h => ⟨_, ⟨h, rfl⟩, rfl⟩

theorem mem_predecessors : p ∈ d.predecessors n ↔ d.Linked p n := by
  simp only [predecessors, Linked, List.mem_map, List.mem_filter, decide_eq_true_eq]
  constructor
  · rintro ⟨e, ⟨he, rfl⟩, rfl⟩
    exact he
  · exact fun h => ⟨_, ⟨h, rfl⟩, rfl⟩

/-! ### Graphs given by their edges -/

theorem mem_enter : n ∈ enter nodes node ↔ n ∈ nodes ∨ n = node := by
  rw [enter]
  split
  next h => exact ⟨.inl, fun hn => hn.elim id fun heq => heq ▸ h⟩
  next => rw [List.mem_append, List.mem_singleton]

theorem nodup_enter (h : nodes.Nodup) : (enter nodes node).Nodup := by
  rw [enter]
  split
  · exact h
  next hnot => exact List.Nodup.append h (List.nodup_singleton _) (by simpa using hnot)

theorem nodes_ofEdges_cons {e : Edge} : (ofEdges nodes (e :: edges)).nodes =
    (ofEdges (enter (enter nodes e.src) e.dst) edges).nodes := rfl

theorem mem_nodes_ofEdges :
    n ∈ (ofEdges nodes edges).nodes ↔ n ∈ nodes ∨ ∃ e ∈ edges, n = e.src ∨ n = e.dst := by
  induction edges generalizing nodes with
  | nil => simp [ofEdges]
  | cons e edges ih =>
    rw [nodes_ofEdges_cons, ih, mem_enter, mem_enter]
    simp only [List.mem_cons, exists_eq_or_imp, or_assoc]

theorem nodup_nodes_ofEdges (h : nodes.Nodup) : (ofEdges nodes edges).nodes.Nodup := by
  induction edges generalizing nodes with
  | nil => exact h
  | cons e edges ih =>
    rw [nodes_ofEdges_cons]
    exact ih (nodup_enter (nodup_enter h))

theorem closed_ofEdges (h : nodes.Nodup) : (ofEdges nodes edges).Closed where
  nodup := nodup_nodes_ofEdges h
  mem_ends hpn := ⟨mem_nodes_ofEdges.2 (.inr ⟨_, hpn, .inl rfl⟩),
    mem_nodes_ofEdges.2 (.inr ⟨_, hpn, .inr rfl⟩)⟩

/-! ### The search -/

/-- The node of a task. -/
def Task.about : Task → NodeId
  | enter node => node
  | leave node => node

/-- The nodes that wait to be left. -/
def leaving : List Task → List NodeId
  | [] => []
  | .enter _ :: tasks => leaving tasks
  | .leave node :: tasks => node :: leaving tasks

/-- A successor of a finished node was finished before it, or reaches it back. The node finished
    last comes first. -/
def Settled (d : Digraph) : List NodeId → Prop
  | [] => True
  | n :: before => (∀ s ∈ d.successors n, s ∈ before ∨ d.Reaches s n) ∧ d.Settled before

/-- A successor of a node that waits is handled before the node is left, or reaches it back. What
    has been handled before the tasks start is `handled`. -/
def Covered (d : Digraph) (handled : NodeId → Prop) : List Task → Prop
  | [] => True
  | .enter n :: tasks => d.Covered (fun s => handled s ∨ s = n) tasks
  | .leave n :: tasks => (∀ s ∈ d.successors n, handled s ∨ d.Reaches s n) ∧
      d.Covered (fun s => handled s ∨ s = n) tasks

theorem mem_leaving : ∀ {tasks : List Task}, n ∈ leaving tasks ↔ Task.leave n ∈ tasks
  | [] => by simp [leaving]
  | .enter m :: tasks => by simp [leaving, mem_leaving]
  | .leave m :: tasks => by simp [leaving, mem_leaving]

theorem leaving_append_enters (nodes : List NodeId) :
    leaving (nodes.map .enter ++ tasks) = leaving tasks := by
  induction nodes with
  | nil => rfl
  | cons node nodes ih => exact ih

theorem Settled.of_append {after before : List NodeId} (h : d.Settled (after ++ n :: before)) :
    ∀ s ∈ d.successors n, s ∈ before ∨ d.Reaches s n := by
  induction after with
  | nil => exact h.1
  | cons m after ih => exact ih h.2

namespace Covered

theorem mono (himp : ∀ s, handled s → handled' s) (h : d.Covered handled tasks) :
    d.Covered handled' tasks := by
  induction tasks generalizing handled handled' with
  | nil => trivial
  | cons task tasks ih =>
    cases task with
    | enter n => exact ih (fun s => Or.imp_left (himp s)) h
    | leave n =>
      exact ⟨fun s hs => Or.imp_left (himp s) (h.1 s hs), ih (fun s => Or.imp_left (himp s)) h.2⟩

/-- Nodes to be entered count as handled. -/
theorem append_enters (h : d.Covered (fun s => handled s ∨ s ∈ nodes) tasks) :
    d.Covered handled (nodes.map .enter ++ tasks) := by
  induction nodes generalizing handled with
  | nil => exact h.mono fun s hs => hs.resolve_right List.not_mem_nil
  | cons node nodes ih =>
    refine ih (h.mono ?_)
    intro s hs
    rwa [List.mem_cons, ← or_assoc] at hs

/-- A node that waits itself need not count as handled: above it all nodes that wait are reached
    from it. -/
theorem of_leave (hmem : Task.leave node ∈ tasks)
    (hreach : tasks.Pairwise fun x y => ∀ p, y = .leave p → d.Reaches p x.about)
    (h : d.Covered (fun s => handled s ∨ s = node) tasks) : d.Covered handled tasks := by
  induction tasks generalizing handled with
  | nil => cases hmem
  | cons task tasks ih =>
    obtain ⟨habove, hrest⟩ := List.pairwise_cons.1 hreach
    cases task with
    | enter n =>
      have hmem := (List.mem_cons.1 hmem).resolve_left nofun
      exact ih hmem hrest (mono (fun s hs => or_right_comm.1 hs) h)
    | leave n =>
      rcases List.mem_cons.1 hmem with heq | hmem
      · cases heq
        refine ⟨fun s hs => ?_, mono (fun s hs => hs.elim id .inr) h.2⟩
        rcases h.1 s hs with (hs | rfl) | hs
        · exact .inl hs
        · exact .inr .refl
        · exact .inr hs
      · refine ⟨fun s hs => ?_, ih hmem hrest (mono (fun s hs => or_right_comm.1 hs) h.2)⟩
        rcases h.1 s hs with (hs | rfl) | hs
        · exact .inl hs
        · exact .inr (habove _ hmem _ rfl)
        · exact .inr hs

end Covered

/-- What holds while the search runs. -/
structure Search (d : Digraph) (unseen finished : List NodeId) (tasks : List Task) : Prop where
  perm : (unseen ++ leaving tasks ++ finished).Perm d.nodes
  mem_nodes {n : NodeId} : Task.enter n ∈ tasks → n ∈ d.nodes
  mem_tasks {n : NodeId} : n ∈ unseen → Task.enter n ∈ tasks
  not_linked {n : NodeId} : n ∈ d.nodes → n ∉ unseen → ¬ d.Linked n n
  /-- A node that waits reaches the nodes above it. -/
  reaches : tasks.Pairwise fun x y => ∀ p, y = .leave p → d.Reaches p x.about
  covered : d.Covered (· ∈ finished) tasks
  settled : d.Settled finished

namespace Search

theorem initial (d : Digraph) : d.Search d.nodes [] (d.nodes.map .enter) where
  perm := by
    rw [← List.append_nil (d.nodes.map _), leaving_append_enters, leaving, List.append_nil,
      List.append_nil]
  mem_nodes hn := by simpa using hn
  mem_tasks hn := List.mem_map_of_mem hn
  not_linked hn hnot := absurd hn hnot
  reaches := by
    refine List.pairwise_map.2 (List.pairwise_of_forall ?_)
    exact fun _ _ _ => nofun
  covered := by
    rw [← List.append_nil (d.nodes.map _)]
    exact Covered.append_enters trivial
  settled := trivial

/-- The node that was waiting on top is finished. -/
theorem leave (h : d.Search unseen finished (.leave node :: tasks)) :
    d.Search unseen (node :: finished) tasks where
  perm := by
    refine List.Perm.trans ?_ h.perm
    simp only [leaving, List.append_assoc]
    exact List.Perm.append_left _ List.perm_middle
  mem_nodes hn := h.mem_nodes (List.mem_cons_of_mem _ hn)
  mem_tasks hn := (List.mem_cons.1 (h.mem_tasks hn)).resolve_left nofun
  not_linked := h.not_linked
  reaches := (List.pairwise_cons.1 h.reaches).2
  covered := h.covered.2.mono fun _ hs => List.mem_cons.2 hs.symm
  settled := ⟨h.covered.1, h.settled⟩

/-- A node that was seen before is passed over. -/
theorem skip (h : d.Search unseen finished (.enter node :: tasks)) (hnode : node ∉ unseen) :
    d.Search unseen finished tasks where
  perm := h.perm
  mem_nodes hn := h.mem_nodes (List.mem_cons_of_mem _ hn)
  mem_tasks hn := (List.mem_cons.1 (h.mem_tasks hn)).resolve_left fun heq => by
    cases heq
    exact hnode hn
  not_linked := h.not_linked
  reaches := (List.pairwise_cons.1 h.reaches).2
  covered := by
    have hseen := h.perm.mem_iff.2 (h.mem_nodes List.mem_cons_self)
    rw [List.mem_append, List.mem_append, or_iff_right hnode] at hseen
    rcases hseen with hwaits | hdone
    · exact .of_leave (mem_leaving.1 hwaits) (List.pairwise_cons.1 h.reaches).2 h.covered
    · exact h.covered.mono fun s hs => hs.elim id fun heq => heq ▸ hdone
  settled := h.settled

/-- A node that is entered waits below its successors. -/
theorem enter (hd : d.Closed) (h : d.Search unseen finished (.enter node :: tasks))
    (hnode : node ∈ unseen) (hloop : ¬ d.Linked node node) :
    d.Search (unseen.erase node) finished
      ((d.successors node).reverse.map .enter ++ .leave node :: tasks) where
  perm := by
    rw [leaving_append_enters, leaving]
    refine List.Perm.trans ?_ h.perm
    refine List.Perm.append_right _ (List.perm_middle.trans ?_)
    exact List.Perm.append_right _ (List.perm_cons_erase hnode).symm
  mem_nodes {n} hn := by
    rw [List.mem_append, List.mem_map] at hn
    rcases hn with ⟨s, hs, heq⟩ | hn
    · cases heq
      exact (hd.mem_ends (mem_successors.1 (List.mem_reverse.1 hs))).2
    · exact h.mem_nodes (List.mem_cons_of_mem _ ((List.mem_cons.1 hn).resolve_left nofun))
  mem_tasks {n} hn := by
    have hnodup : unseen.Nodup := by
      have := h.perm.nodup_iff.2 hd.nodup
      rw [List.append_assoc] at this
      exact this.of_append_left
    obtain ⟨hne, hn⟩ := hnodup.mem_erase_iff.1 hn
    refine List.mem_append_right _ (List.mem_cons_of_mem _ ?_)
    refine (List.mem_cons.1 (h.mem_tasks hn)).resolve_left fun heq => ?_
    cases heq
    exact hne rfl
  not_linked {n} hn hnot := by
    by_cases heq : n = node
    · exact heq ▸ hloop
    · exact h.not_linked hn fun hmem => hnot ((List.mem_erase_of_ne heq).2 hmem)
  reaches := by
    obtain ⟨habove, hreach⟩ := List.pairwise_cons.1 h.reaches
    refine List.pairwise_append.2 ⟨?_, List.pairwise_cons.2 ⟨habove, hreach⟩, ?_⟩
    · -- among the successors nothing waits
      refine List.pairwise_map.2 (List.pairwise_of_forall ?_)
      exact fun _ _ _ => nofun
    · -- what waits below reaches the node, and so its successors
      intro x hx y hy p hp
      obtain ⟨s, hs, rfl⟩ := List.mem_map.1 hx
      have hlink : d.Linked node s := mem_successors.1 (List.mem_reverse.1 hs)
      have hpn : d.Reaches p node := by
        rcases List.mem_cons.1 hy with rfl | hy
        · cases hp
          exact .refl
        · exact habove y hy p hp
      exact hpn.tail hlink
  covered := by
    refine Covered.append_enters ⟨fun s hs => .inl (.inr (List.mem_reverse.2 hs)), ?_⟩
    exact h.covered.mono fun s hs => hs.imp_left .inl
  settled := h.settled

end Search

/-- The search finishes every node, or it meets an edge from a node to itself. -/
theorem search_spec (hd : d.Closed) (h : d.Search unseen finished tasks) :
    match d.search unseen finished tasks with
    | .ok order => d.Search [] order []
    | .error n => d.Linked n n := by
  induction unseen, finished, tasks using search.induct d with
  | case1 unseen finished =>
    rw [search]
    have hempty : unseen = [] :=
      List.eq_nil_iff_forall_not_mem.2 fun n hn => absurd (h.mem_tasks hn) List.not_mem_nil
    exact hempty ▸ h
  | case2 unseen finished node tasks ih =>
    rw [search]
    exact ih h.leave
  | case3 unseen finished node tasks hnode hloop =>
    rw [search, if_pos hnode, if_pos hloop]
    exact mem_successors.1 hloop
  | case4 unseen finished node tasks hnode hloop ih =>
    rw [search, if_pos hnode, if_neg hloop]
    exact ih (h.enter hd hnode fun hlink => hloop (mem_successors.2 hlink))
  | case5 unseen finished node tasks hnode ih =>
    rw [search, if_neg hnode]
    exact ih (h.skip hnode)

/-! ### The check -/

/-- In a list that passes the check nodes come after their predecessors. -/
theorem of_check_ok : ∀ {rest seen : List NodeId}, d.check seen rest = .ok () →
    n ∈ rest → d.Linked p n → p ≠ n → p ∈ seen ∨ [p, n].Sublist rest
  | m :: rest, seen, h, hn, hpn, hne => by
    rw [check] at h
    split at h
    next => cases h
    next hnone =>
      rcases List.mem_cons.1 hn with rfl | hn'
      · have hall := List.getLast?_eq_none_iff.1 hnone
        rw [List.filter_eq_nil_iff] at hall
        have hp := hall p (mem_predecessors.2 hpn)
        simp only [List.mem_cons, decide_eq_true_eq, not_not] at hp
        exact .inl (hp.resolve_left hne)
      · rcases of_check_ok h hn' hpn hne with hp | hp
        · rcases List.mem_cons.1 hp with rfl | hp
          · exact .inr (List.Sublist.cons_cons _ (List.singleton_sublist.2 hn'))
          · exact .inl hp
        · exact .inr (hp.cons m)

/-- The check names a predecessor that does not come before its node. -/
theorem of_check_error : ∀ {rest seen : List NodeId}, d.check seen rest = .error p →
    ∃ pre n post, rest = pre ++ n :: post ∧ d.Linked p n ∧ p ∉ seen ∧ p ∉ pre ∧ p ≠ n
  | m :: rest, seen, h => by
    rw [check] at h
    split at h
    next found hfound =>
      cases h
      have hmem := List.mem_of_getLast? hfound
      simp only [List.mem_filter, List.mem_cons, not_or, decide_eq_true_eq] at hmem
      exact ⟨[], m, rest, rfl, mem_predecessors.1 hmem.1, hmem.2.2, List.not_mem_nil, hmem.2.1⟩
    next =>
      obtain ⟨pre, n, post, rfl, hpn, hseen, hpre, hne⟩ := of_check_error h
      rw [List.mem_cons, not_or] at hseen
      refine ⟨m :: pre, n, post, rfl, hpn, hseen.2, ?_, hne⟩
      rw [List.mem_cons, not_or]
      exact ⟨hseen.1, hpre⟩

/-! ### Sorting -/

/-- A sorted list has each node once, and the source of each edge before its destination. -/
theorem of_sort_ok (hd : d.Closed) (h : d.sort = .ok order) :
    order.Perm d.nodes ∧ ∀ p n, d.Linked p n → [p, n].Sublist order := by
  simp only [sort, bind_ok_iff, pure_ok_iff] at h
  obtain ⟨order', hsearch, _, hcheck, rfl⟩ := h
  have hspec := search_spec hd (Search.initial d)
  rw [hsearch] at hspec
  have hperm : order'.Perm d.nodes := hspec.perm
  refine ⟨hperm, ?_⟩
  intro p n hpn
  have hmem := (hd.mem_ends hpn).2
  have hne : p ≠ n := by
    rintro rfl
    exact hspec.not_linked hmem List.not_mem_nil hpn
  exact (of_check_ok hcheck (hperm.mem_iff.2 hmem) hpn hne).resolve_left List.not_mem_nil

/-- A node that cannot be sorted is on a cycle. -/
theorem of_sort_error (hd : d.Closed) (h : d.sort = .error n) : Relation.TransGen d.Linked n n := by
  have hspec := search_spec hd (Search.initial d)
  rw [sort, bind_error_iff] at h
  rcases h with hsearch | ⟨order, hsearch, h⟩
  · rw [hsearch] at hspec
    exact .single hspec
  · rw [hsearch] at hspec
    rw [bind_error_iff] at h
    rcases h with hcheck | ⟨_, -, hpure⟩
    · obtain ⟨pre, m, post, hsplit, hlink, -, hpre, hne⟩ := of_check_error hcheck
      have hperm : order.Perm d.nodes := hspec.perm
      -- the node was finished before `m`, its successor, which must therefore reach it back
      have hmem : n ∈ post := by
        have := hperm.mem_iff.2 (hd.mem_ends hlink).1
        rw [hsplit, List.mem_append, List.mem_cons] at this
        tauto
      obtain ⟨post₁, post₂, rfl⟩ := List.append_of_mem hmem
      have hnodup : order.Nodup := hperm.nodup_iff.2 hd.nodup
      have hsettled := hspec.settled
      have hsplit' : order = (pre ++ m :: post₁) ++ n :: post₂ := by rw [hsplit]; simp
      rw [hsplit'] at hsettled hnodup
      rcases hsettled.of_append m (mem_successors.2 hlink) with hback | hback
      · have hdisjoint := List.disjoint_of_nodup_append hnodup
        exact absurd (List.mem_cons_of_mem n hback)
          (hdisjoint (List.mem_append_right _ List.mem_cons_self))
      · exact .head' hlink hback
    · cases hpure

theorem idxOf_lt_of_sublist (hnodup : order.Nodup) (hpn : [p, n].Sublist order) :
    order.idxOf p < order.idxOf n := by
  obtain ⟨before, after, rfl, hp, hn⟩ := List.cons_sublist_iff.1 hpn
  have hn : n ∈ after := List.singleton_sublist.1 hn
  have hnot : n ∉ before := fun hmem => List.disjoint_of_nodup_append hnodup hmem hn
  rw [List.idxOf_append_of_mem hp, List.idxOf_append_of_notMem hnot]
  exact Nat.lt_add_right _ (List.idxOf_lt_length_of_mem hp)

/-- A path leads on in a sorted list, and so not back to its start. -/
theorem not_transGen_of_sort (hd : d.Closed) (h : d.sort = .ok order) :
    ¬ Relation.TransGen d.Linked n n := by
  obtain ⟨hperm, hsorted⟩ := of_sort_ok hd h
  have hnodup : order.Nodup := hperm.nodup_iff.2 hd.nodup
  intro hcycle
  have hindex : Relation.TransGen (· < ·) (order.idxOf n) (order.idxOf n) :=
    hcycle.lift order.idxOf fun p n hpn => idxOf_lt_of_sublist hnodup (hsorted p n hpn)
  rw [Relation.transGen_eq_self] at hindex
  exact Nat.lt_irrefl _ hindex

/-- Exactly the graphs without cycles can be sorted. -/
theorem exists_sort_iff (hd : d.Closed) :
    (∃ order, d.sort = .ok order) ↔ ∀ n, ¬ Relation.TransGen d.Linked n n := by
  constructor
  · rintro ⟨order, h⟩ n
    exact not_transGen_of_sort hd h
  · intro hacyclic
    cases h : d.sort with
    | ok order => exact ⟨order, rfl⟩
    | error n => exact absurd (of_sort_error hd h) (hacyclic n)

end Reshard.Digraph
