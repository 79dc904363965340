import Reshard.Proofs.Reduction.Replay

/-! Representatives and completed assignments.

    A node is represented by the live node at the end of its chain of absorptions. Further calls
    only lengthen chains at that end, so the representative of a node is at any time that of its
    former one (`representative_run`). An assignment of strategies to the live nodes is completed in
    one way (`complete_ok_iff`), and resolving absorptions beforehand changes neither. -/

namespace Reshard.Reduction

variable {α : Type} {r : Reduction α} {assignment full other : List Nat} {n root : NodeId}

/-! ### Representatives -/

section Representatives

variable (h : r.toStage.Coherent) (hends : ∀ n, Absorptions.Ends r.absorptions.entries n)
include h hends

theorem representative_ok_iff : r.representative n = .ok root ↔
    n.index < r.size ∧ ∃ outer, Absorptions.LeadsTo r.absorptions.entries root n outer := by
  rw [representative]
  split
  next hn => rw [Absorptions.representative_ok_iff h.composable h.right (hends n), and_iff_right hn]
  next hn =>
    constructor
    · intro hroot
      cases hroot
    · exact fun hroot => absurd hroot.1 hn

theorem exists_representative (hn : n.index < r.size) : ∃ root, r.representative n = .ok root := by
  obtain ⟨root, outer, hleads⟩ := (hends n).exists_leadsTo h.composable
  exact ⟨root, (representative_ok_iff h hends).2 ⟨hn, outer, hleads⟩⟩

theorem isLive_representative (hroot : r.representative n = .ok root) :
    r.graph.links.isLive root := by
  obtain ⟨hn, outer, hleads⟩ := (representative_ok_iff h hends).1 hroot
  exact h.isLive_root hn hleads

/-- A node stands for itself as long as it is live. -/
theorem representative_eq_iff (hroot : r.representative n = .ok root) :
    root = n ↔ r.graph.links.isLive n := by
  have hlive := isLive_representative h hends hroot
  obtain ⟨-, outer, hleads⟩ := (representative_ok_iff h hends).1 hroot
  constructor
  · rintro rfl
    exact hlive
  · intro hn
    cases hleads with
    | here => rfl
    | into hentry => exact absurd hn (h.mem_entries.1 (FiniteMap.mem_of_get hentry)).2

end Representatives

/-- After further calls a node is represented by whatever represents its former representative. -/
theorem representative_run [Cost α] {rank : NodeId → Nat} (h : r.toStage.Sound rank)
    (hroot : r.representative n = .ok root) (calls : List Call) :
    (r.run calls).representative n = (r.run calls).representative root := by
  have h' := sound_run calls h
  have hsize : (r.run calls).size = r.size := by
    rw [size, Graph.size, widths_run calls h.coherent, size, Graph.size]
  obtain ⟨hn, outer, hleads⟩ := (representative_ok_iff h.coherent h.ends).1 hroot
  have hlt : root.index < r.size :=
    h.graph.toShaped.index_lt_of_isLive (isLive_representative h.coherent h.ends hroot)
  obtain ⟨passed, hpassed⟩ := hleads.exists_follows
  have hkept := hpassed.mono fun n entry => get_entries_run calls h.coherent
  obtain ⟨root', hrun⟩ := exists_representative h'.coherent h'.ends (hsize ▸ hlt)
  obtain ⟨-, outer', hleads'⟩ := (representative_ok_iff h'.coherent h'.ends).1 hrun
  rw [hrun, representative_ok_iff h'.coherent h'.ends]
  exact ⟨hsize ▸ hn, hleads'.of_follows h'.coherent.composable hkept⟩

/-! ### Completed assignments -/

/-- The assignments agree at the live nodes. -/
def SameLive (r : Reduction α) (assignment other : List Nat) : Prop :=
  ∀ n, r.graph.links.isLive n → other[n.index]? = assignment[n.index]?

theorem SameLive.chosenAt_eq (hsame : r.SameLive assignment other)
    (hn : r.graph.links.isLive n) : chosenAt other n = chosenAt assignment n := by
  rw [chosenAt, hsame n hn, chosenAt]

theorem SameLive.admits (hsame : r.SameLive assignment other) (hlen : other.length = r.size)
    (ha : r.Admits assignment) : r.Admits other :=
  ⟨hlen, fun n w hn hw => hsame.chosenAt_eq hn ▸ ha.2 n w hn hw⟩

section Completing

variable (h : r.toStage.Coherent) (hends : ∀ n, Absorptions.Ends r.absorptions.entries n)
include h hends

theorem sameLive_of_complete (hfull : r.complete assignment = .ok full) :
    r.SameLive assignment full := by
  obtain ⟨-, hcompletes⟩ := (complete_ok_iff h hends).1 hfull
  intro n hn
  exact hcompletes.of_none
    (Std.ExtTreeMap.getElem?_eq_none fun hmem => (h.mem_entries.1 hmem).2 hn)

/-- Exactly the admitted assignments can be completed. -/
theorem exists_complete_iff :
    (∃ full, r.complete assignment = .ok full) ↔ r.Admits assignment := by
  constructor
  · rintro ⟨full, hfull⟩
    exact ((complete_ok_iff h hends).1 hfull).1
  · intro ha
    obtain ⟨full, hfull, -⟩ := exists_complete h hends ha
    exact ⟨full, hfull⟩

/-- Assignments that agree at the live nodes are completed to the same one. -/
theorem complete_of_sameLive (hfull : r.complete assignment = .ok full)
    (hlen : other.length = r.size) (hsame : r.SameLive assignment other) :
    r.complete other = .ok full := by
  obtain ⟨ha, hcompletes⟩ := (complete_ok_iff h hends).1 hfull
  refine (complete_ok_iff h hends).2 ⟨hsame.admits hlen ha, ?_⟩
  refine ⟨hcompletes.length_eq.trans (ha.1.trans hlen.symm), ?_, hcompletes.of_some⟩
  intro n hn
  rw [hcompletes.of_none hn]
  by_cases hlt : n.index < r.size
  · refine (hsame n ?_).symm
    by_contra hlive
    obtain ⟨entry, hentry⟩ := FiniteMap.exists_get (h.mem_entries.2 ⟨hlt, hlive⟩)
    cases hn.symm.trans hentry
  · rw [List.getElem?_eq_none (ha.1.trans_le (Nat.le_of_not_lt hlt)),
      List.getElem?_eq_none (hlen.trans_le (Nat.le_of_not_lt hlt))]

end Completing

/-! ### Resolved or not -/

/-- The same entries, with other ones resolved. -/
def withResolved (r : Reduction α) (resolved : Std.ExtTreeMap NodeId Absorption) : Reduction α :=
  { r with absorptions := { r.absorptions with resolved } }

section Resolved

variable (h : r.toStage.Coherent) (hends : ∀ n, Absorptions.Ends r.absorptions.entries n)
  {resolved : Std.ExtTreeMap NodeId Absorption}
  (hright : Absorptions.Right r.absorptions.entries resolved)
include h hends hright

theorem representative_withResolved :
    (r.withResolved resolved).representative n = r.representative n := by
  have h' : (r.withResolved resolved).toStage.Coherent := { h with right := hright }
  by_cases hn : n.index < r.size
  · obtain ⟨root, hroot⟩ := exists_representative h hends hn
    rw [hroot, representative_ok_iff h' hends]
    exact (representative_ok_iff h hends).1 hroot
  · rw [representative, representative, if_neg hn]
    exact if_neg hn

theorem complete_withResolved :
    (r.withResolved resolved).complete assignment = r.complete assignment := by
  have h' : (r.withResolved resolved).toStage.Coherent := { h with right := hright }
  by_cases ha : r.Admits assignment
  · obtain ⟨full, hfull, -⟩ := exists_complete h hends ha
    rw [hfull, complete_ok_iff h' hends]
    exact (complete_ok_iff h hends).1 hfull
  · -- the check fails before the absorptions are looked at
    have hcheck : (r.withResolved resolved).checkEntries assignment = r.checkEntries assignment :=
      rfl
    rw [complete, complete, hcheck]
    cases hfault : r.checkEntries assignment with
    | error fault => rfl
    | ok => exact absurd ((checkEntries_ok h.graph.toShaped).1 hfault) ha

end Resolved

/-! ### Runs -/

variable [Cost α]

/-- The live node `root` stands for `n`, now and whatever is called later. -/
structure Represents (r : Reduction α) (root n : NodeId) : Prop where
  representative : r.representative n = .ok root
  live : r.graph.links.isLive root
  eq_iff : root = n ↔ r.graph.links.isLive n
  later (calls : List Call) : (r.run calls).representative n = (r.run calls).representative root

/-- The assignment `full` is what the strategies of the live nodes in `assignment` amount to. -/
structure Extends (r : Reduction α) (assignment full : List Nat) : Prop where
  length_eq : full.length = r.size
  keeps_live : r.SameLive assignment full
  lt_width {n : NodeId} {w : Nat} : r.graph.width? n = some w → ∃ j, full[n.index]? = some j ∧ j < w
  /-- The maps along the chain of a node are applied from the live end on. -/
  eq_applyAll {n root : NodeId} : r.representative n = .ok root → ∃ passed,
    Absorptions.Follows r.absorptions.entries root n passed ∧
      full[n.index]? = Absorptions.applyAll passed assignment[root.index]?
  of_sameLive {other : List Nat} : other.length = r.size → r.SameLive assignment other →
    r.complete other = .ok full
  fixed : r.complete full = .ok full
  same_cost : ∃ total, r.cost assignment = .ok total ∧ r.cost full = .ok total

theorem extends_of_complete (h : r.toStage.Coherent)
    (hends : ∀ n, Absorptions.Ends r.absorptions.entries n)
    (hfull : r.complete assignment = .ok full) : r.Extends assignment full := by
  obtain ⟨ha, hcompletes⟩ := (complete_ok_iff h hends).1 hfull
  have hlen : full.length = r.size := hcompletes.length_eq.trans ha.1
  have hsame := sameLive_of_complete h hends hfull
  refine {
    length_eq := hlen
    keeps_live := hsame
    lt_width := ?_
    eq_applyAll := ?_
    of_sameLive := complete_of_sameLive h hends hfull
    fixed := complete_of_sameLive h hends hfull hlen hsame
    same_cost := ?_ }
  · intro n w hw
    have hlt : n.index < full.length := hlen ▸ Graph.index_lt_of_width? hw
    exact ⟨chosenAt full n, getElem?_eq_chosenAt hlt, chosenAt_lt h hcompletes ha w hw⟩
  · intro n root hroot
    obtain ⟨-, outer, hleads⟩ := (representative_ok_iff h hends).1 hroot
    obtain ⟨passed, hpassed⟩ := hleads.exists_follows
    refine ⟨passed, hpassed, ?_⟩
    rw [hcompletes.eq_applyAll hpassed, hsame root (isLive_representative h hends hroot)]
  · refine ⟨_, cost_ok h ha, ?_⟩
    rw [← cost_ok h ha]
    exact cost_congr h (hsame.admits hlen ha) ha fun n => hsame.chosenAt_eq

/-- Each node has one live node that stands for it. -/
theorem exists_represents {rank : NodeId → Nat} (h : r.toStage.Sound rank) (hn : n.index < r.size) :
    ∃ root, r.Represents root n := by
  obtain ⟨root, hroot⟩ := exists_representative h.coherent h.ends hn
  exact ⟨root, {
    representative := hroot
    live := isLive_representative h.coherent h.ends hroot
    eq_iff := representative_eq_iff h.coherent h.ends hroot
    later := representative_run h hroot }⟩

variable {settings : Settings α} {c : Catalog α}

/-- The nodes of the catalog `c` have representatives in `s` and its assignments are completed
    there, no matter which absorptions are resolved. -/
structure Represented (c : Catalog α) (s : Reduction α) : Prop where
  exists_represents {n : NodeId} : n.index < c.size → ∃ root, s.Represents root n
  exists_complete_iff {assignment : List Nat} :
    (∃ full, s.complete assignment = .ok full) ↔ s.Admits assignment
  of_complete {assignment full : List Nat} : s.complete assignment = .ok full →
    s.Extends assignment full
  exists_settled : ∃ resolved, s.absorptions.settled (α := α) = .ok { s.absorptions with resolved }
  /-- It makes no difference if no absorption is resolved, or all are. -/
  withResolved {resolved : Std.ExtTreeMap NodeId Absorption} : resolved = ∅ ∨
      s.absorptions.settled (α := α) = .ok { s.absorptions with resolved } →
    (∀ n, (s.withResolved resolved).representative n = s.representative n) ∧
    ∀ assignment, (s.withResolved resolved).complete assignment = s.complete assignment

theorem represented_of_sound {rank : NodeId → Nat} (h : r.toStage.Sound rank)
    (hsize : r.size = c.size) : Represented c r := by
  obtain ⟨settled, hsettled, hright, -⟩ :=
    Absorptions.exists_settled (α := α) h.coherent.composable h.coherent.right h.ends
  exact {
    exists_represents := fun hn => exists_represents h (hsize ▸ hn)
    exists_complete_iff := exists_complete_iff h.coherent h.ends
    of_complete := extends_of_complete h.coherent h.ends
    exists_settled := ⟨settled, hsettled⟩
    withResolved := by
      intro resolved hresolved
      have hright' : Absorptions.Right r.absorptions.entries resolved := by
        rcases hresolved with rfl | hresolved
        · exact Absorptions.right_empty
        · cases hresolved.symm.trans hsettled
          exact hright
      exact ⟨fun n => representative_withResolved h.coherent h.ends hright',
        fun assignment => complete_withResolved h.coherent h.ends hright'⟩ }

/-- After any run of calls for a catalog without cycles, each node has a representative, exactly the
    admitted assignments can be completed, and it does not matter which absorptions are resolved. -/
theorem consistent_representatives (h : StartableAcyclic settings c) :
    FromStart settings c fun r => ∀ calls, Represented c (r.run calls) :=
  h.fromStart_sound fun _ _ hr hsound calls =>
    represented_of_sound (sound_run calls hsound) (hr.size_run calls)

/-- Merges after which two absorbed nodes form a chain that is not resolved. -/
def chainCalls : List Call :=
  [.merge ⟨.ofIndex 0, .ofIndex 2⟩, .merge ⟨.ofIndex 1, .ofIndex 2⟩,
    .merge ⟨.ofIndex 0, .ofIndex 1⟩]

set_option maxRecDepth 4000 in
theorem weave_consistent_representatives : FromStart ⟨true, some 8⟩ weave fun r =>
    (∃ root, (r.run chainCalls).Represents root (.ofIndex 2)) ∧
    ∃ full, (r.run chainCalls).complete [1, 9, 9, 0] = .ok full ∧
      (r.run chainCalls).Extends [1, 9, 9, 0] full := by
  obtain ⟨r, event, hstart, h⟩ := consistent_representatives weave_startable
  have ha : (r.run chainCalls).Admits [1, 9, 9, 0] :=
    of_any (P := fun p : _ × _ => (p.1.run chainCalls).Admits [1, 9, 9, 0]) (by decide +kernel)
      hstart
  obtain ⟨full, hfull⟩ := (h chainCalls).exists_complete_iff.2 ha
  exact ⟨r, event, hstart, (h chainCalls).exists_represents (by decide), full, hfull,
    (h chainCalls).of_complete hfull⟩

end Reshard.Reduction
