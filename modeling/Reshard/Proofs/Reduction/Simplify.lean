import Reshard.Proofs.Reduction.Preservation

/-! Simplifying is all or nothing.

    Simplifying merges along the queued edges in a copy, and adopts what comes out of it only if all
    of it succeeds. So it does the same as the single merges one after the other, a fault is the
    first one that these meet, and it leaves the reduction alone (`simplify_all_or_nothing`). -/

namespace Reshard

variable {α : Type}

namespace Stage.Coherent

variable {s : Stage α} {fault : Fault α}

theorem exists_of_resolve_error (h : s.Coherent)
    (hresolve : (s.absorptions.resolve (α := α)).2 = .error fault) :
    ∃ n, fault = .absorptionCycle n := by
  obtain ⟨n, -, hfault⟩ := (Absorptions.resolve_error_iff h.composable h.right).1 hresolve
  exact ⟨n, hfault⟩

theorem of_resolve_error (h : s.Coherent)
    (hresolve : (s.absorptions.resolve (α := α)).2 = .error fault) : fault ≠ .outOfRange := by
  obtain ⟨n, rfl⟩ := h.exists_of_resolve_error hresolve
  nofun

variable [Cost α]

theorem mergeFault_of_merge (h : s.Coherent) {e : Edge} (hmerge : s.merge e = .error fault) :
    Graph.MergeFault e fault := by
  rw [Stage.merge, bind_error_iff] at hmerge
  rcases hmerge with hmerge | ⟨_, -, hpure⟩
  · exact h.graph.mergeFault_of_merge hmerge
  · cases hpure

theorem exists_mergeFault : ∀ {edges : List Edge} {s : Stage α}, s.Coherent →
    s.mergeAll edges = .error fault → ∃ e ∈ edges, Graph.MergeFault e fault
  | [], _, _, hrun => nomatch hrun
  | e :: _, _, h, hrun => by
    rw [Stage.mergeAll, bind_error_iff] at hrun
    rcases hrun with hmerge | ⟨⟨s', m⟩, hmerge, hrun⟩
    · exact ⟨e, List.mem_cons_self, h.mergeFault_of_merge hmerge⟩
    · obtain ⟨e', he', hfault⟩ := (h.merge hmerge).exists_mergeFault hrun
      exact ⟨e', List.mem_cons_of_mem _ he', hfault⟩

theorem of_mergeAll_error (h : s.Coherent) {edges : List Edge}
    (hrun : s.mergeAll edges = .error fault) : fault ≠ .outOfRange := by
  obtain ⟨e, -, hfault⟩ := h.exists_mergeFault hrun
  exact hfault.ne_outOfRange

end Stage.Coherent

namespace Reduction

variable [Cost α]

variable {r r' t : Reduction α} {edges done rest : List Edge} {e : Edge} {fault : Fault α}
  {call : Call}

/-! ### One by one -/

/-- Merges along edges by one call after the other. -/
def mergeEach (r : Reduction α) : List Edge → Except (Fault α) (Reduction α)
  | [] => .ok r
  | e :: rest => do
    let (r, _) ← r.merge e
    r.mergeEach rest

/-- The single calls make the same merges as the stages that simplifying goes through. -/
theorem mergeEach_eq : ∀ (edges : List Edge) (r : Reduction α),
    r.mergeEach edges = (r.toStage.mergeAll edges).map fun s => { r with toStage := s }
  | [], _ => rfl
  | e :: rest, r => by
    rw [mergeEach, Stage.mergeAll, merge]
    rcases hmerge : r.toStage.merge e with fault | ⟨s, m⟩
    · rfl
    · exact mergeEach_eq rest { r with toStage := s }

theorem mergeEach_ok_iff : r.mergeEach edges = .ok t ↔
    ∃ s, r.toStage.mergeAll edges = .ok s ∧ { r with toStage := s } = t := by
  rw [mergeEach_eq, map_ok_iff]

theorem mergeEach_error_iff :
    r.mergeEach edges = .error fault ↔ r.toStage.mergeAll edges = .error fault := by
  rw [mergeEach_eq, map_error_iff]

theorem mergeEach_cons {event : Event α} (h : r.merge e = .ok (r', event)) :
    r.mergeEach (e :: rest) = r'.mergeEach rest := by
  rw [mergeEach, h]
  rfl

/-- The fault is that of the first merge that fails. -/
theorem mergeEach_error_iff_first : ∀ {edges : List Edge} {r : Reduction α},
    r.mergeEach edges = .error fault ↔ ∃ done e rest t, edges = done ++ e :: rest ∧
      r.mergeEach done = .ok t ∧ t.merge e = .error fault
  | [], r => by
    refine ⟨nofun, ?_⟩
    rintro ⟨done, e, rest, t, hedges, -⟩
    simp at hedges
  | first :: edges, r => by
    rcases hmerge : r.merge first with fault' | ⟨r', event⟩
    · -- the first merge fails, so it is the one
      rw [mergeEach, hmerge]
      constructor
      · intro hfault
        cases hfault
        exact ⟨[], first, edges, r, rfl, rfl, hmerge⟩
      · rintro ⟨done, e, rest, t, hedges, hdone, hfault⟩
        rcases done with _ | ⟨_, done⟩
        · cases hedges
          cases hdone
          cases hmerge.symm.trans hfault
          rfl
        · cases hedges
          rw [mergeEach, hmerge] at hdone
          cases hdone
    · -- the first merge is made, and the others go on from there
      rw [mergeEach_cons hmerge, mergeEach_error_iff_first]
      constructor
      · rintro ⟨done, e, rest, t, rfl, hdone, hfault⟩
        exact ⟨first :: done, e, rest, t, rfl, (mergeEach_cons hmerge).trans hdone, hfault⟩
      · rintro ⟨done, e, rest, t, hedges, hdone, hfault⟩
        rcases done with _ | ⟨_, done⟩
        · cases hedges
          cases hdone
          cases hmerge.symm.trans hfault
        · cases hedges
          exact ⟨done, e, rest, t, rfl, (mergeEach_cons hmerge).symm.trans hdone, hfault⟩

/-- What merging along all queued edges by single calls, and then resolving, fails with. -/
def FirstFault (r : Reduction α) (fault : Fault α) : Prop :=
  (∃ done e rest t, r.queue.reverse = done ++ e :: rest ∧ r.mergeEach done = .ok t ∧
    t.merge e = .error fault) ∨
  ∃ t, r.mergeEach r.queue.reverse = .ok t ∧ (t.absorptions.resolve (α := α)).2 = .error fault

theorem simplify_error_iff_firstFault (h : r.isPending) :
    r.simplify.2 = .error fault ↔ r.FirstFault fault := by
  rw [simplify_error_iff h, FirstFault, ← mergeEach_error_iff_first, mergeEach_error_iff]
  refine or_congr_right ?_
  simp only [mergeEach_ok_iff, exists_exists_and_eq_and]

/-- A reduction whose queued merges all succeed one by one is simplified to where they lead. -/
theorem simplify_of_mergeEach (h : r.isPending) {absorptions : Absorptions}
    (hrun : r.mergeEach r.queue.reverse = .ok t)
    (hresolve : t.absorptions.resolve (α := α) = (absorptions, .ok ())) :
    r.simplify.2 = .ok { r with graph := t.graph, absorptions, simplified := true } := by
  obtain ⟨s, hs, rfl⟩ := mergeEach_ok_iff.1 hrun
  exact (simplify_ok_iff h).2 ⟨s, absorptions, hs, hresolve, rfl⟩

/-- Either the single calls all succeed and the absorptions can be resolved, or there is a first
    fault. -/
theorem resolves_or_firstFault (r : Reduction α) :
    (∃ t absorptions, r.mergeEach r.queue.reverse = .ok t ∧
      t.absorptions.resolve (α := α) = (absorptions, .ok ())) ∨ ∃ fault, r.FirstFault fault := by
  rcases hrun : r.mergeEach r.queue.reverse with fault | t
  · exact .inr ⟨fault, .inl (mergeEach_error_iff_first.1 hrun)⟩
  · rcases hresolve : t.absorptions.resolve (α := α) with ⟨absorptions, fault | ⟨⟩⟩
    · exact .inr ⟨fault, .inr ⟨t, hrun, by rw [hresolve]⟩⟩
    · exact .inl ⟨t, absorptions, rfl, hresolve⟩

/-! ### All or nothing -/

/-- Simplifying once more does nothing at all, whatever was called in between. -/
theorem simplify_run_of_simplified (h : r.simplified) (calls : List Call) :
    (r.run calls).simplify = ([], .ok (r.run calls)) := by
  refine simplify_of_not_pending ?_
  rw [isPending, (keeps_run calls).simplified h, Bool.not_true, Bool.and_false]

theorem after_simplify_of_ok (h : r.simplify.2 = .ok r') : r.after .simplify = r' :=
  run_simplify h

theorem after_simplify_of_error (h : r.simplify.2 = .error fault) : r.after .simplify = r := by
  rw [after_eq, call?, h]
  rfl

/-- What simplifying the pending reduction `r` leads to, by the merges that single calls would make,
    and what it leaves. -/
structure AllOrNothing (r : Reduction α) : Prop where
  /-- If the queued merges succeed one by one and the absorptions can then be resolved, that is
      where it leads. -/
  simplify_ok {t : Reduction α} {absorptions : Absorptions} :
    r.mergeEach r.queue.reverse = .ok t →
    t.absorptions.resolve (α := α) = (absorptions, .ok ()) →
    r.simplify.2 = .ok { r with graph := t.graph, absorptions, simplified := true }
  /-- Otherwise it fails with the first fault. -/
  simplify_error {fault : Fault α} : r.FirstFault fault → r.simplify.2 = .error fault
  resolves_or_firstFault : (∃ t absorptions, r.mergeEach r.queue.reverse = .ok t ∧
    t.absorptions.resolve (α := α) = (absorptions, .ok ())) ∨ ∃ fault, r.FirstFault fault
  fault_ne {fault : Fault α} : r.simplify.2 = .error fault → fault ≠ .outOfRange
  /-- What it leads to is in place, and simplifying it later does nothing. -/
  after_ok {r' : Reduction α} : r.simplify.2 = .ok r' → r.after .simplify = r' ∧
    ∀ later, (r'.run later).simplify = ([], .ok (r'.run later))
  /-- A fault leaves all as it was, and simplifying meets it again. -/
  after_error {fault : Fault α} : r.simplify.2 = .error fault → r.after .simplify = r ∧
    (r.after .simplify).simplify.2 = .error fault

variable {settings : Settings α} {c : Catalog α}

theorem allOrNothing_of_pending (hs : r.toStage.Coherent) (hpending : r.isPending) :
    r.AllOrNothing where
  simplify_ok := simplify_of_mergeEach hpending
  simplify_error := (simplify_error_iff_firstFault hpending).2
  resolves_or_firstFault := resolves_or_firstFault r
  fault_ne hfails := by
    rcases (simplify_error_iff hpending).1 hfails with hrun | ⟨s, hrun, hresolve⟩
    · exact hs.of_mergeAll_error hrun
    · exact (hs.mergeAll hrun).of_resolve_error hresolve
  after_ok {r'} hsucceeds := by
    refine ⟨after_simplify_of_ok hsucceeds, simplify_run_of_simplified ?_⟩
    obtain ⟨s, absorptions, -, -, rfl⟩ := (simplify_ok_iff hpending).1 hsucceeds
    rfl
  after_error hfails := by
    have hafter := after_simplify_of_error hfails
    exact ⟨hafter, hafter.symm ▸ hfails⟩

/-- Simplifying after any run of calls is all or nothing. -/
theorem simplify_all_or_nothing (h : Startable settings c) (hsimplify : settings.simplify) :
    FromStart settings c fun r => ∀ calls, (r.run calls).simplified = false →
      (r.run calls).AllOrNothing := by
  refine h.fromStart fun r hr => ?_
  intro calls hopen
  refine allOrNothing_of_pending (coherent_run calls hr.coherent) ?_
  rw [isPending, (keeps_run calls).settings, hr.settings_eq, hsimplify, hopen]
  rfl

/-- Three nodes declared in reverse: the queued merges take out the second node before they get to
    the one that merges the first with it. -/
def reversed : Catalog (WithTop ℕ) where
  operators :=
    [⟨"m", [.ofIndex 1], [], [⟨"s", [[0, 1]]⟩, ⟨"t", [[1, 0]]⟩], true⟩,
      ⟨"n", [.ofIndex 2], [.ofIndex 0], [⟨"s", [[1, 0]]⟩, ⟨"t", [[0, 0]]⟩], true⟩,
      ⟨"p", [], [.ofIndex 1], [⟨"s", []⟩, ⟨"t", []⟩], false⟩]

set_option maxRecDepth 4000 in
theorem simplify_braid_or_reversed :
    (FromStart ⟨true, some 8⟩ braid fun r => ∃ r',
      (r.run [.merge ⟨.ofIndex 0, .ofIndex 2⟩]).simplify.2 = .ok r' ∧ r'.simplify = ([], .ok r')) ∧
    FromStart ⟨true, some 8⟩ reversed fun r => ∃ fault,
      r.FirstFault fault ∧ r.simplify.2 = .error fault ∧ r.after .simplify = r := by
  constructor
  · obtain ⟨r, event, hstart, h⟩ := simplify_all_or_nothing braid_startable.toStartable rfl
    have hrun : ((r.run [.merge ⟨.ofIndex 0, .ofIndex 2⟩]).simplified = false) ∧
        (r.run [.merge ⟨.ofIndex 0, .ofIndex 2⟩]).simplify.2.toOption.isSome :=
      of_any (P := fun p : _ × _ =>
        (p.1.run [.merge ⟨.ofIndex 0, .ofIndex 2⟩]).simplified = false ∧
        (p.1.run [.merge ⟨.ofIndex 0, .ofIndex 2⟩]).simplify.2.toOption.isSome)
        (by decide +kernel) hstart
    obtain ⟨r', hr'⟩ := Option.isSome_iff_exists.1 hrun.2
    have hr' := toOption_eq_some_iff.1 hr'
    exact ⟨r, event, hstart, r', hr', ((h _ hrun.1).after_ok hr').2 []⟩
  · have hstartable : Startable ⟨true, some 8⟩ reversed := ⟨by decide, by decide, by decide⟩
    obtain ⟨r, event, hstart, h⟩ := simplify_all_or_nothing hstartable rfl
    have hrun : (r.run []).simplified = false ∧ (r.run []).simplify.2.toOption.isNone :=
      of_any (P := fun p : _ × _ => (p.1.run []).simplified = false ∧
        (p.1.run []).simplify.2.toOption.isNone) (by decide +kernel) hstart
    have hall := h [] hrun.1
    obtain ⟨t, absorptions, ht, hresolve⟩ | ⟨fault, hfault⟩ := hall.resolves_or_firstFault
    · have hsome := hrun.2
      rw [hall.simplify_ok ht hresolve] at hsome
      cases hsome
    · have hfails := hall.simplify_error hfault
      exact ⟨r, event, hstart, fault, hfault, hfails, (hall.after_error hfails).1⟩

end Reduction

end Reshard
