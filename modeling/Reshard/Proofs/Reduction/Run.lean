import Reshard.Proofs.Catalog.Validity
import Reshard.Proofs.Graph.Declared
import Reshard.Proofs.Reduction.Assignment

/-! Runs of calls.

    A caller merges along edges of its choice and simplifies, in any order, and a call that fails
    changes nothing (`after_eq`). Each stage on the way is coherent (`coherent_run`), and sound if
    the first one is (`sound_run`). The history of a run lists the merges that took place with the
    graphs that they started from, and the cost of an assignment changes by what these merges
    account for, no more and no less (`costAt_run`).

    What is assumed of the settings and the catalog of a run is in `Startable` and
    `StartableAcyclic`, and `FromStart` says that the run starts and what then holds. -/

namespace Reshard

variable {α : Type} [Cost α]

/-- A merge and the graph that it started from. -/
structure Applied (α : Type) where
  graph : Graph α
  merge : Merge α

namespace Stage

/-- Merges along edges one after the other. -/
def mergeAll (s : Stage α) : List Edge → Except (Fault α) (Stage α)
  | [] => .ok s
  | e :: rest => do
    let (s, _) ← s.merge e
    s.mergeAll rest

/-- The merges along edges that take place one after the other, up to the first fault. -/
def trace (s : Stage α) : List Edge → List (Applied α)
  | [] => []
  | e :: rest =>
    match s.merge e with
    | .error _ => []
    | .ok (s', m) => ⟨s.graph, m⟩ :: s'.trace rest

end Stage

/-- A call that changes a reduction. -/
inductive Call
  | merge (edge : Edge)
  | simplify

namespace Reduction

/-- The reduction after a call, if the call succeeds. -/
def call? (r : Reduction α) : Call → Option (Reduction α)
  | .merge edge => (r.merge edge).toOption.map (·.1)
  | .simplify => r.simplify.2.toOption

/-- The reduction that a call leaves. A merge that fails has not written anything yet. -/
def after (r : Reduction α) : Call → Reduction α
  | .merge edge => (r.merge edge).toOption.elim r (·.1)
  | .simplify => r.simplifyInPlace.state

/-- The edges that a call merges along. -/
def edges (r : Reduction α) : Call → List Edge
  | .merge edge => [edge]
  | .simplify => if r.isPending then r.queue.reverse else []

/-- The merges that a call makes; one that fails makes none. -/
def log (r : Reduction α) (call : Call) : List (Applied α) :=
  if (r.call? call).isSome then r.toStage.trace (r.edges call) else []

/-- The reduction after a run of calls. -/
def run (r : Reduction α) (calls : List Call) : Reduction α := calls.foldl after r

/-- The merges that a run of calls makes. -/
def history (r : Reduction α) : List Call → List (Applied α)
  | [] => []
  | call :: calls => r.log call ++ (r.after call).history calls

end Reduction

/-! ### The start -/

namespace Reduction

/-- The settings pass their check, and so does the catalog, all of whose nodes can be named. -/
structure Startable (settings : Settings α) (c : Catalog α) : Prop where
  settings_valid : settings.Valid
  fits : c.Fits
  checked : c.defect? = none

/-- Besides, no node of the catalog precedes itself. -/
structure StartableAcyclic (settings : Settings α) (c : Catalog α) : Prop
    extends Startable settings c where
  acyclic : c.Acyclic

/-- The reduction of the catalog starts, and `P` holds of it. -/
abbrev FromStart (settings : Settings α) (c : Catalog α) (P : Reduction α → Prop) : Prop :=
  ∃ r event, start settings c = .ok (r, event) ∧ P r

/-- The reduction `r` is the one that a run for a consistent catalog starts from. -/
structure Started (settings : Settings α) (c : Catalog α) (r : Reduction α) : Prop where
  fits : c.Fits
  consistent : c.Consistent
  graph : (c.map settings.clip).Declares r.graph
  absorptions : r.absorptions = .empty
  names : r.names = c.operators.map (·.name)
  queue : r.queue = if settings.simplify then c.mergeEdges else []
  settings_eq : r.settings = settings
  simplified : r.simplified = false

variable {rank : NodeId → Nat} {settings : Settings α} {c : Catalog α} {r : Reduction α}

theorem Startable.consistent (h : Startable settings c) : c.Consistent :=
  ((Catalog.defect?_eq_none_iff h.fits).1 h.checked).1

theorem Startable.validCosts (h : Startable settings c) : c.ValidCosts :=
  ((Catalog.defect?_eq_none_iff h.fits).1 h.checked).2

/-- A catalog that passes the check can be reduced. -/
theorem Startable.exists_start (h : Startable settings c) :
    ∃ r event, start settings c = .ok (r, event) ∧ Started settings c r := by
  obtain ⟨g, hg, hdeclares⟩ :=
    Catalog.exists_graph? (c := c.map settings.clip) h.fits.map h.consistent.map
  let queue := if settings.simplify then c.mergeEdges else []
  let r : Reduction α :=
    { graph := g, absorptions := .empty, names := c.operators.map (·.name), queue, settings,
      simplified := false }
  have hstarted : Started settings c r :=
    { fits := h.fits
      consistent := h.consistent
      graph := hdeclares
      absorptions := rfl
      names := rfl
      queue := rfl
      settings_eq := rfl
      simplified := rfl }
  refine ⟨r, .built c.size g.tables.size queue.length, ?_, hstarted⟩
  rw [start, Settings.check_eq_ok_iff.2 h.settings_valid, Catalog.check_eq, h.checked, hg]
  rfl

theorem Startable.fromStart {P : Reduction α → Prop} (h : Startable settings c)
    (hP : ∀ r, Started settings c r → P r) : FromStart settings c P := by
  obtain ⟨r, event, hstart, hr⟩ := h.exists_start
  exact ⟨r, event, hstart, hP r hr⟩

/-- A reduction that was started is one of a consistent catalog. -/
theorem of_start_ok {event : Event α} (hfits : c.Fits)
    (hstart : start settings c = .ok (r, event)) : Started settings c r := by
  have hrun := hstart
  rw [start, bind_ok_iff] at hrun
  obtain ⟨_, hsettings, hrun⟩ := hrun
  obtain ⟨_, hcheck, -⟩ := bind_ok_iff.1 hrun
  rw [Catalog.check_eq, Catalog.verdict_eq_ok_iff] at hcheck
  obtain ⟨r', event', hstart', h⟩ :=
    Startable.exists_start ⟨Settings.check_eq_ok_iff.1 hsettings, hfits, hcheck⟩
  cases hstart.symm.trans hstart'
  exact h

theorem Started.get_entries (h : Started settings c r) {n : NodeId} :
    r.absorptions.entries[n]? = none := by
  rw [h.absorptions, Absorptions.empty, Std.ExtTreeMap.getElem?_empty]

/-- The declared graph is a coherent stage at which no node is absorbed. -/
theorem Started.coherent (h : Started settings c r) : r.toStage.Coherent where
  graph := h.graph.coherent h.fits.map h.consistent.map
  mem_entries := by
    intro n
    rw [h.graph.isLive_iff, h.graph.size, Std.ExtTreeMap.mem_iff_isSome_getElem?,
      h.get_entries]
    simp
  width_into := fun hn => by cases h.get_entries.symm.trans hn
  lt_width := fun hn => by cases h.get_entries.symm.trans hn
  right := by
    rw [h.absorptions]
    exact Absorptions.right_empty

/-- It is sound if the declared nodes are ranked. -/
theorem Started.sound (h : Started settings c r)
    (hrank : ∀ p n, c.Precedes p n → rank p < rank n) : r.toStage.Sound rank := by
  refine h.coherent.sound ?_ ?_
  · exact h.graph.sound h.fits.map h.consistent.map fun p n hpn =>
      hrank p n (Catalog.precedes_map.1 hpn)
  · intro n entry hn
    cases h.get_entries.symm.trans hn

/-- A catalog without cycles that passes the check can be reduced, from a sound stage on. -/
theorem StartableAcyclic.fromStart_sound {P : Reduction α → Prop} (h : StartableAcyclic settings c)
    (hP : ∀ r rank, Started settings c r → r.toStage.Sound rank → P r) :
    FromStart settings c P := by
  obtain ⟨rank, hrank⟩ := Catalog.exists_rank h.fits h.consistent h.acyclic
  exact h.fromStart fun r hr => hP r rank hr (hr.sound hrank)

/-- Queued edges lead to mergeable nodes. -/
theorem Started.mergeable_of_mem_queue (h : Started settings c r) {e : Edge}
    (he : e ∈ r.queue) : ∃ op, c.get? e.dst = some op ∧ op.mergeable := by
  rw [h.queue] at he
  split at he
  · obtain ⟨op, hop, hmergeable, -⟩ := (Catalog.mem_mergeEdges h.fits).1 he
    exact ⟨op, hop, hmergeable⟩
  · cases he

end Reduction

/-! ### Several merges -/

namespace Stage

variable {rank : NodeId → Nat} {s s' s'' : Stage α} {e : Edge} {m : Merge α} {rest : List Edge}

theorem mergeAll_cons (h : s.merge e = .ok (s', m)) :
    s.mergeAll (e :: rest) = s'.mergeAll rest := by
  rw [mergeAll, h]
  rfl

theorem of_mergeAll_cons (h : s.mergeAll (e :: rest) = .ok s'') :
    ∃ s' m, s.merge e = .ok (s', m) ∧ s'.mergeAll rest = .ok s'' := by
  obtain ⟨⟨s', m⟩, hmerge, hrest⟩ := bind_ok_iff.1 h
  exact ⟨s', m, hmerge, hrest⟩

theorem trace_cons (h : s.merge e = .ok (s', m)) :
    s.trace (e :: rest) = ⟨s.graph, m⟩ :: s'.trace rest := by
  rw [trace, h]

theorem Coherent.mergeAll : ∀ {edges : List Edge} {s s' : Stage α}, s.Coherent →
    s.mergeAll edges = .ok s' → s'.Coherent
  | [], _, _, h, hrun => by cases hrun; exact h
  | _ :: _, _, _, h, hrun => by
    obtain ⟨_, _, hmerge, hrun⟩ := of_mergeAll_cons hrun
    exact (h.merge hmerge).mergeAll hrun

theorem Sound.mergeAll : ∀ {edges : List Edge} {s s' : Stage α}, s.Sound rank →
    s.mergeAll edges = .ok s' → s'.Sound rank
  | [], _, _, h, hrun => by cases hrun; exact h
  | _ :: _, _, _, h, hrun => by
    obtain ⟨_, _, hmerge, hrun⟩ := of_mergeAll_cons hrun
    exact (h.merge hmerge).mergeAll hrun

/-- Widths stay. -/
theorem Coherent.widths_mergeAll : ∀ {edges : List Edge} {s s' : Stage α}, s.Coherent →
    s.mergeAll edges = .ok s' → s'.graph.widths = s.graph.widths
  | [], _, _, _, hrun => by cases hrun; rfl
  | _ :: _, _, _, h, hrun => by
    obtain ⟨_, _, hmerge, hrun⟩ := of_mergeAll_cons hrun
    rw [(h.merge hmerge).widths_mergeAll hrun, (h.of_merge hmerge).2.2.widths]

/-- Entries stay. -/
theorem Coherent.get_entries_mergeAll {n : NodeId} {entry : Absorption} :
    ∀ {edges : List Edge} {s s' : Stage α}, s.Coherent → s.mergeAll edges = .ok s' →
    s.absorptions.entries[n]? = some entry → s'.absorptions.entries[n]? = some entry
  | [], _, _, _, hrun, hn => by cases hrun; exact hn
  | _ :: _, _, _, h, hrun, hn => by
    obtain ⟨_, _, hmerge, hrun⟩ := of_mergeAll_cons hrun
    exact (h.merge hmerge).get_entries_mergeAll hrun (h.get_entries_of_merge hmerge hn)

/-- If the nodes to merge have at most one parent, each of them is absorbed. -/
theorem Sound.absorbs_of_single {P : NodeId → Prop} : ∀ {edges : List Edge} {s : Stage α},
    s.Sound rank → (∀ n, P n → s.graph.Single n) → (∀ e ∈ edges, P e.dst) →
    ∀ a ∈ s.trace edges, a.merge.absorbs
  | [], _, _, _, _ => nofun
  | e :: rest, s, h, hsingle, hedges => by
    rcases hmerge : s.merge e with fault | ⟨s', m⟩
    · rw [trace, hmerge]
      exact nofun
    · obtain ⟨rfl, hm, hg⟩ := h.coherent.of_merge hmerge
      have habsorbs := hm.absorbs_of_single (hsingle _ (hedges _ List.mem_cons_self))
      rw [trace_cons hmerge, List.forall_mem_cons]
      refine ⟨habsorbs, (h.merge hmerge).absorbs_of_single ?_
        fun e he => hedges e (List.mem_cons_of_mem _ he)⟩
      intro n hn
      exact (hsingle n hn).performed h.graph hm hg habsorbs

end Stage

/-! ### Calls -/

namespace Reduction

variable {rank : NodeId → Nat} {r r' : Reduction α} {call : Call} {settings : Settings α}
  {c : Catalog α}

/-- The merges that simplifying makes on its copy, and the fault of the first one that fails. -/
theorem replay_eq (names : List String) : ∀ (edges : List Edge) (s : Stage α),
    (replay names s edges).result.map (fun () => (replay names s edges).state) = s.mergeAll edges
  | [], _ => rfl
  | e :: rest, s => by
    rw [replay, Stage.mergeAll]
    cases hmerge : s.merge e with
    | error fault => rfl
    | ok result => exact replay_eq names rest result.1

/-- Simplifying leaves all as it was when it fails, however far its copy had come. -/
theorem simplifyInPlace_state_of_error {fault : Fault α}
    (hfault : r.simplifyInPlace.result = .error fault) : r.simplifyInPlace.state = r := by
  rw [simplifyInPlace] at hfault ⊢
  split at hfault
  next hdone => rw [if_pos hdone]
  next hopen =>
    rw [if_neg hopen]
    generalize r.simplifyCopy r.toStage = copy at hfault ⊢
    rcases copy with ⟨copy, events, fault' | ⟨⟩⟩
    · rfl
    · cases hfault

theorem simplify_of_not_pending (h : r.isPending = false) : r.simplify = ([], .ok r) := by
  rw [simplify, simplifyInPlace, h]
  rfl

/-- What simplifying leads to: the queued merges one after the other, then the resolved chains. -/
theorem simplify_eq (h : r.isPending) : r.simplify.2 =
    r.toStage.mergeAll r.queue.reverse >>= fun s =>
      (s.absorptions.resolve (α := α)).2.map fun () =>
        r.finish { s with absorptions := (s.absorptions.resolve (α := α)).1 } := by
  rw [simplify, simplifyInPlace, h, Bool.not_true, if_neg Bool.false_ne_true, simplifyCopy,
    ← replay_eq r.names]
  rcases replay r.names r.toStage r.queue.reverse with ⟨s, events, fault | ⟨⟩⟩
  · rfl
  · change _ = (s.absorptions.resolve (α := α)).2.map _
    rcases s.absorptions.resolve (α := α) with ⟨absorptions, fault | ⟨⟩⟩ <;> rfl

/-- Simplifying succeeds exactly if all queued merges do and the absorptions can be resolved. -/
theorem simplify_ok_iff (h : r.isPending) : r.simplify.2 = .ok r' ↔ ∃ s absorptions,
    r.toStage.mergeAll r.queue.reverse = .ok s ∧
      s.absorptions.resolve (α := α) = (absorptions, .ok ()) ∧
      r.finish { s with absorptions } = r' := by
  simp only [simplify_eq h, bind_ok_iff, map_ok_iff, Prod.ext_iff]
  simp [Unique.exists_iff]

/-- Simplifying fails with the fault of the queued merges, or with that of resolving afterwards. -/
theorem simplify_error_iff (h : r.isPending) {fault : Fault α} : r.simplify.2 = .error fault ↔
    r.toStage.mergeAll r.queue.reverse = .error fault ∨
      ∃ s, r.toStage.mergeAll r.queue.reverse = .ok s ∧
        (s.absorptions.resolve (α := α)).2 = .error fault := by
  simp only [simplify_eq h, bind_error_iff, map_error_iff]

/-- A call that fails changes nothing. -/
theorem after_eq (r : Reduction α) : ∀ call : Call, r.after call = (r.call? call).getD r
  | .merge edge => by
    rw [after, call?]
    cases r.merge edge <;> rfl
  | .simplify => by
    rw [after, call?, simplify]
    cases hresult : r.simplifyInPlace.result with
    | error fault => exact simplifyInPlace_state_of_error hresult
    | ok _ => rfl

theorem run_simplify (h : r.simplify.2 = .ok r') : r.run [.simplify] = r' := by
  have hcall : r.call? .simplify = some r' := toOption_eq_some_iff.2 h
  change r.after .simplify = r'
  rw [after_eq, hcall]
  rfl

theorem merge_ok_iff {e : Edge} {event : Event α} : r.merge e = .ok (r', event) ↔
    ∃ s m, r.toStage.merge e = .ok (s, m) ∧ { r with toStage := s } = r' ∧
      mergeEvent r.names s.graph m = event := by
  simp only [merge, bind_ok_iff, pure_ok_iff, Prod.mk.injEq, Prod.exists]

theorem call?_merge_iff {e : Edge} : r.call? (.merge e) = some r' ↔
    ∃ s m, r.toStage.merge e = .ok (s, m) ∧ { r with toStage := s } = r' := by
  simp only [call?, Option.map_eq_some_iff, toOption_eq_some_iff, Prod.exists]
  constructor
  · rintro ⟨r', event, hmerge, rfl⟩
    obtain ⟨s, m, hmerge, hs, -⟩ := merge_ok_iff.1 hmerge
    exact ⟨s, m, hmerge, hs⟩
  · rintro ⟨s, m, hmerge, hs⟩
    exact ⟨r', _, merge_ok_iff.2 ⟨s, m, hmerge, hs, rfl⟩, rfl⟩

theorem call?_simplify_iff : r.call? .simplify = some r' ↔
    r.isPending = false ∧ r = r' ∨ r.isPending ∧ ∃ s absorptions,
      r.toStage.mergeAll r.queue.reverse = .ok s ∧
        s.absorptions.resolve (α := α) = (absorptions, .ok ()) ∧
        r.finish { s with absorptions } = r' := by
  rw [call?, toOption_eq_some_iff]
  cases hpending : r.isPending with
  | false => simp [simplify_of_not_pending hpending]
  | true => simp [simplify_ok_iff hpending]

/-- What the two calls have in common: the merges along their edges succeed and lead to the new
    graph and entries; only the resolved entries are brought up to date on top of that. -/
theorem of_call? (h : r.toStage.Coherent) (hcall : r.call? call = some r') :
    ∃ s, r.toStage.mergeAll (r.edges call) = .ok s ∧ r'.graph = s.graph ∧
      r'.absorptions.entries = s.absorptions.entries ∧ r'.toStage.Coherent := by
  cases call with
  | merge edge =>
    obtain ⟨s, m, hmerge, rfl⟩ := call?_merge_iff.1 hcall
    exact ⟨s, Stage.mergeAll_cons hmerge, rfl, rfl, h.merge hmerge⟩
  | simplify =>
    rw [edges]
    rcases call?_simplify_iff.1 hcall with
      ⟨hpending, rfl⟩ | ⟨hpending, s, absorptions, hrun, hresolve, rfl⟩
    · rw [hpending]
      exact ⟨r.toStage, rfl, rfl, rfl, h⟩
    · obtain ⟨-, hentries, hs⟩ := (h.mergeAll hrun).resolve hresolve
      rw [hpending]
      exact ⟨s, hrun, rfl, hentries, hs⟩

/-- What calls leave alone. -/
structure Keeps (r r' : Reduction α) : Prop where
  names : r'.names = r.names
  queue : r'.queue = r.queue
  settings : r'.settings = r.settings
  simplified : r.simplified → r'.simplified

theorem keeps_of_call? (hcall : r.call? call = some r') : r.Keeps r' := by
  cases call with
  | merge edge =>
    obtain ⟨s, m, -, rfl⟩ := call?_merge_iff.1 hcall
    exact ⟨rfl, rfl, rfl, id⟩
  | simplify =>
    rcases call?_simplify_iff.1 hcall with ⟨-, rfl⟩ | ⟨-, s, absorptions, -, -, rfl⟩
    · exact ⟨rfl, rfl, rfl, id⟩
    · exact ⟨rfl, rfl, rfl, fun _ => rfl⟩

theorem keeps_after : r.Keeps (r.after call) := by
  rw [after_eq]
  cases hcall : r.call? call with
  | none => exact ⟨rfl, rfl, rfl, id⟩
  | some r' => exact keeps_of_call? hcall

theorem keeps_run : ∀ (calls : List Call) {r : Reduction α}, r.Keeps (r.run calls)
  | [], _ => ⟨rfl, rfl, rfl, id⟩
  | call :: calls, r => by
    have hafter : r.Keeps (r.after call) := keeps_after
    have hrest : (r.after call).Keeps ((r.after call).run calls) := keeps_run calls
    exact {
      names := hrest.names.trans hafter.names
      queue := hrest.queue.trans hafter.queue
      settings := hrest.settings.trans hafter.settings
      simplified := fun h => hrest.simplified (hafter.simplified h) }

theorem coherent_after (h : r.toStage.Coherent) : (r.after call).toStage.Coherent := by
  rw [after_eq]
  cases hcall : r.call? call with
  | none => exact h
  | some r' =>
    obtain ⟨-, -, -, -, h'⟩ := of_call? h hcall
    exact h'

theorem coherent_run : ∀ (calls : List Call) {r : Reduction α}, r.toStage.Coherent →
    (r.run calls).toStage.Coherent
  | [], _, h => h
  | _ :: calls, _, h => coherent_run calls (coherent_after h)

theorem sound_after (h : r.toStage.Sound rank) : (r.after call).toStage.Sound rank := by
  have h' : (r.after call).toStage.Coherent := coherent_after h.coherent
  rw [after_eq] at h' ⊢
  cases hcall : r.call? call with
  | none => exact h
  | some r' =>
    rw [hcall] at h'
    obtain ⟨s, hrun, hgraph, hentries, -⟩ := of_call? h.coherent hcall
    have hs := h.mergeAll hrun
    refine h'.sound (hgraph ▸ hs.graph) fun hn => hs.rank_into ?_
    rw [← hentries]
    exact hn

theorem sound_run : ∀ (calls : List Call) {r : Reduction α}, r.toStage.Sound rank →
    (r.run calls).toStage.Sound rank
  | [], _, h => h
  | _ :: calls, _, h => sound_run calls (sound_after h)

theorem widths_after (h : r.toStage.Coherent) : (r.after call).graph.widths = r.graph.widths := by
  rw [after_eq]
  cases hcall : r.call? call with
  | none => rfl
  | some r' =>
    obtain ⟨s, hrun, hgraph, -⟩ := of_call? h hcall
    rw [Option.getD_some, hgraph, h.widths_mergeAll hrun]

theorem widths_run : ∀ (calls : List Call) {r : Reduction α}, r.toStage.Coherent →
    (r.run calls).graph.widths = r.graph.widths
  | [], _, _ => rfl
  | _ :: calls, _, h => (widths_run calls (coherent_after h)).trans (widths_after h)

/-- Along a run each declared node keeps its number of strategies. -/
theorem Started.width?_run (h : Started settings c r) (calls : List Call) (n : NodeId) :
    (r.run calls).graph.width? n = c.width? n := by
  rw [Graph.width?, widths_run calls h.coherent, ← Graph.width?, h.graph.width?,
    Catalog.width?_map]

theorem Started.size_run (h : Started settings c r) (calls : List Call) :
    (r.run calls).size = c.size := by
  rw [size, Graph.size, widths_run calls h.coherent, ← Graph.size, h.graph.size, Catalog.size_map]

theorem get_entries_after (h : r.toStage.Coherent) {n : NodeId} {entry : Absorption}
    (hn : r.absorptions.entries[n]? = some entry) :
    (r.after call).absorptions.entries[n]? = some entry := by
  rw [after_eq]
  cases hcall : r.call? call with
  | none => exact hn
  | some r' =>
    obtain ⟨s, hrun, -, hentries, -⟩ := of_call? h hcall
    rw [Option.getD_some, hentries]
    exact h.get_entries_mergeAll hrun hn

theorem get_entries_run {n : NodeId} {entry : Absorption} : ∀ (calls : List Call)
    {r : Reduction α}, r.toStage.Coherent → r.absorptions.entries[n]? = some entry →
    (r.run calls).absorptions.entries[n]? = some entry
  | [], _, _, hn => hn
  | _ :: calls, _, h, hn => get_entries_run calls (coherent_after h) (get_entries_after h hn)

/-- A declared node with at most one predecessor has at most one parent. -/
theorem Started.single (h : Started settings c r) {n : NodeId} {op : Operator α}
    (hop : c.get? n = some op) (hlen : op.predecessors.length ≤ 1) : r.graph.Single n := by
  intro p hp q hq
  rw [h.graph.parents, Catalog.predecessors_map, Catalog.mem_predecessors] at hp hq
  exact Catalog.eq_of_precedes hop hlen hp hq

/-- If mergeable nodes have at most one predecessor, simplifying absorbs the nodes it merges. -/
theorem absorbs_of_single (h : Started settings c r) (hsound : r.toStage.Sound rank)
    (hsingle : ∀ n op, c.get? n = some op → op.mergeable → op.predecessors.length ≤ 1) :
    ∀ a ∈ r.log .simplify, a.merge.absorbs := by
  intro a ha
  let P (n : NodeId) : Prop := ∃ op, c.get? n = some op ∧ op.mergeable
  have hparents : ∀ n, P n → r.graph.Single n := by
    rintro n ⟨op, hop, hmergeable⟩
    exact h.single hop (hsingle n op hop hmergeable)
  have hedges : ∀ e ∈ r.edges .simplify, P e.dst := by
    intro e he
    rw [edges] at he
    split at he
    · exact h.mergeable_of_mem_queue (List.mem_reverse.1 he)
    · cases he
  rw [log] at ha
  split at ha
  · exact hsound.absorbs_of_single hparents hedges a ha
  · cases ha

end Reduction

/-! ### Costs along a run -/

/-- Each node runs a strategy that it has, and an absorbed node runs the one that follows. -/
structure Stage.Obeyed (s : Stage α) (f : NodeId → Nat) : Prop where
  lt_width {n : NodeId} {w : Nat} : s.graph.width? n = some w → f n < w
  follows {n : NodeId} {entry : Absorption} : s.absorptions.entries[n]? = some entry →
    entry.map[f entry.into]? = some (f n)

namespace Applied

/-- What a merge with a node that stays takes away: the cost of the edge between the two. -/
def released (a : Applied α) (f : NodeId → Nat) : α :=
  if a.merge.absorbs then 0
  else a.graph.weight a.merge.edge (f a.merge.edge.src) (f a.merge.edge.dst)

/-- What all merges of a history release. -/
def allReleased (history : List (Applied α)) (f : NodeId → Nat) : α :=
  (history.map (·.released f)).sum

variable {a : Applied α} {history later : List (Applied α)} {f : NodeId → Nat}

theorem allReleased_cons :
    allReleased (a :: history) f = a.released f + allReleased history f :=
  List.sum_cons

variable [ExactCost α]

/-- What a merge with a node that stays adds: all that the chosen strategy of that node costs. -/
def added (a : Applied α) (f : NodeId → Nat) : α :=
  if a.merge.absorbs then 0
  else
    let chosen := (a.merge.choice[f a.merge.edge.src]?).getD 0
    a.graph.weight a.merge.edge (f a.merge.edge.src) chosen +
      a.graph.outCost f a.graph.nodes a.merge.edge.dst chosen

/-- What all merges of a history add. -/
def allAdded (history : List (Applied α)) (f : NodeId → Nat) : α :=
  (history.map (·.added f)).sum

theorem allAdded_cons : allAdded (a :: history) f = a.added f + allAdded history f :=
  List.sum_cons

theorem allReleased_append :
    allReleased (history ++ later) f = allReleased history f + allReleased later f := by
  rw [allReleased, List.map_append, List.sum_append]
  rfl

theorem allAdded_append :
    allAdded (history ++ later) f = allAdded history f + allAdded later f := by
  rw [allAdded, List.map_append, List.sum_append]
  rfl

end Applied

variable [ExactCost α] {rank : NodeId → Nat} {f : NodeId → Nat}

/-- A merge takes away what it releases and adds what it adds. -/
theorem Stage.Sound.costAt_merge {s s' : Stage α} {e : Edge} {m : Merge α} (h : s.Sound rank)
    (hmerge : s.merge e = .ok (s', m)) (hf : s'.Obeyed f) :
    s'.graph.costAt f + (Applied.mk s.graph m).released f =
      s.graph.costAt f + (Applied.mk s.graph m).added f := by
  obtain ⟨-, hm, hg⟩ := h.coherent.of_merge hmerge
  rw [Applied.released, Applied.added]
  cases habsorbs : m.absorbs with
  | true =>
    have hentry : s'.absorptions.entries[m.edge.dst]? = some ⟨m.edge.src, m.choice⟩ := by
      rw [get_entries_merge hmerge, if_pos ⟨habsorbs, rfl⟩]
    rw [Graph.costAt_of_absorbs h.graph hm hg habsorbs (hf.follows hentry)]
    rfl
  | false =>
    have hlt : f m.edge.src < m.choice.length := by
      refine hf.lt_width ?_
      rw [hg.width?, hm.width_src h.graph.toShaped]
    have hi : m.choice[f m.edge.src]? = some ((m.choice[f m.edge.src]?).getD 0) := by
      rw [List.getElem?_eq_getElem hlt]
      rfl
    exact Graph.costAt_of_kept h.graph hm hg habsorbs hi

theorem Stage.Sound.costAt_mergeAll : ∀ {edges : List Edge} {s s' : Stage α}, s.Sound rank →
    s.mergeAll edges = .ok s' → s'.Obeyed f →
    s'.graph.costAt f + Applied.allReleased (s.trace edges) f =
      s.graph.costAt f + Applied.allAdded (s.trace edges) f
  | [], _, _, _, hrun, _ => by cases hrun; rfl
  | e :: rest, s, s'', h, hrun, hf => by
    obtain ⟨s', m, hmerge, hrun⟩ := of_mergeAll_cons hrun
    have h' := h.merge hmerge
    have hwidths := h'.coherent.widths_mergeAll hrun
    have hf' : s'.Obeyed f := by
      refine ⟨fun hw => hf.lt_width ?_,
        fun hn => hf.follows (h'.coherent.get_entries_mergeAll hrun hn)⟩
      rw [Graph.width?, hwidths]
      exact hw
    have hstep := h.costAt_merge hmerge hf'
    have hrest := h'.costAt_mergeAll hrun hf
    rw [trace_cons hmerge, Applied.allReleased_cons, Applied.allAdded_cons]
    calc s''.graph.costAt f + ((Applied.mk s.graph m).released f +
            Applied.allReleased (s'.trace rest) f)
        = s''.graph.costAt f + Applied.allReleased (s'.trace rest) f +
            (Applied.mk s.graph m).released f := by ac_rfl
      _ = s'.graph.costAt f + (Applied.mk s.graph m).released f +
            Applied.allAdded (s'.trace rest) f := by rw [hrest]; ac_rfl
      _ = s.graph.costAt f + ((Applied.mk s.graph m).added f +
            Applied.allAdded (s'.trace rest) f) := by rw [hstep]; ac_rfl

namespace Reduction

theorem costAt_after {r : Reduction α} {call : Call} (h : r.toStage.Sound rank)
    (hf : (r.after call).toStage.Obeyed f) :
    (r.after call).graph.costAt f + Applied.allReleased (r.log call) f =
      r.graph.costAt f + Applied.allAdded (r.log call) f := by
  rw [after_eq] at hf ⊢
  rw [log]
  cases hcall : r.call? call with
  | none => rfl
  | some r' =>
    rw [hcall] at hf
    obtain ⟨s, hrun, hgraph, hentries, -⟩ := of_call? h.coherent hcall
    rw [Option.getD_some] at hf ⊢
    rw [Option.isSome_some, if_pos rfl, hgraph]
    exact h.costAt_mergeAll hrun ⟨fun hw => hf.lt_width (hgraph ▸ hw),
      fun hn => hf.follows (hentries ▸ hn)⟩

/-- The cost of an assignment changes along a run by what its merges release and add. -/
theorem costAt_run : ∀ (calls : List Call) {r : Reduction α}, r.toStage.Sound rank →
    (r.run calls).toStage.Obeyed f →
    (r.run calls).graph.costAt f + Applied.allReleased (r.history calls) f =
      r.graph.costAt f + Applied.allAdded (r.history calls) f
  | [], _, _, _ => rfl
  | call :: calls, r, h, hf => by
    have h' : (r.after call).toStage.Sound rank := sound_after h
    have hwidths := widths_run calls h'.coherent
    have hf' : (r.after call).toStage.Obeyed f := by
      refine ⟨fun hw => hf.lt_width ?_, fun hn => hf.follows (get_entries_run calls h'.coherent hn)⟩
      exact (congrArg (·[_]?) hwidths).trans hw
    have hstep := costAt_after h hf'
    have hrest := costAt_run calls h' hf
    rw [history, Applied.allReleased_append, Applied.allAdded_append]
    calc (r.run (call :: calls)).graph.costAt f + (Applied.allReleased (r.log call) f +
            Applied.allReleased ((r.after call).history calls) f)
        = (r.run (call :: calls)).graph.costAt f +
            Applied.allReleased ((r.after call).history calls) f +
            Applied.allReleased (r.log call) f := by ac_rfl
      _ = (r.after call).graph.costAt f + Applied.allReleased (r.log call) f +
            Applied.allAdded ((r.after call).history calls) f := by
          rw [show r.run (call :: calls) = (r.after call).run calls from rfl, hrest]
          ac_rfl
      _ = r.graph.costAt f + (Applied.allAdded (r.log call) f +
            Applied.allAdded ((r.after call).history calls) f) := by rw [hstep]; ac_rfl

end Reduction

end Reshard
