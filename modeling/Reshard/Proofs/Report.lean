import Reshard.Proofs.Lines
import Reshard.Proofs.Reduction.Representative
import Reshard.Report

/-! What a report says about absorbed nodes.

    A report ends in the lines about absorbed nodes, one for each resolved entry, under a heading
    that is there as long as some node is absorbed. A merge that absorbs a node makes the resolved
    entries void, and only simplifying makes new ones. So either every absorbed node has its line,
    or the heading stands alone; which of the two depends on the merges since all chains were last
    resolved (`report_run`). -/

namespace Reshard.Reduction

variable {α : Type} {r : Reduction α}

/-- The listed nodes are the absorbed ones. Each of them comes once, with the live node that stands
    for it and the map by which its strategy follows when an assignment is completed. -/
structure Accounts (r : Reduction α) (listed : List (NodeId × Absorption)) : Prop where
  nodup : (listed.map (·.1)).Nodup
  mem_iff {n : NodeId} : n ∈ listed.map (·.1) ↔ n.index < r.size ∧ ¬ r.graph.links.isLive n
  representative {n : NodeId} {a : Absorption} : (n, a) ∈ listed →
    r.representative n = .ok a.into
  live {n : NodeId} {a : Absorption} : (n, a) ∈ listed → r.graph.links.isLive a.into
  width_into {n : NodeId} {a : Absorption} : (n, a) ∈ listed →
    r.graph.width? a.into = some a.map.length
  complete {n : NodeId} {a : Absorption} {assignment full : List Nat} : (n, a) ∈ listed →
    r.complete assignment = .ok full →
      full[n.index]? = assignment[a.into.index]?.bind a.strategy?

/-- Right entries of all absorbed nodes account for them. -/
theorem accounts_of_right (h : r.toStage.Coherent)
    (hends : ∀ n, Absorptions.Ends r.absorptions.entries n)
    {resolved : Std.ExtTreeMap NodeId Absorption}
    (hright : Absorptions.Right r.absorptions.entries resolved)
    (hall : ∀ n ∈ r.absorptions.entries, n ∈ resolved) : r.Accounts resolved.toList := by
  have hkeys : resolved.toList.map (·.1) = resolved.keys := Std.ExtTreeMap.map_fst_toList_eq_keys
  have hleads {n : NodeId} {a : Absorption} (hn : (n, a) ∈ resolved.toList) :
      n.index < r.size ∧
        Absorptions.LeadsTo r.absorptions.entries a.into n (some a.map) := by
    have hfound := Std.ExtTreeMap.mem_toList_iff_getElem?_eq_some.1 hn
    have hentry := hright.mem_entries (FiniteMap.mem_of_get hfound)
    exact ⟨(h.mem_entries.1 hentry).1, hright n a hfound⟩
  exact
    { nodup := hkeys ▸ Std.ExtTreeMap.nodup_keys
      mem_iff := by
        intro n
        rw [hkeys, Std.ExtTreeMap.mem_keys]
        exact ⟨fun hn => h.mem_entries.1 (hright.mem_entries hn),
          fun hn => hall n (h.mem_entries.2 hn)⟩
      representative := fun hn =>
        (representative_ok_iff h hends).2 ⟨(hleads hn).1, _, (hleads hn).2⟩
      live := fun hn => h.isLive_root (hleads hn).1 (hleads hn).2
      width_into := fun hn => h.width_root (hleads hn).2 rfl
      complete := fun hn hfull =>
        ((complete_ok_iff h hends).1 hfull).2.eq_of_leadsTo (hleads hn).2 }

/-! ### Lines -/

/-- There is one line for each absorbed node, and a heading above them if there are any. -/
def ListsAbsorbed (r : Reduction α) : Prop :=
  ∃ listed, r.Accounts listed ∧ r.absorbedLines =
    if listed.isEmpty then [] else "Absorbed:" :: listed.map fun (n, a) => r.absorbedLine n a

/-- A report is that of the live graph, followed by the lines about absorbed nodes. -/
theorem report_eq [CostFormat α] : r.report = { r with absorptions := .empty }.report ++
    String.join (r.absorbedLines.map (· ++ "\n")) := by
  have hnone : { r with absorptions := Absorptions.empty }.absorbedLines = [] := rfl
  rw [report, report, reportLines, reportLines, hnone, List.append_nil, List.map_append,
    String.join_append]
  rfl

/-- Nothing is said about absorbed nodes if and only if all nodes are live. -/
theorem absorbedLines_eq_nil_iff (h : r.toStage.Coherent) :
    r.absorbedLines = [] ↔ ∀ n : NodeId, n.index < r.size → r.graph.links.isLive n := by
  have hempty : r.absorbedLines = [] ↔ r.absorptions.isEmpty := by
    rw [absorbedLines]
    split <;> simp_all
  rw [hempty, Absorptions.isEmpty, Std.ExtTreeMap.isEmpty_iff,
    Std.ExtTreeMap.eq_empty_iff_forall_not_mem]
  simp only [h.mem_entries, not_and, not_not]
  rfl

/-- If all chains are resolved, every absorbed node has its line. -/
theorem listsAbsorbed_of_isResolved (h : r.toStage.Coherent)
    (hends : ∀ n, Absorptions.Ends r.absorptions.entries n) (hresolved : r.absorptions.isResolved) :
    r.ListsAbsorbed := by
  have hall : ∀ n ∈ r.absorptions.entries, n ∈ r.absorptions.resolved :=
    fun n => h.right.mem_of_isResolved hresolved
  have hempty : r.absorptions.resolved.toList.isEmpty = r.absorptions.isEmpty := by
    rw [Std.ExtTreeMap.isEmpty_toList, Absorptions.isEmpty, Bool.eq_iff_iff,
      Std.ExtTreeMap.isEmpty_iff, Std.ExtTreeMap.isEmpty_iff,
      Std.ExtTreeMap.eq_empty_iff_size_eq_zero, Std.ExtTreeMap.eq_empty_iff_size_eq_zero,
      eq_of_beq hresolved]
  exact ⟨_, accounts_of_right h hends h.right hall, by rw [hempty]; rfl⟩

/-- The heading alone lists nobody. -/
theorem not_listsAbsorbed (hbare : r.absorbedLines = ["Absorbed:"]) : ¬ r.ListsAbsorbed := by
  rintro ⟨listed, -, hlines⟩
  rw [hbare] at hlines
  cases listed <;> simp at hlines

/-- Entries of which none is resolved leave the heading alone. -/
theorem absorbedLines_of_resolved_empty (hnone : r.absorptions.resolved = ∅)
    (hsome : ¬ r.absorptions.isResolved) : r.absorbedLines = ["Absorbed:"] := by
  have hentries : ¬ r.absorptions.isEmpty := by
    intro hempty
    refine hsome ?_
    rw [Absorptions.isEmpty, Std.ExtTreeMap.isEmpty_iff] at hempty
    rw [Absorptions.isResolved, hnone, hempty]
    rfl
  rw [absorbedLines, if_neg hentries, hnone]
  rfl

/-! ### Texts -/

theorem oneLine_name (hnames : ∀ name ∈ r.names, OneLine name) (n : NodeId) :
    OneLine (r.name n) := by
  rw [name, nameIn]
  cases hname : r.names[n.index]? with
  | none => decide
  | some name => exact hnames name (List.mem_of_getElem? hname)

theorem oneLine_absorbedLine (hnames : ∀ name ∈ r.names, OneLine name) (n : NodeId)
    (a : Absorption) : OneLine (r.absorbedLine n a) := by
  have hmap : OneLine (CostFormat.listText (a.map.map toString)) :=
    oneLine_listText (by simpa using fun _ _ => oneLine_nat)
  change OneLine ("  " ++ r.name n ++ " => " ++ r.name a.into ++ " via " ++
    CostFormat.listText (a.map.map toString))
  simp only [oneLine_append, oneLine_name hnames, hmap, and_true]
  decide

theorem heading_eq : r.heading = "COST GRAPH (" ++ toString r.liveNodes.length ++ " of " ++
    toString r.size ++ " nodes live, " ++ toString r.graph.tables.size ++ " edges)" := rfl

section Text

variable [CostFormat α]

/-- The lines of a report, by what they are about. -/
inductive ReportLine (r : Reduction α) : String → Prop
  | heading : ReportLine r r.heading
  | rule : ReportLine r (String.ofList (List.replicate 50 '-'))
  | node (n : NodeId) : ReportLine r (r.nodeLine n)
  | child (n : NodeId) : ReportLine r ("    -> " ++ r.name n)
  | queue : ReportLine r ("Pending merges: " ++ toString r.queue.length)
  | absorbed {line : String} : line ∈ r.absorbedLines → ReportLine r line

theorem reportLine_of_mem {line : String} (h : line ∈ r.reportLines) : r.ReportLine line := by
  rw [reportLines, List.mem_append, List.mem_append, List.mem_cons, List.mem_cons,
    List.mem_flatMap] at h
  rcases h with ((rfl | rfl | ⟨n, -, h⟩) | h) | h
  · exact .heading
  · exact .rule
  · rcases List.mem_cons.1 h with rfl | h
    · exact .node n
    · obtain ⟨child, -, rfl⟩ := List.mem_map.1 h
      exact .child child
  · rw [queueLines] at h
    split at h
    · cases h
    · cases List.mem_singleton.1 h
      exact .queue
  · exact .absorbed h

theorem oneLine_nodeLine (hnames : ∀ name ∈ r.names, OneLine name)
    (hcosts : ∀ x : α, OneLine (CostFormat.inReport x)) (n : NodeId) : OneLine (r.nodeLine n) := by
  let extra := (r.graph.extra? n).elim "" fun costs =>
    " extra=" ++ CostFormat.listText (costs.map CostFormat.inReport)
  have hextra : OneLine extra := by
    simp only [extra]
    cases r.graph.extra? n with
    | none => exact (by decide : OneLine "")
    | some costs =>
      exact oneLine_append.2 ⟨by decide, oneLine_listText (by simpa using fun x _ => hcosts x)⟩
  change OneLine ("  " ++ r.name n ++ " [" ++ toString ((r.graph.width? n).getD 0) ++
    " strategies]" ++ extra)
  simp only [oneLine_append, oneLine_nat, oneLine_name hnames, hextra, and_true]
  decide

/-- If no name and no cost breaks its line, no line of the report is broken. -/
theorem oneLine_of_mem_reportLines (hnames : ∀ name ∈ r.names, OneLine name)
    (hcosts : ∀ x : α, OneLine (CostFormat.inReport x)) : ∀ line ∈ r.reportLines, OneLine line := by
  intro line hline
  cases reportLine_of_mem hline with
  | heading =>
    simp only [heading_eq, oneLine_append, oneLine_nat, and_true]
    decide
  | rule => decide
  | node n => exact oneLine_nodeLine hnames hcosts n
  | child n => exact oneLine_append.2 ⟨by decide, oneLine_name hnames n⟩
  | queue => exact oneLine_append.2 ⟨by decide, oneLine_nat⟩
  | absorbed h =>
    rw [absorbedLines] at h
    split at h
    · cases h
    · rcases List.mem_cons.1 h with rfl | h
      · decide
      · obtain ⟨⟨n, a⟩, -, rfl⟩ := List.mem_map.1 h
        exact oneLine_absorbedLine hnames n a

/-- The heading of the absorbed nodes is no other line of the report. -/
theorem absorbed_mem_iff : "Absorbed:" ∈ r.reportLines ↔ r.absorbedLines ≠ [] := by
  constructor
  · intro hmem hnone
    generalize hline : "Absorbed:" = line at hmem
    cases reportLine_of_mem hmem with
    | heading =>
      rw [heading_eq, String.append_assoc, String.append_assoc, String.append_assoc,
        String.append_assoc, String.append_assoc] at hline
      exact ne_append (by decide) hline
    | rule => exact absurd hline (by decide)
    | node n =>
      rw [nodeLine, String.append_assoc, String.append_assoc, String.append_assoc,
        String.append_assoc] at hline
      exact ne_append (by decide) hline
    | child n => exact ne_append (by decide) hline
    | queue => exact ne_append (by decide) hline
    | absorbed h =>
      rw [hnone] at h
      cases h
  · intro hsome
    refine List.mem_append_right _ ?_
    rw [absorbedLines] at hsome ⊢
    split at hsome
    next => exact absurd rfl hsome
    next hempty =>
      rw [if_neg hempty]
      exact List.mem_cons_self

end Text

/-! ### Resolved chains -/

variable {merges : List (Applied α)}

/-- All chains were resolved before the given merges: they still are unless a merge absorbed its
    destination, and then none is. -/
structure ResolvedBefore (r : Reduction α) (merges : List (Applied α)) : Prop where
  isResolved : (∀ a ∈ merges, ¬ a.merge.absorbs) → r.absorptions.isResolved
  of_absorbs {a : Applied α} : a ∈ merges → a.merge.absorbs →
    r.absorptions.resolved = ∅ ∧ ¬ r.absorptions.isResolved

theorem resolvedBefore_nil (h : r.absorptions.isResolved) : r.ResolvedBefore [] :=
  ⟨fun _ => h, fun ha => absurd ha List.not_mem_nil⟩

namespace ResolvedBefore

variable (hmerges : r.ResolvedBefore merges)
include hmerges

theorem listsAbsorbed_iff (h : r.toStage.Coherent)
    (hends : ∀ n, Absorptions.Ends r.absorptions.entries n) :
    r.ListsAbsorbed ↔ ∀ a ∈ merges, ¬ a.merge.absorbs := by
  refine ⟨fun hlists a ha habsorbs => ?_, fun hall => ?_⟩
  · obtain ⟨hnone, hsome⟩ := hmerges.of_absorbs ha habsorbs
    exact not_listsAbsorbed (absorbedLines_of_resolved_empty hnone hsome) hlists
  · exact listsAbsorbed_of_isResolved h hends (hmerges.isResolved hall)

/-- If not every absorbed node has its line, none has. -/
theorem absorbedLines_eq (h : r.toStage.Coherent)
    (hends : ∀ n, Absorptions.Ends r.absorptions.entries n) (hlists : ¬ r.ListsAbsorbed) :
    r.absorbedLines = ["Absorbed:"] := by
  rw [hmerges.listsAbsorbed_iff h hends] at hlists
  push Not at hlists
  obtain ⟨a, ha, habsorbs⟩ := hlists
  obtain ⟨hnone, hsome⟩ := hmerges.of_absorbs ha habsorbs
  exact absorbedLines_of_resolved_empty hnone hsome

variable [Cost α]

/-- A merge comes on top of the earlier ones. -/
theorem merge {e : Edge} {s : Stage α} {m : Merge α} (hmerge : r.toStage.merge e = .ok (s, m)) :
    { r with toStage := s }.ResolvedBefore (merges ++ [Applied.mk r.graph m]) := by
  have habsorptions := (Stage.merge_ok_iff.1 hmerge).2
  cases habsorbs : m.absorbs with
  | true =>
    rw [habsorbs, if_pos rfl] at habsorptions
    refine ⟨fun hall => ?_, fun _ _ => ?_⟩
    · exact absurd habsorbs (hall _ (List.mem_append_right _ List.mem_cons_self))
    · rw [habsorptions]
      exact ⟨rfl, Absorptions.not_isResolved_enter⟩
  | false =>
    rw [habsorbs, if_neg Bool.false_ne_true] at habsorptions
    refine ⟨fun hall => ?_, fun {a} ha habs => ?_⟩
    · rw [habsorptions]
      exact hmerges.isResolved fun a ha => hall a (List.mem_append_left _ ha)
    · rw [habsorptions]
      rcases List.mem_append.1 ha with ha | ha
      · exact hmerges.of_absorbs ha habs
      · cases List.mem_singleton.1 ha
        exact absurd habs (by simp [habsorbs])

end ResolvedBefore

/-! ### Runs -/

variable [Cost α] {call : Call} {settings : Settings α} {c : Catalog α}

/-- Whether the call simplifies, and not for nothing. -/
def resolves (r : Reduction α) : Call → Bool
  | .merge _ => false
  | .simplify => r.isPending && (r.call? .simplify).isSome

/-- The merges of a run, after some earlier ones, since the last call that resolved all chains. -/
def recent (r : Reduction α) (earlier : List (Applied α)) : List Call → List (Applied α)
  | [] => earlier
  | call :: calls =>
    (r.after call).recent (if r.resolves call then [] else earlier ++ r.log call) calls

/-- A call resolves all chains, or its merges come on top of the earlier ones. -/
theorem ResolvedBefore.after (hmerges : r.ResolvedBefore merges) (h : r.toStage.Coherent) :
    (r.after call).ResolvedBefore (if r.resolves call then [] else merges ++ r.log call) := by
  rw [after_eq, log]
  cases call with
  | merge e =>
    rw [resolves, if_neg Bool.false_ne_true]
    cases hcall : r.call? (.merge e) with
    | none => simpa using hmerges
    | some r' =>
      obtain ⟨s, m, hmerge, rfl⟩ := call?_merge_iff.1 hcall
      have htrace : r.toStage.trace [e] = [Applied.mk r.graph m] := Stage.trace_cons hmerge
      rw [Option.isSome_some, if_pos rfl, edges, htrace]
      exact hmerges.merge hmerge
  | simplify =>
    cases hcall : r.call? .simplify with
    | none => simpa [resolves, hcall] using hmerges
    | some r' =>
      rcases call?_simplify_iff.1 hcall with
        ⟨hpending, rfl⟩ | ⟨hpending, s, absorptions, hrun, hresolve, rfl⟩
      · simpa [resolves, edges, hpending, Stage.trace] using hmerges
      · have hs := h.mergeAll hrun
        rw [resolves, hpending, hcall, Option.isSome_some, Bool.and_self, if_pos rfl]
        exact resolvedBefore_nil
          (Absorptions.isResolved_of_resolve hs.composable hs.right hresolve)

theorem resolvedBefore_run : ∀ (calls : List Call) {r : Reduction α} {merges : List (Applied α)},
    r.toStage.Coherent → r.ResolvedBefore merges →
    (r.run calls).ResolvedBefore (r.recent merges calls)
  | [], _, _, _, hmerges => hmerges
  | _ :: calls, _, _, h, hmerges => resolvedBefore_run calls (coherent_after h) (hmerges.after h)

/-- At the start all chains are resolved, since there are none. -/
theorem Started.resolvedBefore (h : Started settings c r) : r.ResolvedBefore [] :=
  resolvedBefore_nil (by rw [h.absorptions]; rfl)

/-- What the report of `s` says about absorbed nodes, if `merges` are the merges since all chains
    were resolved. -/
structure Reports (c : Catalog Float) (s : Reduction Float) (merges : List (Applied Float)) :
    Prop where
  report_eq : s.report = { s with absorptions := .empty }.report ++
    String.join (s.absorbedLines.map (· ++ "\n"))
  absorbedLines_eq_nil_iff : s.absorbedLines = [] ↔
    ∀ n : NodeId, n.index < c.size → s.graph.links.isLive n
  listsAbsorbed_iff : s.ListsAbsorbed ↔ ∀ a ∈ merges, ¬ a.merge.absorbs
  bare : ¬ s.ListsAbsorbed → s.absorbedLines = ["Absorbed:"]
  /-- As long as no name has a line break, the text comes apart into the lines of the report, and
      one of them is the heading exactly if a node is absorbed. -/
  absorbed_mem_iff : (∀ op ∈ c.operators, OneLine op.name) →
    textLines s.report = s.reportLines ++ [""] ∧ ("Absorbed:" ∈ textLines s.report ↔
      ∃ n : NodeId, n.index < c.size ∧ ¬ s.graph.links.isLive n)

/-- After any run of calls for a catalog without cycles, the report ends in the lines about absorbed
    nodes, which are missing exactly if no node is absorbed. Each absorbed node has its line if and
    only if no merge since the last resolving call absorbed its destination; otherwise none has. -/
theorem report_run {settings : Settings Float} {c : Catalog Float}
    (h : StartableAcyclic settings c) : FromStart settings c fun r =>
      ∀ calls, Reports c (r.run calls) (r.recent [] calls) := by
  refine h.fromStart_sound fun r rank hr hsound => ?_
  intro calls
  have hs := sound_run calls hsound
  have hmerges := resolvedBefore_run calls hsound.coherent hr.resolvedBefore
  have hnil := absorbedLines_eq_nil_iff hs.coherent
  rw [hr.size_run calls] at hnil
  refine {
    report_eq := report_eq
    absorbedLines_eq_nil_iff := hnil
    listsAbsorbed_iff := hmerges.listsAbsorbed_iff hs.coherent hs.ends
    bare := hmerges.absorbedLines_eq hs.coherent hs.ends
    absorbed_mem_iff := fun hplain => ?_ }
  have hnames : ∀ name ∈ (r.run calls).names, OneLine name := by
    rw [(keeps_run calls).names, hr.names]
    simpa using hplain
  have hlines : textLines (r.run calls).report = (r.run calls).reportLines ++ [""] :=
    textLines_join (oneLine_of_mem_reportLines hnames oneLine_inReport)
  refine ⟨hlines, ?_⟩
  rw [hlines, List.mem_append, or_iff_left (by decide), absorbed_mem_iff, ne_eq, hnil]
  push Not
  rfl

/-- Three operators in a row; the one in the middle is mergeable. -/
def layers : Catalog Float where
  operators :=
    [⟨"embed", [], [.ofIndex 1], [⟨"S0", []⟩], false⟩,
      ⟨"relu", [.ofIndex 0], [.ofIndex 2], [⟨"S0", [[0.5]]⟩], true⟩,
      ⟨"linear", [.ofIndex 1], [], [⟨"S0", [[1]]⟩], false⟩]

/-- The one queued merge, made by hand. -/
def layersMerge : List Call := [.merge ⟨.ofIndex 0, .ofIndex 1⟩]

theorem layers_startable : StartableAcyclic {} layers :=
  ⟨⟨by decide, by decide, by decide +kernel⟩, (Catalog.numbered_of_forall (by decide)).acyclic⟩

theorem layers_report_run : FromStart {} layers fun r =>
    (r.run [.simplify]).ListsAbsorbed ∧
    (r.run [.simplify]).absorbedLines = ["Absorbed:", "  relu => embed via [0]"] ∧
    "Absorbed:" ∈ textLines (r.run layersMerge).report ∧ ¬ (r.run layersMerge).ListsAbsorbed := by
  have hnames : ∀ op ∈ layers.operators, OneLine op.name := by decide
  obtain ⟨r, event, hstart, h⟩ := report_run layers_startable
  have hsimplified : (∀ a ∈ r.recent [] [.simplify], ¬ a.merge.absorbs) ∧
      (r.run [.simplify]).absorbedLines = ["Absorbed:", "  relu => embed via [0]"] :=
    of_any (P := fun p : _ × _ => (∀ a ∈ p.1.recent [] [.simplify], ¬ a.merge.absorbs) ∧
      (p.1.run [.simplify]).absorbedLines = ["Absorbed:", "  relu => embed via [0]"])
      (by decide +kernel) hstart
  have hmerged : (∃ a ∈ r.recent [] layersMerge, a.merge.absorbs) ∧
      ¬ (r.run layersMerge).graph.links.isLive (.ofIndex 1) :=
    of_any (P := fun p : _ × _ => (∃ a ∈ p.1.recent [] layersMerge, a.merge.absorbs) ∧
      ¬ (p.1.run layersMerge).graph.links.isLive (.ofIndex 1)) (by decide +kernel) hstart
  refine ⟨r, event, hstart, (h _).listsAbsorbed_iff.2 hsimplified.1, hsimplified.2, ?_, ?_⟩
  · exact ((h _).absorbed_mem_iff hnames).2.2 ⟨.ofIndex 1, by decide, hmerged.2⟩
  · rw [(h _).listsAbsorbed_iff]
    obtain ⟨a, ha, habsorbs⟩ := hmerged.1
    exact fun hall => hall a ha habsorbs

/-- After the merge the middle operator is represented and completed, but not listed. -/
theorem layers_not_listed : StartableAcyclic {} layers ∧ FromStart {} layers fun r =>
    (r.run layersMerge).liveNodes = [.ofIndex 0, .ofIndex 2] ∧
    (r.run layersMerge).representative (.ofIndex 1) = .ok (.ofIndex 0) ∧
    (r.run layersMerge).complete [0, 0, 0] = .ok [0, 0, 0] ∧
    (r.run layersMerge).absorbedLines = ["Absorbed:"] ∧
    ¬ (r.run layersMerge).ListsAbsorbed := by
  have hrun : (start {} layers).toOption.any fun p => decide (
      (p.1.run layersMerge).liveNodes = [.ofIndex 0, .ofIndex 2] ∧
      (p.1.run layersMerge).representative (.ofIndex 1) = .ok (.ofIndex 0) ∧
      (p.1.run layersMerge).complete [0, 0, 0] = .ok [0, 0, 0] ∧
      (p.1.run layersMerge).absorbedLines = ["Absorbed:"]) := by decide +kernel
  obtain ⟨⟨r, event⟩, hstart, hlive, hroot, hfull, hbare⟩ := exists_of_any hrun
  exact ⟨layers_startable, r, event, hstart, hlive, hroot, hfull, hbare, not_listsAbsorbed hbare⟩

end Reshard.Reduction
