import Taurus.Safety

namespace Taurus

open Relation

variable {H : Type} [LinearOrder H] {hash : Vertex H → H} {it it' : HashOrders H}
  {config : Config} {genesis : Vertex H} {dag dag' : DAG H}

/-- When the counter of a constraint reaches the acceptance threshold, every ordering that
its vertices or their ancestors commit to is accepted. -/
def AncestrySettled (dag : DAG H) (c : Constraint H) : Prop :=
  dag.config.threshAccepted ≤ tally dag.state c → ∀ r,
    dag.graph.Commits c.left r ∨ dag.graph.Commits c.right r → r.left ≠ r.right →
    decisionOf dag.state r = some true

theorem AncestrySettled.orderings {c : Constraint H} (h : AncestrySettled dag c) :
    OrderingsSettled dag c := fun _ ht r hr => h ht r (Or.inl hr)

/-- What holds of graph and verdicts as long as the threshold only accepts settled
constraints, and what has been decided since some earlier graph and verdicts. -/
structure Final (graph₀ : Graph H) (D₀ : Verdicts (Constraint H)) (graph : Graph H)
    (D : Verdicts (Constraint H)) : Prop where
  safe : Safe graph D
  settled : graph.constraintGraph.SettledOn D fun _ => True
  inserted : ∀ h ∈ graph₀, h ∈ graph
  kept : ∀ c b, D₀ c = some b → D c = some b

theorem Final.stable (graph₀ : Graph H) (D₀ : Verdicts (Constraint H)) :
    Stable hash genesis AncestrySettled (Final graph₀ D₀) where
  insert dag dag' vx hd hf hc hi := by
    have hext := hi.state.decisions
    refine ⟨hf.safe.insert hd hc hi, ?_, ?_, fun c b h => hext.kept c b (hf.kept c b h)⟩
    · intro c _ hacc r hr hcr
      have hold : decisionOf dag.state c = some true :=
        (hext.origin c true hacc).resolve_right fun h => by cases h.1
      have hreg := hd.accepted_registered c hold
      rw [hi.graph, Graph.above_insert hd.shaped hc.ready.fresh hreg] at hr
      exact hext.kept r true (hf.settled c trivial hold r hr hcr)
    · intro h hh
      rw [hi.graph, Finmap.mem_insert]
      exact Or.inr (hf.inserted h hh)
  accept dag x c hd hf hx hup hg ha := by
    have hnr := hf.safe.not_rejected_of_accepts hd hup hg.orderings ha
    refine ⟨(Safe.stable.accept dag x c hd hf.safe hx hup hg.orderings ha), ?_, hf.inserted, ?_⟩
    · refine hf.settled.accepted fun _ => ?_
      by_cases hu : c.left = c.right
      · exact Safe.settled_of_accepts hd hf.safe hu hg.orderings ha
      · intro r hr hcr
        -- an ordering is accepted by the threshold only
        have ht := ha.resolve_right fun h => hu h.1
        exact hg ht r (Graph.above_iff_commits.mp hr).2 (Graph.contestable_iff.mp hcr)
    · intro d b hdb
      exact ConflictGraph.accepted_extends hd.exclusive hf.settled hnr d b (hf.kept d b hdb)

theorem settled_start (hg : genesis.parents = []) :
    (DAG.start hash config genesis).graph.constraintGraph.SettledOn
      (decisionOf (DAG.start hash config genesis).state) fun _ => True := by
  intro c _ _ r hr _
  obtain ⟨d, _, hd⟩ := TransGen.tail'_iff.mp hr
  exact absurd hd.2 (DAG.not_parentConstraint_start hg d)

/-- Finality: as long as the threshold only accepts settled constraints, no decision and no
final query result ever changes. -/
theorem decisions_final
    (h : (DAG.system hash config genesis).ReachableWhen (DAG.Guarded hash AncestrySettled) dag)
    (hl : (DAG.system hash config genesis).LeadsWhen (DAG.Guarded hash AncestrySettled) dag dag') :
    (∀ v d, dag.query hash it v = .ok (d, true) → dag'.query hash it' v = .ok (d, true)) ∧
      ∀ c b, decisionOf dag.state c = some b → decisionOf dag'.state c = some b := by
  have hd := sound_of_reachable h
  have hd' := sound_of_reachable (h.leads hl)
  have hsettled : dag.graph.constraintGraph.SettledOn (decisionOf dag.state) fun _ => True := by
    have hg := h.genesis_parents
    exact ((Final.stable ∅ fun _ => none).reachable
      ⟨Safe.start hg, settled_start hg, fun _ hh => absurd hh Finmap.notMem_empty,
        fun _ _ hn => by cases hn⟩ h).2.settled
  have hfinal := (Final.stable dag.graph (decisionOf dag.state)).leads hd
    ⟨safe_of_reachable (fun _ _ hc => hc.orderings) h, hsettled, fun _ hh => hh, fun _ _ hb => hb⟩ hl
  -- the start of the second run is a state of the first, so both conditions carry on
  refine ⟨fun v d hq => ?_, hfinal.kept⟩
  obtain ⟨hv, hdv⟩ := (query_final_iff hd v d).mp hq
  exact (query_final_iff hd' v d).mpr ⟨hfinal.inserted v hv, hfinal.kept _ d hdv⟩

theorem ancestrySettled_of_lt {c : Constraint H}
    (h : tally dag.state c < dag.config.threshAccepted) : AncestrySettled dag c :=
  fun ht => absurd ht h.not_ge

/-- An early acceptance stays final while the rest of the fork is voted on. -/
theorem decisions_final_early : ∃ dag dag' : DAG Digest,
    dag.query Vertex.wire .ascending Fork.a.wire = .ok (true, true) ∧
      dag'.query Vertex.wire .ascending Fork.a.wire = .ok (true, true) := by
  have hrun : ∃ dag dag', (Fork.system ⟨2, 1⟩).ReachableWhen
        (DAG.Guarded Vertex.wire fun dag c => tally dag.state c < dag.config.threshAccepted) dag ∧
      (Fork.system ⟨2, 1⟩).LeadsWhen
        (DAG.Guarded Vertex.wire fun dag c => tally dag.state c < dag.config.threshAccepted)
        dag dag' ∧
      dag.query Vertex.wire .ascending Fork.a.wire = .ok (true, true) :=
    leads_of_run rfl rfl (Fork.run [Fork.a, Fork.b, Fork.ab] [Fork.a])
      (Fork.run [Fork.ba] [Fork.b, Fork.ab]) (by decide +kernel)
  obtain ⟨dag, dag', hr, hl, hq⟩ := hrun
  have hr' := hr.mono fun _ _ hg v hv => ancestrySettled_of_lt (hg v hv)
  have hl' := hl.mono fun _ _ hg v hv => ancestrySettled_of_lt (hg v hv)
  exact ⟨dag, dag', hq, (decisions_final hr' hl').1 _ _ hq⟩

/-- With both thresholds at one, a vote for one branch rejects the other, and a later vote
for that one accepts it all the same. -/
theorem rejection_overturned : Vertex.CollisionFree Vertex.wire Set.univ ∧
    ∃ dag dag', (Fork.system ⟨1, 1⟩).Reachable dag ∧
      (Fork.system ⟨1, 1⟩).LeadsWhen (fun _ _ => True) dag dag' ∧
      dag.query Vertex.wire .ascending Fork.ab.wire = .ok (false, true) ∧
      dag'.query Vertex.wire .ascending Fork.ab.wire ≠ .ok (false, true) := by
  obtain ⟨dag, dag', hr, hl, ⟨_, hq, _⟩, _, hq'⟩ := Fork.branch_rejected
  refine ⟨Vertex.wire_collisionFree _, dag, dag', hr, hl, hq, ?_⟩
  simp [hq']

end Taurus
