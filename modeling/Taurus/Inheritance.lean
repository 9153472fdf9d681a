import Taurus.Wire

namespace Taurus

open Relation

variable {H : Type} [LinearOrder H] {hash : Vertex H → H} {it it' : HashOrders H}
  {config : Config} {genesis : Vertex H} {dag dag' : DAG H} {vx : Vertex H}

/-- When the counter of a vertex reaches the acceptance threshold, all that the vertex
commits to is accepted. -/
def ParentsSettled (dag : DAG H) (c : Constraint H) : Prop :=
  c.left = c.right → dag.config.threshAccepted ≤ tally dag.state c →
    ∀ p ∈ dag.graph.commitments c.left, decisionOf dag.state p = some true

/-- When the counter of a vertex reaches the acceptance threshold, nothing that the vertex
commits to is rejected. -/
def NoParentRejected (dag : DAG H) (c : Constraint H) : Prop :=
  c.left = c.right → dag.config.threshAccepted ≤ tally dag.state c →
    ∀ p ∈ dag.graph.commitments c.left, decisionOf dag.state p ≠ some false

instance (dag : DAG H) (c : Constraint H) : Decidable (ParentsSettled dag c) :=
  inferInstanceAs (Decidable (c.left = c.right → dag.config.threshAccepted ≤ tally dag.state c →
    ∀ p ∈ dag.graph.commitments c.left, decisionOf dag.state p = some true))

instance (dag : DAG H) (c : Constraint H) : Decidable (NoParentRejected dag c) :=
  inferInstanceAs (Decidable (c.left = c.right → dag.config.threshAccepted ≤ tally dag.state c →
    ∀ p ∈ dag.graph.commitments c.left, decisionOf dag.state p ≠ some false))

theorem commitment_of_child {c p : Constraint H} (hu : c.isUnity)
    (hp : dag.graph.constraintGraph.child p c) : p ∈ dag.graph.commitments c.left := by
  have he := (Constraint.isUnity_iff c).mp hu
  rcases hp.2 with h | h
  · exact h
  · rwa [he]

theorem commitments_accepted (hd : Sound hash genesis dag) {c : Constraint H}
    (ha : ParentsAccepted dag.state c) (hu : c.isUnity) {p : Constraint H}
    (hp : dag.graph.constraintGraph.child p c) : decisionOf dag.state p = some true := by
  obtain ⟨k, rfl⟩ := c.exists_eq_unity hu
  exact parentsAccepted_unity hd ha (commitment_of_child hu hp)

theorem grounded_stable : Stable hash genesis ParentsSettled fun graph D =>
    graph.constraintGraph.GroundedOn D fun c => c.isUnity where
  insert dag dag' vx hd hP hc hi c hu hacc p hp := by
    have hext := hi.state.decisions
    have hold : decisionOf dag.state c = some true :=
      (hext.origin c true hacc).resolve_right fun h => by cases h.1
    rw [hi.graph] at hp
    have hp' := (Graph.child_insert hd.shaped hc.ready.fresh (hd.accepted_registered c hold)).mp hp
    exact hext.kept p true (hP c hu hold p hp')
  accept dag x c hd hP hx hup hg ha := by
    refine hP.accepted fun hu p hp => ?_
    -- through the threshold the condition says it, early the parents have been checked
    rcases ha with ht | ⟨_, hpa, _⟩
    · exact hg ((Constraint.isUnity_iff c).mp hu) ht p (commitment_of_child hu hp)
    · exact commitments_accepted hd hpa hu hp

theorem inherited_stable : Stable hash genesis NoParentRejected fun graph D =>
    graph.constraintGraph.InheritedOn D fun c => c.isUnity where
  insert dag dag' vx hd hP hc hi c hu p hp hrej := by
    have hext := hi.state.decisions
    rw [hi.graph] at hp
    obtain ⟨k, rfl⟩ := c.exists_eq_unity hu
    rcases Graph.child_unity_insert hd.shaped hc.ready.fresh hp with ⟨_, hp'⟩ | ⟨rfl, hpx⟩
    · have hpk := hd.stores.mem_of_registered (Graph.registered_of_parentConstraint hp'.2)
      rw [(hext.known p hpk).2] at hrej
      exact hext.kept _ false (hP _ hu p hp' hrej)
    -- a vertex with a rejected parent is born rejected
    · exact hi.state.unity_rejected p hpx hrej
  accept dag x c hd hP hx hup hg ha := by
    refine hP.accepted fun hu p hp => ?_
    rcases ha with ht | ⟨_, hpa, _⟩
    · exact hg ((Constraint.isUnity_iff c).mp hu) ht p (commitment_of_child hu hp)
    · rw [commitments_accepted hd hpa hu hp]
      simp

/-- Acceptance is ancestor-closed, as long as the threshold only accepts vertices all of
whose commitments are accepted. -/
theorem accepted_ancestry_accepted
    (h : (DAG.system hash config genesis).ReachableWhen (DAG.Guarded hash ParentsSettled) dag)
    {v : H} (hv : dag.query hash it v = .ok (true, true)) :
    (∀ u, dag.graph.Ancestor u v → dag.query hash it' u = .ok (true, true)) ∧
      ∀ u, ReflTransGen dag.graph.IsParent u v → ∀ c ∈ dag.graph.commitments u,
        decisionOf dag.state c = some true := by
  have hg := h.genesis_parents
  obtain ⟨hd, hP⟩ := grounded_stable.reachable
    (fun c _ _ p hp => absurd hp.2 (DAG.not_parentConstraint_start hg p)) h
  have hline (u : H) (hu : ReflTransGen dag.graph.IsParent u v) :
      dag.decisionOn u = some true := by
    induction hu using ReflTransGen.head_induction_on with
    | refl => exact ((query_final_iff hd v true).mp hv).2
    | head hp _ ih =>
      exact hP _ (by simp) ih _ (Graph.child_unity (Graph.unity_mem_commitments hp))
  refine ⟨fun u hu => ?_, fun u hu c hc => ?_⟩
  · exact (query_final_iff hd u true).mpr ⟨hd.shaped.ancestor_mem hu, hline u hu.to_reflTransGen⟩
  · exact hP (.unity u) (by simp) (hline u hu) c (Graph.child_unity hc)

/-- Votes for two vertices on one pair accept the pair, and a vote for a child of one accepts that
one, through the threshold. -/
theorem accepted_ancestry_accepted_twin : ∃ dag : DAG Digest,
    dag.query Vertex.wire .ascending Fork.ab.wire = .ok (true, true) ∧
      (∀ u, dag.graph.Ancestor u Fork.ab.wire →
        dag.query Vertex.wire .ascending u = .ok (true, true)) ∧
      ∀ u, ReflTransGen dag.graph.IsParent u Fork.ab.wire →
        ∀ c ∈ dag.graph.commitments u, decisionOf dag.state c = some true := by
  have hrun : ∃ dag, (Fork.system ⟨2, 2⟩).ReachableWhen
      (DAG.Guarded Vertex.wire ParentsSettled) dag ∧
      dag.query Vertex.wire .ascending Fork.ab.wire = .ok (true, true) :=
    reachable_of_run rfl rfl
      (Fork.run [Fork.a, Fork.b, Fork.ab, Fork.abTwin, Fork.abTip]
        [Fork.ab, Fork.abTwin, Fork.abTip]) (by decide +kernel)
  obtain ⟨dag, hr, hq⟩ := hrun
  exact ⟨dag, hq, accepted_ancestry_accepted hr hq⟩

/-- With both thresholds at two, the run that accepts both branches accepts neither ordering
of their parents. -/
theorem accepted_before_parents : Vertex.CollisionFree Vertex.wire Set.univ ∧
    ∃ dag, (Fork.system ⟨2, 2⟩).Reachable dag ∧
      dag.query Vertex.wire .ascending Fork.ab.wire = .ok (true, true) ∧
      ∃ c ∈ dag.graph.commitments Fork.ab.wire, decisionOf dag.state c ≠ some true := by
  obtain ⟨dag, hr, hq, _, hc, _, hna, _⟩ := Fork.branches_accepted
  exact ⟨Vertex.wire_collisionFree _, dag, hr, hq, _, hc, hna⟩

/-- Rejection is inherited, as long as the threshold accepts no vertex that commits to
something rejected. -/
theorem rejection_inherited
    (h : (DAG.system hash config genesis).ReachableWhen (DAG.Guarded hash NoParentRejected) dag)
    {v : H} (hv : v ∈ dag.graph)
    (hr : (∃ u c, ReflTransGen dag.graph.IsParent u v ∧ c ∈ dag.graph.commitments u ∧
        decisionOf dag.state c = some false) ∨
      ∃ u, dag.graph.Ancestor u v ∧ dag.decisionOn u = some false) :
    dag.query hash it v = .ok (false, true) := by
  have hg := h.genesis_parents
  obtain ⟨hd, hP⟩ := inherited_stable.reachable
    (fun c _ p hp => absurd hp.2 (DAG.not_parentConstraint_start hg p)) h
  have hline {u w : H} (hu : ReflTransGen dag.graph.IsParent u w)
      (hf : dag.decisionOn u = some false) : dag.decisionOn w = some false := by
    induction hu with
    | refl => exact hf
    | tail _ hp ih => exact hP _ (by simp) _ (Graph.child_unity (Graph.unity_mem_commitments hp)) ih
  refine (query_final_iff hd v false).mpr ⟨hv, ?_⟩
  rcases hr with ⟨u, c, hu, hc, hf⟩ | ⟨u, hu, hf⟩
  · exact hline hu (hP (.unity u) (by simp) c (Graph.child_unity hc) hf)
  · exact hline hu.to_reflTransGen hf

/-- A vote for one branch rejects the other, and with it the tip of that one. -/
theorem rejection_inherited_tip : ∃ dag : DAG Digest,
    dag.graph.Ancestor Fork.ab.wire Fork.abTip.wire ∧
      dag.decisionOn Fork.ab.wire = some false ∧
      dag.query Vertex.wire .ascending Fork.abTip.wire = .ok (false, true) := by
  have hrun : ∃ dag, (Fork.system ⟨1, 1⟩).ReachableWhen
      (DAG.Guarded Vertex.wire NoParentRejected) dag ∧ Fork.abTip.wire ∈ dag.graph ∧
      dag.graph.IsParent Fork.ab.wire Fork.abTip.wire ∧
      dag.decisionOn Fork.ab.wire = some false :=
    reachable_of_run rfl rfl
      (Fork.run [Fork.a, Fork.b, Fork.ab, Fork.ba, Fork.abTip] [Fork.ba]) (by decide +kernel)
  obtain ⟨dag, hr, hin, hp, hf⟩ := hrun
  exact ⟨dag, .single hp, hf, rejection_inherited hr hin (Or.inr ⟨_, .single hp, hf⟩)⟩

/-- With both thresholds at one, a late vote accepts a vertex although the ordering that it
commits to is rejected. -/
theorem accepted_over_rejection : Vertex.CollisionFree Vertex.wire Set.univ ∧
    ∃ dag, (Fork.system ⟨1, 1⟩).Reachable dag ∧
      (∃ c ∈ dag.graph.commitments Fork.ab.wire, decisionOf dag.state c = some false) ∧
      dag.query Vertex.wire .ascending Fork.ab.wire = .ok (true, true) := by
  obtain ⟨_, dag', hr, hl, _, hrejected, hq⟩ := Fork.branch_rejected
  exact ⟨Vertex.wire_collisionFree _, dag', hr.leads hl, hrejected, hq⟩

end Taurus
