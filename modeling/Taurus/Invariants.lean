import Taurus.Wire

namespace Taurus

open Relation

variable {H : Type} [LinearOrder H] {hash : Vertex H → H} {it : HashOrders H}
  {config : Config} {genesis : Vertex H} {dag : DAG H}

/-- Shape of the inserted graph: every vertex but the genesis vertex has distinct parents in
the graph, is one higher than the highest of them, and none of them is an ancestor of another. -/
theorem inserted_shape (h : (DAG.system hash config genesis).Reachable dag) {v : H}
    {vx : Vertex H} (hv : dag.graph.lookup v = some vx) (hne : v ≠ hash genesis) :
    vx.parents ≠ [] ∧ vx.parents.Nodup ∧ (∀ p ∈ vx.parents, p ∈ dag.graph) ∧
      (∃ m, (vx.parents.map dag.graph.height).max? = some m ∧ vx.height = 1 + m) ∧
      ∀ p ∈ vx.parents, ∀ q ∈ vx.parents, ¬ dag.graph.Ancestor p q := by
  have hl := (sound_of_reachable h).shaped.legal v vx hv hne
  exact ⟨hl.nonempty, hl.nodup, hl.inserted, hl.height_eq, hl.antichain⟩

theorem inserted_shape_fork : ∃ dag : DAG Digest,
    ∀ p ∈ Fork.both.parents, ∀ q ∈ Fork.both.parents, ¬ dag.graph.Ancestor p q := by
  obtain ⟨dag, hr, _, _, _, _, _, hv, _⟩ := Fork.branches_accepted
  exact ⟨dag, (inserted_shape hr hv (by decide)).2.2.2.2⟩

/-- At most one ordering of a pair is ever accepted, and then the other is rejected. -/
theorem accepted_excludes_opposite (h : (DAG.system hash config genesis).Reachable dag)
    (c o : Constraint H) (ho : c.conflict = some o)
    (hc : decisionOf dag.state c = some true) : decisionOf dag.state o = some false :=
  (sound_of_reachable h).exclusive c o ho hc

theorem accepted_excludes_opposite_fork : ∃ dag : DAG Digest,
    decisionOf dag.state ⟨Fork.b.wire, Fork.a.wire⟩ = some false := by
  have hrun : ∃ dag, (Fork.system ⟨1, 1⟩).Reachable dag ∧
      decisionOf dag.state ⟨Fork.a.wire, Fork.b.wire⟩ = some true :=
    reachable_of_run rfl rfl (Fork.run [Fork.a, Fork.b, Fork.ab, Fork.ba] [Fork.ab, Fork.ba])
      (by decide +kernel)
  obtain ⟨dag, hr, hc⟩ := hrun
  exact ⟨dag, accepted_excludes_opposite hr _ _ (by decide) hc⟩

/-- A result for a vertex that is not pending is refused with one of three errors. -/
theorem recordQueryResult_refused {vhash : H} (hn : dag.pendingQuery.lookup vhash = none)
    (stronglyPreferred : Bool) :
    dag.recordQueryResult hash it vhash stronglyPreferred = .err .alreadyRecorded ∨
      dag.recordQueryResult hash it vhash stronglyPreferred = .err .waitingOnInsert ∨
      dag.recordQueryResult hash it vhash stronglyPreferred = .err .notFound := by
  simp only [DAG.recordQueryResult, hn]
  split_ifs
  · exact Or.inl rfl
  · exact Or.inr (Or.inl rfl)
  · exact Or.inr (Or.inr rfl)

/-- `record_query_result` returns, with success or one of three errors, unless the vertex
is pending and has a rejected parent; then its unwrap panics. -/
theorem recordQueryResult_returns_iff (h : (DAG.system hash config genesis).Reachable dag)
    (vhash : H) (stronglyPreferred : Bool) :
    ((∃ dag', dag.recordQueryResult hash it vhash stronglyPreferred = .ok dag') ∨
      dag.recordQueryResult hash it vhash stronglyPreferred = .err .alreadyRecorded ∨
      dag.recordQueryResult hash it vhash stronglyPreferred = .err .waitingOnInsert ∨
      dag.recordQueryResult hash it vhash stronglyPreferred = .err .notFound) ↔
    ¬ dag.Orphaned vhash := by
  have hd := sound_of_reachable h
  constructor
  · intro hret ho
    rw [recordQueryResult_orphaned hd ho] at hret
    simp at hret
  · intro ho
    cases hv : dag.pendingQuery.lookup vhash with
    | none => exact Or.inr (recordQueryResult_refused hv stronglyPreferred)
    | some vx =>
      have hnr : ∀ p ∈ vx.parents, dag.decisionOn p ≠ some false := fun p hp hf =>
        ho ⟨vx, hv, p, hp, hf⟩
      have hP : Stable hash genesis (fun _ _ => True) fun _ _ => True := .trivial
      obtain ⟨dag', hrun, _⟩ := hP.record hd True.intro hv hnr fun _ _ => True.intro
      exact Or.inl ⟨dag', hrun⟩

theorem recordQueryResult_returns_rejected : ∃ dag : DAG Digest,
    (∃ dag', dag.recordQueryResult Vertex.wire .ascending Fork.ab.wire true = .ok dag') ∨
      dag.recordQueryResult Vertex.wire .ascending Fork.ab.wire true = .err .alreadyRecorded ∨
      dag.recordQueryResult Vertex.wire .ascending Fork.ab.wire true = .err .waitingOnInsert ∨
      dag.recordQueryResult Vertex.wire .ascending Fork.ab.wire true = .err .notFound := by
  obtain ⟨dag, _, hr, _, ⟨_, _, _, ho, _⟩, _⟩ := Fork.branch_rejected
  exact ⟨dag, (recordQueryResult_returns_iff hr Fork.ab.wire true).mpr ho⟩

/-- A vote for one branch rejects the other; the result of a poll on a child of that one,
started before, then panics. -/
theorem recordQueryResult_panics : Vertex.CollisionFree Vertex.wire Set.univ ∧
    ∃ dag, (Fork.system ⟨1, 1⟩).Reachable dag ∧
      dag.recordQueryResult Vertex.wire .ascending Fork.abTip.wire true = .panic := by
  obtain ⟨dag, _, hr, _, ⟨_, _, ho, _⟩, _⟩ := Fork.branch_rejected
  exact ⟨Vertex.wire_collisionFree _, dag, hr, recordQueryResult_orphaned (sound_of_reachable hr) ho _⟩

end Taurus
